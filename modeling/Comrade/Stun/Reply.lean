import Comrade.Lib.Word

/-!
# A STUN reply

`stun_probe_mapped_fam` (`stunprobe.c`) takes the mapped address out of a binding reply.  Its
reads of the datagram are checked: one outside of it is a `Fault`.

* `IsReply` is a binding success that answers the probe, and `attrPos` the places of its
  attributes, one behind the other with their padding.
* `Mapped` is what the parser is for: the first attribute of the wanted family that lies wholly
  inside the declared length, decoded.
* `attrWalk_eq_ok`: the loop looks for the first such attribute inside the datagram instead.
* `CrossesEnd` is a wanted attribute for which this is not the same.
-/

namespace Comrade
namespace Stun

open Lib

/-! ## The code -/

/-- A read outside the datagram. -/
inductive Fault where
  | outside
  deriving DecidableEq

/-- `pkt[i]`. -/
def byteAt (pkt : Bytes) (i : Nat) : Except Fault UInt8 :=
  if h : i < pkt.length then .ok pkt[i] else .error .outside

/-- `(pkt[i] << 8) | pkt[i + 1]`. -/
def wordAt (pkt : Bytes) (i : Nat) : Except Fault Nat := do
  let hi ← byteAt pkt i
  let lo ← byteAt pkt (i + 1)
  return hi.toNat * 256 + lo.toNat

/-- `n` bytes from `i` on. -/
def bytesAt (pkt : Bytes) (i n : Nat) : Except Fault Bytes :=
  if i + n ≤ pkt.length then .ok ((pkt.drop i).take n) else .error .outside

/-- The constants of the protocol. -/
def stunMagic : Bytes := [0x21, 0x12, 0xa4, 0x42]
def stunBindingOk : Nat := 0x0101
def stunAttrMapped : Nat := 0x0001
def stunAttrXorMapped : Nat := 0x0020

/-- `STUN_PROBE_TXID_LEN`. -/
abbrev stunProbeTxidLen : Nat := 12

/-- The transaction id that a probe was sent under. -/
abbrev Seed := Vector UInt8 stunProbeTxidLen

/-- `stun_reply_ok`: the declared length of a reply to the probe. -/
def stunReplyOk (pkt : Bytes) (seed : Seed) : Except Fault (Option Nat) :=
  if pkt.length < 20 then return none
  else do
    let kind ← wordAt pkt 0
    if kind ≠ stunBindingOk then return none
    let mlen ← wordAt pkt 2
    if pkt.length < 20 + mlen then return none
    let magic ← bytesAt pkt 4 4
    if magic ≠ stunMagic then return none
    let txid ← bytesAt pkt 8 (stunProbeTxidLen - 1)
    if memcmp txid (seed.toList.take (stunProbeTxidLen - 1)) ≠ 0 then return none
    return some mlen

/-- `alen`: the size of an address of the wanted family. -/
def addrLen (wantFam : Int) : Nat := if wantFam = 2 then 16 else 4

/-- The test for an attribute at `i` that holds an address of the wanted family. -/
def isWanted (pkt : Bytes) (wantFam : Int) (i kind al : Nat) : Except Fault Bool :=
  if (kind = stunAttrXorMapped ∨ kind = stunAttrMapped) ∧ 4 + addrLen wantFam ≤ al then do
    let fam ← byteAt pkt (i + 4 + 1)
    return (fam.toNat : Int) == wantFam
  else return false

/-- The address and the port that the attribute at `i` holds. -/
def readMapped (pkt : Bytes) (wantFam : Int) (i kind : Nat) : Except Fault (Bytes × UInt16) :=
  if kind = stunAttrXorMapped then do
    let port ← wordAt pkt (i + 4 + 2)
    let head ← bytesAt pkt (i + 4 + 4) 4
    let tail ← bytesAt pkt (i + 4 + 8) (addrLen wantFam - 4)
    let mask ← bytesAt pkt 8 (addrLen wantFam - 4)
    return (head.zipWith (· ^^^ ·) stunMagic ++ tail.zipWith (· ^^^ ·) mask,
      UInt16.ofNat port ^^^ 0x2112)
  else do
    let port ← wordAt pkt (i + 4 + 2)
    let addr ← bytesAt pkt (i + 4 + 4) (addrLen wantFam)
    return (addr, UInt16.ofNat port)

/-- The loop of `stun_probe_mapped_fam`: the attributes from `i` on, up to the declared end. -/
def attrWalk (pkt : Bytes) (wantFam : Int) (stop i : Nat) :
    Except Fault (Option (Bytes × UInt16)) :=
  if h : i + 4 ≤ stop then do
    let kind ← wordAt pkt i
    let al ← wordAt pkt (i + 2)
    if pkt.length < i + 4 + al then return none
    let wanted ← isWanted pkt wantFam i kind al
    if wanted then some <$> readMapped pkt wantFam i kind
    else attrWalk pkt wantFam stop (i + (4 + (al + 3) / 4 * 4))
  else return none
termination_by stop - i
decreasing_by omega

/-- `stun_probe_mapped_fam`. -/
def stunProbeMappedFam (pkt : Bytes) (seed : Seed) (wantFam : Int) :
    Except Fault (Option (Bytes × UInt16)) := do
  match ← stunReplyOk pkt seed with
  | none => return none
  | some mlen => attrWalk pkt wantFam (20 + mlen) 20

/-! ## What a reply is -/

/-- The number in the two bytes at `i`. -/
def word16 (pkt : Bytes) (i : Nat) : Nat := beGet ((pkt.drop i).take 2)

/-- The end of the message as its header declares it. -/
def declaredEnd (pkt : Bytes) : Nat := 20 + word16 pkt 2

/-- A binding success with the magic cookie that lies inside the datagram and has the seed in
all of its transaction id but the last byte. -/
structure IsReply (pkt : Bytes) (seed : Seed) : Prop where
  header : 20 ≤ pkt.length
  kind : word16 pkt 0 = stunBindingOk
  declared : declaredEnd pkt ≤ pkt.length
  magic : (pkt.drop 4).take 4 = stunMagic
  txid : (pkt.drop 8).take (stunProbeTxidLen - 1) = seed.toList.take (stunProbeTxidLen - 1)

/-- The declared length of the attribute at `i`, and the end of its value. -/
def attrLen (pkt : Bytes) (i : Nat) : Nat := word16 pkt (i + 2)
def attrEnd (pkt : Bytes) (i : Nat) : Nat := i + 4 + attrLen pkt i

/-- The place behind the padding of the attribute at `i`. -/
def nextAttr (pkt : Bytes) (i : Nat) : Nat := i + (4 + (attrLen pkt i + 3) / 4 * 4)

/-- The place of the `n`th attribute. -/
def attrPos (pkt : Bytes) : Nat → Nat
  | 0 => 20
  | n + 1 => nextAttr pkt (attrPos pkt n)

/-- The attribute at `i` is a mapped address of the wanted family. -/
structure Wanted (pkt : Bytes) (wantFam : Int) (i : Nat) : Prop where
  kind : word16 pkt i = stunAttrXorMapped ∨ word16 pkt i = stunAttrMapped
  size : 4 + addrLen wantFam ≤ attrLen pkt i
  family : ((pkt.getD (i + 4 + 1) 0).toNat : Int) = wantFam

/-- What the attribute at `i` holds.  A masked address is combined with the cookie and the
transaction id of the reply, a masked port with the first half of the cookie. -/
def decoded (pkt : Bytes) (wantFam : Int) (i : Nat) : Bytes × UInt16 :=
  let addr := (pkt.drop (i + 4 + 4)).take (addrLen wantFam)
  let port := UInt16.ofNat (word16 pkt (i + 4 + 2))
  if word16 pkt i = stunAttrXorMapped then
    (addr.zipWith (· ^^^ ·) ((pkt.drop 4).take 16), port ^^^ 0x2112)
  else (addr, port)

/-- `x` is what the first attribute of the wanted family holds that lies wholly inside the
declared length. -/
def Mapped (pkt : Bytes) (seed : Seed) (wantFam : Int) (x : Bytes × UInt16) : Prop :=
  IsReply pkt seed ∧ ∃ n, Wanted pkt wantFam (attrPos pkt n) ∧
    attrEnd pkt (attrPos pkt n) ≤ declaredEnd pkt ∧
    (∀ m < n, ¬(Wanted pkt wantFam (attrPos pkt m) ∧
      attrEnd pkt (attrPos pkt m) ≤ declaredEnd pkt)) ∧
    x = decoded pkt wantFam (attrPos pkt n)

/-- No attribute of the wanted family lies wholly inside the declared length, but the last one
has its header there and its value ends behind it, still inside the datagram. -/
def CrossesEnd (pkt : Bytes) (seed : Seed) (wantFam : Int) : Prop :=
  IsReply pkt seed ∧ ∃ n, Wanted pkt wantFam (attrPos pkt n) ∧
    attrPos pkt n + 4 ≤ declaredEnd pkt ∧
    declaredEnd pkt < attrEnd pkt (attrPos pkt n) ∧
    attrEnd pkt (attrPos pkt n) ≤ pkt.length ∧
    ∀ m < n, ¬(Wanted pkt wantFam (attrPos pkt m) ∧
      attrEnd pkt (attrPos pkt m) ≤ declaredEnd pkt)

/-! ## The reads -/

@[simp] theorem ok_bind {α β : Type} (a : α) (f : α → Except Fault β) :
    (Except.ok a >>= f) = f a := rfl

theorem byteAt_ok {pkt : Bytes} {i : Nat} (h : i < pkt.length) :
    byteAt pkt i = .ok (pkt.getD i 0) := by
  rw [byteAt, dif_pos h, List.getD_eq_getElem pkt 0 h]

theorem bytesAt_ok {pkt : Bytes} {i n : Nat} (h : i + n ≤ pkt.length) :
    bytesAt pkt i n = .ok ((pkt.drop i).take n) := if_pos h

theorem word16_eq {pkt : Bytes} {i : Nat} (h : i + 2 ≤ pkt.length) :
    word16 pkt i = (pkt.getD i 0).toNat * 256 + (pkt.getD (i + 1) 0).toNat := by
  have hhi := List.drop_eq_getElem_cons (show i < pkt.length by omega)
  have hlo := List.drop_eq_getElem_cons (show i + 1 < pkt.length by omega)
  rw [word16, hhi, hlo, List.getD_eq_getElem pkt 0 (by omega),
    List.getD_eq_getElem pkt 0 (by omega), List.take_succ_cons, List.take_succ_cons,
    List.take_zero, beGet, List.foldl_cons, List.foldl_cons, List.foldl_nil]
  omega

theorem wordAt_ok {pkt : Bytes} {i : Nat} (h : i + 2 ≤ pkt.length) :
    wordAt pkt i = .ok (word16 pkt i) := by
  rw [wordAt, byteAt_ok (by omega), byteAt_ok (by omega), word16_eq h]
  rfl

/-- The address of a masked attribute, read in two parts. -/
theorem zipWith_mask {pkt : Bytes} {i n : Nat} (hn : 4 ≤ n) (hmax : n ≤ 16)
    (hi : i + n ≤ pkt.length) (hhead : 20 ≤ pkt.length) :
    ((pkt.drop i).take 4).zipWith (· ^^^ ·) ((pkt.drop 4).take 4) ++
        ((pkt.drop (i + 4)).take (n - 4)).zipWith (· ^^^ ·) ((pkt.drop 8).take (n - 4)) =
      ((pkt.drop i).take n).zipWith (· ^^^ ·) ((pkt.drop 4).take 16) := by
  have hcut : ∀ m k, (pkt.drop m).take (4 + k) =
      (pkt.drop m).take 4 ++ (pkt.drop (m + 4)).take k := by
    intro m k
    rw [List.take_add, List.drop_drop]
  have haddr := hcut i (n - 4)
  have hmask := hcut 4 12
  rw [show 4 + (n - 4) = n by omega] at haddr
  rw [haddr, show (16 : Nat) = 4 + 12 by rfl, hmask, List.zipWith_append (by simp; omega)]
  congr 1
  -- the mask of the transaction id is longer than a v4 address needs
  have hall : ((pkt.drop (i + 4)).take (n - 4)).zipWith (· ^^^ ·) ((pkt.drop (4 + 4)).take 12) =
      (((pkt.drop (i + 4)).take (n - 4)).zipWith (· ^^^ ·)
        ((pkt.drop (4 + 4)).take 12)).take (n - 4) := by
    refine (List.take_of_length_le ?_).symm
    simp only [List.length_zipWith, List.length_take]
    omega
  rw [hall, List.take_zipWith, List.take_take, List.take_take, Nat.min_self,
    Nat.min_eq_left (by omega)]

/-! ## The steps of the loop -/

theorem stunReplyOk_eq (pkt : Bytes) (seed : Seed) :
    (IsReply pkt seed → stunReplyOk pkt seed = .ok (some (word16 pkt 2))) ∧
      (¬IsReply pkt seed → stunReplyOk pkt seed = .ok none) := by
  unfold stunReplyOk
  by_cases hhead : pkt.length < 20
  · rw [if_pos hhead]
    refine ⟨fun h => absurd h.header (by omega), fun _ => rfl⟩
  · rw [if_neg hhead, wordAt_ok (by omega), wordAt_ok (by omega), bytesAt_ok (by omega),
      bytesAt_ok (by simp only [stunProbeTxidLen]; omega)]
    have hlen : ((pkt.drop 8).take (stunProbeTxidLen - 1)).length =
        (seed.toList.take (stunProbeTxidLen - 1)).length := by
      simp only [List.length_take, List.length_drop, Vector.length_toList, stunProbeTxidLen]
      omega
    simp only [ok_bind, ne_eq, memcmp_eq_zero_iff hlen]
    by_cases hkind : word16 pkt 0 = stunBindingOk
    · by_cases hlong : pkt.length < 20 + word16 pkt 2
      · rw [if_neg (by simpa using hkind), if_pos hlong]
        exact ⟨fun h => absurd h.declared (by simpa [declaredEnd] using hlong), fun _ => rfl⟩
      · by_cases hmagic : (pkt.drop 4).take 4 = stunMagic
        · by_cases htxid : (pkt.drop 8).take (stunProbeTxidLen - 1) =
              seed.toList.take (stunProbeTxidLen - 1)
          · simp only [hkind, hlong, hmagic, htxid, not_true_eq_false, if_false]
            refine ⟨fun _ => rfl, fun h => absurd ?_ h⟩
            exact ⟨not_lt.mp hhead, hkind, not_lt.mp hlong, hmagic, htxid⟩
          · simp only [hkind, hlong, hmagic, htxid, not_true_eq_false, not_false_eq_true, if_false,
              if_true]
            exact ⟨fun h => absurd h.txid htxid, fun _ => rfl⟩
        · simp only [hkind, hlong, hmagic, not_true_eq_false, not_false_eq_true, if_false, if_true]
          exact ⟨fun h => absurd h.magic hmagic, fun _ => rfl⟩
    · rw [if_pos hkind]
      exact ⟨fun h => absurd h.kind hkind, fun _ => rfl⟩

/-- The test for the wanted attribute reads only what the attribute holds. -/
theorem isWanted_ok {pkt : Bytes} (wantFam : Int) {i : Nat} (hend : attrEnd pkt i ≤ pkt.length) :
    ∃ b, isWanted pkt wantFam i (word16 pkt i) (attrLen pkt i) = .ok b ∧
      (b = true ↔ Wanted pkt wantFam i) := by
  unfold isWanted
  by_cases htest : (word16 pkt i = stunAttrXorMapped ∨ word16 pkt i = stunAttrMapped) ∧
      4 + addrLen wantFam ≤ attrLen pkt i
  · have hfam : i + 4 + 1 < pkt.length := by
      have hsize := htest.2
      rw [attrEnd] at hend
      omega
    rw [if_pos htest, byteAt_ok hfam]
    refine ⟨_, rfl, ?_⟩
    rw [beq_iff_eq]
    exact ⟨fun h => ⟨htest.1, htest.2, h⟩, fun h => h.family⟩
  · rw [if_neg htest]
    exact ⟨false, rfl, by simpa using fun h : Wanted pkt wantFam i => htest ⟨h.kind, h.size⟩⟩

/-- A wanted attribute inside the datagram is read without leaving it. -/
theorem readMapped_ok {pkt : Bytes} {wantFam : Int} {i : Nat} (hw : Wanted pkt wantFam i)
    (hend : attrEnd pkt i ≤ pkt.length) (hhead : 20 ≤ pkt.length)
    (hmagic : (pkt.drop 4).take 4 = stunMagic) :
    readMapped pkt wantFam i (word16 pkt i) = .ok (decoded pkt wantFam i) := by
  have hsize := hw.size
  have hfour : 4 ≤ addrLen wantFam := by
    unfold addrLen
    split <;> omega
  have hmax : addrLen wantFam ≤ 16 := by
    unfold addrLen
    split <;> omega
  rw [attrEnd] at hend
  unfold readMapped decoded
  by_cases hxor : word16 pkt i = stunAttrXorMapped
  · rw [if_pos hxor, if_pos hxor, wordAt_ok (by omega), bytesAt_ok (by omega),
      bytesAt_ok (by omega), bytesAt_ok (by omega)]
    simp only [ok_bind]
    rw [← hmagic, zipWith_mask hfour hmax (by omega) hhead]
    rfl
  · rw [if_neg hxor, if_neg hxor, wordAt_ok (by omega), bytesAt_ok (by omega)]
    rfl

/-- One turn of the loop, with its reads inside the datagram. -/
theorem attrWalk_step {pkt : Bytes} (wantFam : Int) {stop i : Nat} (hi : i + 4 ≤ stop)
    (hstop : stop ≤ pkt.length) (hhead : 20 ≤ pkt.length)
    (hmagic : (pkt.drop 4).take 4 = stunMagic) :
    (pkt.length < attrEnd pkt i → attrWalk pkt wantFam stop i = .ok none) ∧
      (attrEnd pkt i ≤ pkt.length → Wanted pkt wantFam i →
        attrWalk pkt wantFam stop i = .ok (some (decoded pkt wantFam i))) ∧
      (attrEnd pkt i ≤ pkt.length → ¬Wanted pkt wantFam i →
        attrWalk pkt wantFam stop i = attrWalk pkt wantFam stop (nextAttr pkt i)) := by
  have hturn : attrWalk pkt wantFam stop i =
      if pkt.length < attrEnd pkt i then .ok none
      else isWanted pkt wantFam i (word16 pkt i) (attrLen pkt i) >>= fun b =>
        if b = true then some <$> readMapped pkt wantFam i (word16 pkt i)
        else attrWalk pkt wantFam stop (nextAttr pkt i) := by
    rw [attrWalk, dif_pos hi, wordAt_ok (by omega), wordAt_ok (by omega)]
    rfl
  rw [hturn]
  refine ⟨fun h => if_pos h, ?_, ?_⟩
  · intro hend hw
    obtain ⟨b, hb, hiff⟩ := isWanted_ok wantFam hend
    rw [if_neg (not_lt.mpr hend), hb, ok_bind, if_pos (hiff.mpr hw),
      readMapped_ok hw hend hhead hmagic]
    rfl
  · intro hend hw
    obtain ⟨b, hb, hiff⟩ := isWanted_ok wantFam hend
    rw [if_neg (not_lt.mpr hend), hb, ok_bind, if_neg (fun h => hw (hiff.mp h))]

/-! ## The walk over the attributes -/

theorem attrEnd_le_nextAttr (pkt : Bytes) (i : Nat) : attrEnd pkt i ≤ nextAttr pkt i := by
  unfold attrEnd nextAttr
  omega

theorem attrPos_strictMono (pkt : Bytes) : StrictMono (attrPos pkt) := by
  refine strictMono_nat_of_lt_succ fun n => ?_
  rw [attrPos, nextAttr]
  omega

/-- An attribute ends before any later one begins. -/
theorem attrEnd_le_attrPos (pkt : Bytes) {m n : Nat} (h : m < n) :
    attrEnd pkt (attrPos pkt m) ≤ attrPos pkt n :=
  (attrEnd_le_nextAttr pkt _).trans ((attrPos_strictMono pkt).monotone h)

/-- The loop finds the first wanted attribute that lies wholly inside the datagram and begins
inside the declared length. -/
def Found (pkt : Bytes) (wantFam : Int) (stop n : Nat) : Prop :=
  Wanted pkt wantFam (attrPos pkt n) ∧ attrPos pkt n + 4 ≤ stop ∧
    attrEnd pkt (attrPos pkt n) ≤ pkt.length ∧ ∀ m < n, ¬Wanted pkt wantFam (attrPos pkt m)

theorem attrWalk_eq_ok {pkt : Bytes} {wantFam : Int} {stop : Nat} (hstop : stop ≤ pkt.length)
    (hhead : 20 ≤ pkt.length) (hmagic : (pkt.drop 4).take 4 = stunMagic) (n : Nat)
    (hbefore : ∀ m < n, ¬Wanted pkt wantFam (attrPos pkt m)) :
    ∃ r, attrWalk pkt wantFam stop (attrPos pkt n) = .ok r ∧
      ∀ x, r = some x ↔
        ∃ k, Found pkt wantFam stop k ∧ x = decoded pkt wantFam (attrPos pkt k) := by
  induction hd : stop - attrPos pkt n using Nat.strong_induction_on generalizing n with
  | _ d ih =>
      have hle : ∀ {k}, Found pkt wantFam stop k → n ≤ k := fun hk =>
        not_lt.mp fun hlt => hbefore _ hlt hk.1
      by_cases hi : attrPos pkt n + 4 ≤ stop
      · obtain ⟨hpast, hfound, hnext⟩ :=
          attrWalk_step wantFam hi hstop hhead hmagic
        by_cases hend : attrEnd pkt (attrPos pkt n) ≤ pkt.length
        · by_cases hw : Wanted pkt wantFam (attrPos pkt n)
          · refine ⟨_, hfound hend hw, fun x => ?_⟩
            rw [Option.some_inj]
            constructor
            · rintro rfl
              exact ⟨n, ⟨hw, hi, hend, hbefore⟩, rfl⟩
            · rintro ⟨k, hk, rfl⟩
              obtain hkn | rfl := (hle hk).lt_or_eq
              · exact absurd hw (hk.2.2.2 n hkn)
              · rfl
          · have hsucc : ∀ m < n + 1, ¬Wanted pkt wantFam (attrPos pkt m) := by
              intro m hm
              obtain hmn | rfl := Nat.lt_succ_iff_lt_or_eq.mp hm
              · exact hbefore m hmn
              · exact hw
            have hlt : stop - attrPos pkt (n + 1) < d := by
              have hmono := attrPos_strictMono pkt (show n < n + 1 by omega)
              omega
            rw [hnext hend hw]
            exact ih _ hlt (n + 1) hsucc rfl
        · refine ⟨none, hpast (not_le.mp hend), fun x => ?_⟩
          simp only [reduceCtorEq, false_iff]
          rintro ⟨k, hk, -⟩
          obtain hkn | rfl := (hle hk).lt_or_eq
          · have hafter := attrEnd_le_attrPos pkt hkn
            have hin := hk.2.1
            omega
          · exact hend hk.2.2.1
      · refine ⟨none, ?_, fun x => ?_⟩
        · rw [attrWalk, dif_neg hi]
          rfl
        · simp only [reduceCtorEq, false_iff]
          rintro ⟨k, hk, -⟩
          have hmono := (attrPos_strictMono pkt).monotone (hle hk)
          have hin := hk.2.1
          omega

/-! ## The parser -/

/-- The answer of the parser to a reply. -/
theorem stunProbeMappedFam_of_isReply {pkt : Bytes} {seed : Seed} (wantFam : Int)
    (h : IsReply pkt seed) :
    ∃ r, stunProbeMappedFam pkt seed wantFam = .ok r ∧ ∀ x, r = some x ↔
      ∃ k, Found pkt wantFam (declaredEnd pkt) k ∧ x = decoded pkt wantFam (attrPos pkt k) := by
  rw [stunProbeMappedFam, (stunReplyOk_eq pkt seed).1 h]
  exact attrWalk_eq_ok h.declared h.header h.magic 0 (by simp)

theorem stunProbeMappedFam_of_not_isReply {pkt : Bytes} {seed : Seed} (wantFam : Int)
    (h : ¬IsReply pkt seed) : stunProbeMappedFam pkt seed wantFam = .ok none := by
  rw [stunProbeMappedFam, (stunReplyOk_eq pkt seed).2 h]
  rfl

/-- Before an attribute that begins inside the declared length, every other lies wholly inside
it. -/
theorem none_wanted_iff {pkt : Bytes} {wantFam : Int} {n : Nat}
    (hn : attrPos pkt n + 4 ≤ declaredEnd pkt) :
    (∀ m < n, ¬(Wanted pkt wantFam (attrPos pkt m) ∧
        attrEnd pkt (attrPos pkt m) ≤ declaredEnd pkt)) ↔
      ∀ m < n, ¬Wanted pkt wantFam (attrPos pkt m) := by
  refine forall₂_congr fun m hm => ?_
  have hend := attrEnd_le_attrPos pkt hm
  exact not_congr (and_iff_left (by omega))

/-- The parser ends on every datagram without a read outside of it, and gives the mapped
address wherever the reply has one.  What it gives is the mapped address unless an attribute
of the wanted family crosses the declared end. -/
theorem stunProbeMappedFam_iff (pkt : Bytes) (seed : Seed) (wantFam : Int) :
    (∃ r, stunProbeMappedFam pkt seed wantFam = .ok r) ∧
      (∀ x, Mapped pkt seed wantFam x → stunProbeMappedFam pkt seed wantFam = .ok (some x)) ∧
      ((∀ x, stunProbeMappedFam pkt seed wantFam = .ok (some x) → Mapped pkt seed wantFam x) ↔
        ¬CrossesEnd pkt seed wantFam) := by
  by_cases h : IsReply pkt seed
  · obtain ⟨r, hr, hiff⟩ := stunProbeMappedFam_of_isReply wantFam h
    have hfits : ∀ {n}, attrEnd pkt (attrPos pkt n) ≤ declaredEnd pkt →
        attrPos pkt n + 4 ≤ declaredEnd pkt := by
      intro n hn
      rw [attrEnd] at hn
      omega
    simp only [hr, Except.ok.injEq, hiff]
    refine ⟨⟨r, rfl⟩, ?_, ?_⟩
    · rintro x ⟨-, n, hw, hend, hfirst, rfl⟩
      have hin := hfits hend
      exact ⟨n, ⟨hw, hin, hend.trans h.declared, (none_wanted_iff hin).mp hfirst⟩, rfl⟩
    · constructor
      · rintro hmapped ⟨-, n, hw, hin, hcross, hend, hfirst⟩
        have hnone := (none_wanted_iff hin).mp hfirst
        obtain ⟨-, k, hk, hkend, -⟩ := hmapped _ ⟨n, ⟨hw, hin, hend, hnone⟩, rfl⟩
        obtain hlt | rfl | hgt := lt_trichotomy k n
        · exact hnone k hlt hk
        · omega
        · have hafter := attrEnd_le_attrPos pkt hgt
          have hin := hfits hkend
          omega
      · rintro hcross x ⟨n, ⟨hw, hin, hend, hnone⟩, rfl⟩
        have hfirst := (none_wanted_iff hin).mpr hnone
        refine ⟨h, n, hw, not_lt.mp fun hlt => ?_, hfirst, rfl⟩
        exact hcross ⟨h, n, hw, hin, hlt, hend, hfirst⟩
  · rw [stunProbeMappedFam_of_not_isReply wantFam h]
    refine ⟨⟨none, rfl⟩, fun x hx => absurd hx.1 h, ?_⟩
    exact iff_of_true (fun x hx => by cases hx) fun hcross => h hcross.1

/-- A reply with a declared length of 8 and a v4 address of 12 bytes behind its header. -/
def crossingReply : Bytes :=
  [0x01, 0x01, 0x00, 0x08] ++ stunMagic ++ List.replicate 12 7 ++
    [0x00, 0x01, 0x00, 0x08, 0x00, 0x01, 0x12, 0x34, 192, 0, 2, 1]

/-- The address ends four bytes behind the declared end and is given all the same. -/
theorem stunProbeMappedFam_crossing :
    stunProbeMappedFam crossingReply (Vector.replicate 12 7) 1 =
        .ok (some ([192, 0, 2, 1], 0x1234)) ∧
      ¬Mapped crossingReply (Vector.replicate 12 7) 1 ([192, 0, 2, 1], 0x1234) := by
  refine ⟨by with_unfolding_all decide, ?_⟩
  rintro ⟨-, n, -, hend, -⟩
  have hfirst : attrEnd crossingReply (attrPos crossingReply 0) = 32 := by decide
  have hstop : declaredEnd crossingReply = 28 := by decide
  cases n with
  | zero => omega
  | succ n =>
      have hafter := attrEnd_le_attrPos crossingReply (show 0 < n + 1 by omega)
      rw [attrEnd] at hend
      omega

end Stun
end Comrade
