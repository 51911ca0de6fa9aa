import Comrade.Candpack.Encode
import Comrade.Lib.Reader

/-!
# Unpacking a description

`candpack_decode`: a reader of a packing, of this version or one of the two before it, that
writes the description out as text while it reads.  The length tests of the source are steps
of it, and so are its writes to buffers of a fixed size; a read or a write past the end of a
buffer is `Stop.fault`.

* `candpackDecode_safe`: no buffer makes it fault.
* `candpackDecoder_extends`: what it reads of a packing it reads of every longer one.
-/

namespace Comrade
namespace Candpack

open Lib Lib.Reader

/-- The two ways `candpack_decode` fails: -1, and `CANDPACK_ERR_VERSION`. -/
inductive DecodeErr where
  | malformed
  | version
  deriving DecidableEq, Repr

/-- What the decoder hands out; `offer` is empty where no buffer for it is given. -/
structure Decoded where
  gen : UInt32
  offer : Bytes
  cid : Vector UInt8 8
  out : Bytes
  deriving DecidableEq

/-- What the fields in front of the credentials say. -/
structure Stamp where
  gen : UInt32
  offer : Bytes
  cid : Vector UInt8 8
  deriving DecidableEq

/-- A step of the decoder. -/
abbrev Decode (α : Type) := Reader UInt8 DecodeErr α

/-! ## The text -/

/-- The credential lines: `"a=ice-ufrag:%s\na=ice-pwd:%s\n"`. -/
def credText (ufrag pwd : Bytes) : Bytes :=
  ascii "a=ice-ufrag:".toList ++ ufrag ++ ascii "\na=ice-pwd:".toList ++ pwd
    ++ ascii "\n".toList

/-- A candidate line: `"a=candidate:%d 1 UDP %u %s %d typ %s%s\n"`. -/
def candText (inet : Inet) (k : Nat) (type : CandType) (fam : Family) (prio port : Nat)
    (addr : Bytes) : Bytes :=
  ascii "a=candidate:".toList ++ decimal k ++ ascii " 1 UDP ".toList ++ decimal prio
    ++ ascii " ".toList ++ inet.ntop fam addr ++ ascii " ".toList ++ decimal port
    ++ ascii " typ ".toList ++ type.name
    ++ (if type = .host then [] else ascii " raddr 0.0.0.0 rport 0".toList)
    ++ ascii "\n".toList

/-- `snprintf` behind what `out` holds already, in a buffer of `max`. -/
def appendText (max : Nat) (out text : Bytes) : Decode Bytes := do
  -- past the end of the buffer the room left, `max - o`, would wrap
  within out.length max
  refuse (max ≤ out.length + text.length) .malformed
  return out ++ text

/-! ## The decoder -/

/-- The length byte of the offer, from version 3 on. -/
def decodeOul (ver : UInt8) : Decode UInt8 :=
  if 3 ≤ ver then do
    need 1 .malformed
    next
  else pure 0

/-- The offer that is named, where the version has one. -/
def decodeOffer (offerMax : Nat) (ver : UInt8) : Decode Bytes := do
  let oul ← decodeOul ver
  need (oul.toNat + 1) .malformed
  if 3 ≤ ver ∧ offerMax ≠ 0 then do
    refuse (offerMax ≤ oul.toNat) .malformed
    within (oul.toNat + 1) offerMax
    take oul.toNat
  else do
    let _ ← take oul.toNat
    return []

/-- The instance id of a field: zeroes unless the field has its length. -/
def cidOfField (b : Bytes) : Vector UInt8 8 :=
  if h : b.length = 8 then ⟨b.toArray, by simpa using h⟩ else Vector.replicate 8 0

/-- The instance id, from version 4 on. -/
def decodeCid (ver : UInt8) : Decode (Vector UInt8 8) := do
  if 4 ≤ ver then do
    need 1 .malformed
    let cl ← next
    need (cl.toNat + 1) .malformed
    let b ← take cl.toNat
    return cidOfField b
  else return Vector.replicate 8 0

/-- The fields in front of the credentials. -/
def decodeStamp (offerMax : Nat) : Decode Stamp := do
  need 1 .malformed
  let ver ← next
  refuse (ver < 2 ∨ candpackVersion < ver) .version
  need 4 .malformed
  let gen ← take 4
  let offer ← decodeOffer offerMax ver
  let cid ← decodeCid ver
  return { gen := UInt32.ofNat (beGet gen), offer, cid }

/-- A credential behind its length byte, with `more` bytes after it. -/
def decodeCred (more : Nat) : Decode Bytes := do
  let n ← next
  need (n.toNat + more) .malformed
  within (n.toNat + 1) 257
  take n.toNat

/-- The candidate `k`, written behind what `out` holds already. -/
def decodeCand (inet : Inet) (max k : Nat) (out : Bytes) : Decode Bytes := do
  need 8 .malformed
  let tc ← next
  let fam ← next
  let prio ← take 4
  let port ← take 2
  need (Family.ofCode fam).alen .malformed
  let addr ← take (Family.ofCode fam).alen
  match CandType.ofCode tc with
  | none => stop .malformed
  | some type =>
      appendText max out
        (candText inet k type (Family.ofCode fam) (beGet prio) (beGet port) addr)

/-- The loop over the candidates, from `k` on. -/
def decodeCands (inet : Inet) (max : Nat) : Nat → Nat → Bytes → Decode Bytes
  | 0, _, out => pure out
  | n + 1, k, out => do
      let out ← decodeCand inet max k out
      decodeCands inet max n (k + 1) out

/-- The credentials and the candidates. -/
def decodeBody (inet : Inet) (max : Nat) (st : Stamp) : Decode Decoded := do
  let ufrag ← decodeCred 1
  let pwd ← decodeCred 0
  need 1 .malformed
  let ncand ← next
  let out ← appendText max [] (credText (cString ufrag) (cString pwd))
  let out ← decodeCands inet max ncand.toNat 0 out
  return { gen := st.gen, offer := st.offer, cid := st.cid, out }

/-- `candpack_decode` as a reader of its input. -/
def candpackDecoder (inet : Inet) (offerMax max : Nat) : Decode Decoded := do
  let st ← decodeStamp offerMax
  decodeBody inet max st

/-- `candpack_decode`, with a buffer of `offerMax` for the offer, none where that is 0, and one
of `max` for the text. -/
def candpackDecode (inet : Inet) (input : Bytes) (offerMax max : Nat) :
    Except (Stop DecodeErr) Decoded := (candpackDecoder inet offerMax max input).map Prod.fst

theorem candpackDecode_eq_ok {inet : Inet} {input : Bytes} {offerMax max : Nat} {d : Decoded}
    (h : candpackDecode inet input offerMax max = .ok d) :
    ∃ r, candpackDecoder inet offerMax max input = .ok (d, r) := by
  unfold candpackDecode at h
  cases hrun : candpackDecoder inet offerMax max input with
  | error e =>
      rw [hrun] at h
      cases h
  | ok x =>
      rw [hrun] at h
      obtain rfl := Except.ok.inj h
      exact ⟨x.2, rfl⟩

/-! ## Every access is within its buffer -/

theorem appendText_safe {max : Nat} {out : Bytes} (hout : out.length ≤ max) (text r : Bytes) :
    Safe (appendText max out text) r fun out' _ => out'.length ≤ max := by
  refine (Safe.within hout r).bind ?_
  rintro _ r rfl
  refine (Safe.refuse _ _ r).bind ?_
  rintro _ r ⟨rfl, hroom⟩
  apply Safe.pure
  rw [List.length_append]
  omega

/-- A byte is left behind the offer. -/
theorem decodeOffer_safe (offerMax : Nat) (ver : UInt8) (r : Bytes) :
    Safe (decodeOffer offerMax ver) r fun _ r' => 0 < r'.length := by
  have hlen : Safe (decodeOul ver) r fun _ _ => True := by
    unfold decodeOul
    split_ifs
    · refine (Safe.need 1 _ r).bind ?_
      rintro _ r ⟨rfl, hone⟩
      exact (Safe.next hone).imp fun _ _ _ => trivial
    · exact Safe.pure trivial
  refine hlen.bind ?_
  rintro oul r -
  refine (Safe.need _ _ r).bind ?_
  rintro _ r ⟨rfl, hleft⟩
  split_ifs
  · refine (Safe.refuse _ _ r).bind ?_
    rintro _ r ⟨rfl, hfits⟩
    refine (Safe.within (by omega) r).bind ?_
    rintro _ r rfl
    refine (Safe.take (by omega)).imp ?_
    rintro _ r' ⟨-, hrest⟩
    omega
  · refine (Safe.take (n := oul.toNat) (by omega)).bind ?_
    rintro _ r' ⟨-, hrest⟩
    exact Safe.pure (by omega)

/-- A byte is left behind the instance id. -/
theorem decodeCid_safe (ver : UInt8) {r : Bytes} (hr : 0 < r.length) :
    Safe (decodeCid ver) r fun _ r' => 0 < r'.length := by
  unfold decodeCid
  split_ifs
  · refine (Safe.need 1 _ r).bind ?_
    rintro _ r ⟨rfl, hone⟩
    refine (Safe.next hone).bind ?_
    rintro cl r hrest
    refine (Safe.need _ _ r).bind ?_
    rintro _ r ⟨rfl, hleft⟩
    refine (Safe.take (n := cl.toNat) (by omega)).bind ?_
    rintro _ r' ⟨-, hrest⟩
    exact Safe.pure (by omega)
  · exact Safe.pure hr

theorem decodeStamp_safe (offerMax : Nat) (r : Bytes) :
    Safe (decodeStamp offerMax) r fun _ r' => 0 < r'.length := by
  refine (Safe.need 1 _ r).bind ?_
  rintro _ r ⟨rfl, hone⟩
  refine (Safe.next hone).bind ?_
  rintro ver r -
  refine (Safe.refuse _ _ r).bind ?_
  rintro _ r ⟨rfl, -⟩
  refine (Safe.need 4 _ r).bind ?_
  rintro _ r ⟨rfl, hfour⟩
  refine (Safe.take hfour).bind ?_
  rintro gen r -
  refine (decodeOffer_safe offerMax ver r).bind ?_
  intro offer r hr
  refine (decodeCid_safe ver hr).bind ?_
  intro cid r hr
  exact Safe.pure hr

/-- A credential fits the buffer of its type: a length byte says no more than 255. -/
theorem decodeCred_safe (more : Nat) {r : Bytes} (hr : 0 < r.length) :
    Safe (decodeCred more) r fun _ r' => more ≤ r'.length := by
  refine (Safe.next hr).bind ?_
  rintro n r -
  refine (Safe.need _ _ r).bind ?_
  rintro _ r ⟨rfl, hleft⟩
  have hbyte := n.toNat_lt
  refine (Safe.within (by omega) r).bind ?_
  rintro _ r rfl
  refine (Safe.take (by omega)).imp ?_
  rintro _ r' ⟨-, hrest⟩
  omega

theorem decodeCand_safe (inet : Inet) {max : Nat} (k : Nat) {out : Bytes}
    (hout : out.length ≤ max) (r : Bytes) :
    Safe (decodeCand inet max k out) r fun out' _ => out'.length ≤ max := by
  refine (Safe.need 8 _ r).bind ?_
  rintro _ r ⟨rfl, height⟩
  refine (Safe.next (by omega)).bind ?_
  intro tc r₁ h₁
  refine (Safe.next (by omega)).bind ?_
  intro fam r₂ h₂
  refine (Safe.take (n := 4) (by omega)).bind ?_
  rintro prio r₃ ⟨-, h₃⟩
  refine (Safe.take (n := 2) (by omega)).bind ?_
  rintro port r₄ ⟨-, h₄⟩
  refine (Safe.need _ _ r₄).bind ?_
  rintro _ r ⟨rfl, halen⟩
  refine (Safe.take halen).bind ?_
  rintro addr r -
  split
  · exact Safe.stop
  · exact appendText_safe hout _ r

theorem decodeCands_safe (inet : Inet) {max : Nat} (n k : Nat) {out : Bytes}
    (hout : out.length ≤ max) (r : Bytes) :
    Safe (decodeCands inet max n k out) r fun out' _ => out'.length ≤ max := by
  induction n generalizing k out r with
  | zero => exact Safe.pure hout
  | succ n ih =>
      refine (decodeCand_safe inet k hout r).bind ?_
      intro out' r' hout'
      exact ih (k + 1) hout' r'

theorem decodeBody_safe (inet : Inet) (max : Nat) (st : Stamp) {r : Bytes} (hr : 0 < r.length) :
    Safe (decodeBody inet max st) r fun _ _ => True := by
  refine (decodeCred_safe 1 hr).bind ?_
  intro ufrag r hr
  refine (decodeCred_safe 0 hr).bind ?_
  rintro pwd r -
  refine (Safe.need 1 _ r).bind ?_
  rintro _ r ⟨rfl, hone⟩
  refine (Safe.next hone).bind ?_
  rintro ncand r -
  refine (appendText_safe (Nat.zero_le max) _ r).bind ?_
  intro out r hout
  refine (decodeCands_safe inet ncand.toNat 0 hout r).bind ?_
  rintro out r -
  exact Safe.pure trivial

/-- Whatever the bytes, and whatever room there is, the decoder stays within its buffers. -/
theorem candpackDecode_safe (inet : Inet) (input : Bytes) (offerMax max : Nat) :
    candpackDecode inet input offerMax max ≠ .error .fault := by
  have hsafe : Safe (candpackDecoder inet offerMax max) input fun _ _ => True := by
    refine (decodeStamp_safe offerMax input).bind ?_
    intro st r hr
    exact decodeBody_safe inet max st hr
  have hfault := hsafe.1
  unfold candpackDecode
  cases hrun : candpackDecoder inet offerMax max input with
  | ok x => simp [Except.map]
  | error e =>
      rw [hrun] at hfault
      simpa [Except.map] using hfault

/-! ## A packing is read from its front -/

theorem appendText_extends (max : Nat) (out text : Bytes) : Extends (appendText max out text) :=
  (Extends.within _ _).bind fun _ => (Extends.refuse _ _).bind fun _ => Extends.pure _

theorem decodeStamp_extends (offerMax : Nat) : Extends (decodeStamp offerMax) := by
  have hoffer : ∀ ver, Extends (decodeOffer offerMax ver) := by
    intro ver
    refine Extends.bind ?_ fun oul => (Extends.need _ _).bind fun _ => ?_
    · unfold decodeOul
      split_ifs
      · exact (Extends.need 1 _).bind fun _ => Extends.next
      · exact Extends.pure 0
    · split_ifs
      · exact (Extends.refuse _ _).bind fun _ => (Extends.within _ _).bind fun _ =>
          Extends.take _
      · exact (Extends.take _).bind fun _ => Extends.pure _
  have hcid : ∀ ver, Extends (decodeCid ver) := by
    intro ver
    unfold decodeCid
    split_ifs
    · exact (Extends.need 1 _).bind fun _ => Extends.next.bind fun cl =>
        (Extends.need _ _).bind fun _ => (Extends.take _).bind fun _ => Extends.pure _
    · exact Extends.pure _
  exact (Extends.need 1 _).bind fun _ => Extends.next.bind fun ver =>
    (Extends.refuse _ _).bind fun _ => (Extends.need 4 _).bind fun _ =>
      (Extends.take 4).bind fun _ => (hoffer ver).bind fun _ => (hcid ver).bind fun _ =>
        Extends.pure _

theorem decodeCred_extends (more : Nat) : Extends (decodeCred more) :=
  Extends.next.bind fun _ => (Extends.need _ _).bind fun _ => (Extends.within _ _).bind fun _ =>
    Extends.take _

theorem decodeCands_extends (inet : Inet) (max n k : Nat) (out : Bytes) :
    Extends (decodeCands inet max n k out) := by
  induction n generalizing k out with
  | zero => exact Extends.pure out
  | succ n ih =>
      refine Extends.bind ?_ fun out' => ih (k + 1) out'
      refine (Extends.need 8 _).bind fun _ => Extends.next.bind fun tc => Extends.next.bind
        fun fam => (Extends.take 4).bind fun prio => (Extends.take 2).bind fun port =>
          (Extends.need _ _).bind fun _ => (Extends.take _).bind fun addr => ?_
      split
      · exact Extends.stop _
      · exact appendText_extends max out _

/-- What the decoder reads of a buffer, it reads of every longer one. -/
theorem candpackDecoder_extends (inet : Inet) (offerMax max : Nat) :
    Extends (candpackDecoder inet offerMax max) :=
  (decodeStamp_extends offerMax).bind fun _ => (decodeCred_extends 1).bind fun _ =>
    (decodeCred_extends 0).bind fun _ => (Extends.need 1 _).bind fun _ =>
      Extends.next.bind fun _ => (appendText_extends max [] _).bind fun _ =>
        (decodeCands_extends inet max _ 0 _).bind fun _ => Extends.pure _

end Candpack
end Comrade
