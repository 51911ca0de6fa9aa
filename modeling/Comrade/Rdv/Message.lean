import Comrade.Lib.Bytes

/-!
# Rendezvous messages

The statements that a host and its claimants leave for each other in the
rendezvous cell (`rdv.h`, and the codec at the top of `rdv.c`).  A message is
numbered by its sender (`seq`), addressed (`dst`, the source's `to`, all-zero for
whoever reads) and may name the offer that it answers (`re`).
-/

namespace Comrade
namespace Rdv

open Lib

/-- `RDV_VERSION`. -/
def rdvVersion : UInt8 := 3

/-- `RDV_MAX_PAYLOAD`. -/
def rdvMaxPayload : Nat := 760

/-- `RDV_HOST_PAYLOAD`. -/
def rdvHostPayload : Nat := 64

/-- `RDV_CELL_OVERHEAD`. -/
def rdvCellOverhead : Nat := 20

/-- `RDV_HDR_LEN`: version, kind, generation, two ids, two numbers, length. -/
def rdvHdrLen : Nat := 1 + 1 + 4 + 8 + 8 + 4 + 4 + 2

/-- `RDV_MAX_MSG`. -/
def rdvMaxMsg : Nat := rdvHdrLen + rdvMaxPayload

/-- An instance id, `RDV_CID_LEN` bytes. -/
abbrev Cid := Vector UInt8 8

/-- `rdv_zero`: the id that addresses whoever reads. -/
def rdvZero : Cid := Vector.replicate 8 0

/-- `enum rdv_kind`. -/
inductive RdvKind where
  | hostinfo
  | offer
  | answer
  | refuse
  | tomb
  deriving DecidableEq, Repr

/-- The kind's byte on the wire. -/
def RdvKind.code : RdvKind → UInt8
  | .hostinfo => 1
  | .offer => 2
  | .answer => 3
  | .refuse => 4
  | .tomb => 5

/-- The kind a wire byte names, if any. -/
def RdvKind.ofCode (b : UInt8) : Option RdvKind :=
  if b = 1 then some .hostinfo
  else if b = 2 then some .offer
  else if b = 3 then some .answer
  else if b = 4 then some .refuse
  else if b = 5 then some .tomb
  else none

/-- `struct rdv_msg`; `payload` stands for the buffer up to `payload_len`. -/
structure RdvMsg where
  kind : RdvKind
  gen : UInt32
  frm : Cid
  dst : Cid
  seq : UInt32
  re : UInt32
  payload : Bytes
  deriving DecidableEq, Repr

/-- `enum rdv_seal`: the key a statement is sealed under. -/
inductive RdvSeal where
  | infoKey
  | classKey
  deriving DecidableEq, Repr

/-- `struct rdv_out`; `msg` stands for the buffer up to `len`. -/
structure RdvOut where
  msg : Bytes
  sealKey : RdvSeal
  deriving DecidableEq, Repr

/-- `put32`: four bytes, most significant first. -/
def put32 (v : UInt32) : Bytes :=
  [(v >>> 24).toUInt8, (v >>> 16).toUInt8, (v >>> 8).toUInt8, v.toUInt8]

/-- `get32`. -/
def get32 (b0 b1 b2 b3 : UInt8) : UInt32 :=
  (b0.toUInt32 <<< 24) ||| (b1.toUInt32 <<< 16) ||| (b2.toUInt32 <<< 8) ||| b3.toUInt32

/-- `rdv_encode` into a buffer of `max` bytes. -/
def rdvEncode (m : RdvMsg) (max : Nat) : Option Bytes :=
  if m.payload.length > rdvMaxPayload then none
  else if max < rdvHdrLen + m.payload.length then none
  else some ([rdvVersion, m.kind.code] ++ put32 m.gen ++ m.frm.toList ++ m.dst.toList
    ++ put32 m.seq ++ put32 m.re
    ++ [UInt8.ofNat (m.payload.length / 256), UInt8.ofNat m.payload.length]
    ++ m.payload)

/-- The two ways `rdv_decode` fails: `-1`, and `RDV_ERR_VERSION`. -/
inductive RdvErr where
  | malformed
  | version
  deriving DecidableEq, Repr

/-- The byte at offset `o`, as the decoder reads it past its length checks. -/
def byteAt (b : Bytes) (o : Nat) : UInt8 := b.getD o 0

/-- `get32` at an offset. -/
def get32At (b : Bytes) (o : Nat) : UInt32 :=
  get32 (byteAt b o) (byteAt b (o + 1)) (byteAt b (o + 2)) (byteAt b (o + 3))

/-- The instance id at an offset. -/
def cidAt (b : Bytes) (o : Nat) : Cid := Vector.ofFn fun i => byteAt b (o + i)

/-- `rdv_decode`. -/
def rdvDecode (b : Bytes) : Except RdvErr RdvMsg :=
  if b.length < 1 then .error .malformed
  else if byteAt b 0 ≠ rdvVersion then .error .version
  else if b.length < rdvHdrLen then .error .malformed
  else
    match RdvKind.ofCode (byteAt b 1) with
    | none => .error .malformed
    | some kind =>
        let plen := (byteAt b 30).toNat * 256 + (byteAt b 31).toNat
        if plen > rdvMaxPayload ∨ rdvHdrLen + plen ≠ b.length then .error .malformed
        else .ok { kind := kind, gen := get32At b 2, frm := cidAt b 6, dst := cidAt b 14,
                   seq := get32At b 22, re := get32At b 26,
                   payload := (b.drop rdvHdrLen).take plen }

/-- `rdv_addressed_to`. -/
def rdvAddressedTo (dst cid : Cid) : Bool := dst == rdvZero || dst == cid

/-- Where the buffer holds a whole message, only an over-long payload stops
`rdv_encode`. -/
theorem rdvEncode_isSome {m : RdvMsg} (hlen : m.payload.length ≤ rdvMaxPayload) :
    (rdvEncode m rdvMaxMsg).isSome = true := by
  have hbuf : ¬rdvMaxMsg < rdvHdrLen + m.payload.length := by
    rw [rdvMaxMsg]
    omega
  rw [rdvEncode, if_neg (Nat.not_lt.mpr hlen), if_neg hbuf]
  rfl

/-! ## Big-endian words -/

/-- One byte of a word, put back where it stood: eight bits from `o` on. -/
theorem getLsbD_byte (w : BitVec 32) {o i : Nat} (ho : o + 8 ≤ 32) :
    (((w >>> o).setWidth 8).setWidth 32 <<< o).getLsbD i =
      (decide (o ≤ i) && decide (i < o + 8) && w.getLsbD i) := by
  rw [BitVec.getLsbD_shiftLeft, BitVec.getLsbD_setWidth, BitVec.getLsbD_setWidth,
    BitVec.getLsbD_ushiftRight]
  by_cases hlo : o ≤ i
  · have hi : o + (i - o) = i := by omega
    rw [hi]
    by_cases hup : i < o + 8
    · simp [hlo, hup, show i < 32 by omega, show i - o < 8 by omega, show i - o < 32 by omega,
        show ¬i < o by omega]
    · simp [hlo, hup, show ¬i - o < 8 by omega]
  · simp [hlo, show i < o by omega]

/-- `get32` reads what `put32` wrote. -/
theorem get32_put32 (v : UInt32) :
    get32 (v >>> 24).toUInt8 (v >>> 16).toUInt8 (v >>> 8).toUInt8 v.toUInt8 = v := by
  apply UInt32.eq_of_toBitVec_eq
  have hzero : v.toUInt8.toUInt32.toBitVec =
      ((v.toBitVec >>> 0).setWidth 8).setWidth 32 <<< 0 := by
    rw [BitVec.ushiftRight_zero, BitVec.shiftLeft_zero]
    rfl
  simp only [get32, UInt32.toBitVec_or, hzero]
  apply BitVec.eq_of_getLsbD_eq
  intro i hi
  have hbyte := fun (o : Nat) (ho : o + 8 ≤ 32) => getLsbD_byte v.toBitVec (i := i) ho
  show (((v.toBitVec >>> 24).setWidth 8).setWidth 32 <<< 24 |||
    ((v.toBitVec >>> 16).setWidth 8).setWidth 32 <<< 16 |||
    ((v.toBitVec >>> 8).setWidth 8).setWidth 32 <<< 8 ||| _).getLsbD i = _
  simp only [BitVec.getLsbD_or]
  rw [hbyte 24 (by omega), hbyte 16 (by omega), hbyte 8 (by omega), hbyte 0 (by omega)]
  -- exactly one of the four bytes holds bit `i`
  by_cases h8 : i < 8
  · simp [h8, show ¬24 ≤ i by omega, show ¬16 ≤ i by omega, show ¬8 ≤ i by omega]
  · by_cases h16 : i < 16
    · simp [h8, h16, show ¬24 ≤ i by omega, show ¬16 ≤ i by omega, show 8 ≤ i by omega]
    · by_cases h24 : i < 24
      · simp [h8, h16, h24, show ¬24 ≤ i by omega, show 16 ≤ i by omega, show 8 ≤ i by omega]
      · simp [h8, h16, h24, show 24 ≤ i by omega, hi]

/-! ## The round trip -/

theorem RdvKind.ofCode_code (k : RdvKind) : RdvKind.ofCode k.code = some k := by
  cases k <;> rfl

theorem cid_toList (v : Cid) :
    v.toList = [v[0], v[1], v[2], v[3], v[4], v[5], v[6], v[7]] := by
  apply List.ext_getElem
  · simp
  · intro i hi _
    have hi8 : i < 8 := by simpa using hi
    interval_cases i <;> simp

/-- What `rdv_encode` writes, byte by byte. -/
theorem rdvEncode_eq_some {m : RdvMsg} {max : Nat} {b : Bytes} (h : rdvEncode m max = some b) :
    m.payload.length ≤ rdvMaxPayload ∧
      b = rdvVersion :: m.kind.code :: (put32 m.gen ++ (m.frm.toList ++ (m.dst.toList ++
        (put32 m.seq ++ (put32 m.re ++ (UInt8.ofNat (m.payload.length / 256) ::
          UInt8.ofNat m.payload.length :: m.payload)))))) := by
  unfold rdvEncode at h
  split_ifs at h with hlong hbuf
  refine ⟨Nat.not_lt.mp hlong, ?_⟩
  rw [← Option.some.inj h]
  simp only [List.append_assoc, List.cons_append, List.nil_append]

/-- `rdv_decode` reads back every message `rdv_encode` writes. -/
theorem rdvDecode_rdvEncode {m : RdvMsg} {max : Nat} {b : Bytes}
    (h : rdvEncode m max = some b) : rdvDecode b = .ok m := by
  obtain ⟨hlen, rfl⟩ := rdvEncode_eq_some h
  rw [cid_toList, cid_toList]
  simp only [put32, List.cons_append, List.nil_append]
  have hplen : (UInt8.ofNat (m.payload.length / 256)).toNat * 256 +
      (UInt8.ofNat m.payload.length).toNat = m.payload.length := by
    rw [rdvMaxPayload] at hlen
    rw [UInt8.toNat_ofNat', UInt8.toNat_ofNat']
    omega
  unfold rdvDecode
  rw [if_neg (by simp), if_neg (fun hv => hv rfl), if_neg (by simp [rdvHdrLen])]
  have hkind : RdvKind.ofCode m.kind.code = some m.kind := RdvKind.ofCode_code m.kind
  simp only [byteAt, List.getD_cons_succ, List.getD_cons_zero, hkind, hplen]
  rw [if_neg]
  · -- the fixed fields stand at fixed offsets, and the payload is what is left
    obtain ⟨kind, gen, frm, dst, seq, re, payload⟩ := m
    rw [Except.ok.injEq, RdvMsg.mk.injEq]
    refine ⟨rfl, get32_put32 gen, ?_, ?_, get32_put32 seq, get32_put32 re, ?_⟩
    · apply Vector.ext
      intro i hi
      rw [cidAt, Vector.getElem_ofFn]
      interval_cases i <;> rfl
    · apply Vector.ext
      intro i hi
      rw [cidAt, Vector.getElem_ofFn]
      interval_cases i <;> rfl
    · exact List.take_length
  · rintro (hlong | hne)
    · omega
    · apply hne
      simp only [List.length_cons, rdvHdrLen]
      omega

/-! ## The strings that are read -/

theorem RdvKind.code_of_ofCode {c : UInt8} {k : RdvKind} (h : RdvKind.ofCode c = some k) :
    k.code = c := by
  unfold RdvKind.ofCode at h
  split_ifs at h with h1 h2 h3 h4 h5
  all_goals
    obtain rfl := Option.some.inj h
    simp_all [RdvKind.code]

/-- `put32` writes back what `get32` read. -/
theorem put32_get32 (b0 b1 b2 b3 : UInt8) : put32 (get32 b0 b1 b2 b3) = [b0, b1, b2, b3] := by
  simp only [put32, List.cons.injEq, and_true]
  refine ⟨?_, ?_, ?_, ?_⟩
  all_goals
    -- bit by bit: each byte of the word is one of the four
    apply UInt8.eq_of_toBitVec_eq
    simp only [get32]
    ext i hi
    simp [BitVec.getLsbD_or, BitVec.getLsbD_shiftLeft, hi]
    try grind

theorem drop_eq_byteAt_cons {b : Bytes} {o : Nat} (h : o < b.length) :
    b.drop o = byteAt b o :: b.drop (o + 1) := by
  rw [List.drop_eq_getElem_cons h, byteAt, List.getD_eq_getElem b 0 h]

/-- A field of four bytes, and what stands behind it. -/
theorem put32_get32At {b : Bytes} {o : Nat} (h : o + 4 ≤ b.length) :
    b.drop o = put32 (get32At b o) ++ b.drop (o + 4) := by
  rw [get32At, put32_get32, drop_eq_byteAt_cons (show o < b.length by omega),
    drop_eq_byteAt_cons (show o + 1 < b.length by omega),
    drop_eq_byteAt_cons (show o + 2 < b.length by omega),
    drop_eq_byteAt_cons (show o + 3 < b.length by omega)]
  rfl

/-- An instance id, and what stands behind it. -/
theorem cidAt_toList {b : Bytes} {o : Nat} (h : o + 8 ≤ b.length) :
    b.drop o = (cidAt b o).toList ++ b.drop (o + 8) := by
  have hcid : (cidAt b o).toList = (b.drop o).take 8 := by
    apply List.ext_getElem
    · simp
      omega
    · intro i hi _
      have hi8 : i < 8 := by simpa using hi
      have ho : o + i < b.length := by omega
      simp [cidAt, byteAt, List.getElem?_eq_getElem ho]
  rw [hcid, ← List.drop_drop, List.take_append_drop]

/-- What `rdv_decode` accepts is what `rdv_encode` writes for the message it returns. -/
theorem rdvEncode_rdvDecode {b : Bytes} {m : RdvMsg} (h : rdvDecode b = .ok m) {max : Nat}
    (hmax : b.length ≤ max) : rdvEncode m max = some b := by
  unfold rdvDecode at h
  split_ifs at h with hempty hversion hshort
  cases hkind : RdvKind.ofCode (byteAt b 1) with
  | none =>
      rw [hkind] at h
      cases h
  | some kind =>
      rw [hkind] at h
      dsimp only at h
      split_ifs at h with hlen
      rw [not_or, Nat.not_lt, not_not] at hlen
      obtain ⟨hlong, hwhole⟩ := hlen
      rw [rdvHdrLen] at hwhole hshort
      have hsize : 32 ≤ b.length := by omega
      have hpayload : (b.drop rdvHdrLen).take
          ((byteAt b 30).toNat * 256 + (byteAt b 31).toNat) = b.drop 32 := by
        apply List.take_of_length_le
        simp only [rdvHdrLen, List.length_drop]
        omega
      rw [hpayload] at h
      obtain rfl := Except.ok.inj h
      have hplen : (b.drop 32).length = (byteAt b 30).toNat * 256 + (byteAt b 31).toNat := by
        rw [List.length_drop]
        omega
      have hhi : UInt8.ofNat ((b.drop 32).length / 256) = byteAt b 30 := by
        apply UInt8.toNat_inj.mp
        have := (byteAt b 30).toNat_lt
        have := (byteAt b 31).toNat_lt
        rw [hplen, UInt8.toNat_ofNat']
        omega
      have hlo : UInt8.ofNat (b.drop 32).length = byteAt b 31 := by
        apply UInt8.toNat_inj.mp
        have := (byteAt b 31).toNat_lt
        rw [hplen, UInt8.toNat_ofNat']
        omega
      unfold rdvEncode
      rw [if_neg (by rw [hplen]; omega), if_neg (by rw [hplen, rdvHdrLen]; omega), hhi, hlo,
        RdvKind.code_of_ofCode hkind, ← not_not.mp hversion]
      -- the string is its fields, one after another
      have hfields : b = byteAt b 0 :: byteAt b 1 :: (put32 (get32At b 2) ++
          ((cidAt b 6).toList ++ ((cidAt b 14).toList ++ (put32 (get32At b 22) ++
            (put32 (get32At b 26) ++ (byteAt b 30 :: byteAt b 31 :: b.drop 32)))))) := by
        calc b = b.drop 0 := (List.drop_zero).symm
          _ = byteAt b 0 :: byteAt b 1 :: b.drop 2 := by
              rw [drop_eq_byteAt_cons (show 0 < b.length by omega),
                drop_eq_byteAt_cons (show 1 < b.length by omega)]
          _ = _ := by
              rw [← drop_eq_byteAt_cons (show 31 < b.length by omega),
                ← drop_eq_byteAt_cons (show 30 < b.length by omega),
                ← put32_get32At (show 26 + 4 ≤ b.length by omega),
                ← put32_get32At (show 22 + 4 ≤ b.length by omega),
                ← cidAt_toList (show 14 + 8 ≤ b.length by omega),
                ← cidAt_toList (show 6 + 8 ≤ b.length by omega),
                ← put32_get32At (show 2 + 4 ≤ b.length by omega)]
      refine congrArg some ?_
      conv_rhs => rw [hfields]
      simp only [List.append_assoc, List.cons_append, List.nil_append]

/-- The strings that `rdv_decode` accepts are those that `rdv_encode` writes, each for the
message it returns.  Every message within the bound is written. -/
theorem rdvMessage_codec (m : RdvMsg) (max : Nat) (b : Bytes) :
    (rdvEncode m max = some b ↔ rdvDecode b = .ok m ∧ b.length ≤ max) ∧
      ((rdvEncode m rdvMaxMsg).isSome = true ↔ m.payload.length ≤ rdvMaxPayload) := by
  refine ⟨⟨?_, ?_⟩, ?_, rdvEncode_isSome⟩
  · intro h
    refine ⟨rdvDecode_rdvEncode h, ?_⟩
    unfold rdvEncode at h
    split_ifs at h with hlong hbuf
    rw [← Option.some.inj h]
    simp [put32]
    rw [rdvHdrLen] at hbuf
    omega
  · rintro ⟨h, hmax⟩
    exact rdvEncode_rdvDecode h hmax
  · intro h
    obtain ⟨b, hb⟩ := Option.isSome_iff_exists.mp h
    exact (rdvEncode_eq_some hb).1

end Rdv
end Comrade
