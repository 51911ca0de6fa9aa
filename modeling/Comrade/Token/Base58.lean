import Comrade.Lib.Bytes
import Comrade.Lib.Radix

/-!
# Base 58

`base58.c`: a byte string as one number in base 58, in as few digits as it takes, and back
into a fixed number of bytes.  The two buffers are `B58_BUF` digits and `B256_BUF` bytes wide,
which is room for whatever they are asked to hold (`base58Encode_eq`,
`base58Decode_eq_some_iff`).
-/

namespace Comrade
namespace Token

open Lib

/-- `BASE58_MAX_IN`. -/
def base58MaxIn : Nat := 160

/-- `BASE58_MAX_STR`. -/
def base58MaxStr : Nat := 200

/-- `B58_BUF`. -/
def b58Buf : Nat := base58MaxIn * 138 / 100 + 2

/-- `B256_BUF`. -/
def b256Buf : Nat := base58MaxStr * 733 / 1000 + 2

/-- `alphabet`. -/
def alphabet : Bytes :=
  ascii ['1', '2', '3', '4', '5', '6', '7', '8', '9', 'A', 'B', 'C', 'D', 'E', 'F', 'G', 'H',
    'J', 'K', 'L', 'M', 'N', 'P', 'Q', 'R', 'S', 'T', 'U', 'V', 'W', 'X', 'Y', 'Z', 'a', 'b',
    'c', 'd', 'e', 'f', 'g', 'h', 'i', 'j', 'k', 'm', 'n', 'o', 'p', 'q', 'r', 's', 't', 'u',
    'v', 'w', 'x', 'y', 'z']

/-- The character of a digit. -/
def b58Char (d : Nat) : UInt8 := alphabet.getD d 0

/-- `b58_value`. -/
def b58Value (c : UInt8) : Option Nat := if c = 0 then none else alphabet.idxOf? c

/-- `base58_encode` into a buffer of `dstLen` bytes; the empty string where it returns 0. -/
def base58Encode (src : Bytes) (dstLen : Nat) : Bytes :=
  if base58MaxIn < src.length then []
  else
    let zeros := (src.takeWhile (· == 0)).length
    let b58 := convert 256 58 b58Buf ((src.drop zeros).map UInt8.toNat)
    let start := (b58.takeWhile (· == 0)).length
    let need := zeros + (b58Buf - start)
    if dstLen < need + 1 then []
    else List.replicate zeros (ch '1') ++ (b58.drop start).map b58Char

/-- `base58_decode` into a buffer of `dstLen` bytes. -/
def base58Decode (src : Bytes) (dstLen : Nat) : Option Bytes :=
  if base58MaxStr < src.length then none
  else
    (src.mapM b58Value).bind fun digits =>
      let b256 := convert 58 256 b256Buf digits
      let start := (b256.takeWhile (· == 0)).length
      let sig := b256Buf - start
      if dstLen < sig then none
      else some (List.replicate (dstLen - sig) 0 ++ (b256.drop start).map UInt8.ofNat)

/-! ## The alphabet -/

theorem b58Value_b58Char {d : Nat} (hd : d < 58) : b58Value (b58Char d) = some d := by
  have hall : ∀ d : Fin 58, b58Value (b58Char d) = some d.val := by decide
  exact hall ⟨d, hd⟩

theorem b58Char_of_b58Value {c : UInt8} {d : Nat} (h : b58Value c = some d) :
    d < 58 ∧ b58Char d = c := by
  unfold b58Value at h
  split_ifs at h
  rw [List.idxOf?_eq_some_iff] at h
  obtain ⟨hlen, hget, -⟩ := h
  refine ⟨hlen, ?_⟩
  rw [b58Char, List.getD_eq_getElem _ _ hlen, hget]

/-- The digits that a string spells are those it is written in. -/
theorem mapM_b58Value_iff {src : Bytes} {ds : List Nat} :
    src.mapM b58Value = some ds ↔ Digits 58 ds ∧ ds.map b58Char = src := by
  induction src generalizing ds with
  | nil =>
      rw [List.mapM_nil, Option.pure_def, Option.some_inj, List.map_eq_nil_iff]
      constructor
      · rintro rfl
        exact ⟨by simp [Digits], rfl⟩
      · rintro ⟨-, rfl⟩
        rfl
  | cons c src ih =>
      simp only [List.mapM_cons, Option.bind_eq_bind, Option.bind_eq_some_iff, Option.pure_def,
        Option.some_inj]
      constructor
      · rintro ⟨d, hd, rest, hrest, rfl⟩
        obtain ⟨hlt, hchar⟩ := b58Char_of_b58Value hd
        obtain ⟨hdigits, hmap⟩ := ih.mp hrest
        exact ⟨hdigits.cons hlt, by rw [List.map_cons, hchar, hmap]⟩
      · rintro ⟨hdigits, hmap⟩
        obtain ⟨d, rest, rfl, rfl, hrest⟩ := List.map_eq_cons_iff.mp hmap
        rw [Digits, List.forall_mem_cons] at hdigits
        exact ⟨d, b58Value_b58Char hdigits.1, rest, ih.mpr ⟨hdigits.2, hrest⟩, rfl⟩

/-! ## What the two functions compute -/

/-- The digits of a byte string. -/
def byteDigits (b : Bytes) : List Nat := b.map UInt8.toNat

theorem digits_byteDigits (b : Bytes) : Digits 256 (byteDigits b) := by
  intro d hd
  obtain ⟨c, -, rfl⟩ := List.mem_map.mp hd
  exact c.toNat_lt

@[simp] theorem length_byteDigits (b : Bytes) : (byteDigits b).length = b.length :=
  List.length_map _

theorem byteDigits_injective : Function.Injective byteDigits :=
  List.map_injective_iff.mpr fun _ _ h => UInt8.toNat_inj.mp h

theorem byteDigits_ofNat {ds : List Nat} (h : Digits 256 ds) :
    byteDigits (ds.map UInt8.ofNat) = ds := by
  rw [byteDigits, List.map_map, List.map_congr_left, List.map_id]
  intro d hd
  exact Nat.mod_eq_of_lt (h d hd)

/-- The digits of a number's bytes behind zeros that fill the width. -/
theorem byteDigits_fit {ds : List Nat} (h : Digits 256 ds) (n : Nat) :
    byteDigits (List.replicate n 0 ++ ds.map UInt8.ofNat) = List.replicate n 0 ++ ds := by
  rw [byteDigits, List.map_append, List.map_replicate]
  exact congrArg _ (byteDigits_ofNat h)

/-- The buffer of the decoder has room for the longest string. -/
theorem b256_room : 58 ^ base58MaxStr < 256 ^ b256Buf := by decide

/-- The buffer of the encoder has room for the longest input. -/
theorem b58_room : 256 ^ base58MaxIn < 58 ^ b58Buf := by decide

/-- The digits that `base58_encode` writes. -/
def encodeDigits (src : Bytes) : List Nat :=
  List.replicate (src.takeWhile (· == 0)).length 0 ++
    significant (convert 256 58 b58Buf (byteDigits (src.drop (src.takeWhile (· == 0)).length)))

/-- `base58_encode` writes the digits of the number of its bytes. -/
theorem base58Encode_eq {src : Bytes} (hlen : src.length ≤ base58MaxIn) (dstLen : Nat) :
    base58Encode src dstLen =
        (if dstLen < (encodeDigits src).length + 1 then [] else (encodeDigits src).map b58Char) ∧
      Digits 58 (encodeDigits src) ∧
      radixValue 58 (encodeDigits src) = radixValue 256 (byteDigits src) := by
  have hsplit : byteDigits src = List.replicate (src.takeWhile (· == 0)).length 0 ++
      byteDigits (src.drop (src.takeWhile (· == 0)).length) := by
    have hzeros : src.takeWhile (· == 0) = List.replicate (src.takeWhile (· == 0)).length 0 := by
      rw [List.eq_replicate_iff]
      exact ⟨rfl, fun c hc => by simpa using List.mem_takeWhile_imp hc⟩
    have hrest : (src.takeWhile (· == 0) ++ src.dropWhile (· == 0)).drop
        (src.takeWhile (· == 0)).length = src.dropWhile (· == 0) := List.drop_left
    rw [List.takeWhile_append_dropWhile] at hrest
    rw [hrest]
    conv_lhs => rw [← List.takeWhile_append_dropWhile (p := (· == 0)) (l := src), hzeros]
    rw [byteDigits, List.map_append, List.map_replicate]
    rfl
  generalize hk : (src.takeWhile (· == 0)).length = k at hsplit
  have hconvert : radixValue 58 (convert 256 58 b58Buf (byteDigits (src.drop k))) =
      radixValue 256 (byteDigits (src.drop k)) := by
    apply radixValue_convert (by decide)
    have hlt := radixValue_lt (by decide) (digits_byteDigits (src.drop k))
    have hpow : 256 ^ (byteDigits (src.drop k)).length ≤ 256 ^ base58MaxIn := by
      apply Nat.pow_le_pow_right (by decide)
      rw [length_byteDigits, List.length_drop]
      omega
    exact (hlt.trans_le hpow).trans b58_room
  have hdigits := digits_convert (show 0 < 58 by decide) 256 b58Buf (byteDigits (src.drop k))
  obtain ⟨hdrop, hsig⟩ := drop_zeros (convert 256 58 b58Buf (byteDigits (src.drop k)))
  rw [length_convert] at hsig
  unfold base58Encode encodeDigits
  rw [hk]
  refine ⟨?_, (digits_zeros (by decide) _).append hdigits.significant, ?_⟩
  · dsimp only
    rw [if_neg (by omega), List.length_append, List.length_replicate, List.map_append,
      List.map_replicate, ← byteDigits, hsig, hdrop]
    rfl
  · rw [radixValue_replicate_zero, radixValue_significant, hconvert, hsplit,
      radixValue_replicate_zero]

/-- `base58_decode` accepts the spellings of the numbers that fit, and hands back the bytes
of the number. -/
theorem base58Decode_eq_some_iff {src out : Bytes} {dstLen : Nat}
    (hlen : src.length ≤ base58MaxStr) :
    base58Decode src dstLen = some out ↔ out.length = dstLen ∧ ∃ ds, Digits 58 ds ∧
      ds.map b58Char = src ∧ radixValue 256 (byteDigits out) = radixValue 58 ds := by
  unfold base58Decode
  rw [if_neg (by omega), Option.bind_eq_some_iff]
  simp only [mapM_b58Value_iff]
  have hconvert : ∀ ds, ds.map b58Char = src → Digits 58 ds →
      radixValue 256 (convert 58 256 b256Buf ds) = radixValue 58 ds := by
    intro ds hmap hds
    apply radixValue_convert (by decide)
    have hlt := radixValue_lt (by decide) hds
    have hpow : 58 ^ ds.length ≤ 58 ^ base58MaxStr :=
      Nat.pow_le_pow_right (by decide) (by rwa [← hmap, List.length_map] at hlen)
    exact (hlt.trans_le hpow).trans b256_room
  constructor
  · rintro ⟨ds, ⟨hds, hmap⟩, hout⟩
    obtain ⟨hdrop, hsig⟩ := drop_zeros (convert 58 256 b256Buf ds)
    rw [length_convert] at hsig
    rw [hdrop, hsig] at hout
    split_ifs at hout with hlong
    rw [← Option.some.inj hout]
    refine ⟨?_, ds, hds, hmap, ?_⟩
    · rw [List.length_append, List.length_replicate, List.length_map]
      omega
    · rw [byteDigits_fit (digits_convert (by decide) 58 b256Buf ds).significant,
        radixValue_replicate_zero, radixValue_significant, hconvert ds hmap hds]
  · rintro ⟨hlength, ds, hds, hmap, hvalue⟩
    refine ⟨ds, ⟨hds, hmap⟩, ?_⟩
    obtain ⟨hdrop, hsig⟩ := drop_zeros (convert 58 256 b256Buf ds)
    have hdigits := digits_convert (show 0 < 256 by decide) 58 b256Buf ds
    rw [length_convert] at hsig
    have hfits : (significant (convert 58 256 b256Buf ds)).length ≤ dstLen := by
      rw [length_significant_le_iff (by decide) hdigits, hconvert ds hmap hds, ← hvalue,
        ← hlength, ← length_byteDigits]
      exact radixValue_lt (by decide) (digits_byteDigits out)
    rw [hdrop, hsig, if_neg (by omega), Option.some_inj]
    apply byteDigits_injective
    rw [byteDigits_fit hdigits.significant]
    apply radixValue_inj (show 1 < 256 by decide)
    · rw [List.length_append, List.length_replicate, length_byteDigits]
      omega
    · exact (digits_zeros (by decide) _).append hdigits.significant
    · exact digits_byteDigits out
    · rw [radixValue_replicate_zero, radixValue_significant, hconvert ds hmap hds, hvalue]

end Token
end Comrade
