import Comrade.Lib.Bytes

/-!
# Numbers in network order, and C strings

`bePut n v` is the number `v` in `n` bytes, the most significant first, cut to what
they hold; `beGet` reads such bytes back.  `cString` is what a reader of a
zero-terminated string sees of a buffer.
-/

namespace Comrade
namespace Lib

/-- The number `v` in `n` bytes, the most significant first. -/
def bePut : Nat → Nat → Bytes
  | 0, _ => []
  | n + 1, v => UInt8.ofNat (v / 256 ^ n) :: bePut n v

/-- The number that the bytes spell, the most significant first. -/
def beGet (b : Bytes) : Nat := b.foldl (fun v c => v * 256 + c.toNat) 0

@[simp] theorem length_bePut (n v : Nat) : (bePut n v).length = n := by
  induction n with
  | zero => rfl
  | succ n ih => simp [bePut, ih]

/-- Reading on from what earlier bytes spelled. -/
theorem foldl_bePut (n v acc : Nat) :
    (bePut n v).foldl (fun v c => v * 256 + c.toNat) acc = acc * 256 ^ n + v % 256 ^ n := by
  induction n generalizing acc with
  | zero => simp [bePut, Nat.mod_one]
  | succ n ih =>
      rw [bePut, List.foldl_cons, ih, Nat.mod_pow_succ]
      simp only [UInt8.toNat_ofNat']
      ring

theorem beGet_bePut (n v : Nat) : beGet (bePut n v) = v % 256 ^ n := by
  rw [beGet, foldl_bePut]
  omega

theorem beGet_bePut_of_lt {n v : Nat} (h : v < 256 ^ n) : beGet (bePut n v) = v := by
  rw [beGet_bePut, Nat.mod_eq_of_lt h]

/-- A field of known place and width, read out of what it was written in. -/
theorem take_drop_field {pre field post : Bytes} {o n : Nat} (ho : pre.length = o)
    (hn : field.length = n) : ((pre ++ (field ++ post)).drop o).take n = field := by
  subst ho hn
  rw [List.drop_left, List.take_left]

/-- `n` bytes read from offset `o` on; nothing where the read passes the end. -/
def sliceAt (b : Bytes) (o n : Nat) : Option Bytes :=
  if o + n ≤ b.length then some ((b.drop o).take n) else none

theorem sliceAt_of_le {b : Bytes} {o n : Nat} (h : o + n ≤ b.length) :
    sliceAt b o n = some ((b.drop o).take n) := if_pos h

theorem length_slice {b : Bytes} {o n : Nat} (h : o + n ≤ b.length) :
    ((b.drop o).take n).length = n := by
  rw [List.length_take, List.length_drop]
  omega

/-- One byte read as a number. -/
theorem beGet_slice_one {b : Bytes} {o : Nat} (h : o < b.length) :
    beGet ((b.drop o).take 1) = (b.getD o 0).toNat := by
  rw [List.drop_eq_getElem_cons h, List.getD_eq_getElem b 0 h, List.take_succ_cons,
    List.take_zero, beGet, List.foldl_cons, List.foldl_nil]
  omega

/-- The part of a buffer before its first zero byte. -/
def cString (b : Bytes) : Bytes := b.takeWhile fun c => c != 0

theorem cString_of_not_mem {b : Bytes} (h : (0 : UInt8) ∉ b) : cString b = b := by
  rw [cString, List.takeWhile_eq_self_iff]
  intro c hc
  have hne : c ≠ 0 := fun hzero => h (hzero ▸ hc)
  simpa using hne

theorem zero_not_mem_cString (b : Bytes) : (0 : UInt8) ∉ cString b := by
  intro h
  have := List.mem_takeWhile_imp h
  simp at this

theorem cString_cString (b : Bytes) : cString (cString b) = cString b :=
  cString_of_not_mem (zero_not_mem_cString b)

end Lib
end Comrade
