import Mathlib

/-!
# Prefixes

A prefix is a value cut down to its first bits.  All that its use rests on is that
cutting twice is cutting to the shorter of the two lengths; from it two prefixes
either lie one in the other or have nothing in common.

* `Mask` is the law of cutting.
* `Mask.inside` and `Mask.covers` are the two halves of nesting.
-/

namespace Comrade
namespace Lib

variable {α : Type*} {mask : α → Nat → α}

/-- Cutting twice is cutting to the shorter length. -/
def Mask (mask : α → Nat → α) : Prop := ∀ a p q, mask (mask a q) p = mask a (min p q)

/-- Of two prefixes with an address in common the longer lies in the shorter. -/
theorem Mask.inside (h : Mask mask) {a n m : α} {p q : Nat} (hn : mask a p = n)
    (hm : mask a q = m) (hpq : p ≤ q) : mask m p = n := by
  rw [← hm, h, min_eq_left hpq, hn]

/-- A prefix covers what a longer prefix in it covers. -/
theorem Mask.covers (h : Mask mask) {a n m : α} {p q : Nat} (hin : mask m p = n)
    (hm : mask a q = m) (hpq : p ≤ q) : mask a p = n := by
  rw [← hin, ← hm, h, min_eq_left hpq]

/-- What is cut to some length stays as it is when cut no shorter. -/
theorem Mask.cut (h : Mask mask) (a : α) {p q : Nat} (hpq : p ≤ q) :
    mask (mask a p) q = mask a p := by
  rw [h, min_eq_right hpq]

end Lib
end Comrade
