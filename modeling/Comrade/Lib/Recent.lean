import Mathlib

/-!
# The last few values of a sequence

A store of fixed size that holds the last `w` of the values it was given, in two layouts.

* `RingHolds`: a ring of `w` places that are written one after the other.
* `ShiftHolds`: a register of `w` bits that is shifted up by one for every value.

Each has the rule for one more value, and reads back what does not depend on the layout:
which values the ring holds (`RingHolds.mem_take_iff`), and how many ones the register holds
(`ShiftHolds.countP_range`).
-/

namespace Comrade
namespace Lib

variable {α : Type*} {w : Nat}

/-! ## A ring -/

/-- Each of the last values is at the place of its number. -/
def RingHolds (ring : Vector α w) (xs : List α) : Prop :=
  ∀ j, j < xs.length → xs.length ≤ j + w → ring[j % w]? = xs[j]?

theorem ringHolds_nil (ring : Vector α w) : RingHolds ring [] := by
  intro j hj
  cases hj

/-- One more value, at the next place. -/
theorem RingHolds.push {ring : Vector α w} {xs : List α} (h : RingHolds ring xs) (hw : 0 < w)
    (x : α) : RingHolds (ring.setIfInBounds (xs.length % w) x) (xs ++ [x]) := by
  intro j hj hlast
  rw [List.length_append, List.length_singleton] at hj hlast
  rcases Nat.lt_succ_iff_lt_or_eq.mp hj with hold | rfl
  · -- fewer than `w` values were given since, so the place is another's
    have hne : xs.length % w ≠ j % w := by
      intro heq
      have hdvd : w ∣ xs.length - j := (Nat.modEq_iff_dvd' hold.le).mp heq.symm
      have hle := Nat.le_of_dvd (by omega) hdvd
      omega
    rw [Vector.getElem?_setIfInBounds_ne hne, List.getElem?_append_left hold]
    exact h j hold (by omega)
  · rw [Vector.getElem?_setIfInBounds_self_of_lt (Nat.mod_lt _ hw), List.getElem?_concat_length]

/-- The places written so far hold the last values. -/
theorem RingHolds.mem_take_iff {ring : Vector α w} {xs : List α} (h : RingHolds ring xs)
    {x : α} : x ∈ ring.toList.take (min xs.length w) ↔ x ∈ xs.rtake w := by
  rw [List.rtake, List.mem_iff_getElem?, List.mem_iff_getElem?]
  simp only [List.getElem?_take, List.getElem?_drop, Vector.getElem?_toList]
  constructor
  · rintro ⟨p, hp⟩
    split_ifs at hp with hlt
    -- the last value that was put at this place
    let j := p + w * ((xs.length - 1 - p) / w)
    have hdiv := Nat.div_add_mod (xs.length - 1 - p) w
    have hmod := Nat.mod_lt (xs.length - 1 - p) (show 0 < w by omega)
    have hplace : j % w = p := by
      rw [Nat.add_mul_mod_self_left, Nat.mod_eq_of_lt (by omega)]
    have hj : j < xs.length := by omega
    have hrecent : xs.length ≤ j + w := by omega
    refine ⟨j - (xs.length - w), ?_⟩
    rw [show xs.length - w + (j - (xs.length - w)) = j by omega, ← h j hj hrecent, hplace]
    exact hp
  · rintro ⟨i, hi⟩
    have hj : xs.length - w + i < xs.length := by
      by_contra hnot
      rw [List.getElem?_eq_none (not_lt.mp hnot)] at hi
      cases hi
    refine ⟨(xs.length - w + i) % w, ?_⟩
    have hw : 0 < w := by omega
    have hplace := Nat.mod_lt (xs.length - w + i) hw
    have hle := Nat.mod_le (xs.length - w + i) w
    rw [if_pos (by omega), h _ hj (by omega)]
    exact hi

/-! ## A shift register -/

/-- The register shifted up by one, with one more bit. -/
def shiftIn (r : BitVec w) (b : Bool) : BitVec w := (r <<< 1) ||| (if b = true then 1 else 0)

/-- The bits are the last values, the newest lowest. -/
def ShiftHolds (r : BitVec w) (xs : List Bool) : Prop :=
  ∀ k, k < w → k < xs.length → xs.reverse[k]? = some (r.getLsbD k)

theorem shiftHolds_nil (r : BitVec w) : ShiftHolds r [] := by
  intro k _ hk
  cases hk

theorem ShiftHolds.push {r : BitVec w} {xs : List Bool} (h : ShiftHolds r xs) (b : Bool) :
    ShiftHolds (shiftIn r b) (xs ++ [b]) := by
  intro k hkw hk
  rw [List.length_append, List.length_singleton] at hk
  rw [List.reverse_append, List.reverse_singleton, List.singleton_append]
  cases k with
  | zero =>
      cases b <;> simp [shiftIn, hkw]
  | succ k =>
      rw [List.getElem?_cons_succ, h k (by omega) (by omega)]
      have hlow : k < w := by omega
      cases b <;> simp [shiftIn, hkw, BitVec.getLsbD_eq_getElem hlow]

/-- The ones among the bits shifted in so far are those among the last values. -/
theorem ShiftHolds.countP_range {r : BitVec w} {xs : List Bool} (h : ShiftHolds r xs) :
    (List.range (min xs.length w)).countP (fun i => r.getLsbD i) = (xs.rtake w).count true := by
  have hbits : (List.range (min xs.length w)).map (fun i => r.getLsbD i) =
      xs.reverse.take w := by
    apply List.ext_getElem?
    intro k
    rw [List.getElem?_map, List.getElem?_take]
    by_cases hk : k < min xs.length w
    · rw [List.getElem?_range hk, if_pos (by omega), h k (by omega) (by omega)]
      rfl
    · rw [List.getElem?_eq_none (by rw [List.length_range]; omega)]
      split_ifs
      · rw [List.getElem?_eq_none (by rw [List.length_reverse]; omega)]
        rfl
      · rfl
  rw [List.rtake_eq_reverse_take_reverse, List.count_reverse, ← hbits, List.count,
    List.countP_map]
  congr 1
  funext i
  simp

/-! ## The least of them -/

/-- The least value is the same of two lists of the same values. -/
theorem min?_congr {xs ys : List Nat} (h : ∀ x, x ∈ xs ↔ x ∈ ys) : xs.min? = ys.min? := by
  cases hys : ys.min? with
  | none =>
      rw [List.min?_eq_none_iff] at hys ⊢
      rw [List.eq_nil_iff_forall_not_mem]
      intro x hx
      rw [h, hys] at hx
      cases hx
  | some m =>
      rw [List.min?_eq_some_iff] at hys ⊢
      exact ⟨(h m).mpr hys.1, fun x hx => hys.2 x ((h x).mp hx)⟩

end Lib
end Comrade
