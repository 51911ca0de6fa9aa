import Mathlib

/-!
# Tallies

How many different values the slots of a table and a list of others hold.  A blank value says
nothing of what it stands for, so every copy of it counts.

* `filled` is what the slots hold, and `filled_put` and `filled_clear` write one slot.
* `tally` counts, and `Adds` says when one value more is one more to count.
-/

namespace Comrade
namespace Lib

variable {α : Type*} {n : Nat}

/-! ## What a table holds -/

/-- What one slot holds. -/
def slotHolds : Option α → Multiset α
  | none => 0
  | some a => {a}

/-- What the slots of a table hold. -/
def filled (t : Fin n → Option α) : Multiset α := ∑ i, slotHolds (t i)

theorem filled_update (t : Fin n → Option α) (i : Fin n) (x : Option α) :
    filled (Function.update t i x) + slotHolds (t i) = filled t + slotHolds x := by
  have hrest : ∑ j ∈ Finset.univ.erase i, slotHolds (Function.update t i x j) =
      ∑ j ∈ Finset.univ.erase i, slotHolds (t j) := by
    apply Finset.sum_congr rfl
    intro j hj
    rw [Function.update_of_ne (Finset.ne_of_mem_erase hj)]
  unfold filled
  rw [← Finset.add_sum_erase _ (fun j => slotHolds (t j)) (Finset.mem_univ i),
    ← Finset.add_sum_erase _ (fun j => slotHolds (Function.update t i x j)) (Finset.mem_univ i),
    hrest, Function.update_self]
  abel

theorem filled_put {t : Fin n → Option α} {i : Fin n} (h : t i = none) (a : α) :
    filled (Function.update t i (some a)) = a ::ₘ filled t := by
  have hupdate := filled_update t i (some a)
  simpa [h, slotHolds, add_comm] using hupdate

theorem filled_clear {t : Fin n → Option α} {i : Fin n} {a : α} (h : t i = some a) :
    filled t = a ::ₘ filled (Function.update t i none) := by
  have hupdate := filled_update t i none
  simpa [h, slotHolds, add_comm] using hupdate.symm

theorem mem_slotHolds {o : Option α} {a : α} : a ∈ slotHolds o ↔ o = some a := by
  cases o <;> simp [slotHolds, eq_comm]

theorem mem_filled {t : Fin n → Option α} {a : α} : a ∈ filled t ↔ ∃ i, t i = some a := by
  simp [filled, Multiset.mem_sum, mem_slotHolds]

variable [DecidableEq α]

/-- A value that the same slots hold is held as often. -/
theorem count_filled_congr {t t' : Fin n → Option α} {a : α}
    (h : ∀ i, t i = some a ↔ t' i = some a) : (filled t).count a = (filled t').count a := by
  unfold filled
  rw [Multiset.count_sum', Multiset.count_sum']
  apply Finset.sum_congr rfl
  intro i _
  have hcount : ∀ o : Option α, (slotHolds o).count a = if o = some a then 1 else 0 := by
    intro o
    cases o with
    | none => simp [slotHolds]
    | some b => simp [slotHolds, Multiset.count_singleton, eq_comm]
  rw [hcount, hcount]
  simp only [h i]

/-! ## The count -/

/-- The number of different values, where each copy of the blank one counts. -/
def tally (blank : α) (m : Multiset α) : Nat := (m.toFinset.erase blank).card + m.count blank

/-- One more of the value is one more to count. -/
def Adds (blank : α) (m : Multiset α) (a : α) : Prop := a = blank ∨ a ∉ m

instance (blank : α) (m : Multiset α) (a : α) : Decidable (Adds blank m a) :=
  inferInstanceAs (Decidable (_ ∨ _))

theorem tally_cons (blank : α) (m : Multiset α) (a : α) :
    tally blank (a ::ₘ m) = tally blank m + if Adds blank m a then 1 else 0 := by
  unfold tally
  rw [Multiset.toFinset_cons]
  by_cases ha : a = blank
  · subst ha
    have hadds : Adds a m a := .inl rfl
    rw [Finset.erase_insert_eq_erase, Multiset.count_cons_self, if_pos hadds]
    omega
  · rw [Finset.erase_insert_of_ne ha, Multiset.count_cons_of_ne (Ne.symm ha)]
    by_cases hm : a ∈ m
    · have hadds : ¬Adds blank m a := fun h => h.elim ha fun hm' => hm' hm
      rw [if_neg hadds, Finset.insert_eq_of_mem (by simp [ha, hm]), add_zero]
    · have hadds : Adds blank m a := .inr hm
      rw [if_pos hadds, Finset.card_insert_of_notMem (by simp [hm])]
      omega

/-- Fewer values count for less. -/
theorem tally_le {blank : α} {m m' : Multiset α} (hmem : ∀ a, a ≠ blank → a ∈ m → a ∈ m')
    (hblank : m.count blank ≤ m'.count blank) : tally blank m ≤ tally blank m' := by
  have hcard : (m.toFinset.erase blank).card ≤ (m'.toFinset.erase blank).card := by
    apply Finset.card_le_card
    intro a ha
    rw [Finset.mem_erase, Multiset.mem_toFinset] at ha ⊢
    exact ⟨ha.1, hmem a ha.1 ha.2⟩
  unfold tally
  omega

theorem tally_congr {blank : α} {m m' : Multiset α} (hmem : ∀ a, a ≠ blank → (a ∈ m ↔ a ∈ m'))
    (hblank : m.count blank = m'.count blank) : tally blank m = tally blank m' :=
  le_antisymm (tally_le (fun a ha => (hmem a ha).mp) hblank.le)
    (tally_le (fun a ha => (hmem a ha).mpr) hblank.ge)

/-- A value taken away from others of it leaves as many to count. -/
theorem adds_of_cons {blank : α} {m : Multiset α} {a : α} :
    Adds blank m a ↔ ¬(a ≠ blank ∧ 2 ≤ (a ::ₘ m).count a) := by
  unfold Adds
  rw [Multiset.count_cons_self, ← Multiset.count_eq_zero]
  constructor
  · rintro (h | h) ⟨hne, hcount⟩
    · exact hne h
    · omega
  · intro h
    by_cases ha : a = blank
    · exact .inl ha
    · right
      by_contra hcount
      exact h ⟨ha, by omega⟩

end Lib
end Comrade
