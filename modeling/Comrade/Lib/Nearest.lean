import Mathlib

/-!
# Keeping the nearest

A container of bounded size that keeps, of everything it has ever been given, the elements
that come first in an order.  `Nearest r k seen held` says that it has done so: it holds the
first `k` of what it has seen, or all of it.

* `Nearest.add`, `Nearest.decline` and `Nearest.replace` are the three moves of such a
  container on a new element: it has room, the element comes after all it holds, or the
  element comes before the last it holds and takes its place.
* `Nearest.mem_iff` says what is held in terms of what was seen alone, so that the order in
  which the elements came does not matter.
-/

namespace Comrade
namespace Lib

variable {α : Type*} [DecidableEq α] {r : α → α → Prop} {k : Nat} {seen held : Finset α}

/-- The first `k` of what was seen are held, or all of it. -/
structure Nearest (r : α → α → Prop) (k : Nat) (seen held : Finset α) : Prop where
  subset : held ⊆ seen
  card_le : held.card ≤ k
  full : held = seen ∨ held.card = k
  nearer : ∀ a ∈ held, ∀ b ∈ seen, b ∉ held → r a b

theorem Nearest.empty (r : α → α → Prop) (k : Nat) : Nearest r k ∅ ∅ where
  subset := Finset.Subset.refl _
  card_le := by simp
  full := Or.inl rfl
  nearer := by simp

/-- What is held already may come again. -/
theorem Nearest.again (h : Nearest r k seen held) {x : α} (hx : x ∈ held) :
    Nearest r k (insert x seen) held := by
  rw [Finset.insert_eq_of_mem (h.subset hx)]
  exact h

/-- While there is room everything is kept. -/
theorem Nearest.add (h : Nearest r k seen held) {x : α} (hx : x ∉ held) (hroom : held.card < k) :
    Nearest r k (insert x seen) (insert x held) := by
  have hall : held = seen := h.full.resolve_right (Nat.ne_of_lt hroom)
  subst hall
  refine ⟨Finset.Subset.refl _, ?_, Or.inl rfl, ?_⟩
  · rw [Finset.card_insert_of_notMem hx]
    exact hroom
  · intro a _ b hb hnot
    exact absurd hb hnot

/-- A full container declines what comes after all it holds. -/
theorem Nearest.decline (h : Nearest r k seen held) {x : α} (hfull : held.card = k)
    (hlast : ∀ a ∈ held, r a x) : Nearest r k (insert x seen) held := by
  refine ⟨h.subset.trans (Finset.subset_insert x seen), h.card_le, Or.inr hfull, ?_⟩
  intro a ha b hb hnot
  rcases Finset.mem_insert.mp hb with rfl | hb
  · exact hlast a ha
  · exact h.nearer a ha b hb hnot

/-- A full container gives up the last it holds for what comes before it. -/
theorem Nearest.replace [IsTrans α r] (h : Nearest r k seen held) {x v : α} (hx : x ∉ held)
    (hfull : held.card = k) (hv : v ∈ held) (hlast : ∀ a ∈ held, a ≠ v → r a v) (hxv : r x v) :
    Nearest r k (insert x seen) (insert x (held.erase v)) := by
  have hxe : x ∉ held.erase v := fun hmem => hx (Finset.mem_of_mem_erase hmem)
  have hcard : (insert x (held.erase v)).card = k := by
    rw [Finset.card_insert_of_notMem hxe, Finset.card_erase_of_mem hv, hfull]
    have : 0 < held.card := Finset.card_pos.mpr ⟨v, hv⟩
    omega
  refine ⟨?_, hcard.le, Or.inr hcard, ?_⟩
  · apply Finset.insert_subset_insert
    exact (Finset.erase_subset v held).trans h.subset
  · intro a ha b hb hnot
    rw [Finset.mem_insert, not_or, Finset.mem_erase, not_and] at hnot
    have hbseen : b ∈ seen := (Finset.mem_insert.mp hb).resolve_left hnot.1
    -- everything that stays out comes after the one given up, or is that one
    have hafter : ∀ a, a = x ∨ (a ≠ v ∧ a ∈ held) → r a b := by
      intro a ha
      have hav : r a v := by
        rcases ha with rfl | ⟨hne, hmem⟩
        · exact hxv
        · exact hlast a hmem hne
      by_cases hbv : b = v
      · rw [hbv]
        exact hav
      · have hbheld : b ∉ held := hnot.2 hbv
        exact IsTrans.trans _ _ _ hav (h.nearer v hv b hbseen hbheld)
    apply hafter
    rcases Finset.mem_insert.mp ha with rfl | ha
    · exact Or.inl rfl
    · exact Or.inr (Finset.mem_erase.mp ha)

/-- An element is held if and only if it was seen and fewer than `k` of those seen come
before it. -/
theorem Nearest.mem_iff [DecidableRel r] (hasymm : ∀ a b, r a b → ¬r b a)
    (h : Nearest r k seen held) {x : α} :
    x ∈ held ↔ x ∈ seen ∧ (seen.filter fun a => r a x).card < k := by
  constructor
  · intro hx
    refine ⟨h.subset hx, ?_⟩
    have hbefore : (seen.filter fun a => r a x) ⊆ held.erase x := by
      intro a ha
      obtain ⟨haseen, hax⟩ := Finset.mem_filter.mp ha
      rw [Finset.mem_erase]
      refine ⟨?_, ?_⟩
      · rintro rfl
        exact hasymm a a hax hax
      · by_contra hnot
        exact hasymm a x hax (h.nearer x hx a haseen hnot)
    calc (seen.filter fun a => r a x).card ≤ (held.erase x).card := Finset.card_le_card hbefore
      _ < held.card := Finset.card_erase_lt_of_mem hx
      _ ≤ k := h.card_le
  · rintro ⟨hxseen, hfew⟩
    by_contra hx
    have hfull : held.card = k := by
      refine h.full.resolve_left ?_
      rintro rfl
      exact hx hxseen
    have hbefore : held ⊆ seen.filter fun a => r a x := by
      intro a ha
      exact Finset.mem_filter.mpr ⟨h.subset ha, h.nearer a ha x hxseen hx⟩
    have := Finset.card_le_card hbefore
    omega

theorem Nearest.card_eq (h : Nearest r k seen held) : held.card = min k seen.card := by
  have hle := Finset.card_le_card h.subset
  have hk := h.card_le
  rcases h.full with rfl | hfull
  · omega
  · omega

end Lib
end Comrade
