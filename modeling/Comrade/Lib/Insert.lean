import Mathlib

/-!
# Inserting into a list that is referred to by place

An array kept in order takes a new entry in the middle, and whoever refers to an entry
by its place has to follow.

* `shift` is where an entry ends up.
* `getElem?_insertIdx_shift` says that it is the same entry.
* `pairwise_insertIdx` is what the new entry owes to those before and after it.
-/

namespace Comrade
namespace Lib

variable {α : Type*}

/-- Where the entry at `i` ends up when one is put in at `pos`. -/
def shift (pos i : Nat) : Nat := if pos ≤ i then i + 1 else i

theorem shift_injective (pos : Nat) : Function.Injective (shift pos) := by
  intro i j hij
  unfold shift at hij
  split_ifs at hij <;> omega

/-- An entry is found again at its new place. -/
theorem getElem?_insertIdx_shift {l : List α} {x a : α} {pos i : Nat}
    (hi : l[i]? = some a) : (l.insertIdx pos x)[shift pos i]? = some a := by
  unfold shift
  split_ifs with hle
  · rw [List.getElem?_insertIdx_of_gt (by omega), Nat.add_sub_cancel]
    exact hi
  · rw [List.getElem?_insertIdx_of_lt (by omega)]
    exact hi

theorem insertIdx_eq_append {l : List α} {x : α} {pos : Nat} (hpos : pos ≤ l.length) :
    l.insertIdx pos x = l.take pos ++ x :: l.drop pos := by
  induction l generalizing pos with
  | nil =>
      obtain rfl : pos = 0 := Nat.le_zero.mp hpos
      rfl
  | cons a l ih =>
      cases pos with
      | zero => rfl
      | succ pos =>
          rw [List.insertIdx_succ_cons, ih (Nat.le_of_succ_le_succ hpos)]
          rfl

/-- The entries stay related where the new one is to those before it and to those after
it. -/
theorem pairwise_insertIdx {R : α → α → Prop} {l : List α} {x : α} {pos : Nat}
    (hpos : pos ≤ l.length) (hl : l.Pairwise R) (hbefore : ∀ a ∈ l.take pos, R a x)
    (hafter : ∀ a ∈ l.drop pos, R x a) : (l.insertIdx pos x).Pairwise R := by
  rw [insertIdx_eq_append hpos]
  rw [← List.take_append_drop pos l, List.pairwise_append] at hl
  obtain ⟨htake, hdrop, hacross⟩ := hl
  rw [List.pairwise_append, List.pairwise_cons]
  refine ⟨htake, ⟨hafter, hdrop⟩, ?_⟩
  intro a ha b hb
  rcases List.mem_cons.mp hb with rfl | hb
  · exact hbefore a ha
  · exact hacross a ha b hb

/-- A relation that holds either way needs no place. -/
theorem pairwise_insertIdx_of_symm {R : α → α → Prop} (hsymm : ∀ a b, R a b → R b a)
    {l : List α} {x : α} {pos : Nat} (hpos : pos ≤ l.length) (hl : l.Pairwise R)
    (hx : ∀ a ∈ l, R x a) : (l.insertIdx pos x).Pairwise R := by
  apply pairwise_insertIdx hpos hl
  · intro a ha
    exact hsymm x a (hx a (List.mem_of_mem_take ha))
  · intro a ha
    exact hx a (List.mem_of_mem_drop ha)

end Lib
end Comrade
