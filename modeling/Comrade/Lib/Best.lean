import Mathlib

/-!
# Scanning for the best

A scan walks a list once, skips what is not eligible, and keeps the first element
that no later one comes before.  Nothing is asked of the comparison while it
runs; where it is irreflexive and transitive, the element kept is minimal among
all that were eligible.
-/

namespace Comrade
namespace Lib

variable {α : Type*} {ok : α → Bool} {before : α → α → Bool}

/-- One element of the scan. -/
def bestStep (ok : α → Bool) (before : α → α → Bool) (best : Option α) (x : α) : Option α :=
  if ok x = false then best
  else
    match best with
    | none => some x
    | some b => if before x b = true then some x else some b

/-- The element a scan keeps. -/
def bestBy (ok : α → Bool) (before : α → α → Bool) (xs : List α) : Option α :=
  xs.foldl (bestStep ok before) none

/-- What a scan has established once it holds `best` after the elements `seen`. -/
def BestOf (ok : α → Bool) (before : α → α → Bool) (seen : List α) : Option α → Prop
  | none => ∀ x ∈ seen, ok x = false
  | some b => b ∈ seen ∧ ok b = true ∧ ∀ x ∈ seen, ok x = true → before x b = false

theorem bestStep_bestOf (hirr : ∀ x, before x x = false)
    (htrans : ∀ x y z, before x y = true → before y z = true → before x z = true)
    {seen : List α} {best : Option α} (h : BestOf ok before seen best) (x : α) :
    BestOf ok before (seen ++ [x]) (bestStep ok before best x) := by
  unfold bestStep
  by_cases hx : ok x = true
  · rw [if_neg (by simp [hx])]
    cases best with
    | none =>
        refine ⟨by simp, hx, ?_⟩
        intro y hy hyok
        rcases List.mem_append.mp hy with hy | hy
        · rw [h y hy] at hyok
          cases hyok
        · rw [List.mem_singleton.mp hy]
          exact hirr x
    | some b =>
        obtain ⟨hb, hbok, hmin⟩ := h
        dsimp only
        by_cases hxb : before x b = true
        · rw [if_pos hxb]
          refine ⟨by simp, hx, ?_⟩
          intro y hy hyok
          rcases List.mem_append.mp hy with hy | hy
          · -- whatever comes before `x` would have come before `b`
            by_contra hyx
            have hyb := htrans y x b (by simpa using hyx) hxb
            rw [hmin y hy hyok] at hyb
            cases hyb
          · rw [List.mem_singleton.mp hy]
            exact hirr x
        · rw [if_neg hxb]
          refine ⟨List.mem_append_left _ hb, hbok, ?_⟩
          intro y hy hyok
          rcases List.mem_append.mp hy with hy | hy
          · exact hmin y hy hyok
          · rw [List.mem_singleton.mp hy]
            simpa using hxb
  · rw [if_pos (by simpa using hx)]
    cases best with
    | none =>
        intro y hy
        rcases List.mem_append.mp hy with hy | hy
        · exact h y hy
        · rw [List.mem_singleton.mp hy]
          simpa using hx
    | some b =>
        obtain ⟨hb, hbok, hmin⟩ := h
        refine ⟨List.mem_append_left _ hb, hbok, ?_⟩
        intro y hy hyok
        rcases List.mem_append.mp hy with hy | hy
        · exact hmin y hy hyok
        · rw [List.mem_singleton.mp hy] at hyok
          exact absurd hyok hx

/-- A scan keeps a minimal eligible element, and nothing only where nothing was
eligible. -/
theorem bestBy_bestOf (hirr : ∀ x, before x x = false)
    (htrans : ∀ x y z, before x y = true → before y z = true → before x z = true)
    (xs : List α) : BestOf ok before xs (bestBy ok before xs) := by
  induction xs using List.reverseRecOn with
  | nil =>
      intro x hx
      cases hx
  | append_singleton xs x ih =>
      have hstep := bestStep_bestOf hirr htrans ih x
      rw [bestBy, List.foldl_append]
      exact hstep

end Lib
end Comrade
