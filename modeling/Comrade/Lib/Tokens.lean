import Comrade.Lib.Run

/-!
# A token bucket

A bucket holds a level of at most `cap`.  An ask refills it by what was gained since the ask
before, and is paid where the level then reaches `cost`.

* `Tokens.take` is one ask.
* `Drawn` says how far the payments that fall into a window have drawn on the bucket.
  `Drawn.take` is the rule for one ask, and `Drawn.count_le` what it comes to: as many as
  the full bucket pays, and one more for every `cost` that the window gains.
-/

namespace Comrade
namespace Lib

/-- Does the time fall into the window of `width` from `start` on? -/
def inWindow (start width t : Nat) : Bool := decide (start ≤ t) && decide (t ≤ start + width)

theorem inWindow_iff {start width t : Nat} :
    inWindow start width t = true ↔ start ≤ t ∧ t ≤ start + width := by
  simp [inWindow]

/-- A bucket: what it holds, and when it was last asked. -/
structure Tokens where
  level : Nat
  last : Nat

/-- What a bucket that gained `gained` holds. -/
def Tokens.refilled (cap : Nat) (b : Tokens) (gained : Nat) : Nat := min cap (b.level + gained)

/-- One ask at `now`, and whether it is paid. -/
def Tokens.take (cap cost : Nat) (b : Tokens) (gained now : Nat) : Tokens × Bool :=
  let level := b.refilled cap gained
  if level < cost then ({ level := level, last := now }, false)
  else ({ level := level - cost, last := now }, true)

theorem Tokens.take_level_le (cap cost : Nat) (b : Tokens) (gained now : Nat) :
    (b.take cap cost gained now).1.level ≤ cap := by
  have hrefilled : b.refilled cap gained ≤ cap := Nat.min_le_left _ _
  unfold Tokens.take
  dsimp only
  split_ifs
  · exact hrefilled
  · exact (Nat.sub_le _ _).trans hrefilled

/-- The bucket after `n` payments in the window: short of the window's end, all it ever held
in the window was a full bucket and what the time since `start` gained. -/
structure Drawn (cap rate cost start width : Nat) (b : Tokens) (n : Nat) : Prop where
  level_le : b.level ≤ cap
  none_before : b.last < start → n = 0
  within : b.last ≤ start + width → n * cost + b.level ≤ cap + rate * (b.last - start)
  total : n * cost ≤ cap + rate * width

variable {cap rate cost start width : Nat}

/-- Nothing was paid yet. -/
theorem Drawn.zero {b : Tokens} (h : b.level ≤ cap) : Drawn cap rate cost start width b 0 where
  level_le := h
  none_before := fun _ => rfl
  within := fun _ => by omega
  total := by omega

/-- A refill adds no more than the time since the last ask gains. -/
theorem Drawn.refilled {b : Tokens} {n : Nat} (h : Drawn cap rate cost start width b n)
    {gained now : Nat} (hlast : b.last ≤ now) (hgained : gained ≤ rate * (now - b.last))
    (hnow : now ≤ start + width) :
    n * cost + b.refilled cap gained ≤ cap + rate * (now - start) := by
  unfold Tokens.refilled
  by_cases hbefore : b.last < start
  · -- the first ask of the window finds a full bucket at best
    rw [h.none_before hbefore, Nat.zero_mul]
    omega
  · have hwithin := h.within (hlast.trans hnow)
    have hsplit : rate * (now - start) = rate * (now - b.last) + rate * (b.last - start) := by
      rw [← Nat.mul_add]
      congr 1
      omega
    omega

/-- One ask: it counts where it is paid within the window. -/
theorem Drawn.take {b : Tokens} {n : Nat} (h : Drawn cap rate cost start width b n)
    {gained now : Nat} (hlast : b.last ≤ now) (hgained : gained ≤ rate * (now - b.last)) :
    Drawn cap rate cost start width (b.take cap cost gained now).1
      (n + if (b.take cap cost gained now).2 = true ∧ inWindow start width now = true then 1
        else 0) := by
  have hlevel := b.take_level_le cap cost gained now
  have hnone : now < start → n = 0 := fun hlt => h.none_before (hlast.trans_lt hlt)
  have hin := h.refilled hlast hgained
  unfold Tokens.take at hlevel ⊢
  by_cases hshort : b.refilled cap gained < cost
  · simp only [if_pos hshort] at hlevel
    simp only [if_pos hshort, Bool.false_eq_true, false_and, if_false, Nat.add_zero]
    exact ⟨hlevel, hnone, hin, h.total⟩
  · simp only [if_neg hshort] at hlevel
    simp only [if_neg hshort, true_and]
    by_cases hnow : inWindow start width now = true
    · rw [if_pos hnow]
      rw [inWindow_iff] at hnow
      have hin := hin hnow.2
      have hpaid : (n + 1) * cost + (b.refilled cap gained - cost) ≤
          cap + rate * (now - start) := by
        rw [Nat.add_mul, Nat.one_mul]
        omega
      have hgain : rate * (now - start) ≤ rate * width := by
        apply Nat.mul_le_mul_left
        omega
      refine ⟨hlevel, ?_, fun _ => hpaid, ?_⟩
      · intro hlt
        exact absurd hnow.1 (not_le.mpr hlt)
      · omega
    · rw [if_neg hnow, Nat.add_zero]
      refine ⟨hlevel, hnone, ?_, h.total⟩
      intro hle
      have hin := hin hle
      show n * cost + (b.refilled cap gained - cost) ≤ cap + rate * (now - start)
      omega

/-- The number of payments in the window. -/
theorem Drawn.count_le {b : Tokens} {n : Nat} (h : Drawn cap rate cost start width b n)
    (hcost : 0 < cost) : n ≤ (cap + rate * width) / cost :=
  (Nat.le_div_iff_mul_le hcost).mpr h.total

end Lib
end Comrade
