import Comrade.Lib.Run

/-!
# A leaky bucket by arrival time

A limiter that keeps one number, the theoretical arrival time: the time at which the bucket
would have drained.  An ask moves it up to the present if it lies in the past, is refused if
it lies more than `limit` ahead, and pushes it on by `cost` if it is admitted.

* `bucketStep` is one ask, `bucketAdmits` its answer.
* `bucket_window` bounds the admissions of any window, whatever the bucket was before and in
  whatever order the times come: one at once, as many as `limit` holds, and one for every
  `cost` of the window.
-/

namespace Comrade
namespace Lib

variable {limit cost : Nat}

/-- Is an ask at `now` admitted? -/
def bucketAdmits (limit tat now : Nat) : Bool := decide (max tat now - now ≤ limit)

/-- The arrival time after an ask. -/
def bucketStep (limit cost tat now : Nat) : Nat :=
  if bucketAdmits limit tat now = true then max tat now + cost else max tat now

/-- The times admitted, of those asked. -/
def bucketAdmitted (limit cost tat : Nat) (times : List Nat) : List Nat :=
  observe (bucketStep limit cost) (fun tat now => if bucketAdmits limit tat now = true then some now
    else none) tat times

/-- The arrival time has been pushed on by every admission of the window that begins at
`start`, so that the last of them is no further behind it than the limit. -/
theorem bucket_count (start width : Nat) (times : List Nat) :
    ∀ tat m, start + m * cost ≤ max tat start →
      ∀ n, ((bucketAdmitted limit cost tat times).filter fun t =>
          decide (start ≤ t) && decide (t ≤ start + width)).length = n + 1 →
        (m + n) * cost ≤ width + limit := by
  induction times with
  | nil =>
      intro tat m _ n hn
      simp [bucketAdmitted] at hn
  | cons now times ih =>
      intro tat m htat n hn
      have hcons : bucketAdmitted limit cost tat (now :: times) =
          (if bucketAdmits limit tat now = true then some now else none).toList ++
            bucketAdmitted limit cost (bucketStep limit cost tat now) times := rfl
      rw [hcons, List.filter_append, List.length_append] at hn
      by_cases hgranted : bucketAdmits limit tat now = true
      · have hstep : bucketStep limit cost tat now = max tat now + cost := if_pos hgranted
        have hlimit : max tat now - now ≤ limit := of_decide_eq_true hgranted
        rw [if_pos hgranted, hstep] at hn
        by_cases hin : start ≤ now ∧ now ≤ start + width
        · -- one of the window: it is within the limit, and pushes the bucket on
          have hone : ([now].filter fun t =>
              decide (start ≤ t) && decide (t ≤ start + width)).length = 1 := by
            simp [hin.1, hin.2]
          rw [Option.toList_some, hone] at hn
          have hpushed : start + (m + 1) * cost ≤ max (max tat now + cost) start := by
            rw [Nat.add_mul]
            omega
          cases n with
          | zero =>
              rw [Nat.add_zero]
              omega
          | succ n =>
              have hrest := ih (max tat now + cost) (m + 1) hpushed n (by omega)
              rw [show m + (n + 1) = m + 1 + n by omega]
              exact hrest
        · have hnone : ([now].filter fun t =>
              decide (start ≤ t) && decide (t ≤ start + width)).length = 0 := by
            simp only [List.length_eq_zero_iff, List.filter_eq_nil_iff, List.mem_singleton]
            rintro t rfl
            simpa using hin
          rw [Option.toList_some, hnone, Nat.zero_add] at hn
          exact ih (max tat now + cost) m (by omega) n hn
      · have hstep : bucketStep limit cost tat now = max tat now := if_neg hgranted
        rw [if_neg hgranted, hstep, Option.toList_none, List.filter_nil, List.length_nil,
          Nat.zero_add] at hn
        exact ih (max tat now) m (by omega) n hn

/-- The admissions of any window. -/
theorem bucket_window (hcost : 0 < cost) (burst start width tat : Nat) (times : List Nat) :
    ((bucketAdmitted (burst * cost) cost tat times).filter fun t =>
        decide (start ≤ t) && decide (t ≤ start + width)).length ≤ burst + 1 + width / cost := by
  cases hn : ((bucketAdmitted (burst * cost) cost tat times).filter fun t =>
      decide (start ≤ t) && decide (t ≤ start + width)).length with
  | zero => exact Nat.zero_le _
  | succ n =>
      have hcount := bucket_count start width times tat 0 (by omega) n hn
      rw [Nat.zero_add] at hcount
      have hle : n ≤ (width + burst * cost) / cost := (Nat.le_div_iff_mul_le hcost).mpr hcount
      rw [Nat.add_mul_div_right _ _ hcost] at hle
      omega

end Lib
end Comrade
