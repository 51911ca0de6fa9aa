import Comrade.Lib.Bytes

/-!
# Absorbing a message in blocks

A hash function of the kind of Merkle and Damgård takes a message in blocks of `n` bytes, each
of which changes the state.  A message that comes in pieces is held back until a block of it is
there.

* `absorb` takes the whole blocks off the front of a message, and `leftover` is what is behind
  them.
* `absorb_append` and `leftover_append`: what comes behind a message is absorbed as if it
  came behind the part of it that was left over.
-/

namespace Comrade
namespace Lib

variable {σ : Type*} {n : Nat}

/-- The state after the whole blocks of a message. -/
def absorb (n : Nat) (compress : σ → Bytes → σ) (h : σ) (s : Bytes) : σ :=
  if 0 < n ∧ n ≤ s.length then absorb n compress (compress h (s.take n)) (s.drop n) else h
termination_by s.length
decreasing_by
  rw [List.length_drop]
  omega

/-- What is left behind the whole blocks. -/
def leftover (n : Nat) (s : Bytes) : Bytes := s.drop (s.length / n * n)

variable {compress : σ → Bytes → σ}

theorem absorb_short {s : Bytes} (h : s.length < n) (x : σ) : absorb n compress x s = x := by
  rw [absorb, if_neg (by omega)]

theorem absorb_block {s : Bytes} (hn : 0 < n) (h : n ≤ s.length) (x : σ) :
    absorb n compress x s = absorb n compress (compress x (s.take n)) (s.drop n) := by
  rw [absorb, if_pos ⟨hn, h⟩]

theorem leftover_short {s : Bytes} (h : s.length < n) : leftover n s = s := by
  rw [leftover, Nat.div_eq_of_lt h, Nat.zero_mul, List.drop_zero]

theorem leftover_block {s : Bytes} (hn : 0 < n) (h : n ≤ s.length) :
    leftover n s = leftover n (s.drop n) := by
  have hdiv : s.length / n = (s.length - n) / n + 1 := by
    rw [← Nat.sub_add_cancel h, Nat.add_div_right _ hn, Nat.add_sub_cancel]
  rw [leftover, leftover, List.drop_drop, List.length_drop, hdiv]
  congr 1
  ring

theorem length_leftover (n : Nat) (s : Bytes) : (leftover n s).length = s.length % n := by
  have hdiv := Nat.div_add_mod' s.length n
  rw [leftover, List.length_drop]
  omega

theorem leftover_append (hn : 0 < n) (s t : Bytes) :
    leftover n (s ++ t) = leftover n (leftover n s ++ t) := by
  induction hlen : s.length using Nat.strong_induction_on generalizing s with
  | _ k ih =>
    by_cases hs : n ≤ s.length
    · have hst : n ≤ (s ++ t).length := by
        rw [List.length_append]
        omega
      have hdrop : (s ++ t).drop n = s.drop n ++ t := List.drop_append_of_le_length hs
      rw [leftover_block hn hst, hdrop, leftover_block hn hs]
      exact ih (s.drop n).length (by rw [List.length_drop]; omega) (s.drop n) rfl
    · rw [leftover_short (s := s) (by omega)]

theorem absorb_append (hn : 0 < n) (x : σ) (s t : Bytes) :
    absorb n compress x (s ++ t) =
      absorb n compress (absorb n compress x s) (leftover n s ++ t) := by
  induction hlen : s.length using Nat.strong_induction_on generalizing s x with
  | _ k ih =>
    by_cases hs : n ≤ s.length
    · have hst : n ≤ (s ++ t).length := by
        rw [List.length_append]
        omega
      have hdrop : (s ++ t).drop n = s.drop n ++ t := List.drop_append_of_le_length hs
      have htake : (s ++ t).take n = s.take n := List.take_append_of_le_length hs
      rw [absorb_block hn hst, hdrop, htake, leftover_block hn hs, absorb_block hn hs]
      exact ih (s.drop n).length (by rw [List.length_drop]; omega) _ (s.drop n) rfl
    · rw [leftover_short (s := s) (by omega), absorb_short (s := s) (by omega)]

end Lib
end Comrade
