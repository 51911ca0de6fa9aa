import Comrade.Lib.Bytes

/-!
# Scanning terminated sequences

The C loop `while (q < end && *q != stop) body(&q)` followed by a test for the
end of the buffer reads a sequence of items up to a closing byte.  `untilByte`
is that loop; its body may carry a state from one item to the next.

The scanners here take what is left of the buffer and return what is left after
them.  The loop is driven by the length of the buffer: a body that consumes
what it accepts can run no more often than that (`untilByte_mono`).

* `Chain` is a sequence of items that a state admits one after the other.
* `untilByte_sound`: what the loop accepts is such a sequence, written out.
* `untilByte_complete`: every such sequence, written out, is accepted.
-/

namespace Comrade
namespace Lib

variable {σ ι : Type*}

/-- Read items with `body` up to the byte `stop`, at most `n` of them; `none`
for an item refused and for a buffer that ends before the byte. -/
def untilByte (stop : UInt8) (body : σ → Bytes → Option (σ × Bytes)) :
    Nat → σ → Bytes → Option Bytes
  | 0, _, _ => none
  | _ + 1, _, [] => none
  | n + 1, s, c :: q =>
      if c = stop then some q
      else
        match body s (c :: q) with
        | none => none
        | some (s', q') => untilByte stop body n s' q'

/-- Items that are admitted one after the other from a state on. -/
inductive Chain (R : σ → ι → σ → Prop) : σ → List ι → Prop
  | nil {s : σ} : Chain R s []
  | cons {s s' : σ} {x : ι} {xs : List ι} (hx : R s x s') (hxs : Chain R s' xs) :
      Chain R s (x :: xs)

theorem Chain.imp {R R' : σ → ι → σ → Prop} (h : ∀ s x s', R s x s' → R' s x s') {s : σ}
    {xs : List ι} (hxs : Chain R s xs) : Chain R' s xs := by
  induction hxs with
  | nil => exact .nil
  | cons hx _ ih => exact .cons (h _ _ _ hx) ih

section Loop

variable {stop : UInt8} {body : σ → Bytes → Option (σ × Bytes)} {enc : ι → Bytes}
  {R : σ → ι → σ → Prop}

theorem untilByte_cons (n : Nat) (s : σ) (c : UInt8) (q : Bytes) :
    untilByte stop body (n + 1) s (c :: q) =
      if c = stop then some q
      else
        match body s (c :: q) with
        | none => none
        | some (s', q') => untilByte stop body n s' q' := rfl

/-- Where the body reads back only written items, the loop reads back only
written sequences. -/
theorem untilByte_sound
    (hbody : ∀ s q s' q', body s q = some (s', q') → ∃ x, R s x s' ∧ q = enc x ++ q')
    {n : Nat} {s : σ} {q rest : Bytes} (h : untilByte stop body n s q = some rest) :
    ∃ xs, Chain R s xs ∧ q = xs.flatMap enc ++ stop :: rest := by
  induction n generalizing s q with
  | zero => cases h
  | succ n ih =>
      cases q with
      | nil => cases h
      | cons c q =>
          rw [untilByte_cons] at h
          by_cases hc : c = stop
          · rw [if_pos hc] at h
            obtain rfl := Option.some.inj h
            exact ⟨[], .nil, by rw [hc]; rfl⟩
          · rw [if_neg hc] at h
            cases hb : body s (c :: q) with
            | none => simp [hb] at h
            | some sq =>
                obtain ⟨s', q'⟩ := sq
                simp only [hb] at h
                obtain ⟨x, hx, hq⟩ := hbody s (c :: q) s' q' hb
                obtain ⟨xs, hxs, hq'⟩ := ih h
                exact ⟨x :: xs, .cons hx hxs, by rw [hq, hq']; simp⟩

/-- Where the body accepts every written item, and none starts with the closing
byte, the loop accepts every written sequence. -/
theorem untilByte_complete
    (hbody : ∀ s x s' q, R s x s' → body s (enc x ++ q) = some (s', q))
    (hhead : ∀ s x s', R s x s' → ∃ c t, enc x = c :: t ∧ c ≠ stop)
    {n : Nat} {s : σ} {xs : List ι} {rest : Bytes} (hxs : Chain R s xs)
    (hn : (xs.flatMap enc ++ stop :: rest).length ≤ n) :
    untilByte stop body n s (xs.flatMap enc ++ stop :: rest) = some rest := by
  induction hxs generalizing n with
  | nil =>
      cases n with
      | zero => simp at hn
      | succ n =>
          rw [List.flatMap_nil, List.nil_append, untilByte_cons, if_pos rfl]
  | @cons s s' x xs hx hxs ih =>
      obtain ⟨c, t, henc, hc⟩ := hhead s x s' hx
      cases n with
      | zero => simp at hn
      | succ n =>
          have hrun := hbody s x s' (xs.flatMap enc ++ stop :: rest) hx
          rw [List.flatMap_cons, List.append_assoc] at hn ⊢
          -- the loop looks at the first byte alone before it calls the body
          rw [henc, List.cons_append] at hrun hn ⊢
          rw [untilByte_cons, if_neg hc, hrun]
          refine ih ?_
          simp only [List.length_cons, List.length_append] at hn ⊢
          omega

/-- A bound the buffer's length allows for is never what stops the loop, as
long as the body consumes what it accepts. -/
theorem untilByte_mono (hshort : ∀ s q s' q', body s q = some (s', q') → q'.length < q.length)
    {n n' : Nat} {s : σ} {q : Bytes} (hn : q.length ≤ n) (hn' : q.length ≤ n') :
    untilByte stop body n s q = untilByte stop body n' s q := by
  induction n generalizing n' s q with
  | zero =>
      obtain rfl := List.length_eq_zero_iff.mp (Nat.le_zero.mp hn)
      cases n' <;> rfl
  | succ n ih =>
      cases q with
      | nil => cases n' <;> rfl
      | cons c q =>
          cases n' with
          | zero => simp at hn'
          | succ n' =>
              rw [untilByte_cons, untilByte_cons]
              by_cases hc : c = stop
              · rw [if_pos hc, if_pos hc]
              · rw [if_neg hc, if_neg hc]
                cases hb : body s (c :: q) with
                | none => rfl
                | some sq =>
                    obtain ⟨s', q'⟩ := sq
                    -- what is left still fits what is left of either bound
                    have hlt := hshort s (c :: q) s' q' hb
                    exact ih (by omega) (by omega)

/-- What the loop leaves is shorter than what it was given. -/
theorem untilByte_length (hshort : ∀ s q s' q', body s q = some (s', q') → q'.length < q.length)
    {n : Nat} {s : σ} {q rest : Bytes} (h : untilByte stop body n s q = some rest) :
    rest.length < q.length := by
  induction n generalizing s q with
  | zero => cases h
  | succ n ih =>
      cases q with
      | nil => cases h
      | cons c q =>
          rw [untilByte_cons] at h
          by_cases hc : c = stop
          · rw [if_pos hc] at h
            obtain rfl := Option.some.inj h
            simp
          · rw [if_neg hc] at h
            cases hb : body s (c :: q) with
            | none => simp [hb] at h
            | some sq =>
                obtain ⟨s', q'⟩ := sq
                simp only [hb] at h
                exact lt_trans (ih h) (hshort s (c :: q) s' q' hb)

end Loop

end Lib
end Comrade
