import Mathlib.Data.List.Basic

/-!
# Readers of a buffer

C code that decodes a buffer tests how much of it is left, reads, writes what it read to
buffers of its own and goes on.  A `Reader` is such code: it takes what is left of the
buffer, stops with an answer of its own or goes on with what is left after it, and a read or
a write past the end of a buffer stops it with `Stop.fault`.

* `Safe p r Q`: on `r` no access of `p` is outside its buffer, and `Q` holds of what it reads
  and leaves.
* `Extends p`: what `p` reads of a buffer it reads of every longer one.
* `Gives p Q`: `Q` holds of whatever `p` reads.

Each has a rule for the steps and one for `bind`.
-/

namespace Comrade
namespace Lib

/-- Why a reader stops: an access outside a buffer, or an answer of its own. -/
inductive Stop (ε : Type) where
  | fault
  | answer (e : ε)
  deriving DecidableEq

/-- A reader of what is left of a buffer. -/
abbrev Reader (β ε α : Type) := StateT (List β) (Except (Stop ε)) α

namespace Reader

variable {β ε α γ : Type}

/-! ## The steps -/

/-- The next item: `in[i++]`. -/
def next : Reader β ε β
  | [] => .error .fault
  | b :: r => .ok (b, r)

/-- The next `n` items. -/
def take (n : Nat) : Reader β ε (List β) := fun r =>
  if n ≤ r.length then .ok (r.take n, r.drop n) else .error .fault

/-- A test that `n` items are left. -/
def need (n : Nat) (e : ε) : Reader β ε Unit := fun r =>
  if n ≤ r.length then .ok ((), r) else .error (.answer e)

/-- A test that ends in an answer. -/
def refuse (c : Prop) [Decidable c] (e : ε) : Reader β ε Unit := fun r =>
  if c then .error (.answer e) else .ok ((), r)

/-- An answer. -/
def stop (e : ε) : Reader β ε α := fun _ => .error (.answer e)

/-- A write of `n` items to a buffer of `cap`. -/
def within (n cap : Nat) : Reader β ε Unit := fun r =>
  if n ≤ cap then .ok ((), r) else .error .fault

/-! ## What they compute -/

theorem bind_ok {p : Reader β ε α} {f : α → Reader β ε γ} {r r' : List β} {a : α}
    (h : p r = .ok (a, r')) : (p >>= f) r = f a r' := by
  change (p r >>= fun x => f x.1 x.2) = f a r'
  rw [h]
  rfl

theorem bind_error {p : Reader β ε α} {f : α → Reader β ε γ} {r : List β} {e : Stop ε}
    (h : p r = .error e) : (p >>= f) r = .error e := by
  change (p r >>= fun x => f x.1 x.2) = .error e
  rw [h]
  rfl

@[simp] theorem pure_run (a : α) (r : List β) : (pure a : Reader β ε α) r = .ok (a, r) := rfl

@[simp] theorem next_cons (b : β) (r : List β) : (next : Reader β ε β) (b :: r) = .ok (b, r) := rfl

theorem take_append {n : Nat} {xs : List β} (h : xs.length = n) (r : List β) :
    (take n : Reader β ε (List β)) (xs ++ r) = .ok (xs, r) := by
  rw [take, if_pos (by rw [List.length_append]; omega), List.take_left' h, List.drop_left' h]

theorem need_of_le {n : Nat} {r : List β} (h : n ≤ r.length) (e : ε) :
    (need n e : Reader β ε Unit) r = .ok ((), r) := if_pos h

theorem refuse_of_not {c : Prop} [Decidable c] (h : ¬c) (e : ε) (r : List β) :
    (refuse c e : Reader β ε Unit) r = .ok ((), r) := if_neg h

theorem within_of_le {n cap : Nat} (h : n ≤ cap) (r : List β) :
    (within n cap : Reader β ε Unit) r = .ok ((), r) := if_pos h

/-- What a reader did before it went on. -/
theorem bind_eq_ok {p : Reader β ε α} {f : α → Reader β ε γ} {r r' : List β} {c : γ}
    (h : (p >>= f) r = .ok (c, r')) : ∃ a s, p r = .ok (a, s) ∧ f a s = .ok (c, r') := by
  cases hp : p r with
  | error e =>
      rw [bind_error hp] at h
      cases h
  | ok x =>
      obtain ⟨a, s⟩ := x
      rw [bind_ok hp] at h
      exact ⟨a, s, rfl, h⟩

/-! ## No access outside a buffer -/

/-- On `r` the reader stays within its buffers, and `Q` holds of what it reads and leaves. -/
def Safe (p : Reader β ε α) (r : List β) (Q : α → List β → Prop) : Prop :=
  p r ≠ .error .fault ∧ ∀ a r', p r = .ok (a, r') → Q a r'

theorem Safe.of_ok {p : Reader β ε α} {r r' : List β} {a : α} {Q : α → List β → Prop}
    (hrun : p r = .ok (a, r')) (h : Q a r') : Safe p r Q := by
  constructor
  · rw [hrun]
    simp
  · intro b s hb
    rw [hrun] at hb
    obtain ⟨rfl, rfl⟩ := Prod.mk.inj (Except.ok.inj hb)
    exact h

theorem Safe.of_answer {p : Reader β ε α} {r : List β} {e : ε} {Q : α → List β → Prop}
    (hrun : p r = .error (.answer e)) : Safe p r Q := by
  constructor
  · rw [hrun]
    simp
  · intro b s hb
    rw [hrun] at hb
    cases hb

theorem Safe.bind {p : Reader β ε α} {f : α → Reader β ε γ} {r : List β}
    {Q : α → List β → Prop} {R : γ → List β → Prop} (hp : Safe p r Q)
    (hf : ∀ a r', Q a r' → Safe (f a) r' R) : Safe (p >>= f) r R := by
  obtain ⟨hfault, hpost⟩ := hp
  cases hrun : p r with
  | error e =>
      cases e with
      | fault => exact absurd hrun hfault
      | answer e => exact Safe.of_answer (bind_error hrun)
  | ok x =>
      obtain ⟨a, s⟩ := x
      have hnext := hf a s (hpost a s hrun)
      unfold Safe
      rw [bind_ok hrun]
      exact hnext

theorem Safe.imp {p : Reader β ε α} {r : List β} {Q R : α → List β → Prop} (h : Safe p r Q)
    (himp : ∀ a r', Q a r' → R a r') : Safe p r R :=
  ⟨h.1, fun a r' hrun => himp a r' (h.2 a r' hrun)⟩

theorem Safe.pure {a : α} {r : List β} {Q : α → List β → Prop} (h : Q a r) :
    Safe (pure a : Reader β ε α) r Q := Safe.of_ok (pure_run a r) h

theorem Safe.next {r : List β} (h : 0 < r.length) :
    Safe (next : Reader β ε β) r fun _ r' => r'.length + 1 = r.length := by
  cases r with
  | nil => simp at h
  | cons b r => exact Safe.of_ok (next_cons b r) rfl

theorem Safe.take {n : Nat} {r : List β} (h : n ≤ r.length) :
    Safe (take n : Reader β ε (List β)) r
      fun xs r' => xs.length = n ∧ r'.length + n = r.length := by
  apply Safe.of_ok (if_pos h)
  rw [List.length_take, List.length_drop]
  omega

theorem Safe.need (n : Nat) (e : ε) (r : List β) :
    Safe (need n e : Reader β ε Unit) r fun _ r' => r' = r ∧ n ≤ r.length := by
  by_cases h : n ≤ r.length
  · exact Safe.of_ok (need_of_le h e) ⟨rfl, h⟩
  · exact Safe.of_answer (if_neg h)

theorem Safe.refuse (c : Prop) [Decidable c] (e : ε) (r : List β) :
    Safe (refuse c e : Reader β ε Unit) r fun _ r' => r' = r ∧ ¬c := by
  by_cases h : c
  · exact Safe.of_answer (if_pos h)
  · exact Safe.of_ok (refuse_of_not h e r) ⟨rfl, h⟩

theorem Safe.stop {e : ε} {r : List β} {Q : α → List β → Prop} :
    Safe (stop e : Reader β ε α) r Q := Safe.of_answer rfl

theorem Safe.within {n cap : Nat} (h : n ≤ cap) (r : List β) :
    Safe (within n cap : Reader β ε Unit) r fun _ r' => r' = r :=
  Safe.of_ok (within_of_le h r) rfl

/-! ## Longer buffers -/

/-- What the reader reads of a buffer it reads of a longer one. -/
def Extends (p : Reader β ε α) : Prop :=
  ∀ r a r', p r = .ok (a, r') → ∀ s, p (r ++ s) = .ok (a, r' ++ s)

theorem Extends.bind {p : Reader β ε α} {f : α → Reader β ε γ} (hp : Extends p)
    (hf : ∀ a, Extends (f a)) : Extends (p >>= f) := by
  intro r c r' h s
  obtain ⟨a, t, ha, hc⟩ := bind_eq_ok h
  rw [bind_ok (hp r a t ha s)]
  exact hf a t c r' hc s

theorem Extends.pure (a : α) : Extends (pure a : Reader β ε α) := by
  intro r b r' h s
  obtain ⟨rfl, rfl⟩ := Prod.mk.inj (Except.ok.inj h)
  rfl

theorem Extends.next : Extends (next : Reader β ε β) := by
  intro r b r' h s
  cases r with
  | nil => cases h
  | cons c r =>
      obtain ⟨rfl, rfl⟩ := Prod.mk.inj (Except.ok.inj h)
      rfl

theorem Extends.take (n : Nat) : Extends (take n : Reader β ε (List β)) := by
  intro r b r' h s
  unfold Reader.take at h
  split_ifs at h with hn
  obtain ⟨rfl, rfl⟩ := Prod.mk.inj (Except.ok.inj h)
  rw [Reader.take, if_pos (by rw [List.length_append]; omega), List.take_append_of_le_length hn,
    List.drop_append_of_le_length hn]

theorem Extends.need (n : Nat) (e : ε) : Extends (need n e : Reader β ε Unit) := by
  intro r b r' h s
  unfold Reader.need at h
  split_ifs at h with hn
  obtain ⟨-, rfl⟩ := Prod.mk.inj (Except.ok.inj h)
  exact need_of_le (by rw [List.length_append]; omega) e

theorem Extends.refuse (c : Prop) [Decidable c] (e : ε) :
    Extends (refuse c e : Reader β ε Unit) := by
  intro r b r' h s
  unfold Reader.refuse at h
  split_ifs at h with hc
  obtain ⟨-, rfl⟩ := Prod.mk.inj (Except.ok.inj h)
  exact refuse_of_not hc e _

theorem Extends.within (n cap : Nat) : Extends (within n cap : Reader β ε Unit) := by
  intro r b r' h s
  unfold Reader.within at h
  split_ifs at h with hn
  obtain ⟨-, rfl⟩ := Prod.mk.inj (Except.ok.inj h)
  exact within_of_le hn _

theorem Extends.stop (e : ε) : Extends (stop e : Reader β ε α) := by
  intro r a r' h
  cases h

/-- A reader that leaves nothing of a buffer does not read a shorter one. -/
theorem Extends.not_ok_of_cut {p : Reader β ε α} (hp : Extends p) {pre whole : List β}
    (hpre : pre <+: whole) (hne : pre ≠ whole) (hwhole : ∀ a r, p whole = .ok (a, r) → r = [])
    (a : α) (r : List β) : p pre ≠ .ok (a, r) := by
  intro h
  obtain ⟨s, rfl⟩ := hpre
  have hrest := hwhole a (r ++ s) (hp pre a r h s)
  obtain ⟨-, rfl⟩ := List.append_eq_nil_iff.mp hrest
  exact hne (List.append_nil pre).symm

/-! ## What a reader gives -/

/-- The property holds of whatever the reader reads. -/
def Gives (p : Reader β ε α) (Q : α → Prop) : Prop := ∀ r a r', p r = .ok (a, r') → Q a

theorem Gives.pure {a : α} {Q : α → Prop} (h : Q a) : Gives (pure a : Reader β ε α) Q := by
  intro r b r' hb
  obtain ⟨rfl, -⟩ := Prod.mk.inj (Except.ok.inj hb)
  exact h

theorem Gives.stop {e : ε} {Q : α → Prop} : Gives (stop e : Reader β ε α) Q := by
  intro r a r' h
  cases h

theorem Gives.bind {p : Reader β ε α} {f : α → Reader β ε γ} {Q : γ → Prop}
    (hf : ∀ a, Gives (f a) Q) : Gives (p >>= f) Q := by
  intro r c r' h
  obtain ⟨a, s, -, hc⟩ := bind_eq_ok h
  exact hf a s c r' hc

end Reader
end Lib
end Comrade
