import Mathlib

/-!
# Runs of deterministic machines

A machine is a step function `σ → ε → σ` driven by a list of events that an
environment picks freely.  The events of a run stand for whatever order,
duplication or delay the environment produces, so a statement over all event
lists is a statement over all interleavings.

* `run` is the state reached by an event list.
* `observe` collects what the steps of a run let an onlooker see.
* `EveryStep` says that a predicate of (state, event) holds at each step.
* `Since` says that an event of one kind happened and none of another kind after it.

The rules below turn one-step facts into facts about whole runs.
-/

namespace Comrade
namespace Lib

variable {σ ε ο : Type*}

/-- The state reached from `s` by the events in order. -/
def run (step : σ → ε → σ) (s : σ) (events : List ε) : σ :=
  events.foldl step s

@[simp] theorem run_nil (step : σ → ε → σ) (s : σ) : run step s [] = s := rfl

@[simp] theorem run_cons (step : σ → ε → σ) (s : σ) (e : ε) (events : List ε) :
    run step s (e :: events) = run step (step s e) events := rfl

/-- What the steps of a run let an onlooker see, oldest first. -/
def observe (step : σ → ε → σ) (obs : σ → ε → Option ο) : σ → List ε → List ο
  | _, [] => []
  | s, e :: events => (obs s e).toList ++ observe step obs (step s e) events

@[simp] theorem observe_nil (step : σ → ε → σ) (obs : σ → ε → Option ο) (s : σ) :
    observe step obs s [] = [] := rfl

@[simp] theorem observe_cons (step : σ → ε → σ) (obs : σ → ε → Option ο) (s : σ)
    (e : ε) (events : List ε) :
    observe step obs s (e :: events) =
      (obs s e).toList ++ observe step obs (step s e) events := rfl

/-- A predicate of the state before a step and of the step's event holds at
every step of the run. -/
def EveryStep (step : σ → ε → σ) (P : σ → ε → Prop) : σ → List ε → Prop
  | _, [] => True
  | s, e :: events => P s e ∧ EveryStep step P (step s e) events

@[simp] theorem everyStep_nil (step : σ → ε → σ) (P : σ → ε → Prop) (s : σ) :
    EveryStep step P s [] := trivial

@[simp] theorem everyStep_cons (step : σ → ε → σ) (P : σ → ε → Prop) (s : σ)
    (e : ε) (events : List ε) :
    EveryStep step P s (e :: events) ↔
      P s e ∧ EveryStep step P (step s e) events := Iff.rfl

instance decidableEveryStep {step : σ → ε → σ} {P : σ → ε → Prop}
    [∀ s e, Decidable (P s e)] : ∀ (s : σ) (events : List ε), Decidable (EveryStep step P s events)
  | _, [] => isTrue trivial
  | s, e :: events =>
      match decidableEveryStep (P := P) (step s e) events with
      | isTrue h => decidable_of_iff (P s e) ⟨fun he => ⟨he, h⟩, fun h => h.1⟩
      | isFalse h => isFalse fun h' => h h'.2

/-- A run in two parts. -/
theorem everyStep_append_iff {step : σ → ε → σ} {P : σ → ε → Prop} {s : σ}
    (pre post : List ε) :
    EveryStep step P s (pre ++ post) ↔
      EveryStep step P s pre ∧ EveryStep step P (run step s pre) post := by
  induction pre generalizing s with
  | nil => simp
  | cons e pre ih => rw [List.cons_append, everyStep_cons, everyStep_cons, ih, run_cons, and_assoc]

/-- What holds at every step holds at the last. -/
theorem EveryStep.last {step : σ → ε → σ} {P : σ → ε → Prop} {s : σ} {events : List ε}
    {e : ε} (h : EveryStep step P s (events ++ [e])) : P (run step s events) e :=
  ((everyStep_append_iff events [e]).mp h).2.1

/-- A state predicate preserved by every step holds at the end of every run. -/
theorem run_invariant {step : σ → ε → σ} {I : σ → Prop}
    (hstep : ∀ s e, I s → I (step s e)) {s : σ} (hs : I s) (events : List ε) :
    I (run step s events) := by
  induction events generalizing s with
  | nil => exact hs
  | cons e events ih => exact ih (hstep s e hs)

/-- The guarded form: the steps only have to preserve the predicate where the
guard holds, and the guard holds along the run. -/
theorem run_invariant_of_everyStep {step : σ → ε → σ} {I : σ → Prop}
    {G : σ → ε → Prop} (hstep : ∀ s e, I s → G s e → I (step s e)) {s : σ}
    (hs : I s) {events : List ε} (hG : EveryStep step G s events) :
    I (run step s events) := by
  induction events generalizing s with
  | nil => exact hs
  | cons e events ih => exact ih (hstep s e hs hG.1) hG.2

/-- The same where the guard is on the events alone. -/
theorem run_invariant_of_mem {step : σ → ε → σ} {I : σ → Prop} {G : ε → Prop}
    (hstep : ∀ s e, I s → G e → I (step s e)) {s : σ} (hs : I s) {events : List ε}
    (hG : ∀ e ∈ events, G e) : I (run step s events) := by
  induction events generalizing s with
  | nil => exact hs
  | cons e events ih =>
      rw [List.forall_mem_cons] at hG
      exact ih (hstep s e hs hG.1) hG.2

theorem EveryStep.and {step : σ → ε → σ} {P Q : σ → ε → Prop} {s : σ} {events : List ε}
    (hP : EveryStep step P s events) (hQ : EveryStep step Q s events) :
    EveryStep step (fun s e => P s e ∧ Q s e) s events := by
  induction events generalizing s with
  | nil => trivial
  | cons e events ih => exact ⟨⟨hP.1, hQ.1⟩, ih hP.2 hQ.2⟩

/-- Two predicates that agree at every step hold along the same runs. -/
theorem EveryStep.congr {step : σ → ε → σ} {P Q : σ → ε → Prop} {s : σ} {events : List ε}
    (h : EveryStep step (fun s e => P s e ↔ Q s e) s events) :
    EveryStep step P s events ↔ EveryStep step Q s events := by
  induction events generalizing s with
  | nil => exact Iff.rfl
  | cons e events ih => exact and_congr h.1 (ih h.2)

/-- A fact that an invariant gives at one step holds at every step. -/
theorem everyStep_of_invariant {step : σ → ε → σ} {I : σ → Prop}
    {P : σ → ε → Prop} (hstep : ∀ s e, I s → I (step s e))
    (hP : ∀ s e, I s → P s e) {s : σ} (hs : I s) (events : List ε) :
    EveryStep step P s events := by
  induction events generalizing s with
  | nil => trivial
  | cons e events ih => exact ⟨hP s e hs, ih (hstep s e hs)⟩

/-- The guarded form of `everyStep_of_invariant`. -/
theorem everyStep_of_guarded_invariant {step : σ → ε → σ} {I : σ → Prop}
    {G P : σ → ε → Prop} (hstep : ∀ s e, I s → G s e → I (step s e))
    (hP : ∀ s e, I s → G s e → P s e) {s : σ} (hs : I s) {events : List ε}
    (hG : EveryStep step G s events) : EveryStep step P s events := by
  induction events generalizing s with
  | nil => trivial
  | cons e events ih =>
      exact ⟨hP s e hs hG.1, ih (hstep s e hs hG.1) hG.2⟩

/-- The observation rule.  `I s rest seen` ties the state to the events still
to come and to what was seen so far; each new observation must stand in `R` to
everything seen before it.  Carrying the rest of the run lets `I` hold a
budget that the whole run is promised to keep. -/
theorem observe_pairwise {step : σ → ε → σ} {obs : σ → ε → Option ο}
    {R : ο → ο → Prop} {I : σ → List ε → List ο → Prop}
    (hstep : ∀ s e rest seen, I s (e :: rest) seen →
      I (step s e) rest (seen ++ (obs s e).toList))
    (hnew : ∀ s e rest seen o, I s (e :: rest) seen → obs s e = some o →
      ∀ p ∈ seen, R p o)
    {s : σ} {events : List ε} {seen : List ο} (hI : I s events seen)
    (hseen : seen.Pairwise R) :
    (seen ++ observe step obs s events).Pairwise R := by
  induction events generalizing s seen with
  | nil => simpa using hseen
  | cons e events ih =>
      -- what this step shows is compared with all that was seen before it
      have hgrown : (seen ++ (obs s e).toList).Pairwise R := by
        cases ho : obs s e with
        | none => simpa using hseen
        | some o =>
            rw [Option.toList_some, List.pairwise_append]
            refine ⟨hseen, List.pairwise_singleton _ _, ?_⟩
            intro p hp q hq
            rw [List.mem_singleton] at hq
            subst hq
            exact hnew s e events seen q hI ho p hp
      rw [observe_cons, ← List.append_assoc]
      exact ih (hstep s e events seen hI) hgrown

/-- The rule for a state and the observations that led to it, guarded step by
step: a relation between the two that each step keeps holds after every run. -/
theorem observe_invariant {step : σ → ε → σ} {obs : σ → ε → Option ο}
    {I : σ → List ο → Prop} {G : σ → ε → Prop}
    (hstep : ∀ s e seen, I s seen → G s e → I (step s e) (seen ++ (obs s e).toList))
    {s : σ} {events : List ε} {seen : List ο} (hI : I s seen)
    (hG : EveryStep step G s events) :
    I (run step s events) (seen ++ observe step obs s events) := by
  induction events generalizing s seen with
  | nil => simpa using hI
  | cons e events ih =>
      rw [run_cons, observe_cons, ← List.append_assoc]
      exact ih (hstep s e seen hI hG.1) hG.2

/-- Where the events alone say what is seen, a run shows what its events say. -/
theorem observe_event (step : σ → ε → σ) (f : ε → Option ο) (s : σ) (events : List ε) :
    observe step (fun _ e => f e) s events = events.filterMap f := by
  induction events generalizing s with
  | nil => rfl
  | cons e events ih =>
      rw [observe_cons, ih]
      cases hf : f e with
      | none => simp [hf]
      | some o => simp [hf]

@[simp] theorem run_concat (step : σ → ε → σ) (s : σ) (events : List ε) (e : ε) :
    run step s (events ++ [e]) = step (run step s events) e :=
  List.foldl_concat step s e events

theorem EveryStep.concat {step : σ → ε → σ} {P : σ → ε → Prop} {s : σ} {events : List ε} {e : ε}
    (h : EveryStep step P s events) (he : P (run step s events) e) :
    EveryStep step P s (events ++ [e]) :=
  (everyStep_append_iff events [e]).mpr ⟨h, he, trivial⟩

theorem everyStep_concat_iff {step : σ → ε → σ} {P : σ → ε → Prop} {s : σ} {events : List ε}
    {e : ε} :
    EveryStep step P s (events ++ [e]) ↔ EveryStep step P s events ∧ P (run step s events) e := by
  rw [everyStep_append_iff, everyStep_cons]
  simp

theorem EveryStep.of_prefix {step : σ → ε → σ} {P : σ → ε → Prop} {s : σ} {pre events : List ε}
    (h : EveryStep step P s events) (hpre : pre <+: events) : EveryStep step P s pre := by
  obtain ⟨post, rfl⟩ := hpre
  exact ((everyStep_append_iff pre post).mp h).1

/-- A history that is good at each of its points is one whose every step is good,
where a step from a good history decides whether the longer one is. -/
theorem forall_prefix_iff_everyStep {step : σ → ε → σ} {P : σ → ε → Prop} {s : σ}
    {Q : List ε → Prop} (hnil : Q []) {events : List ε}
    (hstep : ∀ pre e, pre ++ [e] <+: events → Q pre → (Q (pre ++ [e]) ↔ P (run step s pre) e)) :
    (∀ pre, pre <+: events → Q pre) ↔ EveryStep step P s events := by
  induction events using List.reverseRecOn with
  | nil =>
      refine iff_of_true ?_ trivial
      intro pre hpre
      rw [List.prefix_nil.mp hpre]
      exact hnil
  | append_singleton events e ih =>
      have hprev := ih fun pre x hx => hstep pre x (hx.trans (List.prefix_append _ _))
      rw [everyStep_concat_iff, ← hprev]
      constructor
      · intro h
        refine ⟨fun pre hpre => h pre (hpre.trans (List.prefix_append _ _)), ?_⟩
        have hlast := h (events ++ [e]) List.prefix_rfl
        exact (hstep events e List.prefix_rfl (h events (List.prefix_append _ _))).mp hlast
      · rintro ⟨h, hlast⟩ pre hpre
        rcases List.prefix_concat_iff.mp hpre with rfl | hpre
        · exact (hstep events e List.prefix_rfl (h events List.prefix_rfl)).mpr hlast
        · exact h pre hpre

theorem observe_concat (step : σ → ε → σ) (obs : σ → ε → Option ο) (s : σ) (events : List ε)
    (e : ε) :
    observe step obs s (events ++ [e]) =
      observe step obs s events ++ (obs (run step s events) e).toList := by
  induction events generalizing s with
  | nil => simp
  | cons x events ih =>
      rw [List.cons_append, observe_cons, observe_cons, ih, List.append_assoc]
      rfl

/-- An event of the run passed `P` where it happened, and none after it passed `B`. -/
def Since (step : σ → ε → σ) (P B : σ → ε → Prop) (s : σ) (events : List ε) : Prop :=
  ∃ pre e post, events = pre ++ e :: post ∧ P (run step s pre) e ∧
    EveryStep step (fun s e => ¬B s e) (run step s (pre ++ [e])) post

/-- The last event is the one. -/
theorem since_last {step : σ → ε → σ} {P B : σ → ε → Prop} {s : σ} {events : List ε} {e : ε}
    (h : P (run step s events) e) : Since step P B s (events ++ [e]) :=
  ⟨events, e, [], rfl, h, trivial⟩

/-- The run goes on with an event that does not undo it. -/
theorem Since.concat {step : σ → ε → σ} {P B : σ → ε → Prop} {s : σ} {events : List ε} {e : ε}
    (h : Since step P B s events) (he : ¬B (run step s events) e) :
    Since step P B s (events ++ [e]) := by
  obtain ⟨pre, x, post, rfl, hx, hpost⟩ := h
  refine ⟨pre, x, post ++ [e], by simp, hx, hpost.concat ?_⟩
  have hrun : run step (run step s (pre ++ [x])) post = run step s (pre ++ x :: post) := by
    simp [run]
  rw [hrun]
  exact he

/-- Some event of the run passed. -/
theorem Since.exists_mem {step : σ → ε → σ} {P B : σ → ε → Prop} {s : σ} {events : List ε}
    (h : Since step P B s events) : ∃ e ∈ events, ∃ s', P s' e := by
  obtain ⟨pre, e, post, rfl, he, _⟩ := h
  exact ⟨e, by simp, _, he⟩

/-- The rule for a loop that counts: an invariant of the number of rounds. -/
theorem run_range {step : σ → Nat → σ} {I : Nat → σ → Prop} {s : σ} {n : Nat} (hs : I 0 s)
    (hstep : ∀ i s, i < n → I i s → I (i + 1) (step s i)) : I n (run step s (List.range n)) := by
  induction n with
  | zero => exact hs
  | succ n ih =>
      rw [List.range_succ, run_concat]
      exact hstep n _ (by omega) (ih fun i s hi => hstep i s (by omega))

/-- What the events of a run promise whatever the state holds at every step. -/
theorem everyStep_of_mem {step : σ → ε → σ} {P : σ → ε → Prop} {events : List ε}
    (hP : ∀ e ∈ events, ∀ s, P s e) (s : σ) : EveryStep step P s events := by
  induction events generalizing s with
  | nil => trivial
  | cons e events ih =>
      rw [List.forall_mem_cons] at hP
      exact ⟨hP.1 s, ih hP.2 (step s e)⟩

/-- What holds of a state and every event to come, and is handed on from one event to those
after it, holds at every step: the rule for events that come in an order. -/
theorem everyStep_of_pairwise {step : σ → ε → σ} {P : σ → ε → Prop} {R : ε → ε → Prop}
    (hstep : ∀ s e e', P s e → P s e' → R e e' → P (step s e) e') {s : σ} {events : List ε}
    (hevents : events.Pairwise R) (hs : ∀ e ∈ events, P s e) : EveryStep step P s events := by
  induction events generalizing s with
  | nil => trivial
  | cons e events ih =>
      rw [List.pairwise_cons] at hevents
      rw [List.forall_mem_cons] at hs
      refine ⟨hs.1, ih hevents.2 ?_⟩
      intro e' he'
      exact hstep s e e' hs.1 (hs.2 e' he') (hevents.1 e' he')

/-- Who is shown no more at any step is shown no more in all. -/
theorem observe_sublist {step : σ → ε → σ} {obs obs' : σ → ε → Option ο}
    (h : ∀ s e, obs s e = none ∨ obs s e = obs' s e) (s : σ) (events : List ε) :
    (observe step obs s events).Sublist (observe step obs' s events) := by
  induction events generalizing s with
  | nil => exact .slnil
  | cons e events ih =>
      rw [observe_cons, observe_cons]
      refine List.Sublist.append ?_ (ih (step s e))
      rcases h s e with hnone | hsame
      · rw [hnone]
        exact List.nil_sublist _
      · rw [hsame]

end Lib
end Comrade
