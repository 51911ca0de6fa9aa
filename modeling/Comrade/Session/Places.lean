import Comrade.Session.Offer

/-!
# What stands where

A connection stands in one place at a time: it is the agent kept ready, a punch in flight or
the connection of a worker.  This module says once what the calls of the turnstile can do to
the places, to the punches that resume a worker, and to the budget of admissions.

* `SamePlaces`: nothing of it changes.
* `Dropped`: a punch is gone, and the worker that it resumed counts one less.
* `Taken`: the agent kept ready is spent on a punch.
* `Entered`: a connection that was not in use is put to use.
* `Reaped`: a worker is gone, and the punches that resumed it resume nothing.

Each call has a lemma that gives its relation, with what it does to the budget.
-/

namespace Comrade
namespace Session

open Lib Rdv

/-! ## Places -/

/-- What holds a connection. -/
inductive Role where
  | listen
  | punch (i : Fin hostMaxWorkers)
  | worker (j : Fin hostMaxWorkers)
  deriving DecidableEq

/-- The connection that stands there. -/
def placeOf (s : HostSess) : Role → Option ConnId
  | .listen => s.listen
  | .punch i => s.punching i
  | .worker j => if (s.ws j).used = true then some (s.ws j).c else none

/-- No connection stands in two places. -/
def PlacesOnce (s : HostSess) : Prop :=
  ∀ r r' c, placeOf s r = some c → placeOf s r' = some c → r = r'

/-- The connection is in use. -/
def Live (s : HostSess) (c : ConnId) : Prop := ∃ r, placeOf s r = some c

/-- A worker runs on the connection. -/
def Running (s : HostSess) (c : ConnId) : Prop := ∃ j, placeOf s (.worker j) = some c

/-- The worker that the punch in a slot resumes. -/
def resumeOf (s : HostSess) (i : Fin hostMaxWorkers) : Option ConnId :=
  (s.punching i).bind fun c => (s.conn c).punchResume

theorem placeOf_worker {s : HostSess} {j : Fin hostMaxWorkers} {c : ConnId} :
    placeOf s (.worker j) = some c ↔ (s.ws j).used = true ∧ (s.ws j).c = c := by
  simp [placeOf]

theorem resumeOf_some {s : HostSess} {i : Fin hostMaxWorkers} {c : ConnId}
    (h : s.punching i = some c) : resumeOf s i = (s.conn c).punchResume := by
  simp [resumeOf, h]

theorem Running.live {s : HostSess} {c : ConnId} (h : Running s c) : Live s c := by
  obtain ⟨j, hj⟩ := h
  exact ⟨.worker j, hj⟩

theorem connLive_eq_false {s : HostSess} {c : ConnId} (h : connLive s c = false) : ¬Live s c := by
  unfold connLive isPunching at h
  simp only [Bool.or_eq_false_iff, beq_eq_false_iff_ne, Option.isSome_eq_false_iff,
    Option.isNone_iff_eq_none, firstSlot_eq_none_iff] at h
  obtain ⟨⟨hlisten, hpunch⟩, hworker⟩ := h
  rintro ⟨r, hr⟩
  cases r with
  | listen => exact hlisten hr
  | punch i => exact hpunch i hr
  | worker j =>
      rw [placeOf_worker] at hr
      simpa [hr.1, hr.2] using hworker j

/-- A connection is put in a place, and the others stay where they were or go. -/
theorem PlacesOnce.put {s s' : HostSess} (h : PlacesOnce s) (r₀ : Role) (c₀ : ConnId)
    (hput : ∀ r c, placeOf s' r = some c →
      (r = r₀ ∧ c = c₀) ∨ (c ≠ c₀ ∧ placeOf s r = some c)) : PlacesOnce s' := by
  intro r r' c hr hr'
  rcases hput r c hr with ⟨rfl, rfl⟩ | ⟨hne, hold⟩
  · rcases hput r' c hr' with ⟨rfl, -⟩ | ⟨hne', -⟩
    · rfl
    · exact absurd rfl hne'
  · rcases hput r' c hr' with ⟨-, rfl⟩ | ⟨-, hold'⟩
    · exact absurd rfl hne
    · exact h r r' c hold hold'

theorem PlacesOnce.of_sub {s s' : HostSess} (h : PlacesOnce s)
    (hsub : ∀ r c, placeOf s' r = some c → placeOf s r = some c) : PlacesOnce s' :=
  fun r r' c hr hr' => h r r' c (hsub r c hr) (hsub r' c hr')

/-! ## Nothing of it changes -/

/-- The two sessions agree on the places, on what the punches resume and on the budget. -/
structure SamePlaces (s s' : HostSess) : Prop where
  place : placeOf s' = placeOf s
  resume : ∀ c, (s'.conn c).punchResume = (s.conn c).punchResume
  pending : ∀ c, (s'.conn c).resumePending = (s.conn c).resumePending
  ufrag : ∀ c, (s'.conn c).claimUfrag = (s.conn c).claimUfrag
  admitted : s'.admittedN = s.admittedN
  grant : s'.admitMax = s.admitMax

/-- What the calls that touch none of it leave as it is. -/
def standing (s : HostSess) :=
  (s.listen, s.punching, s.ws, s.conn, s.admittedN, s.admitMax)

theorem SamePlaces.of_eq {s s' : HostSess} (h : standing s' = standing s) : SamePlaces s s' := by
  simp only [standing, Prod.mk.injEq] at h
  obtain ⟨hlisten, hpunching, hws, hconn, hadmitted, hgrant⟩ := h
  refine ⟨?_, ?_, ?_, ?_, hadmitted, hgrant⟩
  · funext r
    cases r <;> simp [placeOf, hlisten, hpunching, hws]
  all_goals
    intro c
    rw [hconn]

theorem SamePlaces.trans {s s' s'' : HostSess} (h : SamePlaces s s') (h' : SamePlaces s' s'') :
    SamePlaces s s'' where
  place := h'.place.trans h.place
  resume c := (h'.resume c).trans (h.resume c)
  pending c := (h'.pending c).trans (h.pending c)
  ufrag c := (h'.ufrag c).trans (h.ufrag c)
  admitted := h'.admitted.trans h.admitted
  grant := h'.grant.trans h.grant

/-- An edit of a connection that leaves alone what resumes what. -/
theorem SamePlaces.edit (s : HostSess) (t : ConnId) {g : Conn → Conn}
    (hg : ∀ w, (g w).punchResume = w.punchResume ∧ (g w).resumePending = w.resumePending ∧
      (g w).claimUfrag = w.claimUfrag) : SamePlaces s (s.edit t g) := by
  have hconn : ∀ c, ((s.edit t g).conn c).punchResume = (s.conn c).punchResume ∧
      ((s.edit t g).conn c).resumePending = (s.conn c).resumePending ∧
      ((s.edit t g).conn c).claimUfrag = (s.conn c).claimUfrag := by
    intro c
    show (Function.update s.conn t (g (s.conn t)) c).punchResume = _ ∧
      (Function.update s.conn t (g (s.conn t)) c).resumePending = _ ∧
      (Function.update s.conn t (g (s.conn t)) c).claimUfrag = _
    by_cases hct : c = t
    · subst hct
      rw [Function.update_self]
      exact hg _
    · rw [Function.update_of_ne hct]
      exact ⟨rfl, rfl, rfl⟩
  exact ⟨rfl, fun c => (hconn c).1, fun c => (hconn c).2.1, fun c => (hconn c).2.2, rfl, rfl⟩

theorem SamePlaces.punching {s s' : HostSess} (h : SamePlaces s s') (i : Fin hostMaxWorkers) :
    s'.punching i = s.punching i := congrFun h.place (.punch i)

theorem SamePlaces.resumeOf_eq {s s' : HostSess} (h : SamePlaces s s') :
    resumeOf s' = resumeOf s := by
  funext i
  unfold resumeOf
  rw [h.punching i]
  cases s.punching i with
  | none => rfl
  | some c => exact h.resume c

/-! ## A punch ends -/

/-- The punch in the slot is gone, and the worker that it resumed counts one less. -/
structure Dropped (s : HostSess) (i : Fin hostMaxWorkers) (s' : HostSess) : Prop where
  gone : s'.punching i = none
  place : ∀ r, r ≠ .punch i → placeOf s' r = placeOf s r
  resume : ∀ c, (s'.conn c).punchResume = (s.conn c).punchResume
  pending : ∀ c, (s'.conn c).resumePending =
    (s.conn c).resumePending - if resumeOf s i = some c then 1 else 0
  ufrag : ∀ c, (s'.conn c).claimUfrag = (s.conn c).claimUfrag
  grant : s'.admitMax = s.admitMax

theorem Dropped.sub {s s' : HostSess} {i : Fin hostMaxWorkers} (h : Dropped s i s') (r : Role)
    (c : ConnId) (hc : placeOf s' r = some c) : r ≠ .punch i ∧ placeOf s r = some c := by
  have hr : r ≠ .punch i := by
    rintro rfl
    rw [show placeOf s' (.punch i) = s'.punching i from rfl, h.gone] at hc
    cases hc
  rw [h.place r hr] at hc
  exact ⟨hr, hc⟩

theorem Dropped.other {s s' : HostSess} {i j : Fin hostMaxWorkers} (h : Dropped s i s')
    (hj : j ≠ i) : s'.punching j = s.punching j :=
  h.place (.punch j) (by simpa using hj)

theorem Dropped.resumeOf_eq {s s' : HostSess} {i : Fin hostMaxWorkers} (h : Dropped s i s') :
    resumeOf s' = Function.update (resumeOf s) i none := by
  funext j
  by_cases hj : j = i
  · rw [hj, Function.update_self]
    unfold resumeOf
    rw [h.gone]
    rfl
  · rw [Function.update_of_ne hj]
    unfold resumeOf
    rw [h.other hj]
    cases s.punching j with
    | none => rfl
    | some c => exact h.resume c

theorem Dropped.of_same {s g g' : HostSess} {i : Fin hostMaxWorkers} (h : Dropped s i g)
    (hs : SamePlaces g g') : Dropped s i g' where
  gone := (hs.punching i).trans h.gone
  place r hr := by
    rw [hs.place]
    exact h.place r hr
  resume c := (hs.resume c).trans (h.resume c)
  pending c := (hs.pending c).trans (h.pending c)
  ufrag c := (hs.ufrag c).trans (h.ufrag c)
  grant := hs.grant.trans h.grant

/-- An empty slot. -/
theorem dropped_self {s : HostSess} {i : Fin hostMaxWorkers} (hi : s.punching i = none) :
    Dropped s i s := by
  have hof : resumeOf s i = none := by simp [resumeOf, hi]
  refine ⟨hi, fun _ _ => rfl, fun _ => rfl, ?_, fun _ => rfl, rfl⟩
  intro c
  rw [hof, if_neg (by simp), sub_zero]

/-- The admissions after one is given back. -/
def admittedAfter (n : Int) : Int := if 0 < n then n - 1 else n

/-- Only the number of admissions changes. -/
theorem admittedLess_eq (s : HostSess) :
    s.admittedLess = { s with admittedN := admittedAfter s.admittedN } := by
  unfold HostSess.admittedLess admittedAfter
  split_ifs <;> rfl

theorem placeOf_punchClear (s : HostSess) {i : Fin hostMaxWorkers} {r : Role}
    (hr : r ≠ .punch i) : placeOf (s.punchClear i) r = placeOf s r := by
  cases r with
  | listen => rfl
  | worker j => rfl
  | punch j =>
      have hj : j ≠ i := fun heq => hr (heq ▸ rfl)
      exact Function.update_of_ne hj _ _

/-- A slot emptied of a punch that resumes nothing. -/
theorem punchClear_dropped {s : HostSess} {i : Fin hostMaxWorkers} (hi : resumeOf s i = none) :
    Dropped s i (s.punchClear i) := by
  refine ⟨Function.update_self _ _ _, ?_, fun _ => rfl, ?_, fun _ => rfl, rfl⟩
  · intro r hr
    exact placeOf_punchClear s hr
  · intro d
    rw [hi, if_neg (by simp), sub_zero]
    rfl

/-- What a punch that ends gives back: its resumption, or its admission. -/
structure GivenBack (s : HostSess) (i : Fin hostMaxWorkers) (s' : HostSess) : Prop where
  dropped : Dropped s i s'
  admitted : s'.admittedN =
    if (s.punching i).isSome = true ∧ resumeOf s i = none then admittedAfter s.admittedN
    else s.admittedN

/-- A punch leaves its slot once what it held is given back. -/
theorem giveBack_spec {s g : HostSess} {i : Fin hostMaxWorkers} {c : ConnId}
    (hs : SamePlaces s g) (hi : s.punching i = some c) {resume : Option ConnId}
    (hresume : resume = (s.conn c).punchResume) :
    GivenBack s i ((match resume with
      | some t => g.edit t fun w => { w with resumePending := w.resumePending - 1 }
      | none => g.admittedLess).punchClear i) := by
  have hof : resumeOf s i = resume := (resumeOf_some hi).trans hresume.symm
  cases resume with
  | none =>
      dsimp only
      rw [admittedLess_eq]
      refine ⟨?_, ?_⟩
      · have hsame : resumeOf g i = none := by rw [hs.resumeOf_eq, hof]
        have hclear := punchClear_dropped hsame
        refine ⟨hclear.gone, ?_, hs.resume, ?_, hs.ufrag, hs.grant⟩
        · intro r hr
          rw [← hs.place]
          exact placeOf_punchClear g hr
        · intro d
          rw [hof, if_neg (by simp), sub_zero]
          exact hs.pending d
      · rw [if_pos ⟨by rw [hi]; rfl, hof⟩, ← hs.admitted]
        rfl
  | some t =>
      have hconn : ∀ d, ((g.edit t fun w =>
          { w with resumePending := w.resumePending - 1 }).punchClear i).conn d =
            if d = t then { g.conn t with resumePending := (g.conn t).resumePending - 1 }
            else g.conn d := fun d => Function.update_apply _ _ _ _
      refine ⟨⟨Function.update_self _ _ _, ?_, ?_, ?_, ?_, hs.grant⟩, ?_⟩
      · intro r hr
        rw [placeOf_punchClear _ hr, ← hs.place]
        rfl
      · intro d
        rw [hconn, ← hs.resume]
        split_ifs with hd
        · rw [hd]
        · rfl
      · intro d
        rw [hconn, hof, ← hs.pending]
        by_cases hd : d = t
        · subst hd
          rw [if_pos rfl, if_pos rfl]
        · rw [if_neg hd, if_neg (by simpa using Ne.symm hd), sub_zero]
      · intro d
        rw [hconn, ← hs.ufrag]
        split_ifs with hd
        · rw [hd]
        · rfl
      · rw [hof, if_neg (by simp)]
        exact hs.admitted

theorem punchRelease_spec (s : HostSess) (i : Fin hostMaxWorkers) :
    GivenBack s i (punchRelease s i) := by
  unfold punchRelease
  cases hi : s.punching i with
  | none => exact ⟨dropped_self hi, by simp [hi]⟩
  | some c =>
      have hback := giveBack_spec (SamePlaces.of_eq (s := s) rfl) hi rfl
      dsimp only
      refine ⟨hback.dropped.of_same ?_, ?_⟩
      · split_ifs
        · exact .of_eq rfl
        · exact .of_eq rfl
      · rw [← hback.admitted]
        split_ifs <;> rfl

theorem punchDrop_spec {s g : HostSess} {i : Fin hostMaxWorkers} {c : ConnId}
    (hs : SamePlaces s g) (hi : s.punching i = some c) :
    GivenBack s i (punchDrop g (s.conn c) i) := by
  unfold punchDrop
  exact giveBack_spec hs hi rfl

/-! ## A connection is put to use -/

/-- A connection that was not in use is kept ready, or a worker runs on it. -/
structure Entered (s : HostSess) (r₀ : Role) (c₀ : ConnId) (s' : HostSess) : Prop where
  role : ∀ i, r₀ ≠ .punch i
  empty : placeOf s r₀ = none
  fresh : ¬Live s c₀
  entered : placeOf s' r₀ = some c₀
  place : ∀ r, r ≠ r₀ → placeOf s' r = placeOf s r
  conn : s'.conn = s.conn
  admitted : s'.admittedN = s.admittedN
  grant : s'.admitMax = s.admitMax

theorem Entered.sub {s s' : HostSess} {r₀ : Role} {c₀ : ConnId} (h : Entered s r₀ c₀ s') (r : Role)
    (c : ConnId) (hc : placeOf s' r = some c) :
    (r = r₀ ∧ c = c₀) ∨ (c ≠ c₀ ∧ placeOf s r = some c) := by
  by_cases hr : r = r₀
  · subst hr
    rw [h.entered, Option.some.injEq] at hc
    exact .inl ⟨rfl, hc.symm⟩
  · rw [h.place r hr] at hc
    refine .inr ⟨?_, hc⟩
    rintro rfl
    exact h.fresh ⟨r, hc⟩

theorem Entered.punching {s s' : HostSess} {r₀ : Role} {c₀ : ConnId} (h : Entered s r₀ c₀ s')
    (i : Fin hostMaxWorkers) : s'.punching i = s.punching i :=
  h.place (.punch i) fun heq => h.role i heq.symm

theorem Entered.resumeOf_eq {s s' : HostSess} {r₀ : Role} {c₀ : ConnId}
    (h : Entered s r₀ c₀ s') : resumeOf s' = resumeOf s := by
  funext i
  unfold resumeOf
  rw [h.punching, h.conn]

/-- `worker_spawn` finds an entry and can start a thread. -/
def Spawns (s : HostSess) (starts : Bool) : Prop :=
  starts = true ∧ ∃ j, (s.ws j).used = false

instance (s : HostSess) (starts : Bool) : Decidable (Spawns s starts) :=
  inferInstanceAs (Decidable (_ ∧ _))

theorem placeOf_setWorker (s : HostSess) {j : Fin hostMaxWorkers} (w : Worker) {r : Role}
    (hr : r ≠ .worker j) :
    placeOf { s with ws := Function.update s.ws j w } r = placeOf s r := by
  cases r with
  | listen => rfl
  | punch i => rfl
  | worker k =>
      have hk : k ≠ j := fun heq => hr (heq ▸ rfl)
      simp [placeOf, Function.update_of_ne hk]

theorem placeOf_setWorker_self (s : HostSess) (j : Fin hostMaxWorkers) (w : Worker) :
    placeOf { s with ws := Function.update s.ws j w } (.worker j) =
      if w.used = true then some w.c else none := by
  simp [placeOf]

/-- An entry of the table written over with the same worker. -/
theorem SamePlaces.ofWorker (s : HostSess) (j : Fin hostMaxWorkers) {w : Worker}
    (hw : (if w.used = true then some w.c else none) = placeOf s (.worker j)) :
    SamePlaces s { s with ws := Function.update s.ws j w } := by
  refine ⟨?_, fun _ => rfl, fun _ => rfl, fun _ => rfl, rfl, rfl⟩
  funext r
  by_cases hr : r = .worker j
  · subst hr
    rw [placeOf_setWorker_self, hw]
  · exact placeOf_setWorker s w hr

/-- A worker that starts takes an entry that was free. -/
theorem workerSpawn_entered {s : HostSess} {c : ConnId} {starts : Bool} (h : Spawns s starts)
    (hfresh : ¬Live s c) :
    (workerSpawn s c starts).2 = true ∧
      ∃ j, Entered s (.worker j) c (workerSpawn s c starts).1 := by
  obtain ⟨hstarts, k, hk⟩ := h
  unfold workerSpawn
  cases hfree : firstSlot s.ws fun w => !w.used with
  | none => simpa [hk] using firstSlot_eq_none_iff.mp hfree k
  | some j =>
      have hunused : (s.ws j).used = false := by simpa using firstSlot_spec hfree
      simp only [hstarts, Bool.true_eq_false, if_false, true_and]
      refine ⟨j, by simp, ?_, hfresh, ?_, ?_, rfl, rfl, rfl⟩
      · simp [placeOf, hunused]
      · rw [placeOf_setWorker_self]
        rfl
      · intro r hr
        exact placeOf_setWorker s _ hr

/-- A worker that does not start leaves the table as it was. -/
theorem workerSpawn_same {s : HostSess} {c : ConnId} {starts : Bool} (h : ¬Spawns s starts) :
    (workerSpawn s c starts).2 = false ∧ SamePlaces s (workerSpawn s c starts).1 := by
  unfold workerSpawn
  cases hfree : firstSlot s.ws fun w => !w.used with
  | none => exact ⟨rfl, .of_eq rfl⟩
  | some j =>
      have hunused : (s.ws j).used = false := by simpa using firstSlot_spec hfree
      have hstarts : starts = false := by
        by_contra hs
        exact h ⟨Bool.eq_true_of_not_eq_false hs, j, hunused⟩
      simp only [hstarts, if_true, true_and]
      refine .ofWorker s j ?_
      simp [placeOf, hunused]

/-- What one turn of `punch_scan` does: the punch goes on, it ends and gives back what it
held, or it resumes nothing and a worker is spawned on it, which may fail. -/
theorem scanSlot_cases (s : HostSess) (i : Fin hostMaxWorkers) (e : ScanIn) :
    SamePlaces s (scanSlot s i e) ∨
      ∃ c, s.punching i = some c ∧ (s.conn c).punchStuck = false ∧
        ((GivenBack s i (scanSlot s i e) ∧
            if e.connected = true then
              (s.conn c).punchResume = none →
                (workerByUfrag s (s.conn c).punchUfrag).isSome = true
            else e.failed = true) ∨
          (e.connected = true ∧ (s.conn c).punchResume = none ∧
            workerByUfrag s (s.conn c).punchUfrag = none ∧
            ∃ g, Dropped s i g ∧ g.conn = s.conn ∧ g.admittedN = s.admittedN ∧
              if Spawns s e.starts then
                ¬Live g c → ∃ j, Entered g (.worker j) c (scanSlot s i e)
              else SamePlaces g (scanSlot s i e))) := by
  unfold scanSlot
  cases hi : s.punching i with
  | none => exact .inl (.of_eq rfl)
  | some c =>
      dsimp only
      by_cases hconnected : (s.conn c).punchStuck = false ∧ e.connected = true
      · rw [if_pos hconnected]
        refine .inr ⟨c, rfl, hconnected.1, ?_⟩
        have hby : workerByUfrag
            { s with lastServedUfrag := (s.conn c).punchUfrag, haveServed := true }
            (s.conn c).punchUfrag = workerByUfrag s (s.conn c).punchUfrag := rfl
        rw [hby]
        cases htarget : (s.conn c).punchResume.or (workerByUfrag s (s.conn c).punchUfrag) with
        | some t =>
            refine .inl ⟨punchDrop_spec (SamePlaces.trans ?_ (.edit _ t ?_)) hi, ?_⟩
            · exact .of_eq rfl
            · exact fun _ => ⟨rfl, rfl, rfl⟩
            · rw [if_pos hconnected.2]
              intro hnone
              rw [hnone, Option.none_or] at htarget
              rw [htarget]
              rfl
        | none =>
            obtain ⟨hresume, hworker⟩ := Option.or_eq_none_iff.mp htarget
            have hof : resumeOf s i = none := (resumeOf_some hi).trans hresume
            let noted : HostSess :=
              { s with lastServedUfrag := (s.conn c).punchUfrag, haveServed := true }
            let cleared : HostSess :=
              { noted.punchClear i with
                served := claimServedNote s.served (s.conn c).punchUfrag (s.conn c).remotePwd }
            refine .inr ⟨hconnected.2, hresume, hworker, cleared, ?_, rfl, rfl, ?_⟩
            · exact (punchClear_dropped hof).of_same (.of_eq rfl)
            · by_cases hspawns : Spawns s e.starts
              · rw [if_pos hspawns]
                intro hfresh
                exact (workerSpawn_entered (s := cleared) hspawns hfresh).2
              · rw [if_neg hspawns]
                exact (workerSpawn_same (s := cleared) hspawns).2
      · rw [if_neg hconnected]
        by_cases hfailed : (s.conn c).punchStuck = false ∧ e.failed = true
        · rw [if_pos hfailed]
          refine .inr ⟨c, rfl, hfailed.1, .inl ⟨punchDrop_spec (.of_eq rfl) hi, ?_⟩⟩
          rw [if_neg fun h => hconnected ⟨hfailed.1, h⟩]
          exact hfailed.2
        · rw [if_neg hfailed]
          exact .inl (.of_eq rfl)

/-- A place that was not in use is written over, before it is put to use. -/
structure Allocated (s : HostSess) (c : ConnId) (ufrag : Bytes) (s' : HostSess) : Prop where
  place : placeOf s' = placeOf s
  other : ∀ d, d ≠ c → s'.conn d = s.conn d
  zero : (s'.conn c).resumePending = 0
  ufrag : (s'.conn c).claimUfrag = ufrag
  grant : s'.admitMax = s.admitMax

theorem Allocated.of_same {s g g' : HostSess} {c : ConnId} {ufrag : Bytes}
    (h : Allocated s c ufrag g) (hplace : placeOf g' = placeOf g) (hconn : g'.conn = g.conn)
    (hgrant : g'.admitMax = g.admitMax) : Allocated s c ufrag g' where
  place := hplace.trans h.place
  other d hd := (congrFun hconn d).trans (h.other d hd)
  zero := (congrArg Conn.resumePending (congrFun hconn c)).trans h.zero
  ufrag := (congrArg Conn.claimUfrag (congrFun hconn c)).trans h.ufrag
  grant := hgrant.trans h.grant

theorem allocated_update (s : HostSess) (c : ConnId) {x : Conn} (hx : x.resumePending = 0) :
    Allocated s c x.claimUfrag { s with conn := Function.update s.conn c x } := by
  refine ⟨?_, ?_, ?_, ?_, rfl⟩
  · funext r
    cases r <;> rfl
  · intro d hd
    exact Function.update_of_ne hd _ _
  · exact (congrArg Conn.resumePending (Function.update_self c x s.conn)).trans hx
  · exact congrArg Conn.claimUfrag (Function.update_self c x s.conn)

/-- An agent is made ready in the place allocated for it, where none is ready and the place
is not in use. -/
theorem gather_cases (C : Candpack) (s : HostSess) (c : ConnId) :
    sessStep C s (.gather c) = s ∨
      ∃ g, ¬Live s c ∧ Allocated s c [] g ∧ g.admittedN = s.admittedN ∧
        Entered g .listen c (sessStep C s (.gather c)) := by
  unfold sessStep
  dsimp only
  split_ifs with hbusy
  · exact .inl rfl
  · rw [not_or, Bool.not_eq_true, Bool.not_eq_true] at hbusy
    have hlive := connLive_eq_false hbusy.2
    have hempty : s.listen = none := by simpa using hbusy.1
    have halloc := allocated_update s c (x := connNew) rfl
    refine .inr ⟨_, hlive, halloc, rfl, by simp, hempty, ?_, rfl, ?_, rfl, rfl, rfl⟩
    · unfold Live
      rw [halloc.place]
      exact hlive
    · intro r hr
      cases r with
      | listen => exact absurd rfl hr
      | punch i => rfl
      | worker j => rfl

/-- `lan_drain` admits the claimant of the entry, in that place. -/
def LanAdmits (s : HostSess) (e : LanIn) (c : ConnId) : Prop :=
  e.skip = false ∧ ¬(s.admitMax ≠ 0 ∧ s.admitMax ≤ s.admittedN) ∧
    (∃ slot, s.lanConns slot = none) ∧ e.alloc = some c ∧ connLive s c = false ∧ e.path = true

/-- A turn of `lan_drain` leaves the session as it is, or writes the place, counts the
admission and spawns a worker, which may fail. -/
theorem lanAdmit_cases (s : HostSess) (claim : LanClaim) (e : LanIn) :
    (lanAdmit s claim e).1 = s ∨
      ∃ c g, LanAdmits s e c ∧ Allocated s c claim.ufrag g ∧ g.admittedN = s.admittedN + 1 ∧
        if Spawns s e.starts then ∃ j, Entered g (.worker j) c (lanAdmit s claim e).1
        else SamePlaces g (lanAdmit s claim e).1 := by
  unfold lanAdmit
  split
  · exact .inl rfl
  rename_i hskip
  split
  · exact .inl rfl
  rename_i hgrant
  split
  · exact .inl rfl
  rename_i slot hslot
  split
  · exact .inl rfl
  rename_i c halloc
  split
  · exact .inl rfl
  rename_i hfree
  rw [not_or, Bool.not_eq_true, Bool.not_eq_false] at hfree
  right
  let placed : HostSess :=
    { s with conn := Function.update s.conn c { connNew with claimUfrag := claim.ufrag } }
  let noted : HostSess :=
    if claim.ufrag ≠ [] then { placed with lastServedUfrag := claim.ufrag, haveServed := true }
    else placed
  let counted : HostSess :=
    { noted with
      admittedN := noted.admittedN + 1
      lanConns := Function.update noted.lanConns slot (some c) }
  have hplaced : Allocated s c claim.ufrag placed :=
    allocated_update s c (x := { connNew with claimUfrag := claim.ufrag }) rfl
  have hnoted : standing noted = standing placed := by
    show standing (if _ then _ else placed) = standing placed
    split_ifs <;> rfl
  simp only [standing, Prod.mk.injEq] at hnoted
  obtain ⟨hlisten, hpunching, hws, hconn, hadmitted, hmax⟩ := hnoted
  have hcounted : Allocated s c claim.ufrag counted := by
    refine hplaced.of_same ?_ hconn hmax
    funext r
    cases r with
    | listen => exact hlisten
    | punch i => exact congrFun hpunching i
    | worker j =>
        show (if (noted.ws j).used = true then some (noted.ws j).c else none) = _
        rw [hws]
        rfl
  have hlive : ¬Live counted c := by
    unfold Live
    rw [hcounted.place]
    exact connLive_eq_false hfree.1
  have hslot' : s.lanConns slot = none := by simpa using firstSlot_spec hslot
  refine ⟨c, counted, ⟨?_, hgrant, ⟨slot, hslot'⟩, halloc, hfree⟩, hcounted, ?_, ?_⟩
  · simpa using hskip
  · show noted.admittedN + 1 = s.admittedN + 1
    rw [hadmitted]
  have hspawn : lanSpawn s claim.ufrag slot c e.starts =
      if (workerSpawn counted c e.starts).2 = true then (workerSpawn counted c e.starts).1
      else
        { (workerSpawn counted c e.starts).1 with
          lanConns :=
            Function.update (workerSpawn counted c e.starts).1.lanConns slot none } := by
    unfold lanSpawn
    dsimp only
    split
    · rename_i hw
      rw [hw, if_pos rfl]
    · rename_i hw
      rw [hw, if_neg (by simp)]
  have hcond : Spawns counted e.starts ↔ Spawns s e.starts := by
    unfold Spawns
    rw [show counted.ws = s.ws from hws]
  rw [hspawn]
  by_cases hspawns : Spawns s e.starts
  · obtain ⟨hran, j, hj⟩ := workerSpawn_entered (hcond.mpr hspawns) hlive
    rw [if_pos hspawns, if_pos hran]
    exact ⟨j, hj⟩
  · have hsame := workerSpawn_same (c := c) fun h => hspawns (hcond.mp h)
    rw [if_neg hspawns, if_neg (by rw [hsame.1]; simp)]
    exact hsame.2.trans (.of_eq rfl)

/-! ## A worker is reaped -/

/-- The worker is gone, and the punches that resumed it resume nothing. -/
structure Reaped (s : HostSess) (j : Fin hostMaxWorkers) (s' : HostSess) : Prop where
  used : (s.ws j).used = true
  gone : placeOf s' (.worker j) = none
  place : ∀ r, r ≠ .worker j → placeOf s' r = placeOf s r
  resume : ∀ i c, s.punching i = some c → (s'.conn c).punchResume =
    if (s.conn c).punchResume = some (s.ws j).c then none else (s.conn c).punchResume
  pending : ∀ c, (s'.conn c).resumePending = (s.conn c).resumePending
  ufrag : ∀ c, (s'.conn c).claimUfrag = (s.conn c).claimUfrag
  admitted : s'.admittedN =
    if (s.conn (s.ws j).c).proven = true then s.admittedN else admittedAfter s.admittedN
  grant : s'.admitMax = s.admitMax

theorem Reaped.standing {s s' : HostSess} {j : Fin hostMaxWorkers} (h : Reaped s j s') :
    placeOf s (.worker j) = some (s.ws j).c := placeOf_worker.mpr ⟨h.used, rfl⟩

theorem Reaped.punching {s s' : HostSess} {j : Fin hostMaxWorkers} (h : Reaped s j s')
    (i : Fin hostMaxWorkers) : s'.punching i = s.punching i := h.place (.punch i) (by simp)

theorem Reaped.sub {s s' : HostSess} {j : Fin hostMaxWorkers} (h : Reaped s j s') (r : Role)
    (c : ConnId) (hc : placeOf s' r = some c) : r ≠ .worker j ∧ placeOf s r = some c := by
  have hr : r ≠ .worker j := by
    rintro rfl
    rw [h.gone] at hc
    cases hc
  rw [h.place r hr] at hc
  exact ⟨hr, hc⟩

theorem Reaped.resumeOf_eq {s s' : HostSess} {j : Fin hostMaxWorkers} (h : Reaped s j s')
    (i : Fin hostMaxWorkers) :
    resumeOf s' i = if resumeOf s i = some (s.ws j).c then none else resumeOf s i := by
  unfold resumeOf
  rw [h.punching]
  cases hi : s.punching i with
  | none => simp
  | some c => exact h.resume i c hi

theorem isPunching_of {s : HostSess} {i : Fin hostMaxWorkers} {c : ConnId}
    (h : s.punching i = some c) : isPunching s c = true := by
  unfold isPunching
  rw [Option.isSome_iff_ne_none]
  intro hnone
  simpa [h] using firstSlot_eq_none_iff.mp hnone i

theorem SamePlaces.punchUnnamed (s : HostSess) (ufrag : Bytes) :
    SamePlaces s (punchUnnamed s ufrag) := by
  unfold Session.punchUnnamed
  split_ifs
  · exact .of_eq rfl
  · split
    · exact .of_eq rfl
    · exact .edit s _ fun _ => ⟨rfl, rfl, rfl⟩

theorem workerReap_reaped {s : HostSess} {j : Fin hostMaxWorkers} (hused : (s.ws j).used = true) :
    Reaped s j (workerReap s j) := by
  let c := (s.ws j).c
  let cleared : HostSess :=
    { s with lanConns := fun k => if s.lanConns k = some c then none else s.lanConns k }
  let lost := resumesLost cleared c
  let unnamed := Session.punchUnnamed lost (s.conn c).claimUfrag
  let forgot : HostSess := { unnamed with rh := rdvHostForget unnamed.rh (s.conn c).claimCid }
  let unserved : HostSess :=
    if (s.conn c).claimUfrag ≠ [] ∧ forgot.haveServed = true ∧
        forgot.lastServedUfrag = (s.conn c).claimUfrag then
      { forgot with lastServedUfrag := [], haveServed := false }
    else forgot
  let counted := if (s.conn c).proven = true then unserved else unserved.admittedLess
  have hsame : SamePlaces lost unserved := by
    have hunserved : SamePlaces forgot unserved := by
      show SamePlaces forgot (if _ then _ else forgot)
      split_ifs
      · exact .of_eq rfl
      · exact .of_eq rfl
    have hforgot : SamePlaces lost forgot :=
      (SamePlaces.punchUnnamed lost _).trans (.of_eq rfl)
    exact hforgot.trans hunserved
  have hcounted : counted =
      { unserved with
        admittedN := if (s.conn c).proven = true then s.admittedN
          else admittedAfter s.admittedN } := by
    have hn : unserved.admittedN = s.admittedN := hsame.admitted
    show (if _ then unserved else unserved.admittedLess) = _
    split_ifs
    · rw [← hn]
    · rw [admittedLess_eq, hn]
  have hlost : ∀ d, lost.conn d =
      if isPunching s d = true ∧ (s.conn d).punchResume = some c then
        { s.conn d with punchResume := none }
      else s.conn d := fun _ => rfl
  have hreap : workerReap s j =
      { counted with ws := Function.update counted.ws j { counted.ws j with used := false } } := rfl
  rw [hreap, hcounted]
  refine ⟨hused, ?_, ?_, ?_, ?_, ?_, rfl, hsame.grant⟩
  · rw [placeOf_setWorker_self]
    rfl
  · intro r hr
    rw [placeOf_setWorker _ _ hr]
    exact congrFun hsame.place r
  · intro i d hd
    show (unserved.conn d).punchResume = _
    rw [hsame.resume, hlost, isPunching_of hd]
    simp only [true_and]
    split_ifs <;> rfl
  · intro d
    show (unserved.conn d).resumePending = _
    rw [hsame.pending, hlost]
    split_ifs <;> rfl
  · intro d
    show (unserved.conn d).claimUfrag = _
    rw [hsame.ufrag, hlost]
    split_ifs <;> rfl

/-- The turnstile's pass over a worker reaps it once it is done. -/
theorem workerPass_cases (s : HostSess) (j : Fin hostMaxWorkers) :
    (¬((s.ws j).used = true ∧ (s.ws j).done = true) ∧ SamePlaces s (workerPass s j)) ∨
      (s.ws j).used = true ∧ (s.ws j).done = true ∧ Reaped s j (workerPass s j) := by
  unfold workerPass
  split_ifs with hdone hreleased
  · exact .inr ⟨hdone.1, hdone.2, workerReap_reaped hdone.1⟩
  · left
    have hflag := SamePlaces.ofWorker s j (w := { s.ws j with released := true }) rfl
    exact ⟨hdone, hflag.trans (.of_eq rfl)⟩
  · exact .inl ⟨hdone, .of_eq rfl⟩

/-! ## A punch is taken -/

/-- The agent kept ready is spent on a punch for the claimant, which may resume a worker of
its own. -/
structure Taken (s : HostSess) (i : Fin hostMaxWorkers) (pc : ConnId) (whom : Option ConnId)
    (cu : Bytes) (s' : HostSess) : Prop where
  ready : s.listen = some pc
  free : s.punching i = none
  spent : s'.listen = none
  punch : s'.punching i = some pc
  place : ∀ r, r ≠ .listen → r ≠ .punch i → placeOf s' r = placeOf s r
  resumed : (s'.conn pc).punchResume = whom
  resume : ∀ c, c ≠ pc → (s'.conn c).punchResume = (s.conn c).punchResume
  pending : ∀ c, (s'.conn c).resumePending =
    (s.conn c).resumePending + if whom = some c then 1 else 0
  claim : (s'.conn pc).claimUfrag = cu
  ufrag : ∀ c, c ≠ pc → (s'.conn c).claimUfrag = (s.conn c).claimUfrag
  admitted : s'.admittedN =
    if whom.isSome = true ∨ ufragAdmitted s cu = true then s.admittedN else s.admittedN + 1
  grant : s'.admitMax = s.admitMax

theorem Taken.sub {s s' : HostSess} {i : Fin hostMaxWorkers} {pc : ConnId}
    {whom : Option ConnId} {cu : Bytes} (h : Taken s i pc whom cu s') (hs : PlacesOnce s)
    (r : Role) (c : ConnId) (hc : placeOf s' r = some c) :
    (r = .punch i ∧ c = pc) ∨ (c ≠ pc ∧ placeOf s r = some c) := by
  by_cases hr : r = .punch i
  · subst hr
    rw [show placeOf s' (.punch i) = s'.punching i from rfl, h.punch, Option.some.injEq] at hc
    exact .inl ⟨rfl, hc.symm⟩
  · right
    have hl : r ≠ .listen := by
      rintro rfl
      rw [show placeOf s' .listen = s'.listen from rfl, h.spent] at hc
      cases hc
    rw [h.place r hl hr] at hc
    refine ⟨?_, hc⟩
    rintro rfl
    exact hl (hs r .listen c hc h.ready)

theorem Taken.other {s s' : HostSess} {i j : Fin hostMaxWorkers} {pc : ConnId}
    {whom : Option ConnId} {cu : Bytes} (h : Taken s i pc whom cu s') (hj : j ≠ i) :
    s'.punching j = s.punching j :=
  h.place (.punch j) (by simp) (by simpa using hj)

/-- A connection that stands elsewhere is not the one spent. -/
theorem Taken.ne {s s' : HostSess} {i : Fin hostMaxWorkers} {pc : ConnId}
    {whom : Option ConnId} {cu : Bytes} (h : Taken s i pc whom cu s') (hs : PlacesOnce s)
    {r : Role} {c : ConnId} (hr : r ≠ .listen) (hc : placeOf s r = some c) : c ≠ pc := by
  rintro rfl
  exact hr (hs r .listen c hc h.ready)

theorem Taken.resumeOf_eq {s s' : HostSess} {i : Fin hostMaxWorkers} {pc : ConnId}
    {whom : Option ConnId} {cu : Bytes} (h : Taken s i pc whom cu s') (hs : PlacesOnce s) :
    resumeOf s' = Function.update (resumeOf s) i whom := by
  funext j
  by_cases hj : j = i
  · rw [hj, Function.update_self, resumeOf_some h.punch, h.resumed]
  · rw [Function.update_of_ne hj]
    unfold resumeOf
    rw [h.other hj]
    cases hc : s.punching j with
    | none => rfl
    | some c => exact h.resume c (h.ne hs (by simp) (show placeOf s (.punch j) = some c from hc))

theorem Taken.of_same {s g g' : HostSess} {i : Fin hostMaxWorkers} {pc : ConnId}
    {whom : Option ConnId} {cu : Bytes} (h : Taken s i pc whom cu g) (hs : SamePlaces g g') :
    Taken s i pc whom cu g' where
  ready := h.ready
  free := h.free
  spent := (congrFun hs.place .listen).trans h.spent
  punch := (hs.punching i).trans h.punch
  place r hl hr := by
    rw [hs.place]
    exact h.place r hl hr
  resumed := (hs.resume pc).trans h.resumed
  resume c hc := (hs.resume c).trans (h.resume c hc)
  pending c := (hs.pending c).trans (h.pending c)
  claim := (hs.ufrag pc).trans h.claim
  ufrag c hc := (hs.ufrag c).trans (h.ufrag c hc)
  admitted := hs.admitted.trans h.admitted
  grant := hs.grant.trans h.grant

/-- The connections once the punch has been counted on the worker that it resumes. -/
def resumeCounted (s : HostSess) : Option ConnId → ConnId → Conn
  | some t => (s.edit t fun w => { w with resumePending := w.resumePending + 1 }).conn
  | none => s.conn

theorem resumeCounted_apply (s : HostSess) (whom : Option ConnId) (c : ConnId) :
    (resumeCounted s whom c).punchResume = (s.conn c).punchResume ∧
      (resumeCounted s whom c).claimUfrag = (s.conn c).claimUfrag ∧
      (resumeCounted s whom c).resumePending =
        (s.conn c).resumePending + if whom = some c then 1 else 0 := by
  cases whom with
  | none => exact ⟨rfl, rfl, by simp [resumeCounted]⟩
  | some t =>
      have hconn : resumeCounted s (some t) c =
          if c = t then { s.conn t with resumePending := (s.conn t).resumePending + 1 }
          else s.conn c := Function.update_apply _ _ _ _
      rw [hconn]
      by_cases hc : c = t
      · subst hc
        simp
      · simp [hc, Ne.symm hc]

/-- What `punch_take` writes. -/
theorem punchTake_eq (s : HostSess) (pc : ConnId) (whom : Option ConnId)
    (pslot : Fin hostMaxWorkers) (cid : Cid) (cu cp : Bytes) (now : UInt64) :
    punchTake s pc whom pslot cid cu cp now =
      { s with
        admittedN :=
          if whom.isSome = true ∨ ufragAdmitted s cu = true then s.admittedN
          else s.admittedN + 1
        punching := Function.update s.punching pslot (some pc)
        conn := Function.update (resumeCounted s whom) pc
          { resumeCounted s whom pc with
            claimCid := cid, remotePwd := cp, punchResume := whom, claimUfrag := cu,
            punchStartMs := now, punchStuck := decide (0 < s.stuckLeft), punchUfrag := cu } } := by
  unfold punchTake resumeCounted
  cases whom with
  | some t => rfl
  | none =>
      dsimp only
      split_ifs with hadmitted hcount hcount
      · rfl
      · exact absurd (.inr hadmitted) hcount
      · simp [hadmitted] at hcount
      · rfl

theorem punchTake_taken {s : HostSess} {pc : ConnId} {pslot : Fin hostMaxWorkers}
    (hready : s.listen = some pc) (hfree : s.punching pslot = none) (whom : Option ConnId)
    (cid : Cid) (cu cp : Bytes) (now : UInt64) :
    Taken s pslot pc whom cu
      { punchTake s pc whom pslot cid cu cp now with listen := none } := by
  rw [punchTake_eq]
  have hself : ∀ x, Function.update (resumeCounted s whom) pc x pc = x :=
    fun x => Function.update_self _ _ _
  refine ⟨hready, hfree, rfl, Function.update_self _ _ _, ?_, ?_, ?_, ?_, ?_, ?_, rfl, rfl⟩
  · intro r hl hr
    cases r with
    | listen => exact absurd rfl hl
    | punch j =>
        have hj : j ≠ pslot := fun heq => hr (heq ▸ rfl)
        exact Function.update_of_ne hj _ _
    | worker j => rfl
  · exact congrArg Conn.punchResume (hself _)
  · intro c hc
    dsimp only
    rw [Function.update_of_ne hc]
    exact (resumeCounted_apply s whom c).1
  · intro c
    dsimp only
    by_cases hc : c = pc
    · rw [hc, Function.update_self]
      exact (resumeCounted_apply s whom pc).2.2
    · rw [Function.update_of_ne hc]
      exact (resumeCounted_apply s whom c).2.2
  · exact congrArg Conn.claimUfrag (hself _)
  · intro c hc
    dsimp only
    rw [Function.update_of_ne hc]
    exact (resumeCounted_apply s whom c).2.1

/-- The agent spent on an offer punches, or is given up. -/
theorem offerPunch_cases (C : Candpack) {s : HostSess} (idx : Fin rdvHostMax) {pc : ConnId}
    (whom : Option ConnId) {pslot : Fin hostMaxWorkers} (e : TakeIn)
    (hready : s.listen = some pc) (hfree : s.punching pslot = none) :
    if e.primes = true then
      Taken s pslot pc whom (candSdpUfrag (s.offers idx).sdp)
        { offerPunch C s idx pc whom pslot e with listen := none }
    else
      SamePlaces { s with listen := none }
        { offerPunch C s idx pc whom pslot e with listen := none } := by
  unfold offerPunch
  dsimp only
  by_cases hprime : e.primes = true
  · rw [if_pos hprime, if_neg (by simp [hprime])]
    have htaken := punchTake_taken hready hfree whom (s.offers idx).cid
      (candSdpUfrag (s.offers idx).sdp) (sdpPwd (s.offers idx).sdp) e.now
    refine htaken.of_same ?_
    -- the stuck budget, the answer and the queue leave the places alone
    generalize punchTake s pc whom pslot (s.offers idx).cid (candSdpUfrag (s.offers idx).sdp)
      (sdpPwd (s.offers idx).sdp) e.now = g
    have hstuck : SamePlaces { g with listen := none }
        { (if 0 < g.stuckLeft then { g with stuckLeft := g.stuckLeft - 1 } else g) with
          listen := none } := by
      split_ifs
      · exact .of_eq rfl
      · exact .of_eq rfl
    refine hstuck.trans ?_
    generalize (if 0 < g.stuckLeft then { g with stuckLeft := g.stuckLeft - 1 } else g) = g'
    have hedit := SamePlaces.edit { g' with listen := none } pc
      (g := fun c => { c with answerSdp := e.localSdp }) fun _ => ⟨rfl, rfl, rfl⟩
    exact hedit.trans (.of_eq rfl)
  · rw [if_neg hprime, if_pos (by simpa using hprime)]
    exact .of_eq rfl

/-- A worker of the claimant runs. -/
theorem workerByUfrag_running {s : HostSess} {cu : Bytes} {t : ConnId}
    (h : workerByUfrag s cu = some t) : Running s t ∧ (s.conn t).claimUfrag = cu := by
  unfold workerByUfrag at h
  split_ifs at h
  rw [Option.map_eq_some_iff] at h
  obtain ⟨j, hj, rfl⟩ := h
  have hspec := firstSlot_spec hj
  simp only [Bool.and_eq_true, beq_iff_eq] at hspec
  exact ⟨⟨j, placeOf_worker.mpr ⟨hspec.1.1, rfl⟩⟩, hspec.2⟩

/-- What the punches given up before a punch leave as it is. -/
structure RoomMade (s s' : HostSess) : Prop where
  listen : s'.listen = s.listen
  worker : ∀ j, placeOf s' (.worker j) = placeOf s (.worker j)
  ufrag : ∀ c, (s'.conn c).claimUfrag = (s.conn c).claimUfrag

theorem RoomMade.release {s s' : HostSess} (h : RoomMade s s') (i : Fin hostMaxWorkers) :
    RoomMade s (punchRelease s' i) := by
  have hdrop := (punchRelease_spec s' i).dropped
  refine ⟨?_, ?_, ?_⟩
  · exact (hdrop.place .listen (by simp)).trans h.listen
  · exact fun j => (hdrop.place (.worker j) (by simp)).trans (h.worker j)
  · exact fun c => (hdrop.ufrag c).trans (h.ufrag c)

theorem offerRoom_made (s : HostSess) (cu cp : Bytes) : RoomMade s (offerRoom s cu cp).1 :=
  offerRoom_induction (P := RoomMade s) (fun _ i hg => hg.release i)
    ⟨rfl, fun _ => rfl, fun _ => rfl⟩ cu cp

theorem punchSlotFind_free {s : HostSess} {i : Fin hostMaxWorkers}
    (h : punchSlotFind s = some i) : s.punching i = none := by
  unfold punchSlotFind at h
  split_ifs at h
  simpa using firstSlot_spec h

theorem punchRoom_free {s s' : HostSess} {pslot : Fin hostMaxWorkers}
    (h : punchRoom s = (s', some pslot)) : s'.punching pslot = none := by
  unfold punchRoom at h
  cases hslot : punchSlotFind s with
  | some i =>
      rw [hslot] at h
      cases h
      exact punchSlotFind_free hslot
  | none =>
      rw [hslot] at h
      cases hevict : punchEvictIdle s with
      | mk g ok =>
          rw [hevict] at h
          cases ok with
          | false => cases h
          | true =>
              simp only [Prod.mk.injEq] at h
              obtain ⟨rfl, h⟩ := h
              exact punchSlotFind_free h

/-- The slot that a punch is given is free. -/
theorem offerRoom_free {s s' : HostSess} {cu cp : Bytes} {pslot : Fin hostMaxWorkers}
    (h : offerRoom s cu cp = (s', some pslot)) : s'.punching pslot = none := by
  unfold offerRoom at h
  simp only at h
  generalize (if punchTriedAgain s cu cp = true then punchReapStale s cu cp else s) = g at h
  cases hg : punchRoom g with
  | mk g1 slot =>
      rw [hg] at h
      cases slot with
      | none => cases h
      | some i =>
          simp only [Prod.mk.injEq, Option.some.injEq] at h
          obtain ⟨rfl, rfl⟩ := h
          have hfree := punchRoom_free hg
          split_ifs
          · -- the oldest punch given up leaves the free slot free
            unfold punchReapOldest
            split
            · exact hfree
            · rename_i k _
              have hdrop := (punchRelease_spec g1 k).dropped
              by_cases hk : i = k
              · rw [hk]
                exact hdrop.gone
              · exact (hdrop.other hk).trans hfree
          · exact hfree

/-- `host_offer_take` gets as far as to make room for a punch. -/
def OfferPunches (s : HostSess) (idx : Fin rdvHostMax) (e : TakeIn) : Prop :=
  let cu := candSdpUfrag (s.offers idx).sdp
  let cp := sdpPwd (s.offers idx).sdp
  (s.offers idx).used = true ∧ cu ≠ [] ∧ offerInHand s cu cp = false ∧
    budgetSpent s cu = false ∧ e.ready = true ∧ s.listen.isSome = true

/-- What the turn of an offer does: nothing of it, or room is made, and where there is any
the agent is spent. -/
theorem offerTurn_cases (C : Candpack) (s : HostSess) (idx : Fin rdvHostMax) (e : TakeIn) :
    SamePlaces s (offerTurn C s idx e) ∨
      (OfferPunches s idx e ∧
        let cu := candSdpUfrag (s.offers idx).sdp
        let room := offerRoom s cu (sdpPwd (s.offers idx).sdp)
        (room.2 = none ∧ offerTurn C s idx e = room.1) ∨
          ∃ pslot, room.2 = some pslot ∧
            if e.primes = true then
              ∃ pc, Taken room.1 pslot pc (workerByUfrag s cu) cu (offerTurn C s idx e)
            else SamePlaces { room.1 with listen := none } (offerTurn C s idx e)) := by
  unfold offerTurn
  by_cases hused : (s.offers idx).used = false
  · rw [if_pos hused]
    exact .inl (.of_eq rfl)
  rw [if_neg hused]
  unfold hostOfferTake
  dsimp only
  by_cases hcu : candSdpUfrag (s.offers idx).sdp = []
  · rw [if_pos hcu]
    exact .inl (.of_eq rfl)
  rw [if_neg hcu]
  by_cases hhand : offerInHand s (candSdpUfrag (s.offers idx).sdp)
      (sdpPwd (s.offers idx).sdp) = true
  · rw [if_pos hhand]
    exact .inl (.of_eq rfl)
  rw [if_neg hhand]
  by_cases hspent : budgetSpent s (candSdpUfrag (s.offers idx).sdp) = true
  · rw [if_pos hspent]
    exact .inl (.of_eq rfl)
  rw [if_neg hspent]
  by_cases hready : e.ready = true
  swap
  · rw [if_neg hready]
    exact .inl (.of_eq rfl)
  rw [if_pos hready]
  cases hlisten : s.listen with
  | none => exact .inl (.of_eq rfl)
  | some pc =>
      right
      refine ⟨⟨by simpa using hused, hcu, by simpa using hhand, by simpa using hspent, hready,
        by rw [hlisten]; rfl⟩, ?_⟩
      have hmade := offerRoom_made s (candSdpUfrag (s.offers idx).sdp) (sdpPwd (s.offers idx).sdp)
      have hoffers := offerRoom_offers s (candSdpUfrag (s.offers idx).sdp)
        (sdpPwd (s.offers idx).sdp)
      cases hroom : offerRoom s (candSdpUfrag (s.offers idx).sdp) (sdpPwd (s.offers idx).sdp) with
      | mk g slot =>
          rw [hroom] at hmade hoffers
          cases slot with
          | none => exact .inl ⟨rfl, rfl⟩
          | some pslot =>
              refine .inr ⟨pslot, rfl, ?_⟩
              have hpunch := offerPunch_cases C idx
                (workerByUfrag s (candSdpUfrag (s.offers idx).sdp)) e
                (hmade.listen.trans hlisten) (offerRoom_free hroom)
              by_cases hprime : e.primes = true
              · rw [if_pos hprime] at hpunch ⊢
                rw [hoffers] at hpunch
                exact ⟨pc, hpunch⟩
              · rw [if_neg hprime] at hpunch ⊢
                exact hpunch

/-! ## The other calls -/

theorem SamePlaces.claimantRead (C : Candpack) (s : HostSess) (m : RdvMsg) (grade : UInt8)
    (wide : Bool) : SamePlaces s (claimantRead C s m grade wide) := by
  unfold Session.claimantRead onPeerOffer offersPush
  split
  · exact .of_eq rfl
  split
  · exact .of_eq rfl
  · dsimp only
    split
    · exact .of_eq rfl
    split
    · split
      · exact .of_eq rfl
      split
      · exact .of_eq rfl
      · exact .of_eq rfl
    · exact .of_eq rfl

theorem SamePlaces.onDirectClaim (s : HostSess) (peer ufrag : Bytes) (active : Bool) :
    SamePlaces s (onDirectClaim s peer ufrag active) := by
  unfold Session.onDirectClaim offersDropUfrag
  dsimp only
  split_ifs <;> exact .of_eq rfl

theorem SamePlaces.hostReanswer (C : Candpack) (s : HostSess) (fan : Bytes → Bytes) :
    SamePlaces s (hostReanswer C s fan) := by
  unfold Session.hostReanswer
  induction List.finRange hostMaxWorkers generalizing s with
  | nil => exact .of_eq rfl
  | cons i is ih =>
      rw [List.foldl_cons]
      refine SamePlaces.trans ?_ (ih _)
      split
      · exact .of_eq rfl
      · split_ifs
        · exact .of_eq rfl
        · exact .of_eq rfl

/-- The steps that touch neither a punch nor a worker nor the agent kept ready. -/
def leavesPlaces : SessOp → Bool
  | .read _ _ _ => true
  | .claim _ _ _ => true
  | .subscribe _ => true
  | .reanswer _ => true
  | .ended _ => true
  | .link _ _ _ => true
  | .sig _ => true
  | _ => false

theorem sessStep_samePlaces (C : Candpack) (s : HostSess) {op : SessOp}
    (h : leavesPlaces op = true) : SamePlaces s (sessStep C s op) := by
  cases op with
  | read m grade wide => exact .claimantRead C s m grade wide
  | claim peer ufrag active => exact .onDirectClaim s peer ufrag active
  | subscribe on => exact .of_eq rfl
  | reanswer fan => exact .hostReanswer C s fan
  | ended i => exact .ofWorker s i rfl
  | link c proven lost =>
      exact .edit s c (g := fun w => { w with proven := proven, lost := lost })
        fun _ => ⟨rfl, rfl, rfl⟩
  | sig op =>
      unfold sessStep
      dsimp only
      split_ifs
      · exact .of_eq rfl
      · exact .of_eq rfl
  | _ => cases h

end Session
end Comrade
