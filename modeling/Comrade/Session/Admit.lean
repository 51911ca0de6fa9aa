import Comrade.Lib.Tally
import Comrade.Session.Fresh
import Comrade.Session.Resume

/-!
# The budget of admissions

The host counts the claimants it has admitted.  A claimant is admitted by what it holds: a
worker that runs, a punch in flight that resumes nothing, or a worker of its own that proved
itself before it was reaped.

* `Ledger` is a session with the claimants of the workers reaped after they proved
  themselves, which the session itself does not keep.
* `holders` is who holds an admission, once for each hold.  The relations of the places say
  what each call does to it.
* `KeepsCount` is the condition on a step under which the count stays the number of
  claimants that hold one.
* `admitted_count` is the result over every run of such steps.
-/

namespace Comrade
namespace Session

open Lib Rdv

/-! ## Who holds an admission -/

/-- The claimant that a worker serves. -/
def workerName (s : HostSess) (j : Fin hostMaxWorkers) : Option Bytes :=
  (placeOf s (.worker j)).map fun c => (s.conn c).claimUfrag

/-- The claimant of a punch that resumes nothing. -/
def punchName (s : HostSess) (i : Fin hostMaxWorkers) : Option Bytes :=
  if resumeOf s i = none then (s.punching i).map fun c => (s.conn c).claimUfrag else none

/-- A session, and the claimants of the workers that proved themselves before they were
reaped. -/
structure Ledger where
  s : HostSess
  past : Multiset Bytes

/-- Who holds an admission, once for each hold. -/
def holders (l : Ledger) : Multiset Bytes :=
  filled (workerName l.s) + filled (punchName l.s) + l.past

/-- The claimant of a worker that is reaped and has proved itself. -/
def reapedProven (s : HostSess) : SessOp → Option Bytes
  | .pass j =>
      if (s.ws j).used = true ∧ (s.ws j).done = true ∧ (s.conn (s.ws j).c).proven = true then
        some (s.conn (s.ws j).c).claimUfrag
      else none
  | _ => none

def ledgerStep (C : Candpack) (l : Ledger) (op : SessOp) : Ledger :=
  { s := sessStep C l.s op, past := slotHolds (reapedProven l.s op) + l.past }

/-- The ledger of a session that begins to host. -/
def ledgerInit (cid : Cid) (gen : UInt32) (admitMax stuck : Int) : Ledger :=
  { s := sessInit cid gen admitMax stuck, past := 0 }

/-- The ledger follows the session. -/
theorem run_ledgerStep (C : Candpack) (l : Ledger) (ops : List SessOp) :
    (run (ledgerStep C) l ops).s = run (sessStep C) l.s ops := by
  induction ops generalizing l with
  | nil => rfl
  | cons op ops ih => exact ih (ledgerStep C l op)

theorem punchName_eq_some {s : HostSess} {i : Fin hostMaxWorkers} {u : Bytes} :
    punchName s i = some u ↔
      ∃ c, s.punching i = some c ∧ (s.conn c).punchResume = none ∧ (s.conn c).claimUfrag = u := by
  unfold punchName resumeOf
  cases s.punching i with
  | none => simp
  | some c =>
      by_cases hresume : (s.conn c).punchResume = none
      · simp [hresume]
      · simp [hresume]

theorem punchName_eq_none {s : HostSess} {i : Fin hostMaxWorkers} :
    punchName s i = none ↔ ¬((s.punching i).isSome = true ∧ resumeOf s i = none) := by
  unfold punchName
  by_cases hresume : resumeOf s i = none
  · simp [hresume]
  · simp [hresume]

/-! ## What the calls do to it -/

/-- The names read from places and connections that are as before. -/
theorem workerName_congr {s s' : HostSess} {j : Fin hostMaxWorkers}
    (hplace : placeOf s' (.worker j) = placeOf s (.worker j))
    (hufrag : ∀ c, placeOf s (.worker j) = some c →
      (s'.conn c).claimUfrag = (s.conn c).claimUfrag) : workerName s' j = workerName s j := by
  unfold workerName
  rw [hplace]
  cases hj : placeOf s (.worker j) with
  | none => rfl
  | some c => exact congrArg some (hufrag c hj)

theorem punchName_congr {s s' : HostSess} {i : Fin hostMaxWorkers}
    (hpunch : s'.punching i = s.punching i) (hresume : resumeOf s' i = resumeOf s i)
    (hufrag : ∀ c, s.punching i = some c → (s'.conn c).claimUfrag = (s.conn c).claimUfrag) :
    punchName s' i = punchName s i := by
  unfold punchName
  rw [hpunch, hresume]
  cases hi : s.punching i with
  | none => rfl
  | some c =>
      show (if _ then some (s'.conn c).claimUfrag else none) = _
      rw [hufrag c hi]
      rfl

theorem SamePlaces.holders_eq {s s' : HostSess} (h : SamePlaces s s') (past : Multiset Bytes) :
    holders ⟨s', past⟩ = holders ⟨s, past⟩ := by
  have hworker : workerName s' = workerName s := by
    funext j
    exact workerName_congr (congrFun h.place _) fun c _ => h.ufrag c
  have hpunch : punchName s' = punchName s := by
    funext i
    exact punchName_congr (h.punching i) (congrFun h.resumeOf_eq i) fun c _ => h.ufrag c
  unfold holders
  rw [hworker, hpunch]

theorem Dropped.punchName_eq {s s' : HostSess} {i : Fin hostMaxWorkers} (h : Dropped s i s') :
    punchName s' = Function.update (punchName s) i none := by
  funext k
  by_cases hk : k = i
  · subst hk
    rw [Function.update_self, punchName_eq_none, h.gone]
    simp
  · rw [Function.update_of_ne hk]
    refine punchName_congr (h.other hk) ?_ fun c _ => h.ufrag c
    rw [h.resumeOf_eq, Function.update_of_ne hk]

theorem Dropped.workerName_eq {s s' : HostSess} {i : Fin hostMaxWorkers} (h : Dropped s i s') :
    workerName s' = workerName s := by
  funext j
  exact workerName_congr (h.place (.worker j) (by simp)) fun c _ => h.ufrag c

/-- The hold of the punch that is gone is gone with it, where it had one. -/
theorem Dropped.holders_eq {s s' : HostSess} {i : Fin hostMaxWorkers} (h : Dropped s i s')
    (past : Multiset Bytes) :
    holders ⟨s, past⟩ = slotHolds (punchName s i) + holders ⟨s', past⟩ := by
  unfold holders
  rw [h.workerName_eq, h.punchName_eq]
  cases hname : punchName s i with
  | none => rw [Function.update_eq_self_iff.mpr hname.symm, slotHolds, zero_add]
  | some u =>
      rw [filled_clear hname, slotHolds]
      simp only [← Multiset.singleton_add]
      abel

/-- A punch that resumes nothing holds an admission for its claimant. -/
theorem Taken.holders_eq {s s' : HostSess} {i : Fin hostMaxWorkers} {pc : ConnId}
    {whom : Option ConnId} {cu : Bytes} (h : Taken s i pc whom cu s') (hs : PlacesOnce s)
    (past : Multiset Bytes) :
    holders ⟨s', past⟩ =
      slotHolds (if whom = none then some cu else none) + holders ⟨s, past⟩ := by
  have hworker : workerName s' = workerName s := by
    funext j
    refine workerName_congr (h.place (.worker j) (by simp) (by simp)) ?_
    intro c hc
    exact h.ufrag c (h.ne hs (by simp) hc)
  have hpunch : punchName s' =
      Function.update (punchName s) i (if whom = none then some cu else none) := by
    funext k
    by_cases hk : k = i
    · subst hk
      rw [Function.update_self]
      unfold punchName
      rw [h.resumeOf_eq hs, Function.update_self, h.punch, Option.map_some, h.claim]
    · rw [Function.update_of_ne hk]
      refine punchName_congr (h.other hk) ?_ ?_
      · rw [h.resumeOf_eq hs, Function.update_of_ne hk]
      · intro c hc
        exact h.ufrag c (h.ne hs (by simp) (show placeOf s (.punch k) = some c from hc))
  have hfree : punchName s i = none := by
    rw [punchName_eq_none, h.free]
    simp
  unfold holders
  rw [hworker, hpunch]
  by_cases hwhom : whom = none
  · rw [if_pos hwhom, filled_put hfree, slotHolds]
    simp only [← Multiset.singleton_add]
    abel
  · rw [if_neg hwhom, Function.update_eq_self_iff.mpr hfree.symm, slotHolds, zero_add]

/-- A worker holds an admission for its claimant. -/
theorem Entered.holders_worker {s s' : HostSess} {j : Fin hostMaxWorkers} {c : ConnId}
    (h : Entered s (.worker j) c s') (past : Multiset Bytes) :
    holders ⟨s', past⟩ = (s.conn c).claimUfrag ::ₘ holders ⟨s, past⟩ := by
  have hworker : workerName s' =
      Function.update (workerName s) j (some (s.conn c).claimUfrag) := by
    funext k
    by_cases hk : k = j
    · subst hk
      rw [Function.update_self]
      unfold workerName
      rw [h.entered, h.conn, Option.map_some]
    · rw [Function.update_of_ne hk]
      refine workerName_congr (h.place (.worker k) (by simpa using hk)) ?_
      intro d _
      rw [h.conn]
  have hpunch : punchName s' = punchName s := by
    funext i
    refine punchName_congr (h.punching i) (congrFun h.resumeOf_eq i) ?_
    intro d _
    rw [h.conn]
  have hempty : workerName s j = none := by
    unfold workerName
    rw [h.empty]
    rfl
  unfold holders
  rw [hworker, hpunch, filled_put hempty]
  simp only [← Multiset.singleton_add]
  abel

/-- The agent kept ready holds nothing. -/
theorem Entered.holders_listen {s s' : HostSess} {c : ConnId} (h : Entered s .listen c s')
    (past : Multiset Bytes) : holders ⟨s', past⟩ = holders ⟨s, past⟩ := by
  have hworker : workerName s' = workerName s := by
    funext j
    refine workerName_congr (h.place (.worker j) (by simp)) ?_
    intro d _
    rw [h.conn]
  have hpunch : punchName s' = punchName s := by
    funext i
    refine punchName_congr (h.punching i) (congrFun h.resumeOf_eq i) ?_
    intro d _
    rw [h.conn]
  unfold holders
  rw [hworker, hpunch]

theorem Allocated.holders_eq {s s' : HostSess} {c : ConnId} {ufrag : Bytes}
    (h : Allocated s c ufrag s') (hfree : ¬Live s c) (past : Multiset Bytes) :
    holders ⟨s', past⟩ = holders ⟨s, past⟩ := by
  have hother : ∀ d, Live s d → s'.conn d = s.conn d := by
    intro d hd
    apply h.other
    rintro rfl
    exact hfree hd
  have hpunching : ∀ i, s'.punching i = s.punching i := fun i => congrFun h.place (.punch i)
  have hworker : workerName s' = workerName s := by
    funext j
    refine workerName_congr (congrFun h.place _) ?_
    intro d hd
    rw [hother d ⟨_, hd⟩]
  have hpunch : punchName s' = punchName s := by
    funext i
    refine punchName_congr (hpunching i) ?_ ?_
    · unfold resumeOf
      rw [hpunching]
      cases hi : s.punching i with
      | none => rfl
      | some d => exact congrArg Conn.punchResume (hother d ⟨.punch i, hi⟩)
    · intro d hd
      rw [hother d ⟨.punch i, hd⟩]
  unfold holders
  rw [hworker, hpunch]

theorem Reaped.workerName_eq {s s' : HostSess} {j : Fin hostMaxWorkers} (h : Reaped s j s') :
    workerName s' = Function.update (workerName s) j none := by
  funext k
  by_cases hk : k = j
  · subst hk
    rw [Function.update_self]
    unfold workerName
    rw [h.gone]
    rfl
  · rw [Function.update_of_ne hk]
    exact workerName_congr (h.place (.worker k) (by simpa using hk)) fun c _ => h.ufrag c

/-- The punches that resumed the worker hold an admission of their own now. -/
theorem Reaped.punchName_eq {s s' : HostSess} {j : Fin hostMaxWorkers} (h : Reaped s j s')
    (hs : ResumeInv s) (i : Fin hostMaxWorkers) :
    punchName s' i =
      if resumeOf s i = some (s.ws j).c then some (s.conn (s.ws j).c).claimUfrag
      else punchName s i := by
  by_cases hlost : resumeOf s i = some (s.ws j).c
  · rw [if_pos hlost, punchName_eq_some]
    cases hi : s.punching i with
    | none => simp [resumeOf, hi] at hlost
    | some c =>
        have hresume : (s.conn c).punchResume = some (s.ws j).c :=
          (resumeOf_some hi).symm.trans hlost
        refine ⟨c, (h.punching i).trans hi, ?_, ?_⟩
        · rw [h.resume i c hi, if_pos hresume]
        · rw [h.ufrag]
          exact (hs.whose i c _ hi hresume).1.symm
  · rw [if_neg hlost]
    refine punchName_congr (h.punching i) ?_ fun c _ => h.ufrag c
    rw [h.resumeOf_eq, if_neg hlost]

/-! ## The condition -/

/-- The claimant has another hold besides one that ends. -/
def Spare (l : Ledger) (u : Bytes) : Prop := u ≠ [] ∧ 2 ≤ (holders l).count u

instance (l : Ledger) (u : Bytes) : Decidable (Spare l u) := inferInstanceAs (Decidable (_ ∧ _))

/-- The punch in the slot may end: it resumes a worker, or is its claimant's only hold. -/
def EndsRight (l : Ledger) (i : Fin hostMaxWorkers) : Prop := ∀ u ∈ punchName l.s i, ¬Spare l u

/-- The turn does not hand a punch that holds an admission to a worker, drops none of a
claimant that has another hold, and fails to spawn a worker only for a claimant that has. -/
def ScanRight (l : Ledger) (i : Fin hostMaxWorkers) (e : ScanIn) : Prop :=
  ∀ c ∈ l.s.punching i, (l.s.conn c).punchStuck = false →
    if e.connected = true then
      (l.s.conn c).punchResume = none →
        workerByUfrag l.s (l.s.conn c).punchUfrag = none ∧
          (Spawns l.s e.starts ∨ Spare l (l.s.conn c).claimUfrag)
    else e.failed = true → EndsRight l i

/-- A worker reaped that proved nothing is its claimant's only hold, and no punch resumes
it. -/
def PassRight (l : Ledger) (j : Fin hostMaxWorkers) : Prop :=
  (l.s.ws j).used = true → (l.s.ws j).done = true →
    (l.s.conn (l.s.ws j).c).proven = false →
      ¬Spare l (l.s.conn (l.s.ws j).c).claimUfrag ∧ resumes l.s (l.s.ws j).c = 0

/-- A claimant of the segment that is admitted holds nothing yet, and its worker starts. -/
def LanRight (l : Ledger) (claim : LanClaim) (e : LanIn) : Prop :=
  ∀ c ∈ e.alloc, LanAdmits l.s e c → Adds [] (holders l) claim.ufrag ∧ Spawns l.s e.starts

/-- Each turn of `lan_drain` admits so. -/
def LansRight : Ledger → List LanClaim → List LanIn → Prop
  | l, claim :: claims, e :: es =>
      LanRight l claim e ∧
        ((lanAdmit l.s claim e).2 = true →
          LansRight { l with s := (lanAdmit l.s claim e).1 } claims es)
  | _, _, _ => True

/-- The punch in the slot is one of the claimant's under another password. -/
def punchStale (s : HostSess) (cu cp : Bytes) (i : Fin hostMaxWorkers) : Bool :=
  (s.punching i).any fun c => (s.conn c).punchUfrag == cu && (s.conn c).remotePwd != cp

/-- The slots that `punch_reap_stale` empties. -/
def staleSlots (s : HostSess) (cu cp : Bytes) : List (Fin hostMaxWorkers) :=
  if punchTriedAgain s cu cp = true then
    (List.finRange hostMaxWorkers).filter (punchStale s cu cp)
  else []

/-- The slot that `punch_evict_idle` empties, where none is free. -/
def idleSlots (s : HostSess) : List (Fin hostMaxWorkers) :=
  if (punchSlotFind s).isSome = true then []
  else (punchOldest s fun c => c.punchResume.isNone && !offerQueuedUfrag s c.punchUfrag).toList

/-- The slot that `punch_reap_oldest` empties, at the cap. -/
def cappedSlots (s : HostSess) (cu : Bytes) : List (Fin hostMaxWorkers) :=
  if (punchSlotFind s).isSome = true ∧ punchParallelMax ≤ punchCount s cu then
    (punchOldest s fun c => c.punchUfrag == cu).toList
  else []

/-- The slots emptied before a punch for the claimant, in order. -/
def roomSlots (s : HostSess) (cu cp : Bytes) : List (Fin hostMaxWorkers) :=
  let stale := staleSlots s cu cp
  let idle := idleSlots (run punchRelease s stale)
  stale ++ idle ++ cappedSlots (run punchRelease s (stale ++ idle)) cu

/-- The session once they are emptied. -/
def roomOf (s : HostSess) (cu cp : Bytes) : HostSess := run punchRelease s (roomSlots s cu cp)

/-- The punches given up for an offer may end, and a claimant that still holds an admission
then is known by a punch in flight under its name. -/
def TakeRight (l : Ledger) (idx : Fin rdvHostMax) (e : TakeIn) : Prop :=
  OfferPunches l.s idx e →
    let cu := candSdpUfrag (l.s.offers idx).sdp
    let cp := sdpPwd (l.s.offers idx).sdp
    (∀ i ∈ roomSlots l.s cu cp, EndsRight l i) ∧
      (e.primes = true → workerByUfrag l.s cu = none →
        cu ∈ holders { l with s := roomOf l.s cu cp } → ufragAdmitted (roomOf l.s cu cp) cu = true)

/-- The condition on a step under which the count stays right. -/
def KeepsCount (l : Ledger) : SessOp → Prop
  | .drain es => LansRight l l.s.lanPending es
  | .take idx e => TakeRight l idx e
  | .scan i e => ScanRight l i e
  | .release i => EndsRight l i
  | .pass j => PassRight l j
  | _ => True

instance (s : HostSess) (e : LanIn) (c : ConnId) : Decidable (LanAdmits s e c) :=
  inferInstanceAs (Decidable (_ ∧ _))

instance (s : HostSess) (idx : Fin rdvHostMax) (e : TakeIn) : Decidable (OfferPunches s idx e) :=
  inferInstanceAs (Decidable (_ ∧ _))

instance (l : Ledger) (i : Fin hostMaxWorkers) : Decidable (EndsRight l i) :=
  inferInstanceAs (Decidable (∀ u ∈ punchName l.s i, ¬Spare l u))

instance (l : Ledger) (i : Fin hostMaxWorkers) (e : ScanIn) : Decidable (ScanRight l i e) :=
  inferInstanceAs (Decidable (∀ c ∈ l.s.punching i, (l.s.conn c).punchStuck = false →
    if e.connected = true then
      (l.s.conn c).punchResume = none →
        workerByUfrag l.s (l.s.conn c).punchUfrag = none ∧
          (Spawns l.s e.starts ∨ Spare l (l.s.conn c).claimUfrag)
    else e.failed = true → EndsRight l i))

instance (l : Ledger) (j : Fin hostMaxWorkers) : Decidable (PassRight l j) :=
  inferInstanceAs (Decidable (_ → _))

instance (l : Ledger) (claim : LanClaim) (e : LanIn) : Decidable (LanRight l claim e) :=
  inferInstanceAs (Decidable (∀ c ∈ e.alloc, _ → _))

instance decidableLansRight : ∀ (l : Ledger) (claims : List LanClaim) (es : List LanIn),
    Decidable (LansRight l claims es)
  | l, claim :: claims, e :: es =>
      have := decidableLansRight { l with s := (lanAdmit l.s claim e).1 } claims es
      inferInstanceAs (Decidable (_ ∧ (_ → _)))
  | _, [], _ => isTrue trivial
  | _, _ :: _, [] => isTrue trivial

instance (l : Ledger) (idx : Fin rdvHostMax) (e : TakeIn) : Decidable (TakeRight l idx e) :=
  inferInstanceAs (Decidable (OfferPunches l.s idx e → _ ∧ _))

instance (l : Ledger) : ∀ op, Decidable (KeepsCount l op)
  | .drain es => decidableLansRight l l.s.lanPending es
  | .take idx e => inferInstanceAs (Decidable (TakeRight l idx e))
  | .scan i e => inferInstanceAs (Decidable (ScanRight l i e))
  | .release i => inferInstanceAs (Decidable (EndsRight l i))
  | .pass j => inferInstanceAs (Decidable (PassRight l j))
  | .read _ _ _ | .claim _ _ _ | .subscribe _ | .gather _ | .giveUp | .reanswer _ | .ended _
  | .link _ _ _ | .sig _ => isTrue trivial

/-! ## What keeps the count right -/

/-- The number of admissions is the number of claimants that hold one. -/
def Exact (l : Ledger) : Prop := l.s.admittedN = tally [] (holders l)

theorem exact_more {n : Int} {m : Multiset Bytes} {u : Bytes} (h : n = tally [] m)
    (hadds : Adds [] m u) : n + 1 = tally [] (u ::ₘ m) := by
  rw [tally_cons, if_pos hadds, h]
  push_cast
  ring

theorem exact_less {n : Int} {m : Multiset Bytes} {u : Bytes} (h : n = tally [] (u ::ₘ m))
    (hadds : Adds [] m u) : admittedAfter n = tally [] m := by
  rw [tally_cons, if_pos hadds] at h
  unfold admittedAfter
  split_ifs <;> omega

theorem tally_spare {m : Multiset Bytes} {u : Bytes} (h : ¬Adds [] m u) :
    tally [] (u ::ₘ m) = tally [] m := by
  rw [tally_cons, if_neg h, add_zero]

/-- A claimant with one hold less has it spare or does not add to the others. -/
theorem spare_iff {l : Ledger} {m : Multiset Bytes} {u : Bytes} (h : holders l = u ::ₘ m) :
    Spare l u ↔ ¬Adds [] m u := by
  rw [adds_of_cons, not_not]
  unfold Spare
  rw [h]

theorem Exact.of_same {s s' : HostSess} {past : Multiset Bytes} (h : Exact ⟨s, past⟩)
    (hs : SamePlaces s s') : Exact ⟨s', past⟩ := by
  unfold Exact at h ⊢
  rw [hs.holders_eq]
  exact hs.admitted.trans h

/-- A punch that may end gives back what it counted for. -/
theorem Exact.giveBack {s s' : HostSess} {past : Multiset Bytes} {i : Fin hostMaxWorkers}
    (h : Exact ⟨s, past⟩) (hback : GivenBack s i s') (hends : EndsRight ⟨s, past⟩ i) :
    Exact ⟨s', past⟩ := by
  have hholders := hback.dropped.holders_eq past
  have hadmitted := hback.admitted
  unfold Exact at h ⊢
  cases hname : punchName s i with
  | none =>
      rw [if_neg (punchName_eq_none.mp hname)] at hadmitted
      rw [hname, slotHolds, zero_add] at hholders
      rw [← hholders]
      exact hadmitted.trans h
  | some u =>
      have hfresh : (s.punching i).isSome = true ∧ resumeOf s i = none := by
        by_contra hnot
        rw [punchName_eq_none.mpr hnot] at hname
        cases hname
      rw [if_pos hfresh] at hadmitted
      rw [hname, slotHolds, Multiset.singleton_add] at hholders
      have hspare := hends u hname
      rw [spare_iff hholders, not_not] at hspare
      rw [hholders] at h
      exact hadmitted.trans (exact_less h hspare)

theorem Exact.entered {s s' : HostSess} {past : Multiset Bytes} {j : Fin hostMaxWorkers}
    {c : ConnId} (h : s.admittedN = tally [] ((s.conn c).claimUfrag ::ₘ holders ⟨s, past⟩))
    (hentered : Entered s (.worker j) c s') : Exact ⟨s', past⟩ := by
  unfold Exact
  rw [hentered.holders_worker]
  exact hentered.admitted.trans h

/-! ### One turn of `punch_scan` -/

theorem exact_scan {s : HostSess} {past : Multiset Bytes} (hs : ResumeInv s)
    (h : Exact ⟨s, past⟩) {i : Fin hostMaxWorkers} {e : ScanIn} (hright : ScanRight ⟨s, past⟩ i e) :
    Exact ⟨scanSlot s i e, past⟩ := by
  rcases scanSlot_cases s i e with hsame | ⟨c, hi, hstuck, ⟨hback, hwhy⟩ | hspawn⟩
  · exact h.of_same hsame
  · -- a punch that connects and is handed on resumes the worker that takes it
    refine h.giveBack hback ?_
    have hc := hright c hi hstuck
    split_ifs at hc hwhy with hconnected
    · intro u hu
      obtain ⟨d, hd, hresume, -⟩ := punchName_eq_some.mp hu
      obtain rfl : d = c := Option.some.inj (hd.symm.trans hi)
      have hworker := hwhy hresume
      rw [(hc hresume).1] at hworker
      cases hworker
    · exact hc hwhy
  · obtain ⟨hconnected, hresume, hworker, g, hdrop, hconn, hadmitted, hend⟩ := hspawn
    have hname : punchName s i = some (s.conn c).claimUfrag :=
      punchName_eq_some.mpr ⟨c, hi, hresume, rfl⟩
    have hholders := hdrop.holders_eq past
    rw [hname, slotHolds, Multiset.singleton_add] at hholders
    have hc := hright c hi hstuck
    rw [if_pos hconnected] at hc
    unfold Exact at h
    rw [hholders] at h
    split_ifs at hend with hspawns
    · obtain ⟨j, hentered⟩ := hend (hs.not_live_of_dropped hdrop hi)
      refine Exact.entered ?_ hentered
      rw [hconn]
      exact hadmitted.trans h
    · have hspare := ((hc hresume).2.resolve_left hspawns)
      rw [spare_iff hholders] at hspare
      refine Exact.of_same ?_ hend
      rw [tally_spare hspare] at h
      exact hadmitted.trans h

/-! ### Workers -/

/-- A worker that proved itself goes on holding its admission. -/
theorem exact_reapedProven {s s' : HostSess} {past : Multiset Bytes} {j : Fin hostMaxWorkers}
    (hs : ResumeInv s) (h : Exact ⟨s, past⟩) (hreaped : Reaped s j s')
    (hproven : (s.conn (s.ws j).c).proven = true) :
    Exact ⟨s', (s.conn (s.ws j).c).claimUfrag ::ₘ past⟩ := by
  have hname : workerName s j = some (s.conn (s.ws j).c).claimUfrag := by
    unfold workerName
    rw [hreaped.standing]
    rfl
  generalize hu : (s.conn (s.ws j).c).claimUfrag = u at hname ⊢
  have hpunch : ∀ i a, punchName s' i = some a ↔
      punchName s i = some a ∨ (resumeOf s i = some (s.ws j).c ∧ a = u) := by
    intro i a
    rw [hreaped.punchName_eq hs, hu]
    by_cases hlost : resumeOf s i = some (s.ws j).c
    · have hnone : punchName s i = none := by
        rw [punchName_eq_none, hlost]
        simp
      rw [if_pos hlost, hnone]
      simp [hlost, eq_comm]
    · rw [if_neg hlost]
      simp [hlost]
  -- a worker that gave no name is resumed by no punch
  have hnamed : ∀ i, resumeOf s i = some (s.ws j).c → u ≠ [] := by
    intro i hi
    cases hc : s.punching i with
    | none => simp [resumeOf, hc] at hi
    | some c =>
        have hwhose := hs.whose i c _ hc ((resumeOf_some hc).symm.trans hi)
        rw [← hu, hwhose.1]
        exact hwhose.2
  unfold Exact at h ⊢
  show s'.admittedN = _
  rw [hreaped.admitted, if_pos hproven]
  refine h.trans ?_
  unfold holders
  rw [hreaped.workerName_eq, filled_clear hname]
  congr 1
  refine tally_congr ?_ ?_
  · intro a _
    simp only [Multiset.mem_add, Multiset.mem_cons, mem_filled, hpunch]
    constructor
    · rintro (((rfl | hw) | ⟨i, hi⟩) | hpast)
      · exact .inr (.inl rfl)
      · exact .inl (.inl hw)
      · exact .inl (.inr ⟨i, .inl hi⟩)
      · exact .inr (.inr hpast)
    · rintro ((hw | ⟨i, hi | ⟨-, rfl⟩⟩) | (rfl | hpast))
      · exact .inl (.inl (.inr hw))
      · exact .inl (.inr ⟨i, hi⟩)
      · exact .inl (.inl (.inl rfl))
      · exact .inl (.inl (.inl rfl))
      · exact .inr hpast
  · have hcount : (filled (punchName s)).count [] = (filled (punchName s')).count [] := by
      apply count_filled_congr
      intro i
      rw [hpunch]
      constructor
      · exact .inl
      · rintro (hi | ⟨hi, hnil⟩)
        · exact hi
        · exact absurd hnil.symm (hnamed i hi)
    simp only [Multiset.count_add, Multiset.count_cons, hcount]
    omega

/-- A worker that proved nothing gives its admission back. -/
theorem exact_reapedUnproven {s s' : HostSess} {past : Multiset Bytes} {j : Fin hostMaxWorkers}
    (hs : ResumeInv s) (h : Exact ⟨s, past⟩) (hreaped : Reaped s j s')
    (hproven : (s.conn (s.ws j).c).proven = false)
    (hspare : ¬Spare ⟨s, past⟩ (s.conn (s.ws j).c).claimUfrag)
    (halone : resumes s (s.ws j).c = 0) : Exact ⟨s', past⟩ := by
  have hname : workerName s j = some (s.conn (s.ws j).c).claimUfrag := by
    unfold workerName
    rw [hreaped.standing]
    rfl
  have hpunch : punchName s' = punchName s := by
    funext i
    rw [hreaped.punchName_eq hs, if_neg]
    intro hlost
    have hpos : 0 < resumes s (s.ws j).c := slotCount_pos (i := i) (by simp [hlost])
    omega
  have hholders : holders ⟨s, past⟩ =
      (s.conn (s.ws j).c).claimUfrag ::ₘ holders ⟨s', past⟩ := by
    unfold holders
    rw [hreaped.workerName_eq, hpunch, filled_clear hname]
    simp only [← Multiset.singleton_add]
    abel
  rw [spare_iff hholders, not_not] at hspare
  unfold Exact at h ⊢
  rw [hholders] at h
  show s'.admittedN = _
  rw [hreaped.admitted, if_neg (by simp [hproven])]
  exact exact_less h hspare

theorem exact_pass (C : Candpack) {l : Ledger} (hs : ResumeInv l.s) (h : Exact l)
    {j : Fin hostMaxWorkers} (hright : PassRight l j) : Exact (ledgerStep C l (.pass j)) := by
  obtain ⟨s, past⟩ := l
  show Exact ⟨workerPass s j, slotHolds
    (if (s.ws j).used = true ∧ (s.ws j).done = true ∧ (s.conn (s.ws j).c).proven = true then
      some (s.conn (s.ws j).c).claimUfrag
    else none) + past⟩
  rcases workerPass_cases s j with ⟨hidle, hsame⟩ | ⟨hused, hdone, hreaped⟩
  · rw [if_neg fun hc => hidle ⟨hc.1, hc.2.1⟩, slotHolds, zero_add]
    exact h.of_same hsame
  · cases hproven : (s.conn (s.ws j).c).proven with
    | true =>
        rw [if_pos ⟨hused, hdone, rfl⟩, slotHolds, Multiset.singleton_add]
        exact exact_reapedProven hs h hreaped hproven
    | false =>
        rw [if_neg (by simp), slotHolds, zero_add]
        obtain ⟨hspare, halone⟩ := hright hused hdone hproven
        exact exact_reapedUnproven hs h hreaped hproven hspare halone

/-! ### The segment -/

/-- What the count and the budget keep to, under a grant of so many. -/
structure CountInv (max : Int) (l : Ledger) : Prop where
  resume : ResumeInv l.s
  exact : Exact l
  limit : l.s.admitMax = max
  within : 0 < max → l.s.admittedN ≤ max

theorem CountInv.of_same {max : Int} {s s' : HostSess} {past : Multiset Bytes}
    (h : CountInv max ⟨s, past⟩) (hs : SamePlaces s s') : CountInv max ⟨s', past⟩ where
  resume := h.resume.of_same hs
  exact := h.exact.of_same hs
  limit := hs.grant.trans h.limit
  within := by
    show 0 < max → s'.admittedN ≤ max
    rw [hs.admitted]
    exact h.within

/-- A claimant of the segment is admitted within the budget. -/
theorem countInv_lanAdmit {max : Int} {s : HostSess} {past : Multiset Bytes}
    (h : CountInv max ⟨s, past⟩) {claim : LanClaim} {e : LanIn}
    (hright : LanRight ⟨s, past⟩ claim e) : CountInv max ⟨(lanAdmit s claim e).1, past⟩ := by
  have hresume := lanAdmit_inv h.resume claim e
  rcases lanAdmit_cases s claim e with heq | ⟨c, g, hadmits, halloc, hadmitted, hend⟩
  · rw [heq]
    exact h
  obtain ⟨hadds, hspawns⟩ := hright c hadmits.2.2.2.1 hadmits
  rw [if_pos hspawns] at hend
  obtain ⟨j, hentered⟩ := hend
  refine ⟨hresume, Exact.entered ?_ hentered, ?_, ?_⟩
  · have hfree : ¬Live s c := connLive_eq_false hadmits.2.2.2.2.1
    rw [halloc.holders_eq hfree, halloc.ufrag, hadmitted]
    exact exact_more h.exact hadds
  · exact hentered.grant.trans (halloc.grant.trans h.limit)
  · show 0 < max → (lanAdmit s claim e).1.admittedN ≤ max
    have hroom := hadmits.2.1
    have hlimit : s.admitMax = max := h.limit
    rw [hentered.admitted, hadmitted]
    intro hpos
    omega

theorem countInv_lanLoop {max : Int} {s : HostSess} {past : Multiset Bytes}
    (h : CountInv max ⟨s, past⟩) (claims : List LanClaim) (es : List LanIn)
    (hright : LansRight ⟨s, past⟩ claims es) : CountInv max ⟨lanLoop s claims es, past⟩ := by
  induction claims generalizing s es with
  | nil => exact h
  | cons claim claims ih =>
      cases es with
      | nil => exact h
      | cons e es =>
          have hone := countInv_lanAdmit h hright.1
          have hrest := hright.2
          unfold lanLoop
          cases hgranted : lanAdmit s claim e with
          | mk s' goes =>
              rw [hgranted] at hone
              simp only [hgranted] at hrest
              cases goes with
              | true => exact ih hone es (hrest rfl)
              | false => exact hone

/-! ### Offers -/

/-- A punch released changes of a connection only the resumptions it counts. -/
theorem punchRelease_conn (s : HostSess) (i : Fin hostMaxWorkers) (c : ConnId) :
    ∃ n, (punchRelease s i).conn c = { s.conn c with resumePending := n } := by
  unfold punchRelease
  cases hi : s.punching i with
  | none => exact ⟨_, rfl⟩
  | some d =>
      have hrh : ∀ (g : HostSess) (p : Prop) [Decidable p] (rh : RdvHost),
          ((if p then { g with rh := rh } else g).punchClear i).conn = g.conn := by
        intro g p _ rh
        split_ifs <;> rfl
      dsimp only
      rw [hrh]
      cases hresume : (s.conn d).punchResume with
      | none =>
          dsimp only
          rw [admittedLess_eq]
          exact ⟨_, rfl⟩
      | some t =>
          by_cases hc : c = t
          · subst hc
            exact ⟨_, Function.update_self _ _ _⟩
          · exact ⟨_, Function.update_of_ne hc _ _⟩

theorem punchStale_release {s : HostSess} {i k : Fin hostMaxWorkers} (hk : k ≠ i) (cu cp : Bytes) :
    punchStale (punchRelease s i) cu cp k = punchStale s cu cp k := by
  unfold punchStale
  rw [(punchRelease_spec s i).dropped.other hk]
  cases s.punching k with
  | none => rfl
  | some c =>
      obtain ⟨n, hn⟩ := punchRelease_conn s i c
      simp only [Option.any_some, hn]

/-- The punches of the claimant's under another password are released in turn. -/
theorem punchReapStale_run (s : HostSess) (cu cp : Bytes) :
    punchReapStale s cu cp =
      run punchRelease s ((List.finRange hostMaxWorkers).filter (punchStale s cu cp)) := by
  unfold punchReapStale
  have hnodup := List.nodup_finRange hostMaxWorkers
  generalize List.finRange hostMaxWorkers = is at hnodup
  induction is generalizing s with
  | nil => rfl
  | cons i is ih =>
      rw [List.nodup_cons] at hnodup
      rw [List.foldl_cons, ih _ hnodup.2]
      by_cases hstale : punchStale s cu cp i = true
      · rw [List.filter_cons_of_pos hstale, run_cons]
        obtain ⟨c, hc, hboth⟩ : ∃ c, s.punching i = some c ∧
            ((s.conn c).punchUfrag = cu ∧ (s.conn c).remotePwd ≠ cp) := by
          unfold punchStale at hstale
          rw [Option.any_eq_true] at hstale
          obtain ⟨c, hc, h⟩ := hstale
          exact ⟨c, hc, by simpa using h⟩
        simp only [hc, if_pos hboth]
        congr 1
        apply List.filter_congr
        intro k hk
        refine punchStale_release ?_ cu cp
        rintro rfl
        exact hnodup.1 hk
      · rw [List.filter_cons_of_neg hstale]
        have hstays : ∀ g : HostSess, g = s → run punchRelease g (is.filter (punchStale g cu cp)) =
            run punchRelease s (is.filter (punchStale s cu cp)) := by
          rintro _ rfl
          rfl
        apply hstays
        cases hc : s.punching i with
        | none => rfl
        | some c =>
            refine if_neg fun hboth => hstale ?_
            simp [punchStale, hc, hboth.1, hboth.2]

/-- Making room releases the punches of these slots in turn. -/
theorem offerRoom_fst (s : HostSess) (cu cp : Bytes) : (offerRoom s cu cp).1 = roomOf s cu cp := by
  have hstale : (if punchTriedAgain s cu cp = true then punchReapStale s cu cp else s) =
      run punchRelease s (staleSlots s cu cp) := by
    unfold staleSlots
    split_ifs
    · exact punchReapStale_run s cu cp
    · rfl
  have happend : ∀ (g : HostSess) (is is' : List (Fin hostMaxWorkers)),
      run punchRelease g (is ++ is') = run punchRelease (run punchRelease g is) is' :=
    fun g is is' => List.foldl_append
  unfold offerRoom roomOf roomSlots
  dsimp only
  rw [hstale, happend, happend]
  generalize run punchRelease s (staleSlots s cu cp) = g
  have hroom : (punchRoom g).1 = run punchRelease g (idleSlots g) ∧
      (punchRoom g).2 = punchSlotFind (run punchRelease g (idleSlots g)) := by
    unfold punchRoom idleSlots punchEvictIdle
    cases hslot : punchSlotFind g with
    | some i => exact ⟨rfl, hslot.symm⟩
    | none =>
        rw [if_neg (by simp)]
        cases punchOldest g fun c => c.punchResume.isNone && !offerQueuedUfrag g c.punchUfrag with
        | none => exact ⟨rfl, hslot.symm⟩
        | some i => exact ⟨rfl, rfl⟩
  cases hmade : punchRoom g with
  | mk g' slot =>
      rw [hmade] at hroom
      obtain ⟨rfl, rfl⟩ := hroom
      generalize run punchRelease g (idleSlots g) = g'
      unfold cappedSlots punchReapOldest
      cases hslot : punchSlotFind g' with
      | none =>
          rw [if_neg (by simp)]
          rfl
      | some pslot =>
          dsimp only
          by_cases hcap : punchParallelMax ≤ punchCount g' cu
          · rw [if_pos hcap, if_pos ⟨rfl, hcap⟩]
            cases punchOldest g' fun c => c.punchUfrag == cu with
            | none => rfl
            | some i => rfl
          · rw [if_neg hcap, if_neg fun h => hcap h.2]
            rfl

theorem NamesSound.of_kept {s s' : HostSess} (h : NamesSound s) (hs : PunchesKept s s') :
    NamesSound s' := by
  intro i c hc
  obtain ⟨hold, hpunch, hclaim⟩ := hs i c hc
  rw [hpunch, hclaim]
  exact h i c hold

theorem spare_mono {s s' : HostSess} {past : Multiset Bytes} {u : Bytes}
    (h : holders ⟨s', past⟩ ≤ holders ⟨s, past⟩) (hu : Spare ⟨s', past⟩ u) :
    Spare ⟨s, past⟩ u :=
  ⟨hu.1, hu.2.trans (Multiset.count_le_of_le u h)⟩

/-- What the punches released in turn leave, where each of them may end. -/
structure Released (s : HostSess) (past : Multiset Bytes) (s' : HostSess) : Prop where
  resume : ResumeInv s'
  names : NamesSound s'
  exact : Exact ⟨s', past⟩
  holders : holders ⟨s', past⟩ ≤ holders ⟨s, past⟩
  grant : s'.admitMax = s.admitMax

theorem Released.tally_le {s s' : HostSess} {past : Multiset Bytes} (h : Released s past s') :
    tally [] (Session.holders ⟨s', past⟩) ≤ tally [] (Session.holders ⟨s, past⟩) :=
  Lib.tally_le (fun _ _ ha => Multiset.mem_of_le h.holders ha)
    (Multiset.count_le_of_le [] h.holders)

theorem released_run {s : HostSess} {past : Multiset Bytes} (hs : ResumeInv s)
    (hnames : NamesSound s) (h : Exact ⟨s, past⟩) {is : List (Fin hostMaxWorkers)}
    (hends : ∀ i ∈ is, EndsRight ⟨s, past⟩ i) : Released s past (run punchRelease s is) := by
  induction is generalizing s with
  | nil => exact ⟨hs, hnames, h, le_refl _, rfl⟩
  | cons i is ih =>
      rw [List.forall_mem_cons] at hends
      have hback := punchRelease_spec s i
      have hle : holders ⟨punchRelease s i, past⟩ ≤ holders ⟨s, past⟩ := by
        rw [hback.dropped.holders_eq past]
        exact Multiset.le_add_left _ _
      have hrest : ∀ k ∈ is, EndsRight ⟨punchRelease s i, past⟩ k := by
        intro k hk u hu hspare
        have hname : punchName s k = some u := by
          have hu' : punchName (punchRelease s i) k = some u := hu
          rw [hback.dropped.punchName_eq] at hu'
          by_cases hki : k = i
          · rw [hki, Function.update_self] at hu'
            cases hu'
          · rwa [Function.update_of_ne hki] at hu'
        exact hends.2 k hk u hname (spare_mono hle hspare)
      have hdone := ih (punchRelease_inv s i hs) (hnames.of_kept (.punchRelease s i))
        (h.giveBack hback hends.1) hrest
      rw [run_cons]
      exact ⟨hdone.resume, hdone.names, hdone.exact, hdone.holders.trans hle,
        hdone.grant.trans hback.dropped.grant⟩

/-- A claimant with a punch in flight under its name holds an admission. -/
theorem holds_of_ufragAdmitted {s : HostSess} (hs : ResumeInv s) (hnames : NamesSound s)
    (past : Multiset Bytes) {cu : Bytes} (h : ufragAdmitted s cu = true) :
    cu ∈ holders ⟨s, past⟩ := by
  unfold ufragAdmitted at h
  rw [Bool.and_eq_true, bne_iff_ne, Option.isSome_iff_exists] at h
  obtain ⟨hcu, i, hfind⟩ := h
  have hspec := firstSlot_spec hfind
  rw [Option.any_eq_true] at hspec
  obtain ⟨c, hc, hname⟩ := hspec
  rw [beq_iff_eq] at hname
  have hclaim : (s.conn c).claimUfrag = cu := by
    rcases hnames i c hc with heq | hlost
    · rw [← heq, hname]
    · rw [hlost] at hname
      exact absurd hname.symm hcu
  unfold holders
  rw [Multiset.mem_add, Multiset.mem_add, mem_filled, mem_filled]
  left
  cases hresume : (s.conn c).punchResume with
  | none => exact .inr ⟨i, punchName_eq_some.mpr ⟨c, hc, hresume, hclaim⟩⟩
  | some t =>
      -- a punch that resumes a worker is known by the worker's hold
      obtain ⟨j, hj⟩ := hs.target i t ((resumeOf_some hc).trans hresume)
      refine .inl ⟨j, ?_⟩
      unfold workerName
      rw [hj, Option.map_some, (hs.whose i c t hc hresume).1, hclaim]

/-- A punch taken counts an admission exactly where its claimant held none. -/
theorem exact_taken {s s' : HostSess} {past : Multiset Bytes} {i : Fin hostMaxWorkers}
    {pc : ConnId} {whom : Option ConnId} {cu : Bytes} (hs : ResumeInv s) (hnames : NamesSound s)
    (h : Exact ⟨s, past⟩) (htaken : Taken s i pc whom cu s') (hcu : cu ≠ [])
    (hright : whom = none → cu ∈ holders ⟨s, past⟩ → ufragAdmitted s cu = true) :
    Exact ⟨s', past⟩ := by
  have hholders := htaken.holders_eq hs.once past
  have hadmitted := htaken.admitted
  unfold Exact at h ⊢
  show s'.admittedN = _
  rw [hholders, hadmitted]
  cases whom with
  | some t =>
      rw [if_pos (.inl rfl), if_neg (by simp), slotHolds, zero_add]
      exact h
  | none =>
      rw [if_pos rfl, slotHolds, Multiset.singleton_add]
      by_cases hknown : ufragAdmitted s cu = true
      · have hspare : ¬Adds [] (holders ⟨s, past⟩) cu := by
          rintro (hnil | hnot)
          · exact hcu hnil
          · exact hnot (holds_of_ufragAdmitted hs hnames past hknown)
        rw [if_pos (.inr hknown), tally_spare hspare]
        exact h
      · rw [if_neg (by simp [hknown])]
        exact exact_more h (.inr fun hmem => hknown (hright rfl hmem))

/-- A punch that counts an admission is taken within the budget: its claimant was known, or
the budget was not spent. -/
theorem within_taken {max : Int} {s : HostSess} {past : Multiset Bytes}
    (h : CountInv max ⟨s, past⟩) (hnames : NamesSound s) {room : HostSess}
    (hroom : Released s past room) {cu : Bytes} (hbudget : budgetSpent s cu = false)
    (hworker : workerByUfrag s cu = none) (hadds : Adds [] (holders ⟨room, past⟩) cu)
    (hcu : cu ≠ []) (hpos : 0 < max) : room.admittedN + 1 ≤ max := by
  have hexact : s.admittedN = tally [] (holders ⟨s, past⟩) := h.exact
  have hwithin : s.admittedN ≤ max := h.within hpos
  have hlimit : s.admitMax = max := h.limit
  rw [exact_more hroom.exact hadds]
  by_cases hknown : ufragAdmitted s cu = true
  · -- the claimant held an admission before room was made
    have hmem := holds_of_ufragAdmitted h.resume hnames past hknown
    have htally : tally [] (cu ::ₘ holders ⟨room, past⟩) ≤ tally [] (holders ⟨s, past⟩) := by
      apply tally_le
      · intro a _ ha
        rcases Multiset.mem_cons.mp ha with rfl | ha
        · exact hmem
        · exact Multiset.mem_of_le hroom.holders ha
      · rw [Multiset.count_cons_of_ne (Ne.symm hcu)]
        exact Multiset.count_le_of_le [] hroom.holders
    omega
  · have hleft : s.admittedN < max := by
      unfold budgetSpent at hbudget
      rw [hworker, hlimit] at hbudget
      simpa [hknown, hpos.ne'] using hbudget
    have htally := hroom.tally_le
    rw [tally_cons, if_pos hadds]
    push_cast
    omega

theorem countInv_offerTurn (C : Candpack) {max : Int} {s : HostSess} {past : Multiset Bytes}
    (h : CountInv max ⟨s, past⟩) (hnames : NamesSound s) {idx : Fin rdvHostMax} {e : TakeIn}
    (hright : TakeRight ⟨s, past⟩ idx e) : CountInv max ⟨offerTurn C s idx e, past⟩ := by
  rcases offerTurn_cases C s idx e with hsame | ⟨hpunches, hend⟩
  · exact h.of_same hsame
  obtain ⟨hends, hknown⟩ := hright hpunches
  have hroom := released_run h.resume hnames h.exact hends
  dsimp only at hend hknown
  rw [offerRoom_fst] at hend
  generalize hcu : candSdpUfrag (s.offers idx).sdp = cu at *
  generalize sdpPwd (s.offers idx).sdp = cp at *
  have hcu' : cu ≠ [] := hcu ▸ hpunches.2.1
  change Released s past (roomOf s cu cp) at hroom
  have hgiven : CountInv max ⟨{ roomOf s cu cp with listen := none }, past⟩ := by
    refine ⟨hroom.resume.giveUp, hroom.exact, hroom.grant.trans h.limit, ?_⟩
    show 0 < max → (roomOf s cu cp).admittedN ≤ max
    rw [show (roomOf s cu cp).admittedN = _ from hroom.exact]
    intro hpos
    have htally := hroom.tally_le
    have hexact : s.admittedN = tally [] (holders ⟨s, past⟩) := h.exact
    have hwithin : s.admittedN ≤ max := h.within hpos
    omega
  rcases hend with ⟨-, heq⟩ | ⟨pslot, -, hend⟩
  · rw [heq]
    exact ⟨hroom.resume, hroom.exact, hgiven.limit, hgiven.within⟩
  split_ifs at hend with hprime
  swap
  · exact hgiven.of_same hend
  obtain ⟨pc, htaken⟩ := hend
  refine ⟨offerTurn_inv C h.resume idx e, ?_, ?_, ?_⟩
  · exact exact_taken hroom.resume hroom.names hroom.exact htaken hcu' (hknown hprime)
  · exact htaken.grant.trans hgiven.limit
  · show 0 < max → (offerTurn C s idx e).admittedN ≤ max
    rw [htaken.admitted]
    intro hpos
    split_ifs with hmore
    · exact hgiven.within hpos
    · rw [not_or, Bool.not_eq_true, Option.isSome_eq_false_iff, Option.isNone_iff_eq_none] at hmore
      refine within_taken h hnames hroom (hcu ▸ hpunches.2.2.2.1) hmore.1 ?_ hcu' hpos
      exact .inr fun hmem => hmore.2 (hknown hprime hmore.1 hmem)

/-! ## Over a run -/

/-- No admission is counted. -/
structure NoneMore (s s' : HostSess) : Prop where
  admitted : s'.admittedN ≤ s.admittedN
  grant : s'.admitMax = s.admitMax

theorem admittedAfter_le (n : Int) : admittedAfter n ≤ n := by
  unfold admittedAfter
  split_ifs <;> omega

theorem SamePlaces.noneMore {s s' : HostSess} (h : SamePlaces s s') : NoneMore s s' :=
  ⟨h.admitted.le, h.grant⟩

theorem GivenBack.noneMore {s s' : HostSess} {i : Fin hostMaxWorkers} (h : GivenBack s i s') :
    NoneMore s s' := by
  refine ⟨?_, h.dropped.grant⟩
  rw [h.admitted]
  split_ifs
  · exact admittedAfter_le _
  · exact le_refl _

theorem noneMore_scan {s : HostSess} (hs : ResumeInv s) (i : Fin hostMaxWorkers) (e : ScanIn) :
    NoneMore s (scanSlot s i e) := by
  rcases scanSlot_cases s i e with hsame | ⟨c, hi, -, ⟨hback, -⟩ | hspawn⟩
  · exact hsame.noneMore
  · exact hback.noneMore
  · obtain ⟨-, -, -, g, hdrop, -, hadmitted, hend⟩ := hspawn
    split_ifs at hend
    · obtain ⟨j, hentered⟩ := hend (hs.not_live_of_dropped hdrop hi)
      exact ⟨(hentered.admitted.trans hadmitted).le, hentered.grant.trans hdrop.grant⟩
    · exact ⟨(hend.admitted.trans hadmitted).le, hend.grant.trans hdrop.grant⟩

theorem noneMore_pass (s : HostSess) (j : Fin hostMaxWorkers) : NoneMore s (workerPass s j) := by
  rcases workerPass_cases s j with ⟨-, hsame⟩ | ⟨-, -, hreaped⟩
  · exact hsame.noneMore
  · refine ⟨?_, hreaped.grant⟩
    rw [hreaped.admitted]
    split_ifs
    · exact le_refl _
    · exact admittedAfter_le _

theorem CountInv.noneMore {max : Int} {s s' : HostSess} {past past' : Multiset Bytes}
    (h : CountInv max ⟨s, past⟩) (hs : ResumeInv s') (hexact : Exact ⟨s', past'⟩)
    (hnone : NoneMore s s') : CountInv max ⟨s', past'⟩ :=
  ⟨hs, hexact, hnone.grant.trans h.limit, fun hpos => hnone.admitted.trans (h.within hpos)⟩

/-- What every step that keeps the count right keeps up. -/
theorem countInv_step (C : Candpack) {max : Int} {l : Ledger} (h : CountInv max l)
    (hnames : NamesSound l.s) {op : SessOp} (hright : KeepsCount l op) :
    CountInv max (ledgerStep C l op) := by
  obtain ⟨s, past⟩ := l
  -- only the pass over a worker adds to those reaped
  have hpast : (∀ j, op ≠ .pass j) → ledgerStep C ⟨s, past⟩ op = ⟨sessStep C s op, past⟩ := by
    intro hpass
    have hnone : reapedProven s op = none := by
      cases op with
      | pass j => exact absurd rfl (hpass j)
      | _ => rfl
    unfold ledgerStep
    rw [hnone, slotHolds, zero_add]
  by_cases hleaves : leavesPlaces op = true
  · rw [hpast]
    · exact h.of_same (sessStep_samePlaces C s hleaves)
    · rintro j rfl
      cases hleaves
  cases op with
  | drain es =>
      rw [hpast fun _ => SessOp.noConfusion]
      exact (countInv_lanLoop h s.lanPending es hright).of_same (.of_eq rfl)
  | gather c =>
      rw [hpast fun _ => SessOp.noConfusion]
      rcases gather_cases C s c with heq | ⟨g, hlive, halloc, hadmitted, hentered⟩
      · rw [heq]
        exact h
      · refine h.noneMore (hentered.inv (halloc.inv h.resume hlive) halloc.zero) ?_ ?_
        · unfold Exact
          rw [hentered.holders_listen, halloc.holders_eq hlive]
          exact hentered.admitted.trans (hadmitted.trans h.exact)
        · exact ⟨(hentered.admitted.trans hadmitted).le, hentered.grant.trans halloc.grant⟩
  | giveUp =>
      rw [hpast fun _ => SessOp.noConfusion]
      exact ⟨h.resume.giveUp, h.exact, h.limit, h.within⟩
  | take idx e =>
      rw [hpast fun _ => SessOp.noConfusion]
      exact countInv_offerTurn C h hnames hright
  | scan i e =>
      rw [hpast fun _ => SessOp.noConfusion]
      exact h.noneMore (scanSlot_inv s i e h.resume) (exact_scan h.resume h.exact hright)
        (noneMore_scan h.resume i e)
  | release i =>
      rw [hpast fun _ => SessOp.noConfusion]
      have hback := punchRelease_spec s i
      exact h.noneMore (punchRelease_inv s i h.resume) (h.exact.giveBack hback hright)
        hback.noneMore
  | pass j =>
      exact h.noneMore (sessStep_resumeInv C s (.pass j) h.resume)
        (exact_pass C h.resume h.exact hright) (noneMore_pass s j)
  | _ => exact absurd rfl hleaves

theorem sessInit_namesSound (cid : Cid) (gen : UInt32) (admitMax stuck : Int) :
    NamesSound (sessInit cid gen admitMax stuck) := fun _ _ h => nomatch h

theorem ledgerInit_countInv (cid : Cid) (gen : UInt32) (admitMax stuck : Int) :
    CountInv admitMax (ledgerInit cid gen admitMax stuck) := by
  refine ⟨sessInit_resumeInv cid gen admitMax stuck, ?_, rfl, fun hpos => hpos.le⟩
  have hworker : ∀ j, workerName (sessInit cid gen admitMax stuck) j = none := fun _ => rfl
  have hpunch : ∀ i, punchName (sessInit cid gen admitMax stuck) i = none := fun _ => rfl
  have hnobody : holders (ledgerInit cid gen admitMax stuck) = 0 := by
    simp [holders, filled, ledgerInit, hworker, hpunch, slotHolds]
  unfold Exact
  rw [hnobody]
  rfl

/-- Over every run whose steps keep the count right, the number of admissions is the number
of claimants that hold one: a worker that runs, a punch in flight that resumes nothing or a
worker reaped after it proved itself.  So no more are admitted than the grant allows. -/
theorem admitted_count (C : Candpack) (cid : Cid) (gen : UInt32) (admitMax stuck : Int)
    (ops : List SessOp)
    (hright : EveryStep (ledgerStep C) KeepsCount (ledgerInit cid gen admitMax stuck) ops) :
    let l := run (ledgerStep C) (ledgerInit cid gen admitMax stuck) ops
    l.s = run (sessStep C) (sessInit cid gen admitMax stuck) ops ∧
      l.s.admittedN = tally [] (holders l) ∧
      (0 < admitMax → tally [] (holders l) ≤ admitMax) := by
  intro l
  have hinv : CountInv admitMax l ∧ NamesSound l.s := by
    refine run_invariant_of_everyStep (I := fun l => CountInv admitMax l ∧ NamesSound l.s) ?_
      ⟨ledgerInit_countInv cid gen admitMax stuck, sessInit_namesSound cid gen admitMax stuck⟩
      hright
    rintro l op ⟨hcount, hnames⟩ hop
    exact ⟨countInv_step C hcount hnames hop, namesSound_step C l.s op hnames⟩
  have hexact : l.s.admittedN = tally [] (holders l) := hinv.1.exact
  refine ⟨run_ledgerStep C _ ops, hexact, ?_⟩
  intro hpos
  rw [← hexact]
  exact hinv.1.within hpos

/-- A claimant is admitted under a grant of one, and its punch connects. -/
def oneAdmitted (starts : Bool) : List SessOp :=
  let take : TakeIn := { ready := true, localSdp := [1], primes := true, now := 0 }
  [.subscribe true, .read (namedOffer 1 'p') 1 false, .gather 1, .take entryZero take,
    .scan slotZero { connected := true, failed := false, starts := starts }]

/-- The worker proves itself and is reaped: the grant is spent on its claimant. -/
theorem admitted_count_served :
    let l := run (ledgerStep plainPack) (ledgerInit (Vector.replicate 8 1) 1 1 0)
      (oneAdmitted true ++ [.link 1 true false, .ended slotZero, .pass slotZero])
    l.s.admittedN = tally [] (holders l) ∧ tally [] (holders l) = 1 := by
  have hcount := admitted_count plainPack (Vector.replicate 8 1) 1 1 0
    (oneAdmitted true ++ [SessOp.link 1 true false, .ended slotZero, .pass slotZero]) (by decide)
  exact ⟨hcount.2.1, by decide⟩

/-- No thread can be started for the worker: nobody holds the admission, which stays spent. -/
theorem admitted_spawnFails :
    let l := run (ledgerStep plainPack) (ledgerInit (Vector.replicate 8 1) 1 1 0)
      (oneAdmitted false)
    l.s.admittedN = 1 ∧ tally [] (holders l) = 0 := by
  decide

end Session
end Comrade
