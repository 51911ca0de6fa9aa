import Comrade.Session.Offer

/-!
# Telling a claimant that it starts afresh

A claimant that was served before and is admitted again thought it was resuming.
`punch_scan` says otherwise to it before it is served, where the log of claimants served
still has the name its punch goes by.

* `scanActs` is what one turn of `punch_scan` does for a claimant it admits, in order.
* `sessStep_names` says once what a step can do to the names of the punches in flight: a
  punch is taken under its claimant's name, and only the reaping of a worker takes it away.
* `returning_told_iff`: the scans that fail to tell a claimant are exactly those that come
  upon a punch whose name a reaping took.
-/

namespace Comrade
namespace Session

open Lib Rdv

/-! ## What a turn does -/

/-- `claim_served_has`. -/
def claimServedHas (l : ClaimServed) (ufrag : Bytes) : Bool := (servedFind l ufrag).isSome

/-- What a turn of `punch_scan` does for a claimant: `conn_tell_fresh`, and the worker that
`worker_spawn` starts. -/
inductive ScanAct where
  | tellFresh (c : ConnId)
  | spawn (c : ConnId)
  deriving DecidableEq

/-- The acts of one turn of `punch_scan`, in order. -/
def scanActs (s : HostSess) (i : Fin hostMaxWorkers) (e : ScanIn) : List ScanAct :=
  match s.punching i with
  | none => []
  | some c =>
      let pc := s.conn c
      if pc.punchStuck = false ∧ e.connected = true then
        match pc.punchResume.or (workerByUfrag s pc.punchUfrag) with
        | some _ => []
        | none =>
            (if claimServedHas s.served pc.punchUfrag = true then [.tellFresh c] else []) ++
              if (workerSpawn s c e.starts).2 = true then [.spawn c] else []
      else []

/-- A turn that spawns a worker for the connection. -/
theorem spawn_mem_scanActs {s : HostSess} {i : Fin hostMaxWorkers} {e : ScanIn} {c : ConnId}
    (h : .spawn c ∈ scanActs s i e) :
    s.punching i = some c ∧
      scanActs s i e =
        (if claimServedHas s.served (s.conn c).punchUfrag = true then [.tellFresh c] else []) ++
          [.spawn c] := by
  unfold scanActs at h ⊢
  cases hp : s.punching i with
  | none => simp [hp] at h
  | some d =>
      simp only [hp] at h ⊢
      split at h
      swap
      · simp at h
      rename_i hconn
      rw [if_pos hconn]
      cases htarget : (s.conn d).punchResume.or (workerByUfrag s (s.conn d).punchUfrag) with
      | some t => simp [htarget] at h
      | none =>
          simp only [htarget] at h ⊢
          by_cases hstart : (workerSpawn s d e.starts).2 = true
          · rw [if_pos hstart] at h ⊢
            have hcd : c = d := by
              rw [List.mem_append] at h
              rcases h with h | h
              · split at h <;> simp at h
              · simpa using h
            subst hcd
            exact ⟨rfl, rfl⟩
          · rw [if_neg hstart, List.append_nil] at h
            split at h <;> simp at h

/-- A worker that starts takes an entry that was free. -/
theorem workerSpawn_entry {s s' : HostSess} {c : ConnId} {starts : Bool} (hws : s'.ws = s.ws)
    (h : (workerSpawn s c starts).2 = true) :
    ∃ j, (s.ws j).used = false ∧
      (workerSpawn s' c starts).1.ws j =
        { used := true, done := false, released := false, c := c } := by
  unfold workerSpawn at h ⊢
  rw [hws]
  cases hfree : firstSlot s.ws fun w => !w.used with
  | none => simp [hfree] at h
  | some j =>
      have hj := (firstSlot_eq_some_iff.mp hfree).1
      cases starts with
      | false => simp [hfree] at h
      | true => exact ⟨j, by simpa using hj, Function.update_self ..⟩

/-- The worker of a turn stands in the table after it. -/
theorem scanSlot_spawns {s : HostSess} {i : Fin hostMaxWorkers} {e : ScanIn} {c : ConnId}
    (h : .spawn c ∈ scanActs s i e) :
    ∃ j, (s.ws j).used = false ∧
      (scanSlot s i e).ws j = { used := true, done := false, released := false, c := c } := by
  obtain ⟨hp, -⟩ := spawn_mem_scanActs h
  unfold scanActs at h
  unfold scanSlot
  simp only [hp] at h ⊢
  split at h
  swap
  · simp at h
  rename_i hconn
  rw [if_pos hconn]
  have hby : workerByUfrag { s with lastServedUfrag := (s.conn c).punchUfrag, haveServed := true }
      (s.conn c).punchUfrag = workerByUfrag s (s.conn c).punchUfrag := rfl
  simp only [hby]
  cases htarget : (s.conn c).punchResume.or (workerByUfrag s (s.conn c).punchUfrag) with
  | some t => simp [htarget] at h
  | none =>
      simp only [htarget] at h ⊢
      refine workerSpawn_entry (s := s) rfl ?_
      by_contra hfails
      rw [if_neg hfails, List.append_nil] at h
      split at h <;> simp at h

/-! ## The names of the punches in flight -/

/-- Every punch of the second session is one of the first, under the same names. -/
def PunchesKept (s s' : HostSess) : Prop :=
  ∀ i c, s'.punching i = some c →
    s.punching i = some c ∧ (s'.conn c).punchUfrag = (s.conn c).punchUfrag ∧
      (s'.conn c).claimUfrag = (s.conn c).claimUfrag

theorem PunchesKept.of_eq {s s' : HostSess} (hp : s'.punching = s.punching)
    (hc : s'.conn = s.conn) : PunchesKept s s' := by
  intro i c h
  rw [hp] at h
  rw [hc]
  exact ⟨h, rfl, rfl⟩

theorem PunchesKept.trans {s s' s'' : HostSess} (h : PunchesKept s s') (h' : PunchesKept s' s'') :
    PunchesKept s s'' := by
  intro i c hc
  obtain ⟨hc', hpunch', hclaim'⟩ := h' i c hc
  obtain ⟨hc, hpunch, hclaim⟩ := h i c hc'
  exact ⟨hc, hpunch'.trans hpunch, hclaim'.trans hclaim⟩

/-- An edit that leaves the names alone. -/
theorem PunchesKept.edit (s : HostSess) (t : ConnId) {g : Conn → Conn}
    (hpunch : ∀ w, (g w).punchUfrag = w.punchUfrag)
    (hclaim : ∀ w, (g w).claimUfrag = w.claimUfrag) :
    PunchesKept s (s.edit t g) := by
  intro i c h
  refine ⟨h, ?_⟩
  show (Function.update s.conn t (g (s.conn t)) c).punchUfrag = _ ∧
    (Function.update s.conn t (g (s.conn t)) c).claimUfrag = _
  by_cases hct : c = t
  · subst hct
    rw [Function.update_self]
    exact ⟨hpunch _, hclaim _⟩
  · rw [Function.update_of_ne hct]
    exact ⟨rfl, rfl⟩

theorem PunchesKept.punchClear (s : HostSess) (i : Fin hostMaxWorkers) :
    PunchesKept s (s.punchClear i) := by
  intro j c h
  have hj : Function.update s.punching i none j = some c := h
  by_cases hji : j = i
  · rw [hji, Function.update_self] at hj
    cases hj
  · rw [Function.update_of_ne hji] at hj
    exact ⟨hj, rfl, rfl⟩

theorem PunchesKept.admittedLess (s : HostSess) : PunchesKept s s.admittedLess := by
  unfold HostSess.admittedLess
  split
  · exact .of_eq rfl rfl
  · exact .of_eq rfl rfl

/-- Giving back what a punch held, a resumption or an admission. -/
theorem PunchesKept.giveBack (s : HostSess) (resume : Option ConnId) :
    PunchesKept s
      (match resume with
      | some t => s.edit t fun w => { w with resumePending := w.resumePending - 1 }
      | none => s.admittedLess) := by
  cases resume with
  | none => exact .admittedLess s
  | some t => exact .edit s t (fun _ => rfl) fun _ => rfl

theorem PunchesKept.setRh (s : HostSess) (p : Prop) [Decidable p] (rh : RdvHost) :
    PunchesKept s (if p then { s with rh := rh } else s) := by
  split
  · exact .of_eq rfl rfl
  · exact .of_eq rfl rfl

theorem PunchesKept.punchRelease (s : HostSess) (i : Fin hostMaxWorkers) :
    PunchesKept s (punchRelease s i) := by
  unfold Session.punchRelease
  cases hp : s.punching i with
  | none => exact .of_eq rfl rfl
  | some c =>
      exact (PunchesKept.giveBack s (s.conn c).punchResume).trans
        ((PunchesKept.setRh _ _ _).trans (.punchClear _ i))

theorem PunchesKept.punchDrop (s : HostSess) (pc : Conn) (i : Fin hostMaxWorkers) :
    PunchesKept s (punchDrop s pc i) :=
  (PunchesKept.giveBack s pc.punchResume).trans (.punchClear _ i)

theorem PunchesKept.workerSpawn (s : HostSess) (c : ConnId) (starts : Bool) :
    PunchesKept s (workerSpawn s c starts).1 := by
  unfold Session.workerSpawn
  split
  · exact .of_eq rfl rfl
  · split
    · exact .of_eq rfl rfl
    · exact .of_eq rfl rfl

theorem PunchesKept.of_workerSpawn {s g g' : HostSess} {c : ConnId} {starts ran : Bool}
    (h : PunchesKept s g) (hw : Session.workerSpawn g c starts = (g', ran)) : PunchesKept s g' := by
  have hkept := PunchesKept.workerSpawn g c starts
  rw [hw] at hkept
  exact h.trans hkept

theorem PunchesKept.scanSlot (s : HostSess) (i : Fin hostMaxWorkers) (e : ScanIn) :
    PunchesKept s (scanSlot s i e) := by
  unfold Session.scanSlot
  cases hp : s.punching i with
  | none => exact .of_eq rfl rfl
  | some c =>
      simp only
      split
      · split
        · -- handed to the worker that serves the claimant
          refine PunchesKept.trans ?_ (.punchDrop _ _ i)
          refine PunchesKept.trans (.of_eq rfl rfl) (.edit _ _ (fun _ => rfl) fun _ => rfl)
        · refine PunchesKept.trans ?_ (.workerSpawn _ c e.starts)
          exact (PunchesKept.punchClear s i).trans (.of_eq rfl rfl)
      · split
        · exact .punchDrop s _ i
        · exact .of_eq rfl rfl

/-- A place that no punch holds may be written. -/
theorem PunchesKept.alloc {s : HostSess} {c : ConnId} (hfree : connLive s c = false) (x : Conn) :
    PunchesKept s { s with conn := Function.update s.conn c x } := by
  intro i d hd
  have hdc : d ≠ c := by
    rintro rfl
    unfold connLive at hfree
    rw [Bool.or_eq_false_iff, Bool.or_eq_false_iff] at hfree
    have hnone : firstSlot s.punching (fun o => o == some d) = none := by
      simpa [isPunching] using hfree.1.2
    have hne := firstSlot_eq_none_iff.mp hnone i
    rw [show s.punching i = some d from hd] at hne
    simp at hne
  refine ⟨hd, ?_⟩
  show (Function.update s.conn c x d).punchUfrag = _ ∧ (Function.update s.conn c x d).claimUfrag = _
  rw [Function.update_of_ne hdc]
  exact ⟨rfl, rfl⟩

theorem PunchesKept.lanSpawn {s : HostSess} {c : ConnId} (hfree : connLive s c = false)
    (ufrag : Bytes) (slot : Fin hostMaxWorkers) (starts : Bool) :
    PunchesKept s (lanSpawn s ufrag slot c starts) := by
  -- the place is written, the claimant noted and the admission counted, before the spawn
  have hmarked : ∀ g : HostSess, PunchesKept g
      (if ufrag ≠ [] then { g with lastServedUfrag := ufrag, haveServed := true } else g) := by
    intro g
    split
    · exact .of_eq rfl rfl
    · exact .of_eq rfl rfl
  have hplaced := (PunchesKept.alloc hfree { connNew with claimUfrag := ufrag }).trans (hmarked _)
  unfold Session.lanSpawn
  simp only at hplaced ⊢
  split
  · rename_i hw
    refine PunchesKept.of_workerSpawn ?_ hw
    exact hplaced.trans (.of_eq rfl rfl)
  · rename_i hw
    refine PunchesKept.trans (PunchesKept.of_workerSpawn ?_ hw) (.of_eq rfl rfl)
    exact hplaced.trans (.of_eq rfl rfl)

theorem PunchesKept.lanAdmit (s : HostSess) (claim : LanClaim) (e : LanIn) :
    PunchesKept s (lanAdmit s claim e).1 := by
  unfold Session.lanAdmit
  split
  · exact .of_eq rfl rfl
  split
  · exact .of_eq rfl rfl
  split
  · exact .of_eq rfl rfl
  split
  · exact .of_eq rfl rfl
  split
  · exact .of_eq rfl rfl
  · rename_i hfree
    rw [not_or, Bool.not_eq_true] at hfree
    exact .lanSpawn hfree.1 claim.ufrag _ e.starts

theorem PunchesKept.lanLoop (s : HostSess) (claims : List LanClaim) (es : List LanIn) :
    PunchesKept s (lanLoop s claims es) := by
  induction claims generalizing s es with
  | nil => exact .of_eq rfl rfl
  | cons claim claims ih =>
      cases es with
      | nil => exact .of_eq rfl rfl
      | cons e es =>
          have hone := PunchesKept.lanAdmit s claim e
          unfold Session.lanLoop
          cases hgranted : Session.lanAdmit s claim e with
          | mk s' goes =>
              rw [hgranted] at hone
              cases goes with
              | true => exact hone.trans (ih s' es)
              | false => exact hone

/-- The session's calls that touch neither a punch nor a connection. -/
theorem PunchesKept.claimantRead (C : Candpack) (s : HostSess) (m : RdvMsg) (grade : UInt8)
    (wide : Bool) : PunchesKept s (claimantRead C s m grade wide) := by
  unfold Session.claimantRead onPeerOffer offersPush
  split
  · exact .of_eq rfl rfl
  split
  · exact .of_eq rfl rfl
  · simp only
    split
    · exact .of_eq rfl rfl
    · split
      · split
        · exact .of_eq rfl rfl
        · split
          · exact .of_eq rfl rfl
          · exact .of_eq rfl rfl
      · exact .of_eq rfl rfl

theorem PunchesKept.onDirectClaim (s : HostSess) (peer ufrag : Bytes) (active : Bool) :
    PunchesKept s (onDirectClaim s peer ufrag active) := by
  unfold Session.onDirectClaim offersDropUfrag
  split
  · exact .of_eq rfl rfl
  split
  · exact .of_eq rfl rfl
  split
  · exact .of_eq rfl rfl
  simp only
  split
  · exact .of_eq rfl rfl
  split
  · exact .of_eq rfl rfl
  · exact .of_eq rfl rfl

theorem PunchesKept.hostReanswer (C : Candpack) (s : HostSess) (fan : Bytes → Bytes) :
    PunchesKept s (hostReanswer C s fan) := by
  unfold Session.hostReanswer
  induction List.finRange hostMaxWorkers generalizing s with
  | nil => exact .of_eq rfl rfl
  | cons i is ih =>
      rw [List.foldl_cons]
      refine PunchesKept.trans ?_ (ih _)
      split
      · exact .of_eq rfl rfl
      · split
        · exact .of_eq rfl rfl
        · exact .of_eq rfl rfl

/-! ## What a step does to them -/

/-- Every punch of the second session goes by its claimant's name, or is one of the first
under the same names. -/
def PunchesNamed (s s' : HostSess) : Prop :=
  ∀ i c, s'.punching i = some c →
    (s'.conn c).punchUfrag = (s'.conn c).claimUfrag ∨
      (s.punching i = some c ∧ (s'.conn c).punchUfrag = (s.conn c).punchUfrag ∧
        (s'.conn c).claimUfrag = (s.conn c).claimUfrag)

theorem PunchesKept.named {s s' : HostSess} (h : PunchesKept s s') : PunchesNamed s s' :=
  fun i c hc => Or.inr (h i c hc)

theorem PunchesNamed.before {s s' s'' : HostSess} (h : PunchesKept s s')
    (h' : PunchesNamed s' s'') : PunchesNamed s s'' := by
  intro i c hc
  rcases h' i c hc with hnamed | ⟨hc', hpunch', hclaim'⟩
  · exact Or.inl hnamed
  · obtain ⟨hc, hpunch, hclaim⟩ := h i c hc'
    exact Or.inr ⟨hc, hpunch'.trans hpunch, hclaim'.trans hclaim⟩

theorem PunchesNamed.after {s s' s'' : HostSess} (h : PunchesNamed s s')
    (h' : PunchesKept s' s'') : PunchesNamed s s'' := by
  intro i c hc
  obtain ⟨hc', hpunch', hclaim'⟩ := h' i c hc
  rw [hpunch', hclaim']
  exact h i c hc'

/-- A place put in a slot with its two names made equal. -/
theorem PunchesNamed.takeSlot (s : HostSess) (pc : ConnId) (pslot : Fin hostMaxWorkers)
    {g : Conn → Conn} (hg : ∀ w, (g w).punchUfrag = (g w).claimUfrag) :
    PunchesNamed s
      ({ s with punching := Function.update s.punching pslot (some pc) }.edit pc g) := by
  intro i c hc
  by_cases hcp : c = pc
  · subst hcp
    left
    simp [HostSess.edit, hg]
  · right
    have hslot : Function.update s.punching pslot (some pc) i = some c := hc
    by_cases hi : i = pslot
    · rw [hi, Function.update_self, Option.some.injEq] at hslot
      exact absurd hslot.symm hcp
    · rw [Function.update_of_ne hi] at hslot
      refine ⟨hslot, ?_⟩
      simp [HostSess.edit, Function.update_of_ne hcp]

/-- A punch is taken under the name of its claimant. -/
theorem PunchesNamed.punchTake (s : HostSess) (pc : ConnId) (resume : Option ConnId)
    (pslot : Fin hostMaxWorkers) (cid : Cid) (cu cp : Bytes) (now : UInt64) :
    PunchesNamed s (punchTake s pc resume pslot cid cu cp now) := by
  unfold Session.punchTake
  cases resume with
  | some t =>
      refine PunchesNamed.before (PunchesKept.edit s t ?_ ?_) (.takeSlot _ pc pslot ?_)
      · exact fun _ => rfl
      · exact fun _ => rfl
      · exact fun _ => rfl
  | none =>
      simp only
      split
      · refine .takeSlot s pc pslot ?_
        exact fun _ => rfl
      · refine PunchesNamed.before (.of_eq rfl rfl) (.takeSlot _ pc pslot ?_)
        exact fun _ => rfl

theorem PunchesKept.offerDone (s : HostSess) (idx : Fin rdvHostMax) :
    PunchesKept s (s.offerDone idx) :=
  .of_eq rfl rfl

theorem PunchesNamed.offerPunch (C : Candpack) (s : HostSess) (idx : Fin rdvHostMax) (pc : ConnId)
    (resume : Option ConnId) (pslot : Fin hostMaxWorkers) (e : TakeIn) :
    PunchesNamed s (offerPunch C s idx pc resume pslot e) := by
  unfold Session.offerPunch
  simp only
  split
  · exact (PunchesKept.offerDone s idx).named
  · -- the stuck budget, the answer and the queue leave the names alone
    have hstuck : ∀ g : HostSess,
        PunchesKept g (if 0 < g.stuckLeft then { g with stuckLeft := g.stuckLeft - 1 } else g) := by
      intro g
      split
      · exact .of_eq rfl rfl
      · exact .of_eq rfl rfl
    have htaken := PunchesNamed.punchTake s pc resume pslot (s.offers idx).cid
      (candSdpUfrag (s.offers idx).sdp) (sdpPwd (s.offers idx).sdp) e.now
    have hkept : ∀ g : HostSess, PunchesKept g
        (g.edit pc fun c => { c with answerSdp := e.localSdp }) :=
      fun g => .edit g pc (fun _ => rfl) fun _ => rfl
    exact ((htaken.after (hstuck _)).after (hkept _)).after (.of_eq rfl rfl)

theorem PunchesNamed.hostOfferTake (C : Candpack) (s : HostSess) (idx : Fin rdvHostMax)
    (e : TakeIn) : PunchesNamed s (hostOfferTake C s idx e).1 := by
  unfold Session.hostOfferTake
  simp only
  split
  · exact (PunchesKept.offerDone s idx).named
  split
  · exact (PunchesKept.of_eq rfl rfl).named
  split
  · exact (PunchesKept.of_eq rfl rfl).named
  split
  · exact (PunchesKept.of_eq rfl rfl).named
  · rename_i pc _
    have hroom := offerRoom_induction (P := PunchesKept s)
      (fun g i hg => hg.trans (.punchRelease g i)) (.of_eq rfl rfl)
      (candSdpUfrag (s.offers idx).sdp) (sdpPwd (s.offers idx).sdp)
    split
    · rename_i hnone
      rw [hnone] at hroom
      exact hroom.named
    · rename_i hslot
      rw [hslot] at hroom
      exact PunchesNamed.before hroom (PunchesNamed.offerPunch C _ idx pc _ _ e)

theorem PunchesNamed.offerTurn (C : Candpack) (s : HostSess) (idx : Fin rdvHostMax) (e : TakeIn) :
    PunchesNamed s (offerTurn C s idx e) := by
  have htake := PunchesNamed.hostOfferTake C s idx e
  unfold Session.offerTurn
  split
  · exact (PunchesKept.of_eq rfl rfl).named
  · split
    · rename_i hspent
      rw [hspent] at htake
      exact htake
    · rename_i hspent
      rw [hspent] at htake
      exact htake.after (.of_eq rfl rfl)

/-- The step reaps a worker that served the claimant of that name. -/
def ReapsClaimant (s : HostSess) (op : SessOp) (ufrag : Bytes) : Prop :=
  ∃ i, op = .pass i ∧ (s.ws i).used = true ∧ (s.ws i).done = true ∧ ufrag ≠ [] ∧
    (s.conn (s.ws i).c).claimUfrag = ufrag

/-- A punch loses its name, or none does. -/
theorem punchUnnamed_names {s : HostSess} {ufrag : Bytes} {i : Fin hostMaxWorkers} {c : ConnId}
    (h : (punchUnnamed s ufrag).punching i = some c) :
    s.punching i = some c ∧
      ((punchUnnamed s ufrag).conn c).claimUfrag = (s.conn c).claimUfrag ∧
      (((punchUnnamed s ufrag).conn c).punchUfrag = (s.conn c).punchUfrag ∨
        (((punchUnnamed s ufrag).conn c).punchUfrag = [] ∧ ufrag ≠ [] ∧
          (s.conn c).punchUfrag = ufrag)) := by
  unfold punchUnnamed at h ⊢
  by_cases hu : ufrag = []
  · rw [if_pos hu] at h ⊢
    exact ⟨h, rfl, Or.inl rfl⟩
  rw [if_neg hu] at h ⊢
  cases hfind : (punchFind s fun c => c.punchUfrag == ufrag).bind s.punching with
  | none =>
      rw [hfind] at h
      exact ⟨h, rfl, Or.inl rfl⟩
  | some d =>
      rw [hfind] at h
      have hd : (s.conn d).punchUfrag = ufrag := by
        rw [Option.bind_eq_some_iff] at hfind
        obtain ⟨j, hj, hjd⟩ := hfind
        have := firstSlot_spec hj
        rw [hjd] at this
        simpa using this
      refine ⟨h, ?_⟩
      show (Function.update s.conn d { s.conn d with punchUfrag := [] } c).claimUfrag = _ ∧
        ((Function.update s.conn d { s.conn d with punchUfrag := [] } c).punchUfrag = _ ∨
          (Function.update s.conn d { s.conn d with punchUfrag := [] } c).punchUfrag = [] ∧ _)
      by_cases hcd : c = d
      · subst hcd
        rw [Function.update_self]
        exact ⟨rfl, Or.inr ⟨rfl, hu, hd⟩⟩
      · rw [Function.update_of_ne hcd]
        exact ⟨rfl, Or.inl rfl⟩

/-- The punches lose no name with their target. -/
theorem PunchesKept.resumesLost (s : HostSess) (t : ConnId) : PunchesKept s (resumesLost s t) := by
  intro i c h
  refine ⟨h, ?_⟩
  unfold Session.resumesLost
  simp only
  split
  · exact ⟨rfl, rfl⟩
  · exact ⟨rfl, rfl⟩

/-- The session in which a reaping looks for the punch it takes the name from. -/
def reapTargets (s : HostSess) (i : Fin hostMaxWorkers) : HostSess :=
  resumesLost
    { s with lanConns := fun j => if s.lanConns j = some (s.ws i).c then none else s.lanConns j }
    (s.ws i).c

theorem PunchesKept.reapTargets (s : HostSess) (i : Fin hostMaxWorkers) :
    PunchesKept s (reapTargets s i) :=
  PunchesKept.trans (.of_eq rfl rfl) (.resumesLost _ (s.ws i).c)

/-- What a reaping does after it leaves the names alone. -/
theorem PunchesKept.workerReap (s : HostSess) (i : Fin hostMaxWorkers) :
    PunchesKept (punchUnnamed (Session.reapTargets s i) (s.conn (s.ws i).c).claimUfrag)
      (workerReap s i) := by
  have hserved : ∀ (g : HostSess) (p : Prop) [Decidable p],
      PunchesKept g (if p then { g with lastServedUfrag := [], haveServed := false } else g) := by
    intro g p _
    split
    · exact .of_eq rfl rfl
    · exact .of_eq rfl rfl
  have hless : ∀ (g : HostSess) (p : Prop) [Decidable p],
      PunchesKept g (if p then g else g.admittedLess) := by
    intro g p _
    split
    · exact .of_eq rfl rfl
    · exact .admittedLess g
  refine PunchesKept.trans ?_ (PunchesKept.of_eq rfl rfl)
  refine PunchesKept.trans ?_ (hless _ _)
  refine PunchesKept.trans ?_ (hserved _ _)
  exact .of_eq rfl rfl

/-- What a step can do to the names of a punch in flight: it goes by its claimant's name,
or as before, or lost its name to the reaping of its claimant's worker. -/
theorem sessStep_names (C : Candpack) {s : HostSess} {op : SessOp} {i : Fin hostMaxWorkers}
    {c : ConnId} (h : (sessStep C s op).punching i = some c) :
    ((sessStep C s op).conn c).punchUfrag = ((sessStep C s op).conn c).claimUfrag ∨
      (s.punching i = some c ∧
        ((sessStep C s op).conn c).claimUfrag = (s.conn c).claimUfrag ∧
        (((sessStep C s op).conn c).punchUfrag = (s.conn c).punchUfrag ∨
          (((sessStep C s op).conn c).punchUfrag = [] ∧
            ReapsClaimant s op (s.conn c).punchUfrag))) := by
  -- every step but a reaping keeps the names
  have hof : PunchesNamed s (sessStep C s op) →
      ((sessStep C s op).conn c).punchUfrag = ((sessStep C s op).conn c).claimUfrag ∨
      (s.punching i = some c ∧
        ((sessStep C s op).conn c).claimUfrag = (s.conn c).claimUfrag ∧
        (((sessStep C s op).conn c).punchUfrag = (s.conn c).punchUfrag ∨
          (((sessStep C s op).conn c).punchUfrag = [] ∧
            ReapsClaimant s op (s.conn c).punchUfrag))) := by
    intro hnamed
    rcases hnamed i c h with hn | ⟨hc, hpunch, hclaim⟩
    · exact Or.inl hn
    · exact Or.inr ⟨hc, hclaim, Or.inl hpunch⟩
  cases op with
  | read m grade wide => exact hof (PunchesKept.claimantRead C s m grade wide).named
  | claim peer ufrag active => exact hof (PunchesKept.onDirectClaim s peer ufrag active).named
  | drain es =>
      apply hof
      exact ((PunchesKept.lanLoop s s.lanPending es).trans (.of_eq rfl rfl)).named
  | subscribe on => exact hof (PunchesKept.of_eq rfl rfl).named
  | gather d =>
      apply hof
      unfold sessStep
      simp only
      split
      · exact (PunchesKept.of_eq rfl rfl).named
      · rename_i hfree
        rw [not_or, Bool.not_eq_true, Bool.not_eq_true] at hfree
        exact ((PunchesKept.alloc hfree.2 connNew).trans (.of_eq rfl rfl)).named
  | giveUp => exact hof (PunchesKept.of_eq rfl rfl).named
  | take idx e => exact hof (PunchesNamed.offerTurn C s idx e)
  | reanswer fan => exact hof (PunchesKept.hostReanswer C s fan).named
  | scan j e => exact hof (PunchesKept.scanSlot s j e).named
  | release j => exact hof (PunchesKept.punchRelease s j).named
  | ended j => exact hof (PunchesKept.of_eq rfl rfl).named
  | link d proven lost =>
      apply hof
      show PunchesNamed s (s.edit d fun w => { w with proven := proven, lost := lost })
      refine PunchesKept.named (PunchesKept.edit s d ?_ ?_)
      · exact fun _ => rfl
      · exact fun _ => rfl
  | sig hop =>
      apply hof
      unfold sessStep
      simp only
      exact (PunchesKept.setRh s _ _).named
  | pass j =>
      by_cases hdone : (s.ws j).used = true ∧ (s.ws j).done = true
      swap
      · apply hof
        show PunchesNamed s (workerPass s j)
        unfold workerPass
        rw [if_neg hdone]
        split
        · exact (PunchesKept.of_eq rfl rfl).named
        · exact (PunchesKept.of_eq rfl rfl).named
      right
      have hstep : sessStep C s (.pass j) = workerReap s j := if_pos hdone
      rw [hstep] at h ⊢
      obtain ⟨hc2, hpunch2, hclaim2⟩ := PunchesKept.workerReap s j i c h
      obtain ⟨hc1, hclaim1, hpunch1⟩ := punchUnnamed_names hc2
      obtain ⟨hc, hpunch, hclaim⟩ := PunchesKept.reapTargets s j i c hc1
      rw [hpunch2, hclaim2, hclaim1, hclaim]
      refine ⟨hc, rfl, ?_⟩
      rcases hpunch1 with hsame | ⟨hlost, hu, hname⟩
      · exact Or.inl (hsame.trans hpunch)
      · rw [hpunch] at hname
        exact Or.inr ⟨hlost, j, rfl, hdone.1, hdone.2, hname ▸ hu, hname.symm⟩

/-! ## Over a run -/

/-- The name a punch goes by is its claimant's, or was taken away. -/
def NamesSound (s : HostSess) : Prop :=
  ∀ i c, s.punching i = some c →
    (s.conn c).punchUfrag = (s.conn c).claimUfrag ∨ (s.conn c).punchUfrag = []

/-- Every punch goes by its claimant's name. -/
def NamesWhole (s : HostSess) : Prop :=
  ∀ i c, s.punching i = some c → (s.conn c).punchUfrag = (s.conn c).claimUfrag

theorem namesSound_step (C : Candpack) (s : HostSess) (op : SessOp) (h : NamesSound s) :
    NamesSound (sessStep C s op) := by
  intro i c hc
  rcases sessStep_names C hc with hnamed | ⟨hold, hclaim, hsame | ⟨hlost, -⟩⟩
  · exact Or.inl hnamed
  · rw [hsame, hclaim]
    exact h i c hold
  · exact Or.inr hlost

/-- The step reaps no worker while a punch for its claimant is in flight. -/
def ReapsAlone (s : HostSess) (op : SessOp) : Prop :=
  ∀ i c, s.punching i = some c → ¬ReapsClaimant s op (s.conn c).punchUfrag

theorem namesWhole_step (C : Candpack) (s : HostSess) (op : SessOp) (h : NamesWhole s)
    (halone : ReapsAlone s op) : NamesWhole (sessStep C s op) := by
  intro i c hc
  rcases sessStep_names C hc with hnamed | ⟨hold, hclaim, hsame | ⟨-, hreaps⟩⟩
  · exact hnamed
  · rw [hsame, hclaim]
    exact h i c hold
  · exact absurd hreaps (halone i c hold)

/-- The turn spawns a worker for a claimant that the log of those served still has. -/
def SpawnsReturning (s : HostSess) (i : Fin hostMaxWorkers) (e : ScanIn) (c : ConnId) : Prop :=
  .spawn c ∈ scanActs s i e ∧ claimServedHas s.served (s.conn c).claimUfrag = true

/-- A returning claimant is told before its worker is spawned. -/
def TellsReturning (s : HostSess) : SessOp → Prop
  | .scan i e => ∀ c, SpawnsReturning s i e c → [.tellFresh c, .spawn c].Sublist (scanActs s i e)
  | _ => True

/-- The punch of a returning claimant has not lost its name to a reaping. -/
def NamesReturning (s : HostSess) : SessOp → Prop
  | .scan i e => ∀ c, SpawnsReturning s i e c → (s.conn c).punchUfrag ≠ []
  | _ => True

theorem claimServedHas_nil (l : ClaimServed) : claimServedHas l [] = false := rfl

/-- Where the names are sound, a turn tells a returning claimant exactly when its punch
still has a name. -/
theorem tellsReturning_iff {s : HostSess} (h : NamesSound s) (op : SessOp) :
    TellsReturning s op ↔ NamesReturning s op := by
  cases op with
  | scan i e =>
      apply forall_congr'
      intro c
      apply forall_congr'
      rintro ⟨hspawn, hserved⟩
      obtain ⟨hc, hacts⟩ := spawn_mem_scanActs hspawn
      rw [hacts]
      rcases h i c hc with hnamed | hlost
      · have hname : (s.conn c).punchUfrag ≠ [] := by
          intro hnil
          rw [← hnamed, hnil, claimServedHas_nil] at hserved
          cases hserved
        rw [hnamed, if_pos hserved]
        rw [hnamed] at hname
        simp [hname]
      · rw [hlost, claimServedHas_nil]
        simp
  | _ => exact Iff.rfl

theorem namesReturning_of_whole {s : HostSess} (h : NamesWhole s) (op : SessOp) :
    NamesReturning s op := by
  cases op with
  | scan i e =>
      rintro c ⟨hspawn, hserved⟩ hnil
      rw [← h i c (spawn_mem_scanActs hspawn).1, hnil, claimServedHas_nil] at hserved
      cases hserved
  | _ => trivial

/-- Over every run of the turnstile, every returning claimant is told before it is served
if and only if no turn comes upon a returning claimant's punch that lost its name, and none
does where no worker is reaped while a punch for its claimant is in flight. -/
theorem returning_told_iff (C : Candpack) (cid : Cid) (gen : UInt32) (admitMax stuck : Int)
    (ops : List SessOp) :
    (EveryStep (sessStep C) TellsReturning (sessInit cid gen admitMax stuck) ops ↔
        EveryStep (sessStep C) NamesReturning (sessInit cid gen admitMax stuck) ops) ∧
      (EveryStep (sessStep C) ReapsAlone (sessInit cid gen admitMax stuck) ops →
        EveryStep (sessStep C) TellsReturning (sessInit cid gen admitMax stuck) ops) := by
  have hinit : NamesWhole (sessInit cid gen admitMax stuck) := fun i c h => nomatch h
  have hiff : EveryStep (sessStep C) (fun s op => TellsReturning s op ↔ NamesReturning s op)
      (sessInit cid gen admitMax stuck) ops :=
    everyStep_of_invariant (namesSound_step C) (fun s op h => tellsReturning_iff h op)
      (fun i c h => Or.inl (hinit i c h)) ops
  have hcongr := hiff.congr
  refine ⟨hcongr, ?_⟩
  intro halone
  rw [hcongr]
  exact everyStep_of_guarded_invariant (namesWhole_step C)
    (fun s op h _ => namesReturning_of_whole h op) hinit halone

/-- A packing whose first byte is its version. -/
def plainPack : Candpack where
  decode p := if p.head? = some 4 then some (p.drop 1) else none
  encode _ := some [4]
  encode_len _ packed h := by
    have hpacked : [4] = packed := Option.some.inj h
    subst hpacked
    decide

/-- An offer of the one client, under its name and a password. -/
def namedOffer (seq : UInt32) (pwd : Char) : RdvMsg :=
  { offerFrom (Vector.replicate 8 2) seq with
    payload := 4 :: ascii ['a', '=', 'i', 'c', 'e', '-', 'u', 'f', 'r', 'a', 'g', ':', 'u', ' ',
      'i', 'c', 'e', '-', 'p', 'w', 'd', ':', pwd] }

def slotZero : Fin hostMaxWorkers := ⟨0, Nat.succ_pos 15⟩

def entryZero : Fin rdvHostMax := ⟨0, Nat.succ_pos 15⟩

/-- A claimant is served and its worker ends.  It comes back, and the worker is reaped while
the punch for it is in flight. -/
def reapedRun : List SessOp :=
  let take : TakeIn := { ready := true, localSdp := [1], primes := true, now := 0 }
  [.subscribe true, .read (namedOffer 1 'p') 1 false, .gather 1, .take entryZero take,
    .scan slotZero { connected := true, failed := false, starts := true }, .ended slotZero,
    .read (namedOffer 2 'q') 1 false, .gather 2, .take entryZero take, .pass slotZero]

/-- The punch connects, and the claimant is served without being told. -/
theorem returning_reapedRun :
    ¬EveryStep (sessStep plainPack) TellsReturning (sessInit (Vector.replicate 8 1) 1 0 0)
      (reapedRun ++ [.scan slotZero { connected := true, failed := false, starts := true }]) := by
  intro h
  have hacts : scanActs (run (sessStep plainPack) (sessInit (Vector.replicate 8 1) 1 0 0) reapedRun)
      slotZero { connected := true, failed := false, starts := true } = [.spawn 2] := by
    decide
  have htold := h.last 2 ⟨by rw [hacts]; exact List.mem_singleton_self _, by decide⟩
  rw [hacts] at htold
  exact absurd htold.length_le (by decide)

end Session
end Comrade
