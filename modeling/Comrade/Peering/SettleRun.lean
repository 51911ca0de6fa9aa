import Comrade.Netstate.Locals
import Comrade.Peering.Settle

/-!
# When a deferred round is kicked

The pass that reaps a thread kicks the round deferred for it where the ending round was
stamped with the current epoch, where the family has somewhere new to ask, and where the
schedule of the family is due by itself; else the round waits
(`peeringSettle_deferred`).

Two facts of the schedule carry this over a run: a round that is wanted is not running and
not yet kicked, and a round that is kicked is not running (`Sched`).
-/

namespace Comrade
namespace Peering

open Lib Netstate

/-! ## The schedule of a family -/

/-- What a family's schedule is, and the kick it is owed. -/
def probeOf (f : NetFam) : UInt32 × Bool × Bool × UInt64 × UInt32 :=
  (f.pend &&& nsaKickProbe, f.probeRunning, f.probeWanted, f.probeNextMs, f.epoch)

/-- A round of the family is to be kicked. -/
def Kicked (f : NetFam) : Prop := f.pend &&& nsaKickProbe ≠ 0

/-- A round that is wanted or kicked is not running. -/
def Idle (f : NetFam) : Prop :=
  (Kicked f → f.probeRunning = false) ∧ (f.probeWanted = true → f.probeRunning = false)

/-- Between two operations a round that is wanted is not yet kicked. -/
def Sched (f : NetFam) : Prop := Idle f ∧ (f.probeWanted = true → ¬Kicked f)

theorem kick_raise (p bits : UInt32) :
    (p ||| bits) &&& nsaKickProbe = (p &&& nsaKickProbe) ||| (bits &&& nsaKickProbe) := by
  apply UInt32.eq_of_toBitVec_eq
  ext i hi
  simp [Bool.and_or_distrib_right]

theorem probeOf_acts : IgnoresActs probeOf := by
  intro f bits hbits
  simp only [probeOf, raiseAct, kick_raise, hbits, UInt32.or_zero]

theorem probeOf_source : IgnoresSource probeOf := fun _ _ _ _ _ _ _ => rfl

theorem probeOf_facts : IgnoresFacts probeOf := fun _ _ _ => rfl

theorem probeOf_rdv : IgnoresRdv probeOf := fun _ _ _ _ _ _ _ _ _ _ _ _ => rfl

theorem probeOf_conn : IgnoresConn probeOf := fun _ _ _ _ _ => rfl

theorem probeOf_addrs : IgnoresAddrs probeOf := fun _ _ _ => rfl

/-- The kick is one bit of the actions owed. -/
theorem kicked_iff {f : NetFam} : Kicked f ↔ f.pend.toBitVec.getLsbD 1 = true := by
  have hbit : ∀ k < 32, (f.pend &&& nsaKickProbe).toBitVec.getLsbD k =
      (decide (k = 1) && f.pend.toBitVec.getLsbD 1) := by
    intro k hk
    interval_cases k <;> simp [nsaKickProbe]
  constructor
  · intro h
    by_contra hnone
    rw [Bool.not_eq_true] at hnone
    apply h
    apply UInt32.eq_of_toBitVec_eq
    apply BitVec.eq_of_getLsbD_eq
    intro k hk
    rw [hbit k hk, hnone, Bool.and_false]
    simp
  · intro h hnone
    have hone := hbit 1 (by decide)
    rw [hnone, h] at hone
    cases hone

theorem kicked_raise (f : NetFam) : Kicked (raiseAct f nsaKickProbe) := by
  rw [kicked_iff]
  simp [raiseAct, nsaKickProbe]

theorem Idle.of_probeOf {f g : NetFam} (h : probeOf g = probeOf f) (hf : Idle f) : Idle g := by
  simp only [probeOf, Prod.mk.injEq] at h
  obtain ⟨hkick, hrun, hwant, -, -⟩ := h
  unfold Idle Kicked
  rw [hkick, hrun, hwant]
  exact hf

theorem Sched.of_probeOf {f g : NetFam} (h : probeOf g = probeOf f) (hf : Sched f) : Sched g := by
  refine ⟨hf.1.of_probeOf h, ?_⟩
  simp only [probeOf, Prod.mk.injEq] at h
  obtain ⟨hkick, -, hwant, -, -⟩ := h
  unfold Kicked
  rw [hkick, hwant]
  exact hf.2

/-- A call that is no part of a pass leaves the schedule. -/
theorem probeOf_plain (isHost : Bool) (i : Fam) (f : NetFam) {e : NetIn}
    (he : plainCall e = true) : probeOf (famStep isHost i f e) = probeOf f := by
  cases e with
  | netmon => cases he
  | probeStarted => cases he
  | probeDeferred => cases he
  | probeDone => cases he
  | servers => cases he
  | tick => cases he
  | takeActions => cases he
  | src family epoch addr scope text now =>
      exact addressed_keeps (view_onSrc probeOf_acts probeOf_source probeOf_conn _ _ _ _ _ _ f)
  | roundtrip family epoch =>
      exact addressed_keeps (view_onRoundtrip probeOf_acts probeOf_conn epoch f)
  | dhtAck family epoch node now =>
      have hup : probeOf (dhtAckUp isHost epoch f) = probeOf f :=
        view_dhtAckUp probeOf_acts probeOf_conn probeOf_facts isHost epoch f
      apply addressed_keeps
      unfold netstateOnDhtAck
      split
      · rfl
      simp only
      split
      · exact hup
      · rw [view_dhtAckNode probeOf_acts probeOf_rdv, hup]
  | anchorSeen family now => exact addressed_keeps (view_onAnchorSeen probeOf_rdv now f)
  | rdvOffered family node now =>
      exact addressed_keeps (view_anchorSet probeOf_acts probeOf_rdv node now false 0 f)
  | rdvVouched family node now =>
      exact addressed_keeps (view_onRdvVouched probeOf_acts probeOf_rdv isHost node now f)
  | setPicking family on => exact addressed_keeps (view_setPicking probeOf_rdv on f)
  | reflexive family epoch addr =>
      exact addressed_keeps (view_onReflexive probeOf_acts probeOf_addrs family epoch addr f)
  | dhtConcluded family concluded =>
      exact addressed_keeps (view_onDhtConcluded probeOf_acts probeOf_facts isHost concluded f)
  | resync => exact probeOf_acts f _ (by decide)

/-- A move starts the schedule over, with a round to be kicked. -/
theorem sched_famMove (isHost same wasUp : Bool) (now : UInt64) (f : NetFam) :
    Sched (famMove isHost same wasUp now f) := by
  have hrunning : IgnoresPend fun f : NetFam => (f.probeRunning, f.probeWanted) := fun _ _ => rfl
  have hproofs : ∀ g : NetFam, ((moveProofs same wasUp g).probeRunning,
      (moveProofs same wasUp g).probeWanted) = (g.probeRunning, g.probeWanted) := by
    intro g
    unfold moveProofs
    split
    · rfl
    · split <;> rfl
  have hmoved : ((famMove isHost same wasUp now f).probeRunning,
      (famMove isHost same wasUp now f).probeWanted) = (false, false) := by
    unfold famMove
    exact (view_moveRaise hrunning isHost _).trans (hproofs (moveReset same now f))
  obtain ⟨hrun, hwant⟩ := Prod.mk.inj hmoved
  refine ⟨⟨fun _ => hrun, fun _ => hrun⟩, ?_⟩
  intro h
  rw [hwant] at h
  cases h

/-- A snapshot leaves the schedule, or moves the family and starts it over. -/
theorem sched_onNetmon (isHost : Bool) (i : Fam) (changed : UInt32) (addrs : List NetmonAddr)
    (now : UInt64) {f : NetFam} (hf : Sched f) :
    Sched (netstateOnNetmon isHost i changed addrs now f) := by
  obtain ⟨new, left, -, hsync⟩ := localSync_spec f i addrs
  unfold netstateOnNetmon
  rw [hsync]
  dsimp only
  have hrows : ∀ bits : Bool, probeOf (if bits = true then
      raiseAct { f with locals := keptLocals f i addrs ++ new, xlats := left } nsaEmitRows
      else { f with locals := keptLocals f i addrs ++ new, xlats := left }) = probeOf f := by
    intro bits
    split_ifs
    · rw [probeOf_acts _ nsaEmitRows (by decide)]
      exact probeOf_addrs f _ left
    · exact probeOf_addrs f _ left
  by_cases hbit : changed &&& netmonCh i = 0
  · rw [if_pos hbit]
    exact hf.of_probeOf ((view_syncHasAddr probeOf_acts probeOf_conn isHost _).trans (hrows _))
  · rw [if_neg hbit]
    exact sched_famMove isHost _ _ now _

/-! ## The calls of a pass -/

/-- The calls that facts and the pool are told by. -/
def factCall : NetIn → Bool
  | .roundtrip .. => true
  | .servers .. => true
  | .reflexive .. => true
  | .probeDone .. => true
  | _ => false

/-- The call ends a round of the family's epoch or brings it somewhere new to ask. -/
def Wakes (i : Fam) (epoch : UInt32) : NetIn → Prop
  | .servers family ep _ => family = i ∧ ep = epoch
  | .probeDone family ep _ => family = i ∧ ep = epoch
  | _ => False

theorem hasAddr_syncConn (f : NetFam) : (syncConn f).hasAddr = f.hasAddr := by
  unfold syncConn
  split <;> rfl

/-- What the schedule is due by. -/
def dueOf (f : NetFam) : (UInt32 × Bool × Bool × UInt64 × UInt32) × Bool := (probeOf f, f.hasAddr)

theorem hasAddr_fact (isHost : Bool) (i : Fam) (f : NetFam) {e : NetIn}
    (he : factCall e = true) : (famStep isHost i f e).hasAddr = f.hasAddr := by
  have hkeep : ∀ {family : Fam} {g : NetFam → NetFam}, (g f).hasAddr = f.hasAddr →
      (addressed family i g f).hasAddr = f.hasAddr :=
    fun h => addressed_keeps h
  cases e with
  | roundtrip family epoch =>
      apply hkeep
      unfold netstateOnRoundtrip
      split
      · rfl
      · exact hasAddr_syncConn _
  | servers family epoch now =>
      apply hkeep
      unfold netstateOnServers
      split <;> rfl
  | reflexive family epoch addr =>
      exact hkeep (view_onReflexive (fun _ _ _ => rfl) (fun _ _ _ => rfl) family epoch addr f)
  | probeDone family epoch now =>
      apply hkeep
      unfold netstateOnProbeDone
      split
      · rfl
      split
      · rfl
      split <;> rfl
  | _ => cases he

theorem dueOf_eq {f g : NetFam} (hprobe : probeOf g = probeOf f) (haddr : g.hasAddr = f.hasAddr) :
    dueOf g = dueOf f := by
  rw [dueOf, dueOf, hprobe, haddr]

/-- A family that waits for a round is kicked by a call that wakes it, and no other call
of facts touches its schedule. -/
theorem famStep_fact (isHost : Bool) (i : Fam) {f : NetFam} (hwanted : f.probeWanted = true)
    (hidle : f.probeRunning = false) {e : NetIn} (he : factCall e = true) :
    (Wakes i f.epoch e → Kicked (famStep isHost i f e)) ∧
      (¬Wakes i f.epoch e → dueOf (famStep isHost i f e) = dueOf f) := by
  have haddr := hasAddr_fact isHost i f he
  cases e with
  | roundtrip family epoch =>
      exact ⟨False.elim, fun _ => dueOf_eq (probeOf_plain isHost i f rfl) haddr⟩
  | reflexive family epoch addr =>
      exact ⟨False.elim, fun _ => dueOf_eq (probeOf_plain isHost i f rfl) haddr⟩
  | servers family epoch now =>
      simp only [Wakes, famStep, addressed] at haddr ⊢
      split_ifs with hfam
      · simp only [hfam, true_and, netstateOnServers, hidle, Bool.false_eq_true, or_false]
        constructor
        · intro hepoch
          rw [if_neg (not_not.mpr hepoch)]
          exact kicked_raise _
        · intro hepoch
          rw [if_pos hepoch]
      · exact ⟨fun h => absurd h.1 hfam, fun _ => rfl⟩
  | probeDone family epoch now =>
      simp only [Wakes, famStep, addressed] at haddr ⊢
      split_ifs with hfam
      · simp only [hfam, true_and, netstateOnProbeDone, hwanted, if_true]
        constructor
        · intro hepoch
          rw [if_neg (not_not.mpr hepoch)]
          exact kicked_raise _
        · intro hepoch
          rw [if_pos hepoch]
      · exact ⟨fun h => absurd h.1 hfam, fun _ => rfl⟩
  | _ => cases he

theorem Kicked.of_probeOf {f g : NetFam} (h : probeOf g = probeOf f) (hf : Kicked f) :
    Kicked g := by
  have hkick : g.pend &&& nsaKickProbe = f.pend &&& nsaKickProbe := congrArg Prod.fst h
  rw [Kicked, hkick]
  exact hf

/-- No fact takes a kick back. -/
theorem Kicked.famStep_fact (isHost : Bool) (i : Fam) {f : NetFam} (h : Kicked f) {e : NetIn}
    (he : factCall e = true) : Kicked (famStep isHost i f e) := by
  cases e with
  | roundtrip family epoch => exact h.of_probeOf (probeOf_plain isHost i f rfl)
  | reflexive family epoch addr => exact h.of_probeOf (probeOf_plain isHost i f rfl)
  | servers family epoch now =>
      simp only [famStep, addressed, netstateOnServers]
      split_ifs
      · exact h
      · exact kicked_raise _
      · exact h
  | probeDone family epoch now =>
      simp only [famStep, addressed, netstateOnProbeDone]
      split_ifs
      · exact h
      · exact kicked_raise _
      · exact h
      · exact h
      · exact h
  | _ => cases he

theorem Idle.famStep_fact (isHost : Bool) (i : Fam) {f : NetFam} (h : Idle f) {e : NetIn}
    (he : factCall e = true) : Idle (famStep isHost i f e) := by
  cases e with
  | roundtrip family epoch => exact h.of_probeOf (probeOf_plain isHost i f rfl)
  | reflexive family epoch addr => exact h.of_probeOf (probeOf_plain isHost i f rfl)
  | servers family epoch now =>
      simp only [famStep, addressed, netstateOnServers]
      split_ifs with hfam hskip
      · exact h
      · have hrun : f.probeRunning = false := by simpa using (not_or.mp hskip).2
        exact ⟨fun _ => hrun, fun _ => hrun⟩
      · exact h
  | probeDone family epoch now =>
      simp only [famStep, addressed, netstateOnProbeDone]
      split_ifs
      · exact h
      · exact ⟨fun _ => rfl, fun _ => rfl⟩
      · exact ⟨fun _ => rfl, fun _ => rfl⟩
      · exact ⟨fun _ => rfl, fun _ => rfl⟩
      · exact h
  | _ => cases he

/-! ## One pass -/

/-- The facts and the pool of a pass, in the order the model is told of them: a family that
waits for a round is kicked if any of them wakes it, and its schedule is as it was if not. -/
theorem run_facts (isHost : Bool) (i : Fam) {f : NetFam} (hwanted : f.probeWanted = true)
    (hidle : f.probeRunning = false) {es : List NetIn} (hes : ∀ e ∈ es, factCall e = true) :
    ((∃ e ∈ es, Wakes i f.epoch e) → Kicked (run (famStep isHost i) f es)) ∧
      ((∀ e ∈ es, ¬Wakes i f.epoch e) → dueOf (run (famStep isHost i) f es) = dueOf f) := by
  induction es generalizing f with
  | nil => exact ⟨fun h => absurd h (by simp), fun _ => rfl⟩
  | cons e es ih =>
      rw [List.forall_mem_cons] at hes
      obtain ⟨hwake, hkeep⟩ := famStep_fact isHost i hwanted hidle hes.1
      by_cases hwakes : Wakes i f.epoch e
      · have hkicked : Kicked (run (famStep isHost i) (famStep isHost i f e) es) := by
          apply run_invariant_of_mem (I := Kicked) (G := fun e => factCall e = true) ?_
            (hwake hwakes) hes.2
          intro g e' hg he'
          exact hg.famStep_fact isHost i he'
        exact ⟨fun _ => hkicked, fun h => absurd hwakes (h e (List.mem_cons_self ..))⟩
      · have hsame := hkeep hwakes
        have hprobe : probeOf (famStep isHost i f e) = probeOf f := congrArg Prod.fst hsame
        simp only [probeOf, Prod.mk.injEq] at hprobe
        obtain ⟨-, hrun, hwant, -, hepoch⟩ := hprobe
        have hrest := ih (hwant.trans hwanted) (hrun.trans hidle) hes.2
        rw [hepoch, hsame] at hrest
        simpa [hwakes] using hrest

/-- After its probe the tick has nothing more to do with the schedule. -/
theorem probeOf_tick (isHost : Bool) (now : UInt64) (f : NetFam) :
    probeOf (netstateTick isHost now f) = probeOf (tickProbe now (tickSrc now f)) := by
  rw [netstateTick, view_tickCeiling probeOf_acts probeOf_rdv,
    view_anchorConfirm probeOf_acts probeOf_rdv, view_tickRound probeOf_acts probeOf_rdv]

theorem dueOf_tickSrc (now : UInt64) (f : NetFam) : dueOf (tickSrc now f) = dueOf f := by
  apply dueOf_eq (view_tickSrc probeOf_acts probeOf_source now f)
  unfold tickSrc
  split <;> rfl

theorem kicked_iff_of_probeOf {f g : NetFam} (h : probeOf g = probeOf f) : Kicked g ↔ Kicked f :=
  ⟨Kicked.of_probeOf h.symm, Kicked.of_probeOf h⟩

/-- The tick kicks a family that is not running a round and whose time has come. -/
theorem kicked_tick (isHost : Bool) (now : UInt64) {f : NetFam} (hidle : f.probeRunning = false) :
    Kicked (netstateTick isHost now f) ↔
      Kicked f ∨ (f.hasAddr = true ∧ f.probeNextMs ≤ now) := by
  have hsrc := dueOf_tickSrc now f
  rw [kicked_iff_of_probeOf (probeOf_tick isHost now f)]
  rw [← kicked_iff_of_probeOf (congrArg Prod.fst hsrc : probeOf (tickSrc now f) = probeOf f)]
  simp only [dueOf, probeOf, Prod.mk.injEq] at hsrc
  obtain ⟨⟨-, hrun, -, hnext, -⟩, haddr⟩ := hsrc
  rw [← haddr, ← hnext]
  rw [← hrun] at hidle
  generalize tickSrc now f = g at hidle ⊢
  unfold tickProbe
  simp only [hidle, true_and]
  split_ifs with hdue
  · exact iff_of_true (kicked_raise _) (.inr hdue)
  · rw [or_iff_left hdue]

theorem Kicked.tick (isHost : Bool) (now : UInt64) {f : NetFam} (h : Kicked f) :
    Kicked (netstateTick isHost now f) := by
  apply Kicked.of_probeOf (probeOf_tick isHost now f)
  have hsrc : Kicked (tickSrc now f) :=
    h.of_probeOf (view_tickSrc probeOf_acts probeOf_source now f)
  generalize tickSrc now f = g at hsrc
  unfold tickProbe
  split_ifs
  · exact kicked_raise _
  · exact hsrc

theorem Idle.tick (isHost : Bool) (now : UInt64) {f : NetFam} (h : Idle f) :
    Idle (netstateTick isHost now f) := by
  apply Idle.of_probeOf (probeOf_tick isHost now f)
  have hsrc : Idle (tickSrc now f) :=
    h.of_probeOf (view_tickSrc probeOf_acts probeOf_source now f)
  generalize tickSrc now f = g at hsrc
  unfold tickProbe
  split_ifs with hdue
  · exact ⟨fun _ => hdue.2.1, fun _ => hdue.2.1⟩
  · exact hsrc

theorem factCall_factIn (now : UInt64) (e : Nsfact) : factCall (factIn now e) = true := by
  unfold factIn
  cases e.kind <;> rfl

/-- The calls by which a pass tells the model of the facts and of the pool. -/
theorem settleTold_ns (now : UInt64) (s : Peer) :
    ∃ pool : List NetIn, (∀ e ∈ pool, ∃ epoch a, e = .reflexive .v4 epoch a) ∧
      (settleTold now s).ns = netstateStep (run netstateStep s.ns
        ((nsfactsTake nsfactsOut s.net.facts).1.map (factIn now) ++ pool)) (.tick now) := by
  have hfacts : ∀ (out : List Nsfact) (s : Peer),
      (out.foldl (settleFact now) s).ns = run netstateStep s.ns (out.map (factIn now)) := by
    intro out
    induction out with
    | nil => exact fun _ => rfl
    | cons e out ih => exact fun s => ih (settleFact now s e)
  unfold settleTold
  dsimp only
  generalize hs1 : List.foldl (settleFact now) _ _ = s1
  refine ⟨(peeringPoolCopy s1.net.pool (s1.ns.f .v4).epoch).map fun a =>
    .reflexive .v4 (s1.ns.f .v4).epoch a.toList, ?_, ?_⟩
  · intro e he
    obtain ⟨a, -, rfl⟩ := List.mem_map.mp he
    exact ⟨_, _, rfl⟩
  · have hns : s1.ns = run netstateStep s.ns
        ((nsfactsTake nsfactsOut s.net.facts).1.map (factIn now)) := by
      rw [← hs1, hfacts]
    have hrun : ∀ pre post, run netstateStep s.ns (pre ++ post) =
        run netstateStep (run netstateStep s.ns pre) post := by
      simp [run]
    rw [hrun, ← hns, poolTell, run, List.foldl_map]

/-- The same for one family. -/
theorem settleTold_fam (now : UInt64) (s : Peer) (i : Fam) :
    ∃ pool : List NetIn, (∀ e ∈ pool, ∃ epoch a, e = .reflexive .v4 epoch a) ∧
      (settleTold now s).ns.f i = netstateTick s.ns.isHost now (run (famStep s.ns.isHost i)
        (s.ns.f i) ((nsfactsTake nsfactsOut s.net.facts).1.map (factIn now) ++ pool)) := by
  obtain ⟨pool, hpool, hns⟩ := settleTold_ns now s
  obtain ⟨hhost, hfam⟩ := run_netstateStep s.ns
    ((nsfactsTake nsfactsOut s.net.facts).1.map (factIn now) ++ pool)
  refine ⟨pool, hpool, ?_⟩
  rw [hns, netstateStep, hhost, ← hfam i]
  rfl

theorem factCall_told {now : UInt64} {out : List Nsfact} {pool : List NetIn}
    (hpool : ∀ e ∈ pool, ∃ epoch a, e = .reflexive .v4 epoch a) :
    ∀ e ∈ out.map (factIn now) ++ pool, factCall e = true := by
  intro e he
  rcases List.mem_append.mp he with he | he
  · obtain ⟨x, -, rfl⟩ := List.mem_map.mp he
    exact factCall_factIn now x
  · obtain ⟨epoch, a, rfl⟩ := hpool e he
    rfl

/-- A fact wakes the family it is about on its epoch, if it is one of a kind that does. -/
theorem wakes_factIn {now : UInt64} {i : Fam} {epoch : UInt32} {e : Nsfact} :
    Wakes i epoch (factIn now e) ↔
      (e.kind = .servers ∨ e.kind = .probeDone) ∧ famIdx e.family = i ∧ e.epoch = epoch := by
  unfold factIn
  cases e.kind <;> simp [Wakes]

/-- The facts a pass takes that wake a family are those in its slots, where the end of a
round is among those taken. -/
theorem exists_wakes_iff {now : UInt64} {f : Nsfacts} {i : Fam} {epoch : UInt32}
    (hends : HandsBack (nsfactsTake nsfactsOut f).1 .probeDone i) :
    (∃ e ∈ (nsfactsTake nsfactsOut f).1, Wakes i epoch (factIn now e)) ↔
      f.done i = some epoch ∨ f.more i = some epoch := by
  obtain ⟨hout, -⟩ := nsfactsTake_queued nsfactsOut f
  rw [hout] at hends ⊢
  constructor
  · rintro ⟨e, he, hwakes⟩
    obtain ⟨hkind, hfam, hepoch⟩ := wakes_factIn.1 hwakes
    have haddr : e.kind ≠ .addr := by rcases hkind with h | h <;> rw [h] <;> decide
    obtain ⟨j, held, hslot, heq⟩ := (mem_queued_iff haddr).mp (List.mem_of_mem_take he)
    rw [heq, famIdx_emit] at hfam
    rw [heq, emit_epoch] at hepoch
    subst hfam hepoch
    rcases hkind with hk | hk
    · rw [hk] at hslot
      exact .inr hslot
    · rw [hk] at hslot
      exact .inl hslot
  · rintro (hdone | hmore)
    · obtain ⟨e, he, hk, hfam⟩ := hends
      refine ⟨e, he, wakes_factIn.2 ⟨.inr hk, hfam, ?_⟩⟩
      obtain ⟨j, held, hslot, heq⟩ :=
        (mem_queued_iff (by rw [hk]; decide)).mp (List.mem_of_mem_take he)
      rw [heq, famIdx_emit] at hfam
      rw [hk, hfam] at hslot
      rw [heq, emit_epoch]
      exact Option.some.inj (hslot.symm.trans hdone)
    · -- the families with somewhere new to ask stand among the first four
      refine ⟨emit .servers i epoch, ?_, wakes_factIn.2
        ⟨.inl rfl, famIdx_emit _ _ _, rfl⟩⟩
      have hfront : emit .servers i epoch ∈
          slotFacts .roundtrip f.rt ++ slotFacts .servers f.more :=
        List.mem_append_right _ (mem_slotFacts.mpr ⟨i, epoch, hmore, rfl⟩)
      have hlen : (slotFacts .roundtrip f.rt ++ slotFacts .servers f.more).length ≤ nsfactsOut := by
        have hcount : ∀ l : List (Option UInt32), l.countP Option.isSome ≤ l.length :=
          fun l => List.countP_le_length
        have hrt := hcount [f.rt .v4, f.rt .v6]
        have hmr := hcount [f.more .v4, f.more .v6]
        rw [List.length_append, length_slotFacts, length_slotFacts]
        simp only [List.length_cons, List.length_nil, nsfactsOut, nsfactsMax] at hrt hmr ⊢
        omega
      rw [queued, List.append_assoc, List.take_append, List.take_of_length_le hlen]
      exact List.mem_append_left _ hfront

/-- The loop reaps the family's thread in this pass. -/
def Reaps (s : Peer) (i : Fam) : Prop :=
  (s.net.probe i).running = true ∧
    HandsBack (nsfactsTake nsfactsOut s.net.facts).1 .probeDone i

/-- What the pass that reaps a thread needs for a kick: the ending round was stamped with
the family's epoch, or the family has somewhere new to ask on it, or it is due. -/
def RoundDue (s : Peer) (now : UInt64) (i : Fam) : Prop :=
  s.net.facts.done i = some (s.ns.f i).epoch ∨ s.net.facts.more i = some (s.ns.f i).epoch ∨
    ((s.ns.f i).hasAddr = true ∧ (s.ns.f i).probeNextMs ≤ now)

/-- The pass that reaps the thread of a family with a deferred round kicks it exactly where
one of these is so. -/
theorem kicked_settleTold {now : UInt64} {s : Peer} {i : Fam} (hsched : Sched (s.ns.f i))
    (hwanted : (s.ns.f i).probeWanted = true) (hreaps : Reaps s i) :
    Kicked ((settleTold now s).ns.f i) ↔ RoundDue s now i := by
  obtain ⟨pool, hpool, htold⟩ := settleTold_fam now s i
  have hidle := hsched.1.2 hwanted
  obtain ⟨hwake, hkeep⟩ := run_facts s.ns.isHost i hwanted hidle (factCall_told hpool)
  have hwakes : (∃ e ∈ (nsfactsTake nsfactsOut s.net.facts).1.map (factIn now) ++ pool,
      Wakes i (s.ns.f i).epoch e) ↔
      s.net.facts.done i = some (s.ns.f i).epoch ∨ s.net.facts.more i = some (s.ns.f i).epoch := by
    rw [← exists_wakes_iff hreaps.2]
    constructor
    · rintro ⟨e, he, hw⟩
      rcases List.mem_append.mp he with he | he
      · obtain ⟨x, hx, rfl⟩ := List.mem_map.mp he
        exact ⟨x, hx, hw⟩
      · obtain ⟨epoch, a, rfl⟩ := hpool e he
        exact hw.elim
    · rintro ⟨x, hx, hw⟩
      exact ⟨_, List.mem_append_left _ (List.mem_map_of_mem hx), hw⟩
  rw [htold, RoundDue, ← or_assoc, ← hwakes]
  generalize (nsfactsTake nsfactsOut s.net.facts).1.map (factIn now) ++ pool = es at *
  by_cases hany : ∃ e ∈ es, Wakes i (s.ns.f i).epoch e
  · exact iff_of_true ((hwake hany).tick _ now) (.inl hany)
  · have hsame := hkeep (by simpa using hany)
    have hkick := kicked_iff_of_probeOf (congrArg Prod.fst hsame :
      probeOf (run (famStep s.ns.isHost i) (s.ns.f i) es) = probeOf (s.ns.f i))
    simp only [dueOf, probeOf, Prod.mk.injEq] at hsame
    obtain ⟨⟨-, hrun, -, hnext, -⟩, haddr⟩ := hsame
    rw [kicked_tick _ now (hrun.trans hidle), hkick, haddr, hnext,
      or_iff_right (hsched.2 hwanted), or_iff_right hany]

/-! ## Runs -/

/-- A round of the family was started, or deferred. -/
def KickedTo (f f' : NetFam) : Prop :=
  f'.pend = f.pend ∧ (f'.probeRunning = true ∧ f'.probeWanted = false ∨
    f'.probeRunning = f.probeRunning ∧ f'.probeWanted = true)

/-- `apply` touches the schedule of a family only where it kicks it. -/
theorem applyFam_fam (env : SettleEnv) (now : UInt64) (s : Peer) (i j : Fam)
    (act epoch : UInt32) :
    probeOf ((applyFam env now s i act epoch).ns.f j) = probeOf (s.ns.f j) ∨
      (i = j ∧ act &&& nsaKickProbe ≠ 0 ∧ ∃ f, probeOf f = probeOf (s.ns.f j) ∧
        KickedTo f ((applyFam env now s i act epoch).ns.f j)) := by
  unfold applyFam
  dsimp only
  generalize hs1 : (if act &&& nsaSampleSrc = 0 then s else _) = s1
  have hsrc : probeOf (s1.ns.f j) = probeOf (s.ns.f j) := by
    rw [← hs1]
    split_ifs
    · rfl
    · exact probeOf_plain s.ns.isHost j (s.ns.f j) rfl
  split_ifs with hact hstarted hdeferred
  · exact .inl hsrc
  · simp only [netstateStep, famStep, addressed, netstateOnProbeStarted]
    split_ifs with hfam hepoch
    · exact .inl hsrc
    · exact .inr ⟨hfam, hact, s1.ns.f j, hsrc, rfl, .inl ⟨rfl, rfl⟩⟩
    · exact .inl hsrc
  · simp only [netstateStep, famStep, addressed, netstateOnProbeDeferred]
    split_ifs with hfam hepoch
    · exact .inl hsrc
    · exact .inr ⟨hfam, hact, s1.ns.f j, hsrc, rfl, .inr ⟨rfl, rfl⟩⟩
    · exact .inl hsrc
  · exact .inl hsrc

/-- A family that owes no kick and is kicked only while it runs no round keeps its
schedule in order. -/
theorem sched_applyFam (env : SettleEnv) (now : UInt64) {s : Peer} {i j : Fam}
    {act epoch : UInt32} (hkick : ¬Kicked (s.ns.f j)) (hidle : Idle (s.ns.f j))
    (hact : i = j → act &&& nsaKickProbe ≠ 0 → (s.ns.f j).probeRunning = false) :
    ¬Kicked ((applyFam env now s i act epoch).ns.f j) ∧
      Idle ((applyFam env now s i act epoch).ns.f j) := by
  rcases applyFam_fam env now s i j act epoch with hsame | ⟨hij, hk, f, hf, hpend, hto⟩
  · exact ⟨(kicked_iff_of_probeOf hsame).not.mpr hkick, hidle.of_probeOf hsame⟩
  · have hnone : ¬Kicked ((applyFam env now s i act epoch).ns.f j) := by
      rw [Kicked, hpend]
      exact (kicked_iff_of_probeOf hf).not.mpr hkick
    refine ⟨hnone, fun h => absurd h hnone, ?_⟩
    rcases hto with ⟨-, hwant⟩ | ⟨hrun, -⟩
    · intro h
      rw [hwant] at h
      cases h
    · intro _
      have hfrun : f.probeRunning = (s.ns.f j).probeRunning := congrArg (fun x => x.2.1) hf
      rw [hrun, hfrun]
      exact hact hij hk

theorem Sched.of_idle {f : NetFam} (h : ¬Kicked f ∧ Idle f) : Sched f := ⟨h.2, fun _ => h.1⟩

theorem sched_settle (env : SettleEnv) (now : UInt64) {s : Peer} (h : ∀ i, Sched (s.ns.f i))
    (i : Fam) : Sched ((peeringSettle env now s).ns.f i) := by
  have htold : ∀ j, Idle ((settleTold now s).ns.f j) := by
    intro j
    obtain ⟨pool, hpool, htold⟩ := settleTold_fam now s j
    rw [htold]
    apply Idle.tick
    apply run_invariant_of_mem (I := Idle) (G := fun e => factCall e = true) ?_ (h j).1
      (factCall_told hpool)
    intro g e hg he
    exact hg.famStep_fact s.ns.isHost j he
  unfold peeringSettle
  dsimp only
  generalize settleTold now s = told at htold
  generalize hs1 : ({ told with ns := netstateStep told.ns .takeActions } : Peer) = s1
  have hrun : ∀ j, (s1.ns.f j).probeRunning = (told.ns.f j).probeRunning := by
    intro j
    rw [← hs1]
    rfl
  have hnone : ∀ j, ¬Kicked (s1.ns.f j) := by
    intro j hj
    have hzero : (s1.ns.f j).pend &&& nsaKickProbe = 0 := by
      rw [← hs1]
      exact UInt32.zero_and
    exact hj hzero
  have hidle : ∀ j, Idle (s1.ns.f j) := by
    intro j
    refine ⟨fun hj => absurd hj (hnone j), ?_⟩
    rw [← hs1]
    exact (htold j).2
  split_ifs
  · exact .of_idle ⟨hnone i, hidle i⟩
  · apply Sched.of_idle
    -- a kick that is owed finds the family idle, also after the other one's turn
    have hact : ∀ j, (told.ns.f j).pend &&& nsaKickProbe ≠ 0 →
        (s1.ns.f j).probeRunning = false :=
      fun j hkick => (hrun j).trans ((htold j).1 hkick)
    generalize hs2 : applyFam env now s1 .v4 _ _ = s2
    have hfirst : ¬Kicked (s2.ns.f i) ∧ Idle (s2.ns.f i) := by
      rw [← hs2]
      apply sched_applyFam env now (hnone i) (hidle i)
      rintro rfl hkick
      exact hact .v4 hkick
    apply sched_applyFam env now hfirst.1 hfirst.2
    rintro rfl hkick
    have hsame : probeOf (s2.ns.f .v6) = probeOf (s1.ns.f .v6) := by
      rw [← hs2]
      exact (applyFam_fam env now s1 .v4 .v6 _ _).resolve_right (by simp)
    have hsame6 : (s2.ns.f .v6).probeRunning = (s1.ns.f .v6).probeRunning :=
      congrArg (fun x => x.2.1) hsame
    exact hsame6.trans (hact .v6 hkick)

theorem sched_settleStep {s : Peer} (h : ∀ i, Sched (s.ns.f i)) (op : SettleOp) (i : Fam) :
    Sched ((settleStep s op).ns.f i) := by
  cases op with
  | settle env now =>
      simp only [settleStep]
      exact sched_settle env now h i
  | watch changed addrs now => exact sched_onNetmon s.ns.isHost i changed addrs now (h i)
  | call e =>
      simp only [settleStep]
      split_ifs with he
      · exact (h i).of_probeOf (probeOf_plain s.ns.isHost i (s.ns.f i) he)
      · exact h i
  | _ => exact h i

instance (s : Peer) (i : Fam) : Decidable (Reaps s i) := inferInstanceAs (Decidable (_ ∧ _))

instance (f : NetFam) : Decidable (Kicked f) := inferInstanceAs (Decidable (_ ≠ _))

/-- A pass that reaps the thread a round was deferred for kicks that round. -/
def KicksDeferred (s : Peer) : SettleOp → Prop
  | .settle _ now => ∀ i, (s.ns.f i).probeWanted = true → Reaps s i →
      Kicked ((settleTold now s).ns.f i)
  | _ => True

/-- The deferred rounds whose threads a pass reaps are due. -/
def DeferredDue (s : Peer) : SettleOp → Prop
  | .settle _ now => ∀ i, (s.ns.f i).probeWanted = true → Reaps s i → RoundDue s now i
  | _ => True

/-- A host with one address of the family, which moves while a round is running. -/
def movedWhile : List SettleOp :=
  let env : SettleEnv :=
    { srcAddr := fun _ => [192, 0, 2, 7], srcScope := fun _ => .global, srcText := fun _ => [],
      made := fun _ => true, start6 := 0 }
  let addrs : List NetmonAddr := [{ family := some .v4, addr := [192, 0, 2, 7] }]
  [.watch 1 addrs 1000, .settle env 1000, .roundStart .v4, .watch 1 addrs 2000,
    .settle env 2000, .roundEnd .v4]

/-- The round stamped before the move ends, the round deferred on the new network is wanted,
and the pass that reaps the thread does not kick it. -/
theorem movedWhile_waits :
    ((run settleStep (settleInit true true 1 0) movedWhile).ns.f .v4).probeWanted = true ∧
      Reaps (run settleStep (settleInit true true 1 0) movedWhile) .v4 ∧
      ¬Kicked ((settleTold 2500
        (run settleStep (settleInit true true 1 0) movedWhile)).ns.f .v4) := by
  decide

/-- Over a run, every pass kicks the deferred rounds whose threads it reaps exactly where
each of them is due. -/
theorem peeringSettle_deferred (isHost autoProbe : Bool) (nservers : Int) (now : UInt64)
    (ops : List SettleOp) :
    EveryStep settleStep KicksDeferred (settleInit isHost autoProbe nservers now) ops ↔
      EveryStep settleStep DeferredDue (settleInit isHost autoProbe nservers now) ops := by
  apply EveryStep.congr
  apply everyStep_of_invariant (I := fun s => ∀ i, Sched (s.ns.f i))
  · exact fun s op h => sched_settleStep h op
  · intro s op h
    cases op with
    | settle env now =>
        exact forall_congr' fun i => forall_congr' fun hwanted => forall_congr' fun hreaps =>
          kicked_settleTold (h i) hwanted hreaps
    | _ => exact Iff.rfl
  · intro i
    exact ⟨⟨fun _ => rfl, fun _ => rfl⟩, fun h => by cases h⟩

end Peering
end Comrade
