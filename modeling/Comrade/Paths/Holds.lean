import Comrade.Lib.Run
import Comrade.Paths.PlaneRun
import Comrade.Paths.TableRun

/-!
# The carriers set aside

A connection that is being replaced keeps its old agents a while, since one of them
may still be what carries.  Such an agent is held: the plane owns it until it is
taken back or freed (the last part of `pathplane.c`).  Path slots name agents too,
but own none.

Freeing an agent is a call out of the plane, written down here as it is made.

* `HoldPlane` is the plane with the agents it holds and those it has freed.
* `TableStep` is what any call into the plane does to the agents that paths name, and
  `planeStep_tableStep` says so of each.
-/

namespace Comrade
namespace Paths

open Lib

/-! ## The model -/

/-- `PATHPLANE_HOLD_MAX`. -/
def pathplaneHoldMax : Nat := 16

/-- A place for an agent set aside. -/
abbrev HoldSlot := Fin pathplaneHoldMax

/-- `struct pathplane_hold`; the context goes with the agent and is not looked into. -/
structure PathplaneHold where
  agent : Option Agent
  ctx : Option Nat
  untilMs : Nat

/-- A place with nothing in it. -/
def holdNone : PathplaneHold := { agent := none, ctx := none, untilMs := 0 }

/-- The plane with the agents it holds, and every call of `agent_free` so far. -/
structure HoldPlane where
  pl : PathPlane
  holds : HoldSlot → PathplaneHold
  freed : List (Option Agent × Option Nat)

/-- A plane as it starts. -/
def holdPlaneInit : HoldPlane := { pl := pathplaneInit, holds := fun _ => holdNone, freed := [] }

/-- The agents freed so far. -/
def HoldPlane.freedAgents (s : HoldPlane) : List Agent := s.freed.filterMap Prod.fst

/-- `pathplane_free_agent`. -/
def pathplaneFreeAgent (s : HoldPlane) (agent : Option Agent) (ctx : Option Nat) : HoldPlane :=
  { s with pl := pathplaneDropAgent s.pl agent, freed := s.freed ++ [(agent, ctx)] }

/-- `hold_clear`. -/
def holdClear (s : HoldPlane) (i : HoldSlot) : HoldPlane :=
  pathplaneFreeAgent { s with holds := Function.update s.holds i holdNone } (s.holds i).agent
    (s.holds i).ctx

/-- `pathplane_hold_add`. -/
def pathplaneHoldAdd (s : HoldPlane) (agent : Option Agent) (ctx : Option Nat) (untilMs : Nat) :
    HoldPlane :=
  match firstSlot s.holds fun h => h.agent.isNone with
  | some i =>
      { s with
        holds := Function.update s.holds i { agent := agent, ctx := ctx, untilMs := untilMs } }
  | none => pathplaneFreeAgent s agent ctx

/-- `pathplane_hold_carrying`. -/
def pathplaneHoldCarrying (s : HoldPlane) : Option HoldSlot :=
  match s.pl.t.sel with
  | none => none
  | some i =>
      if (s.pl.t.p i).used = true ∧ (s.pl.t.p i).agent.isSome = true then
        firstSlot s.holds fun h => h.agent == (s.pl.t.p i).agent
      else none

/-- `pathplane_has_hold`. -/
def pathplaneHasHold (s : HoldPlane) : Bool :=
  (List.finRange pathplaneHoldMax).any fun i => (s.holds i).agent.isSome

/-- `pathplane_holds_free_all`. -/
def pathplaneHoldsFreeAll (s : HoldPlane) : HoldPlane :=
  (List.finRange pathplaneHoldMax).foldl
    (fun s i => if (s.holds i).agent.isSome = true then holdClear s i else s) s

/-- One place in the loop of `pathplane_holds_reap`; `failed` is the playbook's word on
an agent. -/
def reapStep (failed : Agent → Bool) (now : Nat) (carrying : Option HoldSlot) (s : HoldPlane)
    (i : HoldSlot) : HoldPlane :=
  match (s.holds i).agent with
  | none => s
  | some a =>
      if carrying = some i then s
      else if now < (s.holds i).untilMs ∧ failed a = false then s
      else holdClear s i

/-- `pathplane_holds_reap`. -/
def pathplaneHoldsReap (s : HoldPlane) (failed : Agent → Bool) (now : Nat) : HoldPlane :=
  (List.finRange pathplaneHoldMax).foldl (reapStep failed now (pathplaneHoldCarrying s)) s

/-- Are the paths of two slots two agents' ways along one route, as the loops of
`pathplane_route_dedup` ask it? -/
def sameRoute (t : PathTable) (i j : Slot) : Bool :=
  (t.p i).used && (t.p i).kind == .ice && !pathEpAny (t.p i).peerEp &&
    ((t.p j).used && (t.p j).kind == .ice && pathEpSameAddr (t.p i).peerEp (t.p j).peerEp &&
      (t.p i).haveSelfEp && (t.p j).haveSelfEp &&
      pathEpSameAddr (t.p i).selfEp (t.p j).selfEp)

/-- Of two paths on one route, the agent that goes: the later slot's, unless it is the
live one's or carries, then the earlier one's under the same terms. -/
def dedupDrop (t : PathTable) (live : Option Agent) (i j : Slot) : Option Agent :=
  if (t.p j).agent ≠ live ∧ t.sel ≠ some j then (t.p j).agent
  else if (t.p i).agent ≠ live ∧ t.sel ≠ some i then (t.p i).agent
  else none

/-- The pairs of slots in the order of the two loops. -/
def dedupPairs : List (Slot × Slot) :=
  (List.finRange pathTableMax).flatMap fun i =>
    ((List.finRange pathTableMax).filter fun j => decide (i < j)).map fun j => (i, j)

/-- What the loops have so far: the agents held, and those to go with their contexts. -/
abbrev DedupState := (HoldSlot → PathplaneHold) × List (Agent × Option Nat)

/-- One pair of slots. -/
def dedupStep (t : PathTable) (live : Option Agent) (st : DedupState) (ij : Slot × Slot) :
    DedupState :=
  if sameRoute t ij.1 ij.2 = false then st
  else
    match dedupDrop t live ij.1 ij.2 with
    | none => st
    | some a =>
        match firstSlot st.1 fun h => h.agent == some a with
        | none => st
        | some h => (Function.update st.1 h holdNone, st.2 ++ [(a, (st.1 h).ctx)])

/-- Both loops of `pathplane_route_dedup`. -/
def routeLosers (s : HoldPlane) (live : Option Agent) : DedupState :=
  dedupPairs.foldl (dedupStep s.pl.t live) (s.holds, [])

/-- `pathplane_route_dedup`. -/
def pathplaneRouteDedup (s : HoldPlane) (live : Option Agent) : HoldPlane :=
  let r := routeLosers s live
  r.2.foldl (fun s l => pathplaneFreeAgent s (some l.1) l.2) { s with holds := r.1 }

/-- `pathplane_hold_take`; `none` for a number that is no place. -/
def pathplaneHoldTake (s : HoldPlane) (i : Option HoldSlot) :
    HoldPlane × Option Agent × Option Nat :=
  match i with
  | none => (s, none, none)
  | some i =>
      ({ s with holds := Function.update s.holds i holdNone }, (s.holds i).agent, (s.holds i).ctx)

/-- `pathplane_holds_settle`: the plane, the live agent and its context, and the
verdict. -/
def pathplaneHoldsSettle (s : HoldPlane) (live : Option Agent) (liveCtx : Option Nat) :
    HoldPlane × (Option Agent × Option Nat) × Int :=
  match pathplaneHoldCarrying s with
  | some hi =>
      let r := pathplaneHoldTake s (some hi)
      (pathplaneFreeAgent r.1 live liveCtx, r.2, 1)
  | none =>
      if pathplaneHasHold s = false then (s, (live, liveCtx), 0)
      else (pathplaneHoldsFreeAll s, (live, liveCtx), -1)

/-! ## What the plane's calls do to the table -/

/-- Every agent that a path names was named before, or is the one entered. -/
def AgentsFrom (entered : Option Agent) (t t' : PathTable) : Prop :=
  ∀ i a, (t'.p i).used = true → (t'.p i).agent = some a →
    (∃ j, (t.p j).used = true ∧ (t.p j).agent = some a) ∨ entered = some a

theorem AgentsFrom.trans_left {entered : Option Agent} {t t' t'' : PathTable}
    (h : AgentsFrom none t t') (h' : AgentsFrom entered t' t'') : AgentsFrom entered t t'' := by
  intro i a hused hagent
  rcases h' i a hused hagent with ⟨j, hj, haj⟩ | hent
  · rcases h j a hj haj with hold | hnone
    · exact .inl hold
    · cases hnone
  · exact .inr hent

theorem SamePaths.agentsFrom {t t' : PathTable} (h : SamePaths t t') : AgentsFrom none t t' := by
  intro i a hused hagent
  obtain ⟨hu, -, ha, -⟩ := h i
  exact .inl ⟨i, hu ▸ hused, ha ▸ hagent⟩

theorem SamePaths.trans {t t' t'' : PathTable} (h : SamePaths t t') (h' : SamePaths t' t'') :
    SamePaths t t'' := by
  intro i
  obtain ⟨hu, hk, ha, he⟩ := h i
  obtain ⟨hu', hk', ha', he'⟩ := h' i
  refine ⟨hu'.trans hu, hk'.trans hk, ha'.trans ha, ?_⟩
  intro hlan
  exact (he' (by rw [hk]; exact hlan)).trans (he hlan)

theorem pathTableAdd_agentsFrom (t : PathTable) (kind : PathKind) (remote : Option Sockaddr)
    (agent : Option Agent) (now : Nat) :
    AgentsFrom agent t (pathTableAdd t kind remote agent now).1 := by
  rcases pathTableAdd_cases t kind remote agent now with hsame | ⟨ep, slot, -, -, -, hset⟩
  · rw [hsame]
    exact fun i a hused hagent => .inl ⟨i, hused, hagent⟩
  · rw [hset]
    intro i a hused hagent
    by_cases hi : i = slot
    · subst hi
      have hp : (t.set i (pathNew kind remote agent ep now)).p i =
          pathNew kind remote agent ep now := Function.update_self _ _ _
      rw [hp] at hagent
      exact .inr hagent
    · have hp : (t.set slot (pathNew kind remote agent ep now)).p i = t.p i :=
        Function.update_of_ne hi _ _
      rw [hp] at hused hagent
      exact .inl ⟨i, hused, hagent⟩

theorem pathTableOffer_agentsFrom (t : PathTable) (kind : PathKind) (remote : Option Sockaddr)
    (now : Nat) : AgentsFrom none t (pathTableOffer t kind remote now).1 := by
  rcases pathTableOffer_cases t kind remote now with hsame | ⟨-, hadd⟩
  · rw [hsame]
    exact fun i a hused hagent => .inl ⟨i, hused, hagent⟩
  · rw [hadd]
    exact pathTableAdd_agentsFrom t kind remote none now

theorem pathTableDrop_agentsFrom (t : PathTable) (gone : Path → Bool) :
    AgentsFrom none t (pathTableDrop t gone) := by
  intro i a hused hagent
  obtain ⟨hp, -⟩ := pathTableDrop_used hused
  rw [hp] at hused hagent
  exact .inl ⟨i, hused, hagent⟩

theorem pathHeard_samePath (blake2b : Blake2b) (base : Bytes) (p : Path) (src : PathEp)
    (pr : PathProbe) :
    (pathHeard blake2b base p src pr).used = p.used ∧
      (pathHeard blake2b base p src pr).kind = p.kind ∧
      (pathHeard blake2b base p src pr).agent = p.agent ∧
      (pathHeard blake2b base p src pr).peerEp = p.peerEp := by
  unfold pathHeard pathApplyTail pathSetSelfEp pathSawInbound
  dsimp only
  split_ifs <;> exact ⟨rfl, rfl, rfl, rfl⟩

theorem pathProbePong_samePath (p : Path) (nonce : UInt64) (now : Nat) :
    (pathProbePong p nonce now).1.used = p.used ∧ (pathProbePong p nonce now).1.kind = p.kind ∧
      (pathProbePong p nonce now).1.agent = p.agent ∧
      (pathProbePong p nonce now).1.peerEp = p.peerEp := by
  unfold pathProbePong
  dsimp only
  split_ifs <;> exact ⟨rfl, rfl, rfl, rfl⟩

theorem tickScan_samePaths (blake2b : Blake2b) (base : Bytes) (pl : PathPlane) (k : PlaneSinks)
    (now : Nat) : SamePaths pl.t (tickScan blake2b base pl k now).1.t := by
  have hpath : ∀ p : Path, ∀ eps,
      (tickPath blake2b base k eps now p).used = p.used ∧
      (tickPath blake2b base k eps now p).kind = p.kind ∧
      (tickPath blake2b base k eps now p).agent = p.agent ∧
      (kindIsLanlink p.kind = true →
        (tickPath blake2b base k eps now p).peerEp = p.peerEp) := by
    intro p eps
    obtain ⟨hu, hk, ha, he⟩ := pathProbeExpire_samePath { p with usable := usableNow k p } now
    unfold tickPath
    dsimp only
    split_ifs with hice
    · -- an agent names its own endpoint, and its path is not one of the shared socket
      have hnot : ¬kindIsLanlink p.kind = true := by
        rw [hk] at hice
        have hice' : p.kind = .ice := hice
        rw [hice']
        decide
      split
      · exact ⟨hu, hk, ha, fun h => absurd h hnot⟩
      · unfold pathSetPeerEp
        split_ifs <;> exact ⟨hu, hk, ha, fun h => absurd h hnot⟩
    · exact ⟨hu, hk, ha, fun _ => he⟩
  by_cases hident : k.ident = []
  · rw [tickScan, if_pos hident]
    exact fun i => ⟨rfl, rfl, rfl, fun _ => rfl⟩
  · rw [tickScan, if_neg hident]
    exact samePaths_mapUsed fun p => hpath p _

theorem tickSend_samePaths (pl : PathPlane) (due : List (Slot × UInt64)) (now : Nat) :
    SamePaths pl.t (tickSend pl due now).1.t ∧ (tickSend pl due now).1.t.sel = pl.t.sel := by
  suffices hfold : ∀ st : PathPlane × List ProbeOut,
      SamePaths st.1.t (due.foldl (tickSendStep now) st).1.t ∧
        (due.foldl (tickSendStep now) st).1.t.sel = st.1.t.sel from hfold (pl, [])
  induction due with
  | nil => exact fun st => ⟨fun i => ⟨rfl, rfl, rfl, fun _ => rfl⟩, rfl⟩
  | cons d due ih =>
      intro st
      have hstep : SamePaths st.1.t (tickSendStep now st d).1.t ∧
          (tickSendStep now st d).1.t.sel = st.1.t.sel := by
        unfold tickSendStep
        dsimp only
        split_ifs
        · exact ⟨fun i => ⟨rfl, rfl, rfl, fun _ => rfl⟩, rfl⟩
        · exact ⟨samePaths_set rfl rfl rfl fun _ => rfl, rfl⟩
      rw [List.foldl_cons]
      exact ⟨hstep.1.trans (ih _).1, (ih _).2.trans hstep.2⟩

theorem tickScan_sel (blake2b : Blake2b) (base : Bytes) (pl : PathPlane) (k : PlaneSinks)
    (now : Nat) : (tickScan blake2b base pl k now).1.t.sel = pl.t.sel := by
  unfold tickScan
  split_ifs <;> rfl

/-- The agent that a call enters a path for. -/
def PlaneEvent.entered : PlaneEvent → Option Agent
  | .addIce agent _ => agent
  | _ => none

/-- What any call into the plane does to the table's agents. -/
structure TableStep (entered : Option Agent) (t t' : PathTable) : Prop where
  inv : TableInv t → TableInv t'
  agents : AgentsFrom entered t t'

theorem TableStep.of_same {t t' : PathTable} (h : SamePaths t t') (hsel : t'.sel = t.sel) :
    TableStep none t t' :=
  ⟨fun hinv => h.tableInv hsel hinv, h.agentsFrom⟩

theorem TableStep.refl (t : PathTable) : TableStep none t t :=
  .of_same (fun _ => ⟨rfl, rfl, rfl, fun _ => rfl⟩) rfl

theorem TableStep.trans {t t' t'' : PathTable} (h : TableStep none t t')
    (h' : TableStep none t' t'') : TableStep none t t'' :=
  ⟨fun hinv => h'.inv (h.inv hinv), h.agents.trans_left h'.agents⟩

theorem pathplaneApply_tableStep (blake2b : Blake2b) (base : Bytes) (pl : PathPlane)
    (k : PlaneSinks) (pr : PathProbe) (kind : PathKind) (src : Option Sockaddr)
    (agent : Option Agent) (now : Nat) :
    TableStep none pl.t (pathplaneApply blake2b base pl k pr kind src agent now).1.t := by
  have hheard : ∀ (t : PathTable) (i : Slot) (ep : PathEp),
      TableStep none t (t.set i (pathHeard blake2b base (t.p i) ep pr)) := by
    intro t i ep
    obtain ⟨hu, hk, ha, he⟩ := pathHeard_samePath blake2b base (t.p i) ep pr
    exact .of_same (samePaths_set hu hk ha fun _ => he) rfl
  unfold pathplaneApply
  cases pr.type with
  | ping =>
      dsimp only
      rcases applyPing_cases blake2b base pl k pr kind
          ((src.bind pathEpFromSockaddr).getD pathEpZero) src agent now with
        ⟨-, hsame⟩ | ⟨-, t, o, ht, -, -, hdone⟩
      · rw [hsame]
        exact .refl _
      · have hstep : TableStep none pl.t t := by
          rcases ht with rfl | ⟨srck, rfl⟩
          · exact .refl _
          · exact ⟨fun hinv => pathTableOffer_tableInv hinv srck src now,
              pathTableOffer_agentsFrom pl.t srck src now⟩
        rcases hdone with hdone | ⟨i, hdone⟩
        · rw [hdone]
          exact hstep
        · rw [hdone]
          exact hstep.trans (hheard t i _)
  | pong =>
      dsimp only
      unfold applyPong
      dsimp only
      split
      · exact .refl _
      · rename_i i hi
        split_ifs
        · exact .refl _
        · obtain ⟨hu, hk, ha, he⟩ := pathHeard_samePath blake2b base (pl.t.p i)
            ((src.bind pathEpFromSockaddr).getD pathEpZero) pr
          obtain ⟨hu', hk', ha', he'⟩ := pathProbePong_samePath (pathHeard blake2b base (pl.t.p i)
            ((src.bind pathEpFromSockaddr).getD pathEpZero) pr) pr.nonce now
          exact .of_same (samePaths_set (hu'.trans hu) (hk'.trans hk) (ha'.trans ha)
            fun _ => he'.trans he) rfl
  | other code => exact .refl _

theorem pathplaneDecide_tableStep (pl : PathPlane) (k : PlaneSinks) (now : Nat) :
    TableStep none pl.t (pathplaneDecide pl k now).1.t := by
  let chosen : PathPlane := { pl with t := pathSelect (refreshUsable pl.t k) now }
  have hsame : SamePaths pl.t chosen.t := by
    have hfresh : SamePaths pl.t (refreshUsable pl.t k) := fun _ => ⟨rfl, rfl, rfl, fun _ => rfl⟩
    exact hfresh.trans (pathSelect_samePaths _ now)
  obtain ⟨hp, -⟩ := pinCheck_cases chosen now
  have hsame' : SamePaths pl.t (pinCheck chosen now).t := by
    intro i
    rw [hp]
    exact hsame i
  refine ⟨?_, hsame'.agentsFrom⟩
  intro hinv
  constructor
  · intro i hi
    have hsel : (pinCheck chosen now).t.sel = some i := hi
    show ((pinCheck chosen now).t.p i).used = true
    rw [hp]
    -- the pinned path is in use, and so is the one that was ranked first
    unfold pinCheck at hsel
    split_ifs at hsel
    · exact pathSelect_selUsed _ now i hsel
    · split at hsel
      · exact pathSelect_selUsed _ now i hsel
      · rename_i j hj
        split_ifs at hsel
        · obtain rfl : j = i := Option.some.inj hsel
          have hfound := firstSlot_spec hj
          simp only [Bool.and_eq_true] at hfound
          exact hfound.1
        · exact pathSelect_selUsed _ now i hsel
  · exact hsame'.agentUnique hinv.agentUnique

/-- Every call into the plane keeps the table, and names no agent but the one it
enters. -/
theorem planeStep_tableStep (blake2b : Blake2b) (base : Bytes) (pl : PathPlane)
    (ev : PlaneEvent) : TableStep ev.entered pl.t (planeStep blake2b base pl ev).t := by
  cases ev with
  | tickScan k now =>
      exact .of_same (tickScan_samePaths blake2b base pl k now) (tickScan_sel blake2b base pl k now)
  | tickSend due now =>
      exact .of_same (tickSend_samePaths pl due now).1 (tickSend_samePaths pl due now).2
  | apply k pr kind src agent now =>
      exact pathplaneApply_tableStep blake2b base pl k pr kind src agent now
  | decide k now => exact pathplaneDecide_tableStep pl k now
  | pin k id forced now =>
      exact ⟨fun hinv => pathplanePin_tableInv hinv k id now,
        (pathplanePin_t pl k id now).1.agentsFrom⟩
  | addIce agent now =>
      exact ⟨fun hinv => pathTableAdd_tableInv hinv .ice none agent now,
        pathTableAdd_agentsFrom pl.t .ice none agent now⟩
  | addEp k kind remote now =>
      simp only [planeStep, pathplaneAddEp]
      split
      · exact .refl _
      · split_ifs
        · exact .refl _
        · exact ⟨fun hinv => pathTableAdd_tableInv hinv kind (some remote) none now,
            pathTableAdd_agentsFrom pl.t kind (some remote) none now⟩
  | offerPath k remote now =>
      simp only [planeStep, pathplaneOfferPath]
      split
      · exact .refl _
      · split_ifs
        all_goals first
          | exact .refl _
          | exact ⟨fun hinv => pathTableOffer_tableInv hinv _ (some remote) now,
              pathTableOffer_agentsFrom pl.t _ (some remote) now⟩
  | dropIce =>
      exact ⟨fun hinv => pathTableDrop_tableInv hinv fun p => p.kind == .ice,
        pathTableDrop_agentsFrom pl.t fun p => p.kind == .ice⟩
  | dropAgent agent =>
      refine ⟨fun hinv => pathTableDropAgent_tableInv hinv agent, ?_⟩
      cases agent with
      | none => exact (TableStep.refl _).agents
      | some a => exact pathTableDrop_agentsFrom pl.t fun p => p.agent == some a
  | resetStats now => exact .of_same (pathTableResetStats_samePaths pl.t now) rfl
  | clear =>
      refine ⟨fun _ => pathTableInit_tableInv, ?_⟩
      intro i a hused
      cases hused
  | blackholeArm kind dst => exact .refl _
  | blackholeMute on => exact .refl _
  | blackholeLift => exact .refl _

end Paths
end Comrade
