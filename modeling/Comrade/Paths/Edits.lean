import Comrade.Paths.TableRun
import Comrade.Paths.PlaneRun

/-!
# What the plane can do to a path

Every call of the path plane edits the slots of its table in a few ways, whatever its
arguments are.

* `PathEdit` lists the edits of one path.
* `planeStep_edits`: a call takes every slot through a chain of edits.
* `run_edits` is the rule for whole runs: what every edit keeps, and a cleared slot has,
  holds of every path in every reachable plane.
-/

namespace Comrade
namespace Paths

open Lib

/-- What `path_table_reset_stats` does to one path. -/
def pathReset (p : Path) (now : Nat) : Path :=
  { p with
    nonce := 0
    sentMs := 0
    outstanding := false
    srtt8 := 0
    peerSrttMs := 0
    peerLossPpt := 0
    peerBaseSrttMs := 0
    lossReg := 0
    lossN := 0
    rttN := 0
    rttI := 0
    lastPongMs := 0
    nextProbeMs := 0
    qualified := false
    tryingSinceMs := now }

theorem pathTableResetStats_eq (t : PathTable) (now : Nat) :
    pathTableResetStats t now = t.mapUsed fun p => pathReset p now := rfl

section Edits

variable (blake2b : Blake2b) (base : Bytes)

/-- One edit of a path. -/
inductive PathEdit : Path → Path → Prop where
  | usable (p : Path) (b : Bool) : PathEdit p { p with usable := b }
  | expire (p : Path) (now : Nat) : PathEdit p (pathProbeExpire p now)
  | peerEp (p : Path) (ep : PathEp) : PathEdit p (pathSetPeerEp blake2b base p ep)
  | selfEp (p : Path) (ep : PathEp) : PathEdit p (pathSetSelfEp blake2b base p ep)
  | sawInbound (p : Path) (ep : PathEp) : PathEdit p (pathSawInbound p ep)
  | peerView (p : Path) (srtt loss rtt : Int) : PathEdit p (pathPeerView p srtt loss rtt)
  | sent (p : Path) (nonce : UInt64) (now : Nat) : PathEdit p (pathProbeSent p nonce now)
  | pong (p : Path) (nonce : UInt64) (now : Nat) : PathEdit p (pathProbePong p nonce now).1
  | reset (p : Path) (now : Nat) : PathEdit p (pathReset p now)
  | cleared (p : Path) : PathEdit p pathZero
  | entered (p : Path) (kind : PathKind) (remote : Option Sockaddr) (agent : Option Agent)
      (ep : PathEp) (now : Nat) : PathEdit p (pathNew kind remote agent ep now)

/-- Every slot of the table is taken through a chain of edits. -/
def TableEdits (t t' : PathTable) : Prop :=
  ∀ i, Relation.ReflTransGen (PathEdit blake2b base) (t.p i) (t'.p i)

variable {blake2b base}

theorem TableEdits.refl (t : PathTable) : TableEdits blake2b base t t := fun _ => .refl

theorem TableEdits.of_eq {t t' : PathTable} (h : t'.p = t.p) : TableEdits blake2b base t t' := by
  intro i
  rw [h]

theorem TableEdits.trans {t t' t'' : PathTable} (h : TableEdits blake2b base t t')
    (h' : TableEdits blake2b base t' t'') : TableEdits blake2b base t t'' :=
  fun i => (h i).trans (h' i)

theorem tableEdits_set {t : PathTable} {i : Slot} {p : Path}
    (h : Relation.ReflTransGen (PathEdit blake2b base) (t.p i) p) :
    TableEdits blake2b base t (t.set i p) := by
  intro j
  by_cases hj : j = i
  · subst hj
    have hp : (t.set j p).p j = p := Function.update_self _ _ _
    rw [hp]
    exact h
  · have hp : (t.set i p).p j = t.p j := Function.update_of_ne hj _ _
    rw [hp]

theorem tableEdits_mapUsed {t : PathTable} {f : Path → Path}
    (hf : ∀ p, Relation.ReflTransGen (PathEdit blake2b base) p (f p)) :
    TableEdits blake2b base t (t.mapUsed f) := by
  intro i
  show Relation.ReflTransGen _ (t.p i) (if (t.p i).used = true then f (t.p i) else t.p i)
  split_ifs
  · exact hf _
  · exact .refl

theorem pathTableAdd_edits (t : PathTable) (kind : PathKind) (remote : Option Sockaddr)
    (agent : Option Agent) (now : Nat) :
    TableEdits blake2b base t (pathTableAdd t kind remote agent now).1 := by
  rcases pathTableAdd_cases t kind remote agent now with hsame | ⟨ep, slot, -, -, -, hset⟩
  · rw [hsame]
    exact .refl t
  · rw [hset]
    exact tableEdits_set (.single (.entered _ kind remote agent ep now))

theorem pathTableOffer_edits (t : PathTable) (kind : PathKind) (remote : Option Sockaddr)
    (now : Nat) : TableEdits blake2b base t (pathTableOffer t kind remote now).1 := by
  rcases pathTableOffer_cases t kind remote now with hsame | ⟨-, hadd⟩
  · rw [hsame]
    exact .refl t
  · rw [hadd]
    exact pathTableAdd_edits t kind remote none now

theorem pathTableDrop_edits (t : PathTable) (gone : Path → Bool) :
    TableEdits blake2b base t (pathTableDrop t gone) := by
  intro i
  show Relation.ReflTransGen _ (t.p i)
    (if (t.p i).used = true ∧ gone (t.p i) = true then pathZero else t.p i)
  split_ifs
  · exact .single (.cleared _)
  · exact .refl

theorem pathSelect_edits (t : PathTable) (now : Nat) :
    TableEdits blake2b base t (pathSelect t now) := by
  have hexpire : TableEdits blake2b base t (expireProbes t now) :=
    tableEdits_mapUsed fun p => .single (.expire p now)
  exact hexpire.trans (.of_eq (pathSelect_p t now))

variable (blake2b base) in
theorem pathHeard_edits (p : Path) (src : PathEp) (pr : PathProbe) :
    Relation.ReflTransGen (PathEdit blake2b base) p (pathHeard blake2b base p src pr) := by
  unfold pathHeard pathApplyTail
  dsimp only
  generalize (if pathEpAny src = true then p.peerEp else src) = from'
  have hsaw : Relation.ReflTransGen (PathEdit blake2b base) p (pathSawInbound p from') :=
    .single (.sawInbound p from')
  by_cases htail : pr.haveTail = false
  · rw [if_pos htail]
    exact hsaw
  · rw [if_neg htail]
    exact (hsaw.tail (.selfEp _ pr.echo)).tail (.peerView _ pr.srttMs pr.lossPpt pr.baseSrttMs)

theorem tickPath_edits (k : PlaneSinks) (eps : List (Agent × PathEp)) (now : Nat) (p : Path) :
    Relation.ReflTransGen (PathEdit blake2b base) p (tickPath blake2b base k eps now p) := by
  have hscored : Relation.ReflTransGen (PathEdit blake2b base) p
      (pathProbeExpire { p with usable := usableNow k p } now) :=
    .tail (.single (.usable p _)) (.expire _ now)
  unfold tickPath
  dsimp only
  split_ifs
  · split
    · exact hscored
    · exact hscored.tail (.peerEp _ _)
  · exact hscored

theorem tickSend_edits (pl : PathPlane) (due : List (Slot × UInt64)) (now : Nat) :
    TableEdits blake2b base pl.t (tickSend pl due now).1.t := by
  have hfold : ∀ st : PathPlane × List ProbeOut,
      TableEdits blake2b base st.1.t (due.foldl (tickSendStep now) st).1.t := by
    induction due with
    | nil => exact fun st => .refl st.1.t
    | cons d due ih =>
        intro st
        have hstep : TableEdits blake2b base st.1.t (tickSendStep now st d).1.t := by
          unfold tickSendStep
          dsimp only
          split_ifs
          · exact .refl _
          · exact tableEdits_set (.single (.sent _ d.2 now))
        exact hstep.trans (ih _)
  exact hfold (pl, [])

theorem pathplaneApply_edits (pl : PathPlane) (k : PlaneSinks) (pr : PathProbe) (kind : PathKind)
    (src : Option Sockaddr) (agent : Option Agent) (now : Nat) :
    TableEdits blake2b base pl.t
      (pathplaneApply blake2b base pl k pr kind src agent now).1.t := by
  unfold pathplaneApply
  dsimp only
  generalize (src.bind pathEpFromSockaddr).getD pathEpZero = ep
  cases pr.type with
  | ping =>
      rcases applyPing_cases blake2b base pl k pr kind ep src agent now with
        ⟨-, hown⟩ | ⟨-, t, o, hoffer, -, -, hdone⟩
      · dsimp only
        rw [hown]
        exact .refl pl.t
      · have htable : TableEdits blake2b base pl.t t := by
          rcases hoffer with rfl | ⟨srck, rfl⟩
          · exact .refl pl.t
          · exact pathTableOffer_edits pl.t srck src now
        dsimp only
        rcases hdone with hdone | ⟨i, hdone⟩
        · rw [hdone]
          exact htable
        · rw [hdone]
          exact htable.trans (tableEdits_set (pathHeard_edits blake2b base (t.p i) ep pr))
  | pong =>
      dsimp only
      unfold applyPong
      split
      · exact .refl pl.t
      · rename_i i _
        dsimp only
        split_ifs
        · exact .refl pl.t
        · exact tableEdits_set
            ((pathHeard_edits blake2b base (pl.t.p i) ep pr).tail (.pong _ pr.nonce now))
  | other code => exact .refl pl.t

theorem pathplaneDecide_edits (pl : PathPlane) (k : PlaneSinks) (now : Nat) :
    TableEdits blake2b base pl.t (pathplaneDecide pl k now).1.t := by
  have husable : TableEdits blake2b base pl.t (refreshUsable pl.t k) :=
    fun i => .single (.usable (pl.t.p i) _)
  have hcheck := pinCheck_cases { pl with t := pathSelect (refreshUsable pl.t k) now } now
  exact (husable.trans (pathSelect_edits _ now)).trans (.of_eq hcheck.1)

theorem pathplanePin_edits (pl : PathPlane) (k : PlaneSinks) (id : PathId) (now : Nat) :
    TableEdits blake2b base pl.t (pathplanePin pl k id now).1.t := by
  unfold pathplanePin
  split
  · exact .refl pl.t
  · rename_i i _
    have hset : TableEdits blake2b base pl.t
        (pl.t.set i { pl.t.p i with usable := usableNow k (pl.t.p i) }) :=
      tableEdits_set (.single (.usable _ _))
    dsimp only
    split_ifs
    · exact hset
    · exact hset.trans (.of_eq rfl)

/-- A call takes every slot through a chain of edits. -/
theorem planeStep_edits (pl : PathPlane) (ev : PlaneEvent) :
    TableEdits blake2b base pl.t (planeStep blake2b base pl ev).t := by
  cases ev with
  | tickScan k now =>
      simp only [planeStep, tickScan]
      split_ifs
      · exact .refl pl.t
      all_goals exact tableEdits_mapUsed fun p => tickPath_edits k _ now p
  | tickSend due now => exact tickSend_edits pl due now
  | apply k pr kind src agent now => exact pathplaneApply_edits pl k pr kind src agent now
  | decide k now => exact pathplaneDecide_edits pl k now
  | pin k id forced now => exact pathplanePin_edits pl k id now
  | addIce agent now => exact pathTableAdd_edits pl.t .ice none agent now
  | addEp k kind remote now =>
      simp only [planeStep, pathplaneAddEp]
      split
      · exact .refl pl.t
      · split_ifs
        · exact .refl pl.t
        · exact pathTableAdd_edits pl.t kind (some remote) none now
  | offerPath k remote now =>
      simp only [planeStep, pathplaneOfferPath]
      split
      · exact .refl pl.t
      · split_ifs
        all_goals first
          | exact .refl pl.t
          | exact pathTableOffer_edits pl.t _ (some remote) now
  | dropIce => exact pathTableDrop_edits pl.t fun p => p.kind == .ice
  | dropAgent agent =>
      cases agent with
      | none => exact .refl pl.t
      | some a => exact pathTableDrop_edits pl.t fun p => p.agent == some a
  | resetStats now => exact tableEdits_mapUsed fun p => .single (.reset p now)
  | clear => exact fun i => .single (.cleared _)
  | blackholeArm kind dst => exact .refl pl.t
  | blackholeMute on => exact .refl pl.t
  | blackholeLift => exact .refl pl.t

/-- What a cleared slot has and every edit keeps holds of every path of a reachable
plane. -/
theorem run_edits {P : Path → Prop} (hzero : P pathZero)
    (hedit : ∀ p p', PathEdit blake2b base p p' → P p → P p') (events : List PlaneEvent)
    (i : Slot) : P ((run (planeStep blake2b base) pathplaneInit events).t.p i) := by
  have hchain : ∀ {p p'}, Relation.ReflTransGen (PathEdit blake2b base) p p' → P p → P p' := by
    intro p p' h hp
    induction h with
    | refl => exact hp
    | tail _ hstep ih => exact hedit _ _ hstep ih
  have hall : ∀ i, P ((run (planeStep blake2b base) pathplaneInit events).t.p i) :=
    run_invariant (I := fun pl : PathPlane => ∀ i, P (pl.t.p i))
      (fun pl ev h i => hchain (planeStep_edits pl ev i) (h i)) (fun _ => hzero) events
  exact hall i

end Edits

end Paths
end Comrade
