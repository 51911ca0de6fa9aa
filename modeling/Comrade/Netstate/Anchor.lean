import Comrade.Netstate.Conn

/-!
# A rendezvous a token may name

The node a family holds may be named in a token once it is confirmed here or vouched for
by a peer (`netstate_facts`).  From then on it is only to give way to its own silence:
`NETSTATE_ANCHOR_GONE` rounds unanswered while the family was up.

* `AnchorOk`: what may be in a token is not a candidate, so no tick drops it.
* `LeftUnanswered`: over the end of a run the node held did not answer, and that many
  rounds of it were due while the family was up; `anchor_quiet` never counts more
  (`leftUnanswered_run`).
* `trialSwap` is an acknowledgement that completes the trial of another node while the
  anchor is vouched for and not confirmed: `netstate_on_dht_ack` guards the trial with
  `anchor_confirmed` alone.
* `anchorKept_iff`: an acknowledgement or a tick treats the anchor as it should if and
  only if it is not such a one, or the anchor is gone.
-/

namespace Comrade
namespace Netstate

open Lib

/-- The node held, the rounds it left unanswered, and whether it is confirmed, vouched
for, or on trial. -/
def anchorOf (f : NetFam) : Bytes × Nat × Bool × Bool × Bool :=
  (f.anchor, f.anchorQuiet, f.anchorConfirmed, f.anchorVouched, f.anchorCandidate)

theorem anchorOf_pend : IgnoresPend anchorOf := fun _ _ => rfl

theorem anchorOf_acts : IgnoresActs anchorOf := IgnoresPend.acts anchorOf_pend

theorem anchorOf_source : IgnoresSource anchorOf := fun _ _ _ _ _ _ _ => rfl

theorem anchorOf_probe : IgnoresProbe anchorOf := fun _ _ _ _ _ => rfl

theorem anchorOf_facts : IgnoresFacts anchorOf := fun _ _ _ => rfl

theorem anchorOf_next (f : NetFam) (next : UInt64) :
    anchorOf { f with anchorNextMs := next } = anchorOf f := rfl

theorem anchorOf_conn : IgnoresConn anchorOf := fun _ _ _ _ _ => rfl

theorem anchorOf_addrs : IgnoresAddrs anchorOf := fun _ _ _ => rfl

/-- A token may name the node held. -/
def tokenNames (f : NetFam) : Prop :=
  f.anchor ≠ [] ∧ (f.anchorConfirmed = true ∨ f.anchorVouched = true)

/-- What `netstate_facts` reports as acknowledged is one a token may name. -/
theorem tokenNames_of_facts {f : NetFam} (hanchor : f.anchor ≠ [])
    (h : (netstateFacts f).dhtAcked = true) : tokenNames f := by
  refine ⟨hanchor, ?_⟩
  simp only [netstateFacts, Bool.or_eq_true, Bool.and_eq_true] at h
  rcases h with h | h
  · exact Or.inl h.1
  · exact Or.inr h

/-- What may be named in a token is not a candidate. -/
def AnchorOk (f : NetFam) : Prop :=
  f.anchorConfirmed = true ∨ f.anchorVouched = true → f.anchorCandidate = false

/-- The round of the node held is due at the tick, and the family is up. -/
def roundMissed (f : NetFam) : NetIn → Bool
  | .tick now => f.anchor != [] && f.anchorNextMs ≤ now && f.conn == .up
  | _ => false

/-- The node held answers for itself. -/
def anchorAnswers (i : Fam) (f : NetFam) : NetIn → Bool
  | .dhtAck family epoch node _ =>
      family == i && epoch == f.epoch && node == f.anchor && node.length ≤ netstateSaMax
  | .anchorSeen family _ => family == i
  | _ => false

/-- All that one call can do to the node held and its silence. -/
structure AnchorStep (i : Fam) (f : NetFam) (e : NetIn) (f' : NetFam) : Prop where
  ok : AnchorOk f → AnchorOk f'
  quiet : f'.anchorQuiet = 0 ∨
    (f'.anchor = f.anchor ∧ (f.anchor ≠ [] → anchorAnswers i f e = false) ∧
      f'.anchorQuiet ≤ f.anchorQuiet + (roundMissed f e).toNat)

/-- A call that is no answer and leaves the node held as it is. -/
theorem AnchorStep.keep {i : Fam} {f f' : NetFam} {e : NetIn} (heq : anchorOf f' = anchorOf f)
    (hanswer : f.anchor ≠ [] → anchorAnswers i f e = false) : AnchorStep i f e f' := by
  simp only [anchorOf, Prod.mk.injEq] at heq
  obtain ⟨hanchor, hquiet, hconf, hvouch, hcand⟩ := heq
  refine ⟨?_, Or.inr ⟨hanchor, hanswer, by omega⟩⟩
  unfold AnchorOk
  rw [hconf, hvouch, hcand]
  exact id

/-- A call after which the silence of the node held is counted from zero. -/
theorem AnchorStep.fresh {i : Fam} {f f' : NetFam} {e : NetIn} (hok : AnchorOk f → AnchorOk f')
    (hquiet : f'.anchorQuiet = 0) : AnchorStep i f e f' :=
  ⟨hok, Or.inl hquiet⟩

/-! ## The parts of the calls -/

/-- The node taken, unless it is none or the one held. -/
theorem anchorSet_cases (node : Bytes) (now : UInt64) (candidate : Bool) (acks : Nat)
    (f : NetFam) :
    anchorSet node now candidate acks f = f ∨
      anchorOf (anchorSet node now candidate acks f) = (node, 0, false, false, candidate) := by
  unfold anchorSet
  split
  · exact Or.inl rfl
  split
  · exact Or.inl rfl
  · exact Or.inr rfl

/-- A node on trial beside the anchor is taken. -/
theorem anchorSet_other {node : Bytes} {f : NetFam} (hnode : node ≠ [])
    (hlen : node.length ≤ netstateSaMax) (hother : f.anchor ≠ node) (now : UInt64)
    (candidate : Bool) (acks : Nat) :
    anchorOf (anchorSet node now candidate acks f) = (node, 0, false, false, candidate) := by
  unfold anchorSet
  rw [if_neg (not_or.mpr ⟨hnode, not_lt.mpr hlen⟩), if_neg hother]
  rfl

theorem anchorOf_anchorTake {node : Bytes} {f : NetFam} (hnode : node ≠ [])
    (hlen : node.length ≤ netstateSaMax) (hother : f.anchor ≠ node) (isHost : Bool)
    (now : UInt64) : anchorOf (anchorTake isHost node now f) = (node, 0, true, false, false) := by
  have hset := anchorSet_other hnode hlen hother now false anchorQualify
  rw [anchorTake, view_factsMoved anchorOf_acts, view_raiseAct anchorOf_pend]
  simp only [anchorOf, Prod.mk.injEq] at hset ⊢
  exact ⟨hset.1, hset.2.1, trivial, hset.2.2.2⟩

/-- A confirmation leaves the node and its silence, and ends its trial. -/
theorem anchorConfirm_cases (isHost : Bool) (now : UInt64) (f : NetFam) :
    anchorConfirm isHost now f = f ∨
      anchorOf (anchorConfirm isHost now f) =
        (f.anchor, f.anchorQuiet, true, f.anchorVouched, false) := by
  unfold anchorConfirm
  split
  · exact Or.inl rfl
  split
  · exact Or.inl rfl
  · right
    rw [view_factsMoved anchorOf_acts]
    rfl

theorem anchorOk_of_eq {f : NetFam} {a : Bytes} {n : Nat} {confirmed vouched candidate : Bool}
    (heq : anchorOf f = (a, n, confirmed, vouched, candidate))
    (h : confirmed = true ∨ vouched = true → candidate = false) : AnchorOk f := by
  simp only [anchorOf, Prod.mk.injEq] at heq
  unfold AnchorOk
  rw [heq.2.2.1, heq.2.2.2.1, heq.2.2.2.2]
  exact h

theorem AnchorOk.anchorConfirm {f : NetFam} (h : AnchorOk f) (isHost : Bool) (now : UInt64) :
    AnchorOk (anchorConfirm isHost now f) := by
  rcases anchorConfirm_cases isHost now f with heq | heq
  · rw [heq]
    exact h
  · exact anchorOk_of_eq heq fun _ => rfl

theorem anchorOf_candDrop (isHost : Bool) (f : NetFam) :
    anchorOf (candDrop isHost f) = ([], 0, false, f.anchorVouched, false) := by
  rw [candDrop, view_factsMoved anchorOf_acts]
  rfl

/-! ## The trial of another node -/

/-- The nodes on trial and whether the family is choosing one. -/
def trialOf (f : NetFam) : List Cand × Bool := (f.cands, f.picking)

/-- The node has answered often and long enough once this answer is counted. -/
def trialDone (cands : List Cand) (node : Bytes) (now : UInt64) : Prop :=
  ∃ c, cands.find? (fun c => c.addr == node) = some c ∧ anchorQualify ≤ c.acks + 1 ∧
    anchorProveMs ≤ now - c.firstMs

theorem candQualified_fresh (node : Bytes) (now : UInt64) :
    candQualified (candCount (candFresh node now) now) now = false := rfl

theorem candQualified_count (c : Cand) (now : UInt64) :
    candQualified (candCount c now) now = true ↔
      anchorQualify ≤ c.acks + 1 ∧ anchorProveMs ≤ now - c.firstMs := by
  have hacks : (anchorQualify ≤ (candCount c now).acks) ↔ anchorQualify ≤ c.acks + 1 := by
    simp only [candCount]
    split
    · rfl
    · omega
  unfold candQualified
  rw [Bool.and_eq_true, decide_eq_true_iff, decide_eq_true_iff, hacks]
  rfl

/-- `cand_ack` finds a node to have earned its place when its trial is done: a node whose
answers have only begun is not. -/
theorem candAck_earned (cands : List Cand) (node : Bytes) (now : UInt64) :
    (candAck cands node now).2 = true ↔ trialDone cands node now := by
  unfold candAck trialDone
  cases hidx : cands.findIdx? (fun c => c.addr == node) with
  | some k =>
      have hget : cands.find? (fun c => c.addr == node) = cands[k]? := by
        rw [List.find?_eq_bind_findIdx?_getElem?, hidx]
        rfl
      simp only [Option.any_eq_true, candQualified_count, hget]
  | none =>
      have hnone : cands.find? (fun c => c.addr == node) = none := by
        rw [List.findIdx?_eq_none_iff] at hidx
        rw [List.find?_eq_none]
        intro c hc
        simp [hidx c hc]
      simp only [hnone, candQualified_fresh]
      constructor
      · intro h
        split at h
        · cases h
        · split at h <;> cases h
      · rintro ⟨c, hc, _⟩
        cases hc

theorem candTrial_earned (node : Bytes) (now : UInt64) (f : NetFam) :
    (candTrial node now f).2 = true ↔
      f.anchorConfirmed = false ∧ trialDone f.cands node now := by
  unfold candTrial
  split
  · rename_i h
    simp [h]
  · rename_i h
    rw [candAck_earned]
    simp [h]

/-- What `netstate_on_dht_ack` does to the anchor when another node has answered. -/
theorem dhtAckOther_cases (isHost : Bool) {node : Bytes} (now : UInt64) {f : NetFam}
    (hnode : node ≠ []) (hlen : node.length ≤ netstateSaMax) (hother : f.anchor ≠ node) :
    anchorOf (dhtAckOther isHost node now f) = anchorOf f ∨
      (anchorOf (dhtAckOther isHost node now f) = (node, 0, true, false, false) ∧
        f.picking = true ∧ f.anchorConfirmed = false ∧ trialDone f.cands node now) ∨
      (anchorOf (dhtAckOther isHost node now f) = (node, 0, false, false, true) ∧
        (f.anchor ≠ [] → anchorGone ≤ f.anchorQuiet)) := by
  unfold dhtAckOther
  split
  · exact Or.inl rfl
  rename_i hpick
  rw [Bool.not_eq_false] at hpick
  simp only
  split
  · rename_i hearned
    rw [candTrial_earned] at hearned
    refine Or.inr (Or.inl ⟨anchorOf_anchorTake hnode hlen ?_ isHost now, hpick, hearned⟩)
    exact hother
  split
  · exact Or.inl rfl
  · rename_i hgone
    refine Or.inr (Or.inr ⟨anchorSet_other hnode hlen ?_ now true 1, ?_⟩)
    · exact hother
    intro hne
    by_contra hlt
    exact hgone ⟨hne, not_le.mp hlt⟩

/-! ## What one call does -/

theorem anchorOk_congr {f f' : NetFam} (heq : anchorOf f' = anchorOf f) (h : AnchorOk f) :
    AnchorOk f' :=
  anchorOk_of_eq heq h

theorem trialOf_dhtAckUp (isHost : Bool) (epoch : UInt32) (f : NetFam) :
    trialOf (dhtAckUp isHost epoch f) = trialOf f :=
  view_dhtAckUp (fun _ _ _ => rfl) (fun _ _ _ _ _ => rfl) (fun _ _ _ => rfl) isHost epoch f

/-- The anchor answered. -/
theorem anchor_answered (isHost : Bool) (now next : UInt64) (f : NetFam) :
    (anchorConfirm isHost now (anchorCount now { f with anchorNextMs := next })).anchor =
        f.anchor ∧
      (anchorConfirm isHost now (anchorCount now { f with anchorNextMs := next })).anchorQuiet = 0 ∧
      (AnchorOk f →
        AnchorOk (anchorConfirm isHost now (anchorCount now { f with anchorNextMs := next }))) := by
  have hok : AnchorOk f → AnchorOk (anchorCount now { f with anchorNextMs := next }) := id
  have hcount : anchorOf (anchorCount now { f with anchorNextMs := next }) =
      (f.anchor, 0, f.anchorConfirmed, f.anchorVouched, f.anchorCandidate) := rfl
  generalize anchorCount now { f with anchorNextMs := next } = g at hok hcount ⊢
  have hanchor : g.anchor = f.anchor := congrArg Prod.fst hcount
  have hquiet : g.anchorQuiet = 0 := congrArg (fun x => x.2.1) hcount
  rcases anchorConfirm_cases isHost now g with heq | heq
  · rw [heq]
    exact ⟨hanchor, hquiet, hok⟩
  · refine ⟨?_, ?_, fun h => (hok h).anchorConfirm isHost now⟩
    · rw [← hanchor]
      exact congrArg Prod.fst heq
    · rw [← hquiet]
      exact congrArg (fun x => x.2.1) heq

/-- What an acknowledgement stamped with the family's epoch does to the anchor. -/
inductive AckStep (node : Bytes) (now : UInt64) (f f' : NetFam) : Prop
  /-- It leaves the anchor, which did not answer. -/
  | keep (heq : anchorOf f' = anchorOf f)
      (hother : f.anchor ≠ [] → ¬(node = f.anchor ∧ node.length ≤ netstateSaMax))
  /-- The anchor answered. -/
  | answered (hanchor : f'.anchor = f.anchor) (hquiet : f'.anchorQuiet = 0)
      (hok : AnchorOk f → AnchorOk f')
  /-- Another node has won its trial. -/
  | won (heq : anchorOf f' = (node, 0, true, false, false)) (hnode : node ≠ [])
      (hlen : node.length ≤ netstateSaMax) (hother : node ≠ f.anchor)
      (hpick : f.picking = true) (hconf : f.anchorConfirmed = false)
      (hdone : trialDone f.cands node now)
  /-- There is no anchor, or it is gone. -/
  | gone (heq : anchorOf f' = (node, 0, false, false, true))
      (hgone : f.anchor ≠ [] → anchorGone ≤ f.anchorQuiet)

/-- An acknowledgement of another node, stamped with the family's epoch. -/
theorem onDhtAck_other (isHost : Bool) {node : Bytes} (now : UInt64) {f : NetFam}
    (hnode : node ≠ []) (hlen : node.length ≤ netstateSaMax) (hother : node ≠ f.anchor) :
    netstateOnDhtAck isHost f.epoch node now f = dhtAckOther isHost node now
      { dhtAckUp isHost f.epoch f with anchorNextMs := now + netstateRdvMs } := by
  have hup : anchorOf (dhtAckUp isHost f.epoch f) = anchorOf f :=
    view_dhtAckUp anchorOf_acts anchorOf_conn anchorOf_facts isHost f.epoch f
  have hanchor : (dhtAckUp isHost f.epoch f).anchor = f.anchor := congrArg Prod.fst hup
  unfold netstateOnDhtAck
  rw [if_neg (by simp)]
  simp only
  rw [if_neg (not_or.mpr ⟨hnode, not_lt.mpr hlen⟩)]
  unfold dhtAckNode
  simp only
  rw [if_neg]
  rw [hanchor]
  exact fun h => hother h.symm

theorem ackStep_onDhtAck (isHost : Bool) (node : Bytes) (now : UInt64) (f : NetFam) :
    AckStep node now f (netstateOnDhtAck isHost f.epoch node now f) := by
  have hup : anchorOf (dhtAckUp isHost f.epoch f) = anchorOf f :=
    view_dhtAckUp anchorOf_acts anchorOf_conn anchorOf_facts isHost f.epoch f
  have htrial : trialOf (dhtAckUp isHost f.epoch f) = trialOf f :=
    trialOf_dhtAckUp isHost f.epoch f
  unfold netstateOnDhtAck
  rw [if_neg (by simp)]
  simp only
  generalize dhtAckUp isHost f.epoch f = g at hup htrial ⊢
  have hanchor : g.anchor = f.anchor := congrArg Prod.fst hup
  have hquiet : g.anchorQuiet = f.anchorQuiet := congrArg (fun x => x.2.1) hup
  have hconf : g.anchorConfirmed = f.anchorConfirmed := congrArg (fun x => x.2.2.1) hup
  have hcands : g.cands = f.cands := congrArg Prod.fst htrial
  have hpick : g.picking = f.picking := congrArg Prod.snd htrial
  split
  · rename_i hbad
    refine .keep hup ?_
    rintro hne ⟨rfl, hlen⟩
    rcases hbad with hbad | hbad
    · exact hne hbad
    · omega
  rename_i hvalid
  push Not at hvalid
  unfold dhtAckNode
  simp only
  split
  · obtain ⟨hanchor', hquiet', hok⟩ := anchor_answered isHost now (now + netstateRdvMs) g
    exact .answered (hanchor'.trans hanchor) hquiet' fun h => hok (anchorOk_congr hup h)
  · rename_i hother
    have hnode : ¬node = f.anchor := fun h => hother (hanchor.trans h.symm)
    have hnext : anchorOf { g with anchorNextMs := now + netstateRdvMs } = anchorOf f := by
      rw [anchorOf_next]
      exact hup
    rcases dhtAckOther_cases isHost now hvalid.1 hvalid.2
      (f := { g with anchorNextMs := now + netstateRdvMs }) hother with
      heq | ⟨heq, hpick', hconf', hdone⟩ | ⟨heq, hgone⟩
    · exact .keep (heq.trans hnext) fun _ h => hnode h.1
    · exact .won heq hvalid.1 hvalid.2 hnode (hpick.symm.trans hpick') (hconf.symm.trans hconf')
        (hcands ▸ hdone)
    · refine .gone heq ?_
      intro hne
      have hle := hgone (fun h => hne (hanchor.symm.trans h))
      show anchorGone ≤ f.anchorQuiet
      rw [← hquiet]
      exact hle

theorem anchorStep_onDhtAck (isHost : Bool) (i : Fam) (node : Bytes) (now : UInt64)
    (f : NetFam) :
    AnchorStep i f (.dhtAck i f.epoch node now) (netstateOnDhtAck isHost f.epoch node now f) := by
  cases ackStep_onDhtAck isHost node now f with
  | keep heq hother =>
      refine .keep heq ?_
      intro hne
      have := hother hne
      simp only [anchorAnswers, beq_self_eq_true, Bool.true_and, Bool.and_eq_false_iff,
        beq_eq_false_iff_ne, decide_eq_false_iff_not]
      tauto
  | answered hanchor hquiet hok => exact .fresh hok hquiet
  | won heq =>
      refine .fresh (fun _ => anchorOk_of_eq heq fun _ => rfl) ?_
      exact congrArg (fun x => x.2.1) heq
  | gone heq =>
      refine .fresh (fun _ => anchorOk_of_eq heq (by simp)) ?_
      exact congrArg (fun x => x.2.1) heq

/-- A node named to the family. -/
theorem anchorStep_anchorSet {i : Fam} {f : NetFam} {e : NetIn} (node : Bytes) (now : UInt64)
    (hanswer : anchorAnswers i f e = false) :
    AnchorStep i f e (anchorSet node now false 0 f) := by
  rcases anchorSet_cases node now false 0 f with heq | heq
  · rw [heq]
    exact .keep rfl fun _ => hanswer
  · exact .fresh (fun _ => anchorOk_of_eq heq fun _ => rfl) (congrArg (fun x => x.2.1) heq)

theorem anchorStep_onRdvVouched (isHost : Bool) {i : Fam} {f : NetFam} {e : NetIn} (node : Bytes)
    (now : UInt64) (hanswer : anchorAnswers i f e = false) :
    AnchorStep i f e (netstateOnRdvVouched isHost node now f) := by
  have hset := anchorStep_anchorSet (i := i) (e := e) node now hanswer
  unfold netstateOnRdvVouched
  simp only
  generalize anchorSet node now false 0 f = g at hset ⊢
  split
  · exact hset
  · -- vouched for, and with that no longer a candidate
    have hview : anchorOf (factsMoved isHost
        (raiseAct { g with anchorVouched := true, anchorCandidate := false } nsaEmitRdv)) =
        (g.anchor, g.anchorQuiet, g.anchorConfirmed, true, false) := by
      rw [view_factsMoved anchorOf_acts]
      rfl
    generalize factsMoved isHost
      (raiseAct { g with anchorVouched := true, anchorCandidate := false } nsaEmitRdv) = g'
      at hview ⊢
    have hanchor : g'.anchor = g.anchor := congrArg Prod.fst hview
    have hquiet : g'.anchorQuiet = g.anchorQuiet := congrArg (fun x => x.2.1) hview
    refine ⟨fun _ => anchorOk_of_eq hview fun _ => rfl, ?_⟩
    rw [hanchor, hquiet]
    exact hset.quiet

/-- The round of a tick counts at most the one that is due, or the candidate goes. -/
theorem tickRound_cases (isHost : Bool) (now : UInt64) (f : NetFam) :
    (anchorOf (tickRound isHost now f) =
        (f.anchor, f.anchorQuiet + (roundMissed f (.tick now)).toNat, f.anchorConfirmed,
          f.anchorVouched, f.anchorCandidate)) ∨
      (f.anchorCandidate = true ∧
        anchorOf (tickRound isHost now f) = ([], 0, false, f.anchorVouched, false)) := by
  unfold tickRound
  split
  · rename_i hdue
    simp only
    split
    · rename_i hup
      have hmissed : roundMissed f (.tick now) = true := by
        have hconn : f.conn = .up := hup
        simp [roundMissed, hdue.1, hdue.2, hconn]
      unfold tickQuiet
      simp only
      split
      · split
        · rename_i hcand
          right
          refine ⟨hcand, ?_⟩
          rw [anchorOf_candDrop]
        · left
          rw [view_raiseAct anchorOf_pend, hmissed]
          rfl
      · left
        rw [hmissed]
        rfl
    · rename_i hdown
      have hmissed : roundMissed f (.tick now) = false := by
        have hconn : ¬f.conn = .up := hdown
        simp [roundMissed, hconn]
      left
      rw [hmissed, anchorOf_next]
      rfl
  · rename_i hdue
    have hmissed : roundMissed f (.tick now) = false := by
      rw [not_and_or, not_not] at hdue
      rcases hdue with h | h
      · simp [roundMissed, h]
      · simp [roundMissed, h]
    left
    rw [hmissed]
    rfl

/-- The tick leaves the node and counts at most its missed round, or the node was a
candidate and goes. -/
theorem tick_cases (isHost : Bool) (now : UInt64) (f : NetFam) :
    (netstateTick isHost now f).anchor = f.anchor ∧
        (netstateTick isHost now f).anchorQuiet =
          f.anchorQuiet + (roundMissed f (.tick now)).toNat ∧
        (AnchorOk f → AnchorOk (netstateTick isHost now f)) ∨
      f.anchorCandidate = true ∧ (netstateTick isHost now f).anchorQuiet = 0 ∧
        AnchorOk (netstateTick isHost now f) := by
  -- the source and the probe do not touch what the round reads
  have hsame : ∀ {α : Type} {view : NetFam → α}, IgnoresPend view → IgnoresSource view →
      IgnoresProbe view → view (tickProbe now (tickSrc now f)) = view f := by
    intro α view hp hs hb
    rw [view_tickProbe hp hb, view_tickSrc hp.acts hs]
  have hview := hsame anchorOf_pend anchorOf_source anchorOf_probe
  have hmissed : roundMissed (tickProbe now (tickSrc now f)) (.tick now) =
      roundMissed f (.tick now) :=
    @hsame Bool (fun f => roundMissed f (.tick now)) (fun _ _ => rfl) (fun _ _ _ _ _ _ _ => rfl)
      (fun _ _ _ _ _ => rfl)
  unfold netstateTick
  generalize tickProbe now (tickSrc now f) = g at hview hmissed ⊢
  simp only [anchorOf, Prod.mk.injEq] at hview
  obtain ⟨hanchor, hquiet, hconf, hvouch, hcand⟩ := hview
  have hround := tickRound_cases isHost now g
  rw [hmissed, hanchor, hquiet, hconf, hvouch, hcand] at hround
  generalize tickRound isHost now g = r at hround ⊢
  rcases hround with hround | ⟨hcandidate, hround⟩
  · have hconfirm := anchorConfirm_cases isHost now r
    have hrok : AnchorOk f → AnchorOk r := fun h => anchorOk_of_eq hround h
    have hcok : AnchorOk f → AnchorOk (anchorConfirm isHost now r) :=
      fun h => (hrok h).anchorConfirm isHost now
    generalize anchorConfirm isHost now r = c at hconfirm hcok ⊢
    simp only [anchorOf, Prod.mk.injEq] at hround
    have hc : c.anchor = f.anchor ∧
        c.anchorQuiet = f.anchorQuiet + (roundMissed f (.tick now)).toNat ∧
        (c.anchorCandidate = true → f.anchorCandidate = true) := by
      rcases hconfirm with rfl | hconfirm
      · exact ⟨hround.1, hround.2.1, fun h => hround.2.2.2.2.symm.trans h⟩
      · simp only [anchorOf, Prod.mk.injEq] at hconfirm
        refine ⟨hconfirm.1.trans hround.1, hconfirm.2.1.trans hround.2.1, ?_⟩
        intro h
        rw [hconfirm.2.2.2.2] at h
        exact Bool.noConfusion h
    unfold tickCeiling
    split
    · rename_i hdrop
      right
      have hview := anchorOf_candDrop isHost c
      exact ⟨hc.2.2 hdrop.2.1, congrArg (fun x => x.2.1) hview,
        anchorOk_of_eq hview fun _ => rfl⟩
    · exact Or.inl ⟨hc.1, hc.2.1, hcok⟩
  · -- the candidate is gone, and nothing after it touches what is not there
    right
    have hnil : r.anchor = [] := congrArg Prod.fst hround
    have hconfirm : anchorConfirm isHost now r = r := by
      rw [anchorConfirm, if_pos (Or.inl hnil)]
    rw [hconfirm, tickCeiling, if_neg (fun h => h.1 hnil)]
    exact ⟨hcandidate, congrArg (fun x => x.2.1) hround, anchorOk_of_eq hround fun _ => rfl⟩

/-- A tick does not drop what a token may name. -/
theorem tick_keeps {f : NetFam} (hok : AnchorOk f) (hnames : tokenNames f) (isHost : Bool)
    (now : UInt64) : (netstateTick isHost now f).anchor = f.anchor := by
  rcases tick_cases isHost now f with ⟨hanchor, _⟩ | ⟨hcand, _⟩
  · exact hanchor
  · rw [hok hnames.2] at hcand
    exact Bool.noConfusion hcand

/-- A snapshot leaves the node; a move starts the count of its silence again. -/
theorem anchorStep_netmon (isHost : Bool) (i : Fam) (f : NetFam) (changed : UInt32)
    (addrs : List NetmonAddr) (now : UInt64) :
    AnchorStep i f (.netmon changed addrs now) (netstateOnNetmon isHost i changed addrs now f) := by
  obtain ⟨new, left, pend, _, heq⟩ := netstateOnNetmon_eq isHost i changed addrs now f
  simp only at heq
  rw [heq]
  have hkept := view_syncHasAddr anchorOf_acts anchorOf_conn isHost
    { f with locals := keptLocals f i addrs ++ new, xlats := left, pend := pend }
  generalize syncHasAddr isHost _ = g at hkept ⊢
  split
  · exact .keep hkept fun _ => rfl
  · have hproofs : ∀ (same wasUp : Bool) (g : NetFam),
        anchorOf (moveProofs same wasUp g) = anchorOf g := by
      intro same wasUp g
      unfold moveProofs
      split
      · rfl
      · split <;> rfl
    have hmove : ∀ same wasUp : Bool, anchorOf (famMove isHost same wasUp now g) =
        (f.anchor, 0, f.anchorConfirmed, f.anchorVouched, f.anchorCandidate) := by
      intro same wasUp
      unfold famMove
      rw [view_moveRaise anchorOf_pend]
      show anchorOf (moveProofs same wasUp (moveReset same now g)) = _
      rw [hproofs]
      simp only [anchorOf, Prod.mk.injEq] at hkept
      simp only [anchorOf, moveReset, Prod.mk.injEq]
      exact ⟨hkept.1, trivial, hkept.2.2⟩
    exact .fresh (fun h => anchorOk_of_eq (hmove _ _) h) (congrArg (fun x => x.2.1) (hmove _ _))

/-- What one call does to the node held and its silence. -/
theorem anchorStep_famStep (isHost : Bool) (i : Fam) (f : NetFam) (e : NetIn) :
    AnchorStep i f e (famStep isHost i f e) := by
  have hkeep : ∀ {family : Fam} {g : NetFam → NetFam}, anchorOf (g f) = anchorOf f →
      anchorAnswers i f e = false → AnchorStep i f e (addressed family i g f) := by
    intro family g h hanswer
    exact .keep (addressed_keeps h) fun _ => hanswer
  -- a call for the other family is none of this one's
  have hto : ∀ {family : Fam} {g : NetFam → NetFam}, (family ≠ i → anchorAnswers i f e = false) →
      (family = i → AnchorStep i f e (g f)) → AnchorStep i f e (addressed family i g f) := by
    intro family g hother h
    unfold addressed
    split
    · rename_i hfam
      exact h hfam
    · rename_i hfam
      exact .keep rfl fun _ => hother hfam
  cases e with
  | netmon changed addrs now => exact anchorStep_netmon isHost i f changed addrs now
  | src family epoch addr scope text now =>
      exact hkeep (view_onSrc anchorOf_acts anchorOf_source anchorOf_conn _ _ _ _ _ _ f) rfl
  | probeStarted family epoch now =>
      exact hkeep (view_onProbeStarted anchorOf_probe epoch now f) rfl
  | probeDeferred family epoch => exact hkeep (view_onProbeDeferred anchorOf_probe epoch f) rfl
  | probeDone family epoch now =>
      exact hkeep (view_onProbeDone anchorOf_pend anchorOf_probe epoch now f) rfl
  | servers family epoch now =>
      exact hkeep (view_onServers anchorOf_pend anchorOf_probe epoch now f) rfl
  | roundtrip family epoch =>
      exact hkeep (view_onRoundtrip anchorOf_acts anchorOf_conn epoch f) rfl
  | dhtAck family epoch node now =>
      refine hto (fun h => by simp [anchorAnswers, h]) ?_
      rintro rfl
      by_cases hepoch : epoch = f.epoch
      · subst hepoch
        exact anchorStep_onDhtAck isHost family node now f
      · rw [netstateOnDhtAck, if_pos hepoch]
        exact .keep rfl fun _ => by simp [anchorAnswers, hepoch]
  | anchorSeen family now =>
      refine hto (fun h => by simp [anchorAnswers, h]) ?_
      intro _
      unfold netstateOnAnchorSeen
      split
      · rename_i hnil
        exact .keep rfl fun hne => absurd hnil hne
      · exact .fresh id rfl
  | rdvOffered family node now =>
      exact hto (fun _ => rfl) fun _ => anchorStep_anchorSet node now rfl
  | rdvVouched family node now =>
      exact hto (fun _ => rfl) fun _ => anchorStep_onRdvVouched isHost node now rfl
  | setPicking family on =>
      refine hkeep ?_ rfl
      unfold netstateSetPicking
      split <;> rfl
  | reflexive family epoch addr =>
      exact hkeep (view_onReflexive anchorOf_acts anchorOf_addrs family epoch addr f) rfl
  | dhtConcluded family concluded =>
      exact hkeep (view_onDhtConcluded anchorOf_acts anchorOf_facts isHost concluded f) rfl
  | tick now =>
      rcases tick_cases isHost now f with ⟨hanchor, hquiet, hok⟩ | ⟨_, hquiet, hok⟩
      · exact ⟨hok, Or.inr ⟨hanchor, fun _ => rfl, Nat.le_of_eq hquiet⟩⟩
      · exact .fresh (fun _ => hok) hquiet
  | resync => exact .keep rfl fun _ => rfl
  | takeActions => exact .keep rfl fun _ => rfl

/-! ## Over runs -/

/-- The state of a host after the calls. -/
def hostAfter (now : UInt64) (es : List NetIn) : NetState :=
  run netstateStep (netstateInit true now) es

/-- A round of the node held, left unanswered while the family was up. -/
def missedRound (i : Fam) (ns : NetState) (e : NetIn) : Option Unit :=
  if roundMissed (ns.f i) e = true then some () else none

/-- Over the end of the run the node held was held throughout and never answered, and at
least `n` of its rounds were due while the family was up. -/
def LeftUnanswered (now : UInt64) (es : List NetIn) (i : Fam) (n : Nat) : Prop :=
  ∃ pre post, es = pre ++ post ∧
    EveryStep netstateStep
      (fun ns e => (ns.f i).anchor = ((hostAfter now es).f i).anchor ∧
        anchorAnswers i (ns.f i) e = false) (hostAfter now pre) post ∧
    n ≤ (observe netstateStep (missedRound i) (hostAfter now pre) post).length

theorem hostAfter_concat (now : UInt64) (es : List NetIn) (e : NetIn) :
    hostAfter now (es ++ [e]) = netstateStep (hostAfter now es) e :=
  run_concat _ _ _ _

theorem hostAfter_append (now : UInt64) (pre post : List NetIn) :
    hostAfter now (pre ++ post) = run netstateStep (hostAfter now pre) post :=
  List.foldl_append

/-- What may be named in a token is not a candidate, over every run. -/
theorem anchorOk_run (now : UInt64) (es : List NetIn) (i : Fam) :
    AnchorOk ((hostAfter now es).f i) := by
  refine run_invariant (I := fun ns : NetState => AnchorOk (ns.f i)) ?_ (fun _ => rfl) es
  intro ns e h
  exact (anchorStep_famStep ns.isHost i (ns.f i) e).ok h

/-- `anchor_quiet` counts rounds the node held left unanswered. -/
theorem leftUnanswered_run (now : UInt64) (i : Fam) (es : List NetIn)
    (hheld : ((hostAfter now es).f i).anchor ≠ []) :
    LeftUnanswered now es i ((hostAfter now es).f i).anchorQuiet := by
  induction es using List.reverseRecOn with
  | nil => exact absurd rfl hheld
  | append_singleton es e ih =>
      have hstep := anchorStep_famStep (hostAfter now es).isHost i ((hostAfter now es).f i) e
      have hnext : (hostAfter now (es ++ [e])).f i =
          famStep (hostAfter now es).isHost i ((hostAfter now es).f i) e := by
        rw [hostAfter_concat]
        rfl
      rw [← hnext] at hstep
      rcases hstep.quiet with hzero | ⟨hanchor, hanswer, hquiet⟩
      · -- the count begins anew with the run that has nothing in it
        exact ⟨es ++ [e], [], by simp, trivial, by rw [hzero]; exact Nat.zero_le _⟩
      · have hne : ((hostAfter now es).f i).anchor ≠ [] := by
          rw [← hanchor]
          exact hheld
        obtain ⟨pre, post, hes, hsame, hcount⟩ := ih hne
        have hrun : run netstateStep (hostAfter now pre) post = hostAfter now es := by
          rw [← hostAfter_append, ← hes]
        refine ⟨pre, post ++ [e], by rw [hes, List.append_assoc], ?_, ?_⟩
        · rw [hanchor]
          refine hsame.concat ?_
          rw [hrun]
          exact ⟨rfl, hanswer hne⟩
        · rw [observe_concat, List.length_append, hrun]
          unfold missedRound
          cases hm : roundMissed ((hostAfter now es).f i) e with
          | false =>
              rw [hm, Bool.toNat_false] at hquiet
              exact Nat.le_trans hquiet (Nat.le_trans hcount (Nat.le_add_right _ _))
          | true =>
              rw [hm, Bool.toNat_true] at hquiet
              exact Nat.le_trans hquiet (Nat.add_le_add_right hcount 1)

def isTick : NetIn → Bool
  | .tick _ => true
  | _ => false

/-- A round is only due at a tick. -/
theorem missedRound_le (i : Fam) (ns : NetState) (e : NetIn) :
    (missedRound i ns e).toList.length ≤ (isTick e).toNat := by
  unfold missedRound
  cases e with
  | tick when => split <;> simp [isTick]
  | _ => simp [roundMissed]

/-- No more rounds are left unanswered than there were ticks. -/
theorem LeftUnanswered.le_ticks {now : UInt64} {es : List NetIn} {i : Fam} {n : Nat}
    (h : LeftUnanswered now es i n) : n ≤ es.countP isTick := by
  obtain ⟨pre, post, rfl, -, hcount⟩ := h
  have hbound : ∀ ns : NetState,
      (observe netstateStep (missedRound i) ns post).length ≤ post.countP isTick := by
    clear hcount
    induction post with
    | nil => exact fun _ => Nat.le_refl 0
    | cons e post ih =>
        intro ns
        have hrest := ih (netstateStep ns e)
        have hone := missedRound_le i ns e
        rw [observe_cons, List.length_append, List.countP_cons]
        cases hm : isTick e with
        | false =>
            rw [hm, Bool.toNat_false] at hone
            simp only [Bool.false_eq_true, if_false]
            omega
        | true =>
            rw [hm, Bool.toNat_true] at hone
            simp only [if_true]
            omega
  rw [List.countP_append]
  have := hbound (hostAfter now pre)
  omega

/-- The call completes the trial of another node while the anchor is vouched for by a peer
and not confirmed here. -/
def trialSwap (i : Fam) (f : NetFam) : NetIn → Prop
  | .dhtAck family epoch node now =>
      family = i ∧ epoch = f.epoch ∧ node ≠ [] ∧ node.length ≤ netstateSaMax ∧
        f.anchor ≠ [] ∧ node ≠ f.anchor ∧ f.picking = true ∧
        f.anchorVouched = true ∧ f.anchorConfirmed = false ∧ trialDone f.cands node now
  | _ => False

/-- The call `e` after the calls `es` treats a node a token may name as it should: an
acknowledgement replaces it only once it is gone, and a tick does not drop it. -/
def AnchorKept (now : UInt64) (es : List NetIn) (e : NetIn) (i : Fam) : Prop :=
  tokenNames ((hostAfter now es).f i) →
    (∀ family epoch node when, e = .dhtAck family epoch node when →
      ((hostAfter now (es ++ [e])).f i).anchor ≠ ((hostAfter now es).f i).anchor →
      LeftUnanswered now es i anchorGone) ∧
    (∀ when, e = .tick when →
      ((hostAfter now (es ++ [e])).f i).anchor = ((hostAfter now es).f i).anchor)

/-- The node held is replaced where the trial of another one is completed. -/
theorem trialSwap_replaces (isHost : Bool) {i : Fam} {f : NetFam} {e : NetIn}
    (h : trialSwap i f e) : (famStep isHost i f e).anchor ≠ f.anchor := by
  cases e with
  | dhtAck family epoch node now =>
      obtain ⟨rfl, rfl, hnode, hlen, hheld, hother, hpick, hvouch, hconf, hdone⟩ := h
      have hstep : famStep isHost family f (.dhtAck family f.epoch node now) =
          netstateOnDhtAck isHost f.epoch node now f := if_pos rfl
      have hup : anchorOf (dhtAckUp isHost f.epoch f) = anchorOf f :=
        view_dhtAckUp anchorOf_acts anchorOf_conn anchorOf_facts isHost f.epoch f
      have htrial := trialOf_dhtAckUp isHost f.epoch f
      rw [hstep, onDhtAck_other isHost now hnode hlen hother]
      generalize dhtAckUp isHost f.epoch f = g at hup htrial ⊢
      have hanchor : g.anchor = f.anchor := congrArg Prod.fst hup
      have hconf' : g.anchorConfirmed = f.anchorConfirmed := congrArg (fun x => x.2.2.1) hup
      have hcands : g.cands = f.cands := congrArg Prod.fst htrial
      have hpick' : g.picking = f.picking := congrArg Prod.snd htrial
      -- the trial is over, and the one who won it is taken
      unfold dhtAckOther
      simp only
      rw [if_neg (by rw [hpick', hpick]; exact Bool.noConfusion), if_pos]
      · have htake := anchorOf_anchorTake hnode hlen (f :=
          { g with
            anchorNextMs := now + netstateRdvMs
            cands := (candTrial node now { g with anchorNextMs := now + netstateRdvMs }).1 })
          (fun h => hother (h.symm.trans hanchor)) isHost now
        rw [show (anchorTake isHost node now _).anchor = node from congrArg Prod.fst htake]
        exact hother
      · rw [candTrial_earned]
        exact ⟨hconf'.trans hconf, hcands.symm ▸ hdone⟩
  | _ => exact h.elim

/-- An acknowledgement or a tick treats a node a token may name as it should if and only
if it does not complete the trial of another node beside an anchor that is only vouched
for, or that anchor is gone. -/
theorem anchorKept_iff (now : UInt64) (es : List NetIn) (e : NetIn) (i : Fam) :
    AnchorKept now es e i ↔
      (trialSwap i ((hostAfter now es).f i) e → LeftUnanswered now es i anchorGone) := by
  have hok := anchorOk_run now es i
  have hnext : (hostAfter now (es ++ [e])).f i =
      famStep (hostAfter now es).isHost i ((hostAfter now es).f i) e := by
    rw [hostAfter_concat]
    rfl
  unfold AnchorKept
  rw [hnext]
  constructor
  · intro h hswap
    have hreplaced := trialSwap_replaces (hostAfter now es).isHost hswap
    cases e with
    | dhtAck family epoch node when =>
        obtain ⟨_, _, _, _, hheld, _, _, hvouch, _, _⟩ := hswap
        exact (h ⟨hheld, Or.inr hvouch⟩).1 family epoch node when rfl hreplaced
    | _ => exact hswap.elim
  · intro h hnames
    refine ⟨?_, ?_⟩
    · rintro family epoch node when rfl hreplaced
      have hother : family = i := by
        by_contra hne
        exact hreplaced (by rw [famStep, addressed, if_neg hne])
      subst hother
      have hstep : famStep (hostAfter now es).isHost family ((hostAfter now es).f family)
          (.dhtAck family epoch node when) =
          netstateOnDhtAck (hostAfter now es).isHost epoch node when
            ((hostAfter now es).f family) := if_pos rfl
      rw [hstep] at hreplaced
      have hepoch : epoch = ((hostAfter now es).f family).epoch := by
        by_contra hne
        exact hreplaced (by rw [netstateOnDhtAck, if_pos hne])
      subst hepoch
      cases ackStep_onDhtAck (hostAfter now es).isHost node when
        ((hostAfter now es).f family) with
      | keep heq => exact absurd (congrArg Prod.fst heq) hreplaced
      | answered hanchor => exact absurd hanchor hreplaced
      | won heq hnode hlen hnew hpick hconf hdone =>
          -- only an anchor that is vouched for and not confirmed is swapped so
          apply h
          refine ⟨rfl, rfl, hnode, hlen, hnames.1, hnew, hpick, ?_, hconf, hdone⟩
          rcases hnames.2 with hc | hv
          · rw [hc] at hconf
            exact Bool.noConfusion hconf
          · exact hv
      | gone heq hgone =>
          obtain ⟨pre, post, hes, hsame, hcount⟩ := leftUnanswered_run now family es hnames.1
          exact ⟨pre, post, hes, hsame, Nat.le_trans (hgone hnames.1) hcount⟩
    · rintro when rfl
      exact tick_keeps hok hnames _ when

/-- A peer vouches for one node, and another one answers four times over ten seconds: it
takes the place of the first, which no round has been asked of. -/
theorem anchorKept_vouchedSwapped :
    tokenNames ((hostAfter 0 [.rdvVouched .v4 [1] 0, .dhtAck .v4 1 [2] 0, .dhtAck .v4 1 [2] 1000,
        .dhtAck .v4 1 [2] 2000]).f .v4) ∧
      ¬AnchorKept 0 [.rdvVouched .v4 [1] 0, .dhtAck .v4 1 [2] 0, .dhtAck .v4 1 [2] 1000,
        .dhtAck .v4 1 [2] 2000] (.dhtAck .v4 1 [2] 10000) .v4 := by
  have hnames : tokenNames ((hostAfter 0 [.rdvVouched .v4 [1] 0, .dhtAck .v4 1 [2] 0,
      .dhtAck .v4 1 [2] 1000, .dhtAck .v4 1 [2] 2000]).f .v4) :=
    ⟨by decide, Or.inr (by decide)⟩
  refine ⟨hnames, ?_⟩
  intro h
  have hgone := (h hnames).1 .v4 1 [2] 10000 rfl (by decide)
  exact absurd hgone.le_ticks (by decide)

end Netstate
end Comrade
