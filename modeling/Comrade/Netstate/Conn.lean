import Comrade.Netstate.Frame
import Comrade.Netstate.Locals

/-!
# The verdict on reachability

`conn` of a family is a cached value: `conn_of` computes it from `has_addr`, `up_epoch`,
`epoch` and `routed`, and each entry point that writes one of these brings it in line.
This module shows that it is never out of line, and what a family has seen when it reads
`NET_CONN_UP`.

* `Reach` is what the verdict reads, and `ReachStep` all that a call can do to it
  (`reachOf_famStep`).
* `proves` is a round trip or an acknowledgement stamped with the family's epoch, and
  `leavesNet` a move that was not a change of addresses in one direction.
* `reachVerdict_of_moves`: over any run, the verdict is the one `conn_of` gives, it is up
  only with an address held and something proven since the family last left a network,
  and a call stamped with another epoch does nothing.

The epoch is 32 bits wide and starts at 1, while `up_epoch` starts at 0: the move that
takes the epoch round to 0 is the one that is not allowed for.
-/

namespace Comrade
namespace Netstate

open Lib

/-- What `conn_of` reads, the verdict held, and whether an address is held. -/
structure Reach where
  epoch : UInt32
  upEpoch : UInt32
  hasAddr : Bool
  routed : Bool
  conn : Conn
  held : Bool
  deriving DecidableEq

/-- The reachability of the family. -/
def reachOf (f : NetFam) : Reach where
  epoch := f.epoch
  upEpoch := f.upEpoch
  hasAddr := f.hasAddr
  routed := f.routed
  conn := f.conn
  held := !f.locals.isEmpty

/-- The verdict of `conn_of`. -/
def Reach.verdict (r : Reach) : Conn :=
  if r.hasAddr = false then .none
  else if r.upEpoch = r.epoch then .up
  else if r.routed = true then .pending
  else .none

/-- The verdict brought in line. -/
def Reach.settle (r : Reach) : Reach := { r with conn := r.verdict }

/-- An address set taken. -/
def Reach.hold (r : Reach) (held : Bool) : Reach :=
  if r.hasAddr = held then { r with held := held }
  else Reach.settle { r with held := held, hasAddr := held }

/-- The family moves; `same` carries its proof across. -/
def Reach.move (r : Reach) (same : Bool) : Reach :=
  Reach.settle { r with
    epoch := r.epoch + 1
    routed := r.routed && same
    upEpoch := if same = true ∧ r.upEpoch = r.epoch then r.epoch + 1 else r.upEpoch }

/-! ## What the parts of a call do to it -/

theorem connOf_eq (f : NetFam) : connOf f = (reachOf f).verdict := rfl

theorem reachOf_pend : IgnoresPend reachOf := fun _ _ => rfl

theorem reachOf_acts : IgnoresActs reachOf := IgnoresPend.acts reachOf_pend

theorem reachOf_source : IgnoresSource reachOf := fun _ _ _ _ _ _ _ => rfl

theorem reachOf_probe : IgnoresProbe reachOf := fun _ _ _ _ _ => rfl

theorem reachOf_facts : IgnoresFacts reachOf := fun _ _ _ => rfl

theorem reachOf_rdv : IgnoresRdv reachOf := fun _ _ _ _ _ _ _ _ _ _ _ _ => rfl

theorem reachOf_syncConn (f : NetFam) : reachOf (syncConn f) = (reachOf f).settle := by
  unfold syncConn
  split
  · rename_i h
    rw [connOf_eq] at h
    unfold Reach.settle
    rw [h]
    rfl
  · rfl

theorem reachOf_dhtAckUp (isHost : Bool) (f : NetFam) :
    reachOf (dhtAckUp isHost f.epoch f) =
      Reach.settle { reachOf f with upEpoch := (reachOf f).epoch } := by
  have hsync : reachOf (syncConn { f with upEpoch := f.epoch }) =
      Reach.settle { reachOf f with upEpoch := (reachOf f).epoch } := by
    rw [reachOf_syncConn]
    rfl
  unfold dhtAckUp
  simp only
  split
  · rw [view_factsMoved reachOf_acts]
    exact hsync
  · exact hsync

theorem reachOf_onDhtAck (isHost : Bool) (node : Bytes) (now : UInt64) (f : NetFam) :
    reachOf (netstateOnDhtAck isHost f.epoch node now f) =
      Reach.settle { reachOf f with upEpoch := (reachOf f).epoch } := by
  rw [← reachOf_dhtAckUp isHost f]
  unfold netstateOnDhtAck
  rw [if_neg (by simp)]
  simp only
  split
  · rfl
  · exact view_dhtAckNode reachOf_acts reachOf_rdv isHost node now _

theorem reachOf_syncHasAddr (isHost : Bool) (f : NetFam) :
    reachOf (syncHasAddr isHost f) = (reachOf f).hold (!f.locals.isEmpty) := by
  by_cases h : f.hasAddr = !f.locals.isEmpty
  · rw [syncHasAddr, if_neg (not_not.mpr h), Reach.hold,
      if_pos (show (reachOf f).hasAddr = _ from h)]
    rfl
  · rw [syncHasAddr, if_pos h, Reach.hold, if_neg (show ¬(reachOf f).hasAddr = _ from h),
      view_factsMoved reachOf_acts, reachOf_syncConn]
    rfl

theorem reachOf_famMove (isHost same : Bool) (now : UInt64) (f : NetFam) :
    reachOf (famMove isHost same (f.upEpoch == f.epoch) now f) = (reachOf f).move same := by
  have hproofs : reachOf (moveProofs same (f.upEpoch == f.epoch) (moveReset same now f)) =
      { reachOf f with
        epoch := f.epoch + 1
        routed := f.routed && same
        upEpoch := if same = true ∧ f.upEpoch = f.epoch then f.epoch + 1 else f.upEpoch } := by
    unfold moveProofs
    cases same with
    | false => simp [reachOf, moveReset, proofsDemote]
    | true =>
        by_cases hup : f.upEpoch = f.epoch
        · simp [reachOf, moveReset, hup]
        · simp [reachOf, moveReset, hup]
  unfold famMove
  rw [view_moveRaise reachOf_pend]
  show Reach.settle (reachOf (moveProofs same (f.upEpoch == f.epoch) (moveReset same now f))) = _
  rw [hproofs]
  rfl

theorem reachOf_setRouted (isHost on : Bool) (f : NetFam) :
    reachOf (setRouted isHost on f) = reachOf f ∨
      reachOf (setRouted isHost on f) = Reach.settle { reachOf f with routed := on } := by
  unfold setRouted
  split
  · exact Or.inl rfl
  · right
    rw [view_factsMoved reachOf_acts, reachOf_syncConn]
    rfl

theorem reachOf_onSrc (isHost : Bool) (epoch : UInt32) (addr : Bytes) (scope : Scope)
    (text : Bytes) (now : UInt64) (f : NetFam) :
    reachOf (netstateOnSrc isHost epoch addr scope text now f) = reachOf f ∨
      ∃ on, reachOf (netstateOnSrc isHost epoch addr scope text now f) =
        Reach.settle { reachOf f with routed := on } := by
  unfold netstateOnSrc
  split
  · exact Or.inl rfl
  split
  · -- no source: the route goes, if there was one
    rcases reachOf_setRouted isHost false
      { f with srcTries := f.srcTries + 1, srcNextMs := now + srcGap (f.srcTries + 1) } with h | h
    · exact Or.inl (h.trans (view_srcNext reachOf_source f _ _))
    · exact Or.inr ⟨false, by rw [h, view_srcNext reachOf_source]⟩
  · rcases reachOf_setRouted isHost true
      (srcTake (addr.take 16) scope text { f with srcTries := 0, srcNextMs := now + srcSlowMs })
      with h | h
    · exact Or.inl (by rw [h, view_srcTake reachOf_source, view_srcNext reachOf_source])
    · exact Or.inr ⟨true, by rw [h, view_srcTake reachOf_source, view_srcNext reachOf_source]⟩

/-- A proof written into the set leaves as many in it. -/
theorem isEmpty_modify {α : Type} (ls : List α) (k : Nat) (g : α → α) :
    (ls.modify k g).isEmpty = ls.isEmpty := by
  rw [Bool.eq_iff_iff, List.isEmpty_iff_length_eq_zero, List.isEmpty_iff_length_eq_zero,
    List.length_modify]

theorem reachOf_onReflexive (i : Fam) (epoch : UInt32) (addr : Bytes) (f : NetFam) :
    reachOf (netstateOnReflexive i epoch addr f) = reachOf f := by
  unfold netstateOnReflexive
  split
  · rfl
  split
  · split
    · rfl
    · rw [view_raiseAct reachOf_pend]
      unfold reachOf
      simp only [isEmpty_modify]
  · split
    · rfl
    · rename_i f' hnote
      obtain ⟨_, rfl⟩ := xlatNote_some hnote
      rfl

/-! ## What a call can do to it -/

/-- A round trip, or an acknowledgement of the network's, stamped with the epoch of the
family. -/
def proves (i : Fam) (f : NetFam) : NetIn → Prop
  | .roundtrip family epoch => family = i ∧ epoch = f.epoch
  | .dhtAck family epoch _ _ => family = i ∧ epoch = f.epoch
  | _ => False

/-- A snapshot that reports a move of the family. -/
def moves (i : Fam) : NetIn → Bool
  | .netmon changed _ _ => changed &&& netmonCh i != 0
  | _ => false

/-- A move that was not a change of addresses in one direction with an address on either
side of it. -/
def leavesNet (isHost : Bool) (i : Fam) (f : NetFam) (e : NetIn) : Prop :=
  moves i e = true ∧ ¬OneWay (localAddrs f) (localAddrs (famStep isHost i f e))

/-- All that one call can do to the reachability of the family. -/
inductive ReachStep (isHost : Bool) (i : Fam) (f : NetFam) (e : NetIn) : Reach → Prop
  | keep (hmove : moves i e = false) : ReachStep isHost i f e (reachOf f)
  | route (hmove : moves i e = false) (on : Bool) :
      ReachStep isHost i f e (Reach.settle { reachOf f with routed := on })
  | proof (hmove : moves i e = false) (h : proves i f e) :
      ReachStep isHost i f e (Reach.settle { reachOf f with upEpoch := (reachOf f).epoch })
  | snapshot (hmove : moves i e = false) (held : Bool) :
      ReachStep isHost i f e ((reachOf f).hold held)
  | move (hmove : moves i e = true) (held same : Bool)
      (hsame : same = decide (OneWay (localAddrs f) (localAddrs (famStep isHost i f e)))) :
      ReachStep isHost i f e (((reachOf f).hold held).move same)

/-- A move touches the proofs of the local set, not its addresses. -/
theorem localAddrs_famMove (isHost same wasUp : Bool) (now : UInt64) (f : NetFam) :
    localAddrs (famMove isHost same wasUp now f) = localAddrs f := by
  have hproofs : ∀ g, localAddrs (moveProofs same wasUp g) = localAddrs g := by
    intro g
    unfold moveProofs
    split
    · simp [localAddrs, proofsDemote]
    · split <;> rfl
  unfold famMove
  rw [view_moveRaise (show IgnoresPend localAddrs from fun _ _ => rfl)]
  show localAddrs (moveProofs same wasUp (moveReset same now f)) = _
  rw [hproofs]
  rfl

theorem localAddrs_syncHasAddr (isHost : Bool) (f : NetFam) :
    localAddrs (syncHasAddr isHost f) = localAddrs f :=
  view_syncHasAddr (fun _ _ _ => rfl) (fun _ _ _ _ _ => rfl) isHost f

/-- Whether the proof of the family stood is not touched by the addresses taken. -/
theorem upEpoch_syncHasAddr (isHost : Bool) (f : NetFam) :
    ((syncHasAddr isHost f).upEpoch == (syncHasAddr isHost f).epoch) = (f.upEpoch == f.epoch) := by
  unfold syncHasAddr factsMoved syncConn
  split
  · split <;> split <;> rfl
  · rfl

theorem reachStep_netmon (isHost : Bool) (i : Fam) (f : NetFam) (changed : UInt32)
    (addrs : List NetmonAddr) (now : UInt64) :
    ReachStep isHost i f (.netmon changed addrs now)
      (reachOf (famStep isHost i f (.netmon changed addrs now))) := by
  obtain ⟨new, left, pend, _, heq⟩ := netstateOnNetmon_eq isHost i changed addrs now f
  have hstep : famStep isHost i f (.netmon changed addrs now) =
      netstateOnNetmon isHost i changed addrs now f := rfl
  simp only at heq
  set f1 : NetFam :=
    { f with locals := keptLocals f i addrs ++ new, xlats := left, pend := pend } with hf1
  have hhold : reachOf (syncHasAddr isHost f1) = (reachOf f).hold (!f1.locals.isEmpty) := by
    rw [reachOf_syncHasAddr]
    rfl
  by_cases hbit : changed &&& netmonCh i = 0
  · rw [hstep, heq, if_pos hbit, hhold]
    exact .snapshot (by simp [moves, hbit]) _
  · rw [if_neg hbit] at heq
    have hup : (f.upEpoch == f.epoch) =
        ((syncHasAddr isHost f1).upEpoch == (syncHasAddr isHost f1).epoch) :=
      (upEpoch_syncHasAddr isHost f1).symm
    have hafter : localAddrs (famStep isHost i f (.netmon changed addrs now)) =
        localAddrs f1 := by
      rw [hstep, heq, localAddrs_famMove, localAddrs_syncHasAddr]
    rw [hstep, heq, hup, reachOf_famMove, hhold]
    exact .move (by simp [moves, hbit]) _ _ (by rw [hafter])

/-- A call addressed to another family does nothing to this one. -/
theorem reachStep_addressed {isHost : Bool} {family i : Fam} {f : NetFam} {e : NetIn}
    {g : NetFam → NetFam} (hmove : moves i e = false)
    (h : family = i → ReachStep isHost i f e (reachOf (g f))) :
    ReachStep isHost i f e (reachOf (addressed family i g f)) := by
  unfold addressed
  split
  · rename_i hfam
    exact h hfam
  · exact .keep hmove

/-- What one call does to the reachability of a family. -/
theorem reachOf_famStep (isHost : Bool) (i : Fam) (f : NetFam) (e : NetIn) :
    ReachStep isHost i f e (reachOf (famStep isHost i f e)) := by
  -- where the call keeps what the verdict reads
  have hkeep : ∀ {family : Fam} {g : NetFam → NetFam}, moves i e = false →
      reachOf (g f) = reachOf f → ReachStep isHost i f e (reachOf (addressed family i g f)) := by
    intro family g hmove h
    refine reachStep_addressed hmove ?_
    intro _
    rw [h]
    exact .keep hmove
  cases e with
  | netmon changed addrs now => exact reachStep_netmon isHost i f changed addrs now
  | src family epoch addr scope text now =>
      refine reachStep_addressed rfl ?_
      intro _
      rcases reachOf_onSrc isHost epoch addr scope text now f with h | ⟨on, h⟩
      · rw [h]
        exact .keep rfl
      · rw [h]
        exact .route rfl on
  | probeStarted family epoch now =>
      exact hkeep rfl (view_onProbeStarted reachOf_probe epoch now f)
  | probeDeferred family epoch => exact hkeep rfl (view_onProbeDeferred reachOf_probe epoch f)
  | probeDone family epoch now =>
      exact hkeep rfl (view_onProbeDone reachOf_pend reachOf_probe epoch now f)
  | servers family epoch now =>
      exact hkeep rfl (view_onServers reachOf_pend reachOf_probe epoch now f)
  | roundtrip family epoch =>
      refine reachStep_addressed rfl ?_
      intro hfam
      unfold netstateOnRoundtrip
      split
      · exact .keep rfl
      · rename_i hepoch
        obtain rfl := not_not.mp hepoch
        rw [reachOf_syncConn]
        exact .proof rfl ⟨hfam, rfl⟩
  | dhtAck family epoch node now =>
      refine reachStep_addressed rfl ?_
      intro hfam
      by_cases hepoch : epoch = f.epoch
      · subst hepoch
        rw [reachOf_onDhtAck]
        exact .proof rfl ⟨hfam, rfl⟩
      · rw [netstateOnDhtAck, if_pos hepoch]
        exact .keep rfl
  | anchorSeen family now => exact hkeep rfl (view_onAnchorSeen reachOf_rdv now f)
  | rdvOffered family node now =>
      exact hkeep rfl (view_anchorSet reachOf_acts reachOf_rdv node now false 0 f)
  | rdvVouched family node now =>
      exact hkeep rfl (view_onRdvVouched reachOf_acts reachOf_rdv isHost node now f)
  | setPicking family on => exact hkeep rfl (view_setPicking reachOf_rdv on f)
  | reflexive family epoch addr => exact hkeep rfl (reachOf_onReflexive family epoch addr f)
  | dhtConcluded family concluded =>
      exact hkeep rfl (view_onDhtConcluded reachOf_acts reachOf_facts isHost concluded f)
  | tick now =>
      show ReachStep isHost i f _ (reachOf (netstateTick isHost now f))
      rw [view_tick reachOf_pend reachOf_source reachOf_probe reachOf_rdv]
      exact .keep rfl
  | resync => exact .keep rfl
  | takeActions => exact .keep rfl

/-! ## Over runs -/

/-- The verdict is in line, and `has_addr` says whether an address is held. -/
structure ReachOk (r : Reach) : Prop where
  conn : r.conn = r.verdict
  held : r.hasAddr = r.held

theorem ReachOk.hold {r : Reach} (h : ReachOk r) (held : Bool) : ReachOk (r.hold held) := by
  unfold Reach.hold
  split
  · rename_i heq
    exact ⟨h.conn, heq⟩
  · exact ⟨rfl, rfl⟩

/-- Every call leaves the verdict in line. -/
theorem ReachStep.ok {isHost : Bool} {i : Fam} {f : NetFam} {e : NetIn} {r : Reach}
    (hstep : ReachStep isHost i f e r) (h : ReachOk (reachOf f)) : ReachOk r := by
  cases hstep with
  | keep => exact h
  | route _ on => exact ⟨rfl, h.held⟩
  | proof => exact ⟨rfl, h.held⟩
  | snapshot _ held => exact h.hold held
  | move _ held same => exact ⟨rfl, (h.hold held).held⟩

theorem reachOk_run (isHost : Bool) (now : UInt64) (es : List NetIn) (i : Fam) :
    ReachOk (reachOf ((run netstateStep (netstateInit isHost now) es).f i)) := by
  refine run_invariant (I := fun ns : NetState => ReachOk (reachOf (ns.f i))) ?_ ⟨rfl, rfl⟩ es
  intro ns e h
  exact (reachOf_famStep ns.isHost i (ns.f i) e).ok h

/-- A proof of the family has been seen since it last left a network. -/
def ProvedHere (isHost : Bool) (now : UInt64) (es : List NetIn) (i : Fam) : Prop :=
  Since netstateStep (fun ns e => proves i (ns.f i) e)
    (fun ns e => leavesNet ns.isHost i (ns.f i) e) (netstateInit isHost now) es

/-- What the epochs of a family say after `n` moves. -/
structure EpochOk (r : Reach) (n : Nat) (proved : Prop) : Prop where
  epoch : r.epoch.toNat = 1 + n
  upEpoch : r.upEpoch.toNat ≤ r.epoch.toNat
  proof : r.upEpoch = r.epoch → proved

/-- Taking an address set touches neither epoch. -/
theorem hold_epochs (r : Reach) (held : Bool) :
    (r.hold held).epoch = r.epoch ∧ (r.hold held).upEpoch = r.upEpoch := by
  unfold Reach.hold
  split
  · exact ⟨rfl, rfl⟩
  · exact ⟨rfl, rfl⟩

/-- A move that leaves the network outdates the proof; one that stays carries it along. -/
theorem EpochOk.move {r : Reach} {n : Nat} {proved proved' : Prop} (h : EpochOk r n proved)
    (hn : n + 1 < 2 ^ 32 - 1) {same : Bool} (hsame : same = true → proved → proved') :
    EpochOk (r.move same) (n + 1) proved' := by
  have hepoch := h.epoch
  have hup := h.upEpoch
  have hnext : (r.epoch + 1).toNat = 1 + (n + 1) := by
    rw [UInt32.toNat_add, hepoch]
    show (1 + n + 1) % 2 ^ 32 = 1 + (n + 1)
    omega
  show EpochOk (Reach.settle _) (n + 1) proved'
  by_cases hcarry : same = true ∧ r.upEpoch = r.epoch
  · simp only [hcarry, and_self, if_true]
    exact ⟨hnext, Nat.le_refl _, fun _ => hsame hcarry.1 (h.proof hcarry.2)⟩
  · simp only [hcarry, if_false]
    refine ⟨hnext, ?_, ?_⟩
    · show r.upEpoch.toNat ≤ (r.epoch + 1).toNat
      omega
    · intro heq
      -- what was proven before is from an epoch left behind
      have : r.upEpoch.toNat = (r.epoch + 1).toNat := congrArg UInt32.toNat heq
      omega

/-- The epochs of a family over a run that does not move too often. -/
theorem epochOk_run (isHost : Bool) (now : UInt64) (i : Fam) (es : List NetIn)
    (hmoves : es.countP (moves i) < 2 ^ 32 - 1) :
    EpochOk (reachOf ((run netstateStep (netstateInit isHost now) es).f i))
      (es.countP (moves i)) (ProvedHere isHost now es i) := by
  induction es using List.reverseRecOn with
  | nil =>
      refine ⟨rfl, Nat.zero_le 1, ?_⟩
      intro h
      have hzero : (0 : UInt32) = 1 := h
      exact absurd hzero (by decide)
  | append_singleton es e ih =>
      rw [List.countP_append, List.countP_singleton] at hmoves ⊢
      have ih := ih (by omega)
      rw [run_concat]
      generalize hns : run netstateStep (netstateInit isHost now) es = ns at ih ⊢
      have hstep : ReachStep ns.isHost i (ns.f i) e (reachOf ((netstateStep ns e).f i)) :=
        reachOf_famStep ns.isHost i (ns.f i) e
      -- a call that does not move the family leaves what was proven standing
      have hstay : moves i e = false → ProvedHere isHost now es i →
          ProvedHere isHost now (es ++ [e]) i := by
        intro hmove h
        refine Since.concat h ?_
        rintro ⟨hmoved, _⟩
        rw [hmove] at hmoved
        exact Bool.noConfusion hmoved
      generalize hr : reachOf ((netstateStep ns e).f i) = r at hstep ⊢
      cases hstep with
      | keep hmove =>
          simp only [hmove, Bool.false_eq_true, if_false, Nat.add_zero]
          exact ⟨ih.epoch, ih.upEpoch, fun h => hstay hmove (ih.proof h)⟩
      | route hmove on =>
          simp only [hmove, Bool.false_eq_true, if_false, Nat.add_zero]
          exact ⟨ih.epoch, ih.upEpoch, fun h => hstay hmove (ih.proof h)⟩
      | proof hmove hproves =>
          simp only [hmove, Bool.false_eq_true, if_false, Nat.add_zero]
          refine ⟨ih.epoch, Nat.le_refl _, fun _ => since_last ?_⟩
          rw [hns]
          exact hproves
      | snapshot hmove held =>
          simp only [hmove, Bool.false_eq_true, if_false, Nat.add_zero]
          obtain ⟨hepoch, hup⟩ := hold_epochs (reachOf (ns.f i)) held
          exact ⟨by rw [hepoch]; exact ih.epoch, by rw [hepoch, hup]; exact ih.upEpoch,
            by rw [hepoch, hup]; exact fun h => hstay hmove (ih.proof h)⟩
      | move hmove held same hsame =>
          simp only [hmove, if_true] at hmoves ⊢
          obtain ⟨hepoch, hup⟩ := hold_epochs (reachOf (ns.f i)) held
          have hheld : EpochOk ((reachOf (ns.f i)).hold held) (es.countP (moves i))
              (ProvedHere isHost now es i) :=
            ⟨by rw [hepoch]; exact ih.epoch, by rw [hepoch, hup]; exact ih.upEpoch,
              by rw [hepoch, hup]; exact ih.proof⟩
          refine hheld.move hmoves ?_
          intro htrue h
          refine Since.concat h ?_
          rw [hns]
          rintro ⟨_, hleaves⟩
          rw [hsame, decide_eq_true_iff] at htrue
          exact hleaves htrue

/-- The epoch a call is stamped with, and the family it is about. -/
def NetIn.stamp : NetIn → Option (Fam × UInt32)
  | .src family epoch _ _ _ _ => some (family, epoch)
  | .probeStarted family epoch _ => some (family, epoch)
  | .probeDeferred family epoch => some (family, epoch)
  | .probeDone family epoch _ => some (family, epoch)
  | .servers family epoch _ => some (family, epoch)
  | .roundtrip family epoch => some (family, epoch)
  | .dhtAck family epoch _ _ => some (family, epoch)
  | .reflexive family epoch _ => some (family, epoch)
  | _ => none

/-- A call stamped with an epoch that is not the family's does nothing. -/
theorem netstateStep_stale {ns : NetState} {e : NetIn} {family : Fam} {epoch : UInt32}
    (hstamp : e.stamp = some (family, epoch)) (hepoch : epoch ≠ (ns.f family).epoch) :
    netstateStep ns e = ns := by
  have hfam : ∀ i, famStep ns.isHost i (ns.f i) e = ns.f i := by
    intro i
    -- the stamp says whom the call is for; the others it does not touch
    have hto : ∀ g : NetFam → NetFam, g (ns.f family) = ns.f family →
        addressed family i g (ns.f i) = ns.f i := by
      intro g hg
      unfold addressed
      split
      · rename_i hi
        rw [← hi]
        exact hg
      · rfl
    cases e with
    | src | probeStarted | probeDeferred | probeDone | servers | roundtrip | dhtAck | reflexive =>
        simp only [NetIn.stamp, Option.some.injEq, Prod.mk.injEq] at hstamp
        obtain ⟨rfl, rfl⟩ := hstamp
        simp only [famStep]
        apply hto
        simp [netstateOnSrc, netstateOnProbeStarted, netstateOnProbeDeferred, netstateOnProbeDone,
          netstateOnServers, netstateOnRoundtrip, netstateOnDhtAck, netstateOnReflexive, hepoch]
    | netmon | anchorSeen | rdvOffered | rdvVouched | setPicking | dhtConcluded | tick | resync
    | takeActions => cases hstamp
  have : (fun i => famStep ns.isHost i (ns.f i) e) = ns.f := funext hfam
  simp [netstateStep, this]

/-- What the verdict on family `i` says after the calls. -/
structure ReachVerdict (isHost : Bool) (now : UInt64) (es : List NetIn) (i : Fam) : Prop where
  /-- The verdict is the one of `has_addr`, `up_epoch`, `epoch` and `routed`. -/
  conn_eq : ((run netstateStep (netstateInit isHost now) es).f i).conn =
    connOf ((run netstateStep (netstateInit isHost now) es).f i)
  /-- It is up only with an address held, and with something proven since the family last
  left a network. -/
  up_proved : ((run netstateStep (netstateInit isHost now) es).f i).conn = .up →
    ((run netstateStep (netstateInit isHost now) es).f i).locals ≠ [] ∧
      ProvedHere isHost now es i
  /-- A call stamped with another epoch than the family's leaves everything as it is. -/
  stale_ignored : ∀ e epoch, e.stamp = some (i, epoch) →
    epoch ≠ ((run netstateStep (netstateInit isHost now) es).f i).epoch →
    netstateStep (run netstateStep (netstateInit isHost now) es) e =
      run netstateStep (netstateInit isHost now) es

theorem reachVerdict_of_moves (isHost : Bool) (now : UInt64) (es : List NetIn) (i : Fam)
    (hmoves : es.countP (moves i) < 2 ^ 32 - 1) : ReachVerdict isHost now es i := by
  have hok := reachOk_run isHost now es i
  have hepochs := epochOk_run isHost now i es hmoves
  generalize hns : run netstateStep (netstateInit isHost now) es = ns at hok hepochs
  have hconn : (ns.f i).conn = connOf (ns.f i) := hok.conn
  refine ⟨by rw [hns]; exact hconn, ?_, ?_⟩
  · rw [hns]
    intro hup
    rw [hup] at hconn
    unfold connOf at hconn
    split at hconn
    · cases hconn
    rename_i haddr
    split at hconn
    · rename_i hepoch
      refine ⟨?_, hepochs.proof hepoch⟩
      -- `has_addr` is in line with the set
      have hheld : (ns.f i).hasAddr = !(ns.f i).locals.isEmpty := hok.held
      intro hnil
      rw [hnil] at hheld
      exact haddr hheld
    · split at hconn <;> cases hconn
  · rw [hns]
    intro e epoch hstamp hepoch
    exact netstateStep_stale hstamp hepoch

/-- A snapshot with one v4 address that reports a move of the family. -/
def loneMove : NetIn := .netmon 1 [{ family := some .v4, addr := [192, 0, 2, 7] }] 0

/-- A family that comes up: a move, and a round trip on the network it led to. -/
theorem reachVerdict_roundtrip :
    [loneMove, .roundtrip .v4 2].countP (moves .v4) < 2 ^ 32 - 1 ∧
      ReachVerdict true 0 [loneMove, .roundtrip .v4 2] .v4 ∧
      ((run netstateStep (netstateInit true 0) [loneMove, .roundtrip .v4 2]).f .v4).conn = .up :=
  ⟨by decide, reachVerdict_of_moves true 0 _ .v4 (by decide), by decide⟩

/-- The one address held and the move reported again: the epoch goes up by one, and
nothing else of what the verdict reads moves. -/
theorem famStep_loneMove {f : NetFam}
    (hlocals : f.locals = [{ addr := [192, 0, 2, 7], scope := .global, proven := false }])
    (haddr : f.hasAddr = true) :
    (famStep false .v4 f loneMove).epoch = f.epoch + 1 ∧
      (famStep false .v4 f loneMove).upEpoch = f.upEpoch ∧
      (famStep false .v4 f loneMove).hasAddr = true ∧
      (famStep false .v4 f loneMove).locals = f.locals := by
  have hsync : localSync f .v4 [{ family := some .v4, addr := [192, 0, 2, 7] }] =
      (f, false, false) := by
    unfold localSync
    rw [localPrune_length, hlocals]
    simp [snapHas, localAdd, addrLen, localIdx, netmonMaxAddrs]
    rw [← hlocals]
  have hstep : famStep false .v4 f loneMove = famMove false false (f.upEpoch == f.epoch) 0 f := by
    show netstateOnNetmon false .v4 1 _ 0 f = _
    simp [netstateOnNetmon, hsync, sameNet, syncHasAddr, hlocals, haddr, netmonCh]
  rw [hstep]
  simp [famMove, moveRaise, factsMoved, raiseAct, moveProofs, moveReset, proofsDemote, haddr,
    hlocals]
  split <;> simp

/-- After that many moves onto networks that never answer. -/
theorem run_loneMove (n : Nat) :
    let f := run (famStep false .v4) (famInit false 0) (List.replicate (n + 1) loneMove)
    f.epoch = UInt32.ofNat (n + 2) ∧ f.upEpoch = 0 ∧ f.hasAddr = true ∧
      f.locals = [{ addr := [192, 0, 2, 7], scope := .global, proven := false }] := by
  induction n with
  | zero => decide
  | succ n ih =>
      obtain ⟨hepoch, hup, haddr, hlocals⟩ := ih
      rw [List.replicate_succ', run_concat]
      obtain ⟨hepoch', hup', haddr', hlocals'⟩ := famStep_loneMove hlocals haddr
      refine ⟨?_, hup'.trans hup, haddr', hlocals'.trans hlocals⟩
      rw [hepoch', hepoch]
      show UInt32.ofNat (n + 2) + UInt32.ofNat 1 = UInt32.ofNat (n + 1 + 2)
      rw [← UInt32.ofNat_add]

/-- A family moved 2^32 - 1 times: its epoch has come round to the 0 that `up_epoch`
starts with, and it reads as up on a network that never answered. -/
theorem reachVerdict_epochRound :
    (List.replicate (2 ^ 32 - 1) loneMove).countP (moves .v4) < 2 ^ 32 ∧
      ¬ReachVerdict false 0 (List.replicate (2 ^ 32 - 1) loneMove) .v4 := by
  obtain ⟨n, hn⟩ : ∃ n : Nat, 2 ^ 32 - 1 = n + 1 := ⟨2 ^ 32 - 2, rfl⟩
  have hlast : UInt32.ofNat (n + 2) = 0 := by
    have : n + 2 = 2 ^ 32 := by omega
    rw [this]
    rfl
  rw [hn]
  constructor
  · have := List.countP_le_length (p := moves .v4) (l := List.replicate (n + 1) loneMove)
    rw [List.length_replicate] at this
    omega
  · intro h
    obtain ⟨hepoch, hup, haddr, _⟩ := run_loneMove n
    have hrun := (run_netstateStep (netstateInit false 0) (List.replicate (n + 1) loneMove)).2 .v4
    have hproved := (h.up_proved ?_).2
    · -- but nothing of what happened was a proof
      obtain ⟨e, he, ns, hproves⟩ := Since.exists_mem hproved
      rw [List.eq_of_mem_replicate he] at hproves
      exact hproves
    · rw [h.conn_eq, hrun]
      show connOf (run (famStep false .v4) (famInit false 0) _) = .up
      unfold connOf
      rw [haddr, hepoch, hup, hlast]
      rfl

end Netstate
end Comrade
