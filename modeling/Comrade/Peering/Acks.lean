import Comrade.Netstate.Anchor

/-!
# The answers of the network on their way into the model

A reply to a read is seen by `node_note` (`sig.c`), which raises two flags of the family:
that the node pinned for it answered, and which node answered last.  `peering_acks`
(`peering.c`) takes the flags on its next pass and tells the model of each by an entry
point of its own.  `PeerModel` is the two together, with the moves of the network
(`net_watch` in `session.c`), the pinning and dropping of the node the model asks for
(`apply`), and the other calls into the model.

A run is traced with the replies of each family in its current epoch, those taken by a
pass and those since.

* `SteadyRun` is what a node must have given before it is confirmed.
* `Counted` is what the steps of a run must keep to for the counts of the model to be
  counts of replies, and its clock theirs: one reply of the pinned node raises both flags,
  each of which is counted, and a tick confirms by the time that has passed and not by
  the last answer.
-/

namespace Comrade
namespace Peering

open Lib Netstate

/-! ## The model -/

/-- `struct sig_fam`, as far as `node_note` and the takers read it. -/
structure SigFam where
  rnode : Bytes
  ackNode : Bytes
  epoch : UInt32
  ackNew : Bool
  anchorSeen : Bool
  deriving DecidableEq

/-- The signaller's families and the model, as `struct peering_model` holds them. -/
structure PeerModel where
  ns : NetState
  fam : Fam → SigFam
  locate : Bool
  relayFam : Fam → Bool

/-- A family of a new signaller. -/
def sigFamInit : SigFam where
  rnode := []
  ackNode := []
  epoch := 0
  ackNew := false
  anchorSeen := false

def peerInit (isHost locate : Bool) (now : UInt64) : PeerModel where
  ns := netstateInit isHost now
  fam := fun _ => sigFamInit
  locate := locate
  relayFam := fun _ => false

/-- `ack_on_net`: the query was sent on the network the family is on. -/
def ackOnNet (qep : UInt32) (sf : SigFam) : Bool := qep == sf.epoch

/-- `node_note` for the family of the node: `qep` is the epoch the query was stamped
with. -/
def nodeNote (locate : Bool) (qep : UInt32) (node : Bytes) (sf : SigFam) : SigFam :=
  if node = [] ∨ netstateSaMax < node.length then sf
  else
    let sf1 :=
      if ackOnNet qep sf = true ∧ sf.rnode = node then { sf with anchorSeen := true } else sf
    let sf2 :=
      if ackOnNet qep sf = true then { sf1 with ackNode := node, ackNew := true } else sf1
    if locate = true ∧ sf2.rnode = [] then { sf2 with rnode := node } else sf2

/-- `sig_set_family_epoch`. -/
def sigSetFamilyEpoch (epoch : UInt32) (sf : SigFam) : SigFam :=
  if sf.epoch = epoch then sf
  else { sf with epoch := epoch, anchorSeen := false, ackNew := false }

/-- `sig_reinforce` of a node that could be pinned. -/
def sigReinforce (node : Bytes) (sf : SigFam) : SigFam :=
  { sf with
    anchorSeen := if sf.rnode ≠ node then false else sf.anchorSeen
    rnode := node }

/-- `sig_forget`. -/
def sigForget (sf : SigFam) : SigFam :=
  if sf.rnode = [] then sf
  else { sf with rnode := [], ackNode := [], anchorSeen := false, ackNew := false }

/-- `netstate_on_anchor_seen` for a flag that `sig_take_anchor_seen` found raised, and the
choosing of the family brought in line. -/
def acksSeen (isHost relay : Bool) (now : UInt64) (f : NetFam) (sf : SigFam) : NetFam :=
  netstateSetPicking (isHost || relay)
    (if sf.anchorSeen = true then netstateOnAnchorSeen now f else f)

/-- One turn of the loop of `peering_acks`. -/
def acksFam (isHost relay : Bool) (now : UInt64) (f : NetFam) (sf : SigFam) :
    NetFam × SigFam :=
  let f1 := acksSeen isHost relay now f sf
  if sf.ackNew = false ∨ sf.ackNode = [] then (f1, { sf with anchorSeen := false })
  else
    (netstateOnDhtAck isHost f1.epoch sf.ackNode now f1,
      { sf with anchorSeen := false, ackNew := false })

/-- What happens to the two. -/
inductive PeerOp where
  /-- A reply of the node reaches `node_note` at that time. -/
  | reply (family : Fam) (node : Bytes) (qep : UInt32) (clock : UInt64)
  /-- A pass of `peering_acks`. -/
  | acks (now : UInt64)
  /-- `netstate_tick`. -/
  | tick (now : UInt64)
  /-- `net_watch`: a snapshot, with the epochs handed to the signaller. -/
  | watch (changed : UInt32) (addrs : List NetmonAddr) (now : UInt64)
  /-- The anchor of the model is pinned, in `apply`. -/
  | pin (family : Fam)
  /-- The family's node is forgotten, in `apply`. -/
  | forget (family : Fam)
  /-- `sig_relay`, and `relay_fam`. -/
  | relay (family : Fam) (on : Bool)
  /-- Another call into the model. -/
  | net (e : NetIn)
  deriving DecidableEq

/-- The calls into the model that the operations above do not make. -/
def otherCall : NetIn → Bool
  | .netmon .. => false
  | .dhtAck .. => false
  | .anchorSeen .. => false
  | .setPicking .. => false
  | .tick .. => false
  | _ => true

/-- One operation, as family `i` sees it. -/
def peerFam (m : PeerModel) (i : Fam) : PeerOp → NetFam × SigFam
  | .reply family node qep _ =>
      (m.ns.f i, if family = i then nodeNote m.locate qep node (m.fam i) else m.fam i)
  | .acks now => acksFam m.ns.isHost (m.relayFam i) now (m.ns.f i) (m.fam i)
  | .tick now => (netstateTick m.ns.isHost now (m.ns.f i), m.fam i)
  | .watch changed addrs now =>
      let f := netstateOnNetmon m.ns.isHost i changed addrs now (m.ns.f i)
      (f, sigSetFamilyEpoch f.epoch (m.fam i))
  | .pin family =>
      (m.ns.f i,
        if family = i ∧ (m.ns.f i).anchor ≠ [] then sigReinforce (m.ns.f i).anchor (m.fam i)
        else m.fam i)
  | .forget family => (m.ns.f i, if family = i then sigForget (m.fam i) else m.fam i)
  | .relay _ _ => (m.ns.f i, m.fam i)
  | .net e =>
      (if otherCall e = true then famStep m.ns.isHost i (m.ns.f i) e else m.ns.f i, m.fam i)

/-- `s->locate`, which is set for good once there is something to locate. -/
def locateAfter (m : PeerModel) : PeerOp → Bool
  | .pin family => m.locate || (m.ns.f family).anchor != []
  | .relay _ on => m.locate || on
  | _ => m.locate

/-- One operation. -/
def peerStep (m : PeerModel) (op : PeerOp) : PeerModel where
  ns := { m.ns with f := fun i => (peerFam m i op).1 }
  fam := fun i => (peerFam m i op).2
  locate := locateAfter m op
  relayFam :=
    match op with
    | .relay family on => Function.update m.relayFam family on
    | _ => m.relayFam

/-! ## The replies of a run -/

/-- A reply of a node, with the time it was seen. -/
structure Reply where
  node : Bytes
  clock : UInt64
  deriving DecidableEq

/-- The two with the replies each family has had in its current epoch: those that a pass
has taken and those since the last one. -/
structure PeerTrace where
  m : PeerModel
  taken : Fam → List Reply
  fresh : Fam → List Reply
  clock : UInt64

/-- The replies of the family in its current epoch. -/
def PeerTrace.replies (t : PeerTrace) (i : Fam) : List Reply := t.taken i ++ t.fresh i

def traceInit (isHost locate : Bool) (now : UInt64) : PeerTrace where
  m := peerInit isHost locate now
  taken := fun _ => []
  fresh := fun _ => []
  clock := now

/-- The time at which the operation happens, where that is recorded. -/
def opClock : PeerOp → Option UInt64
  | .reply _ _ _ clock => some clock
  | .acks now => some now
  | .tick now => some now
  | .watch _ _ now => some now
  | _ => none

/-- The replies taken and those since, after the operation. -/
def traceReplies (t : PeerTrace) (i : Fam) : PeerOp → List Reply × List Reply
  | .reply family node qep clock =>
      if family = i ∧ node ≠ [] ∧ node.length ≤ netstateSaMax ∧
          ackOnNet qep (t.m.fam i) = true then
        (t.taken i, t.fresh i ++ [{ node := node, clock := clock }])
      else (t.taken i, t.fresh i)
  | .acks _ => (t.taken i ++ t.fresh i, [])
  | .watch changed addrs now =>
      if moves i (.netmon changed addrs now) = true then ([], []) else (t.taken i, t.fresh i)
  | _ => (t.taken i, t.fresh i)

/-- One operation, traced. -/
def traceStep (t : PeerTrace) (op : PeerOp) : PeerTrace where
  m := peerStep t.m op
  taken := fun i => (traceReplies t i op).1
  fresh := fun i => (traceReplies t i op).2
  clock := (opClock op).getD t.clock

/-- The replies of the node among these. -/
def repliesOf (rs : List Reply) (node : Bytes) : List Reply := rs.filter fun r => r.node == node

/-- The last of the replies came at least `NETSTATE_ANCHOR_PROVE_MS` after that time. -/
def lastsFrom (first : UInt64) (rs : List Reply) : Bool :=
  rs.getLast?.any fun last => first.toNat + anchorProveMs.toNat ≤ last.clock.toNat

/-- The node gave at least `NETSTATE_ANCHOR_QUALIFY` replies, the first and the last of
them at least `NETSTATE_ANCHOR_PROVE_MS` apart. -/
def SteadyRun (rs : List Reply) (node : Bytes) : Prop :=
  anchorQualify ≤ (repliesOf rs node).length ∧
    (repliesOf rs node).head?.any (fun first => lastsFrom first.clock (repliesOf rs node)) = true

/-- A family whose anchor is confirmed by the operation has had a steady run of it. -/
def Confirms (t : PeerTrace) (op : PeerOp) : Prop :=
  ∀ i, (t.m.ns.f i).anchorConfirmed = false →
    ((traceStep t op).m.ns.f i).anchorConfirmed = true →
    SteadyRun ((traceStep t op).replies i) ((traceStep t op).m.ns.f i).anchor

/-- What a pass of `peering_acks` must find for its counts to be counts of replies and
its clock theirs: it takes the replies as they come, the node pinned is the one held, and
where both flags speak of that one it has answered more than once. -/
def CountedPass (t : PeerTrace) (now : UInt64) (i : Fam) : Prop :=
  (∀ r ∈ t.fresh i, r.clock = now) ∧
    ((t.m.ns.f i).anchor ≠ [] → (t.m.ns.f i).anchorConfirmed = false →
      (t.m.fam i).anchorSeen = true →
      (t.m.fam i).rnode = (t.m.ns.f i).anchor ∧
        ((t.m.fam i).ackNew = true → (t.m.fam i).ackNode = (t.m.ns.f i).anchor →
          2 ≤ (repliesOf (t.fresh i) (t.m.ns.f i).anchor).length))

/-- What a tick must find: where the time to prove the anchor has passed since its run
began, the run has lasted as long. -/
def CountedTick (t : PeerTrace) (now : UInt64) (i : Fam) : Prop :=
  (t.m.ns.f i).anchorConfirmed = false → anchorQualify ≤ (t.m.ns.f i).anchorAcks →
    anchorProveMs ≤ now - (t.m.ns.f i).anchorFirstMs →
    lastsFrom (t.m.ns.f i).anchorFirstMs
      (repliesOf (t.replies i) (t.m.ns.f i).anchor) = true

/-- What a step must keep to: the clock does not go back, and the passes and ticks find
what they must. -/
def Counted (t : PeerTrace) (op : PeerOp) : Prop :=
  (∀ c, opClock op = some c → t.clock ≤ c) ∧
    (∀ now, op = .acks now → ∀ i, CountedPass t now i) ∧
    (∀ now, op = .tick now → ∀ i, CountedTick t now i)

instance decidableForallFam {p : Fam → Prop} [DecidablePred p] : Decidable (∀ i, p i) :=
  decidable_of_iff (p .v4 ∧ p .v6)
    ⟨fun h i => match i with
      | .v4 => h.1
      | .v6 => h.2, fun h => ⟨h .v4, h .v6⟩⟩

instance (t : PeerTrace) (now : UInt64) (i : Fam) : Decidable (CountedPass t now i) :=
  inferInstanceAs (Decidable (_ ∧ _))

instance (t : PeerTrace) (now : UInt64) (i : Fam) : Decidable (CountedTick t now i) :=
  inferInstanceAs (Decidable (_ → _))

instance (t : PeerTrace) (op : PeerOp) : Decidable (Counted t op) :=
  match op with
  | .acks now =>
      decidable_of_iff (t.clock ≤ now ∧ ∀ i, CountedPass t now i) (by simp [Counted, opClock])
  | .tick now =>
      decidable_of_iff (t.clock ≤ now ∧ ∀ i, CountedTick t now i) (by simp [Counted, opClock])
  | .reply _ _ _ clock => decidable_of_iff (t.clock ≤ clock) (by simp [Counted, opClock])
  | .watch _ _ now => decidable_of_iff (t.clock ≤ now) (by simp [Counted, opClock])
  | .pin _ => .isTrue (by simp [Counted, opClock])
  | .forget _ => .isTrue (by simp [Counted, opClock])
  | .relay _ _ => .isTrue (by simp [Counted, opClock])
  | .net _ => .isTrue (by simp [Counted, opClock])

instance (rs : List Reply) (node : Bytes) : Decidable (SteadyRun rs node) :=
  inferInstanceAs (Decidable (_ ∧ _))

instance (t : PeerTrace) (op : PeerOp) : Decidable (Confirms t op) :=
  inferInstanceAs (Decidable (∀ _, _))

end Peering
end Comrade
