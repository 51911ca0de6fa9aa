import Comrade.Paths.PlaneRun
import Comrade.Rdv.Message

/-!
# The carrier statement

One end of a connection states where it transmits, the other obeys and answers
(`tx_propose` and `tx_confirm` in `peering.c`, and the part of `ctlplane.c` that
numbers the statements and keeps what arrived).  A statement is a proposal, which
moves nothing until it is answered, or *forced*: the escape route has moved
already.

`TxSystem` is the pair of ends with the control stream between them, and the
statements made so far.  `tx_propose` takes an answer and then states; the
receiving thread may run in between, so the two are separate steps here,
`txTakeAck` and `txState`.
-/

namespace Comrade
namespace Carrier

open Lib Paths

/-! ## The statement on the wire -/

/-- `CTL_TXSEL_PLEN`. -/
def ctlTxselPlen : Nat := 13

/-- `CTL_TXSEL_F_FORCED`. -/
def ctlTxselForced : UInt8 := 0x01

/-- `CTL_TXACK_F_UNKNOWN`. -/
def ctlTxackUnknown : UInt8 := 0x02

/-- `CTL_TXACK_F_UNUSABLE`. -/
def ctlTxackUnusable : UInt8 := 0x04

/-- A numbered statement or the answer to it, as the codec hands it over. -/
structure TxMsg where
  seq : UInt32
  id : PathId
  flags : UInt8
  deriving DecidableEq

/-- `ctl_txsel_encode`. -/
def ctlTxselEncode (m : TxMsg) : Bytes := Rdv.put32 m.seq ++ m.id.toList ++ [m.flags]

/-- `ctl_txsel_decode`. -/
def ctlTxselDecode (pl : Bytes) : Option TxMsg :=
  if pl.length < ctlTxselPlen then none
  else some { seq := Rdv.get32At pl 0, id := Vector.ofFn fun i => Rdv.byteAt pl (4 + i),
              flags := Rdv.byteAt pl 12 }

@[simp] theorem ctlTxselDecode_encode (m : TxMsg) :
    ctlTxselDecode (ctlTxselEncode m) = some m := by
  have hlen : ¬(ctlTxselEncode m).length < ctlTxselPlen := by
    simp [ctlTxselEncode, Rdv.put32, ctlTxselPlen]
  have hseq : Rdv.get32At (ctlTxselEncode m) 0 = m.seq := Rdv.get32_put32 m.seq
  have hid : (Vector.ofFn fun i : Fin 8 => Rdv.byteAt (ctlTxselEncode m) (4 + i)) = m.id := by
    apply Vector.ext
    intro i hi
    have hget : (m.id.toList ++ [m.flags]).getD i 0 = m.id[i] := by
      rw [List.getD_eq_getElem?_getD, List.getElem?_append_left (by simpa using hi)]
      simp [hi]
    rw [Vector.getElem_ofFn, Nat.add_comm]
    exact hget
  have hflags : Rdv.byteAt (ctlTxselEncode m) 12 = m.flags := by
    simp [Rdv.byteAt, ctlTxselEncode, Rdv.put32]
  rw [ctlTxselDecode, if_neg hlen, hseq, hid, hflags]

/-! ## The control plane's part -/

/-- The fields of `struct ctlplane` that carry statements and answers. -/
structure CtlTx where
  txselSeqOut : UInt32
  txselSeqIn : UInt32
  txselWait : UInt32
  txselInPending : Bool
  txackInPending : Bool
  txselInId : PathId
  txackInId : PathId
  txselInFlags : UInt8
  txackInFlags : UInt8

/-- The fields as `ctlplane_init` leaves them. -/
def ctlTxInit : CtlTx where
  txselSeqOut := 0
  txselSeqIn := 0
  txselWait := 0
  txselInPending := false
  txackInPending := false
  txselInId := Vector.replicate 8 0
  txackInId := Vector.replicate 8 0
  txselInFlags := 0
  txackInFlags := 0

/-- `ctlplane_tell_txsel`: the number of the statement, 0 for none, and what goes
out. -/
def ctlplaneTellTxsel (cp : CtlTx) (ready : Bool) (id : PathId) (flags : UInt8) :
    CtlTx × UInt32 × Option Bytes :=
  if ready = false then (cp, 0, none)
  else
    let seq := cp.txselSeqOut + 1
    -- an answer to an earlier statement that was not read yet is dropped
    ({ cp with txselSeqOut := seq, txselWait := seq, txackInPending := false }, seq,
      some (ctlTxselEncode { seq := seq, id := id, flags := flags }))

/-- `ctlplane_tell_txack`. -/
def ctlplaneTellTxack (ready : Bool) (seq : UInt32) (id : PathId) (flags : UInt8) : Option Bytes :=
  if ready = false then none else some (ctlTxselEncode { seq := seq, id := id, flags := flags })

/-- `ctlplane_take_txsel`. -/
def ctlplaneTakeTxsel (cp : CtlTx) : CtlTx × Option TxMsg :=
  if cp.txselInPending = true then
    ({ cp with txselInPending := false },
      some { seq := cp.txselSeqIn, id := cp.txselInId, flags := cp.txselInFlags })
  else (cp, none)

/-- `ctlplane_take_txack`. -/
def ctlplaneTakeTxack (cp : CtlTx) : CtlTx × Option TxMsg :=
  if cp.txackInPending = true then
    ({ cp with txackInPending := false, txselWait := 0 },
      some { seq := cp.txselWait, id := cp.txackInId, flags := cp.txackInFlags })
  else (cp, none)

/-- `on_txsel`: a statement at or below the highest held says nothing. -/
def onTxsel (cp : CtlTx) (pl : Bytes) : CtlTx :=
  match ctlTxselDecode pl with
  | none => cp
  | some m =>
      if m.seq > cp.txselSeqIn then
        { cp with
          txselSeqIn := m.seq
          txselInId := m.id
          txselInFlags := m.flags
          txselInPending := true }
      else cp

/-- `on_txack`: an answer is to one numbered question. -/
def onTxack (cp : CtlTx) (pl : Bytes) : CtlTx :=
  match ctlTxselDecode pl with
  | none => cp
  | some m =>
      if cp.txselWait ≠ 0 ∧ m.seq = cp.txselWait then
        { cp with txackInId := m.id, txackInFlags := m.flags, txackInPending := true }
      else cp

/-! ## The two ends -/

/-- The part of `struct peering` that stating and confirming read and write. -/
structure Peering where
  pl : PathPlane
  cp : CtlTx
  txPending : Bool
  txPendingSeq : UInt32
  txPendingId : PathId
  txToldId : PathId
  txTold : Bool

/-- The fields as `peering_init` leaves them. -/
def peeringInit : Peering where
  pl := pathplaneInit
  cp := ctlTxInit
  txPending := false
  txPendingSeq := 0
  txPendingId := Vector.replicate 8 0
  txToldId := Vector.replicate 8 0
  txTold := false

/-- `tx_confirm`: obey a statement and answer it. -/
def txConfirm (pr : Peering) (k : PlaneSinks) (ready : Bool) (now : Nat) :
    Peering × Option Bytes :=
  match ctlplaneTakeTxsel pr.cp with
  | (cp, none) => ({ pr with cp := cp }, none)
  | (cp, some m) =>
      let r := pathplanePin pr.pl k m.id now
      let ack :=
        match r.2 with
        | .ok => 0
        | .unknown => ctlTxackUnknown
        | .unusable => ctlTxackUnusable
      ({ pr with cp := cp, pl := r.1 }, ctlplaneTellTxack ready m.seq m.id ack)

/-- The first half of `tx_propose`: take an answer, and move where it says that
the peer did.  The carrier it pins is returned beside the new state. -/
def txTakeAck (pr : Peering) (k : PlaneSinks) (now : Nat) : Peering × Option PathId :=
  match ctlplaneTakeTxack pr.cp with
  | (cp, none) => ({ pr with cp := cp }, none)
  | (cp, some m) =>
      let pr := { pr with cp := cp, txPending := false }
      -- the id is held against the last proposal, not against what was answered
      if m.flags = 0 ∧ m.id = pr.txPendingId then
        match pathplanePin pr.pl k m.id now with
        | (pl, .ok) => ({ pr with pl := pl, txToldId := m.id }, some m.id)
        | (pl, _) => ({ pr with pl := pl }, none)
      else (pr, none)

/-- Did the carry move without being asked about?  The test `tx_propose` makes
before it states a move as made. -/
def carryMoved (pr : Peering) (carry : PathId) : Bool := !pr.txTold || carry != pr.txToldId

/-- The second half of `tx_propose`: state a move that was made, or propose the
one a challenger calls for. -/
def txState (pr : Peering) (ready : Bool) (now : Nat) : Peering × Option Bytes :=
  match pathplaneCarryId pr.pl with
  | none => (pr, none)
  | some carry =>
      if carryMoved pr carry = true then
        match ctlplaneTellTxsel pr.cp ready carry ctlTxselForced with
        | (cp, seq, sent) =>
            if seq = 0 then ({ pr with cp := cp }, sent)
            else ({ pr with cp := cp, txToldId := carry, txTold := true, txPending := false }, sent)
      -- one proposal at a time: the next waits for the answer
      else if pr.txPending = true then (pr, none)
      else
        match pathplaneChallenger pr.pl now with
        | none => (pr, none)
        | some id =>
            match ctlplaneTellTxsel pr.cp ready id 0 with
            | (cp, seq, sent) =>
                if seq = 0 then ({ pr with cp := cp, txPendingSeq := seq }, sent)
                else
                  ({ pr with cp := cp, txPendingSeq := seq, txPendingId := id, txPending := true },
                    sent)

/-! ## The pair and the stream between them -/

/-- A statement as it was made. -/
structure Statement where
  id : PathId
  forced : Bool
  deriving DecidableEq

/-- The statement a payload carries. -/
def TxMsg.statement (m : TxMsg) : Statement :=
  { id := m.id, forced := m.flags &&& ctlTxselForced != 0 }

/-- A proposer and a confirmer, the two directions of the control stream, and
every statement made so far, oldest first. -/
structure TxSystem where
  proposer : Peering
  confirmer : Peering
  sel : List Bytes
  ack : List Bytes
  stated : List Statement

/-- Both ends fresh, and nothing on the stream. -/
def txInit : TxSystem :=
  { proposer := peeringInit, confirmer := peeringInit, sel := [], ack := [], stated := [] }

/-- One step of either end or of the stream.  The plane of an end moves by any
call into it, the escape route's decision among them. -/
inductive TxEvent where
  | proposerPlane (ev : PlaneEvent)
  | confirmerPlane (ev : PlaneEvent)
  | takeAck (k : PlaneSinks) (now : Nat)
  | state (ready : Bool) (now : Nat)
  | confirm (k : PlaneSinks) (ready : Bool) (now : Nat)
  | deliverSel
  | deliverAck

/-- The pair after one step. -/
def txStep (blake2b : Blake2b) (base : Bytes) (s : TxSystem) : TxEvent → TxSystem
  | .proposerPlane ev =>
      { s with proposer := { s.proposer with pl := planeStep blake2b base s.proposer.pl ev } }
  | .confirmerPlane ev =>
      { s with confirmer := { s.confirmer with pl := planeStep blake2b base s.confirmer.pl ev } }
  | .takeAck k now => { s with proposer := (txTakeAck s.proposer k now).1 }
  | .state ready now =>
      let r := txState s.proposer ready now
      { s with
        proposer := r.1
        sel := s.sel ++ r.2.toList
        stated := s.stated ++ (r.2.bind ctlTxselDecode).toList.map TxMsg.statement }
  | .confirm k ready now =>
      let r := txConfirm s.confirmer k ready now
      { s with confirmer := r.1, ack := s.ack ++ r.2.toList }
  | .deliverSel =>
      match s.sel with
      | [] => s
      | pl :: rest =>
          { s with
            sel := rest
            confirmer := { s.confirmer with cp := onTxsel s.confirmer.cp pl } }
  | .deliverAck =>
      match s.ack with
      | [] => s
      | pl :: rest =>
          { s with
            ack := rest
            proposer := { s.proposer with cp := onTxack s.proposer.cp pl } }

end Carrier
end Comrade
