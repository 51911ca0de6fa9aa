import Comrade.Lib.Table
import Comrade.Rdv.Message

/-!
# The rendezvous host

The host keeps a record for each claimant it has read an offer from
(`rdv_host_*` in `rdv.c`).  A record moves through `RdvCState`; beside the
table stand the number of answered records, which admission is measured
against, and the flags that decide what `rdv_host_next` writes.

A C pointer into the table is the index of its slot.
-/

namespace Comrade
namespace Rdv

open Lib

/-- `RDV_HOST_MAX`. -/
def rdvHostMax : Nat := 16

/-- `enum rdv_cstate`. -/
inductive RdvCState where
  | free
  | harvested
  | answered
  | refused
  | gone
  deriving DecidableEq, Repr

/-- `struct rdv_claimant`; `answer` stands for the buffer up to `answer_len`. -/
structure RdvClaimant where
  cid : Cid
  lastSeq : UInt32
  answerRe : UInt32
  state : RdvCState
  haveSeq : Bool
  pending : Bool
  holds : Bool
  wideAsk : UInt8
  refusal : UInt8
  grade : UInt8
  answer : Bytes
  deriving DecidableEq

/-- `struct rdv_host`. -/
structure RdvHost where
  cid : Cid
  gen : UInt32
  seq : UInt32
  grant : Int
  answered : Int
  c : Fin rdvHostMax → RdvClaimant
  infoPending : Bool
  turnSpent : Bool
  gone : Bool
  deriving DecidableEq

/-- A record after `memset`. -/
def claimantZero : RdvClaimant where
  cid := rdvZero
  lastSeq := 0
  answerRe := 0
  state := .free
  haveSeq := false
  pending := false
  holds := false
  wideAsk := 0
  refusal := 0
  grade := 0
  answer := []

/-- `rdv_host_init`. -/
def rdvHostInit (cid : Cid) (gen : UInt32) (grant : Int) : RdvHost where
  cid := cid
  gen := gen
  seq := 0
  grant := grant
  answered := 0
  c := fun _ => claimantZero
  infoPending := true
  turnSpent := false
  gone := false

/-- `rdv_host_set_gen`. -/
def rdvHostSetGen (h : RdvHost) (gen : UInt32) : RdvHost :=
  if gen = h.gen then h else { h with gen := gen, infoPending := true }

/-- `rdv_host_entomb`. -/
def rdvHostEntomb (h : RdvHost) : RdvHost := { h with gone := true, infoPending := true }

/-- A record that stands for a claimant. -/
def RdvClaimant.used (r : RdvClaimant) : Bool := r.state != .free

/-- `rdv_host_find`. -/
def rdvHostFind (h : RdvHost) (cid : Cid) : Option (Fin rdvHostMax) :=
  firstSlot h.c fun r => r.used && r.cid == cid

/-- `host_evict`. -/
def hostEvict (h : RdvHost) (state : RdvCState) : Option (Fin rdvHostMax) :=
  firstSlot h.c fun r => r.state == state

/-- Write one record. -/
def RdvHost.put (h : RdvHost) (i : Fin rdvHostMax) (r : RdvClaimant) : RdvHost :=
  { h with c := Function.update h.c i r }

/-- A record newly given to a claimant. -/
def claimantNew (cid : Cid) : RdvClaimant :=
  { claimantZero with cid := cid, state := .harvested }

/-- The slot `host_admit` gives to a newcomer: a free one, else the record of a
claimant that is gone, else that of one refused. -/
def hostVacancy (h : RdvHost) : Option (Fin rdvHostMax) :=
  (hostEvict h .free).or ((hostEvict h .gone).or (hostEvict h .refused))

/-- `host_admit`. -/
def hostAdmit (h : RdvHost) (cid : Cid) : RdvHost × Option (Fin rdvHostMax) :=
  match rdvHostFind h cid with
  | some i => (h, some i)
  | none =>
      match hostVacancy h with
      | none => (h, none)
      | some i => (h.put i (claimantNew cid), some i)

/-- `answer_stands`: the cell carries the answer to another claimant. -/
def answerStands (h : RdvHost) (skip : Fin rdvHostMax) : Bool :=
  (List.finRange rdvHostMax).any fun i => decide (i ≠ skip) && (h.c i).holds

/-- `rdv_host_turn_kept`. -/
def rdvHostTurnKept (h : RdvHost) : RdvHost := { h with turnSpent := false }

/-- `rdv_host_release`. -/
def rdvHostRelease (h : RdvHost) (cid : Cid) : RdvHost :=
  match rdvHostFind h cid with
  | none => { h with infoPending := true, turnSpent := true }
  | some i =>
      let h := h.put i { h.c i with holds := false }
      -- a claimant with something owed again keeps the turn it is about to need
      if (h.c i).pending = true then h
      else { h with infoPending := true, turnSpent := true }

/-- `if (h->answered > 0) h->answered--`. -/
def RdvHost.answeredLess (h : RdvHost) : RdvHost :=
  if 0 < h.answered then { h with answered := h.answered - 1 } else h

/-- An offer made acceptable by its number: the record takes the number, no
answer stands in the cell any more, and an earlier answer is of no use. -/
def hostHarvest (h : RdvHost) (i : Fin rdvHostMax) (seq : UInt32) : RdvHost :=
  let h := h.put i { h.c i with lastSeq := seq, haveSeq := true }
  -- the offer was read where an answer would stand, so none stands there
  let h := { h with turnSpent := false, c := fun j => { h.c j with holds := false } }
  let h := if (h.c i).state = .answered
    then (h.put i { h.c i with state := .harvested }).answeredLess else h
  if (h.c i).state = .gone ∨ (h.c i).state = .refused
    then h.put i { h.c i with state := .harvested } else h

/-- The rest of `rdv_host_slot`, once the claimant has a record at `i`.  A
replayed or reordered offer changes nothing; past the grant, it is refused. -/
def hostTakeOffer (h : RdvHost) (i : Fin rdvHostMax) (m : RdvMsg) : RdvHost × Bool :=
  if (h.c i).haveSeq = true ∧ m.seq ≤ (h.c i).lastSeq then (h, false)
  else
    let h := hostHarvest h i m.seq
    if h.grant ≠ 0 ∧ h.answered ≥ h.grant then
      (h.put i
        { h.c i with
          state := .refused
          refusal := 1 -- RDV_REFUSE_FULL
          pending := true
          answerRe := (h.c i).lastSeq }, false)
    else (h, true)

/-- Is a message an offer made to this host? -/
def hostOffered (cid : Cid) (m : RdvMsg) : Bool :=
  m.kind == .offer && m.frm != rdvZero && rdvAddressedTo m.dst cid

/-- `rdv_host_slot`: a copy of the turn place.  True for an offer to act on. -/
def rdvHostSlot (h : RdvHost) (m : RdvMsg) : RdvHost × Bool :=
  if hostOffered h.cid m = false then (h, false)
  else
    match hostAdmit h m.frm with
    | (h, none) => (h, false)
    | (h, some i) => hostTakeOffer h i m

/-- `rdv_host_answer`. -/
def rdvHostAnswer (h : RdvHost) (cid : Cid) (payload : Bytes) : RdvHost :=
  match rdvHostFind h cid with
  | none => h
  | some i =>
      if payload.length > rdvMaxPayload then h
      else
        let h := if (h.c i).state ≠ .answered then { h with answered := h.answered + 1 } else h
        h.put i
          { h.c i with
            state := .answered
            refusal := 0 -- RDV_REFUSE_NONE
            pending := true
            answerRe := (h.c i).lastSeq
            answer := payload }

/-- `rdv_host_unsent`. -/
def rdvHostUnsent (h : RdvHost) (cid : Cid) : RdvHost :=
  match rdvHostFind h cid with
  | none => h
  | some i =>
      if (h.c i).state = .gone then h
      else h.put i { h.c i with pending := true, holds := false }

/-- `rdv_host_refuse`. -/
def rdvHostRefuse (h : RdvHost) (cid : Cid) (reason : UInt8) : RdvHost :=
  match rdvHostFind h cid with
  | none => h
  | some i =>
      let h := if (h.c i).state = .answered then h.answeredLess else h
      h.put i
        { h.c i with
          state := .refused
          refusal := reason
          pending := true
          answerRe := (h.c i).lastSeq
          answer := [] }

/-- The record `rdv_host_keep` leaves: the same answer is owed again unless the
cell carries it, and what is owed is owed against the ask in hand now. -/
def claimantKept (r : RdvClaimant) : RdvClaimant :=
  let r := { r with state := .answered, pending := r.pending || !r.holds }
  if r.pending = true then { r with answerRe := r.lastSeq } else r

/-- `rdv_host_keep`. -/
def rdvHostKeep (h : RdvHost) (cid : Cid) : RdvHost :=
  match rdvHostFind h cid with
  | none => h
  | some i =>
      if (h.c i).state = .gone then h
      -- nothing was ever answered to it, so there is no answer to state again
      else if (h.c i).state ≠ .refused ∧ (h.c i).answer = [] then h
      else
        let h := if (h.c i).state ≠ .answered then { h with answered := h.answered + 1 } else h
        h.put i (claimantKept (h.c i))

/-- `rdv_host_forget`. -/
def rdvHostForget (h : RdvHost) (cid : Cid) : RdvHost :=
  match rdvHostFind h cid with
  | none => h
  | some i =>
      let h := if (h.c i).state = .answered then h.answeredLess else h
      let h := h.put i
        { h.c i with state := .gone, pending := false, holds := false, answer := [] }
      { h with infoPending := true, turnSpent := true }

/-- The statement of the host place: what `rdv_host_next` writes first. -/
def hostInfoMsg (h : RdvHost) (info : Bytes) : RdvMsg where
  kind := if h.gone = true then .tomb else .hostinfo
  gen := h.gen
  frm := h.cid
  dst := rdvZero
  seq := h.seq
  re := 0
  payload := info

/-- The statement of the turn place to a claimant with something owed. -/
def hostTurnMsg (h : RdvHost) (r : RdvClaimant) : RdvMsg where
  kind := if r.state = .refused then .refuse else .answer
  gen := h.gen
  frm := h.cid
  dst := r.cid
  seq := h.seq
  re := r.answerRe
  payload := if r.state = .refused then [r.refusal] else r.answer

/-- The claimant whose turn it is: the first with something owed, as long as
no other's answer stands in the cell. -/
def hostTurn (h : RdvHost) : Option (Fin rdvHostMax) :=
  Fin.find? fun i => (h.c i).pending && !answerStands h i

/-- `rdv_host_next`: the next statement to write, if one is due.  The number is
drawn before the message is encoded. -/
def rdvHostNext (h : RdvHost) (info : Bytes) : RdvHost × Option RdvOut :=
  if h.infoPending = true then
    if info.length > rdvHostPayload then (h, none)
    else
      let h := { h with seq := h.seq + 1 }
      match rdvEncode (hostInfoMsg h info) rdvMaxMsg with
      | none => (h, none)
      | some b => ({ h with infoPending := false }, some { msg := b, sealKey := .infoKey })
  else
    match hostTurn h with
    | none => (h, none)
    | some i =>
        let h := { h with seq := h.seq + 1 }
        match rdvEncode (hostTurnMsg h (h.c i)) rdvMaxMsg with
        | none => (h, none)
        | some b =>
            (h.put i { h.c i with pending := false, holds := true },
              some { msg := b, sealKey := .classKey })

/-! ## The scans -/

theorem rdvHostFind_some {h : RdvHost} {cid : Cid} {i : Fin rdvHostMax}
    (hi : rdvHostFind h cid = some i) : (h.c i).used = true ∧ (h.c i).cid = cid := by
  have := firstSlot_spec hi
  simpa using this

theorem rdvHostFind_none {h : RdvHost} {cid : Cid} (hnone : rdvHostFind h cid = none)
    (i : Fin rdvHostMax) (hused : (h.c i).used = true) : (h.c i).cid ≠ cid := by
  have := firstSlot_eq_none_iff.mp hnone i
  simpa [hused] using this

/-- A scan sees the claimants of the table and nothing else of it. -/
theorem rdvHostFind_congr {h h' : RdvHost} (cid : Cid)
    (heq : ∀ j, (h'.c j).used = (h.c j).used ∧ (h'.c j).cid = (h.c j).cid) :
    rdvHostFind h' cid = rdvHostFind h cid := by
  unfold rdvHostFind firstSlot
  congr 1
  funext j
  show ((h'.c j).used && (h'.c j).cid == cid) = ((h.c j).used && (h.c j).cid == cid)
  rw [(heq j).1, (heq j).2]

theorem hostEvict_some {h : RdvHost} {state : RdvCState} {i : Fin rdvHostMax}
    (hi : hostEvict h state = some i) : (h.c i).state = state := by
  simpa using firstSlot_spec hi

/-- A newcomer is never given the record of a claimant harvested or answered. -/
theorem hostVacancy_state {h : RdvHost} {i : Fin rdvHostMax} (hi : hostVacancy h = some i) :
    (h.c i).state = .free ∨ (h.c i).state = .gone ∨ (h.c i).state = .refused := by
  unfold hostVacancy at hi
  rcases Option.or_eq_some_iff.mp hi with hfree | ⟨-, hi⟩
  · exact .inl (hostEvict_some hfree)
  · rcases Option.or_eq_some_iff.mp hi with hgone | ⟨-, hrefused⟩
    · exact .inr (.inl (hostEvict_some hgone))
    · exact .inr (.inr (hostEvict_some hrefused))

/-- While a slot is free, no other record is given away. -/
theorem hostVacancy_free {h : RdvHost} {i j : Fin rdvHostMax} (hi : hostVacancy h = some i)
    (hj : (h.c j).state = .free) : (h.c i).state = .free := by
  unfold hostVacancy at hi
  rcases Option.or_eq_some_iff.mp hi with hfree | ⟨hnone, -⟩
  · exact hostEvict_some hfree
  · have := firstSlot_eq_none_iff.mp hnone j
    simp [hj] at this

end Rdv
end Comrade
