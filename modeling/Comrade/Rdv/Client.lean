import Comrade.Rdv.Message

/-!
# The rendezvous client

A client finds the host's statement in the cell, leaves an offer in the turn
place and takes the answer that names it (`rdv_client_*` in `rdv.c`).  Each
function below returns the new client and, where the C function does, the
value it returns.

The decision whether a statement in the turn place is takeable is made by five
fields together: `offerSeq` (the offer standing now), `prevOfferSeq` (the one
it superseded), `answerSeq` with `haveAnswerSeq` (the newest statement already
taken from this host instance) and `hostCid`.
-/

namespace Comrade
namespace Rdv

open Lib

/-- `RDV_PREV_MAX`. -/
def rdvPrevMax : Nat := 4

/-- `enum rdv_clstate`. -/
inductive RdvClState where
  | announcing
  | offered
  | answered
  | refused
  deriving DecidableEq, Repr

/-- `RDV_REFUSE_NONE`. -/
def rdvRefuseNone : UInt8 := 0

/-- `RDV_REFUSE_FULL`. -/
def rdvRefuseFull : UInt8 := 1

/-- `struct rdv_client`; `offer` and `answer` stand for the buffers up to
`offer_len` and `answer_len`. -/
structure RdvClient where
  cid : Cid
  hostCid : Cid
  prevCid : Fin rdvPrevMax → Cid
  hSeq : Int
  hostGen : UInt32
  seq : UInt32
  offerSeq : UInt32
  prevOfferSeq : UInt32
  answerSeq : UInt32
  state : RdvClState
  haveHost : Bool
  haveAnswerSeq : Bool
  live : Bool
  reask : Bool
  refusal : UInt8
  hostGone : Bool
  nprev : Nat
  offer : Bytes
  answer : Bytes
  deriving DecidableEq

/-- `rdv_client_init`. -/
def rdvClientInit (cid : Cid) : RdvClient where
  cid := cid
  hostCid := rdvZero
  prevCid := fun _ => rdvZero
  hSeq := -1
  hostGen := 0
  seq := 0
  offerSeq := 0
  prevOfferSeq := 0
  answerSeq := 0
  state := .announcing
  haveHost := false
  haveAnswerSeq := false
  live := false
  reask := false
  refusal := 0
  hostGone := false
  nprev := 0
  offer := []
  answer := []

/-- `client_knew`: the current host, or one of the instances left before. -/
def clientKnew (c : RdvClient) (cid : Cid) : Bool :=
  (c.haveHost && c.hostCid == cid) ||
    (List.finRange rdvPrevMax).any fun i => decide (i.val < c.nprev) && c.prevCid i == cid

/-- `client_copy_acts`: whether a copy at store sequence `seq` is acted on, with
the highest sequence seen moved up when it is. -/
def clientCopyActs (c : RdvClient) (m : RdvMsg) (seq : Int) : RdvClient × Bool :=
  -- a copy older than one already read is held back only for an instance known:
  -- a new one may come at any sequence
  if 0 ≤ seq ∧ seq < c.hSeq ∧ clientKnew c m.frm = true then (c, false)
  else if seq > c.hSeq then ({ c with hSeq := seq }, true)
  else (c, true)

/-- The bookkeeping of a host instance being left for another: its id is kept,
and the new instance numbers its statements from one. -/
def clientLeaveHost (c : RdvClient) : RdvClient :=
  { c with
    prevCid := Function.update c.prevCid
      ⟨c.nprev % rdvPrevMax, Nat.mod_lt _ (by decide)⟩ c.hostCid
    nprev := if c.nprev < rdvPrevMax then c.nprev + 1 else c.nprev
    haveAnswerSeq := false }

/-- `rdv_client_host_slot`: a copy of the host place read at store sequence
`seq`.  `-1` for a copy that lags, `1` for a host new or moved. -/
def rdvClientHostSlot (c : RdvClient) (m : RdvMsg) (seq : Int) : RdvClient × Int :=
  if m.kind ≠ .tomb ∧ m.kind ≠ .hostinfo then (c, 0)
  else if m.frm = rdvZero then (c, 0)
  else
    match clientCopyActs c m seq with
    | (c, false) => (c, -1)
    | (c, true) =>
        if m.kind = .tomb then ({ c with hostGone := true }, 0)
        else
          let c := { c with hostGone := false }
          if c.haveHost = true ∧ c.hostCid = m.frm ∧ m.gen = c.hostGen then (c, 0)
          else
            -- the same instance under a new generation keeps its answer numbers
            let c := if c.haveHost = true ∧ c.hostCid ≠ m.frm then clientLeaveHost c else c
            ({ c with
               hostCid := m.frm
               hostGen := m.gen
               haveHost := true
               state := .announcing
               answer := []
               offerSeq := 0
               refusal := rdvRefuseNone }, 1)

/-- `rdv_client_ask_gone`: the turn place is free at store sequence `seq`. -/
def rdvClientAskGone (c : RdvClient) (seq : Int) : RdvClient :=
  if 0 ≤ seq ∧ seq < c.hSeq then c
  else if c.state = .offered then { c with reask := true }
  else c

/-- `enum rdv_take`: why a statement in the turn place is not ours to take. -/
inductive RdvTake where
  | ok
  | notAnAnswer
  | addressedElsewhere
  | anotherHost
  | nothingAsked
  | anotherOffer
  | alreadyTaken
  deriving DecidableEq, Repr

/-- `rdv_client_refusal`. -/
def rdvClientRefusal (c : RdvClient) (m : RdvMsg) : RdvTake :=
  if m.kind ≠ .answer ∧ m.kind ≠ .refuse then .notAnAnswer
  else if rdvAddressedTo m.dst c.cid = false ∨ m.dst ≠ c.cid then .addressedElsewhere
  else if c.haveHost = true ∧ m.frm ≠ c.hostCid then .anotherHost
  else if c.offerSeq = 0 then .nothingAsked
  -- an answer on its way while the offer was renewed names the one before
  else if m.re ≠ c.offerSeq ∧ ¬(c.prevOfferSeq ≠ 0 ∧ m.re = c.prevOfferSeq) then .anotherOffer
  else if c.haveAnswerSeq = true ∧ m.seq ≤ c.answerSeq then .alreadyTaken
  else .ok

/-- `rdv_client_would_take`. -/
def rdvClientWouldTake (c : RdvClient) (m : RdvMsg) : Bool :=
  rdvClientRefusal c m == .ok

/-- `rdv_client_may_replace`, where `m` is what stands in the turn place and
`none` is a statement that could not be opened. -/
def rdvClientMayReplace (c : RdvClient) (m : Option RdvMsg) : Bool :=
  match m with
  | none => true
  | some m =>
      if m.frm = c.cid then m.seq != c.offerSeq
      else if c.haveHost = false ∨ m.frm ≠ c.hostCid then true
      else !rdvClientWouldTake c m

/-- `rdv_client_own_slot`: take a statement as the answer to our offer. -/
def rdvClientOwnSlot (c : RdvClient) (m : RdvMsg) : RdvClient × Bool :=
  if rdvClientWouldTake c m = false then (c, false)
  else
    let c := { c with answerSeq := m.seq, haveAnswerSeq := true }
    if m.kind = .refuse then
      ({ c with
         state := .refused
         refusal := m.payload.headD rdvRefuseNone
         answer := [] }, true)
    else
      ({ c with
         state := .answered
         refusal := rdvRefuseNone
         answer := m.payload }, true)

/-- `rdv_client_answer_unusable`: spend an answer whose payload does not
decode. -/
def rdvClientAnswerUnusable (c : RdvClient) (m : RdvMsg) : RdvClient :=
  if rdvClientWouldTake c m = false then c
  else { c with answerSeq := m.seq, haveAnswerSeq := true, answer := [], reask := true }

/-- `rdv_client_ident_changed`. -/
def rdvClientIdentChanged (c : RdvClient) : RdvClient := { c with prevOfferSeq := 0 }

/-- `rdv_client_reask`. -/
def rdvClientReask (c : RdvClient) : RdvClient := { c with reask := true }

/-- `rdv_client_set_live`. -/
def rdvClientSetLive (c : RdvClient) (live : Bool) : RdvClient :=
  { c with
    live := live
    state := if live = false ∧ c.state = .answered then .announcing else c.state }

/-- Does the standing offer keep its number?  The test `offer_seq` makes. -/
def offerStands (c : RdvClient) (offer : Bytes) : Bool :=
  !c.reask && c.offerSeq != 0 && c.offer == offer

/-- `offer_seq`: the number the next offer goes out under.  An offer that still
stands unchanged keeps its number; any other draws the next one. -/
def offerSeq (c : RdvClient) (offer : Bytes) : RdvClient :=
  if offerStands c offer = true then c
  else
    { c with
      reask := false
      offer := offer
      prevOfferSeq := c.offerSeq
      seq := c.seq + 1
      offerSeq := c.seq + 1 }

/-- Is there anything for `rdv_client_next` to write? -/
def rdvClientMayAsk (c : RdvClient) (offer : Bytes) : Bool :=
  !(c.live || c.state == .refused || c.hostGone) && c.state != .answered && c.haveHost &&
    decide (offer.length ≤ rdvMaxPayload)

/-- `rdv_client_next`: the offer to leave in the turn place, if one is due. -/
def rdvClientNext (c : RdvClient) (offer : Bytes) : RdvClient × Option RdvOut :=
  if rdvClientMayAsk c offer = false then (c, none)
  else
    let hostGen := c.hostGen
    let c := offerSeq c offer
    let m : RdvMsg :=
      { kind := .offer, gen := hostGen, frm := c.cid, dst := c.hostCid,
        seq := c.offerSeq, re := 0, payload := offer }
    match rdvEncode m rdvMaxMsg with
    | none => (c, none)
    | some b => ({ c with state := .offered }, some { msg := b, sealKey := .classKey })

/-! ## What the takeable test says -/

/-- A statement is takeable exactly when it is an answer or a refusal addressed
to this client by its host, it names the offer standing now or the one just
superseded, and it is newer than the newest taken. -/
theorem rdvClientWouldTake_iff (c : RdvClient) (m : RdvMsg) :
    rdvClientWouldTake c m = true ↔
      (m.kind = .answer ∨ m.kind = .refuse) ∧ m.dst = c.cid ∧
      (c.haveHost = true → m.frm = c.hostCid) ∧ c.offerSeq ≠ 0 ∧
      (m.re = c.offerSeq ∨ (c.prevOfferSeq ≠ 0 ∧ m.re = c.prevOfferSeq)) ∧
      (c.haveAnswerSeq = true → c.answerSeq < m.seq) := by
  unfold rdvClientWouldTake rdvClientRefusal
  constructor
  · intro h
    split_ifs at h with hkind haddr hother hasked hoffer hspent
    · exact absurd h (by decide)
    · exact absurd h (by decide)
    · exact absurd h (by decide)
    · exact absurd h (by decide)
    · exact absurd h (by decide)
    · exact absurd h (by decide)
    · refine ⟨?_, ?_, ?_, hasked, ?_, ?_⟩
      · by_contra hnot
        exact hkind (not_or.mp hnot)
      · by_contra hdst
        exact haddr (.inr hdst)
      · intro hhost
        by_contra hne
        exact hother ⟨hhost, hne⟩
      · by_contra hnot
        exact hoffer (not_or.mp hnot)
      · intro hhave
        by_contra hlt
        exact hspent ⟨hhave, UInt32.not_lt.mp hlt⟩
  · rintro ⟨hkind, hdst, hfrm, hoffer, hre, hseq⟩
    have haddr : ¬(rdvAddressedTo m.dst c.cid = false ∨ m.dst ≠ c.cid) := by
      simp [rdvAddressedTo, hdst]
    have hother : ¬(c.haveHost = true ∧ m.frm ≠ c.hostCid) := fun h => h.2 (hfrm h.1)
    have hnew : ¬(c.haveAnswerSeq = true ∧ m.seq ≤ c.answerSeq) := by
      rintro ⟨hh, hle⟩
      exact absurd (hseq hh) (UInt32.not_lt.mpr hle)
    rw [if_neg (not_and_or.mpr (hkind.imp not_not.mpr not_not.mpr)), if_neg haddr, if_neg hother,
      if_neg hoffer, if_neg (not_and_or.mpr (hre.imp not_not.mpr not_not.mpr)), if_neg hnew]
    rfl

end Rdv
end Comrade
