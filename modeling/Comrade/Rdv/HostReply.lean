import Comrade.Rdv.HostRun

/-!
# What the host says back

A claimant's record owes a reply while `pending` is set.  Whether
`rdv_host_next` then writes an `ANSWER` or a `REFUSE` is read from the record's
state at that moment, and the payload from a buffer that other calls have
filled or emptied since.

* `hostEmits` is the message a call writes, read back from its bytes.
* `ReplyStep` says what one call can do to the fields a reply is made of.
* `emittedAnswer_lastGiven`: the payload of an `ANSWER` is the one last given
  for its claimant, in every run that avoids the four calls after which an
  empty or superseded answer is owed.
* `owedReplies_kept_iff`: a reply owed stays owed until it is written or the
  claimant is forgotten, exactly in the runs where no newcomer is given the
  record of a claimant whose refusal is still to be written.
-/

namespace Comrade
namespace Rdv

open Lib

/-- The message that a call writes, if it does. -/
def hostEmits (h : RdvHost) : HostOp → Option RdvMsg
  | .next info =>
      match (rdvHostNext h info).2 with
      | none => none
      | some o => (rdvDecode o.msg).toOption
  | _ => none

/-- A message of the turn place: what a claimant is told. -/
def RdvMsg.isReply (m : RdvMsg) : Bool := m.kind == .answer || m.kind == .refuse

/-! ## What one call does to a record -/

/-- The record of the claimant that a call names, before and after. -/
inductive ReplyEdit (h : RdvHost) (old : RdvClaimant) : HostOp → RdvClaimant → Prop
  | answer (payload : Bytes) (hlen : payload.length ≤ rdvMaxPayload) :
      ReplyEdit h old (.answer old.cid payload)
        { old with
          state := .answered
          refusal := 0
          pending := true
          answerRe := old.lastSeq
          answer := payload }
  | refuse (reason : UInt8) :
      ReplyEdit h old (.refuse old.cid reason)
        { old with
          state := .refused
          refusal := reason
          pending := true
          answerRe := old.lastSeq
          answer := [] }
  | keep (hgone : old.state ≠ .gone) (hsome : old.state = .refused ∨ old.answer ≠ []) :
      ReplyEdit h old (.keep old.cid) (claimantKept old)
  | forget :
      ReplyEdit h old (.forget old.cid)
        { old with state := .gone, pending := false, holds := false, answer := [] }
  | release : ReplyEdit h old (.release old.cid) { old with holds := false }
  | unsent (hgone : old.state ≠ .gone) :
      ReplyEdit h old (.unsent old.cid) { old with pending := true, holds := false }
  | next (info : Bytes) (hpending : old.pending = true)
      (hemits : hostEmits h (.next info) = some (hostTurnMsg { h with seq := h.seq + 1 } old)) :
      ReplyEdit h old (.next info) { old with pending := false, holds := true }

theorem ReplyEdit.answer_eq {h : RdvHost} {old r : RdvClaimant} {cid : Cid} {payload : Bytes}
    (hedit : ReplyEdit h old (.answer cid payload) r) :
    old.cid = cid ∧
      r = { old with
            state := .answered
            refusal := 0
            pending := true
            answerRe := old.lastSeq
            answer := payload } := by
  cases hedit with
  | answer _ _ => exact ⟨rfl, rfl⟩

/-- The record of a claimant whose offer is taken, as its reply sees it: an
answer given earlier stays in the buffer, and so does what is owed. -/
structure ReplyHarvest (h : RdvHost) (m : RdvMsg) (i : Fin rdvHostMax) (r : RdvClaimant) :
    Prop where
  offered : hostOffered h.cid m = true
  cid_eq : r.cid = m.frm
  state_eq : r.state = .harvested ∨ (r.state = .refused ∧ r.pending = true)
  whose :
    (rdvHostFind h m.frm = some i ∧ ((h.c i).haveSeq = true → (h.c i).lastSeq < m.seq) ∧
      r.answer = (h.c i).answer ∧
      (r.state = .harvested → r.pending = (h.c i).pending ∧
        ((h.c i).state ≠ .answered → h.grant = 0 ∨ h.answered < h.grant))) ∨
    (rdvHostFind h m.frm = none ∧ hostVacancy h = some i ∧ r.answer = [] ∧
      (r.state = .harvested → r.pending = false))

/-- What a call does to the table, as far as replies are concerned. -/
inductive ReplyStep (h : RdvHost) (op : HostOp) (c' : Fin rdvHostMax → RdvClaimant) : Prop
  | same (hc : c' = h.c)
      (hlong : ∀ cid payload, op = .answer cid payload →
        ∀ i, rdvHostFind h cid = some i → rdvMaxPayload < payload.length)
  | edit (i : Fin rdvHostMax) (r : RdvClaimant) (hedit : ReplyEdit h (h.c i) op r)
      (hfind : (∀ info, op ≠ .next info) → rdvHostFind h (h.c i).cid = some i)
      (hc : c' = Function.update h.c i r)
  | harvest (m : RdvMsg) (i : Fin rdvHostMax) (r : RdvClaimant) (hop : op = .slot m)
      (hr : ReplyHarvest h m i r)
      (hc : c' = fun j => { Function.update h.c i r j with holds := false })

/-- A call that names nobody on record does nothing. -/
theorem ReplyStep.idle {h : RdvHost} {op : HostOp} {c' : Fin rdvHostMax → RdvClaimant}
    (hc : c' = h.c) (hop : ∀ cid payload, op ≠ .answer cid payload) : ReplyStep h op c' :=
  .same hc fun cid payload h => absurd h (hop cid payload)

theorem answer_reply (h : RdvHost) (cid : Cid) (payload : Bytes) :
    ReplyStep h (.answer cid payload) (rdvHostAnswer h cid payload).c := by
  unfold rdvHostAnswer
  cases hfind : rdvHostFind h cid with
  | none =>
      refine .same rfl ?_
      intro cid' payload' hop i hi
      obtain ⟨rfl, rfl⟩ : cid = cid' ∧ payload = payload' := by simpa using hop
      rw [hfind] at hi
      cases hi
  | some i =>
      obtain ⟨-, rfl⟩ := rdvHostFind_some hfind
      dsimp only
      by_cases hlen : payload.length > rdvMaxPayload
      · rw [if_pos hlen]
        refine .same rfl ?_
        intro cid' payload' hop j hj
        obtain ⟨rfl, rfl⟩ : (h.c i).cid = cid' ∧ payload = payload' := by simpa using hop
        exact hlen
      · rw [if_neg hlen]
        refine .edit i _ (.answer payload (Nat.not_lt.mp hlen)) (fun _ => hfind) ?_
        split_ifs <;> rfl

theorem refuse_reply (h : RdvHost) (cid : Cid) (reason : UInt8) :
    ReplyStep h (.refuse cid reason) (rdvHostRefuse h cid reason).c := by
  unfold rdvHostRefuse
  cases hfind : rdvHostFind h cid with
  | none => exact .idle rfl (by simp)
  | some i =>
      obtain ⟨-, rfl⟩ := rdvHostFind_some hfind
      refine .edit i _ (.refuse reason) (fun _ => hfind) ?_
      dsimp only
      split_ifs <;> simp [RdvHost.put]

theorem keep_reply (h : RdvHost) (cid : Cid) :
    ReplyStep h (.keep cid) (rdvHostKeep h cid).c := by
  unfold rdvHostKeep
  cases hfind : rdvHostFind h cid with
  | none => exact .idle rfl (by simp)
  | some i =>
      obtain ⟨-, rfl⟩ := rdvHostFind_some hfind
      dsimp only
      by_cases hgone : (h.c i).state = .gone
      · rw [if_pos hgone]
        exact .idle rfl (by simp)
      · rw [if_neg hgone]
        by_cases hnone : (h.c i).state ≠ .refused ∧ (h.c i).answer = []
        · rw [if_pos hnone]
          exact .idle rfl (by simp)
        · rw [if_neg hnone]
          have hsome : (h.c i).state = .refused ∨ (h.c i).answer ≠ [] := by
            by_contra hnot
            rw [not_or, not_not] at hnot
            exact hnone hnot
          refine .edit i _ (.keep hgone hsome) (fun _ => hfind) ?_
          split_ifs <;> rfl

theorem forget_reply (h : RdvHost) (cid : Cid) :
    ReplyStep h (.forget cid) (rdvHostForget h cid).c := by
  unfold rdvHostForget
  cases hfind : rdvHostFind h cid with
  | none => exact .idle rfl (by simp)
  | some i =>
      obtain ⟨-, rfl⟩ := rdvHostFind_some hfind
      refine .edit i _ .forget (fun _ => hfind) ?_
      dsimp only
      split_ifs <;> simp [RdvHost.put]

theorem release_reply (h : RdvHost) (cid : Cid) :
    ReplyStep h (.release cid) (rdvHostRelease h cid).c := by
  unfold rdvHostRelease
  cases hfind : rdvHostFind h cid with
  | none => exact .idle rfl (by simp)
  | some i =>
      obtain ⟨-, rfl⟩ := rdvHostFind_some hfind
      refine .edit i _ .release (fun _ => hfind) ?_
      dsimp only
      split_ifs <;> rfl

theorem unsent_reply (h : RdvHost) (cid : Cid) :
    ReplyStep h (.unsent cid) (rdvHostUnsent h cid).c := by
  unfold rdvHostUnsent
  cases hfind : rdvHostFind h cid with
  | none => exact .idle rfl (by simp)
  | some i =>
      obtain ⟨-, rfl⟩ := rdvHostFind_some hfind
      dsimp only
      by_cases hgone : (h.c i).state = .gone
      · rw [if_pos hgone]
        exact .idle rfl (by simp)
      · rw [if_neg hgone]
        exact .edit i _ (.unsent hgone) (fun _ => hfind) rfl

/-- What `rdv_host_next` writes to a claimant is the message it built. -/
theorem hostEmits_of_encode {h : RdvHost} {info b : Bytes} {m : RdvMsg} {s : RdvSeal}
    (hout : (rdvHostNext h info).2 = some { msg := b, sealKey := s })
    (henc : rdvEncode m rdvMaxMsg = some b) : hostEmits h (.next info) = some m := by
  simp only [hostEmits, hout, rdvDecode_rdvEncode henc]
  rfl

theorem next_reply (h : RdvHost) (info : Bytes) :
    ReplyStep h (.next info) (rdvHostNext h info).1.c := by
  by_cases hinfo : h.infoPending = true
  · refine .idle ?_ (by simp)
    unfold rdvHostNext
    rw [if_pos hinfo]
    split_ifs
    · rfl
    · dsimp only
      split <;> rfl
  · cases hturn : hostTurn h with
    | none =>
        refine .idle ?_ (by simp)
        unfold rdvHostNext
        rw [if_neg hinfo, hturn]
    | some i =>
        have hpending : (h.c i).pending = true := by
          have hfirst := (Fin.find?_eq_some_iff.mp hturn).1
          rw [Bool.and_eq_true] at hfirst
          exact hfirst.1
        cases henc : rdvEncode (hostTurnMsg { h with seq := h.seq + 1 } (h.c i)) rdvMaxMsg with
        | none =>
            refine .idle ?_ (by simp)
            unfold rdvHostNext
            rw [if_neg hinfo, hturn]
            dsimp only
            rw [henc]
        | some b =>
            have hnext : rdvHostNext h info =
                (({ h with seq := h.seq + 1 } : RdvHost).put i
                    { h.c i with pending := false, holds := true },
                  some { msg := b, sealKey := .classKey }) := by
              unfold rdvHostNext
              rw [if_neg hinfo, hturn]
              dsimp only
              rw [henc]
            have hemits := hostEmits_of_encode (congrArg Prod.snd hnext) henc
            refine .edit i _ (.next info hpending hemits) (fun hop => absurd rfl (hop info)) ?_
            rw [hnext]
            rfl

/-- A reply that is written goes to a claimant it is owed to, as the record
stands. -/
theorem hostEmits_reply {h : RdvHost} {op : HostOp} {m : RdvMsg}
    (hemits : hostEmits h op = some m) (hreply : m.isReply = true) :
    ∃ i, (h.c i).pending = true ∧
      m = hostTurnMsg { h with seq := h.seq + 1 } (h.c i) := by
  cases op with
  | next info =>
      simp only [hostEmits] at hemits
      unfold rdvHostNext at hemits
      by_cases hinfo : h.infoPending = true
      · -- the host's own statement is no reply
        exfalso
        rw [if_pos hinfo] at hemits
        by_cases hlong : info.length > rdvHostPayload
        · rw [if_pos hlong] at hemits
          cases hemits
        · rw [if_neg hlong] at hemits
          dsimp only at hemits
          cases henc : rdvEncode (hostInfoMsg { h with seq := h.seq + 1 } info) rdvMaxMsg with
          | none =>
              rw [henc] at hemits
              cases hemits
          | some b =>
              rw [henc] at hemits
              dsimp only at hemits
              rw [rdvDecode_rdvEncode henc] at hemits
              obtain rfl := Option.some.inj hemits
              unfold RdvMsg.isReply hostInfoMsg at hreply
              cases hgone : h.gone <;> simp [hgone] at hreply
      · rw [if_neg hinfo] at hemits
        cases hturn : hostTurn h with
        | none =>
            rw [hturn] at hemits
            cases hemits
        | some i =>
            have hfirst := (Fin.find?_eq_some_iff.mp hturn).1
            rw [Bool.and_eq_true] at hfirst
            rw [hturn] at hemits
            dsimp only at hemits
            cases henc : rdvEncode (hostTurnMsg { h with seq := h.seq + 1 } (h.c i)) rdvMaxMsg with
            | none =>
                rw [henc] at hemits
                cases hemits
            | some b =>
                rw [henc] at hemits
                dsimp only at hemits
                rw [rdvDecode_rdvEncode henc] at hemits
                exact ⟨i, hfirst.1, (Option.some.inj hemits).symm⟩
  | _ => cases hemits

/-! ## The offer taken -/

/-- A first offer, or one newer than the last, as the reply sees it. -/
theorem hostTakeOffer_record {h : RdvHost} {i : Fin rdvHostMax} {m : RdvMsg}
    (hused : (h.c i).used = true) (hnew : (h.c i).haveSeq = true → (h.c i).lastSeq < m.seq) :
    ∃ r, (hostTakeOffer h i m).1.c =
        (fun j => { Function.update h.c i r j with holds := false }) ∧
      r.cid = (h.c i).cid ∧ r.answer = (h.c i).answer ∧
      (r.state = .harvested ∨ (r.state = .refused ∧ r.pending = true)) ∧
      (r.state = .harvested → r.pending = (h.c i).pending ∧
        ((h.c i).state ≠ .answered → h.grant = 0 ∨ h.answered < h.grant)) := by
  have hstale : ¬((h.c i).haveSeq = true ∧ m.seq ≤ (h.c i).lastSeq) := by
    rintro ⟨hhave, hle⟩
    exact absurd (hnew hhave) (UInt32.not_lt.mpr hle)
  have hstate : (claimantHarvested (h.c i) m.seq).state = .harvested :=
    if_neg (by simpa [RdvClaimant.used] using hused)
  have hgrant : (hostHarvest h i m.seq).grant = h.grant :=
    congrArg Prod.fst (hostHarvest_fixed h i m.seq)
  unfold hostTakeOffer
  rw [if_neg hstale]
  dsimp only
  by_cases hfull : (hostHarvest h i m.seq).grant ≠ 0 ∧
      (hostHarvest h i m.seq).answered ≥ (hostHarvest h i m.seq).grant
  · -- past the grant the answer given earlier stays in the buffer
    rw [if_pos hfull]
    refine ⟨{ claimantHarvested (h.c i) m.seq with
      state := .refused
      refusal := 1
      pending := true
      answerRe := m.seq }, ?_, rfl, rfl, .inr ⟨rfl, rfl⟩, fun hs => absurd hs (by simp)⟩
    rw [RdvHost.put, hostHarvest_c]
    funext j
    by_cases hj : j = i
    · subst hj
      simp [claimantHarvested]
    · simp [hj]
  · rw [if_neg hfull]
    refine ⟨claimantHarvested (h.c i) m.seq, hostHarvest_c h i m.seq, rfl, rfl, .inl hstate,
      fun _ => ⟨rfl, ?_⟩⟩
    intro hnot
    have hanswered : (hostHarvest h i m.seq).answered = h.answered := by
      rw [hostHarvest_answered, answeredAfter, if_neg hnot, if_neg (by simp)]
    rw [hgrant, hanswered] at hfull
    omega

theorem slot_reply (h : RdvHost) (m : RdvMsg) :
    ReplyStep h (.slot m) (rdvHostSlot h m).1.c := by
  unfold rdvHostSlot
  by_cases hoffer : hostOffered h.cid m = true
  · rw [if_neg (by simp [hoffer])]
    unfold hostAdmit
    cases hfind : rdvHostFind h m.frm with
    | some i =>
        obtain ⟨hused, hcid⟩ := rdvHostFind_some hfind
        dsimp only
        by_cases hstale : (h.c i).haveSeq = true ∧ m.seq ≤ (h.c i).lastSeq
        · rw [hostTakeOffer, if_pos hstale]
          exact .idle rfl (by simp)
        · have hnew : (h.c i).haveSeq = true → (h.c i).lastSeq < m.seq := by
            intro hhave
            exact UInt32.not_le.mp fun hle => hstale ⟨hhave, hle⟩
          obtain ⟨r, hc, hrcid, hranswer, hrstate, hrpending⟩ :=
            hostTakeOffer_record hused hnew
          exact .harvest m i r rfl ⟨hoffer, hrcid.trans hcid, hrstate,
            .inl ⟨hfind, hnew, hranswer, hrpending⟩⟩ hc
    | none =>
        cases hvacant : hostVacancy h with
        | none => exact .idle rfl (by simp)
        | some i =>
            dsimp only
            have hrec : (h.put i (claimantNew m.frm)).c i = claimantNew m.frm :=
              Function.update_self ..
            obtain ⟨r, hc, hrcid, hranswer, hrstate, hrpending⟩ :=
              hostTakeOffer_record (h := h.put i (claimantNew m.frm)) (i := i) (m := m)
                (by rw [hrec]; rfl) (by rw [hrec]; simp [claimantNew, claimantZero])
            rw [hrec] at hrcid hranswer hrpending
            refine .harvest m i r rfl ⟨hoffer, hrcid, hrstate,
              .inr ⟨hfind, hvacant, hranswer, fun hs => (hrpending hs).1⟩⟩ ?_
            rw [hc, RdvHost.put, Function.update_idem]
  · rw [if_pos (by simpa using hoffer)]
    exact .idle rfl (by simp)

/-- Every call does one of these to the replies owed. -/
theorem hostStep_reply (h : RdvHost) (op : HostOp) : ReplyStep h op (hostStep h op).c := by
  cases op with
  | slot m => exact slot_reply h m
  | answer cid payload => exact answer_reply h cid payload
  | refuse cid reason => exact refuse_reply h cid reason
  | keep cid => exact keep_reply h cid
  | forget cid => exact forget_reply h cid
  | release cid => exact release_reply h cid
  | unsent cid => exact unsent_reply h cid
  | turnKept => exact .idle rfl (by simp)
  | setGen gen =>
      refine .idle ?_ (by simp)
      simp only [hostStep, rdvHostSetGen]
      split_ifs <;> rfl
  | entomb => exact .idle rfl (by simp)
  | next info => exact next_reply h info

/-! ## What an answer carries -/

/-- The claimant and the payload of a call of `rdv_host_answer`. -/
def answerGiven : HostOp → Option (Cid × Bytes)
  | .answer cid payload => some (cid, payload)
  | _ => none

/-- The payload last given for a claimant. -/
def lastGiven (cid : Cid) (given : List (Cid × Bytes)) : Option Bytes :=
  given.reverse.lookup cid

@[simp] theorem lastGiven_append_self (cid : Cid) (payload : Bytes) (given : List (Cid × Bytes)) :
    lastGiven cid (given ++ [(cid, payload)]) = some payload := by
  simp [lastGiven]

theorem lastGiven_append_of_ne {cid cid' : Cid} (h : cid' ≠ cid) (payload : Bytes)
    (given : List (Cid × Bytes)) :
    lastGiven cid' (given ++ [(cid, payload)]) = lastGiven cid' given := by
  have hne : (cid' == cid) = false := by simpa using h
  simp [lastGiven, List.lookup, hne]

/-- The calls after which no claimant is owed an empty answer or a superseded
one.  `h` is the host before the call. -/
def AnswersSafely (h : RdvHost) : HostOp → Prop
  -- a new ask, within the grant, while the claimant's refusal is still owed
  | .slot m => ∀ i, rdvHostFind h m.frm = some i → hostOffered h.cid m = true →
      ((h.c i).haveSeq = true → (h.c i).lastSeq < m.seq) → h.grant = 0 ∨ h.answered < h.grant →
      (h.c i).pending = true → (h.c i).answer ≠ []
  -- a payload that does not fit leaves the earlier one standing
  | .answer cid payload => ∀ i, rdvHostFind h cid = some i → (h.c i).answer ≠ [] →
      payload.length ≤ rdvMaxPayload
  -- a refusal is kept as if it were an answer
  | .keep cid => ∀ i, rdvHostFind h cid = some i → (h.c i).state = .refused →
      (h.c i).pending = true ∨ (h.c i).holds = false → (h.c i).answer ≠ []
  -- an answer never given is given back
  | .unsent cid => ∀ i, rdvHostFind h cid = some i →
      (h.c i).state = .harvested ∨ (h.c i).state = .answered → (h.c i).answer ≠ []
  | _ => True

instance (h : RdvHost) (op : HostOp) : Decidable (AnswersSafely h op) :=
  match op with
  | .slot _ => by dsimp only [AnswersSafely]; infer_instance
  | .answer _ _ => by dsimp only [AnswersSafely]; infer_instance
  | .keep _ => by dsimp only [AnswersSafely]; infer_instance
  | .unsent _ => by dsimp only [AnswersSafely]; infer_instance
  | .refuse _ _ | .forget _ | .release _ | .turnKept | .setGen _ | .entomb | .next _ =>
      isTrue trivial

/-- A record whose buffer holds the payload last given, and nothing only where
no answer is owed. -/
structure OwesGiven (given : List (Cid × Bytes)) (r : RdvClaimant) : Prop where
  blank : r.state = .free → r.answer = []
  last : r.answer = [] ∨ lastGiven r.cid given = some r.answer
  owed : r.pending = true → r.state ≠ .refused → r.answer ≠ []

/-- Every record owes what was given. -/
structure OwesInv (h : RdvHost) (given : List (Cid × Bytes)) : Prop where
  inv : HostInv h
  owes : ∀ i, OwesGiven given (h.c i)

theorem OwesGiven.of_holds {given : List (Cid × Bytes)} {r : RdvClaimant}
    (h : OwesGiven given r) (b : Bool) : OwesGiven given { r with holds := b } :=
  ⟨h.blank, h.last, h.owed⟩

/-- What a call that gives no payload makes of the record it names. -/
theorem OwesGiven.edit {h : RdvHost} {given : List (Cid × Bytes)} {i : Fin rdvHostMax}
    {op : HostOp} {r : RdvClaimant} (hold : OwesGiven given (h.c i))
    (hfind : (∀ info, op ≠ .next info) → rdvHostFind h (h.c i).cid = some i)
    (hedit : ReplyEdit h (h.c i) op r) (hnone : answerGiven op = none)
    (hsafe : AnswersSafely h op) : OwesGiven given r := by
  generalize hrec : h.c i = old at hold hfind hedit
  cases hedit with
  | answer payload hlen => cases hnone
  | refuse reason => exact ⟨fun _ => rfl, .inl rfl, fun _ hs => absurd rfl hs⟩
  | keep hgone hsome =>
      have hkeep : old.state = .refused → old.pending = true ∨ old.holds = false →
          old.answer ≠ [] := by
        have := hsafe i (hfind (by simp))
        rwa [hrec] at this
      refine ⟨?_, ?_, ?_⟩
      · intro hfree
        unfold claimantKept at hfree
        dsimp only at hfree
        split_ifs at hfree
      · have hlast := hold.last
        unfold claimantKept
        dsimp only
        split_ifs
        · exact hlast
        · exact hlast
      · intro hpending _
        have hcause : old.pending = true ∨ old.holds = false := by
          unfold claimantKept at hpending
          dsimp only at hpending
          split_ifs at hpending with hp
          · simpa using hp
          · exact absurd hpending hp
        have hanswer : (claimantKept old).answer = old.answer := by
          unfold claimantKept
          dsimp only
          split_ifs <;> rfl
        rw [hanswer]
        rcases hsome with hrefused | hne
        · exact hkeep hrefused hcause
        · exact hne
  | forget => exact ⟨fun _ => rfl, .inl rfl, fun hp => absurd hp (by simp)⟩
  | release => exact hold.of_holds false
  | unsent hgone =>
      have hback : old.state = .harvested ∨ old.state = .answered → old.answer ≠ [] := by
        have := hsafe i (hfind (by simp))
        rwa [hrec] at this
      refine ⟨hold.blank, hold.last, ?_⟩
      intro _ hrefused
      apply hback
      have hused := (rdvHostFind_some (hfind (by simp))).1
      rw [hrec] at hused
      cases hstate : old.state with
      | free => simp [RdvClaimant.used, hstate] at hused
      | harvested => exact .inl rfl
      | answered => exact .inr rfl
      | refused => exact absurd hstate hrefused
      | gone => exact absurd hstate hgone
  | next info hpending hemits =>
      exact ⟨hold.blank, hold.last, fun hp => absurd hp (by simp)⟩

/-- A call that gives no payload keeps every record as it should be. -/
theorem OwesInv.step_none {h : RdvHost} {given : List (Cid × Bytes)} {op : HostOp}
    (hI : OwesInv h given) (hnone : answerGiven op = none) (hsafe : AnswersSafely h op) :
    OwesInv (hostStep h op) given := by
  refine ⟨hI.inv.step op, ?_⟩
  cases hostStep_reply h op with
  | same hc hlong =>
      rw [hc]
      exact hI.owes
  | edit i r hedit hfind hc =>
      intro j
      rw [hc]
      by_cases hj : j = i
      · subst hj
        rw [Function.update_self]
        exact (hI.owes j).edit hfind hedit hnone hsafe
      · rw [Function.update_of_ne hj]
        exact hI.owes j
  | harvest m i r hop hr hc =>
      intro j
      rw [hc]
      refine OwesGiven.of_holds ?_ false
      by_cases hj : j = i
      · subst hj
        rw [Function.update_self]
        obtain ⟨hoffer, hcid, hstate, hwhose⟩ := hr
        subst hop
        have hfree : r.state ≠ .free := by
          rcases hstate with hs | ⟨hs, -⟩ <;> simp [hs]
        rcases hwhose with ⟨hfind, hnew, hanswer, hharvested⟩ | ⟨-, -, hanswer, hharvested⟩
        · have hown := (rdvHostFind_some hfind).2
          refine ⟨fun hs => absurd hs hfree, ?_, ?_⟩
          · rw [hanswer, hcid, ← hown]
            exact (hI.owes j).last
          · intro hpending hrefused
            rcases hstate with hs | ⟨hs, -⟩
            · obtain ⟨hsame, hroom⟩ := hharvested hs
              rw [hsame] at hpending
              rw [hanswer]
              -- an answered record already holds what it owes
              by_cases hans : (h.c j).state = .answered
              · exact (hI.owes j).owed hpending (by simp [hans])
              · exact hsafe j hfind hoffer hnew (hroom hans) hpending
            · exact absurd hs hrefused
        · refine ⟨fun _ => hanswer, .inl hanswer, ?_⟩
          intro hpending hrefused
          rcases hstate with hs | ⟨hs, -⟩
          · rw [hharvested hs] at hpending
            cases hpending
          · exact absurd hs hrefused
      · rw [Function.update_of_ne hj]
        exact hI.owes j

/-- A claimant on record is found at its record. -/
theorem rdvHostFind_of_used {h : RdvHost} (hinv : HostInv h) {i : Fin rdvHostMax}
    (hused : (h.c i).used = true) : rdvHostFind h (h.c i).cid = some i := by
  cases hfind : rdvHostFind h (h.c i).cid with
  | none => exact absurd rfl (rdvHostFind_none hfind i hused)
  | some k =>
      obtain ⟨husedk, hcidk⟩ := rdvHostFind_some hfind
      rw [hinv.cid_unique k i husedk hused hcidk]

/-- A payload given becomes the one its claimant's record holds. -/
theorem OwesInv.step_answer {h : RdvHost} {given : List (Cid × Bytes)} {cid : Cid}
    {payload : Bytes} (hI : OwesInv h given) (hne : payload ≠ [])
    (hsafe : AnswersSafely h (.answer cid payload)) :
    OwesInv (hostStep h (.answer cid payload)) (given ++ [(cid, payload)]) := by
  refine ⟨hI.inv.step _, ?_⟩
  -- what is given to one claimant says nothing about another's record
  have hother : ∀ j, (h.c j).cid ≠ cid → OwesGiven (given ++ [(cid, payload)]) (h.c j) := by
    intro j hj
    refine ⟨(hI.owes j).blank, ?_, (hI.owes j).owed⟩
    rw [lastGiven_append_of_ne hj]
    exact (hI.owes j).last
  cases hostStep_reply h (.answer cid payload) with
  | same hc hlong =>
      intro j
      rw [hc]
      by_cases hj : (h.c j).cid = cid
      · -- an oversize payload is ignored, so the buffer must be empty
        have hempty : (h.c j).answer = [] := by
          by_cases hfree : (h.c j).state = .free
          · exact (hI.owes j).blank hfree
          · by_contra hanswer
            have hfind := rdvHostFind_of_used hI.inv (used_of_state_ne hfree)
            rw [hj] at hfind
            have hfit := hsafe j hfind hanswer
            have hover := hlong cid payload rfl j hfind
            omega
        exact ⟨(hI.owes j).blank, .inl hempty, (hI.owes j).owed⟩
      · exact hother j hj
  | edit i r hedit hfind hc =>
      intro j
      rw [hc]
      obtain ⟨hcid, rfl⟩ := hedit.answer_eq
      by_cases hj : j = i
      · subst hj
        rw [Function.update_self]
        refine ⟨fun hs => absurd hs (by simp), .inr ?_, fun _ _ => hne⟩
        rw [← hcid]
        exact lastGiven_append_self ..
      · rw [Function.update_of_ne hj]
        by_cases hfree : (h.c j).state = .free
        · exact ⟨fun _ => (hI.owes j).blank hfree, .inl ((hI.owes j).blank hfree),
            (hI.owes j).owed⟩
        · -- no two records are the same claimant's
          refine hother j fun hsame => hj ?_
          have hused := (rdvHostFind_some (hfind (by simp))).1
          exact hI.inv.cid_unique j i (used_of_state_ne hfree) hused (hsame.trans hcid.symm)
  | harvest m i r hop hr hc => cases hop

/-- The payloads given over a run, oldest first. -/
def answersGiven (ops : List HostOp) : List (Cid × Bytes) := ops.filterMap answerGiven

/-- In every run that only gives payloads that are not empty and whose calls
are all safe, the records owe what was given. -/
theorem hostRun_owesInv (cid : Cid) (gen : UInt32) (grant : Int) (ops : List HostOp)
    (hne : ∀ c payload, HostOp.answer c payload ∈ ops → payload ≠ [])
    (hsafe : EveryStep hostStep AnswersSafely (rdvHostInit cid gen grant) ops) :
    OwesInv (run hostStep (rdvHostInit cid gen grant) ops) (answersGiven ops) := by
  have hinit : OwesInv (rdvHostInit cid gen grant) [] := by
    refine ⟨hostInv_init cid gen grant, ?_⟩
    intro i
    exact ⟨fun _ => rfl, .inl rfl, fun hp => absurd hp Bool.false_ne_true⟩
  have hgives : EveryStep hostStep (fun _ op => ∀ c payload, op = .answer c payload → payload ≠ [])
      (rdvHostInit cid gen grant) ops := by
    apply everyStep_of_mem
    rintro op hop _ c payload rfl
    exact hne c payload hop
  have hrun : OwesInv (run hostStep (rdvHostInit cid gen grant) ops)
      ([] ++ observe hostStep (fun _ op => answerGiven op) (rdvHostInit cid gen grant) ops) := by
    refine observe_invariant (I := OwesInv) ?_ hinit (hsafe.and hgives)
    rintro h op given hI ⟨hstep, hnonempty⟩
    cases hgiven : answerGiven op with
    | none =>
        rw [Option.toList_none, List.append_nil]
        exact hI.step_none hgiven hstep
    | some p =>
        cases op with
        | answer c payload =>
            obtain rfl := Option.some.inj hgiven
            exact hI.step_answer (hnonempty c payload rfl) hstep
        | _ => cases hgiven
  rwa [List.nil_append, observe_event] at hrun

/-- In every such run, an `ANSWER` that `rdv_host_next` writes carries the
payload last given for the claimant it is addressed to, which is not empty. -/
theorem emittedAnswer_lastGiven (cid : Cid) (gen : UInt32) (grant : Int) (ops : List HostOp)
    (hne : ∀ c payload, HostOp.answer c payload ∈ ops → payload ≠ [])
    (hsafe : EveryStep hostStep AnswersSafely (rdvHostInit cid gen grant) ops)
    (info : Bytes) (m : RdvMsg)
    (hemits : hostEmits (run hostStep (rdvHostInit cid gen grant) ops) (.next info) = some m)
    (hkind : m.kind = .answer) :
    lastGiven m.dst (answersGiven ops) = some m.payload ∧ m.payload ≠ [] := by
  have hI := hostRun_owesInv cid gen grant ops hne hsafe
  generalize run hostStep (rdvHostInit cid gen grant) ops = h at hemits hI
  obtain ⟨i, hpending, rfl⟩ := hostEmits_reply hemits (by simp [RdvMsg.isReply, hkind])
  have hstate : (h.c i).state ≠ .refused := by
    intro hrefused
    simp [hostTurnMsg, hrefused] at hkind
  have hpayload : (hostTurnMsg { h with seq := h.seq + 1 } (h.c i)).payload = (h.c i).answer :=
    if_neg hstate
  have hanswer := (hI.owes i).owed hpending hstate
  rw [hpayload]
  refine ⟨?_, hanswer⟩
  rcases (hI.owes i).last with hempty | hlast
  · exact absurd hempty hanswer
  · exact hlast

/-- An offer that a claimant makes to the host `1, 1, ..`. -/
def offerFrom (frm : Cid) (seq : UInt32) : RdvMsg :=
  { kind := .offer, gen := 0, frm := frm, dst := Vector.replicate 8 1, seq := seq, re := 0,
    payload := [7] }

/-- Two claimants, one refused and one answered, with an ask made again. -/
def answeredTwice : List HostOp :=
  let a : Cid := Vector.replicate 8 2
  let b : Cid := Vector.replicate 8 3
  [.next [], .slot (offerFrom a 1), .answer a [9], .next [], .slot (offerFrom b 1), .refuse b 2,
   .slot (offerFrom a 2), .keep a, .answer a [8, 8]]

set_option maxRecDepth 4000

theorem emittedAnswer_lastGiven_answeredTwice :
    ∃ m, hostEmits (run hostStep (rdvHostInit (Vector.replicate 8 1) 0 0) answeredTwice)
        (.next []) = some m ∧
      m.kind = .answer ∧ m.payload = [8, 8] ∧
      lastGiven m.dst (answersGiven answeredTwice) = some m.payload ∧ m.payload ≠ [] := by
  let m : RdvMsg :=
    { kind := .answer, gen := 0, frm := Vector.replicate 8 1, dst := Vector.replicate 8 2,
      seq := 3, re := 2, payload := [8, 8] }
  have hemits : hostEmits (run hostStep (rdvHostInit (Vector.replicate 8 1) 0 0) answeredTwice)
      (.next []) = some m := by
    decide
  refine ⟨m, hemits, rfl, rfl, emittedAnswer_lastGiven (Vector.replicate 8 1) 0 0 answeredTwice
    ?_ ?_ [] m hemits rfl⟩
  · intro c payload hmem
    simp only [answeredTwice, List.mem_cons, reduceCtorEq, HostOp.answer.injEq, false_or,
      List.not_mem_nil, or_false] at hmem
    rcases hmem with ⟨-, rfl⟩ | ⟨-, rfl⟩
    · simp
    · simp
  · decide

/-- A claimant refused asks again before the refusal is written: what is then
written to it is an `ANSWER` with nothing in it, though none was ever given. -/
def refusedAskAgain : List HostOp :=
  let a : Cid := Vector.replicate 8 2
  [.next [], .slot (offerFrom a 1), .refuse a 1, .slot (offerFrom a 2)]

theorem emittedAnswer_refusedAskAgain :
    ¬∀ (info : Bytes) (m : RdvMsg),
      hostEmits (run hostStep (rdvHostInit (Vector.replicate 8 1) 0 0) refusedAskAgain)
        (.next info) = some m →
      m.kind = .answer →
      lastGiven m.dst (answersGiven refusedAskAgain) = some m.payload := by
  intro h
  have hlast := h []
    { kind := .answer, gen := 0, frm := Vector.replicate 8 1, dst := Vector.replicate 8 2,
      seq := 2, re := 1, payload := [] } (by decide) rfl
  exact absurd hlast (by decide)

/-! ## A reply owed -/

/-- A call keeps every reply owed, but one that it writes and one to a claimant
that it forgets. -/
def OwedKept (h : RdvHost) (op : HostOp) : Prop :=
  ∀ i, (h.c i).used = true → (h.c i).pending = true → op ≠ .forget (h.c i).cid →
    (∀ m, hostEmits h op = some m → m.isReply = true → m.dst ≠ (h.c i).cid) →
    ((hostStep h op).c i).used = true ∧ ((hostStep h op).c i).cid = (h.c i).cid ∧
      ((hostStep h op).c i).pending = true

/-- An offer of a claimant without a record, when no record is free or gone and
the first one refused still owes its refusal. -/
def EvictsOwed (h : RdvHost) (op : HostOp) : Prop :=
  ∃ m i, op = .slot m ∧ hostOffered h.cid m = true ∧ rdvHostFind h m.frm = none ∧
    hostEvict h .free = none ∧ hostEvict h .gone = none ∧ hostEvict h .refused = some i ∧
    (h.c i).pending = true

/-- Nothing is owed in a record that is free or whose claimant is gone. -/
def QuietRecord (r : RdvClaimant) : Prop :=
  r.state = .free ∨ r.state = .gone → r.pending = false

theorem QuietRecord.edit {h : RdvHost} {old r : RdvClaimant} {op : HostOp}
    (hold : QuietRecord old) (hused : op ≠ .unsent old.cid ∨ old.used = true)
    (hedit : ReplyEdit h old op r) : QuietRecord r := by
  cases hedit with
  | answer payload hlen => exact fun hs => absurd hs (by simp)
  | refuse reason => exact fun hs => absurd hs (by simp)
  | keep hgone hsome =>
      intro hs
      unfold claimantKept at hs
      dsimp only at hs
      split_ifs at hs <;> simp at hs
  | forget => exact fun _ => rfl
  | release => exact hold
  | unsent hgone =>
      rintro (hfree | hs)
      · rcases hused with hne | hused
        · exact absurd rfl hne
        · exact absurd hused (by simp [RdvClaimant.used, show old.state = .free from hfree])
      · exact absurd hs hgone
  | next info hpending hemits => exact fun _ => rfl

theorem hostStep_quiet {h : RdvHost} (hquiet : ∀ i, QuietRecord (h.c i)) (op : HostOp)
    (i : Fin rdvHostMax) : QuietRecord ((hostStep h op).c i) := by
  cases hostStep_reply h op with
  | same hc hlong =>
      rw [hc]
      exact hquiet i
  | edit k r hedit hfind hc =>
      rw [hc]
      by_cases hi : i = k
      · subst hi
        rw [Function.update_self]
        refine (hquiet i).edit ?_ hedit
        by_cases hop : op = .unsent (h.c i).cid
        · exact .inr (rdvHostFind_some (hfind (by simp [hop]))).1
        · exact .inl hop
      · rw [Function.update_of_ne hi]
        exact hquiet i
  | harvest m k r hop hr hc =>
      rw [hc]
      dsimp only
      by_cases hi : i = k
      · subst hi
        have hstate : r.state ≠ .free ∧ r.state ≠ .gone := by
          rcases hr.state_eq with hs | ⟨hs, -⟩ <;> simp [hs]
        rw [Function.update_self]
        rintro (hs | hs)
        · exact absurd hs hstate.1
        · exact absurd hs hstate.2
      · rw [Function.update_of_ne hi]
        exact hquiet i

/-- What a call that edits a record makes of a reply owed in it. -/
theorem ReplyEdit.keeps_pending {h : RdvHost} {old r : RdvClaimant} {op : HostOp}
    (hedit : ReplyEdit h old op r) (hused : old.used = true) (hpending : old.pending = true)
    (hforget : op ≠ .forget old.cid)
    (hwrites : ∀ m, hostEmits h op = some m → m.isReply = true → m.dst ≠ old.cid) :
    r.used = true ∧ r.cid = old.cid ∧ r.pending = true := by
  cases hedit with
  | answer payload hlen => exact ⟨rfl, rfl, rfl⟩
  | refuse reason => exact ⟨rfl, rfl, rfl⟩
  | keep hgone hsome =>
      obtain ⟨hkept, -, hstate⟩ := claimantKept_edit hused
      refine ⟨by rw [hkept.used_eq, hused], hkept.cid_eq, ?_⟩
      unfold claimantKept
      dsimp only
      split_ifs <;> simp [hpending]
  | forget => exact absurd rfl hforget
  | release => exact ⟨hused, rfl, hpending⟩
  | unsent hgone => exact ⟨hused, rfl, rfl⟩
  | next info _ hemits =>
      refine absurd rfl (hwrites _ hemits ?_)
      unfold RdvMsg.isReply hostTurnMsg
      by_cases hrefused : old.state = .refused <;> simp [hrefused]

/-- A record given away while a reply is owed in it was refused, and no record
was free or gone. -/
theorem hostVacancy_owed {h : RdvHost} (hquiet : ∀ i, QuietRecord (h.c i)) {i : Fin rdvHostMax}
    (hi : hostVacancy h = some i) (hpending : (h.c i).pending = true) :
    hostEvict h .free = none ∧ hostEvict h .gone = none ∧ hostEvict h .refused = some i ∧
      (h.c i).pending = true := by
  have hloud : ¬((h.c i).state = .free ∨ (h.c i).state = .gone) := by
    intro hs
    rw [hquiet i hs] at hpending
    cases hpending
  unfold hostVacancy at hi
  rcases Option.or_eq_some_iff.mp hi with hfree | ⟨hfree, hi⟩
  · exact absurd (.inl (hostEvict_some hfree)) hloud
  · rcases Option.or_eq_some_iff.mp hi with hgone | ⟨hgone, hrefused⟩
    · exact absurd (.inr (hostEvict_some hgone)) hloud
    · exact ⟨hfree, hgone, hrefused, hpending⟩

/-- One call keeps the replies owed exactly when it does not give the record of
a claimant still owed its refusal to a newcomer. -/
theorem owedKept_iff {h : RdvHost} (hquiet : ∀ i, QuietRecord (h.c i)) (op : HostOp) :
    OwedKept h op ↔ ¬EvictsOwed h op := by
  constructor
  · rintro hkept ⟨m, i, rfl, hoffer, hfind, hfree, hgone, hrefused, hpending⟩
    have hvacant : hostVacancy h = some i := by
      rw [hostVacancy, hfree, hgone, hrefused]
      rfl
    have hstate := hostEvict_some hrefused
    have hused : (h.c i).used = true := used_of_state_ne (by simp [hstate])
    obtain ⟨-, hcid, -⟩ := hkept i hused hpending (by simp) (fun _ hm => by cases hm)
    -- the record is the newcomer's now
    have hslot : rdvHostSlot h m = hostTakeOffer (h.put i (claimantNew m.frm)) i m := by
      unfold rdvHostSlot hostAdmit
      rw [if_neg (by simp [hoffer]), hfind, hvacant]
    obtain ⟨r, hr, -⟩ := hostTakeOffer_newcomer hfind hvacant
    rw [← hslot] at hr
    have hnew : ((hostStep h (.slot m)).c i).cid = m.frm := by
      show ((rdvHostSlot h m).1.c i).cid = m.frm
      rw [hr.table]
      dsimp only
      rw [Function.update_self, hr.cid_eq]
    rw [hnew] at hcid
    exact rdvHostFind_none hfind i hused hcid.symm
  · intro hnot i hused hpending hforget hwrites
    cases hostStep_reply h op with
    | same hc hlong =>
        rw [hc]
        exact ⟨hused, rfl, hpending⟩
    | edit k r hedit hfind hc =>
        rw [hc]
        by_cases hi : i = k
        · subst hi
          rw [Function.update_self]
          exact hedit.keeps_pending hused hpending hforget hwrites
        · rw [Function.update_of_ne hi]
          exact ⟨hused, rfl, hpending⟩
    | harvest m k r hop hr hc =>
        rw [hc]
        dsimp only
        by_cases hi : i = k
        · subst hi
          obtain ⟨hoffer, hcid, hstate, hwhose⟩ := hr
          have hrused : r.used = true := by
            rcases hstate with hs | ⟨hs, -⟩ <;> exact used_of_state_ne (by simp [hs])
          rcases hwhose with ⟨hfind, -, -, hharvested⟩ | ⟨hfind, hvacant, -, -⟩
          · have hown := (rdvHostFind_some hfind).2
            have hrpending : r.pending = true := by
              rcases hstate with hs | ⟨-, hp⟩
              · rw [(hharvested hs).1, hpending]
              · exact hp
            rw [Function.update_self]
            exact ⟨hrused, hcid.trans hown.symm, hrpending⟩
          · exact absurd ⟨m, i, hop, hoffer, hfind, hostVacancy_owed hquiet hvacant hpending⟩ hnot
        · rw [Function.update_of_ne hi]
          exact ⟨hused, rfl, hpending⟩

/-- In a run of the host, every reply owed is kept until it is written or its
claimant is forgotten, exactly when no step gives the record of a claimant
still owed its refusal to a newcomer. -/
theorem owedReplies_kept_iff (cid : Cid) (gen : UInt32) (grant : Int) (ops : List HostOp) :
    EveryStep hostStep OwedKept (rdvHostInit cid gen grant) ops ↔
      EveryStep hostStep (fun h op => ¬EvictsOwed h op) (rdvHostInit cid gen grant) ops := by
  have hinit : ∀ i, QuietRecord ((rdvHostInit cid gen grant).c i) := fun i _ => rfl
  have hstep : ∀ h op, (∀ i, QuietRecord (h.c i)) → ∀ i, QuietRecord ((hostStep h op).c i) :=
    fun h op hquiet => hostStep_quiet hquiet op
  constructor
  · intro hkept
    refine everyStep_of_guarded_invariant (I := fun h => ∀ i, QuietRecord (h.c i))
      (fun h op hquiet _ => hstep h op hquiet) ?_ hinit hkept
    intro h op hquiet hk
    exact (owedKept_iff hquiet op).mp hk
  · intro hevicts
    refine everyStep_of_guarded_invariant (I := fun h => ∀ i, QuietRecord (h.c i))
      (fun h op hquiet _ => hstep h op hquiet) ?_ hinit hevicts
    intro h op hquiet he
    exact (owedKept_iff hquiet op).mpr he

/-- The first ask of the claimant `n, n, ..`. -/
def askOf (n : Nat) : HostOp := .slot (offerFrom (Vector.replicate 8 (UInt8.ofNat n)) 1)

/-- As many claimants as a host has records ask it.  It serves one at a time, so
the first is answered and the others are refused. -/
def crowdAsks : List HostOp :=
  [askOf 2, .answer (Vector.replicate 8 2) [9]] ++ (List.range 15).map fun n => askOf (n + 3)

/-- One more asks, and is given the record of the first one refused. -/
theorem owedReplies_crowdAsks :
    ¬EveryStep hostStep OwedKept (rdvHostInit (Vector.replicate 8 1) 0 1)
      (crowdAsks ++ [askOf 18]) := by
  intro h
  have hkept := h.last (Fin.mk 1 (by decide)) (by decide) (by decide)
    (by simp [askOf]) (fun _ hm => by cases hm)
  exact absurd hkept.2.1 (by decide)

end Rdv
end Comrade
