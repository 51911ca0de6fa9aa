import Comrade.Rdv.Host

/-!
# What one call does to the host's table

A host is driven by any list of calls.  What a call can do to the record table
is said once here, and the invariants over whole runs are derived from that.

* `HostMove` is a call other than `rdv_host_slot`: it leaves the table alone or
  edits one record in place.
* `HostHarvest` is a `rdv_host_slot` call that acts.
* `hostStep_cases` shows that every call is one of the two.
-/

namespace Comrade
namespace Rdv

open Lib

/-- One call into the host. -/
inductive HostOp where
  | slot (m : RdvMsg)
  | answer (cid : Cid) (payload : Bytes)
  | refuse (cid : Cid) (reason : UInt8)
  | keep (cid : Cid)
  | forget (cid : Cid)
  | release (cid : Cid)
  | unsent (cid : Cid)
  | turnKept
  | setGen (gen : UInt32)
  | entomb
  | next (info : Bytes)

/-- The host after one call. -/
def hostStep (h : RdvHost) : HostOp → RdvHost
  | .slot m => (rdvHostSlot h m).1
  | .answer cid payload => rdvHostAnswer h cid payload
  | .refuse cid reason => rdvHostRefuse h cid reason
  | .keep cid => rdvHostKeep h cid
  | .forget cid => rdvHostForget h cid
  | .release cid => rdvHostRelease h cid
  | .unsent cid => rdvHostUnsent h cid
  | .turnKept => rdvHostTurnKept h
  | .setGen gen => rdvHostSetGen h gen
  | .entomb => rdvHostEntomb h
  | .next info => (rdvHostNext h info).1

/-! ## What a call can do -/

/-- The counter after a record has moved from one state to another. -/
def answeredAfter (a : Int) (old new : RdvCState) : Int :=
  if old = .answered then
    if new = .answered then a else if 0 < a then a - 1 else a
  else if new = .answered then a + 1 else a

/-- A record edited in place: the claimant and the number of its last offer
stay. -/
structure ClaimantEdit (old new : RdvClaimant) : Prop where
  cid_eq : new.cid = old.cid
  used_eq : new.used = old.used
  lastSeq_eq : new.lastSeq = old.lastSeq
  haveSeq_eq : new.haveSeq = old.haveSeq

/-- What no call changes: the grant and the host's own id. -/
def RdvHost.fixed (h : RdvHost) : Int × Cid := (h.grant, h.cid)

/-- What a call other than `rdv_host_slot` does. -/
inductive HostMove (h h' : RdvHost) : Prop
  | frame (hc : h'.c = h.c) (ha : h'.answered = h.answered) (hf : h'.fixed = h.fixed)
  | edit (i : Fin rdvHostMax) (r : RdvClaimant) (hedit : ClaimantEdit (h.c i) r)
      (hc : h'.c = Function.update h.c i r)
      (ha : h'.answered = answeredAfter h.answered (h.c i).state r.state)
      (hf : h'.fixed = h.fixed)
      (hholds : r.holds = true → (h.c i).holds = true ∨ ∀ j, j ≠ i → (h.c j).holds = false)

theorem answeredAfter_answered (h : RdvHost) (i : Fin rdvHostMax) :
    (if (h.c i).state ≠ .answered then { h with answered := h.answered + 1 } else h).answered =
      answeredAfter h.answered (h.c i).state .answered := by
  unfold answeredAfter
  split_ifs <;> first | rfl | contradiction

theorem answeredAfter_not_answered (h : RdvHost) (i : Fin rdvHostMax) {new : RdvCState}
    (hnew : new ≠ .answered) :
    (if (h.c i).state = .answered then h.answeredLess else h).answered =
      answeredAfter h.answered (h.c i).state new := by
  unfold answeredAfter RdvHost.answeredLess
  rw [if_neg hnew, if_neg hnew]
  split_ifs <;> rfl

@[simp] theorem answeredLess_c (h : RdvHost) : h.answeredLess.c = h.c := by
  unfold RdvHost.answeredLess
  split_ifs <;> rfl

theorem answeredLess_fixed (h : RdvHost) : h.answeredLess.fixed = h.fixed := by
  unfold RdvHost.answeredLess
  split_ifs <;> rfl

theorem used_of_state_ne {r : RdvClaimant} (h : r.state ≠ .free) : r.used = true := by
  simpa [RdvClaimant.used] using h

theorem answer_move (h : RdvHost) (cid : Cid) (payload : Bytes) :
    HostMove h (rdvHostAnswer h cid payload) := by
  unfold rdvHostAnswer
  cases hfind : rdvHostFind h cid with
  | none => exact .frame rfl rfl rfl
  | some i =>
      have hused := (rdvHostFind_some hfind).1
      dsimp only
      by_cases hlen : payload.length > rdvMaxPayload
      · rw [if_pos hlen]
        exact .frame rfl rfl rfl
      · rw [if_neg hlen]
        -- an answer given again must not be counted again
        refine .edit i
          { h.c i with
            state := .answered
            refusal := 0
            pending := true
            answerRe := (h.c i).lastSeq
            answer := payload } ⟨rfl, by rw [hused]; rfl, rfl, rfl⟩ ?_ ?_ ?_ .inl
        · split_ifs <;> rfl
        · exact answeredAfter_answered h i
        · split_ifs <;> rfl

theorem refuse_move (h : RdvHost) (cid : Cid) (reason : UInt8) :
    HostMove h (rdvHostRefuse h cid reason) := by
  unfold rdvHostRefuse
  cases hfind : rdvHostFind h cid with
  | none => exact .frame rfl rfl rfl
  | some i =>
      have hused := (rdvHostFind_some hfind).1
      refine .edit i
        { h.c i with
          state := .refused
          refusal := reason
          pending := true
          answerRe := (h.c i).lastSeq
          answer := [] } ⟨rfl, by rw [hused]; rfl, rfl, rfl⟩ ?_ ?_ ?_ .inl
      · dsimp only
        split_ifs <;> simp [RdvHost.put]
      · exact answeredAfter_not_answered h i (by simp)
      · dsimp only
        split_ifs
        · exact answeredLess_fixed h
        · rfl

theorem claimantKept_edit {r : RdvClaimant} (hused : r.used = true) :
    ClaimantEdit r (claimantKept r) ∧ (claimantKept r).holds = r.holds ∧
      (claimantKept r).state = .answered := by
  unfold claimantKept
  dsimp only
  split_ifs
  · exact ⟨⟨rfl, by rw [hused]; rfl, rfl, rfl⟩, rfl, rfl⟩
  · exact ⟨⟨rfl, by rw [hused]; rfl, rfl, rfl⟩, rfl, rfl⟩

theorem keep_move (h : RdvHost) (cid : Cid) : HostMove h (rdvHostKeep h cid) := by
  unfold rdvHostKeep
  cases hfind : rdvHostFind h cid with
  | none => exact .frame rfl rfl rfl
  | some i =>
      obtain ⟨hedit, hholds, hstate⟩ := claimantKept_edit (rdvHostFind_some hfind).1
      dsimp only
      by_cases hgone : (h.c i).state = .gone
      · rw [if_pos hgone]
        exact .frame rfl rfl rfl
      · rw [if_neg hgone]
        by_cases hnone : (h.c i).state ≠ .refused ∧ (h.c i).answer = []
        · rw [if_pos hnone]
          exact .frame rfl rfl rfl
        · rw [if_neg hnone]
          refine .edit i (claimantKept (h.c i)) hedit ?_ ?_ ?_ (fun hh => .inl (hholds ▸ hh))
          · split_ifs <;> rfl
          · rw [hstate]
            exact answeredAfter_answered h i
          · split_ifs <;> rfl

theorem forget_move (h : RdvHost) (cid : Cid) : HostMove h (rdvHostForget h cid) := by
  unfold rdvHostForget
  cases hfind : rdvHostFind h cid with
  | none => exact .frame rfl rfl rfl
  | some i =>
      have hused := (rdvHostFind_some hfind).1
      refine .edit i
        { h.c i with state := .gone, pending := false, holds := false, answer := [] }
        ⟨rfl, by rw [hused]; rfl, rfl, rfl⟩ ?_ ?_ ?_ (by simp)
      · dsimp only
        split_ifs <;> simp [RdvHost.put]
      · exact answeredAfter_not_answered h i (by simp)
      · dsimp only
        split_ifs
        · exact answeredLess_fixed h
        · rfl

theorem answeredAfter_self (a : Int) (s : RdvCState) : answeredAfter a s s = a := by
  unfold answeredAfter
  split_ifs <;> rfl

theorem release_move (h : RdvHost) (cid : Cid) : HostMove h (rdvHostRelease h cid) := by
  unfold rdvHostRelease
  cases hfind : rdvHostFind h cid with
  | none => exact .frame rfl rfl rfl
  | some i =>
      refine .edit i { h.c i with holds := false } ⟨rfl, rfl, rfl, rfl⟩ ?_ ?_ ?_ (by simp)
      · dsimp only
        split_ifs <;> rfl
      · rw [answeredAfter_self]
        dsimp only
        split_ifs <;> rfl
      · dsimp only
        split_ifs <;> rfl

theorem unsent_move (h : RdvHost) (cid : Cid) : HostMove h (rdvHostUnsent h cid) := by
  unfold rdvHostUnsent
  cases hfind : rdvHostFind h cid with
  | none => exact .frame rfl rfl rfl
  | some i =>
      dsimp only
      split_ifs
      · exact .frame rfl rfl rfl
      · exact .edit i { h.c i with pending := true, holds := false } ⟨rfl, rfl, rfl, rfl⟩ rfl
          (answeredAfter_self _ _).symm rfl (by simp)

/-- Where no answer stands but the slot's own, no other record holds the turn. -/
theorem answerStands_eq_false {h : RdvHost} {i : Fin rdvHostMax}
    (hs : answerStands h i = false) (j : Fin rdvHostMax) (hj : j ≠ i) :
    (h.c j).holds = false := by
  have := List.any_eq_false.mp hs j (List.mem_finRange j)
  simpa [hj] using this

theorem next_move (h : RdvHost) (info : Bytes) : HostMove h (rdvHostNext h info).1 := by
  unfold rdvHostNext
  by_cases hinfo : h.infoPending = true
  · rw [if_pos hinfo]
    split_ifs
    · exact .frame rfl rfl rfl
    · dsimp only
      split <;> exact .frame rfl rfl rfl
  · rw [if_neg hinfo]
    cases hturn : hostTurn h with
    | none => exact .frame rfl rfl rfl
    | some i =>
        -- the turn is given only where no other answer stands: this is all that
        -- keeps `holds` in one record
        have hfree : answerStands h i = false := by
          have := (Fin.find?_eq_some_iff.mp hturn).1
          simp only [Bool.and_eq_true, Bool.not_eq_true'] at this
          exact this.2
        dsimp only
        split
        · exact .frame rfl rfl rfl
        · exact .edit i { h.c i with pending := false, holds := true } ⟨rfl, rfl, rfl, rfl⟩ rfl
            (answeredAfter_self _ _).symm rfl (fun _ => .inr (answerStands_eq_false hfree))

/-- Every call but `rdv_host_slot` is a `HostMove`. -/
theorem hostStep_move (h : RdvHost) (op : HostOp) (hop : ∀ m, op ≠ .slot m) :
    HostMove h (hostStep h op) := by
  cases op with
  | slot m => exact absurd rfl (hop m)
  | answer cid payload => exact answer_move h cid payload
  | refuse cid reason => exact refuse_move h cid reason
  | keep cid => exact keep_move h cid
  | forget cid => exact forget_move h cid
  | release cid => exact release_move h cid
  | unsent cid => exact unsent_move h cid
  | turnKept => exact .frame rfl rfl rfl
  | setGen gen =>
      simp only [hostStep, rdvHostSetGen]
      split_ifs <;> exact .frame rfl rfl rfl
  | entomb => exact .frame rfl rfl rfl
  | next info => exact next_move h info

/-! ## What `rdv_host_slot` does -/

/-- A record that has taken the number of a new offer. -/
def claimantHarvested (r : RdvClaimant) (seq : UInt32) : RdvClaimant :=
  { r with
    lastSeq := seq
    haveSeq := true
    holds := false
    state := if r.state = .free then .free else .harvested }

theorem hostHarvest_c (h : RdvHost) (i : Fin rdvHostMax) (seq : UInt32) :
    (hostHarvest h i seq).c =
      fun j => { Function.update h.c i (claimantHarvested (h.c i) seq) j with holds := false } := by
  funext j
  unfold hostHarvest claimantHarvested RdvHost.put
  by_cases hj : j = i
  · subst hj
    cases hstate : (h.c j).state <;> simp [hstate]
  · cases hstate : (h.c i).state <;> simp [hstate, hj]

theorem hostHarvest_answered (h : RdvHost) (i : Fin rdvHostMax) (seq : UInt32) :
    (hostHarvest h i seq).answered = answeredAfter h.answered (h.c i).state .harvested := by
  unfold hostHarvest RdvHost.put RdvHost.answeredLess answeredAfter
  cases hstate : (h.c i).state <;> simp [hstate]
  split_ifs <;> simp

theorem hostHarvest_fixed (h : RdvHost) (i : Fin rdvHostMax) (seq : UInt32) :
    (hostHarvest h i seq).fixed = h.fixed := by
  unfold hostHarvest RdvHost.put RdvHost.answeredLess
  dsimp only
  split_ifs <;> rfl

/-- A call of `rdv_host_slot` that acts: slot `i`, which is the claimant's own
or was given to it as a newcomer, takes the record `r` under the offer's
number, and no answer stands in the cell. -/
structure HostHarvest (h h' : RdvHost) (m : RdvMsg) (i : Fin rdvHostMax) (r : RdvClaimant) :
    Prop where
  whose : ((h.c i).used = true ∧ (h.c i).cid = m.frm ∧
      ((h.c i).haveSeq = true → (h.c i).lastSeq < m.seq)) ∨
    (rdvHostFind h m.frm = none ∧ hostVacancy h = some i)
  cid_eq : r.cid = m.frm
  state_eq : r.state = .harvested ∨ r.state = .refused
  lastSeq_eq : r.lastSeq = m.seq
  haveSeq_eq : r.haveSeq = true
  holds_eq : r.holds = false
  table : h'.c = fun j => { Function.update h.c i r j with holds := false }
  answered_eq : h'.answered = answeredAfter h.answered (h.c i).state r.state
  fixed_eq : h'.fixed = h.fixed

/-- A first offer, or one newer than the last, is taken into the record. -/
theorem hostTakeOffer_harvest {h : RdvHost} {i : Fin rdvHostMax} {m : RdvMsg}
    (hused : (h.c i).used = true) (hcid : (h.c i).cid = m.frm)
    (hnew : (h.c i).haveSeq = true → (h.c i).lastSeq < m.seq) :
    ∃ r, HostHarvest h (hostTakeOffer h i m).1 m i r ∧
      ((hostTakeOffer h i m).2 = false → h.grant ≠ 0) := by
  have hstale : ¬((h.c i).haveSeq = true ∧ m.seq ≤ (h.c i).lastSeq) := by
    rintro ⟨hhave, hle⟩
    exact absurd (hnew hhave) (UInt32.not_lt.mpr hle)
  have hstate : (claimantHarvested (h.c i) m.seq).state = .harvested :=
    if_neg (by simpa [RdvClaimant.used] using hused)
  have hgrant : (hostHarvest h i m.seq).grant = h.grant :=
    congrArg Prod.fst (hostHarvest_fixed h i m.seq)
  have hanswered : (hostHarvest h i m.seq).answered =
      answeredAfter h.answered (h.c i).state .harvested := hostHarvest_answered h i m.seq
  unfold hostTakeOffer
  rw [if_neg hstale]
  dsimp only
  by_cases hfull : (hostHarvest h i m.seq).grant ≠ 0 ∧
      (hostHarvest h i m.seq).answered ≥ (hostHarvest h i m.seq).grant
  · -- past the grant: the record is refused, but it keeps the offer's number
    rw [if_pos hfull]
    refine ⟨{ claimantHarvested (h.c i) m.seq with
      state := .refused
      refusal := 1
      pending := true
      answerRe := m.seq }, ⟨.inl ⟨hused, hcid, hnew⟩, hcid, .inr rfl, rfl, rfl, rfl, ?_, ?_,
      hostHarvest_fixed h i m.seq⟩, fun _ => hgrant ▸ hfull.1⟩
    · rw [RdvHost.put, hostHarvest_c]
      funext j
      by_cases hj : j = i
      · subst hj
        simp [claimantHarvested]
      · simp [hj]
    · change (hostHarvest h i m.seq).answered = _
      rw [hanswered]
      rfl
  · rw [if_neg hfull]
    refine ⟨claimantHarvested (h.c i) m.seq,
      ⟨.inl ⟨hused, hcid, hnew⟩, hcid, .inl hstate, rfl, rfl, rfl, hostHarvest_c h i m.seq, ?_,
      hostHarvest_fixed h i m.seq⟩, by simp⟩
    rw [hanswered, hstate]

/-- A newcomer's record holds no number yet, so its offer is always taken. -/
theorem hostTakeOffer_newcomer {h : RdvHost} {i : Fin rdvHostMax} {m : RdvMsg}
    (hfind : rdvHostFind h m.frm = none) (hvacant : hostVacancy h = some i) :
    ∃ r, HostHarvest h (hostTakeOffer (h.put i (claimantNew m.frm)) i m).1 m i r ∧
      ((hostTakeOffer (h.put i (claimantNew m.frm)) i m).2 = false → h.grant ≠ 0) := by
  have hrec : (h.put i (claimantNew m.frm)).c i = claimantNew m.frm := Function.update_self ..
  obtain ⟨r, hr, hgrant⟩ := hostTakeOffer_harvest (h := h.put i (claimantNew m.frm)) (i := i)
    (m := m) (by rw [hrec]; rfl) (by rw [hrec]; rfl)
    (by rw [hrec]; simp [claimantNew, claimantZero])
  refine ⟨r, ⟨.inr ⟨hfind, hvacant⟩, hr.cid_eq, hr.state_eq, hr.lastSeq_eq, hr.haveSeq_eq,
    hr.holds_eq, ?_, ?_, hr.fixed_eq⟩, hgrant⟩
  · rw [hr.table, RdvHost.put, Function.update_idem]
  · -- the record given away was not counted, so neither is the newcomer's
    have hold : (h.c i).state ≠ .answered := by
      rcases hostVacancy_state hvacant with hs | hs | hs <;> simp [hs]
    have hnew : r.state ≠ .answered := by
      rcases hr.state_eq with hs | hs <;> simp [hs]
    rw [hr.answered_eq, hrec]
    simp [answeredAfter, claimantNew, hold, hnew, RdvHost.put]

/-- A call of `rdv_host_slot` changes nothing, or is an offer made to this host
that is taken.  Only a grant makes a taken offer come back refused. -/
theorem rdvHostSlot_cases (h : RdvHost) (m : RdvMsg) :
    rdvHostSlot h m = (h, false) ∨
      (hostOffered h.cid m = true ∧ ∃ i r, HostHarvest h (rdvHostSlot h m).1 m i r ∧
        ((rdvHostSlot h m).2 = false → h.grant ≠ 0)) := by
  unfold rdvHostSlot
  by_cases hoffer : hostOffered h.cid m = true
  · rw [if_neg (by simp [hoffer])]
    unfold hostAdmit
    cases hfind : rdvHostFind h m.frm with
    | some i =>
        obtain ⟨hused, hcid⟩ := rdvHostFind_some hfind
        dsimp only
        by_cases hstale : (h.c i).haveSeq = true ∧ m.seq ≤ (h.c i).lastSeq
        · left
          rw [hostTakeOffer, if_pos hstale]
        · right
          refine ⟨hoffer, i, hostTakeOffer_harvest hused hcid ?_⟩
          intro hhave
          exact UInt32.not_le.mp fun hle => hstale ⟨hhave, hle⟩
    | none =>
        cases hvacant : hostVacancy h with
        | none => exact .inl rfl
        | some i => exact .inr ⟨hoffer, i, hostTakeOffer_newcomer hfind hvacant⟩
  · left
    rw [if_pos (by simpa using hoffer)]

/-! ## One call -/

/-- The offer that a call acts on, if it does: whose it is, and its number. -/
def hostAccepts (h : RdvHost) : HostOp → Option (Cid × UInt32)
  | .slot m => if (rdvHostSlot h m).2 = true then some (m.frm, m.seq) else none
  | _ => none

/-- Every call is a move that acts on no offer, or takes an offer made to this
host; without a grant, an offer taken is an offer acted on. -/
theorem hostStep_cases (h : RdvHost) (op : HostOp) :
    (HostMove h (hostStep h op) ∧ hostAccepts h op = none) ∨
      ∃ m i r, op = .slot m ∧ hostOffered h.cid m = true ∧
        HostHarvest h (hostStep h op) m i r ∧
        (h.grant = 0 → hostAccepts h op = some (m.frm, m.seq)) := by
  by_cases hop : ∃ m, op = .slot m
  · obtain ⟨m, rfl⟩ := hop
    rcases rdvHostSlot_cases h m with hsame | ⟨hoffer, i, r, hh, hgrant⟩
    · left
      simp only [hostStep, hostAccepts, hsame]
      exact ⟨.frame rfl rfl rfl, rfl⟩
    · right
      refine ⟨m, i, r, rfl, hoffer, hh, fun hzero => ?_⟩
      have htaken : (rdvHostSlot h m).2 = true := by
        by_contra hnot
        exact hgrant (by simpa using hnot) hzero
      rw [hostAccepts, if_pos htaken]
  · left
    refine ⟨hostStep_move h op fun m hm => hop ⟨m, hm⟩, ?_⟩
    cases op with
    | slot m => exact absurd ⟨m, rfl⟩ hop
    | _ => rfl

/-- No call changes the grant or the host's own id. -/
theorem hostStep_fixed (h : RdvHost) (op : HostOp) : (hostStep h op).fixed = h.fixed := by
  rcases hostStep_cases h op with ⟨hmove, -⟩ | ⟨m, i, r, -, -, hh, -⟩
  · cases hmove with
    | frame _ _ hf => exact hf
    | edit _ _ _ _ _ hf _ => exact hf
  · exact hh.fixed_eq

end Rdv
end Comrade
