import Comrade.Rdv.ClientRun
import Comrade.Rdv.HostReply

/-!
# Claimants, hosts and the cell between them

Any number of clients and hosts share one cell.  The cell is not trusted to
keep anything in order: whoever reads it may be handed any statement that
anybody ever wrote, again and again, and statements may be lost.  What a call
writes and reads are the bytes of `rdv_encode`.

* `Mailbox` is the state of all parties with everything written so far, and
  `mailStep` one call of one of them.
* `Heard` says that a host has read an offer which the client made to it.
* `Grounded` is what a host's record rests on, and `Origin` what a statement in
  the cell rests on; each call keeps both.
* `mailbox_reply_grounded` is the law over whole runs: what a client takes is a
  reply of the host it asks, to an offer that the host has read, with what the
  host was given for this client.
-/

namespace Comrade
namespace Rdv

open Lib

/-- The clients and hosts by their instance ids, and every statement written. -/
structure Mailbox where
  client : Cid → RdvClient
  host : Cid → RdvHost
  written : List RdvOut

/-- Everybody starts afresh, and nothing is written. -/
def mailboxInit (gen : Cid → UInt32) (grant : Cid → Int) : Mailbox where
  client := rdvClientInit
  host := fun cid => rdvHostInit cid (gen cid) (grant cid)
  written := []

/-- One call of one party. -/
inductive MailEvent where
  | client (cid : Cid) (op : ClientOp)
  | host (cid : Cid) (op : HostOp)

/-- The statement that a client's call is handed. -/
def ClientOp.reads : ClientOp → Option RdvMsg
  | .hostSlot m _ => some m
  | .ownSlot m => some m
  | .answerUnusable m => some m
  | _ => none

/-- The statement that a host's call is handed. -/
def HostOp.reads : HostOp → Option RdvMsg
  | .slot m => some m
  | _ => none

/-- What a client's call writes. -/
def clientWrites (c : RdvClient) : ClientOp → Option RdvOut
  | .next offer => (rdvClientNext c offer).2
  | _ => none

/-- What a host's call writes. -/
def hostWrites (h : RdvHost) : HostOp → Option RdvOut
  | .next info => (rdvHostNext h info).2
  | _ => none

/-- The cell can hand out whatever was ever written, as it is decoded. -/
def Mailbox.serves (s : Mailbox) (m : RdvMsg) : Bool :=
  s.written.any fun o => decide ((rdvDecode o.msg).toOption = some m)

/-- The parties after one call; a call that is handed a statement the cell does not have is
not made. -/
def mailStep (s : Mailbox) : MailEvent → Mailbox
  | .client cid op =>
      if op.reads.all s.serves = true then
        { s with
          client := Function.update s.client cid (clientStep (s.client cid) op)
          written := s.written ++ (clientWrites (s.client cid) op).toList }
      else s
  | .host cid op =>
      if op.reads.all s.serves = true then
        { s with
          host := Function.update s.host cid (hostStep (s.host cid) op)
          written := s.written ++ (hostWrites (s.host cid) op).toList }
      else s

theorem serves_iff {s : Mailbox} {m : RdvMsg} :
    s.serves m = true ↔ ∃ o ∈ s.written, rdvDecode o.msg = .ok m := by
  have hok : ∀ x : Except RdvErr RdvMsg, x.toOption = some m ↔ x = .ok m := by
    intro x
    cases x with
    | error e => simp [Except.toOption]
    | ok m' => simp [Except.toOption]
  simp [Mailbox.serves, hok]

/-! ## What a client keeps -/

/-- A client under its own id that knows its host before it asks, and no host under the id
that addresses everybody. -/
structure ClientSound (cid : Cid) (c : RdvClient) : Prop where
  cid_eq : c.cid = cid
  asked : AskedHost c
  named : c.haveHost = true → c.hostCid ≠ rdvZero

theorem clientSound_init (cid : Cid) : ClientSound cid (rdvClientInit cid) where
  cid_eq := rfl
  asked := fun h => absurd rfl h
  named := fun h => by cases h

theorem offerSeq_frame (c : RdvClient) (offer : Bytes) :
    (offerSeq c offer).cid = c.cid ∧ (offerSeq c offer).haveHost = c.haveHost ∧
      (offerSeq c offer).hostCid = c.hostCid := by
  unfold offerSeq
  split_ifs <;> exact ⟨rfl, rfl, rfl⟩

theorem hostSlot_named {c : RdvClient} (h : c.haveHost = true → c.hostCid ≠ rdvZero) (m : RdvMsg)
    (seq : Int) :
    (rdvClientHostSlot c m seq).1.cid = c.cid ∧
      ((rdvClientHostSlot c m seq).1.haveHost = true →
        (rdvClientHostSlot c m seq).1.hostCid ≠ rdvZero) := by
  have hcopy : (clientCopyActs c m seq).1.cid = c.cid ∧
      (clientCopyActs c m seq).1.haveHost = c.haveHost ∧
      (clientCopyActs c m seq).1.hostCid = c.hostCid := by
    unfold clientCopyActs
    split_ifs <;> exact ⟨rfl, rfl, rfl⟩
  unfold rdvClientHostSlot
  generalize clientCopyActs c m seq = copy at hcopy ⊢
  obtain ⟨c', acts⟩ := copy
  obtain ⟨hcid, hhave, hhost⟩ := hcopy
  rw [← hhave, ← hhost] at h
  by_cases hkind : m.kind ≠ .tomb ∧ m.kind ≠ .hostinfo
  · rw [if_pos hkind]
    exact ⟨rfl, by rwa [hhave, hhost] at h⟩
  · rw [if_neg hkind]
    by_cases hfrm : m.frm = rdvZero
    · rw [if_pos hfrm]
      exact ⟨rfl, by rwa [hhave, hhost] at h⟩
    · rw [if_neg hfrm]
      cases acts with
      | false => exact ⟨hcid, h⟩
      | true =>
          dsimp only
          split_ifs
          · exact ⟨hcid, h⟩
          · exact ⟨hcid, h⟩
          · exact ⟨hcid, fun _ => hfrm⟩
          · exact ⟨hcid, fun _ => hfrm⟩

theorem ClientSound.step {cid : Cid} {c : RdvClient} (h : ClientSound cid c) (op : ClientOp) :
    ClientSound cid (clientStep c op) := by
  have hasked := clientStep_askedHost h.asked op
  suffices hkeep : (clientStep c op).cid = c.cid ∧ ((clientStep c op).haveHost = true →
      (clientStep c op).hostCid ≠ rdvZero) by
    exact ⟨hkeep.1.trans h.cid_eq, hasked, hkeep.2⟩
  cases op with
  | hostSlot m seq => exact hostSlot_named h.named m seq
  | ownSlot m =>
      simp only [clientStep, rdvClientOwnSlot]
      split_ifs <;> exact ⟨rfl, h.named⟩
  | answerUnusable m =>
      simp only [clientStep, rdvClientAnswerUnusable]
      split_ifs <;> exact ⟨rfl, h.named⟩
  | next offer =>
      obtain ⟨hcid, hhave, hhost⟩ := offerSeq_frame c offer
      have hnamed := h.named
      rw [← hhave, ← hhost] at hnamed
      simp only [clientStep, rdvClientNext]
      split_ifs
      · exact ⟨rfl, h.named⟩
      · split
        · exact ⟨hcid, hnamed⟩
        · exact ⟨hcid, hnamed⟩
  | askGone seq =>
      simp only [clientStep, rdvClientAskGone]
      split_ifs <;> exact ⟨rfl, h.named⟩
  | reask => exact ⟨rfl, h.named⟩
  | identChanged => exact ⟨rfl, h.named⟩
  | setLive live => exact ⟨rfl, h.named⟩

/-- What a client writes is its offer to the host it knows. -/
theorem clientWrites_offer {c : RdvClient} {op : ClientOp} {o : RdvOut} {m : RdvMsg}
    (ho : clientWrites c op = some o) (hm : rdvDecode o.msg = .ok m) :
    op = .next m.payload ∧ m.kind = .offer ∧ m.frm = c.cid ∧ m.dst = c.hostCid ∧
      c.haveHost = true := by
  cases op with
  | next offer =>
      obtain ⟨hcid, -, hhost⟩ := offerSeq_frame c offer
      simp only [clientWrites, rdvClientNext] at ho
      split_ifs at ho with hask
      have hhave : c.haveHost = true := by
        simp only [Bool.not_eq_false, rdvClientMayAsk, Bool.and_eq_true] at hask
        exact hask.1.2
      split at ho
      · cases ho
      · rename_i b henc
        obtain rfl := Option.some.inj ho
        rw [rdvDecode_rdvEncode henc] at hm
        obtain rfl := Except.ok.inj hm
        exact ⟨rfl, rfl, hcid, hhost, hhave⟩
  | _ => cases ho

/-! ## What the others rest on -/

/-- The host has read an offer that the client made to it under the number. -/
def Heard (events : List MailEvent) (host cid : Cid) (n : UInt32) : Prop :=
  ∃ o : RdvMsg, .host host (.slot o) ∈ events ∧ .client cid (.next o.payload) ∈ events ∧
    o.kind = .offer ∧ o.frm = cid ∧ o.dst = host ∧ o.seq = n

/-- The host was told to refuse the client for the reason, or had granted all it may. -/
def RefusedFor (events : List MailEvent) (host cid : Cid) (reason : UInt8) : Prop :=
  reason = rdvRefuseFull ∨ .host host (.refuse cid reason) ∈ events

/-- A record whose numbers are those of offers read and whose reply was given for the
claimant. -/
structure Grounded (events : List MailEvent) (host : Cid) (r : RdvClaimant) : Prop where
  last : r.lastSeq = 0 ∨ Heard events host r.cid r.lastSeq
  names : r.answerRe = 0 ∨ Heard events host r.cid r.answerRe
  answered : r.answer = [] ∨ .host host (.answer r.cid r.answer) ∈ events
  refused : r.state = .refused → RefusedFor events host r.cid r.refusal

/-- A reply that names an offer which its host has read, and says what the host was given. -/
structure Replied (events : List MailEvent) (m : RdvMsg) : Prop where
  names : m.re = 0 ∨ Heard events m.frm m.dst m.re
  answered : m.kind = .answer → m.payload = [] ∨
    .host m.frm (.answer m.dst m.payload) ∈ events
  refused : m.kind = .refuse →
    ∃ reason, m.payload = [reason] ∧ RefusedFor events m.frm m.dst reason

/-- A statement of the cell: an offer was made by its sender to a host, and a reply rests on
what its sender read and was given. -/
structure Origin (events : List MailEvent) (m : RdvMsg) : Prop where
  made : m.kind = .offer → .client m.frm (.next m.payload) ∈ events ∧ m.dst ≠ rdvZero
  replied : m.isReply = true → Replied events m

section More

variable {events : List MailEvent} {host cid : Cid} (e : MailEvent)

theorem Heard.more {n : UInt32} (h : Heard events host cid n) :
    Heard (events ++ [e]) host cid n := by
  obtain ⟨o, hread, hmade, ho⟩ := h
  exact ⟨o, List.mem_append_left _ hread, List.mem_append_left _ hmade, ho⟩

theorem RefusedFor.more {reason : UInt8} (h : RefusedFor events host cid reason) :
    RefusedFor (events ++ [e]) host cid reason :=
  h.imp_right (List.mem_append_left _)

theorem Grounded.more {r : RdvClaimant} (h : Grounded events host r) :
    Grounded (events ++ [e]) host r where
  last := h.last.imp_right (Heard.more e)
  names := h.names.imp_right (Heard.more e)
  answered := h.answered.imp_right (List.mem_append_left _)
  refused := fun hs => (h.refused hs).more e

theorem Origin.more {m : RdvMsg} (h : Origin events m) : Origin (events ++ [e]) m where
  made := fun hk => (h.made hk).imp_left (List.mem_append_left _)
  replied := fun hr =>
    { names := (h.replied hr).names.imp_right (Heard.more e)
      answered := fun hk => ((h.replied hr).answered hk).imp_right (List.mem_append_left _)
      refused := fun hk => by
        obtain ⟨reason, hp, hreason⟩ := (h.replied hr).refused hk
        exact ⟨reason, hp, hreason.more e⟩ }

end More

/-! ## What a host keeps -/

theorem Grounded.of_holds {events : List MailEvent} {host : Cid} {r : RdvClaimant}
    (h : Grounded events host r) (b : Bool) : Grounded events host { r with holds := b } :=
  ⟨h.last, h.names, h.answered, h.refused⟩

/-- A call that edits one record leaves it grounded. -/
theorem Grounded.edit {events : List MailEvent} {host : Cid} {h : RdvHost} {old r : RdvClaimant}
    {op : HostOp} (hold : Grounded events host old) (hedit : ReplyEdit h old op r) :
    Grounded (events ++ [.host host op]) host r := by
  have hmore := hold.more (.host host op)
  cases hedit with
  | answer payload hlen => exact ⟨hmore.last, hmore.last, .inr (by simp), fun hs => by cases hs⟩
  | refuse reason => exact ⟨hmore.last, hmore.last, .inl rfl, fun _ => .inr (by simp)⟩
  | keep hgone hsome =>
      unfold claimantKept
      dsimp only
      split_ifs
      · exact ⟨hmore.last, hmore.last, hmore.answered, fun hs => by cases hs⟩
      · exact ⟨hmore.last, hmore.names, hmore.answered, fun hs => by cases hs⟩
  | forget => exact ⟨hmore.last, hmore.names, .inl rfl, fun hs => by cases hs⟩
  | release => exact hmore.of_holds false
  | unsent hgone => exact ⟨hmore.last, hmore.names, hmore.answered, hmore.refused⟩
  | next info hpending hemits =>
      exact ⟨hmore.last, hmore.names, hmore.answered, hmore.refused⟩

/-- What an offer made newly acceptable makes of the table. -/
theorem hostTakeOffer_c (h : RdvHost) (i : Fin rdvHostMax) (m : RdvMsg) :
    (hostTakeOffer h i m).1 = h ∨ ∃ r, (r = claimantHarvested (h.c i) m.seq ∨
        r = { claimantHarvested (h.c i) m.seq with
              state := .refused
              refusal := rdvRefuseFull
              pending := true
              answerRe := m.seq }) ∧
      (hostTakeOffer h i m).1.c =
        fun j => { Function.update h.c i r j with holds := false } := by
  unfold hostTakeOffer
  by_cases hstale : (h.c i).haveSeq = true ∧ m.seq ≤ (h.c i).lastSeq
  · rw [if_pos hstale]
    exact .inl rfl
  · rw [if_neg hstale]
    dsimp only
    by_cases hfull : (hostHarvest h i m.seq).grant ≠ 0 ∧
        (hostHarvest h i m.seq).answered ≥ (hostHarvest h i m.seq).grant
    · rw [if_pos hfull]
      refine .inr ⟨_, .inr rfl, ?_⟩
      simp only [RdvHost.put, hostHarvest_c]
      ext1 j
      by_cases hj : j = i
      · subst hj
        simp [claimantHarvested, rdvRefuseFull]
      · simp [hj]
    · rw [if_neg hfull]
      exact .inr ⟨_, .inl rfl, hostHarvest_c h i m.seq⟩

/-- The record that takes an offer is grounded in it. -/
theorem Grounded.harvest {events : List MailEvent} {host : Cid} {old r : RdvClaimant}
    {n : UInt32} (hold : Grounded events host old) (hheard : Heard events host old.cid n)
    (hr : r = claimantHarvested old n ∨
      r = { claimantHarvested old n with
            state := .refused
            refusal := rdvRefuseFull
            pending := true
            answerRe := n }) : Grounded events host r := by
  rcases hr with rfl | rfl
  · refine ⟨.inr hheard, hold.names, hold.answered, ?_⟩
    simp only [claimantHarvested]
    split_ifs <;> simp
  · exact ⟨.inr hheard, .inr hheard, hold.answered, fun _ => .inl rfl⟩

theorem grounded_harvested {events : List MailEvent} {host : Cid} {h : RdvHost}
    (hold : ∀ j, Grounded events host (h.c j)) {i : Fin rdvHostMax} {m : RdvMsg}
    (hheard : Heard events host (h.c i).cid m.seq) (j : Fin rdvHostMax) :
    Grounded events host ((hostTakeOffer h i m).1.c j) := by
  rcases hostTakeOffer_c h i m with hsame | ⟨r, hr, hc⟩
  · rw [hsame]
    exact hold j
  · rw [hc]
    change Grounded events host { Function.update h.c i r j with holds := false }
    by_cases hj : j = i
    · subst hj
      rw [Function.update_self]
      exact ((hold j).harvest hheard hr).of_holds false
    · rw [Function.update_of_ne hj]
      exact (hold j).of_holds false

theorem grounded_new (events : List MailEvent) (host cid : Cid) :
    Grounded events host (claimantNew cid) :=
  ⟨.inl rfl, .inl rfl, .inl rfl, fun h => by cases h⟩

/-- An offer that the cell hands to a host and that rests on its sender is heard. -/
theorem heard_of_offered {events : List MailEvent} {host : Cid} {m : RdvMsg}
    (hm : Origin events m) (hoffer : hostOffered host m = true) :
    Heard (events ++ [.host host (.slot m)]) host m.frm m.seq := by
  simp only [hostOffered, Bool.and_eq_true, beq_iff_eq, rdvAddressedTo, Bool.or_eq_true] at hoffer
  obtain ⟨⟨hkind, -⟩, hdst⟩ := hoffer
  obtain ⟨hmade, hzero⟩ := hm.made hkind
  refine ⟨m, by simp, List.mem_append_left _ hmade, hkind, rfl, ?_, rfl⟩
  exact hdst.resolve_left hzero

/-- Every call keeps the records of a host grounded. -/
theorem grounded_step {events : List MailEvent} {host : Cid} {h : RdvHost} (hcid : h.cid = host)
    (hold : ∀ j, Grounded events host (h.c j)) (op : HostOp)
    (hread : ∀ m, op.reads = some m → Origin events m) (j : Fin rdvHostMax) :
    Grounded (events ++ [.host host op]) host ((hostStep h op).c j) := by
  have hmore : ∀ j, Grounded (events ++ [MailEvent.host host op]) host (h.c j) :=
    fun j => (hold j).more _
  by_cases hslot : ∃ m, op = .slot m
  · obtain ⟨m, rfl⟩ := hslot
    simp only [hostStep, rdvHostSlot]
    split_ifs with hoffer
    · exact hmore j
    · rw [Bool.not_eq_false, hcid] at hoffer
      have hheard := heard_of_offered (hread m rfl) hoffer
      unfold hostAdmit
      cases hfind : rdvHostFind h m.frm with
      | some i =>
          rw [← (rdvHostFind_some hfind).2] at hheard
          exact grounded_harvested hmore hheard j
      | none =>
          cases hvacant : hostVacancy h with
          | none => exact hmore j
          | some i =>
              have hat : (h.put i (claimantNew m.frm)).c i = claimantNew m.frm :=
                Function.update_self ..
              refine grounded_harvested (h := h.put i (claimantNew m.frm)) ?_ ?_ j
              · intro j
                by_cases hj : j = i
                · rw [hj, hat]
                  exact grounded_new _ _ _
                · change Grounded _ host (Function.update h.c i (claimantNew m.frm) j)
                  rw [Function.update_of_ne hj]
                  exact hmore j
              · rw [hat]
                exact hheard
  · rcases hostStep_reply h op with ⟨hc, -⟩ | ⟨i, r, hedit, -, hc⟩ | ⟨m, i, r, hop, -, -⟩
    · rw [hc]
      exact hmore j
    · rw [hc]
      by_cases hj : j = i
      · rw [hj, Function.update_self]
        exact (hold i).edit hedit
      · rw [Function.update_of_ne hj]
        exact hmore j
    · exact absurd ⟨m, hop⟩ hslot

/-- What a host writes is no offer. -/
theorem hostEmits_kind {h : RdvHost} {op : HostOp} {m : RdvMsg} (hemits : hostEmits h op = some m) :
    m.kind ≠ .offer := by
  by_cases hreply : m.isReply = true
  · obtain ⟨i, -, rfl⟩ := hostEmits_reply hemits hreply
    simp only [hostTurnMsg]
    split_ifs <;> simp
  · intro hk
    cases op with
    | next info =>
        simp only [hostEmits] at hemits
        unfold rdvHostNext at hemits
        by_cases hinfo : h.infoPending = true
        · rw [if_pos hinfo] at hemits
          by_cases hlong : info.length > rdvHostPayload
          · rw [if_pos hlong] at hemits
            cases hemits
          · rw [if_neg hlong] at hemits
            dsimp only at hemits
            cases henc : rdvEncode (hostInfoMsg { h with seq := h.seq + 1 } info) rdvMaxMsg with
            | none =>
                rw [henc] at hemits
                cases hemits
            | some b =>
                rw [henc] at hemits
                dsimp only at hemits
                rw [rdvDecode_rdvEncode henc] at hemits
                obtain rfl := Option.some.inj hemits
                simp only [hostInfoMsg] at hk
                split_ifs at hk
        · rw [if_neg hinfo] at hemits
          cases hturn : hostTurn h with
          | none =>
              rw [hturn] at hemits
              cases hemits
          | some i =>
              rw [hturn] at hemits
              dsimp only at hemits
              cases henc :
                  rdvEncode (hostTurnMsg { h with seq := h.seq + 1 } (h.c i)) rdvMaxMsg with
              | none =>
                  rw [henc] at hemits
                  cases hemits
              | some b =>
                  rw [henc] at hemits
                  dsimp only at hemits
                  rw [rdvDecode_rdvEncode henc] at hemits
                  obtain rfl := Option.some.inj hemits
                  simp only [hostTurnMsg] at hk
                  split_ifs at hk
    | _ => cases hemits

/-- What a host writes to a claimant rests on the claimant's record. -/
theorem origin_hostWrites {events : List MailEvent} {host : Cid} {h : RdvHost}
    (hcid : h.cid = host) (hold : ∀ j, Grounded events host (h.c j)) {op : HostOp} {o : RdvOut}
    {m : RdvMsg} (ho : hostWrites h op = some o) (hm : rdvDecode o.msg = .ok m) :
    Origin events m := by
  have hemits : hostEmits h op = some m := by
    cases op with
    | next info =>
        simp only [hostWrites] at ho
        simp only [hostEmits, ho, hm]
        rfl
    | _ => cases ho
  refine ⟨fun hk => absurd hk (hostEmits_kind hemits), fun hreply => ?_⟩
  obtain ⟨i, -, rfl⟩ := hostEmits_reply hemits hreply
  have hr := hold i
  simp only [hostTurnMsg, hcid]
  refine ⟨hr.names, ?_, ?_⟩
  · simp only
    split_ifs with hs
    · simp
    · exact fun _ => hr.answered
  · simp only
    split_ifs with hs
    · exact fun _ => ⟨_, rfl, hr.refused hs⟩
    · simp

/-! ## Whole runs -/

/-- What holds of the parties and the cell after a list of calls. -/
structure MailInv (s : Mailbox) (events : List MailEvent) : Prop where
  clients : ∀ cid, ClientSound cid (s.client cid)
  hosts : ∀ cid, (s.host cid).cid = cid
  records : ∀ cid j, Grounded events cid ((s.host cid).c j)
  origins : ∀ o ∈ s.written, ∀ m, rdvDecode o.msg = .ok m → Origin events m

theorem MailInv.more {s : Mailbox} {events : List MailEvent} (h : MailInv s events)
    (e : MailEvent) : MailInv s (events ++ [e]) where
  clients := h.clients
  hosts := h.hosts
  records := fun cid j => (h.records cid j).more e
  origins := fun o ho m hm => (h.origins o ho m hm).more e

theorem MailInv.origin_of_serves {s : Mailbox} {events : List MailEvent} (h : MailInv s events)
    {m : RdvMsg} (hm : s.serves m = true) : Origin events m := by
  obtain ⟨o, ho, hdec⟩ := serves_iff.mp hm
  exact h.origins o ho m hdec

theorem MailInv.step {s : Mailbox} {events : List MailEvent} (h : MailInv s events)
    (e : MailEvent) : MailInv (mailStep s e) (events ++ [e]) := by
  have hmore := h.more e
  cases e with
  | client cid op =>
      simp only [mailStep]
      split_ifs
      · refine ⟨?_, h.hosts, hmore.records, ?_⟩
        · intro i
          dsimp only
          by_cases hi : i = cid
          · subst hi
            rw [Function.update_self]
            exact (h.clients i).step op
          · rw [Function.update_of_ne hi]
            exact h.clients i
        · intro o ho m hm
          rw [List.mem_append, Option.mem_toList] at ho
          rcases ho with ho | ho
          · exact hmore.origins o ho m hm
          · obtain ⟨rfl, hkind, hfrm, hdst, hhave⟩ := clientWrites_offer ho hm
            have hsound := h.clients cid
            refine ⟨fun _ => ⟨?_, ?_⟩, ?_⟩
            · rw [hfrm, hsound.cid_eq]
              simp
            · rw [hdst]
              exact hsound.named hhave
            · intro hreply
              simp [RdvMsg.isReply, hkind] at hreply
      · exact hmore
  | host cid op =>
      simp only [mailStep]
      split_ifs with hserved
      · have hread : ∀ m, op.reads = some m → Origin events m := by
          intro m hm
          rw [hm] at hserved
          exact h.origin_of_serves hserved
        refine ⟨h.clients, ?_, ?_, ?_⟩
        · intro i
          dsimp only
          by_cases hi : i = cid
          · subst hi
            rw [Function.update_self]
            exact (congrArg Prod.snd (hostStep_fixed (s.host i) op)).trans (h.hosts i)
          · rw [Function.update_of_ne hi]
            exact h.hosts i
        · intro i j
          dsimp only
          by_cases hi : i = cid
          · subst hi
            rw [Function.update_self]
            exact grounded_step (h.hosts i) (h.records i) op hread j
          · rw [Function.update_of_ne hi]
            exact hmore.records i j
        · intro o ho m hm
          rw [List.mem_append, Option.mem_toList] at ho
          rcases ho with ho | ho
          · exact hmore.origins o ho m hm
          · exact (origin_hostWrites (h.hosts cid) (h.records cid) ho hm).more _
      · exact hmore

theorem mailRun_inv (gen : Cid → UInt32) (grant : Cid → Int) (events : List MailEvent) :
    MailInv (run mailStep (mailboxInit gen grant) events) events := by
  induction events using List.reverseRecOn with
  | nil =>
      refine ⟨clientSound_init, fun _ => rfl, fun _ _ => ?_, by simp [mailboxInit]⟩
      exact ⟨.inl rfl, .inl rfl, .inl rfl, fun h => by cases h⟩
  | append_singleton events e ih =>
      rw [run_concat]
      exact ih.step e

/-- In every run, whatever the cell hands out: a reply that a client takes comes from the host
it asks and names an offer that this client made to that host and that the host has read, and
it says what the host was given for this client.  An answer can be empty beside that. -/
theorem mailbox_reply_grounded (gen : Cid → UInt32) (grant : Cid → Int)
    (events : List MailEvent) (cid : Cid) (m : RdvMsg)
    (hserved : (run mailStep (mailboxInit gen grant) events).serves m = true)
    (htaken : (rdvClientOwnSlot ((run mailStep (mailboxInit gen grant) events).client cid)
      m).2 = true) :
    m.frm = ((run mailStep (mailboxInit gen grant) events).client cid).hostCid ∧
      Heard events m.frm cid m.re ∧
      (m.kind = .answer → m.payload = [] ∨ .host m.frm (.answer cid m.payload) ∈ events) ∧
      (m.kind = .refuse → ∃ reason, m.payload = [reason] ∧
        RefusedFor events m.frm cid reason) := by
  have hinv := mailRun_inv gen grant events
  have hsound := hinv.clients cid
  rw [rdvClientOwnSlot_snd] at htaken
  obtain ⟨hkind, hdst, hfrm, hoffer, hre, -⟩ := (rdvClientWouldTake_iff _ m).mp htaken
  rw [hsound.cid_eq] at hdst
  have hreply : m.isReply = true := by
    rcases hkind with hkind | hkind <;> simp [RdvMsg.isReply, hkind]
  obtain ⟨hnames, hanswered, hrefused⟩ := (hinv.origin_of_serves hserved).replied hreply
  rw [hdst] at hnames hanswered hrefused
  refine ⟨hfrm (hsound.asked hoffer), hnames.resolve_left ?_, hanswered, hrefused⟩
  -- the offer that stands is numbered, and so is the one before it where it counts
  rcases hre with hre | ⟨hprev, hre⟩
  · rwa [hre]
  · rwa [hre]

/-- A host is met, asked and answers, while the client's first offer is served to the host
twice. -/
def askedOnce : List MailEvent :=
  let a : Cid := Vector.replicate 8 1
  let b : Cid := Vector.replicate 8 2
  let info : RdvMsg :=
    { kind := .hostinfo, gen := 5, frm := b, dst := rdvZero, seq := 1, re := 0, payload := [4] }
  let offer : RdvMsg :=
    { kind := .offer, gen := 5, frm := a, dst := b, seq := 1, re := 0, payload := [7] }
  [.host b (.next [4]), .client a (.hostSlot info 1), .client a (.next [7]), .host b (.slot offer),
   .host b (.answer a [9]), .host b (.slot offer), .host b (.next [4])]

theorem mailbox_reply_grounded_askedOnce :
    let m : RdvMsg :=
      { kind := .answer, gen := 5, frm := Vector.replicate 8 2, dst := Vector.replicate 8 1,
        seq := 2, re := 1, payload := [9] }
    Heard askedOnce m.frm m.dst 1 ∧ .host m.frm (.answer m.dst [9]) ∈ askedOnce := by
  intro m
  obtain ⟨-, hheard, hanswered, -⟩ := mailbox_reply_grounded (fun _ => 5) (fun _ => 0) askedOnce
    m.dst m (by decide) (by decide)
  exact ⟨hheard, (hanswered rfl).resolve_left (by simp [m])⟩

end Rdv
end Comrade
