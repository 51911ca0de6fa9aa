import Comrade.Carrier.Statement

/-!
# What an answer may move

An answer is to the newest statement or to none, and a carrier is pinned on it
only where that statement was a proposal of this very path.

The number of a statement says which one it is, so the invariant `TxInv` follows
the numbers round: out with the statement, into the confirmer, back with the
answer (`Echoes`).  The path id takes part only at the end, where the proposer
compares the answer with the last id it *proposed* and not with the last one it
stated: a forced statement leaves that id behind.  `ForcedFresh` asks that no
forced statement name it.
-/

namespace Comrade
namespace Carrier

open Lib Paths

/-- `seq` is the number of a statement made, and `id` the path it names. -/
def Echoes (stated : List Statement) (seq : UInt32) (id : PathId) : Prop :=
  ∃ n st, seq.toNat = n + 1 ∧ stated[n]? = some st ∧ st.id = id

theorem Echoes.append {stated : List Statement} {seq : UInt32} {id : PathId}
    (h : Echoes stated seq id) (more : List Statement) : Echoes (stated ++ more) seq id := by
  obtain ⟨n, st, hseq, hst, hid⟩ := h
  have hn : n < stated.length := (List.getElem?_eq_some_iff.mp hst).1
  exact ⟨n, st, hseq, by rw [List.getElem?_append_left hn, hst], hid⟩

theorem echoes_last {stated : List Statement} {seq : UInt32} (st : Statement)
    (hseq : seq.toNat = stated.length + 1) : Echoes (stated ++ [st]) seq st.id := by
  refine ⟨stated.length, st, hseq, ?_, rfl⟩
  rw [List.getElem?_append_right le_rfl, Nat.sub_self]
  rfl

/-- The number of the newest statement names the last one. -/
theorem Echoes.last {stated : List Statement} {seq : UInt32} {id : PathId}
    (h : Echoes stated seq id) (hseq : seq.toNat = stated.length) :
    ∃ st, stated.getLast? = some st ∧ st.id = id := by
  obtain ⟨n, st, hn, hst, hid⟩ := h
  refine ⟨st, ?_, hid⟩
  rw [List.getLast?_eq_getElem?, show stated.length - 1 = n by omega, hst]

/-- Every payload in flight is a statement that was made, or the answer to one. -/
def InFlight (stated : List Statement) (pls : List Bytes) : Prop :=
  ∀ pl ∈ pls, ∃ m, ctlTxselDecode pl = some m ∧ Echoes stated m.seq m.id

theorem InFlight.append_stated {stated : List Statement} {pls : List Bytes}
    (h : InFlight stated pls) (more : List Statement) : InFlight (stated ++ more) pls := by
  intro pl hpl
  obtain ⟨m, hm, hecho⟩ := h pl hpl
  exact ⟨m, hm, hecho.append more⟩

theorem InFlight.concat {stated : List Statement} {pls : List Bytes} (h : InFlight stated pls)
    {m : TxMsg} (hm : Echoes stated m.seq m.id) :
    InFlight stated (pls ++ [ctlTxselEncode m]) := by
  intro pl hpl
  rcases List.mem_append.mp hpl with hpl | hpl
  · exact h pl hpl
  · rw [List.mem_singleton.mp hpl]
    exact ⟨m, ctlTxselDecode_encode m, hm⟩

/-- The invariant of the pair. -/
structure TxInv (s : TxSystem) : Prop where
  seqOut : s.proposer.cp.txselSeqOut.toNat = s.stated.length
  wait : s.proposer.cp.txselWait = 0 ∨ s.proposer.cp.txselWait = s.proposer.cp.txselSeqOut
  sel : InFlight s.stated s.sel
  held : s.confirmer.cp.txselInPending = true →
    Echoes s.stated s.confirmer.cp.txselSeqIn s.confirmer.cp.txselInId
  ack : InFlight s.stated s.ack
  taken : s.proposer.cp.txackInPending = true →
    ∃ st, s.stated.getLast? = some st ∧ st.id = s.proposer.cp.txackInId
  newest : ∀ st, s.stated.getLast? = some st →
    (st.id = s.proposer.txPendingId ↔ st.forced = false)

/-- The law at one step: an answer to any statement but the newest is ignored,
and a carrier is pinned on an answer only where the newest statement proposed
it. -/
def AckLaw (blake2b : Blake2b) (base : Bytes) (s : TxSystem) : TxEvent → Prop
  | .deliverAck => ∀ pl rest, s.ack = pl :: rest → ∃ m, ctlTxselDecode pl = some m ∧
      Echoes s.stated m.seq m.id ∧
      (m.seq.toNat ≠ s.stated.length →
        (txStep blake2b base s .deliverAck).proposer = s.proposer)
  | .takeAck k now => ∀ id, (txTakeAck s.proposer k now).2 = some id →
      s.stated.getLast? = some { id := id, forced := false }
  | _ => True

/-- What the law asks of the steps: a forced statement does not name the path
proposed last, and the numbers do not run out. -/
def ForcedFresh (s : TxSystem) : TxEvent → Prop
  | .state ready _ => ready = true →
      (pathplaneCarryId s.proposer.pl = some s.proposer.txPendingId →
        carryMoved s.proposer s.proposer.txPendingId = false) ∧
      s.stated.length + 1 < 2 ^ 32
  | _ => True

instance (s : TxSystem) : ∀ ev, Decidable (ForcedFresh s ev)
  | .state ready _ =>
      inferInstanceAs (Decidable (ready = true →
        (pathplaneCarryId s.proposer.pl = some s.proposer.txPendingId →
          carryMoved s.proposer s.proposer.txPendingId = false) ∧
        s.stated.length + 1 < 2 ^ 32))
  | .proposerPlane _ => isTrue trivial
  | .confirmerPlane _ => isTrue trivial
  | .takeAck _ _ => isTrue trivial
  | .confirm _ _ _ => isTrue trivial
  | .deliverSel => isTrue trivial
  | .deliverAck => isTrue trivial

/-! ## What one step can do -/

/-- Everything the second half of `tx_propose` can do: it says nothing, states
the carry as moved, or proposes a challenger. -/
theorem txState_cases (pr : Peering) (ready : Bool) (now : Nat)
    (hseq : ready = true → pr.cp.txselSeqOut + 1 ≠ 0) :
    ((txState pr ready now).2 = none ∧ (txState pr ready now).1.cp = pr.cp ∧
        (txState pr ready now).1.txPendingId = pr.txPendingId) ∨
      (ready = true ∧
        (txState pr ready now).1.cp =
          { pr.cp with
            txselSeqOut := pr.cp.txselSeqOut + 1
            txselWait := pr.cp.txselSeqOut + 1
            txackInPending := false } ∧
        ((∃ carry, pathplaneCarryId pr.pl = some carry ∧ carryMoved pr carry = true ∧
            (txState pr ready now).2 =
              some (ctlTxselEncode ⟨pr.cp.txselSeqOut + 1, carry, ctlTxselForced⟩) ∧
            (txState pr ready now).1.txPendingId = pr.txPendingId) ∨
          ∃ id, (txState pr ready now).2 =
              some (ctlTxselEncode ⟨pr.cp.txselSeqOut + 1, id, 0⟩) ∧
            (txState pr ready now).1.txPendingId = id)) := by
  have hnotReady : ∀ id flags, ctlplaneTellTxsel pr.cp false id flags = (pr.cp, 0, none) :=
    fun _ _ => rfl
  have hready : ∀ id flags, ctlplaneTellTxsel pr.cp true id flags =
      ({ pr.cp with
         txselSeqOut := pr.cp.txselSeqOut + 1
         txselWait := pr.cp.txselSeqOut + 1
         txackInPending := false }, pr.cp.txselSeqOut + 1,
       some (ctlTxselEncode ⟨pr.cp.txselSeqOut + 1, id, flags⟩)) := fun _ _ => rfl
  unfold txState
  cases hcarry : pathplaneCarryId pr.pl with
  | none => exact .inl ⟨rfl, rfl, rfl⟩
  | some carry =>
      dsimp only
      by_cases hmoved : carryMoved pr carry = true
      · rw [if_pos hmoved]
        cases ready with
        | false => exact .inl ⟨rfl, rfl, rfl⟩
        | true =>
            rw [hready]
            dsimp only
            rw [if_neg (hseq rfl)]
            exact .inr ⟨rfl, rfl, .inl ⟨carry, rfl, hmoved, rfl, rfl⟩⟩
      · rw [if_neg hmoved]
        by_cases hpending : pr.txPending = true
        · rw [if_pos hpending]
          exact .inl ⟨rfl, rfl, rfl⟩
        · rw [if_neg hpending]
          cases pathplaneChallenger pr.pl now with
          | none => exact .inl ⟨rfl, rfl, rfl⟩
          | some id =>
              cases ready with
              | false =>
                  dsimp only
                  rw [hnotReady]
                  exact .inl ⟨rfl, rfl, rfl⟩
              | true =>
                  dsimp only
                  rw [hready]
                  dsimp only
                  rw [if_neg (hseq rfl)]
                  exact .inr ⟨rfl, rfl, .inr ⟨id, rfl, rfl⟩⟩

/-- The first half of `tx_propose` leaves the numbering and the last proposal
alone; it pins what an answer without flags names, if that was proposed last. -/
theorem txTakeAck_spec (pr : Peering) (k : PlaneSinks) (now : Nat) :
    (txTakeAck pr k now).1.cp = (ctlplaneTakeTxack pr.cp).1 ∧
      (txTakeAck pr k now).1.txPendingId = pr.txPendingId ∧
      ∀ id, (txTakeAck pr k now).2 = some id →
        pr.cp.txackInPending = true ∧ pr.cp.txackInId = id ∧ id = pr.txPendingId := by
  unfold txTakeAck ctlplaneTakeTxack
  by_cases hpending : pr.cp.txackInPending = true
  · rw [if_pos hpending]
    dsimp only
    by_cases hclean : pr.cp.txackInFlags = 0 ∧ pr.cp.txackInId = pr.txPendingId
    · rw [if_pos hclean]
      split
      · refine ⟨rfl, rfl, ?_⟩
        intro id hid
        have heq := Option.some.inj hid
        exact ⟨hpending, heq, heq ▸ hclean.2⟩
      · refine ⟨rfl, rfl, ?_⟩
        intro id hid
        cases hid
    · rw [if_neg hclean]
      refine ⟨rfl, rfl, ?_⟩
      intro id hid
      cases hid
  · rw [if_neg hpending]
    refine ⟨rfl, rfl, ?_⟩
    intro id hid
    cases hid

/-- What `tx_confirm` answers names the statement that it took. -/
theorem txConfirm_spec (pr : Peering) (k : PlaneSinks) (ready : Bool) (now : Nat) :
    (txConfirm pr k ready now).1.cp = (ctlplaneTakeTxsel pr.cp).1 ∧
      ((txConfirm pr k ready now).2 = none ∨
        (pr.cp.txselInPending = true ∧ ∃ flags, (txConfirm pr k ready now).2 =
          some (ctlTxselEncode ⟨pr.cp.txselSeqIn, pr.cp.txselInId, flags⟩))) := by
  unfold txConfirm ctlplaneTakeTxsel
  by_cases hpending : pr.cp.txselInPending = true
  · rw [if_pos hpending]
    refine ⟨rfl, ?_⟩
    cases ready with
    | false => exact .inl rfl
    | true => exact .inr ⟨hpending, _, rfl⟩
  · rw [if_neg hpending]
    exact ⟨rfl, .inl rfl⟩

/-- What arrives at the confirmer is held only as a statement that was made. -/
theorem onTxsel_held {stated : List Statement} {cp : CtlTx} {pl : Bytes} {m : TxMsg}
    (hm : ctlTxselDecode pl = some m) (hecho : Echoes stated m.seq m.id)
    (hheld : cp.txselInPending = true → Echoes stated cp.txselSeqIn cp.txselInId) :
    (onTxsel cp pl).txselInPending = true →
      Echoes stated (onTxsel cp pl).txselSeqIn (onTxsel cp pl).txselInId := by
  unfold onTxsel
  rw [hm]
  dsimp only
  split_ifs
  · exact fun _ => hecho
  · exact hheld

/-- An answer is taken only under the number that is waited for. -/
theorem onTxack_cases (cp : CtlTx) {pl : Bytes} {m : TxMsg} (hm : ctlTxselDecode pl = some m) :
    onTxack cp pl = cp ∨
      (cp.txselWait ≠ 0 ∧ m.seq = cp.txselWait ∧
        onTxack cp pl =
          { cp with txackInId := m.id, txackInFlags := m.flags, txackInPending := true }) := by
  unfold onTxack
  rw [hm]
  dsimp only
  split_ifs with htake
  · exact .inr ⟨htake.1, htake.2, rfl⟩
  · exact .inl rfl

/-! ## The invariant is kept -/

variable {blake2b : Blake2b} {base : Bytes} {s : TxSystem}

theorem txStep_takeAck (k : PlaneSinks) (now : Nat) :
    txStep blake2b base s (.takeAck k now) =
      { s with proposer := (txTakeAck s.proposer k now).1 } :=
  rfl

theorem txStep_state (ready : Bool) (now : Nat) :
    txStep blake2b base s (.state ready now) =
      { s with
        proposer := (txState s.proposer ready now).1
        sel := s.sel ++ (txState s.proposer ready now).2.toList
        stated := s.stated ++
          ((txState s.proposer ready now).2.bind ctlTxselDecode).toList.map TxMsg.statement } :=
  rfl

theorem txStep_confirm (k : PlaneSinks) (ready : Bool) (now : Nat) :
    txStep blake2b base s (.confirm k ready now) =
      { s with
        confirmer := (txConfirm s.confirmer k ready now).1
        ack := s.ack ++ (txConfirm s.confirmer k ready now).2.toList } :=
  rfl

theorem txStep_deliverSel_nil (h : s.sel = []) : txStep blake2b base s .deliverSel = s := by
  cases s
  cases h
  rfl

theorem txStep_deliverSel_cons {pl : Bytes} {rest : List Bytes} (h : s.sel = pl :: rest) :
    txStep blake2b base s .deliverSel =
      { s with
        sel := rest
        confirmer := { s.confirmer with cp := onTxsel s.confirmer.cp pl } } := by
  cases s
  cases h
  rfl

theorem txStep_deliverAck_nil (h : s.ack = []) : txStep blake2b base s .deliverAck = s := by
  cases s
  cases h
  rfl

theorem txStep_deliverAck_cons {pl : Bytes} {rest : List Bytes} (h : s.ack = pl :: rest) :
    txStep blake2b base s .deliverAck =
      { s with
        ack := rest
        proposer := { s.proposer with cp := onTxack s.proposer.cp pl } } := by
  cases s
  cases h
  rfl

theorem TxInv.takeAck (h : TxInv s) (k : PlaneSinks) (now : Nat) :
    TxInv (txStep blake2b base s (.takeAck k now)) := by
  obtain ⟨hcp, hpending, -⟩ := txTakeAck_spec s.proposer k now
  have htake : (ctlplaneTakeTxack s.proposer.cp).1.txselSeqOut = s.proposer.cp.txselSeqOut ∧
      ((ctlplaneTakeTxack s.proposer.cp).1.txselWait = 0 ∨
        (ctlplaneTakeTxack s.proposer.cp).1.txselWait = s.proposer.cp.txselWait) ∧
      (ctlplaneTakeTxack s.proposer.cp).1.txackInPending = false := by
    unfold ctlplaneTakeTxack
    split_ifs with htaken
    · exact ⟨rfl, .inl rfl, rfl⟩
    · exact ⟨rfl, .inr rfl, by simpa using htaken⟩
  rw [txStep_takeAck]
  refine ⟨?_, ?_, h.sel, h.held, h.ack, ?_, ?_⟩
  · rw [hcp, htake.1]
    exact h.seqOut
  · rw [hcp, htake.1]
    rcases htake.2.1 with hzero | hsame
    · exact .inl hzero
    · rw [hsame]
      exact h.wait
  · rw [hcp, htake.2.2]
    intro hfalse
    cases hfalse
  · rw [hpending]
    exact h.newest

/-- A step of the proposer that neither states nor takes anything. -/
theorem TxInv.of_proposer (h : TxInv s) {pr : Peering} (hcp : pr.cp = s.proposer.cp)
    (hpending : pr.txPendingId = s.proposer.txPendingId) : TxInv { s with proposer := pr } where
  seqOut := by rw [hcp]; exact h.seqOut
  wait := by rw [hcp]; exact h.wait
  sel := h.sel
  held := h.held
  ack := h.ack
  taken := by rw [hcp]; exact h.taken
  newest := by rw [hpending]; exact h.newest

/-- A statement goes out under the next number. -/
theorem TxInv.stating (h : TxInv s) {pr : Peering} {m : TxMsg}
    (hroom : s.stated.length + 1 < 2 ^ 32) (hseq : m.seq = s.proposer.cp.txselSeqOut + 1)
    (hcp : pr.cp =
      { s.proposer.cp with
        txselSeqOut := s.proposer.cp.txselSeqOut + 1
        txselWait := s.proposer.cp.txselSeqOut + 1
        txackInPending := false })
    (hnewest : m.id = pr.txPendingId ↔ m.statement.forced = false) :
    TxInv
      { s with
        proposer := pr
        sel := s.sel ++ [ctlTxselEncode m]
        stated := s.stated ++ [m.statement] } := by
  have hsucc : (s.proposer.cp.txselSeqOut + 1).toNat = s.stated.length + 1 := by
    rw [UInt32.toNat_add, h.seqOut, UInt32.toNat_one]
    omega
  refine ⟨?_, ?_, ?_, ?_, ?_, ?_, ?_⟩
  · simp only [hcp, List.length_append, List.length_singleton]
    exact hsucc
  · simp only [hcp]
    exact .inr trivial
  · refine (h.sel.append_stated [m.statement]).concat ?_
    exact echoes_last m.statement (by rw [hseq, hsucc])
  · intro hheld
    exact (h.held hheld).append [m.statement]
  · exact h.ack.append_stated [m.statement]
  · simp only [hcp]
    intro hfalse
    cases hfalse
  · intro st hst
    rw [List.getLast?_append_of_ne_nil _ (by simp), List.getLast?_singleton] at hst
    rw [← Option.some.inj hst]
    exact hnewest

theorem TxInv.state (h : TxInv s) (ready : Bool) (now : Nat)
    (hfresh : ForcedFresh s (.state ready now)) :
    TxInv (txStep blake2b base s (.state ready now)) := by
  have hne : ready = true → s.proposer.cp.txselSeqOut + 1 ≠ 0 := by
    intro hready hzero
    have hsucc := congrArg UInt32.toNat hzero
    rw [UInt32.toNat_add, h.seqOut, UInt32.toNat_one, UInt32.toNat_zero] at hsucc
    have hroom := (hfresh hready).2
    omega
  rcases txState_cases s.proposer ready now hne with hquiet | ⟨hready, hcp, hsaid⟩
  · obtain ⟨hnone, hcp, hpending⟩ := hquiet
    have hstep : txStep blake2b base s (.state ready now) =
        { s with proposer := (txState s.proposer ready now).1 } := by
      simp [txStep_state, hnone]
    rw [hstep]
    exact h.of_proposer hcp hpending
  · obtain ⟨hforced, hroom⟩ := hfresh hready
    have hstep : ∀ m, (txState s.proposer ready now).2 = some (ctlTxselEncode m) →
        txStep blake2b base s (.state ready now) =
          { s with
            proposer := (txState s.proposer ready now).1
            sel := s.sel ++ [ctlTxselEncode m]
            stated := s.stated ++ [m.statement] } := by
      intro m hsent
      simp [txStep_state, hsent]
    rcases hsaid with ⟨carry, hcarry, hmoved, hsent, hpending⟩ | ⟨id, hsent, hpending⟩
    · -- forced: the carry is not the path proposed last
      have hfar : carry ≠ s.proposer.txPendingId := by
        rintro rfl
        rw [hforced hcarry] at hmoved
        cases hmoved
      rw [hstep _ hsent]
      refine h.stating hroom rfl hcp ?_
      rw [hpending]
      have hflag : ctlTxselForced ≠ 0 := by decide
      simp [TxMsg.statement, hflag, hfar]
    · -- a proposal: it is now the path proposed last
      rw [hstep _ hsent]
      refine h.stating hroom rfl hcp ?_
      rw [hpending]
      simp [TxMsg.statement]

theorem TxInv.confirm (h : TxInv s) (k : PlaneSinks) (ready : Bool) (now : Nat) :
    TxInv (txStep blake2b base s (.confirm k ready now)) := by
  obtain ⟨hcp, hsent⟩ := txConfirm_spec s.confirmer k ready now
  rw [txStep_confirm]
  refine ⟨h.seqOut, h.wait, h.sel, ?_, ?_, h.taken, h.newest⟩
  · rw [hcp]
    unfold ctlplaneTakeTxsel
    split_ifs with htaken
    · intro hfalse
      cases hfalse
    · exact h.held
  · rcases hsent with hnone | ⟨hpending, flags, hsent⟩
    · rw [hnone, Option.toList_none, List.append_nil]
      exact h.ack
    · rw [hsent, Option.toList_some]
      exact h.ack.concat (h.held hpending)

theorem TxInv.deliverSel (h : TxInv s) : TxInv (txStep blake2b base s .deliverSel) := by
  cases hsel : s.sel with
  | nil =>
      rw [txStep_deliverSel_nil hsel]
      exact h
  | cons pl rest =>
      obtain ⟨m, hm, hecho⟩ := h.sel pl (by rw [hsel]; exact List.mem_cons_self)
      have hrest : InFlight s.stated rest := by
        intro pl' hpl'
        exact h.sel pl' (by rw [hsel]; exact List.mem_cons_of_mem _ hpl')
      rw [txStep_deliverSel_cons hsel]
      exact ⟨h.seqOut, h.wait, hrest, onTxsel_held hm hecho h.held, h.ack, h.taken, h.newest⟩

theorem TxInv.deliverAck (h : TxInv s) : TxInv (txStep blake2b base s .deliverAck) := by
  cases hack : s.ack with
  | nil =>
      rw [txStep_deliverAck_nil hack]
      exact h
  | cons pl rest =>
      obtain ⟨m, hm, hecho⟩ := h.ack pl (by rw [hack]; exact List.mem_cons_self)
      have hrest : InFlight s.stated rest := by
        intro pl' hpl'
        exact h.ack pl' (by rw [hack]; exact List.mem_cons_of_mem _ hpl')
      rw [txStep_deliverAck_cons hack]
      rcases onTxack_cases s.proposer.cp hm with hsame | ⟨hwait, hseq, htaken⟩
      · rw [hsame]
        exact ⟨h.seqOut, h.wait, h.sel, h.held, hrest, h.taken, h.newest⟩
      · rw [htaken]
        refine ⟨h.seqOut, h.wait, h.sel, h.held, hrest, ?_, h.newest⟩
        intro _
        -- what is waited for is the newest statement, so the answer echoes that
        rcases h.wait with hzero | hnewest
        · exact absurd hzero hwait
        · exact hecho.last (by rw [hseq, hnewest, h.seqOut])

theorem TxInv.step (h : TxInv s) (ev : TxEvent) (hev : ForcedFresh s ev) :
    TxInv (txStep blake2b base s ev) := by
  cases ev with
  | proposerPlane ev => exact h.of_proposer rfl rfl
  | confirmerPlane ev =>
      exact ⟨h.seqOut, h.wait, h.sel, h.held, h.ack, h.taken, h.newest⟩
  | takeAck k now => exact h.takeAck k now
  | state ready now => exact h.state ready now hev
  | confirm k ready now => exact h.confirm k ready now
  | deliverSel => exact h.deliverSel
  | deliverAck => exact h.deliverAck

theorem txInit_inv : TxInv txInit where
  seqOut := rfl
  wait := .inl rfl
  sel := fun _ hpl => nomatch hpl
  held := fun h => nomatch h
  ack := fun _ hpl => nomatch hpl
  taken := fun h => nomatch h
  newest := fun _ hst => nomatch hst

/-! ## The law -/

theorem TxInv.ackLaw (h : TxInv s) (ev : TxEvent) : AckLaw blake2b base s ev := by
  cases ev with
  | deliverAck =>
      intro pl rest hack
      obtain ⟨m, hm, hecho⟩ := h.ack pl (by rw [hack]; exact List.mem_cons_self)
      refine ⟨m, hm, hecho, ?_⟩
      intro hold
      rw [txStep_deliverAck_cons hack]
      rcases onTxack_cases s.proposer.cp hm with hsame | ⟨hwait, hseq, -⟩
      · rw [hsame]
      · rcases h.wait with hzero | hnewest
        · exact absurd hzero hwait
        · exact absurd (by rw [hseq, hnewest, h.seqOut]) hold
  | takeAck k now =>
      intro id hid
      obtain ⟨hpending, hackid, hproposed⟩ := (txTakeAck_spec s.proposer k now).2.2 id hid
      obtain ⟨st, hlast, hstid⟩ := h.taken hpending
      have hst : st.id = id := hstid.trans hackid
      have hforced := (h.newest st hlast).mp (hst.trans hproposed)
      rw [hlast, ← hst, ← hforced]
  | _ => trivial

/-- In every run in which no forced statement names the path proposed last, an
answer to any statement but the newest changes nothing at the proposer, and it
pins a carrier on an answer only where the newest statement proposed that very
path. -/
theorem txRun_ackLaw (blake2b : Blake2b) (base : Bytes) (events : List TxEvent)
    (hfresh : EveryStep (txStep blake2b base) ForcedFresh txInit events) :
    EveryStep (txStep blake2b base) (AckLaw blake2b base) txInit events :=
  everyStep_of_guarded_invariant (I := TxInv) (fun _ ev h hev => h.step ev hev)
    (fun _ ev h _ => h.ackLaw ev) txInit_inv hfresh

/-- A probe sent at `sent` on the path to `::n` in a slot is answered `rtt` later,
echoing this end as `::me`. -/
def answered (slot : Slot) (me n : UInt8) (nonce : UInt64) (sent rtt : Nat) : List PlaneEvent :=
  [.tickSend [(slot, nonce)] sent,
   .apply openSinks { probeBare .pong nonce with haveTail := true, echo := testEp me } .routed
     (some (testAddr n)) none (sent + rtt)]

/-- The path to `::n` is entered, probed and answered. -/
def met (slot : Slot) (me n : UInt8) (nonce : UInt64) (sent rtt : Nat) : List PlaneEvent :=
  .addEp openSinks .routed (testAddr n) sent :: answered slot me n nonce sent rtt

/-- The path to `::2` carries and is stated as such, then the one to `::3` measures
better and is proposed. -/
def proposedMove : List TxEvent :=
  List.flatten
    [(met 0 1 2 11 0 100).map .proposerPlane,
     [.proposerPlane (.decide openSinks 100), .state true 100],
     (met 1 1 3 12 200 10).map .proposerPlane,
     [.state true 220]]

/-- The confirmer, `::3` to the proposer's `::1`, knows the path it is asked about
and says so. -/
def agreedMove : List TxEvent :=
  List.flatten
    [(met 0 3 1 13 200 10).map .confirmerPlane, proposedMove,
     [.deliverSel, .deliverSel, .confirm openSinks true 230, .deliverAck,
      .takeAck openSinks 240]]

/-- The answer to a proposal pins the path it proposed. -/
theorem txRun_ackLaw_agreedMove :
    EveryStep (txStep turnedHash []) ForcedFresh txInit agreedMove ∧
      EveryStep (txStep turnedHash []) (AckLaw turnedHash []) txInit agreedMove ∧
      (txTakeAck (run (txStep turnedHash []) txInit agreedMove.dropLast).proposer
        openSinks 240).2 = some (testId 3) := by
  have hfresh : EveryStep (txStep turnedHash []) ForcedFresh txInit agreedMove := by
    decide
  exact ⟨hfresh, txRun_ackLaw turnedHash [] agreedMove hfresh, by decide⟩

/-- The same proposal is refused, the confirmer not knowing the path yet.  Later
the path to `::2` goes cold and the escape route moves to the one to `::3`, which
is stated as made and obeyed.  Before the answer is read, that path dies and the
escape route is back on the other. -/
def escapedMove : List TxEvent :=
  List.flatten
    [proposedMove,
     [.deliverSel, .deliverSel, .confirm openSinks true 230, .deliverAck,
      .takeAck openSinks 240],
     (met 0 3 1 13 300 10).map .confirmerPlane,
     (answered 1 1 3 14 3500 10).map .proposerPlane,
     [.proposerPlane (.decide openSinks 4000), .state true 4000, .deliverSel,
      .confirm openSinks true 4010],
     (answered 0 1 2 15 11000 100).map .proposerPlane,
     [.proposerPlane (.decide openSinks 12000), .deliverAck]]

/-- The answer to the forced statement is read as consent to the old proposal of
the same path, and undoes the escape. -/
theorem ackLaw_fails_escapedMove :
    ¬∀ (blake2b : Blake2b) (base : Bytes) (events : List TxEvent),
      EveryStep (txStep blake2b base) (AckLaw blake2b base) txInit events := by
  intro h
  have hlaw := (h turnedHash [] (escapedMove ++ [TxEvent.takeAck openSinks 12000])).last
  have hnewest := hlaw (testId 3) (by decide)
  exact absurd hnewest (by decide)

end Carrier
end Comrade
