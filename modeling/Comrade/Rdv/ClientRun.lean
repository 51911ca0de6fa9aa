import Comrade.Lib.Run
import Comrade.Rdv.Client

/-!
# No answer is taken twice

A client's run is any list of calls: copies of the host place and of the turn
place in whatever order and number the store serves them, and the client's own
calls in between.  A statement is *consumed* when `rdv_client_own_slot` takes it
or `rdv_client_answer_unusable` spends it.

* `Marks` is what freshness rests on: the five numbers and the flag that the
  takeable test reads, with the host, the payloads and the state left out.
* `MarksStep` says what one call can do to the marks.
* `clientStep_marks` shows that every call is one of these moves.
* `clientConsumed_nodup` is the law over whole runs.
-/

namespace Comrade
namespace Rdv

open Lib

/-- One call into the client. -/
inductive ClientOp where
  | hostSlot (m : RdvMsg) (seq : Int)
  | ownSlot (m : RdvMsg)
  | answerUnusable (m : RdvMsg)
  | next (offer : Bytes)
  | askGone (seq : Int)
  | reask
  | identChanged
  | setLive (live : Bool)

/-- The client after one call. -/
def clientStep (c : RdvClient) : ClientOp → RdvClient
  | .hostSlot m seq => (rdvClientHostSlot c m seq).1
  | .ownSlot m => (rdvClientOwnSlot c m).1
  | .answerUnusable m => rdvClientAnswerUnusable c m
  | .next offer => (rdvClientNext c offer).1
  | .askGone seq => rdvClientAskGone c seq
  | .reask => rdvClientReask c
  | .identChanged => rdvClientIdentChanged c
  | .setLive live => rdvClientSetLive c live

/-- What makes two copies the same statement. -/
structure Statement where
  frm : Cid
  dst : Cid
  seq : UInt32
  re : UInt32
  deriving DecidableEq, Repr

/-- The statement a message carries. -/
def RdvMsg.statement (m : RdvMsg) : Statement :=
  { frm := m.frm, dst := m.dst, seq := m.seq, re := m.re }

/-- The statement that a call takes or spends, if it does. -/
def clientConsumes (c : RdvClient) : ClientOp → Option Statement
  | .ownSlot m => if (rdvClientOwnSlot c m).2 = true then some m.statement else none
  | .answerUnusable m => if rdvClientWouldTake c m = true then some m.statement else none
  | _ => none

/-- Does a call draw a fresh offer number? -/
def clientDraws (c : RdvClient) : ClientOp → Option Unit
  | .next offer =>
      if rdvClientMayAsk c offer = true ∧ offerStands c offer = false then some () else none
  | _ => none

/-- The statements consumed over a run, oldest first. -/
def clientConsumed (c : RdvClient) (ops : List ClientOp) : List Statement :=
  observe clientStep clientConsumes c ops

/-- The number of offer numbers drawn over a run. -/
def clientDrawn (c : RdvClient) (ops : List ClientOp) : Nat :=
  (observe clientStep clientDraws c ops).length

/-! ## The marks and their moves -/

/-- The part of a client that decides whether a statement is fresh. -/
structure Marks where
  seq : UInt32
  offerSeq : UInt32
  prevOfferSeq : UInt32
  answerSeq : UInt32
  haveAnswerSeq : Bool

/-- The marks of a client. -/
def RdvClient.marks (c : RdvClient) : Marks where
  seq := c.seq
  offerSeq := c.offerSeq
  prevOfferSeq := c.prevOfferSeq
  answerSeq := c.answerSeq
  haveAnswerSeq := c.haveAnswerSeq

/-- What one call can do to the marks, with the statement it consumes and
whether it draws a number. -/
inductive MarksStep (k : Marks) : Marks → Option Statement → Option Unit → Prop
  | keep : MarksStep k k none none
  | forgetPrev : MarksStep k { k with prevOfferSeq := 0 } none none
  | hostMoved (have' : Bool) :
      MarksStep k { k with offerSeq := 0, haveAnswerSeq := have' } none none
  | draw :
      MarksStep k
        { k with seq := k.seq + 1, offerSeq := k.seq + 1, prevOfferSeq := k.offerSeq }
        none (some ())
  | take (st : Statement) (hasked : k.offerSeq ≠ 0)
      (hre : st.re = k.offerSeq ∨ (k.prevOfferSeq ≠ 0 ∧ st.re = k.prevOfferSeq))
      (hseq : k.haveAnswerSeq = true → k.answerSeq < st.seq) :
      MarksStep k { k with answerSeq := st.seq, haveAnswerSeq := true } (some st) none

theorem marksStep_take {c : RdvClient} {m : RdvMsg} (h : rdvClientWouldTake c m = true) :
    MarksStep c.marks { c.marks with answerSeq := m.seq, haveAnswerSeq := true }
      (some m.statement) none := by
  obtain ⟨-, -, -, hasked, hre, hseq⟩ := (rdvClientWouldTake_iff c m).mp h
  exact MarksStep.take m.statement hasked hre hseq

theorem clientCopyActs_marks (c : RdvClient) (m : RdvMsg) (seq : Int) :
    (clientCopyActs c m seq).1.marks = c.marks := by
  unfold clientCopyActs
  split_ifs <;> rfl

theorem hostSlot_marks (c : RdvClient) (m : RdvMsg) (seq : Int) :
    MarksStep c.marks (rdvClientHostSlot c m seq).1.marks none none := by
  have hmarks := clientCopyActs_marks c m seq
  unfold rdvClientHostSlot
  generalize clientCopyActs c m seq = copy at hmarks ⊢
  obtain ⟨c', acts⟩ := copy
  rw [← hmarks]
  by_cases hkind : m.kind ≠ .tomb ∧ m.kind ≠ .hostinfo
  · rw [if_pos hkind, hmarks]
    exact .keep
  · rw [if_neg hkind]
    by_cases hfrm : m.frm = rdvZero
    · rw [if_pos hfrm, hmarks]
      exact .keep
    · rw [if_neg hfrm]
      cases acts with
      | false => exact .keep
      | true =>
          dsimp only
          split_ifs
          · exact .keep
          · exact .keep
          · exact .hostMoved false
          · exact .hostMoved c'.haveAnswerSeq

/-- `rdv_client_own_slot` reports a take exactly when the statement is takeable. -/
theorem rdvClientOwnSlot_snd (c : RdvClient) (m : RdvMsg) :
    (rdvClientOwnSlot c m).2 = rdvClientWouldTake c m := by
  unfold rdvClientOwnSlot
  by_cases htake : rdvClientWouldTake c m = true
  · rw [if_neg (by simp [htake]), htake]
    dsimp only
    split_ifs <;> rfl
  · rw [if_pos (by simpa using htake)]
    simpa using htake

theorem ownSlot_marks (c : RdvClient) (m : RdvMsg) :
    MarksStep c.marks (rdvClientOwnSlot c m).1.marks
      (if rdvClientWouldTake c m = true then some m.statement else none) none := by
  unfold rdvClientOwnSlot
  by_cases htake : rdvClientWouldTake c m = true
  · rw [if_neg (by simp [htake]), if_pos htake]
    dsimp only
    split_ifs <;> exact marksStep_take htake
  · rw [if_pos (by simpa using htake), if_neg htake]
    exact .keep

theorem answerUnusable_marks (c : RdvClient) (m : RdvMsg) :
    MarksStep c.marks (rdvClientAnswerUnusable c m).marks
      (if rdvClientWouldTake c m = true then some m.statement else none) none := by
  unfold rdvClientAnswerUnusable
  by_cases htake : rdvClientWouldTake c m = true
  · rw [if_neg (by simp [htake]), if_pos htake]
    exact marksStep_take htake
  · rw [if_pos (by simpa using htake), if_neg htake]
    exact .keep

/-- Whether or not the message encodes, the marks after `rdv_client_next` are
those `offer_seq` left. -/
theorem rdvClientNext_marks (c : RdvClient) (offer : Bytes) :
    (rdvClientNext c offer).1.marks =
      if rdvClientMayAsk c offer = true then (offerSeq c offer).marks else c.marks := by
  unfold rdvClientNext
  by_cases hask : rdvClientMayAsk c offer = true
  · rw [if_neg (by simp [hask]), if_pos hask]
    dsimp only
    split <;> rfl
  · rw [if_pos (by simpa using hask), if_neg hask]

theorem next_marks (c : RdvClient) (offer : Bytes) :
    MarksStep c.marks (rdvClientNext c offer).1.marks none
      (if rdvClientMayAsk c offer = true ∧ offerStands c offer = false
        then some () else none) := by
  rw [rdvClientNext_marks]
  by_cases hask : rdvClientMayAsk c offer = true
  · rw [if_pos hask, offerSeq]
    by_cases hstands : offerStands c offer = true
    · rw [if_pos hstands, if_neg (by simp [hstands])]
      exact .keep
    · rw [if_neg hstands, if_pos ⟨hask, by simpa using hstands⟩]
      exact .draw
  · rw [if_neg hask, if_neg (by simp [hask])]
    exact .keep

/-- Every call is one of the moves. -/
theorem clientStep_marks (c : RdvClient) (op : ClientOp) :
    MarksStep c.marks (clientStep c op).marks (clientConsumes c op) (clientDraws c op) := by
  cases op with
  | hostSlot m seq => exact hostSlot_marks c m seq
  | ownSlot m =>
      simp only [clientConsumes, rdvClientOwnSlot_snd]
      exact ownSlot_marks c m
  | answerUnusable m => exact answerUnusable_marks c m
  | next offer => exact next_marks c offer
  | askGone seq =>
      simp only [clientStep, rdvClientAskGone]
      split_ifs <;> exact .keep
  | reask => exact .keep
  | identChanged => exact .forgetPrev
  | setLive live => exact .keep

/-! ## Nothing is asked before a host is met -/

/-- An offer stands only with a host that it was made to. -/
def AskedHost (c : RdvClient) : Prop := c.offerSeq ≠ 0 → c.haveHost = true

theorem hostSlot_askedHost {c : RdvClient} (h : AskedHost c) (m : RdvMsg) (seq : Int) :
    AskedHost (rdvClientHostSlot c m seq).1 := by
  have hcopy : AskedHost (clientCopyActs c m seq).1 := by
    unfold clientCopyActs
    split_ifs
    · exact h
    · exact h
    · exact h
  unfold rdvClientHostSlot
  generalize clientCopyActs c m seq = copy at hcopy ⊢
  obtain ⟨c', acts⟩ := copy
  by_cases hkind : m.kind ≠ .tomb ∧ m.kind ≠ .hostinfo
  · rw [if_pos hkind]
    exact h
  · rw [if_neg hkind]
    by_cases hfrm : m.frm = rdvZero
    · rw [if_pos hfrm]
      exact h
    · rw [if_neg hfrm]
      cases acts with
      | false => exact hcopy
      | true =>
          dsimp only
          split_ifs
          · exact hcopy
          · exact hcopy
          all_goals
            intro _
            rfl

theorem next_askedHost {c : RdvClient} (h : AskedHost c) (offer : Bytes) :
    AskedHost (rdvClientNext c offer).1 := by
  unfold rdvClientNext
  by_cases hask : rdvClientMayAsk c offer = true
  · rw [if_neg (by simp [hask])]
    have hhost : c.haveHost = true := by
      simp only [rdvClientMayAsk, Bool.and_eq_true] at hask
      exact hask.1.2
    have hoffer : (offerSeq c offer).haveHost = true := by
      unfold offerSeq
      split_ifs
      · exact hhost
      · exact hhost
    dsimp only
    split
    · exact fun _ => hoffer
    · exact fun _ => hoffer
  · rw [if_pos (by simpa using hask)]
    exact h

theorem clientStep_askedHost {c : RdvClient} (h : AskedHost c) (op : ClientOp) :
    AskedHost (clientStep c op) := by
  cases op with
  | hostSlot m seq => exact hostSlot_askedHost h m seq
  | ownSlot m =>
      simp only [clientStep, rdvClientOwnSlot]
      split_ifs
      · exact h
      · exact h
      · exact h
  | answerUnusable m =>
      simp only [clientStep, rdvClientAnswerUnusable]
      split_ifs
      · exact h
      · exact h
  | next offer => exact next_askedHost h offer
  | askGone seq =>
      simp only [clientStep, rdvClientAskGone]
      split_ifs
      · exact h
      · exact h
      · exact h
  | reask => exact h
  | identChanged => exact h
  | setLive live => exact h

/-- A client that calls alone have brought about has met the host it asks. -/
theorem clientRun_askedHost (cid : Cid) (ops : List ClientOp) :
    AskedHost (run clientStep (rdvClientInit cid) ops) := by
  have hinit : AskedHost (rdvClientInit cid) := fun h => absurd rfl h
  refine run_invariant (I := AskedHost) ?_ hinit ops
  intro c op h
  exact clientStep_askedHost h op

/-! ## The freshness invariant -/

/-- A statement that the marks will not let through again: an answer at least
as new was taken from this host, or nothing is asked, or it names an offer
older than both that an answer may name. -/
def Marks.Spent (k : Marks) (st : Statement) : Prop :=
  (k.haveAnswerSeq = true ∧ st.seq.toNat ≤ k.answerSeq.toNat) ∨
    k.offerSeq = 0 ∨
    (st.re.toNat < k.offerSeq.toNat ∧
      (k.prevOfferSeq = 0 ∨ st.re.toNat < k.prevOfferSeq.toNat))

/-- The invariant of a run: offers are numbered upwards with `left` numbers
still to be drawn, and what was consumed is spent. -/
structure Fresh (k : Marks) (left : Nat) (seen : List Statement) : Prop where
  offerSeq_le : k.offerSeq.toNat ≤ k.seq.toNat
  prevOfferSeq_le : k.prevOfferSeq.toNat ≤ k.seq.toNat
  room : k.seq.toNat + left < 2 ^ 32
  re_le : ∀ st ∈ seen, st.re.toNat ≤ k.seq.toNat
  spent : ∀ st ∈ seen, k.Spent st

/-- A statement the marks let through was not consumed before. -/
theorem Marks.Spent.ne_of_take {k k' : Marks} {st old : Statement} {d : Option Unit}
    (hold : k.Spent old) (h : MarksStep k k' (some st) d) : old ≠ st := by
  rintro rfl
  cases h with
  | take _ hasked hre hseq =>
      rcases hold with ⟨hhave, hle⟩ | hzero | ⟨hlt, hprev⟩
      · have hnew := UInt32.lt_iff_toNat_lt.mp (hseq hhave)
        omega
      · exact hasked hzero
      · rcases hre with hre | ⟨hprev0, hre⟩
        · rw [hre] at hlt
          omega
        · rcases hprev with hprev | hprev
          · exact hprev0 hprev
          · rw [hre] at hprev
            omega

/-- Each move keeps what was consumed spent, and spends what it consumes. -/
theorem Fresh.step {k k' : Marks} {o : Option Statement} {d : Option Unit} {left : Nat}
    {seen : List Statement} (h : Fresh k (d.toList.length + left) seen)
    (hmove : MarksStep k k' o d) : Fresh k' left (seen ++ o.toList) := by
  obtain ⟨hoffer, hprev, hroom, hre, hspent⟩ := h
  cases hmove with
  | keep =>
      exact ⟨hoffer, hprev, by simpa using hroom, by simpa using hre, by simpa using hspent⟩
  | forgetPrev =>
      refine ⟨hoffer, by simp, by simpa using hroom, by simpa using hre, ?_⟩
      intro st hst
      rcases hspent st (by simpa using hst) with h | h | h
      · exact .inl h
      · exact .inr (.inl h)
      · exact .inr (.inr ⟨h.1, .inl rfl⟩)
  | hostMoved have' =>
      -- nothing is asked of the new host yet, which spends everything at once
      refine ⟨by simp, hprev, by simpa using hroom, by simpa using hre, ?_⟩
      intro st hst
      exact .inr (.inl rfl)
  | draw =>
      -- the one place where the budget of numbers is used: the draw does not wrap
      have hsucc : (k.seq + 1).toNat = k.seq.toNat + 1 := by
        rw [UInt32.toNat_add]
        simp only [Option.toList_some, List.length_singleton, UInt32.toNat_one] at hroom ⊢
        omega
      refine ⟨le_rfl, ?_, ?_, ?_, ?_⟩
      · dsimp only
        omega
      · simp only [Option.toList_some, List.length_singleton] at hroom
        dsimp only
        omega
      · intro st hst
        have := hre st (by simpa using hst)
        dsimp only
        omega
      · intro st hst
        have hst' : st ∈ seen := by simpa using hst
        have hlast := hre st hst'
        -- what named the standing offer now names the one before it at most
        rcases hspent st hst' with h | h | h
        · exact .inl h
        · exact .inr (.inr ⟨by dsimp only; omega, .inl h⟩)
        · exact .inr (.inr ⟨by dsimp only; omega, .inr h.1⟩)
  | take st hasked hre' hseq =>
      refine ⟨hoffer, hprev, by simpa using hroom, ?_, ?_⟩
      · intro old hmem
        rw [Option.toList_some, List.mem_append, List.mem_singleton] at hmem
        rcases hmem with hmem | rfl
        · exact hre old hmem
        · rcases hre' with h | ⟨-, h⟩ <;> rw [h]
          · exact hoffer
          · exact hprev
      · intro old hmem
        rw [Option.toList_some, List.mem_append, List.mem_singleton] at hmem
        rcases hmem with hmem | rfl
        · rcases hspent old hmem with h | h | h
          · have hnew := UInt32.lt_iff_toNat_lt.mp (hseq h.1)
            exact .inl ⟨rfl, by dsimp only; omega⟩
          · exact absurd h hasked
          · exact .inr (.inr h)
        · exact .inl ⟨rfl, le_rfl⟩

/-! ## Whole runs -/

/-- From a fresh client, whatever copies the store serves and however often,
no statement is consumed twice, as long as the offer numbers do not wrap. -/
theorem clientConsumed_nodup (cid : Cid) (ops : List ClientOp)
    (hdrawn : clientDrawn (rdvClientInit cid) ops < 2 ^ 32) :
    (clientConsumed (rdvClientInit cid) ops).Nodup := by
  have hinit : Fresh (rdvClientInit cid).marks (clientDrawn (rdvClientInit cid) ops) [] := by
    refine ⟨le_rfl, le_rfl, ?_, by simp, by simp⟩
    have hzero : (rdvClientInit cid).marks.seq.toNat = 0 := rfl
    omega
  have hpair :
      ([] ++ observe clientStep clientConsumes (rdvClientInit cid) ops).Pairwise (· ≠ ·) := by
    refine observe_pairwise (I := fun c rest seen => Fresh c.marks (clientDrawn c rest) seen)
      ?_ ?_ hinit List.Pairwise.nil
    · intro c op rest seen h
      refine Fresh.step (d := clientDraws c op) ?_ (clientStep_marks c op)
      simpa [clientDrawn] using h
    · intro c op rest seen st h hobs old hold
      have hmove := clientStep_marks c op
      rw [hobs] at hmove
      exact (h.spent old hold).ne_of_take hmove
  rw [List.nil_append] at hpair
  exact hpair

/-- A message of a given kind between two instances. -/
def testMsg (kind : RdvKind) (frm dst : Cid) (seq re : UInt32) : RdvMsg :=
  { kind := kind, gen := 1, frm := frm, dst := dst, seq := seq, re := re, payload := [7] }

/-- A host that goes A, B, A while its first answer keeps being served. -/
def returningHost : List ClientOp :=
  let me : Cid := Vector.replicate 8 1
  let a : Cid := Vector.replicate 8 2
  let b : Cid := Vector.replicate 8 3
  let answer := testMsg .answer a me 4 1
  [.hostSlot (testMsg .hostinfo a rdvZero 3 0) 10, .next [5], .ownSlot answer, .ownSlot answer,
   .hostSlot (testMsg .hostinfo b rdvZero 1 0) 11, .next [5],
   .hostSlot (testMsg .hostinfo a rdvZero 5 0) 12, .ownSlot answer, .next [5],
   .answerUnusable answer, .reask, .next [5], .ownSlot answer]

theorem clientConsumed_nodup_returningHost :
    clientDrawn (rdvClientInit (Vector.replicate 8 1)) returningHost = 4 ∧
    (clientConsumed (rdvClientInit (Vector.replicate 8 1)) returningHost).length = 1 ∧
    (clientConsumed (rdvClientInit (Vector.replicate 8 1)) returningHost).Nodup := by
  have hdrawn : clientDrawn (rdvClientInit (Vector.replicate 8 1)) returningHost = 4 := by
    decide
  refine ⟨hdrawn, by decide, clientConsumed_nodup _ _ ?_⟩
  rw [hdrawn]
  norm_num

end Rdv
end Comrade
