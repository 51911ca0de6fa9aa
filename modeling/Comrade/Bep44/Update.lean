import Comrade.Bep44.LookupRun
import Comrade.Bep44.Put

/-!
# An update against its holders

An update looks a mutable item up, lets its caller merge a new value from the
best copy found, and stores it on the nodes that handed out a token.  One value
and one sequence go to all of them; the `cas` of each put is what that node was
seen to hold (`node_cas`).

* `putReq` is what `handle_put` reads out of the put for a node.
* `SeqNoted` holds of every lookup: what a node was noted to hold is no newer
  than the best copy.
* `updatePuts_accepted_iff`: the puts of an update pass the `cas` and sequence
  rules of the nodes they go to, unless the merge left the best copy as it was
  and a node holds other bytes under the same sequence.
-/

namespace Comrade
namespace Bep44

open Lib Bencode

variable {cap : Nat}

/-- The operation that `update_store` begins to store with, for the merged value
`nv`. -/
def updatePut (op : B44Op) (nv : Bytes) : B44Op :=
  { op with
    value := nv
    seq := storeSeq op.haveBest op.bestSeq op.best nv
    cas := if op.haveBest = true then op.bestSeq else -1
    isPut := true }

/-- What `handle_put` reads out of the put for a node; `sig` is what was signed. -/
def putReq (op : B44Op) (n : B44Node) (sig : Bytes) : PutReq where
  isMutable := true
  target := op.target
  k := op.pk
  sig := sig
  salt := op.salt
  seq := op.seq
  cas := if nodeCas n op.cas ≥ 0 then some (nodeCas n op.cas) else none
  v := op.value

/-- A merge that is stored is stored by `updatePut`. -/
theorem updateStore_eq {op : B44Op} {env : LookupEnv} {nv : Bytes}
    (hmerge : env.merge (if op.haveBest = true then some op.best else none)
      (if op.haveBest = true then op.bestSeq else -1) = some nv)
    (hlen : nv ≠ [] ∧ nv.length ≤ bep44MaxValue)
    (hseq : 0 ≤ storeSeq op.haveBest op.bestSeq op.best nv) :
    updateStore op env = storeOrFinish (updatePut op nv) env := by
  unfold updateStore
  rw [hmerge]
  dsimp only
  rw [if_neg (by rintro (h | h); exacts [hlen.1 h, absurd hlen.2 (by omega)]), if_neg (by omega)]
  rfl

/-! ## What a lookup notes -/

/-- What a lookup knows of the copies: the best one, and each node's. -/
structure Notes where
  isImmutable : Bool
  haveBest : Bool
  bestSeq : Int
  nodes : List B44Node

/-- The notes of an operation. -/
def B44Op.notes (op : B44Op) : Notes where
  isImmutable := op.isImmutable
  haveBest := op.haveBest
  bestSeq := op.bestSeq
  nodes := op.nodes

/-- What each node was noted to hold is no newer than the best copy. -/
structure SeqNoted (k : Notes) : Prop where
  isMutable : k.isImmutable = false
  noted : ∀ n ∈ k.nodes, ∀ seq, n.seq = some seq → 0 ≤ seq ∧ k.haveBest = true ∧ seq ≤ k.bestSeq

/-- What leaves the best copy alone, and notes nothing new about a node. -/
structure NotesFrame (k k' : Notes) : Prop where
  isImmutable_eq : k'.isImmutable = k.isImmutable
  haveBest_eq : k'.haveBest = k.haveBest
  bestSeq_eq : k'.bestSeq = k.bestSeq
  nodes : ∀ n' ∈ k'.nodes, n'.seq = none ∨ ∃ n ∈ k.nodes, n.seq = n'.seq

theorem NotesFrame.refl (k : Notes) : NotesFrame k k :=
  ⟨rfl, rfl, rfl, fun n hn => .inr ⟨n, hn, rfl⟩⟩

theorem NotesFrame.trans {k k' k'' : Notes} (h : NotesFrame k k') (h' : NotesFrame k' k'') :
    NotesFrame k k'' := by
  refine ⟨h'.isImmutable_eq.trans h.isImmutable_eq, h'.haveBest_eq.trans h.haveBest_eq,
    h'.bestSeq_eq.trans h.bestSeq_eq, ?_⟩
  intro n'' hn''
  rcases h'.nodes n'' hn'' with hnone | ⟨n', hn', heq'⟩
  · exact .inl hnone
  · rcases h.nodes n' hn' with hnone | ⟨n, hn, heq⟩
    · exact .inl (heq' ▸ hnone)
    · exact .inr ⟨n, hn, heq.trans heq'⟩

theorem SeqNoted.frame {k k' : Notes} (h : SeqNoted k) (hframe : NotesFrame k k') :
    SeqNoted k' := by
  refine ⟨hframe.isImmutable_eq.trans h.isMutable, ?_⟩
  intro n' hn' seq hseq
  rw [hframe.haveBest_eq, hframe.bestSeq_eq]
  rcases hframe.nodes n' hn' with hnone | ⟨n, hn, heq⟩
  · rw [hnone] at hseq
    cases hseq
  · exact h.noted n hn seq (heq.trans hseq)

/-- A change to one node that is not to what it was noted to hold. -/
theorem setNode_frame (op : B44Op) (i : Nat) {f : B44Node → B44Node}
    (hf : ∀ n, (f n).seq = n.seq) : NotesFrame op.notes (op.setNode i f).notes := by
  refine ⟨rfl, rfl, rfl, ?_⟩
  intro n' hn'
  obtain ⟨j, hj, rfl⟩ := List.mem_iff_getElem.mp hn'
  right
  have hj' : j < op.nodes.length := by
    simpa [B44Op.notes, B44Op.setNode, List.length_modify] using hj
  refine ⟨op.nodes[j], List.getElem_mem hj', ?_⟩
  simp only [B44Op.notes, B44Op.setNode, List.getElem_modify]
  split_ifs
  · exact (hf _).symm
  · rfl

theorem setState_frame (op : B44Op) (i : Nat) (st : NodeState) :
    NotesFrame op.notes (op.setState i st).notes := setNode_frame op i fun _ => rfl

/-- A loop whose every step leaves the notes alone does so as a whole. -/
theorem foldl_frame {σ α : Type} {k : σ → Notes} {f : σ → α → σ}
    (hf : ∀ s a, NotesFrame (k s) (k (f s a))) (l : List α) (s : σ) :
    NotesFrame (k s) (k (l.foldl f s)) := by
  induction l generalizing s with
  | nil => exact .refl _
  | cons a l ih => exact (hf s a).trans (ih (f s a))

theorem nodeInsert_frame (op : B44Op) (id : Option Id20) (ss : NodeAddr) (pinned : Bool) :
    NotesFrame op.notes (nodeInsert op id ss pinned).1.notes := by
  rcases nodeInsert_cases op id ss pinned with hsame | ⟨-, -, -, hput⟩
  · rw [hsame]
    exact .refl _
  · rw [hput]
    refine ⟨rfl, rfl, rfl, ?_⟩
    intro n' hn'
    rcases List.eq_or_mem_of_mem_insertIdx hn' with rfl | hkept
    · exact .inl rfl
    · exact .inr ⟨n', (keptNodes_sublist op.nodes).subset hkept, rfl⟩

theorem nodesCompactAdd_frame (op : B44Op) (data : Bytes) (af : Family) :
    NotesFrame op.notes (nodesCompactAdd op data af).notes := by
  unfold nodesCompactAdd
  exact foldl_frame (fun op i => nodeInsert_frame op _ _ false) _ op

theorem querySend_frame (op : B44Op) (node : Nat) (st : NodeState) (env : LookupEnv)
    (msg : B44Op → B44Node → UInt16 → Option Bytes) :
    NotesFrame op.notes (querySend op node st env msg).1.notes := by
  unfold querySend
  split
  · exact .refl _
  · unfold reqAlloc
    cases firstSlot op.reqs fun r => !r.inUse with
    | none => exact .refl _
    | some r =>
        dsimp only [Option.map_some]
        split
        · exact .refl _
        · split_ifs
          · exact setState_frame op node st
          · exact setState_frame op node .failed

theorem storeStep_frame (env : LookupEnv) (s : StoreScan) (i : Nat) :
    NotesFrame s.op.notes (storeStep env s i).op.notes := by
  unfold storeStep
  split
  · exact .refl _
  · rename_i n _
    split_ifs
    · exact .refl _
    · exact .refl _
    · let op : B44Op := { s.op with e := (nodeBudgetOk s.op.e n.ss env.now).1 }
      have hput : NotesFrame op.notes (putSend op i env).1.notes :=
        querySend_frame op i .storeInflight env _
      unfold storePut
      dsimp only
      split_ifs
      · exact .refl _
      · exact hput
      · exact hput

theorem storeOrFinish_frame (op : B44Op) (env : LookupEnv) :
    NotesFrame op.notes (storeOrFinish op env).notes := by
  have hstart : NotesFrame op.notes (storeStart op env).1.notes := by
    unfold storeStart
    exact foldl_frame (k := fun s : StoreScan => s.op.notes) (storeStep_frame env) _
      { op := { op with phase := .store, storeDeferred := false }, sent := 0, s4 := 0, s6 := 0,
        stop := false }
  unfold storeOrFinish
  dsimp only
  split_ifs
  · exact hstart
  · exact hstart

theorem updateStore_frame (op : B44Op) (env : LookupEnv) :
    NotesFrame op.notes (updateStore op env).notes := by
  unfold updateStore
  split
  · exact .refl _
  · rename_i nv _
    dsimp only
    split
    · exact .refl _
    · split
      · exact .refl _
      · exact storeOrFinish_frame (updatePut op nv) env

theorem reqStep_frame (now : Nat) (s : StepScan) (r : ReqSlot) :
    NotesFrame s.op.notes (reqStep now s r).op.notes := by
  unfold reqStep
  dsimp only
  split_ifs
  · exact .refl _
  · exact setState_frame _ _ .failed
  · exact .refl _

theorem askStep_frame (env : LookupEnv) (s : StepScan) (i : Nat) :
    NotesFrame s.op.notes (askStep env s i).op.notes := by
  unfold askStep
  split
  · exact .refl _
  · rename_i n _
    split_ifs
    · exact .refl _
    · unfold StepScan.answer
      split_ifs
      · exact .refl _
      · exact .refl _
    · let op : B44Op := { s.op with e := (nodeBudgetOk s.op.e n.ss env.now).1 }
      have hget : NotesFrame op.notes (getSend op i env).1.notes :=
        querySend_frame op i _ env _
      unfold askNode
      dsimp only
      split_ifs
      · exact .refl _
      · exact hget
      · exact hget

theorem opStep_frame (op : B44Op) (env : LookupEnv) :
    NotesFrame op.notes (opStep op env).notes := by
  unfold opStep
  by_cases htime : env.now - op.startMs > b44OpTimeoutMs
  · rw [if_pos htime]
    exact .refl _
  rw [if_neg htime]
  have hreqs : NotesFrame op.notes ((List.finRange b44ReqsMax).foldl (reqStep env.now)
      { op := op, inflight := 0, if4 := 0, if6 := 0, deferred := 0, answered := 0,
        stop := false }).op.notes :=
    foldl_frame (k := fun s : StepScan => s.op.notes) (reqStep_frame env.now) _
      { op := op, inflight := 0, if4 := 0, if6 := 0, deferred := 0, answered := 0, stop := false }
  generalize (List.finRange b44ReqsMax).foldl (reqStep env.now) _ = s at hreqs ⊢
  have hask : NotesFrame op.notes
      ((List.range s.op.nodes.length).foldl (askStep env) s).op.notes :=
    hreqs.trans (foldl_frame (k := fun s : StepScan => s.op.notes) (askStep_frame env) _ _)
  cases op.phase with
  | lookup =>
      dsimp only
      generalize (List.range s.op.nodes.length).foldl (askStep env) s = s' at hask ⊢
      split_ifs
      · exact hask
      · exact hask.trans (updateStore_frame s'.op env)
      · exact hask
      · exact hask.trans (storeOrFinish_frame s'.op env)
  | store =>
      dsimp only
      split_ifs
      · exact hreqs
      · exact hreqs.trans (storeOrFinish_frame s.op env)
      · exact hreqs

/-! ## What a reply notes -/

theorem recordBestNode_notes (op : B44Op) (src : Option NodeAddr) :
    (recordBestNode op src).notes = op.notes := by
  unfold recordBestNode
  split
  · rfl
  · split_ifs <;> rfl

/-- A copy that checks out is noted for its node, and is the best or no newer. -/
theorem noteCopy_noted {op : B44Op} (h : SeqNoted op.notes) (i : Nat) {seq : Int} (hpos : 0 ≤ seq)
    (v : Bytes) (src : Option NodeAddr) :
    let op' := op.setNode i fun n => { n with seq := some seq }
    SeqNoted (if op'.haveBest = true ∧ seq ≤ op'.bestSeq then recordBestNode op' src
      else takeBest op' v seq src).notes := by
  intro op'
  -- a node is the one that answered, or was noted before
  have hnodes : ∀ n ∈ op'.nodes, ∀ s, n.seq = some s →
      s = seq ∨ (0 ≤ s ∧ op.haveBest = true ∧ s ≤ op.bestSeq) := by
    intro n hn s hs
    obtain ⟨j, hj, rfl⟩ := List.mem_iff_getElem.mp hn
    have hj' : j < op.nodes.length := by
      simpa [op', B44Op.setNode, List.length_modify] using hj
    simp only [op', B44Op.setNode, List.getElem_modify] at hs
    split_ifs at hs
    · exact .inl (Option.some.inj hs).symm
    · exact .inr (h.noted _ (List.getElem_mem hj') s hs)
  by_cases hold : op'.haveBest = true ∧ seq ≤ op'.bestSeq
  · rw [if_pos hold, recordBestNode_notes]
    refine ⟨h.isMutable, ?_⟩
    intro n hn s hs
    rcases hnodes n hn s hs with rfl | hnoted
    · exact ⟨hpos, hold.1, hold.2⟩
    · exact hnoted
  · rw [if_neg hold, takeBest, recordBestNode_notes]
    refine ⟨h.isMutable, ?_⟩
    intro n hn s hs
    rcases hnodes n hn s hs with rfl | ⟨hs0, hhave, hle⟩
    · exact ⟨hpos, rfl, le_rfl⟩
    · refine ⟨hs0, rfl, ?_⟩
      have hnewer : op.bestSeq < seq := by
        by_contra hnot
        exact hold ⟨hhave, not_lt.mp hnot⟩
      exact hle.trans hnewer.le

theorem valueCheck_noted (C : Crypto) {op : B44Op} (h : SeqNoted op.notes) (i : Nat)
    (src : Option NodeAddr) (rdict : Bytes) : SeqNoted (valueCheck C op i src rdict).notes := by
  have himm : op.isImmutable = false := h.isMutable
  unfold valueCheck
  cases bencDictFind rdict (ascii ['v']) with
  | none => exact h
  | some v =>
      dsimp only
      by_cases hlong : v.length > bep44MaxValue
      · rw [if_pos hlong]
        exact h
      rw [if_neg hlong, if_neg (by simp [himm])]
      split
      · rename_i k sig seq _ _ _
        by_cases hbad : k.length ≠ 32 ∨ k ≠ op.pk ∨ sig.length ≠ 64 ∨ seq < 0
        · rw [if_pos hbad]
          exact h
        rw [if_neg hbad]
        have hpos : 0 ≤ seq := by
          by_contra hneg
          exact hbad (.inr (.inr (.inr (by omega))))
        cases sigBufferN (bep44MaxValue + 128) op.salt seq v with
        | none => exact h
        | some text =>
            dsimp only
            by_cases hsig : C.ed25519Check sig op.pk text = false
            · rw [if_pos hsig]
              exact h
            · rw [if_neg hsig]
              exact noteCopy_noted h i hpos v src
      · exact h

theorem keepToken_frame (op : B44Op) (i : Nat) (rdict : Bytes) :
    NotesFrame op.notes (keepToken op i rdict).notes := by
  unfold keepToken
  split
  · exact .refl _
  · split_ifs
    · exact setNode_frame op i fun _ => rfl
    · exact .refl _

theorem mergeNodes_frame (op : B44Op) (rdict key : Bytes) (af : Family) :
    NotesFrame op.notes (mergeNodes op rdict key af).notes := by
  unfold mergeNodes
  split_ifs
  · exact .refl _
  · split
    · exact .refl _
    · exact nodesCompactAdd_frame op _ af

theorem replyTake_noted (C : Crypto) {op : B44Op} (h : SeqNoted op.notes) (i : Nat) (buf : Bytes)
    (src : Option NodeAddr) (env : LookupEnv) : SeqNoted (replyTake C op i buf src env).notes := by
  have hreplied : SeqNoted (op.setState i .replied).notes := h.frame (setState_frame op i .replied)
  unfold replyTake
  dsimp only
  split
  · exact hreplied
  · rename_i rdict _
    refine SeqNoted.frame (SeqNoted.frame ?_ (mergeNodes_frame _ rdict _ .inet))
      (mergeNodes_frame _ rdict _ .inet6)
    have htoken := hreplied.frame (keepToken_frame
      { op.setState i .replied with
        e := pinLearnId (op.setState i .replied).e src rdict env.now } i rdict)
    split_ifs
    · exact htoken
    · exact valueCheck_noted C htoken i src rdict

theorem replyHandle_noted (C : Crypto) {op : B44Op} (h : SeqNoted op.notes) (r : ReqSlot)
    (buf : Bytes) (isError : Bool) (src : Option NodeAddr) (env : LookupEnv) :
    SeqNoted (replyHandle C op r buf isError src env).notes := by
  have hset : ∀ st, SeqNoted ((op.freeReq r).setState (op.reqs r).node st).notes :=
    fun st => h.frame (setState_frame (op.freeReq r) _ st)
  unfold replyHandle
  dsimp only
  split_ifs
  · exact (hset .failed).frame (opStep_frame _ env)
  · refine SeqNoted.frame ?_ (opStep_frame _ env)
    exact hset .stored
  · exact (hset .failed).frame (opStep_frame _ env)
  · refine SeqNoted.frame ?_ (opStep_frame _ env)
    have hfree : SeqNoted (op.freeReq r).notes := h
    exact replyTake_noted C hfree _ buf src env

theorem lookupStep_noted (C : Crypto) {op : B44Op} (h : SeqNoted op.notes) (ev : LookupEvent) :
    SeqNoted (lookupStep C op ev).notes := by
  unfold lookupStep
  split_ifs
  · exact h
  · cases ev with
    | insert id ss pinned => exact h.frame (nodeInsert_frame op id ss pinned)
    | compact data af => exact h.frame (nodesCompactAdd_frame op data af)
    | get node env => exact h.frame (querySend_frame op node _ env _)
    | put node env => exact h.frame (querySend_frame op node _ env _)
    | reply r buf isError src env => exact replyHandle_noted C h r buf isError src env
    | step env => exact h.frame (opStep_frame op env)

/-! ## The puts of an update -/

/-- A put is let through by the `cas` and sequence rules, and stored where there
is memory for it. -/
def PutAccepted (env : Env) (r : B44Reply) : Prop :=
  (∀ msg, r ≠ .error ⟨301, msg⟩ ∧ r ≠ .error ⟨302, msg⟩) ∧ (env.allocOk = true → r = .ack)

/-- What a node answers to the put of an update that merged `nv`. -/
def updateReply (op : B44Op) (nv : Bytes) (n : B44Node) (sig : Bytes) (myid : Id20) (env : Env)
    (s : Store cap) : B44Reply :=
  (putStore myid (putReq (updatePut op nv) n sig) env (storeExpire s env.now)).2

/-- A node whose store holds, when the put arrives, what it was noted to hold
in the lookup: nothing, or the mutable item it served. -/
structure Holder (op : B44Op) (n : B44Node) (env : Env) (s : Store cap) : Prop where
  mem : n ∈ op.nodes
  unchanged : ((storeItemAt (storeExpire s env.now) op.target).map fun p => p.2.seq) = n.seq
  isMutable : ∀ i it, storeItemAt (storeExpire s env.now) op.target = some (i, it) →
    it.isMutable = true

/-- A node that holds other bytes than the best copy under its sequence. -/
def Forked (op : B44Op) (env : Env) (s : Store cap) : Prop :=
  ∃ i it, storeItemAt (storeExpire s env.now) op.target = some (i, it) ∧
    it.seq = op.bestSeq ∧ it.v ≠ op.best

/-- The sequence an update stores under, where it stores at all. -/
theorem storeSeq_eq {haveBest : Bool} {best : Int} {cur nv : Bytes}
    (h : 0 ≤ storeSeq haveBest best cur nv) (hbest : haveBest = true) :
    storeSeq haveBest best cur nv = if nv = cur then best else best + 1 := by
  unfold storeSeq nextSeq at *
  rw [hbest] at h ⊢
  simp only [Bool.true_eq_false, if_false, true_and] at h ⊢
  split_ifs at h ⊢ <;> first | rfl | omega

theorem storedReply_accepted (env : Env) (s s' : Store cap) :
    PutAccepted env (if env.allocOk = false then (s, B44Reply.error ⟨202, "server error"⟩)
      else (s', .ack)).2 := by
  by_cases hmem : env.allocOk = false
  · rw [if_pos hmem]
    exact ⟨fun msg => by simp, fun h => absurd (h.symm.trans hmem) (by simp)⟩
  · rw [if_neg hmem]
    exact ⟨fun msg => by simp, fun _ => rfl⟩

/-- One put: it is let through unless it is a refresh of other bytes. -/
theorem updateReply_accepted_iff {op : B44Op} (hnoted : SeqNoted op.notes) {nv : Bytes}
    (hseq : 0 ≤ storeSeq op.haveBest op.bestSeq op.best nv) {n : B44Node} {sig : Bytes}
    {myid : Id20} {env : Env} {s : Store cap} (hheld : Holder op n env s) :
    PutAccepted env (updateReply op nv n sig myid env s) ↔ ¬(nv = op.best ∧ Forked op env s) := by
  have htarget : (putReq (updatePut op nv) n sig).target = op.target := rfl
  unfold updateReply putStore
  rw [htarget]
  cases hat : storeItemAt (storeExpire s env.now) op.target with
  | none =>
      -- a node that holds nothing has nothing to compare with
      have hclean : ¬(nv = op.best ∧ Forked op env s) := by
        rintro ⟨-, i, it, hsome, -⟩
        rw [hat] at hsome
        cases hsome
      refine iff_of_true ?_ hclean
      dsimp only
      by_cases hmem : env.allocOk = false
      · rw [if_pos hmem]
        exact ⟨fun msg => by simp, fun h => absurd (h.symm.trans hmem) (by simp)⟩
      · rw [if_neg hmem]
        split
        · exact ⟨fun msg => by simp, fun _ => rfl⟩
        · exact ⟨fun msg => by simp, fun _ => rfl⟩
  | some p =>
      obtain ⟨i, it⟩ := p
      have hmutable := hheld.isMutable i it hat
      have hn : n.seq = some it.seq := by
        rw [← hheld.unchanged, hat]
        rfl
      obtain ⟨hpos, hbest, hle⟩ := hnoted.noted n hheld.mem it.seq hn
      have hle' : it.seq ≤ op.bestSeq := hle
      have hcas : (putReq (updatePut op nv) n sig).cas = some it.seq := by
        simp [putReq, nodeCas, hn, hpos]
      have hnext : (putReq (updatePut op nv) n sig).seq =
          if nv = op.best then op.bestSeq else op.bestSeq + 1 := storeSeq_eq hseq hbest
      have hfork : Forked op env s ↔ it.seq = op.bestSeq ∧ it.v ≠ op.best := by
        constructor
        · rintro ⟨j, it', hsome, hfork⟩
          rw [hat] at hsome
          obtain ⟨-, rfl⟩ := Prod.mk.inj (Option.some.inj hsome)
          exact hfork
        · intro hfork
          exact ⟨i, it, hat, hfork⟩
      dsimp only
      rw [if_neg (by simp [hmutable, putReq]), if_neg (by simp [hmutable]), hcas,
        if_neg (by simp), hnext, hfork]
      have hv : (putReq (updatePut op nv) n sig).v = nv := rfl
      rw [hv]
      by_cases hsame : nv = op.best
      · rw [if_pos hsame]
        by_cases hthis : op.bestSeq = it.seq ∧ nv = it.v
        · -- a refresh
          rw [if_pos hthis]
          refine iff_of_true ⟨fun msg => by simp, fun _ => rfl⟩ ?_
          rintro ⟨-, -, hne⟩
          exact hne (hthis.2.symm.trans hsame)
        · rw [if_neg hthis]
          by_cases hstale : op.bestSeq ≤ it.seq
          · -- the same sequence over other bytes
            rw [if_pos hstale]
            have hseqs : it.seq = op.bestSeq := by omega
            refine iff_of_false ?_ ?_
            · rintro ⟨hno, -⟩
              exact (hno _).2 rfl
            · intro hnot
              refine hnot ⟨hsame, hseqs, fun hv => hthis ⟨hseqs.symm, hsame.trans hv.symm⟩⟩
          · rw [if_neg hstale]
            refine iff_of_true (storedReply_accepted env _ _) ?_
            rintro ⟨-, hseqs, -⟩
            omega
      · rw [if_neg hsame, if_neg (by omega), if_neg (by omega)]
        refine iff_of_true (storedReply_accepted env _ _) ?_
        rintro ⟨hnv, -⟩
        exact hsame hnv

/-- After any events on a new update, whatever value is merged from the best
copy and however the copies are spread over the nodes: as long as every node
still holds what it was noted to hold, the puts of the update are let through at
all of them exactly when the merge changed the best copy, or no node holds other
bytes under its sequence. -/
theorem updatePuts_accepted_iff (C : Crypto) (op₀ : B44Op) (hnew : op₀.IsNew)
    (hmutable : op₀.isImmutable = false) (events : List LookupEvent) (nv : Bytes)
    (hstores : 0 ≤ storeSeq (run (lookupStep C) op₀ events).haveBest
      (run (lookupStep C) op₀ events).bestSeq (run (lookupStep C) op₀ events).best nv)
    (sig : B44Node → Bytes) (myid : B44Node → Id20) (env : B44Node → Env)
    (s : B44Node → Store cap)
    (hheld : ∀ n ∈ (run (lookupStep C) op₀ events).nodes, n.token ≠ [] →
      Holder (run (lookupStep C) op₀ events) n (env n) (s n)) :
    (∀ n ∈ (run (lookupStep C) op₀ events).nodes, n.token ≠ [] →
        PutAccepted (env n)
          (updateReply (run (lookupStep C) op₀ events) nv n (sig n) (myid n) (env n) (s n))) ↔
      (nv = (run (lookupStep C) op₀ events).best →
        ∀ n ∈ (run (lookupStep C) op₀ events).nodes, n.token ≠ [] →
          ¬Forked (run (lookupStep C) op₀ events) (env n) (s n)) := by
  have hinit : SeqNoted op₀.notes := by
    refine ⟨hmutable, ?_⟩
    intro n hn
    rw [show op₀.notes.nodes = [] from hnew.1] at hn
    cases hn
  have hnoted : SeqNoted (run (lookupStep C) op₀ events).notes :=
    run_invariant (I := fun op : B44Op => SeqNoted op.notes)
      (fun _ ev h => lookupStep_noted C h ev) hinit events
  generalize run (lookupStep C) op₀ events = op at *
  constructor
  · intro haccepted hsame n hn htoken hfork
    exact (updateReply_accepted_iff hnoted hstores (hheld n hn htoken)).mp (haccepted n hn htoken)
      ⟨hsame, hfork⟩
  · intro hclean n hn htoken
    refine (updateReply_accepted_iff hnoted hstores (hheld n hn htoken)).mpr ?_
    rintro ⟨hsame, hfork⟩
    exact hclean hsame n hn htoken hfork

/-- A small world in which every signature is good. -/
def signedCrypto : Crypto where
  sha1 := fun _ => Vector.replicate 20 0
  ed25519Check := fun _ _ _ => true

/-- A reply that carries a token and a copy: sequence 5, and one letter as its value. -/
def copyReply (c : Char) : Bytes :=
  ascii ['d', '1', ':', 'r', 'd', '1', ':', 'k', '3', '2', ':'] ++ List.replicate 32 0 ++
    ascii ['3', ':', 's', 'e', 'q', 'i', '5', 'e', '3', ':', 's', 'i', 'g', '6', '4', ':'] ++
    List.replicate 64 0 ++
    ascii ['5', ':', 't', 'o', 'k', 'e', 'n', '1', ':', 'x', '1', ':', 'v', '1', ':', c, 'e', 'e']

/-- An update whose two nodes answer with `c` and with `d`, both under sequence 5. -/
def twoCopies (c d : Char) : List LookupEvent :=
  [.insert (some (Vector.replicate 20 5)) (.inet (Vector.replicate 4 3) 6881) false,
    .insert (some (Vector.replicate 20 7)) (.inet (Vector.replicate 4 4) 6881) false,
    .step testEnv,
    .reply 0 (copyReply c) false (some (.inet (Vector.replicate 4 3) 6881)) testEnv,
    .reply 1 (copyReply d) false (some (.inet (Vector.replicate 4 4) 6881)) testEnv]

def testUpdate : B44Op := { testOp with isUpdate := true }

/-- What the node in place `n` of such a run holds. -/
def heldCopy (c d : Char) (n : B44Node) : Store 1 := fun _ =>
  some
    { target := Vector.replicate 20 0, k := List.replicate 32 0, sig := List.replicate 64 0
      salt := [], isMutable := true, seq := 5, expiresMs := 1000
      v := ascii ['1', ':', if n.id = Vector.replicate 20 5 then c else d] }

def testHolderEnv : Env := { banNow := 0, now := 20, cacheNow := 20, allocOk := true }

theorem heldCopy_at (c d : Char) (n : B44Node) :
    storeItemAt (storeExpire (heldCopy c d n) testHolderEnv.now) (Vector.replicate 20 0) =
      (heldCopy c d n 0).map fun it => (0, it) := rfl

/-- The nodes of such a run hold what they were noted to hold. -/
theorem holder_twoCopies {op : B44Op} (htarget : op.target = Vector.replicate 20 0)
    (hseq : ∀ n ∈ op.nodes, n.seq = some 5) (c d : Char) (n : B44Node) (hn : n ∈ op.nodes) :
    Holder op n testHolderEnv (heldCopy c d n) := by
  refine ⟨hn, ?_, ?_⟩
  · rw [htarget, heldCopy_at, hseq n hn]
    rfl
  · intro i it hsome
    rw [htarget, heldCopy_at] at hsome
    obtain ⟨-, rfl⟩ := Prod.mk.inj (Option.some.inj hsome)
    rfl

set_option maxRecDepth 4000

theorem updatePuts_accepted_sameCopies :
    let op := run (lookupStep signedCrypto) testUpdate (twoCopies 'a' 'a')
    op.nodes.length = 2 ∧ op.best = ascii ['1', ':', 'a'] ∧
    ∀ n ∈ op.nodes, n.token ≠ [] →
      PutAccepted testHolderEnv (updateReply op (ascii ['1', ':', 'a']) n [] n.id testHolderEnv
        (heldCopy 'a' 'a' n)) := by
  intro op
  have hseq : ∀ n ∈ op.nodes, n.seq = some 5 := by with_unfolding_all decide
  have hbest : op.best = ascii ['1', ':', 'a'] := by with_unfolding_all decide
  have htarget : op.target = Vector.replicate 20 0 := by with_unfolding_all decide
  refine ⟨by with_unfolding_all decide, hbest, ?_⟩
  refine (updatePuts_accepted_iff signedCrypto testUpdate ⟨rfl, fun _ => rfl⟩ rfl
    (twoCopies 'a' 'a') (ascii ['1', ':', 'a']) (by with_unfolding_all decide) (fun _ => [])
    (fun n => n.id) (fun _ => testHolderEnv) (heldCopy 'a' 'a') ?_).mpr ?_
  · intro n hn _
    exact holder_twoCopies htarget hseq 'a' 'a' n hn
  · rintro - n hn - ⟨i, it, hsome, -, hne⟩
    have hat := heldCopy_at 'a' 'a' n
    rw [← htarget] at hat
    obtain ⟨-, rfl⟩ := Prod.mk.inj (Option.some.inj (hsome.symm.trans hat))
    apply hne
    rw [show (run (lookupStep signedCrypto) testUpdate (twoCopies 'a' 'a')).best = _ from hbest]
    simp

/-- Two copies under one sequence: the value found first is stored again as it
is, and the other node refuses it with 302. -/
theorem updatePuts_forkedCopies :
    let op := run (lookupStep signedCrypto) testUpdate (twoCopies 'a' 'b')
    (∀ n ∈ op.nodes, n.token ≠ [] ∧ Holder op n testHolderEnv (heldCopy 'a' 'b' n)) ∧
    ¬∀ n ∈ op.nodes, n.token ≠ [] →
      PutAccepted testHolderEnv (updateReply op (ascii ['1', ':', 'a']) n [] n.id testHolderEnv
        (heldCopy 'a' 'b' n)) := by
  intro op
  have hseq : ∀ n ∈ op.nodes, n.seq = some 5 := by with_unfolding_all decide
  have htoken : ∀ n ∈ op.nodes, n.token ≠ [] := by with_unfolding_all decide
  have htarget : op.target = Vector.replicate 20 0 := by with_unfolding_all decide
  refine ⟨fun n hn => ⟨htoken n hn, holder_twoCopies htarget hseq 'a' 'b' n hn⟩, ?_⟩
  intro h
  have hrefused : ∃ n ∈ op.nodes, updateReply op (ascii ['1', ':', 'a']) n [] n.id testHolderEnv
      (heldCopy 'a' 'b' n) = .error ⟨302, "sequence number less than current"⟩ := by
    with_unfolding_all decide
  obtain ⟨n, hn, hreply⟩ := hrefused
  exact ((h n hn (htoken n hn)).1 _).2 hreply

end Bep44
end Comrade
