import Comrade.Bep44.Update
import Comrade.Lib.Best

/-!
# What a get finds

A get collects the copies of an item that its nodes serve.  Whatever else its
replies do, what it holds at the end is a fold over the copies that verified, in
the order in which they came (`get_findings`).

* `verifiedCopy` is the copy in a reply, where it verifies under what was asked
  for.
* `Findings.take` is what one such copy does to the best value so far, and to the
  two nodes noted as its servers.
* `get_winner`: the fold keeps a newest copy, whatever the order, and a reply
  that does not verify leaves it and every recorded sequence alone.
-/

namespace Comrade
namespace Bep44

open Lib Bencode

/-! ## Copies -/

/-- What an operation asks for. -/
structure Question where
  isImmutable : Bool
  target : Id20
  pk : Bytes
  salt : Bytes
  deriving DecidableEq

def B44Op.question (op : B44Op) : Question where
  isImmutable := op.isImmutable
  target := op.target
  pk := op.pk
  salt := op.salt

/-- A copy that verified: its value, the sequence it is signed under, which is -1
where the hash is the name, and where it came from. -/
structure Copy where
  v : Bytes
  seq : Int
  src : Option NodeAddr
  deriving DecidableEq

/-- Is this value signed for the question, under the sequence? -/
def Question.signed (q : Question) (C : Crypto) (k sig : Bytes) (seq : Int) (v : Bytes) : Bool :=
  k.length == 32 && k == q.pk && sig.length == 64 && decide (0 ≤ seq) &&
    (sigBufferN (bep44MaxValue + 128) q.salt seq v).any fun text => C.ed25519Check sig q.pk text

theorem Question.signed_iff {q : Question} {C : Crypto} {k sig : Bytes} {seq : Int} {v : Bytes} :
    q.signed C k sig seq v = true ↔
      ¬(k.length ≠ 32 ∨ k ≠ q.pk ∨ sig.length ≠ 64 ∨ seq < 0) ∧
        ∃ text, sigBufferN (bep44MaxValue + 128) q.salt seq v = some text ∧
          C.ed25519Check sig q.pk text = true := by
  simp only [Question.signed, Bool.and_eq_true, beq_iff_eq, decide_eq_true_eq,
    Option.any_eq_true_iff_get, not_or, not_not, not_lt]
  constructor
  · rintro ⟨⟨⟨⟨hk, hpk⟩, hsig⟩, hseq⟩, hsome, hcheck⟩
    exact ⟨⟨hk, hpk, hsig, hseq⟩, _, (Option.some_get hsome).symm, hcheck⟩
  · rintro ⟨⟨hk, hpk, hsig, hseq⟩, text, htext, hcheck⟩
    refine ⟨⟨⟨⟨hk, hpk⟩, hsig⟩, hseq⟩, by rw [htext]; rfl, ?_⟩
    simpa [htext] using hcheck

/-- The copy in the body of a reply, where it verifies under the question. -/
def verifiedCopy (C : Crypto) (q : Question) (src : Option NodeAddr) (rdict : Bytes) :
    Option Copy :=
  match bencDictFind rdict (ascii ['v']) with
  | none => none
  | some v =>
      if v.length > bep44MaxValue then none
      else if q.isImmutable = true then
        if C.sha1 v = q.target then some { v := v, seq := -1, src := src } else none
      else
        match dictStr rdict (ascii ['k']), dictStr rdict (ascii ['s', 'i', 'g']),
            (bencDictFind rdict (ascii ['s', 'e', 'q'])).bind bencIntGet with
        | some k, some sig, some seq =>
            if q.signed C k sig seq v = true then some { v := v, seq := seq, src := src } else none
        | _, _, _ => none

/-- The verified copy that an event brings a get: a reply, and not an error, to an
operation that is still under way. -/
def servedCopy (C : Crypto) (q : Question) (op : B44Op) : LookupEvent → Option Copy
  | .reply _ buf isError src _ =>
      if op.done = true ∨ isError = true then none
      else (bencDictFind buf (ascii ['r'])).bind (verifiedCopy C q src)
  | _ => none

/-! ## Findings -/

/-- What a get has found: the best value, and a server of it in each family. -/
structure Findings where
  haveBest : Bool
  bestSeq : Int
  best : Bytes
  bestNode4 : Option NodeAddr
  bestNode6 : Option NodeAddr
  deriving DecidableEq

def B44Op.findings (op : B44Op) : Findings where
  haveBest := op.haveBest
  bestSeq := op.bestSeq
  best := op.best
  bestNode4 := op.bestNode4
  bestNode6 := op.bestNode6

/-- The server noted in one family. -/
def Findings.slot (f : Findings) (v6 : Bool) : Option NodeAddr :=
  if v6 = true then f.bestNode6 else f.bestNode4

/-- A usable address is noted, where its family has none yet. -/
def Findings.record (f : Findings) (src : Option NodeAddr) : Findings :=
  match src with
  | none => f
  | some a =>
      if nodeAddrUsable a = false then f
      else if a.isV6 = true then { f with bestNode6 := f.bestNode6.or (some a) }
      else { f with bestNode4 := f.bestNode4.or (some a) }

/-- Does the best value so far stand against a copy?  The copies of an immutable
item are all the same. -/
def Findings.stands (f : Findings) (isImmutable : Bool) (c : Copy) : Bool :=
  f.haveBest && (isImmutable || decide (c.seq ≤ f.bestSeq))

theorem Findings.stands_iff {f : Findings} {isImmutable : Bool} {c : Copy} :
    f.stands isImmutable c = true ↔
      f.haveBest = true ∧ (isImmutable = true ∨ c.seq ≤ f.bestSeq) := by
  rw [Findings.stands, Bool.and_eq_true, Bool.or_eq_true, decide_eq_true_iff]

/-- A copy that is the best, with no server of it noted yet. -/
def Findings.only (c : Copy) : Findings where
  haveBest := true
  bestSeq := c.seq
  best := c.v
  bestNode4 := none
  bestNode6 := none

/-- What one verified copy does. -/
def Findings.take (isImmutable : Bool) (f : Findings) (c : Copy) : Findings :=
  if f.stands isImmutable c = true then f.record c.src else (Findings.only c).record c.src

/-- What each node was seen to hold. -/
def B44Op.noted (op : B44Op) : List (Who × Option Int) := op.nodes.map fun n => (n.who, n.seq)

theorem recordBestNode_findings (op : B44Op) (src : Option NodeAddr) :
    (recordBestNode op src).findings = op.findings.record src := by
  unfold recordBestNode Findings.record
  cases src with
  | none => rfl
  | some a =>
      dsimp only
      split_ifs <;> rfl

theorem takeBest_findings (op : B44Op) (c : Copy) :
    (takeBest op c.v c.seq c.src).findings = (Findings.only c).record c.src :=
  recordBestNode_findings _ c.src

/-- What `value_check` does is what the copy in the reply does, where one
verifies; it does nothing at all otherwise. -/
theorem valueCheck_cases (C : Crypto) (op : B44Op) (i : Nat) (src : Option NodeAddr)
    (rdict : Bytes) :
    (verifiedCopy C op.question src rdict = none ∧ valueCheck C op i src rdict = op) ∨
      ∃ c op', verifiedCopy C op.question src rdict = some c ∧
        (op' = op ∨ op' = op.setNode i fun n => { n with seq := some c.seq }) ∧
        valueCheck C op i src rdict =
          if op.findings.stands op.isImmutable c = true then recordBestNode op' c.src
          else takeBest op' c.v c.seq c.src := by
  unfold valueCheck verifiedCopy
  cases bencDictFind rdict (ascii ['v']) with
  | none => exact .inl ⟨rfl, rfl⟩
  | some v =>
      dsimp only
      by_cases hlong : v.length > bep44MaxValue
      · rw [if_pos hlong, if_pos hlong]
        exact .inl ⟨rfl, rfl⟩
      rw [if_neg hlong, if_neg hlong]
      by_cases himm : op.isImmutable = true
      · have himm' : op.question.isImmutable = true := himm
        rw [if_pos himm, if_pos himm']
        by_cases hhash : C.sha1 v = op.target
        · have hhash' : C.sha1 v = op.question.target := hhash
          rw [if_neg (not_not.mpr hhash), if_pos hhash']
          refine .inr ⟨_, op, rfl, .inl rfl, ?_⟩
          simp [Findings.stands, B44Op.findings, himm]
        · have hhash' : ¬C.sha1 v = op.question.target := hhash
          rw [if_pos hhash, if_neg hhash']
          exact .inl ⟨rfl, rfl⟩
      · have himm' : ¬op.question.isImmutable = true := himm
        rw [if_neg himm, if_neg himm']
        cases dictStr rdict (ascii ['k']) with
        | none => exact .inl ⟨rfl, rfl⟩
        | some k =>
            cases dictStr rdict (ascii ['s', 'i', 'g']) with
            | none => exact .inl ⟨rfl, rfl⟩
            | some sig =>
                cases (bencDictFind rdict (ascii ['s', 'e', 'q'])).bind bencIntGet with
                | none => exact .inl ⟨rfl, rfl⟩
                | some seq =>
                    dsimp only
                    have hiff : op.question.signed C k sig seq v = true ↔
                        ¬(k.length ≠ 32 ∨ k ≠ op.pk ∨ sig.length ≠ 64 ∨ seq < 0) ∧
                          ∃ text, sigBufferN (bep44MaxValue + 128) op.salt seq v = some text ∧
                            C.ed25519Check sig op.pk text = true := Question.signed_iff
                    by_cases hsigned : op.question.signed C k sig seq v = true
                    · obtain ⟨hfields, text, htext, hcheck⟩ := hiff.mp hsigned
                      rw [if_neg hfields, if_pos hsigned, htext]
                      dsimp only
                      rw [if_neg (by simp [hcheck])]
                      refine .inr ⟨_, op.setNode i fun n => { n with seq := some seq }, rfl,
                        .inr rfl, ?_⟩
                      have hstands : op.findings.stands op.isImmutable
                            { v := v, seq := seq, src := src } = true ↔
                          op.haveBest = true ∧ seq ≤ op.bestSeq :=
                        Findings.stands_iff.trans (and_congr_right' (or_iff_right himm))
                      by_cases hold : op.haveBest = true ∧ seq ≤ op.bestSeq
                      · rw [if_pos (hstands.mpr hold)]
                        exact if_pos hold
                      · rw [if_neg (mt hstands.mp hold)]
                        exact if_neg hold
                    · rw [if_neg hsigned]
                      refine .inl ⟨rfl, ?_⟩
                      rw [hiff] at hsigned
                      by_cases hfields : k.length ≠ 32 ∨ k ≠ op.pk ∨ sig.length ≠ 64 ∨ seq < 0
                      · rw [if_pos hfields]
                      rw [if_neg hfields]
                      cases htext : sigBufferN (bep44MaxValue + 128) op.salt seq v with
                      | none => rfl
                      | some text =>
                          dsimp only
                          by_cases hcheck : C.ed25519Check sig op.pk text = false
                          · rw [if_pos hcheck]
                          · exact absurd ⟨hfields, text, htext, by simpa using hcheck⟩ hsigned

theorem valueCheck_findings (C : Crypto) (op : B44Op) (i : Nat) (src : Option NodeAddr)
    (rdict : Bytes) :
    (valueCheck C op i src rdict).findings =
      (verifiedCopy C op.question src rdict).toList.foldl (Findings.take op.isImmutable)
        op.findings := by
  rcases valueCheck_cases C op i src rdict with ⟨hnone, hsame⟩ | ⟨c, op', hsome, hop', hcheck⟩
  · rw [hnone, hsame]
    rfl
  · have hfound : op'.findings = op.findings := by
      rcases hop' with rfl | rfl <;> rfl
    rw [hsome, hcheck, Option.toList_some, List.foldl_cons, List.foldl_nil, Findings.take]
    split_ifs
    · rw [recordBestNode_findings, hfound]
    · rw [takeBest_findings]

/-! ## A get that is under way -/

/-- An operation that only asks: nothing is stored, and no node waited for with a
put. -/
structure Asking (op : B44Op) : Prop where
  isPut : op.isPut = false
  isUpdate : op.isUpdate = false
  phase : op.phase = .lookup
  states : ∀ n ∈ op.nodes, n.state ≠ .storeInflight

/-- What leaves alone all that a get has found. -/
structure Quiet (op op' : B44Op) : Prop where
  asking : Asking op'
  question : op'.question = op.question
  findings : op'.findings = op.findings
  noted : op'.noted = op.noted

theorem Quiet.refl {op : B44Op} (h : Asking op) : Quiet op op := ⟨h, rfl, rfl, rfl⟩

theorem Quiet.trans {op op' op'' : B44Op} (h : Quiet op op') (h' : Quiet op' op'') :
    Quiet op op'' :=
  ⟨h'.asking, h'.question.trans h.question, h'.findings.trans h.findings,
    h'.noted.trans h.noted⟩

/-- A loop whose every step is quiet. -/
theorem foldl_quiet {σ α : Type} {k : σ → B44Op} {f : σ → α → σ}
    (hf : ∀ s a, Asking (k s) → Quiet (k s) (k (f s a))) (l : List α) {s : σ}
    (h : Asking (k s)) : Quiet (k s) (k (l.foldl f s)) := by
  induction l generalizing s with
  | nil => exact .refl h
  | cons a l ih => exact (hf s a h).trans (ih (hf s a h).asking)

theorem setNode_states {op : B44Op} (h : Asking op) (i : Nat) {f : B44Node → B44Node}
    (hstate : ∀ n, n.state ≠ .storeInflight → (f n).state ≠ .storeInflight) :
    ∀ n ∈ (op.setNode i f).nodes, n.state ≠ .storeInflight := by
  intro n hn
  obtain ⟨j, hj, rfl⟩ := List.mem_iff_getElem.mp hn
  have hj' : j < op.nodes.length := by simpa [B44Op.setNode, List.length_modify] using hj
  have hold := h.states _ (List.getElem_mem hj')
  simp only [B44Op.setNode, List.getElem_modify]
  split_ifs
  · exact hstate _ hold
  · exact hold

/-- A change to one node that is neither to what it was seen to hold nor begins a
store. -/
theorem setNode_quiet {op : B44Op} (h : Asking op) (i : Nat) {f : B44Node → B44Node}
    (hwho : ∀ n, ((f n).who, (f n).seq) = (n.who, n.seq))
    (hstate : ∀ n, n.state ≠ .storeInflight → (f n).state ≠ .storeInflight) :
    Quiet op (op.setNode i f) := by
  refine ⟨⟨h.isPut, h.isUpdate, h.phase, setNode_states h i hstate⟩, rfl, rfl, ?_⟩
  apply List.ext_getElem?
  intro j
  simp only [B44Op.noted, B44Op.setNode, List.getElem?_map, List.getElem?_modify]
  cases op.nodes[j]? with
  | none => rfl
  | some n =>
      show some _ = some _
      dsimp only
      split_ifs
      · rw [hwho]
      · rfl

theorem setState_quiet {op : B44Op} (h : Asking op) (i : Nat) {st : NodeState}
    (hst : st ≠ .storeInflight) : Quiet op (op.setState i st) :=
  setNode_quiet h i (fun _ => rfl) fun _ _ => hst

theorem getSend_quiet {op : B44Op} (h : Asking op) (node : Nat) (env : LookupEnv) :
    Quiet op (getSend op node env).1 := by
  unfold getSend querySend
  rw [if_neg (by simp [h.phase])]
  split
  · exact .refl h
  · unfold reqAlloc
    cases firstSlot op.reqs fun r => !r.inUse with
    | none => exact .refl h
    | some r =>
        -- the request taken and the serial counted on are nothing found
        have hreq : ∀ reqs e, Quiet op { op with e := e, reqs := reqs } :=
          fun _ _ => ⟨⟨h.isPut, h.isUpdate, h.phase, h.states⟩, rfl, rfl, rfl⟩
        dsimp only [Option.map_some]
        split
        · exact hreq _ _
        · split_ifs
          · exact (hreq _ _).trans (setState_quiet (hreq _ _).asking node (by simp))
          · exact (hreq _ _).trans (setState_quiet (hreq _ _).asking node (by simp))

theorem reqStep_quiet (now : Nat) {s : StepScan} (r : ReqSlot) (h : Asking s.op) :
    Quiet s.op (reqStep now s r).op := by
  unfold reqStep
  dsimp only
  split_ifs
  · exact .refl h
  · have hset := setState_quiet h (s.op.reqs r).node (show NodeState.failed ≠ _ by simp)
    exact ⟨⟨h.isPut, h.isUpdate, h.phase, hset.asking.states⟩, rfl, rfl, hset.noted⟩
  · exact .refl h

theorem askStep_quiet (env : LookupEnv) {s : StepScan} (i : Nat) (h : Asking s.op) :
    Quiet s.op (askStep env s i).op := by
  unfold askStep
  split
  · exact .refl h
  · rename_i n _
    split_ifs
    · exact .refl h
    · unfold StepScan.answer
      split_ifs
      · exact .refl h
      · exact .refl h
    · have hcharge : Quiet s.op { s.op with e := (nodeBudgetOk s.op.e n.ss env.now).1 } :=
        ⟨⟨h.isPut, h.isUpdate, h.phase, h.states⟩, rfl, rfl, rfl⟩
      have hget := hcharge.trans (getSend_quiet hcharge.asking i env)
      unfold askNode
      dsimp only
      split_ifs
      · exact hcharge
      · exact hget
      · exact hget

theorem opFinish_quiet {op : B44Op} (h : Asking op) : Quiet op (opFinish op) :=
  ⟨⟨h.isPut, h.isUpdate, h.phase, h.states⟩, rfl, rfl, rfl⟩

theorem opStep_quiet {op : B44Op} (h : Asking op) (env : LookupEnv) :
    Quiet op (opStep op env) := by
  unfold opStep
  by_cases htime : env.now - op.startMs > b44OpTimeoutMs
  · rw [if_pos htime]
    exact opFinish_quiet h
  rw [if_neg htime]
  have hreqs := foldl_quiet (k := fun s : StepScan => s.op) (f := reqStep env.now)
    (fun _ r h => reqStep_quiet env.now r h) (List.finRange b44ReqsMax)
    (s := { op := op, inflight := 0, if4 := 0, if6 := 0, deferred := 0, answered := 0,
            stop := false }) h
  generalize (List.finRange b44ReqsMax).foldl (reqStep env.now) _ = s at hreqs ⊢
  rw [h.phase]
  dsimp only
  have hask := hreqs.trans (foldl_quiet (k := fun s : StepScan => s.op) (f := askStep env)
    (fun _ i h => askStep_quiet env i h) (List.range s.op.nodes.length) hreqs.asking)
  generalize (List.range s.op.nodes.length).foldl (askStep env) s = s' at hask ⊢
  rw [h.isUpdate, h.isPut, if_neg (show ¬false = true by simp), if_pos rfl]
  split_ifs
  · exact hask
  · exact hask.trans (opFinish_quiet hask.asking)

/-! ## Nodes that a reply names -/

/-- What a merge leaves of what the nodes were seen to hold.  A node that is put in
has nothing recorded, and one that was dropped from a full list stands no nearer
than any that is left, so that it is not put in again. -/
structure Merged (old new : List (Who × Option Int)) : Prop where
  kept : ∀ p ∈ old, ∀ p' ∈ new, p'.1 = p.1 → p.1.2.2 ≠ .other → p'.2 = p.2
  known : ∀ p' ∈ new, p'.2 = none ∨ p' ∈ old
  dropped : ∀ p ∈ old, p.1 ∈ new.map Prod.fst ∨
    (b44NodesMax ≤ new.length ∧ ∀ p' ∈ new, idCmp p'.1.2.1 p.1.2.1 ≤ 0)

theorem noted_map_fst (op : B44Op) : op.noted.map Prod.fst = op.nodes.map B44Node.who := by
  rw [B44Op.noted, List.map_map]
  rfl

theorem addrEq_self {a : NodeAddr} (h : a ≠ .other) : addrEq a a = true := by
  cases a with
  | inet x port => simp [addrEq]
  | inet6 x port scope => simp [addrEq]
  | other => exact absurd rfl h

/-- Two nodes of one list that have one address are one. -/
theorem noted_unique {op : B44Op} (h : op.Ok) {p p' : Who × Option Int} (hp : p ∈ op.noted)
    (hp' : p' ∈ op.noted) (hwho : p'.1 = p.1) (haddr : p.1.2.2 ≠ .other) : p' = p := by
  have haddrs : op.noted.Pairwise fun a b => addrEq a.1.2.2 b.1.2.2 = false := by
    have hlist := h.list.addrs
    rw [← noted_map_fst] at hlist
    exact List.pairwise_map.mp hlist
  have hsymm : Std.Symm fun a b : Who × Option Int => addrEq a.1.2.2 b.1.2.2 = false :=
    ⟨fun a b hab => by rw [addrEq_comm, hab]⟩
  by_contra hne
  have hapart := haddrs.forall hp hp' (Ne.symm hne)
  rw [hwho, addrEq_self haddr] at hapart
  cases hapart

theorem Merged.refl {op : B44Op} (h : op.Ok) : Merged op.noted op.noted := by
  refine ⟨?_, fun p' hp' => .inr hp', fun p hp => .inl (List.mem_map_of_mem hp)⟩
  intro p hp p' hp' hwho haddr
  rw [noted_unique h hp hp' hwho haddr]

/-- Where a place is found in the list, the new node is nearer than whatever is no
nearer than the whole list. -/
theorem nodePos_near {nodes : List B44Node} {dist d : Id20}
    (hpos : nodePos nodes dist < nodes.length) (hd : ∀ n ∈ nodes, idCmp n.dist d ≤ 0) :
    idCmp dist d < 0 := by
  have hhead : idCmp dist (nodes[nodePos nodes dist]).dist < 0 :=
    of_decide_eq_true (List.findIdx_getElem (w := hpos))
  have hle := hd _ (List.getElem_mem hpos)
  by_contra hnot
  have hback := idCmp_le_trans hle (idCmp_le_of_not_lt hnot)
  rw [idCmp_swap] at hback
  omega

/-- A full list stays full. -/
theorem insert_length {nodes : List B44Node} (hshort : nodes.length ≤ b44NodesMax)
    (hfull : b44NodesMax ≤ nodes.length) {dist : Id20} (hpos : nodePos nodes dist < b44NodesMax)
    (n : B44Node) :
    b44NodesMax ≤ ((keptNodes nodes).insertIdx (nodePos nodes dist) n).length := by
  have hkept := (keptNodes_length hshort).2
  rw [List.length_insertIdx_of_le_length (by omega), ← hkept]
  omega

/-- Only a full list loses a node, and one that is no nearer than any of the others. -/
theorem insert_drops {nodes : List B44Node}
    (hsorted : nodes.Pairwise fun a b => idCmp a.dist b.dist ≤ 0) {dist : Id20}
    (hpos : nodePos nodes dist < b44NodesMax) {n : B44Node} (hn : n ∈ nodes)
    (hgone : n ∉ keptNodes nodes) (id : Option Id20) (ss : NodeAddr) :
    b44NodesMax ≤ nodes.length ∧
      ∀ m ∈ (keptNodes nodes).insertIdx (nodePos nodes dist) (nodeNew id dist ss),
        idCmp m.dist n.dist ≤ 0 := by
  have hfull : b44NodesMax ≤ nodes.length := by
    by_contra hroom
    unfold keptNodes at hgone
    rw [if_neg hroom] at hgone
    exact hgone hn
  unfold keptNodes at hgone ⊢
  rw [if_pos hfull] at hgone ⊢
  have hlast : n ∈ nodes.drop (b44NodesMax - 1) := by
    rw [← List.take_append_drop (b44NodesMax - 1) nodes, List.mem_append] at hn
    exact hn.resolve_left hgone
  refine ⟨hfull, ?_⟩
  intro m hm
  rcases List.eq_or_mem_of_mem_insertIdx hm with rfl | hkept
  · refine nodePos_after hsorted (?_ : n ∈ nodes.drop (nodePos nodes dist))
    exact (List.drop_subset_drop_left nodes (by omega)) hlast
  · exact hsorted.rel_of_mem_take_of_mem_drop hkept hlast

theorem nodeInsert_merged {op : B44Op} (h : op.Ok) {old : List (Who × Option Int)}
    (hm : Merged old op.noted) (id : Option Id20) (ss : NodeAddr) (pinned : Bool) :
    Merged old (nodeInsert op id ss pinned).1.noted := by
  rcases nodeInsert_cases op id ss pinned with hsame | ⟨hknown, hpos, -, hput⟩
  · rw [hsame]
    exact hm
  rw [hput]
  generalize nodeDist op.target id pinned = dist at hpos ⊢
  have hshort : op.nodes.length ≤ b44NodesMax := by
    have hlen := h.list.short
    rwa [List.length_map] at hlen
  have hsorted : op.nodes.Pairwise fun a b => idCmp a.dist b.dist ≤ 0 :=
    List.pairwise_map.mp h.list.sorted
  have hnew : ∀ p' ∈ ((keptNodes op.nodes).insertIdx (nodePos op.nodes dist)
      (nodeNew id dist ss)).map (fun n => (n.who, n.seq)),
      p' = ((nodeNew id dist ss).who, none) ∨ p' ∈ op.noted := by
    intro p' hp'
    obtain ⟨n, hn, rfl⟩ := List.mem_map.mp hp'
    rcases List.eq_or_mem_of_mem_insertIdx hn with rfl | hkept
    · exact .inl rfl
    · exact .inr (List.mem_map_of_mem ((keptNodes_sublist op.nodes).subset hkept))
  -- in a full list, the new node is nearer than one that was dropped before
  have hnear : ∀ p : Who × Option Int, b44NodesMax ≤ op.noted.length →
      (∀ p' ∈ op.noted, idCmp p'.1.2.1 p.1.2.1 ≤ 0) → idCmp dist p.1.2.1 < 0 := by
    intro p hfull hfar
    rw [B44Op.noted, List.length_map] at hfull
    refine nodePos_near (lt_of_lt_of_le hpos hfull) ?_
    intro n hn
    exact hfar _ (List.mem_map_of_mem hn)
  refine ⟨?_, ?_, ?_⟩
  · intro p hp p' hp' hwho haddr
    rcases hnew p' hp' with rfl | hp'
    · -- a node of the old list would still be known, or too far away
      exfalso
      rcases hm.dropped p hp with hthere | ⟨hfull, hfar⟩
      · rw [noted_map_fst] at hthere
        obtain ⟨n, hn, hn'⟩ := List.mem_map.mp hthere
        have hss : ss = n.ss := by
          have heq : (nodeNew id dist ss).who = n.who := hwho.trans hn'.symm
          exact congrArg (fun w : Who => w.2.2) heq
        have hreal : ss ≠ .other := by
          rw [← hwho] at haddr
          exact haddr
        have hno := (nodeKnown_false hknown hn).1
        rw [← hss, addrEq_self hreal] at hno
        cases hno
      · have hlt := hnear p hfull hfar
        rw [← hwho] at hlt
        exact absurd (idCmp_eq_zero_iff.mpr rfl) hlt.ne
    · exact hm.kept p hp p' hp' hwho haddr
  · intro p' hp'
    rcases hnew p' hp' with rfl | hp'
    · exact .inl rfl
    · exact hm.known p' hp'
  · intro p hp
    rw [noted_map_fst]
    rcases hm.dropped p hp with hthere | ⟨hfull, hfar⟩
    · rw [noted_map_fst] at hthere
      obtain ⟨n, hn, hn'⟩ := List.mem_map.mp hthere
      rw [← hn']
      by_cases hstays : n ∈ keptNodes op.nodes
      · left
        refine List.mem_map_of_mem (List.mem_insertIdx ?_ |>.mpr (.inr hstays))
        have hkept := (keptNodes_length hshort).2
        have hle := nodePos_le op.nodes dist
        omega
      · right
        obtain ⟨hfull, hfar⟩ := insert_drops hsorted hpos hn hstays id ss
        refine ⟨by rw [B44Op.noted, List.length_map]; exact insert_length hshort hfull hpos _, ?_⟩
        intro p' hp'
        obtain ⟨m, hmem, rfl⟩ := List.mem_map.mp hp'
        exact hfar m hmem
    · right
      have hfull' := hfull
      rw [B44Op.noted, List.length_map] at hfull'
      refine ⟨by rw [B44Op.noted, List.length_map]; exact insert_length hshort hfull' hpos _, ?_⟩
      intro p' hp'
      rcases hnew p' hp' with rfl | hp'
      · exact (hnear p hfull hfar).le
      · exact hfar p' hp'

/-- What putting nodes in leaves of a get, with `old` what was noted at first. -/
structure Steady (old : List (Who × Option Int)) (op op' : B44Op) : Prop where
  asking : Asking op'
  ok : op'.Ok
  question : op'.question = op.question
  findings : op'.findings = op.findings
  merged : Merged old op'.noted

theorem Steady.refl {op : B44Op} (h : Asking op) (hok : op.Ok) : Steady op.noted op op :=
  ⟨h, hok, rfl, rfl, .refl hok⟩

theorem nodeInsert_steady {old : List (Who × Option Int)} {op op' : B44Op}
    (h : Steady old op op') (id : Option Id20) (ss : NodeAddr) (pinned : Bool) :
    Steady old op (nodeInsert op' id ss pinned).1 := by
  have hok := (nodeInsert_spec h.ok id ss pinned).ok
  have hmerged := nodeInsert_merged h.ok h.merged id ss pinned
  rcases nodeInsert_cases op' id ss pinned with hsame | ⟨-, -, -, hput⟩
  · rw [hsame]
    exact h
  · rw [hput] at hok hmerged ⊢
    refine ⟨⟨h.asking.isPut, h.asking.isUpdate, h.asking.phase, ?_⟩, hok, h.question, h.findings,
      hmerged⟩
    intro n hn
    rcases List.eq_or_mem_of_mem_insertIdx hn with rfl | hkept
    · simp [nodeNew]
    · exact h.asking.states n ((keptNodes_sublist op'.nodes).subset hkept)

theorem nodesCompactAdd_steady {old : List (Who × Option Int)} {op op' : B44Op}
    (h : Steady old op op') (data : Bytes) (af : Family) :
    Steady old op (nodesCompactAdd op' data af) := by
  unfold nodesCompactAdd
  exact run_invariant (I := Steady old op) (fun _ _ h => nodeInsert_steady h _ _ _) h _

theorem mergeNodes_steady {old : List (Who × Option Int)} {op op' : B44Op}
    (h : Steady old op op') (rdict key : Bytes) (af : Family) :
    Steady old op (mergeNodes op' rdict key af) := by
  unfold mergeNodes
  split_ifs
  · exact h
  · split
    · exact h
    · exact nodesCompactAdd_steady h _ af

/-! ## A reply to a get -/

theorem keepToken_quiet {op : B44Op} (h : Asking op) (i : Nat) (rdict : Bytes) :
    Quiet op (keepToken op i rdict) := by
  unfold keepToken
  split
  · exact .refl h
  · split_ifs
    · exact setNode_quiet h i (fun _ => rfl) fun _ hn => hn
    · exact .refl h

theorem recordBestNode_asking {op : B44Op} (h : Asking op) (src : Option NodeAddr) :
    Asking (recordBestNode op src) := by
  unfold recordBestNode
  split
  · exact h
  · split_ifs
    · exact h
    · exact ⟨h.isPut, h.isUpdate, h.phase, h.states⟩
    · exact ⟨h.isPut, h.isUpdate, h.phase, h.states⟩

theorem recordBestNode_question (op : B44Op) (src : Option NodeAddr) :
    (recordBestNode op src).question = op.question := by
  unfold recordBestNode
  split
  · rfl
  · split_ifs <;> rfl

theorem valueCheck_asking (C : Crypto) {op : B44Op} (h : Asking op) (i : Nat)
    (src : Option NodeAddr) (rdict : Bytes) :
    Asking (valueCheck C op i src rdict) ∧
      (valueCheck C op i src rdict).question = op.question := by
  rcases valueCheck_cases C op i src rdict with ⟨-, hsame⟩ | ⟨c, op', -, hop', hcheck⟩
  · rw [hsame]
    exact ⟨h, rfl⟩
  · have hasking : Asking op' := by
      rcases hop' with rfl | rfl
      · exact h
      · exact ⟨h.isPut, h.isUpdate, h.phase, setNode_states h i fun _ hn => hn⟩
    have hquestion : op'.question = op.question := by
      rcases hop' with rfl | rfl <;> rfl
    rw [hcheck]
    split_ifs
    · exact ⟨recordBestNode_asking hasking c.src, (recordBestNode_question _ _).trans hquestion⟩
    · refine ⟨recordBestNode_asking ?_ c.src, (recordBestNode_question _ _).trans hquestion⟩
      exact ⟨hasking.isPut, hasking.isUpdate, hasking.phase, hasking.states⟩

/-- What a step does to a get: its findings take the copy that came, if one did,
and where none did nothing recorded changes. -/
structure GetStep (op : B44Op) (copy : Option Copy) (op' : B44Op) : Prop where
  asking : Asking op'
  question : op'.question = op.question
  findings : op'.findings = copy.toList.foldl (Findings.take op.isImmutable) op.findings
  merged : copy = none → Merged op.noted op'.noted

theorem GetStep.of_quiet {op op' : B44Op} (hok : op.Ok) (h : Quiet op op') :
    GetStep op none op' :=
  ⟨h.asking, h.question, h.findings, fun _ => by rw [h.noted]; exact .refl hok⟩

theorem GetStep.of_steady {op op' : B44Op} (h : Steady op.noted op op') : GetStep op none op' :=
  ⟨h.asking, h.question, h.findings, fun _ => h.merged⟩

theorem GetStep.trans_quiet {op op' op'' : B44Op} {copy : Option Copy} (h : GetStep op copy op')
    (h' : Quiet op' op'') : GetStep op copy op'' :=
  ⟨h'.asking, h'.question.trans h.question, h'.findings.trans h.findings,
    fun hnone => by rw [h'.noted]; exact h.merged hnone⟩

/-- What comes before it leaves everything found as it was. -/
theorem GetStep.quiet_trans {op op' op'' : B44Op} {copy : Option Copy} (h : Quiet op op')
    (h' : GetStep op' copy op'') : GetStep op copy op'' := by
  have himm : op'.isImmutable = op.isImmutable := congrArg Question.isImmutable h.question
  refine ⟨h'.asking, h'.question.trans h.question, ?_, ?_⟩
  · rw [h'.findings, himm, h.findings]
  · intro hnone
    rw [← h.noted]
    exact h'.merged hnone

/-- The body of a reply: the copy in it is checked, and the nodes it names put in. -/
theorem replyBody_getStep (C : Crypto) {op : B44Op} (h : Asking op) (hok : op.Ok) (i : Nat)
    (src : Option NodeAddr) (rdict : Bytes) :
    GetStep op (verifiedCopy C op.question src rdict)
      (mergeNodes (mergeNodes (valueCheck C op i src rdict) rdict (ascii ['n', 'o', 'd', 'e', 's'])
        .inet) rdict (ascii ['n', 'o', 'd', 'e', 's', '6']) .inet6) := by
  obtain ⟨hasking, hquestion⟩ := valueCheck_asking C h i src rdict
  have hsteady := mergeNodes_steady (mergeNodes_steady
    (Steady.refl hasking (valueCheck_ok C hok i src rdict)) rdict
    (ascii ['n', 'o', 'd', 'e', 's']) .inet) rdict (ascii ['n', 'o', 'd', 'e', 's', '6']) .inet6
  refine ⟨hsteady.asking, hsteady.question.trans hquestion, ?_, ?_⟩
  · rw [hsteady.findings, valueCheck_findings]
  · intro hnone
    have hsame : valueCheck C op i src rdict = op := by
      rcases valueCheck_cases C op i src rdict with ⟨-, hsame⟩ | ⟨c, op', hsome, -, -⟩
      · exact hsame
      · rw [hnone] at hsome
        cases hsome
    have hmerged := hsteady.merged
    rw [hsame] at hmerged ⊢
    exact hmerged

theorem replyTake_getStep (C : Crypto) {op : B44Op} (h : Asking op) {i : Nat}
    (hok : (op.setState i .replied).Ok) (buf : Bytes) (src : Option NodeAddr) (env : LookupEnv) :
    GetStep op ((bencDictFind buf (ascii ['r'])).bind (verifiedCopy C op.question src))
      (replyTake C op i buf src env) := by
  have hreplied := setState_quiet h i (show NodeState.replied ≠ _ by simp)
  unfold replyTake
  dsimp only
  cases bencDictFind buf (ascii ['r']) with
  | none =>
      exact GetStep.quiet_trans hreplied (.of_quiet hok (.refl hreplied.asking))
  | some rdict =>
      dsimp only [Option.bind_some]
      have hlearned : Quiet op { op.setState i .replied with
          e := pinLearnId (op.setState i .replied).e src rdict env.now } :=
        hreplied.trans ⟨⟨h.isPut, h.isUpdate, h.phase, hreplied.asking.states⟩, rfl, rfl, rfl⟩
      have hlearnedOk : B44Op.Ok { op.setState i .replied with
          e := pinLearnId (op.setState i .replied).e src rdict env.now } := hok
      have htoken := hlearned.trans (keepToken_quiet hlearned.asking i rdict)
      rw [if_neg (by rw [htoken.asking.isPut]; simp), ← htoken.question]
      exact GetStep.quiet_trans htoken
        (replyBody_getStep C htoken.asking (keepToken_ok hlearnedOk i rdict) i src rdict)

theorem replyHandle_getStep (C : Crypto) {op : B44Op} (h : Asking op) (hok : op.Ok) {r : ReqSlot}
    (huse : (op.reqs r).inUse = true) (buf : Bytes) (isError : Bool) (src : Option NodeAddr)
    (env : LookupEnv) :
    GetStep op (if isError = true then none
        else (bencDictFind buf (ascii ['r'])).bind (verifiedCopy C op.question src))
      (replyHandle C op r buf isError src env) := by
  have hfree : Quiet op (op.freeReq r) := ⟨⟨h.isPut, h.isUpdate, h.phase, h.states⟩, rfl, rfl, rfl⟩
  -- no node of a get is being stored on
  have hasked : (op.nodes[(op.reqs r).node]?.any fun n => n.state == .storeInflight) = false := by
    cases hn : op.nodes[(op.reqs r).node]? with
    | none => rfl
    | some n => simpa using h.states n (List.mem_of_getElem? hn)
  unfold replyHandle
  dsimp only
  rw [hasked, if_neg (show ¬false = true by simp)]
  by_cases herr : isError = true
  · rw [if_pos herr, if_pos herr]
    have hfailed :=
      setState_quiet hfree.asking (op.reqs r).node (show NodeState.failed ≠ _ by simp)
    exact .of_quiet hok ((hfree.trans hfailed).trans (opStep_quiet hfailed.asking env))
  · rw [if_neg herr, if_neg herr]
    have htake := replyTake_getStep C hfree.asking (freeReq_ok hok huse .replied) buf src env
    exact GetStep.quiet_trans hfree (htake.trans_quiet (opStep_quiet htake.asking env))

/-! ## Whole gets -/

/-- The calls in the life of a get. -/
def GetCalled (op : B44Op) : LookupEvent → Prop
  | .put _ _ => False
  | ev => AsCalled op ev

instance decidableGetCalled (op : B44Op) : ∀ ev, Decidable (GetCalled op ev)
  | .put _ _ => isFalse id
  | .insert id ss pinned => inferInstanceAs (Decidable (AsCalled op (.insert id ss pinned)))
  | .compact data af => inferInstanceAs (Decidable (AsCalled op (.compact data af)))
  | .get node env => inferInstanceAs (Decidable (AsCalled op (.get node env)))
  | .reply r buf isError src env =>
      inferInstanceAs (Decidable (AsCalled op (.reply r buf isError src env)))
  | .step env => inferInstanceAs (Decidable (AsCalled op (.step env)))

theorem lookupStep_getStep (C : Crypto) {op : B44Op} (h : Asking op) (hok : op.Ok)
    {ev : LookupEvent} (hev : GetCalled op ev) :
    GetStep op (servedCopy C op.question op ev) (lookupStep C op ev) := by
  unfold lookupStep
  by_cases hdone : op.done = true
  · have hnone : servedCopy C op.question op ev = none := by
      cases ev with
      | reply r buf isError src env => exact if_pos (.inl hdone)
      | _ => rfl
    rw [if_pos hdone, hnone]
    exact .of_quiet hok (.refl h)
  rw [if_neg hdone]
  cases ev with
  | insert id ss pinned => exact .of_steady (nodeInsert_steady (.refl h hok) id ss pinned)
  | compact data af => exact .of_steady (nodesCompactAdd_steady (.refl h hok) data af)
  | get node env => exact .of_quiet hok (getSend_quiet h node env)
  | put node env => cases hev
  | reply r buf isError src env =>
      have hstep := replyHandle_getStep C h hok hev buf isError src env
      have hcopy : servedCopy C op.question op (.reply r buf isError src env) =
          if isError = true then none
          else (bencDictFind buf (ascii ['r'])).bind (verifiedCopy C op.question src) := by
        by_cases herr : isError = true
        · rw [if_pos herr]
          exact if_pos (.inr herr)
        · rw [if_neg herr]
          exact if_neg (not_or.mpr ⟨hdone, herr⟩)
      rw [hcopy]
      exact hstep
  | step env => exact .of_quiet hok (opStep_quiet h env)

/-- A get that was just made. -/
structure B44Op.IsNewGet (op : B44Op) : Prop where
  isNew : op.IsNew
  isPut : op.isPut = false
  isUpdate : op.isUpdate = false
  phase : op.phase = .lookup
  findings : op.haveBest = false ∧ op.bestNode4 = none ∧ op.bestNode6 = none

theorem GetCalled.asCalled {op : B44Op} {ev : LookupEvent} (h : GetCalled op ev) :
    AsCalled op ev := by
  cases ev with
  | put node env => cases h
  | _ => exact h

/-- What stands between a get under way and the copies that have come. -/
structure GetInv (op₀ op : B44Op) (copies : List Copy) : Prop where
  asking : Asking op
  ok : op.Ok
  question : op.question = op₀.question
  findings : op.findings = copies.foldl (Findings.take op₀.isImmutable) op₀.findings

/-- After any events of a get, what it has found is the fold of the copies that
verified, in the order in which they came. -/
theorem get_findings (C : Crypto) {op₀ : B44Op} (hnew : op₀.IsNewGet) {events : List LookupEvent}
    (hev : EveryStep (lookupStep C) GetCalled op₀ events) :
    GetInv op₀ (run (lookupStep C) op₀ events)
      (observe (lookupStep C) (servedCopy C op₀.question) op₀ events) := by
  have hinit : GetInv op₀ op₀ [] := by
    refine ⟨⟨hnew.isPut, hnew.isUpdate, hnew.phase, ?_⟩, hnew.isNew.ok, rfl, rfl⟩
    rw [hnew.isNew.1]
    intro n hn
    cases hn
  refine observe_invariant (I := GetInv op₀) (G := GetCalled) ?_ hinit hev
  intro op ev seen h hcalled
  have hstep := lookupStep_getStep C h.asking h.ok hcalled
  rw [h.question] at hstep
  have himm : op.isImmutable = op₀.isImmutable := congrArg Question.isImmutable h.question
  refine ⟨hstep.asking, lookupStep_ok C h.ok hcalled.asCalled, hstep.question.trans h.question, ?_⟩
  rw [hstep.findings, h.findings, himm, List.foldl_append]

/-! ## The winner -/

/-- A copy that takes over from another. -/
def newer (c b : Copy) : Bool := decide (b.seq < c.seq)

/-- Do the findings hold this copy? -/
def Findings.Holds (f : Findings) : Option Copy → Prop
  | none => f.haveBest = false
  | some b => f.haveBest = true ∧ f.bestSeq = b.seq ∧ f.best = b.v

theorem Findings.record_holds {f : Findings} {b : Option Copy} (h : f.Holds b)
    (src : Option NodeAddr) : (f.record src).Holds b := by
  unfold Findings.record
  split
  · exact h
  · split_ifs
    · exact h
    · cases b <;> exact h
    · cases b <;> exact h

/-- One copy is one step of a scan for the newest. -/
theorem Findings.take_holds {isImmutable : Bool} {f : Findings} {b : Option Copy} (h : f.Holds b)
    {c : Copy} (hsame : isImmutable = true → ∀ x ∈ b, c.seq ≤ x.seq) :
    (f.take isImmutable c).Holds (bestStep (fun _ => true) newer b c) := by
  have honly : (Findings.only c).Holds (some c) := ⟨rfl, rfl, rfl⟩
  have hnew := Findings.record_holds honly c.src
  unfold bestStep Findings.take
  rw [if_neg (show ¬true = false by simp)]
  cases b with
  | none =>
      have hfirst : ¬f.stands isImmutable c = true := by
        rw [Findings.stands_iff, show f.haveBest = false from h]
        simp
      rw [if_neg hfirst]
      exact hnew
  | some b =>
      obtain ⟨hbest, hseq, -⟩ := id h
      dsimp only
      by_cases hnewer : newer c b = true
      · have hlt : b.seq < c.seq := of_decide_eq_true hnewer
        have htakes : ¬f.stands isImmutable c = true := by
          rw [Findings.stands_iff, hseq]
          rintro ⟨-, himm | hle⟩
          · exact absurd (hsame himm b rfl) (by omega)
          · omega
        rw [if_pos hnewer, if_neg htakes]
        exact hnew
      · have hle : c.seq ≤ b.seq := by
          by_contra hlt
          exact hnewer (decide_eq_true (by omega))
        have hstands : f.stands isImmutable c = true := by
          rw [Findings.stands_iff, hseq]
          exact ⟨hbest, .inr hle⟩
        rw [if_neg hnewer, if_pos hstands]
        exact Findings.record_holds h c.src

theorem newer_irrefl (c : Copy) : newer c c = false := by
  rw [newer, decide_eq_false_iff_not]
  omega

theorem newer_trans (a b c : Copy) (hab : newer a b = true) (hbc : newer b c = true) :
    newer a c = true := by
  unfold newer at *
  rw [decide_eq_true_iff] at *
  omega

/-- The fold holds what a scan for the newest copy keeps. -/
theorem takes_holds {isImmutable : Bool} {f : Findings} (hf : f.haveBest = false)
    {copies : List Copy} (hseq : isImmutable = true → ∀ c ∈ copies, c.seq = -1) :
    (copies.foldl (Findings.take isImmutable) f).Holds
      (bestBy (fun _ => true) newer copies) := by
  induction copies using List.reverseRecOn with
  | nil => exact hf
  | append_singleton copies c ih =>
      have hprev := ih fun himm x hx => hseq himm x (List.mem_append_left _ hx)
      rw [List.foldl_concat, bestBy, List.foldl_concat, ← bestBy]
      refine Findings.take_holds hprev ?_
      intro himm x hx
      have hbest : BestOf (fun _ => true) newer copies (bestBy (fun _ => true) newer copies) :=
        bestBy_bestOf newer_irrefl newer_trans copies
      rw [show bestBy (fun _ => true) newer copies = some x from hx] at hbest
      rw [hseq himm c (by simp), hseq himm x (List.mem_append_left _ hbest.1)]

theorem verifiedCopy_immutable {C : Crypto} {q : Question} {src : Option NodeAddr} {rdict : Bytes}
    {c : Copy} (himm : q.isImmutable = true) (h : verifiedCopy C q src rdict = some c) :
    c.seq = -1 := by
  unfold verifiedCopy at h
  split at h
  · cases h
  · rw [if_pos himm] at h
    split_ifs at h
    cases h
    rfl

theorem servedCopy_immutable {C : Crypto} {q : Question} (himm : q.isImmutable = true)
    (op₀ : B44Op) (events : List LookupEvent) :
    ∀ c ∈ observe (lookupStep C) (servedCopy C q) op₀ events, c.seq = -1 := by
  induction events generalizing op₀ with
  | nil => simp
  | cons ev events ih =>
      intro c hc
      rw [observe_cons, List.mem_append] at hc
      rcases hc with hc | hc
      · rw [Option.mem_toList] at hc
        cases ev with
        | reply r buf isError src env =>
            unfold servedCopy at hc
            dsimp only at hc
            split_ifs at hc
            obtain ⟨rdict, -, hcopy⟩ := Option.bind_eq_some_iff.mp hc
            exact verifiedCopy_immutable himm hcopy
        | _ => cases hc
      · exact ih _ c hc

/-- The fold has a best value where there were copies at all: a newest of them. -/
theorem takes_best {isImmutable : Bool} {f : Findings} (hf : f.haveBest = false)
    {copies : List Copy} (hseq : isImmutable = true → ∀ c ∈ copies, c.seq = -1) :
    ((copies.foldl (Findings.take isImmutable) f).haveBest = true ↔ copies ≠ []) ∧
      ((copies.foldl (Findings.take isImmutable) f).haveBest = true →
        (∀ c ∈ copies, c.seq ≤ (copies.foldl (Findings.take isImmutable) f).bestSeq) ∧
        ∃ c ∈ copies, c.seq = (copies.foldl (Findings.take isImmutable) f).bestSeq ∧
          c.v = (copies.foldl (Findings.take isImmutable) f).best) := by
  have hholds := takes_holds hf hseq
  have hbest : BestOf (fun _ => true) newer copies (bestBy (fun _ => true) newer copies) :=
    bestBy_bestOf newer_irrefl newer_trans copies
  generalize copies.foldl (Findings.take isImmutable) f = g at hholds ⊢
  cases hscan : bestBy (fun _ => true) newer copies with
  | none =>
      rw [hscan] at hholds hbest
      have hfalse : g.haveBest = false := hholds
      have hnil : copies = [] := by
        rw [List.eq_nil_iff_forall_not_mem]
        intro c hc
        cases hbest c hc
      simp [hfalse, hnil]
  | some b =>
      rw [hscan] at hholds hbest
      obtain ⟨hhave, hgseq, hgv⟩ := hholds
      refine ⟨iff_of_true hhave (List.ne_nil_of_mem hbest.1), fun _ => ⟨?_, b, hbest.1,
        hgseq.symm, hgv.symm⟩⟩
      intro c hc
      have hnot := hbest.2.2 c hc rfl
      rw [newer, decide_eq_false_iff_not] at hnot
      omega

/-- After any events of a get, in whatever order its replies came: it has a best
value exactly when one of them verified, that value is one of those that did, and
none of those has a higher sequence.  And a reply that does not verify, at any
point, changes neither the best value nor what a node was seen to hold: a node
that is still in the list has what it had, and one that is new has nothing. -/
theorem get_winner (C : Crypto) (op₀ : B44Op) (hnew : op₀.IsNewGet) (events : List LookupEvent)
    (hev : EveryStep (lookupStep C) GetCalled op₀ events) :
    let op := run (lookupStep C) op₀ events
    let copies := observe (lookupStep C) (servedCopy C op₀.question) op₀ events
    (op.haveBest = true ↔ copies ≠ []) ∧
      (op.haveBest = true → (∀ c ∈ copies, c.seq ≤ op.bestSeq) ∧
        ∃ c ∈ copies, c.seq = op.bestSeq ∧ c.v = op.best) ∧
      ∀ ev, GetCalled op ev → servedCopy C op₀.question op ev = none →
        ((lookupStep C op ev).haveBest = op.haveBest ∧
            (lookupStep C op ev).bestSeq = op.bestSeq ∧ (lookupStep C op ev).best = op.best) ∧
          (∀ p ∈ op.noted, ∀ p' ∈ (lookupStep C op ev).noted,
            p'.1 = p.1 → p.1.2.2 ≠ .other → p'.2 = p.2) ∧
          ∀ p' ∈ (lookupStep C op ev).noted, p'.2 = none ∨ p' ∈ op.noted := by
  intro op copies
  have hinv : GetInv op₀ op copies := get_findings C hnew hev
  have himmutable : op₀.isImmutable = true → ∀ c ∈ copies, c.seq = -1 :=
    fun himm => servedCopy_immutable himm op₀ events
  have hbest := takes_best (f := op₀.findings) hnew.findings.1 himmutable
  rw [← hinv.findings] at hbest
  refine ⟨hbest.1, hbest.2, ?_⟩
  intro ev hcalled hnone
  have hstep := lookupStep_getStep C hinv.asking hinv.ok hcalled
  rw [hinv.question, hnone] at hstep
  have hfound : (lookupStep C op ev).findings = op.findings := hstep.findings
  exact ⟨⟨congrArg Findings.haveBest hfound, congrArg Findings.bestSeq hfound,
    congrArg Findings.best hfound⟩, (hstep.merged rfl).kept, (hstep.merged rfl).known⟩

/-- A reply that carries a copy: a sequence of one digit, and one letter as its value. -/
def servedReply (seq c : Char) : Bytes :=
  ascii ['d', '1', ':', 'r', 'd', '1', ':', 'k', '3', '2', ':'] ++ List.replicate 32 0 ++
    ascii ['3', ':', 's', 'e', 'q', 'i', seq, 'e', '3', ':', 's', 'i', 'g', '6', '4', ':'] ++
    List.replicate 64 0 ++ ascii ['1', ':', 'v', '1', ':', c, 'e', 'e']

/-- A get that asks a node of each family; the first serves sequence 5, the second
sequence `seq`. -/
def twoFamilies (seq : Char) : List LookupEvent :=
  [.insert (some (Vector.replicate 20 5)) (.inet (Vector.replicate 4 3) 6881) false,
    .insert (some (Vector.replicate 20 7)) (.inet6 (Vector.replicate 16 4) 6881 0) false,
    .step testEnv,
    .reply 0 (servedReply '5' 'a') false (some (.inet (Vector.replicate 4 3) 6881)) testEnv,
    .reply 1 (servedReply seq 'b') false (some (.inet6 (Vector.replicate 16 4) 6881 0)) testEnv]

theorem testOp_isNewGet : testOp.IsNewGet :=
  ⟨⟨rfl, fun _ => rfl⟩, rfl, rfl, rfl, rfl, rfl, rfl⟩

set_option maxRecDepth 4000

theorem twoFamilies_called :
    EveryStep (lookupStep signedCrypto) GetCalled testOp (twoFamilies '3') := by
  with_unfolding_all decide

theorem get_winner_twoFamilies :
    let op := run (lookupStep signedCrypto) testOp (twoFamilies '3')
    let copies := observe (lookupStep signedCrypto) (servedCopy signedCrypto testOp.question)
      testOp (twoFamilies '3')
    copies.map Copy.seq = [5, 3] ∧ op.bestSeq = 5 ∧ (∀ c ∈ copies, c.seq ≤ op.bestSeq) ∧
      ∃ c ∈ copies, c.seq = op.bestSeq ∧ c.v = op.best := by
  intro op copies
  have hwinner := get_winner signedCrypto testOp testOp_isNewGet (twoFamilies '3')
    twoFamilies_called
  have hhave : op.haveBest = true := by with_unfolding_all decide
  exact ⟨by with_unfolding_all decide, by with_unfolding_all decide, hwinner.2.1 hhave⟩

end Bep44
end Comrade
