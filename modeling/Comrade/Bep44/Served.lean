import Comrade.Bep44.Winner

/-!
# The servers a get reports

When a get ends, `op_finish` calls its caller back once for each family that has
a server noted.  The address is meant to be one that served the winning value;
`record_best_node` is also called for a copy that is older than it.

* `getAnswers` are the calls that `op_finish` makes.
* `Findings.Stale` is a copy that takes an empty place without being the winner.
* `get_served_iff`: every address reported served the winning value, at whatever
  point the get ends, exactly when no such copy comes.
-/

namespace Comrade
namespace Bep44

open Lib Bencode

/-! ## What the caller is told -/

/-- One call of the caller's `get_cb`. -/
structure GetAnswer where
  v : Option Bytes
  seq : Int
  node : Option NodeAddr
  deriving DecidableEq

/-- The calls that `op_finish` makes for a get: one for each family with a server,
and one without where there is none. -/
def getAnswers (op : B44Op) : List GetAnswer :=
  let answer := fun node =>
    { v := if op.haveBest = true then some op.best else none, seq := op.bestSeq, node := node }
  let served := op.bestNode4.toList ++ op.bestNode6.toList
  if served = [] then [answer none] else served.map fun a => answer (some a)

/-- Every address that the caller is given sent a verified copy under the sequence
that it is given with. -/
def AnswersServed (op : B44Op) (copies : List Copy) : Prop :=
  ∀ ans ∈ getAnswers op, ∀ a, ans.node = some a → ∃ c ∈ copies, c.src = some a ∧ c.seq = ans.seq

/-- The same of what was found. -/
def Findings.Served (f : Findings) (copies : List Copy) : Prop :=
  ∀ v6 a, f.slot v6 = some a → ∃ c ∈ copies, c.src = some a ∧ c.seq = f.bestSeq

theorem answersServed_iff (op : B44Op) (copies : List Copy) :
    AnswersServed op copies ↔ op.findings.Served copies := by
  have hslots : ∀ a, a ∈ op.bestNode4.toList ++ op.bestNode6.toList ↔
      ∃ v6, op.findings.slot v6 = some a := by
    intro a
    simp [Findings.slot, B44Op.findings]
  unfold AnswersServed getAnswers Findings.Served
  dsimp only
  constructor
  · intro h v6 a hslot
    have hmem := (hslots a).mpr ⟨v6, hslot⟩
    rw [if_neg (List.ne_nil_of_mem hmem)] at h
    exact h _ (List.mem_map_of_mem hmem) a rfl
  · intro h ans hans a hnode
    by_cases hnone : op.bestNode4.toList ++ op.bestNode6.toList = []
    · rw [if_pos hnone, List.mem_singleton] at hans
      rw [hans] at hnode
      cases hnode
    · rw [if_neg hnone] at hans
      obtain ⟨b, hb, rfl⟩ := List.mem_map.mp hans
      cases hnode
      obtain ⟨v6, hslot⟩ := (hslots a).mp hb
      exact h v6 a hslot

/-! ## Copies that are not the winner -/

/-- An older copy, from an address that would be noted where its family has no
server yet. -/
def Findings.Stale (f : Findings) (c : Copy) : Prop :=
  f.haveBest = true ∧ c.seq < f.bestSeq ∧
    ∃ a ∈ c.src, nodeAddrUsable a = true ∧ f.slot a.isV6 = none

instance decidableStale (f : Findings) (c : Copy) : Decidable (f.Stale c) :=
  inferInstanceAs (Decidable (f.haveBest = true ∧ c.seq < f.bestSeq ∧
    ∃ a ∈ c.src, nodeAddrUsable a = true ∧ f.slot a.isV6 = none))

/-- A reply that brings such a copy. -/
def StaleReply (C : Crypto) (q : Question) (op : B44Op) (ev : LookupEvent) : Prop :=
  ∃ c ∈ servedCopy C q op ev, op.findings.Stale c

instance decidableStaleReply (C : Crypto) (q : Question) (op : B44Op) (ev : LookupEvent) :
    Decidable (StaleReply C q op ev) :=
  inferInstanceAs (Decidable (∃ c ∈ servedCopy C q op ev, op.findings.Stale c))

theorem Findings.record_slot (f : Findings) (src : Option NodeAddr) (v6 : Bool) :
    (f.record src).slot v6 =
      (f.slot v6).or (src.filter fun a => nodeAddrUsable a && a.isV6 == v6) := by
  cases src with
  | none => simp [Findings.record]
  | some a =>
      by_cases husable : nodeAddrUsable a = true
      · cases hfam : a.isV6 <;> cases v6 <;> 
          simp [Findings.record, Findings.slot, Option.filter, husable, hfam]
      · have hfalse : nodeAddrUsable a = false := by simpa using husable
        simp [Findings.record, Option.filter, hfalse]

theorem Findings.record_bestSeq (f : Findings) (src : Option NodeAddr) :
    (f.record src).bestSeq = f.bestSeq := by
  unfold Findings.record
  split
  · rfl
  · split_ifs <;> rfl

/-- What an empty place takes. -/
theorem Findings.record_new {f : Findings} {src : Option NodeAddr} {v6 : Bool} {a : NodeAddr}
    (h : (f.record src).slot v6 = some a) :
    f.slot v6 = some a ∨
      (f.slot v6 = none ∧ src = some a ∧ nodeAddrUsable a = true ∧ a.isV6 = v6) := by
  rw [Findings.record_slot, Option.or_eq_some_iff, Option.filter_eq_some_iff, Bool.and_eq_true,
    beq_iff_eq] at h
  exact h

/-- A place that is taken stays taken. -/
theorem Findings.record_kept {f : Findings} {v6 : Bool} (h : f.slot v6 ≠ none)
    (src : Option NodeAddr) : (f.record src).slot v6 = f.slot v6 := by
  rw [Findings.record_slot]
  cases hslot : f.slot v6 with
  | none => exact absurd hslot h
  | some a => rfl

/-- A usable address is noted, or another of its family was. -/
theorem Findings.record_taken (f : Findings) {a : NodeAddr} (husable : nodeAddrUsable a = true) :
    (f.record (some a)).slot a.isV6 ≠ none := by
  rw [Findings.record_slot]
  simp [Option.filter, husable]

/-- Each usable server of the best value has a place, or lost it to another. -/
def Findings.Filled (f : Findings) (copies : List Copy) : Prop :=
  ∀ c ∈ copies, c.seq = f.bestSeq → ∀ a, c.src = some a → nodeAddrUsable a = true →
    f.slot a.isV6 ≠ none

/-- What the findings of a get say about the copies that made them. -/
structure Findings.Of (f : Findings) (copies : List Copy) : Prop where
  some_iff : f.haveBest = true ↔ copies ≠ []
  newest : f.haveBest = true → ∀ c ∈ copies, c.seq ≤ f.bestSeq
  filled : f.Filled copies

section Copies

variable {isImmutable : Bool} {f : Findings} {copies : List Copy} {c : Copy}

theorem Findings.Of.take_filled (h : f.Of copies) :
    (f.take isImmutable c).Filled (copies ++ [c]) := by
  unfold Findings.take
  by_cases hstands : f.stands isImmutable c = true
  · rw [if_pos hstands]
    intro c' hc' hseq a hsrc husable
    rw [Findings.record_bestSeq] at hseq
    rcases List.mem_append.mp hc' with hc' | hc'
    · have htaken := h.filled c' hc' hseq a hsrc husable
      rw [Findings.record_kept htaken]
      exact htaken
    · rw [List.mem_singleton.mp hc'] at hsrc
      rw [hsrc]
      exact f.record_taken husable
  · -- a new winner: no copy before it had its sequence
    rw [if_neg hstands]
    intro c' hc' hseq a hsrc husable
    rw [Findings.record_bestSeq] at hseq
    rcases List.mem_append.mp hc' with hc' | hc'
    · have hhave := h.some_iff.mpr (List.ne_nil_of_mem hc')
      have hle := h.newest hhave c' hc'
      have hseq' : c'.seq = c.seq := hseq
      rw [Findings.stands_iff] at hstands
      exact absurd ⟨hhave, .inr (hseq' ▸ hle)⟩ hstands
    · rw [List.mem_singleton.mp hc'] at hsrc
      rw [hsrc]
      exact (Findings.only c).record_taken husable

/-- One more copy leaves only servers of the winner, unless it is an older one
that takes an empty place. -/
theorem Findings.Of.take_served_iff (h : f.Of copies) (hserved : f.Served copies)
    (hsame : isImmutable = true → f.haveBest = true → c.seq ≤ f.bestSeq) :
    (f.take isImmutable c).Served (copies ++ [c]) ↔ ¬f.Stale c := by
  have hc : c ∈ copies ++ [c] := by simp
  unfold Findings.take
  by_cases hstands : f.stands isImmutable c = true
  · rw [if_pos hstands]
    obtain ⟨hhave, hle⟩ := Findings.stands_iff.mp hstands
    have hle : c.seq ≤ f.bestSeq := hle.elim (fun himm => hsame himm hhave) id
    constructor
    · rintro hafter ⟨-, hlt, a, hsrc, husable, hempty⟩
      have hslot : (f.record c.src).slot a.isV6 = some a := by
        rw [Findings.record_slot, hempty, hsrc]
        simp [Option.filter, husable]
      obtain ⟨c', hc', hsrc', hseq'⟩ := hafter a.isV6 a hslot
      rw [Findings.record_bestSeq] at hseq'
      rcases List.mem_append.mp hc' with hc' | hc'
      · -- had it served the winner before, its family would have a server
        exact h.filled c' hc' hseq' a hsrc' husable hempty
      · rw [List.mem_singleton.mp hc'] at hseq'
        omega
    · intro hfresh v6 a hslot
      rw [Findings.record_bestSeq]
      rcases Findings.record_new hslot with hold | ⟨hempty, hsrc, husable, rfl⟩
      · obtain ⟨c', hc', hrest⟩ := hserved v6 a hold
        exact ⟨c', List.mem_append_left _ hc', hrest⟩
      · refine ⟨c, hc, hsrc, ?_⟩
        by_contra hne
        exact hfresh ⟨hhave, by omega, a, hsrc, husable, hempty⟩
  · rw [if_neg hstands]
    rw [Findings.stands_iff] at hstands
    refine iff_of_true ?_ ?_
    · intro v6 a hslot
      rw [Findings.record_bestSeq]
      rcases Findings.record_new hslot with hold | ⟨-, hsrc, -, -⟩
      · have hnone : (Findings.only c).slot v6 = none := by
          cases v6 <;> rfl
        rw [hnone] at hold
        cases hold
      · exact ⟨c, hc, hsrc, rfl⟩
    · rintro ⟨hhave, hlt, -⟩
      exact hstands ⟨hhave, .inr hlt.le⟩

/-- The findings of a get say all that about the copies that made them. -/
theorem takes_of (hf : f.haveBest = false)
    (hseq : isImmutable = true → ∀ c ∈ copies, c.seq = -1) :
    (copies.foldl (Findings.take isImmutable) f).Of copies := by
  induction copies using List.reverseRecOn with
  | nil => exact ⟨by simp [hf], by simp, by simp [Findings.Filled]⟩
  | append_singleton copies c ih =>
      have hprev := ih fun himm x hx => hseq himm x (List.mem_append_left _ hx)
      have hbest := takes_best hf hseq
      refine ⟨hbest.1, fun hhave => (hbest.2 hhave).1, ?_⟩
      rw [List.foldl_concat]
      exact hprev.take_filled

end Copies

/-! ## Whole gets -/

/-- At whatever point of a run a get is ended: the addresses that its caller is given
served the winning value under the sequence given with them.  It is so exactly when
no reply brings a verified copy older than the best one, from a usable address of a
family that has no server noted. -/
theorem get_served_iff (C : Crypto) (op₀ : B44Op) (hnew : op₀.IsNewGet)
    (events : List LookupEvent) (hev : EveryStep (lookupStep C) GetCalled op₀ events) :
    (∀ pre, pre <+: events → AnswersServed (run (lookupStep C) op₀ pre)
        (observe (lookupStep C) (servedCopy C op₀.question) op₀ pre)) ↔
      EveryStep (lookupStep C) (fun op ev => ¬StaleReply C op₀.question op ev) op₀ events := by
  apply forall_prefix_iff_everyStep
  · rw [answersServed_iff]
    intro v6 a hslot
    have hnone : op₀.findings.slot v6 = none := by
      cases v6
      · exact hnew.findings.2.1
      · exact hnew.findings.2.2
    rw [run_nil, hnone] at hslot
    cases hslot
  · intro pre ev hpre hserved
    have hcalled : EveryStep (lookupStep C) GetCalled op₀ (pre ++ [ev]) := hev.of_prefix hpre
    rw [everyStep_concat_iff] at hcalled
    have hinv := get_findings C hnew hcalled.1
    have himmutable : op₀.isImmutable = true → ∀ c ∈
        observe (lookupStep C) (servedCopy C op₀.question) op₀ pre, c.seq = -1 :=
      fun himm => servedCopy_immutable himm op₀ pre
    have hof := takes_of (f := op₀.findings) hnew.findings.1 himmutable
    have hnext := (get_findings C hnew (hev.of_prefix hpre)).findings
    rw [answersServed_iff] at hserved ⊢
    rw [observe_concat] at hnext ⊢
    cases hcopy : servedCopy C op₀.question (run (lookupStep C) op₀ pre) ev with
    | none =>
        rw [hcopy, Option.toList_none, List.append_nil] at hnext
        rw [Option.toList_none, List.append_nil, hnext, ← hinv.findings]
        refine iff_of_true hserved ?_
        rintro ⟨c, hsome, -⟩
        rw [hcopy] at hsome
        cases hsome
    | some c =>
        have hstale : StaleReply C op₀.question (run (lookupStep C) op₀ pre) ev ↔
            (run (lookupStep C) op₀ pre).findings.Stale c := by
          constructor
          · rintro ⟨c', hsome, hold⟩
            rw [hcopy] at hsome
            cases hsome
            exact hold
          · intro hold
            exact ⟨c, hcopy, hold⟩
        rw [hcopy, Option.toList_some, List.foldl_concat, ← hinv.findings] at hnext
        rw [← hinv.findings] at hof
        rw [Option.toList_some, hnext, hstale]
        refine hof.take_served_iff hserved ?_
        -- copies of an immutable item all count alike
        intro himm hhave
        have hall := servedCopy_immutable (C := C) (q := op₀.question) himm op₀ (pre ++ [ev])
        rw [observe_concat, hcopy] at hall
        obtain ⟨c', hc'⟩ := List.exists_mem_of_ne_nil _ (hof.some_iff.mp hhave)
        have hle := hof.newest hhave c' hc'
        rw [hall c' (List.mem_append_left _ hc')] at hle
        rw [hall c (by simp)]
        exact hle

set_option maxRecDepth 4000

/-- Both families serve the same sequence, and both are reported. -/
theorem get_served_sameSeq :
    (getAnswers (run (lookupStep signedCrypto) testOp (twoFamilies '5'))).length = 2 ∧
    AnswersServed (run (lookupStep signedCrypto) testOp (twoFamilies '5'))
      (observe (lookupStep signedCrypto) (servedCopy signedCrypto testOp.question) testOp
        (twoFamilies '5')) := by
  refine ⟨by with_unfolding_all decide, ?_⟩
  refine (get_served_iff signedCrypto testOp testOp_isNewGet (twoFamilies '5')
    (by with_unfolding_all decide)).mpr ?_ _ List.prefix_rfl
  with_unfolding_all decide

/-- The second family serves sequence 3 after the first served 5: the get ends, and its
node is reported as a server of 5. -/
theorem get_served_olderCopy :
    let op := run (lookupStep signedCrypto) testOp (twoFamilies '3')
    EveryStep (lookupStep signedCrypto) GetCalled testOp (twoFamilies '3') ∧ op.done = true ∧
    (getAnswers op).map (fun ans => (ans.seq, ans.node)) =
      [(5, some (.inet (Vector.replicate 4 3) 6881)),
        (5, some (.inet6 (Vector.replicate 16 4) 6881 0))] ∧
    ¬AnswersServed op (observe (lookupStep signedCrypto)
      (servedCopy signedCrypto testOp.question) testOp (twoFamilies '3')) := by
  intro op
  have hdone : op.done = true := by with_unfolding_all decide
  refine ⟨twoFamilies_called, hdone, by with_unfolding_all decide, ?_⟩
  intro h
  have hfound := (answersServed_iff _ _).mp h true (.inet6 (Vector.replicate 16 4) 6881 0)
    (by with_unfolding_all decide)
  revert hfound
  with_unfolding_all decide

end Bep44
end Comrade
