import Comrade.Lib.Run
import Comrade.Rdv.HostStep

/-!
# The host's record table over whole runs

* `hostRun_inv` is the table invariant: the counter is right, one answer stands
  in the cell at most, no claimant has two records, and an offer never takes
  over a record in use.
* `hostAccepted_replay_safe` is replay safety: the offers acted on carry
  strictly increasing numbers for each claimant.
-/

namespace Comrade
namespace Rdv

open Lib

/-! ## The table invariant -/

/-- The records that the counter counts. -/
def RdvClaimant.isAnswered (r : RdvClaimant) : Bool := r.state == .answered

/-- The counter is the number of answered records, at most one answer stands in
the cell, and no claimant has two records. -/
structure HostInv (h : RdvHost) : Prop where
  answered_eq : h.answered = slotCount h.c RdvClaimant.isAnswered
  holds_unique : ∀ i j, (h.c i).holds = true → (h.c j).holds = true → i = j
  cid_unique : UniqueKey RdvClaimant.cid RdvClaimant.used h.c

theorem hostInv_init (cid : Cid) (gen : UInt32) (grant : Int) :
    HostInv (rdvHostInit cid gen grant) := by
  refine ⟨?_, ?_, ?_⟩
  · simp [rdvHostInit, slotCount, claimantZero, RdvClaimant.isAnswered]
  · simp [rdvHostInit, claimantZero]
  · intro i j hi
    simp [rdvHostInit, claimantZero, RdvClaimant.used] at hi

/-- The counter follows the count through any write of one record. -/
theorem answeredAfter_slotCount {a : Int} {c : Fin rdvHostMax → RdvClaimant}
    (ha : a = slotCount c RdvClaimant.isAnswered) (i : Fin rdvHostMax) (r : RdvClaimant) :
    answeredAfter a (c i).state r.state =
      slotCount (Function.update c i r) RdvClaimant.isAnswered := by
  have hcount := slotCount_update c RdvClaimant.isAnswered i r
  have hpos : (c i).state = .answered → 0 < slotCount c RdvClaimant.isAnswered := by
    intro h
    exact slotCount_pos (i := i) (by simp [RdvClaimant.isAnswered, h])
  simp only [RdvClaimant.isAnswered, beq_iff_eq] at hcount
  unfold answeredAfter
  split_ifs at hcount ⊢ <;> grind

theorem HostInv.move {h h' : RdvHost} (hinv : HostInv h) (hmove : HostMove h h') :
    HostInv h' := by
  obtain ⟨hcount, hone, hcid⟩ := hinv
  cases hmove with
  | frame hc ha _ =>
      exact ⟨by rw [ha, hc, hcount], by rw [hc]; exact hone, by rw [hc]; exact hcid⟩
  | edit i r hedit hc ha _ hholds =>
      refine ⟨?_, ?_, ?_⟩
      · rw [ha, hc]
        exact answeredAfter_slotCount hcount i r
      · rw [hc]
        -- where the edited record holds the turn, no other one does: either it
        -- held it before, or the turn was free
        have hother : r.holds = true → ∀ j, j ≠ i → (h.c j).holds = false := by
          intro hr j hj
          rcases hholds hr with hi | hnone
          · by_contra hjholds
            exact hj (hone j i (by simpa using hjholds) hi)
          · exact hnone j hj
        intro j k hj hk
        by_cases hji : j = i <;> by_cases hki : k = i
        · rw [hji, hki]
        · subst hji
          rw [Function.update_self] at hj
          rw [Function.update_of_ne hki, hother hj k hki] at hk
          cases hk
        · subst hki
          rw [Function.update_self] at hk
          rw [Function.update_of_ne hji, hother hk j hji] at hj
          cases hj
        · rw [Function.update_of_ne hji] at hj
          rw [Function.update_of_ne hki] at hk
          exact hone j k hj hk
      · rw [hc]
        exact hcid.update_same hedit.cid_eq (by rw [hedit.used_eq]; exact id)

theorem HostInv.harvest {h h' : RdvHost} {m : RdvMsg} {i : Fin rdvHostMax} {r : RdvClaimant}
    (hinv : HostInv h) (hh : HostHarvest h h' m i r) : HostInv h' := by
  obtain ⟨hcount, -, hcid⟩ := hinv
  have hkeys : UniqueKey RdvClaimant.cid RdvClaimant.used (Function.update h.c i r) := by
    rcases hh.whose with ⟨hused, hown, -⟩ | ⟨hfind, -⟩
    · exact hcid.update_same (by rw [hh.cid_eq, hown]) (fun _ => hused)
    · refine hcid.update_fresh ?_
      intro j hj
      rw [hh.cid_eq]
      exact rdvHostFind_none hfind j hj
  refine ⟨?_, ?_, ?_⟩
  · rw [hh.answered_eq, hh.table, answeredAfter_slotCount hcount i r]
    congr 1
  · rw [hh.table]
    intro j k hj
    simp at hj
  · rw [hh.table]
    exact hkeys

theorem HostInv.step {h : RdvHost} (hinv : HostInv h) (op : HostOp) :
    HostInv (hostStep h op) := by
  rcases hostStep_cases h op with ⟨hmove, -⟩ | ⟨m, i, r, -, -, hh, -⟩
  · exact hinv.move hmove
  · exact hinv.harvest hh

/-- What a call of `rdv_host_slot` for one claimant leaves of another's record:
all of it, but that its answer no longer stands in the cell. -/
theorem rdvHostSlot_other {h : RdvHost} {m : RdvMsg} {i : Fin rdvHostMax}
    (hstate : (h.c i).state = .harvested ∨ (h.c i).state = .answered)
    (hcid : (h.c i).cid ≠ m.frm) :
    ∃ b, (rdvHostSlot h m).1.c i = { h.c i with holds := b } := by
  rcases rdvHostSlot_cases h m with hsame | ⟨-, k, r, hh, -⟩
  · exact ⟨(h.c i).holds, by rw [hsame]⟩
  · -- the slot written is the offerer's own or a vacancy, and `i` is neither
    have hik : i ≠ k := by
      rintro rfl
      rcases hh.whose with ⟨-, hown, -⟩ | ⟨-, hvacant⟩
      · exact hcid hown
      · rcases hostVacancy_state hvacant with hs | hs | hs <;> simp [hs] at hstate
    refine ⟨false, ?_⟩
    rw [hh.table]
    dsimp only
    rw [Function.update_of_ne hik]

/-- In every state that calls can reach, the table invariant holds, and an
offer never takes over the record of another claimant that is harvested or
answered. -/
theorem hostRun_inv (cid : Cid) (gen : UInt32) (grant : Int) (ops : List HostOp) :
    let h := run hostStep (rdvHostInit cid gen grant) ops
    h.answered = slotCount h.c (fun r => r.state == .answered) ∧
    (∀ i j, (h.c i).holds = true → (h.c j).holds = true → i = j) ∧
    (∀ i j, (h.c i).state ≠ .free → (h.c j).state ≠ .free → (h.c i).cid = (h.c j).cid → i = j) ∧
    ∀ m i, (h.c i).state = .harvested ∨ (h.c i).state = .answered → (h.c i).cid ≠ m.frm →
      ∃ b, (rdvHostSlot h m).1.c i = { h.c i with holds := b } := by
  intro h
  have hinv : HostInv h :=
    run_invariant (fun _ op hinv => hinv.step op) (hostInv_init cid gen grant) ops
  refine ⟨hinv.answered_eq, hinv.holds_unique, ?_, ?_⟩
  · intro i j hi hj hij
    exact hinv.cid_unique i j (used_of_state_ne hi) (used_of_state_ne hj) hij
  · intro m i hstate hcid
    exact rdvHostSlot_other hstate hcid

/-! ## Replay safety -/

/-- The offers acted on over a run, oldest first. -/
def hostAccepted (h : RdvHost) (ops : List HostOp) : List (Cid × UInt32) :=
  observe hostStep hostAccepts h ops

/-- Who makes an offer to the host in a call. -/
def hostOfferer (cid : Cid) : HostOp → Option Cid
  | .slot m => if hostOffered cid m = true then some m.frm else none
  | _ => none

/-- Everybody who makes an offer to the host over a run. -/
def hostOfferers (cid : Cid) (ops : List HostOp) : Finset Cid :=
  (ops.filterMap (hostOfferer cid)).toFinset

/-- The invariant of replay safety.  `K` holds everybody who ever offers, so a
table as large as `K` never has to give a record away. -/
structure HostReplay (K : Finset Cid) (cid : Cid) (h : RdvHost) (rest : List HostOp)
    (seen : List (Cid × UInt32)) : Prop where
  inv : HostInv h
  grant_eq : h.grant = 0
  cid_eq : h.cid = cid
  known : ∀ i, (h.c i).used = true → (h.c i).cid ∈ K
  numbered : ∀ i, (h.c i).used = true → (h.c i).haveSeq = true
  offerers : hostOfferers cid rest ⊆ K
  kept : ∀ p ∈ seen, ∃ i, (h.c i).used = true ∧ (h.c i).cid = p.1 ∧ p.2 ≤ (h.c i).lastSeq

theorem HostReplay.move {K : Finset Cid} {cid : Cid} {h h' : RdvHost} {rest : List HostOp}
    {seen : List (Cid × UInt32)} (hr : HostReplay K cid h rest seen) (hmove : HostMove h h')
    {rest' : List HostOp} (hrest : hostOfferers cid rest' ⊆ K) :
    HostReplay K cid h' rest' seen := by
  have hinv := hr.inv.move hmove
  cases hmove with
  | frame hc _ hf =>
      obtain ⟨hgrant, hcid⟩ := Prod.mk.inj hf
      refine ⟨hinv, by rw [hgrant, hr.grant_eq], by rw [hcid, hr.cid_eq], ?_, ?_, hrest, ?_⟩
      · rw [hc]
        exact hr.known
      · rw [hc]
        exact hr.numbered
      · rw [hc]
        exact hr.kept
  | edit i r hedit hc _ hf _ =>
      obtain ⟨hgrant, hcid⟩ := Prod.mk.inj hf
      have hback : ∀ j, (h'.c j).cid = (h.c j).cid ∧ (h'.c j).used = (h.c j).used ∧
          (h'.c j).lastSeq = (h.c j).lastSeq ∧ (h'.c j).haveSeq = (h.c j).haveSeq := by
        intro j
        rw [hc]
        by_cases hj : j = i
        · subst hj
          rw [Function.update_self]
          exact ⟨hedit.cid_eq, hedit.used_eq, hedit.lastSeq_eq, hedit.haveSeq_eq⟩
        · rw [Function.update_of_ne hj]
          exact ⟨rfl, rfl, rfl, rfl⟩
      refine ⟨hinv, by rw [hgrant, hr.grant_eq], by rw [hcid, hr.cid_eq], ?_, ?_, hrest, ?_⟩
      · intro j hj
        rw [(hback j).1]
        exact hr.known j ((hback j).2.1 ▸ hj)
      · intro j hj
        rw [(hback j).2.2.2]
        exact hr.numbered j ((hback j).2.1 ▸ hj)
      · intro p hp
        obtain ⟨j, hused, hown, hle⟩ := hr.kept p hp
        obtain ⟨hcidj, husedj, hlastj, -⟩ := hback j
        exact ⟨j, by rw [husedj, hused], by rw [hcidj, hown], by rw [hlastj]; exact hle⟩

/-- While the table has room for everybody who offers, an offer that is taken
lands in the claimant's own record or in a free one. -/
theorem HostReplay.harvest_slot {K : Finset Cid} {cid : Cid} {h h' : RdvHost}
    {rest : List HostOp} {seen : List (Cid × UInt32)} (hr : HostReplay K cid h rest seen)
    (hK : K.card ≤ rdvHostMax) {m : RdvMsg} (hm : m.frm ∈ K) {i : Fin rdvHostMax}
    {r : RdvClaimant} (hh : HostHarvest h h' m i r) :
    ((h.c i).used = true ∧ (h.c i).cid = m.frm ∧ (h.c i).lastSeq < m.seq) ∨
      ((h.c i).used = false ∧ ∀ j, (h.c j).used = true → (h.c j).cid ≠ m.frm) := by
  rcases hh.whose with ⟨hused, hown, hnew⟩ | ⟨hfind, hvacant⟩
  · exact .inl ⟨hused, hown, hnew (hr.numbered i hused)⟩
  · right
    -- a newcomer means one of `K` without a record, so by counting a slot is free
    have hnone := rdvHostFind_none hfind
    obtain ⟨j, hj⟩ := exists_unused_slot hr.inv.cid_unique hK hr.known hm hnone
    have hfree := hostVacancy_free hvacant (j := j) (by simpa [RdvClaimant.used] using hj)
    exact ⟨by simp [RdvClaimant.used, hfree], hnone⟩

theorem HostReplay.harvest {K : Finset Cid} {cid : Cid} {h h' : RdvHost}
    {rest : List HostOp} {seen : List (Cid × UInt32)} (hr : HostReplay K cid h rest seen)
    (hK : K.card ≤ rdvHostMax) {m : RdvMsg} (hm : m.frm ∈ K) {i : Fin rdvHostMax}
    {r : RdvClaimant} (hh : HostHarvest h h' m i r) {rest' : List HostOp}
    (hrest : hostOfferers cid rest' ⊆ K) :
    HostReplay K cid h' rest' (seen ++ [(m.frm, m.seq)]) := by
  obtain ⟨hgrant, hcid⟩ := Prod.mk.inj hh.fixed_eq
  have hrused : r.used = true := by
    rcases hh.state_eq with hs | hs <;> simp [RdvClaimant.used, hs]
  have hat : h'.c i = { r with holds := false } := by
    rw [hh.table]
    simp
  have hother : ∀ j, j ≠ i → h'.c j = { h.c j with holds := false } := by
    intro j hj
    rw [hh.table]
    simp [hj]
  refine ⟨hr.inv.harvest hh, by rw [hgrant, hr.grant_eq], by rw [hcid, hr.cid_eq], ?_, ?_,
    hrest, ?_⟩
  · intro j hj
    by_cases hji : j = i
    · rw [hji, hat]
      simpa [hh.cid_eq] using hm
    · rw [hother j hji] at hj ⊢
      exact hr.known j hj
  · intro j hj
    by_cases hji : j = i
    · rw [hji, hat]
      exact hh.haveSeq_eq
    · rw [hother j hji] at hj ⊢
      exact hr.numbered j hj
  · intro p hp
    rw [List.mem_append, List.mem_singleton] at hp
    rcases hp with hp | rfl
    · obtain ⟨j, hused, hown, hle⟩ := hr.kept p hp
      -- the record of an earlier offer is rewritten only by its own claimant
      by_cases hji : j = i
      · subst hji
        refine ⟨j, by rw [hat]; exact hrused, ?_, ?_⟩
        · rcases hr.harvest_slot hK hm hh with ⟨-, hfrm, -⟩ | ⟨hfree, -⟩
          · rw [hat, ← hown, hfrm]
            exact hh.cid_eq
          · rw [hused] at hfree
            cases hfree
        · rcases hr.harvest_slot hK hm hh with ⟨-, -, hlt⟩ | ⟨hfree, -⟩
          · rw [hat]
            change p.2 ≤ r.lastSeq
            rw [hh.lastSeq_eq]
            exact UInt32.le_of_lt (UInt32.lt_of_le_of_lt hle hlt)
          · rw [hused] at hfree
            cases hfree
      · refine ⟨j, ?_, ?_, ?_⟩ <;> rw [hother j hji]
        · exact hused
        · exact hown
        · exact hle
    · refine ⟨i, by rw [hat]; exact hrused, by rw [hat]; exact hh.cid_eq, ?_⟩
      rw [hat]
      change m.seq ≤ r.lastSeq
      rw [hh.lastSeq_eq]
      exact UInt32.le_refl _

/-- An offer acted on carries a number above every earlier one of the same
claimant. -/
theorem HostReplay.increases {K : Finset Cid} {cid : Cid} {h h' : RdvHost}
    {rest : List HostOp} {seen : List (Cid × UInt32)} (hr : HostReplay K cid h rest seen)
    (hK : K.card ≤ rdvHostMax) {m : RdvMsg} (hm : m.frm ∈ K) {i : Fin rdvHostMax}
    {r : RdvClaimant} (hh : HostHarvest h h' m i r) {p : Cid × UInt32} (hp : p ∈ seen)
    (hfrm : p.1 = m.frm) : p.2 < m.seq := by
  obtain ⟨j, hused, hown, hle⟩ := hr.kept p hp
  rcases hr.harvest_slot hK hm hh with ⟨husedi, howni, hlt⟩ | ⟨-, hnone⟩
  · have hji : j = i := hr.inv.cid_unique j i hused husedi (by rw [hown, howni, hfrm])
    rw [hji] at hle
    exact UInt32.lt_of_le_of_lt hle hlt
  · exact absurd (hown.trans hfrm) (hnone j hused)

theorem hostOfferers_cons (cid : Cid) (op : HostOp) (rest : List HostOp) :
    hostOfferers cid (op :: rest) =
      (hostOfferer cid op).toFinset ∪ hostOfferers cid rest := by
  unfold hostOfferers
  cases ho : hostOfferer cid op with
  | none => simp [ho]
  | some f => simp [ho]

/-- Whoever makes the offer in hand is one of those the table has room for. -/
theorem HostReplay.offerer_mem {K : Finset Cid} {cid : Cid} {h : RdvHost} {m : RdvMsg}
    {rest : List HostOp} {seen : List (Cid × UInt32)}
    (hr : HostReplay K cid h (.slot m :: rest) seen) (hoffer : hostOffered h.cid m = true) :
    m.frm ∈ K := by
  rw [hr.cid_eq] at hoffer
  apply hr.offerers
  rw [hostOfferers_cons]
  exact Finset.mem_union_left _ (by simp [hostOfferer, hoffer])

/-- Without a grant and with no more claimants than records, whatever offers
are replayed, reordered or delayed and whatever is answered, refused, kept and
forgotten in between: each offer is acted on once at most, the numbers acted on
increase strictly for each claimant, and a call that acts on nothing changes
nothing. -/
theorem hostAccepted_replay_safe (cid : Cid) (gen : UInt32) (ops : List HostOp)
    (hoffers : (hostOfferers cid ops).card ≤ rdvHostMax) :
    (hostAccepted (rdvHostInit cid gen 0) ops).Nodup ∧
    (hostAccepted (rdvHostInit cid gen 0) ops).Pairwise (fun p q => p.1 = q.1 → p.2 < q.2) ∧
    EveryStep hostStep
      (fun h op => ∀ m, op = .slot m → (rdvHostSlot h m).2 = false → (rdvHostSlot h m).1 = h)
      (rdvHostInit cid gen 0) ops := by
  have hinit : HostReplay (hostOfferers cid ops) cid (rdvHostInit cid gen 0) ops [] := by
    refine ⟨hostInv_init cid gen 0, rfl, rfl, ?_, ?_, subset_rfl, by simp⟩
    · intro i hi
      simp [rdvHostInit, claimantZero, RdvClaimant.used] at hi
    · intro i hi
      simp [rdvHostInit, claimantZero, RdvClaimant.used] at hi
  have hpair : ([] ++ observe hostStep hostAccepts (rdvHostInit cid gen 0) ops).Pairwise
      (fun p q : Cid × UInt32 => p.1 = q.1 → p.2 < q.2) := by
    refine observe_pairwise (I := HostReplay (hostOfferers cid ops) cid) ?_ ?_ hinit
      List.Pairwise.nil
    · intro h op rest seen hr
      have hsplit := hr.offerers
      rw [hostOfferers_cons, Finset.union_subset_iff] at hsplit
      rcases hostStep_cases h op with ⟨hmove, hnone⟩ | ⟨m, i, r, rfl, hoffer, hh, hacc⟩
      · rw [hnone, Option.toList_none, List.append_nil]
        exact hr.move hmove hsplit.2
      · rw [hacc hr.grant_eq]
        exact hr.harvest hoffers (hr.offerer_mem hoffer) hh hsplit.2
    · intro h op rest seen p hr hobs q hq hfrm
      rcases hostStep_cases h op with ⟨-, hnone⟩ | ⟨m, i, r, rfl, hoffer, hh, hacc⟩
      · rw [hnone] at hobs
        cases hobs
      · rw [hacc hr.grant_eq] at hobs
        obtain rfl := Option.some.inj hobs
        exact hr.increases hoffers (hr.offerer_mem hoffer) hh hq hfrm
  rw [List.nil_append] at hpair
  -- an offer acted on twice would have to stand below itself
  refine ⟨hpair.imp ?_, hpair, ?_⟩
  · rintro p q hlt rfl
    exact UInt32.lt_irrefl _ (hlt rfl)
  · refine everyStep_of_invariant (I := fun h => h.grant = 0) ?_ ?_ rfl ops
    · intro h op hzero
      exact (congrArg Prod.fst (hostStep_fixed h op)).trans hzero
    · rintro h op hzero m rfl hfalse
      rcases rdvHostSlot_cases h m with hsame | ⟨-, i, r, -, hgrant⟩
      · rw [hsame]
      · exact absurd hzero (hgrant hfalse)

/-- Two claimants whose offers keep being served again, one of them answered
and forgotten in between. -/
def replayedOffers : List HostOp :=
  let host : Cid := Vector.replicate 8 1
  let a : Cid := Vector.replicate 8 2
  let b : Cid := Vector.replicate 8 3
  let offer (frm : Cid) (seq : UInt32) : RdvMsg :=
    { kind := .offer, gen := 0, frm := frm, dst := host, seq := seq, re := 0, payload := [7] }
  [.slot (offer a 1), .answer a [9], .slot (offer b 4), .slot (offer a 1), .forget a,
   .slot (offer a 1), .slot (offer b 3), .refuse b 2, .slot (offer a 2), .keep a,
   .slot (offer b 4)]

theorem hostAccepted_replay_safe_replayedOffers :
    (hostOfferers (Vector.replicate 8 1) replayedOffers).card = 2 ∧
    (hostAccepted (rdvHostInit (Vector.replicate 8 1) 0 0) replayedOffers).length = 3 ∧
    (hostAccepted (rdvHostInit (Vector.replicate 8 1) 0 0) replayedOffers).Nodup := by
  have hcard : (hostOfferers (Vector.replicate 8 1) replayedOffers).card = 2 := by
    decide
  refine ⟨hcard, by decide, (hostAccepted_replay_safe _ 0 _ ?_).1⟩
  rw [hcard]
  decide

end Rdv
end Comrade
