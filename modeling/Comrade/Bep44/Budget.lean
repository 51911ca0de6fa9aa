import Comrade.Lib.Bucket
import Comrade.Bep44.LookupRun

/-!
# The query budget to a held node

`node_budget_ok` (`bep44.c`) over the machine's clock.  Each node held has a bucket, the
64-bit time at which it would have drained; an ask about a node that is held is charged to
the first entry of its address, the pinned ones before the retained.

* `bucketAsk` is what an ask does to a bucket, with the arithmetic of `uint64_t`; short of
  the end of the clock it is the bucket of `Lib.Bucket` (`bucketAsk_eq`).
* `nodeBudget_nodeBudgetOk`: it is also the budget that a lookup asks.
* `nodeBudget_window` is the bound over every window of every sequence of asks.
-/

namespace Comrade
namespace Bep44

open Lib

/-- `struct b44_seed`, by its address and its bucket. -/
structure HeldSeed where
  ss : NodeAddr
  tatMs : UInt64
  deriving DecidableEq

/-- The nodes an engine holds; `retained` lists the entries in use. -/
structure HeldNodes where
  pinned : List HeldSeed
  retained : List HeldSeed
  deriving DecidableEq

/-- The bucket after an ask, and whether the ask is admitted. -/
def bucketAsk (tat now : UInt64) : UInt64 × Bool :=
  let tat := if tat < now then now else tat
  if tat - now > UInt64.ofNat (b44NodeBurst * b44NodeCostMs) then (tat, false)
  else (tat + UInt64.ofNat b44NodeCostMs, true)

/-- The first entry of a list that has the address is charged; `none` where there is none. -/
def chargeFirst (ss : NodeAddr) (now : UInt64) : List HeldSeed → Option (List HeldSeed × Bool)
  | [] => none
  | s :: rest =>
      if addrEq ss s.ss = true then
        some ({ s with tatMs := (bucketAsk s.tatMs now).1 } :: rest, (bucketAsk s.tatMs now).2)
      else (chargeFirst ss now rest).map fun r => (s :: r.1, r.2)

theorem chargeFirst_cons (ss : NodeAddr) (now : UInt64) (s : HeldSeed) (rest : List HeldSeed) :
    chargeFirst ss now (s :: rest) =
      if addrEq ss s.ss = true then
        some ({ s with tatMs := (bucketAsk s.tatMs now).1 } :: rest, (bucketAsk s.tatMs now).2)
      else (chargeFirst ss now rest).map fun r => (s :: r.1, r.2) := rfl

/-- `node_budget_ok`, with the search of `seed_bucket`. -/
def nodeBudget (e : HeldNodes) (ss : NodeAddr) (now : UInt64) : HeldNodes × Bool :=
  match chargeFirst ss now e.pinned with
  | some (pinned, ok) => ({ e with pinned := pinned }, ok)
  | none =>
      match chargeFirst ss now e.retained with
      | some (retained, ok) => ({ e with retained := retained }, ok)
      | none => (e, true)

/-- The bucket of the first entry of a list that has the address. -/
def firstBucket (ss : NodeAddr) (seeds : List HeldSeed) : Option UInt64 :=
  (seeds.find? fun s => addrEq ss s.ss).map HeldSeed.tatMs

/-- `seed_bucket`: the bucket of a node that is held. -/
def seedBucket (e : HeldNodes) (ss : NodeAddr) : Option UInt64 :=
  (firstBucket ss e.pinned).or (firstBucket ss e.retained)

/-! ## One ask -/

/-- The last time at which a bucket cannot run over the end of the clock. -/
def budgetClockEnd : Nat := 2 ^ 64 - (b44NodeBurst + 1) * b44NodeCostMs

/-- Short of the end of the clock the arithmetic of the machine is exact. -/
theorem bucketAsk_eq (tat : UInt64) {now : UInt64} (hnow : now.toNat < budgetClockEnd) :
    (bucketAsk tat now).1.toNat =
        bucketStep (b44NodeBurst * b44NodeCostMs) b44NodeCostMs tat.toNat now.toNat ∧
      (bucketAsk tat now).2 =
        bucketAdmits (b44NodeBurst * b44NodeCostMs) tat.toNat now.toNat := by
  have hend : budgetClockEnd = 2 ^ 64 - 2000 := rfl
  have hlimit : b44NodeBurst * b44NodeCostMs = 1600 := rfl
  have hcost : b44NodeCostMs = 400 := rfl
  have hmax : (if tat < now then now else tat).toNat = max tat.toNat now.toNat := by
    by_cases hlt : tat < now
    · rw [if_pos hlt]
      rw [UInt64.lt_iff_toNat_lt] at hlt
      omega
    · rw [if_neg hlt]
      rw [UInt64.lt_iff_toNat_lt] at hlt
      omega
  have hle : now ≤ if tat < now then now else tat := by
    rw [UInt64.le_iff_toNat_le, hmax]
    omega
  unfold bucketAsk bucketStep bucketAdmits
  rw [hlimit, hcost]
  simp only
  generalize (if tat < now then now else tat) = t at hmax hle
  have hsub : (t - now).toNat = max tat.toNat now.toNat - now.toNat := by
    rw [UInt64.toNat_sub_of_le _ _ hle, hmax]
  have hgt : t - now > UInt64.ofNat 1600 ↔ 1600 < max tat.toNat now.toNat - now.toNat := by
    rw [gt_iff_lt, UInt64.lt_iff_toNat_lt, hsub]
    rfl
  rw [hend] at hnow
  by_cases hfull : 1600 < max tat.toNat now.toNat - now.toNat
  · rw [if_pos (hgt.mpr hfull)]
    simp [not_le.mpr hfull, hmax]
  · rw [if_neg fun h => hfull (hgt.mp h)]
    have hgranted : max tat.toNat now.toNat - now.toNat ≤ 1600 := not_lt.mp hfull
    have hadd : (t + UInt64.ofNat 400).toNat = max tat.toNat now.toNat + 400 := by
      rw [UInt64.toNat_add, hmax]
      show (max tat.toNat now.toNat + 400) % 2 ^ 64 = _
      apply Nat.mod_eq_of_lt
      omega
    have hdec : decide (max tat.toNat now.toNat - now.toNat ≤ 1600) = true :=
      decide_eq_true hgranted
    rw [hdec]
    exact ⟨hadd.trans (if_pos rfl).symm, rfl⟩

/-- The bucket that a lookup charges is this one. -/
theorem bucketAsk_bucketTake {s : B44Seed} {tat now : UInt64} (htat : s.tatMs = tat.toNat)
    (hnow : now.toNat < budgetClockEnd) :
    (bucketTake now.toNat s).1.tatMs = (bucketAsk tat now).1.toNat ∧
      (bucketTake now.toNat s).2 = (bucketAsk tat now).2 := by
  obtain ⟨hstep, hadmits⟩ := bucketAsk_eq tat hnow
  rw [hstep, hadmits]
  unfold bucketTake bucketStep bucketAdmits
  rw [htat]
  simp only
  split
  · rename_i hgt
    simp [not_le.mpr hgt]
  · rename_i hle
    simp [not_lt.mp hle]

/-! ## The entry that is charged -/

theorem addrEq_eq {a b : NodeAddr} (h : addrEq a b = true) : a = b := by
  cases a with
  | inet x port => cases b <;> simp_all [addrEq]
  | inet6 x port scope => cases b <;> simp_all [addrEq]
  | other => cases b <;> simp [addrEq] at h

theorem chargeFirst_none {ss : NodeAddr} {now : UInt64} {seeds : List HeldSeed} :
    chargeFirst ss now seeds = none ↔ firstBucket ss seeds = none := by
  induction seeds with
  | nil => exact iff_of_true rfl rfl
  | cons s rest ih =>
      rw [chargeFirst_cons]
      unfold firstBucket
      by_cases heq : addrEq ss s.ss = true
      · simp [heq]
      · unfold firstBucket at ih
        simp only [heq, Bool.false_eq_true, if_false, Option.map_eq_none_iff, ih]
        simp [heq]

/-- The node asked about is charged in its own bucket. -/
theorem chargeFirst_self {ss : NodeAddr} {now : UInt64} {seeds seeds' : List HeldSeed} {ok : Bool}
    (h : chargeFirst ss now seeds = some (seeds', ok)) :
    ∃ tat, firstBucket ss seeds = some tat ∧
      firstBucket ss seeds' = some (bucketAsk tat now).1 ∧ ok = (bucketAsk tat now).2 := by
  induction seeds generalizing seeds' with
  | nil => cases h
  | cons s rest ih =>
      rw [chargeFirst_cons] at h
      by_cases heq : addrEq ss s.ss = true
      · rw [if_pos heq, Option.some.injEq, Prod.mk.injEq] at h
        obtain ⟨rfl, rfl⟩ := h
        refine ⟨s.tatMs, ?_, ?_, rfl⟩
        · simp [firstBucket, heq]
        · simp [firstBucket, heq]
      · rw [if_neg heq, Option.map_eq_some_iff] at h
        obtain ⟨⟨rest', ok'⟩, hrest, hr⟩ := h
        rw [Prod.mk.injEq] at hr
        obtain ⟨rfl, rfl⟩ := hr
        obtain ⟨tat, hold, hnew, hok⟩ := ih hrest
        refine ⟨tat, ?_, ?_, hok⟩
        · simpa [firstBucket, heq] using hold
        · simpa [firstBucket, heq] using hnew

/-- No other node's bucket moves. -/
theorem chargeFirst_other {ss q : NodeAddr} (hne : q ≠ ss) {now : UInt64}
    {seeds seeds' : List HeldSeed} {ok : Bool} (h : chargeFirst q now seeds = some (seeds', ok)) :
    firstBucket ss seeds' = firstBucket ss seeds := by
  induction seeds generalizing seeds' with
  | nil => cases h
  | cons s rest ih =>
      rw [chargeFirst_cons] at h
      by_cases heq : addrEq q s.ss = true
      · rw [if_pos heq, Option.some.injEq, Prod.mk.injEq] at h
        obtain ⟨rfl, rfl⟩ := h
        have hnot : addrEq ss s.ss = false := by
          rw [← Bool.not_eq_true]
          intro hss
          exact hne ((addrEq_eq heq).trans (addrEq_eq hss).symm)
        simp [firstBucket, hnot]
      · rw [if_neg heq, Option.map_eq_some_iff] at h
        obtain ⟨⟨rest', ok'⟩, hrest, hr⟩ := h
        rw [Prod.mk.injEq] at hr
        obtain ⟨rfl, rfl⟩ := hr
        have hsame := ih hrest
        unfold firstBucket at hsame ⊢
        by_cases hss : addrEq ss s.ss = true
        · simp [hss]
        · simpa [hss] using hsame

/-- An ask about a node that is held is charged to its bucket. -/
theorem nodeBudget_self {e : HeldNodes} {ss : NodeAddr} {tat : UInt64}
    (h : seedBucket e ss = some tat) (now : UInt64) :
    seedBucket (nodeBudget e ss now).1 ss = some (bucketAsk tat now).1 ∧
      (nodeBudget e ss now).2 = (bucketAsk tat now).2 := by
  unfold seedBucket at h
  unfold nodeBudget seedBucket
  cases hpin : chargeFirst ss now e.pinned with
  | some r =>
      obtain ⟨pinned, ok⟩ := r
      obtain ⟨tat', hold, hnew, hok⟩ := chargeFirst_self hpin
      rw [hold, Option.some_or, Option.some.injEq] at h
      subst h
      simp only [hnew, Option.some_or]
      exact ⟨trivial, hok⟩
  | none =>
      have hnone := chargeFirst_none.1 hpin
      rw [hnone, Option.none_or] at h
      cases hret : chargeFirst ss now e.retained with
      | none =>
          rw [chargeFirst_none.1 hret] at h
          cases h
      | some r =>
          obtain ⟨retained, ok⟩ := r
          obtain ⟨tat', hold, hnew, hok⟩ := chargeFirst_self hret
          rw [hold, Option.some.injEq] at h
          subst h
          simp only [hnone, hnew, Option.none_or]
          exact ⟨trivial, hok⟩

/-- An ask about another leaves it alone. -/
theorem nodeBudget_other {e : HeldNodes} {ss q : NodeAddr} (hne : q ≠ ss) (now : UInt64) :
    seedBucket (nodeBudget e q now).1 ss = seedBucket e ss := by
  unfold nodeBudget seedBucket
  cases hpin : chargeFirst q now e.pinned with
  | some r =>
      obtain ⟨pinned, ok⟩ := r
      simp only [chargeFirst_other hne hpin]
  | none =>
      cases hret : chargeFirst q now e.retained with
      | none => rfl
      | some r =>
          obtain ⟨retained, ok⟩ := r
          simp only [chargeFirst_other hne hret]

/-! ## The budget of a lookup -/

/-- The seeds of a lookup, entry by entry, over the machine's clock. -/
def SeedsAgree (held : List HeldSeed) (seeds : List B44Seed) : Prop :=
  List.Forall₂ (fun h s => s.ss = h.ss ∧ s.tatMs = h.tatMs.toNat) held seeds

/-- Charging the first entry of an address, by the list and by its place. -/
theorem chargeFirst_agree (ss : NodeAddr) {now : UInt64} (hnow : now.toNat < budgetClockEnd)
    {held : List HeldSeed} {seeds : List B44Seed} (h : SeedsAgree held seeds) :
    (chargeFirst ss now held = none ∧ (seeds.findIdx? fun s => addrEq ss s.ss) = none) ∨
      ∃ held' ok i s, chargeFirst ss now held = some (held', ok) ∧
        (seeds.findIdx? fun s => addrEq ss s.ss) = some i ∧ seeds[i]? = some s ∧
        SeedsAgree held' (seeds.set i (bucketTake now.toNat s).1) ∧
        ok = (bucketTake now.toNat s).2 := by
  induction h with
  | nil => exact Or.inl ⟨rfl, rfl⟩
  | cons hs hrest ih =>
      rename_i hd sd held seeds
      rw [chargeFirst_cons]
      rw [List.findIdx?_cons, hs.1]
      by_cases heq : addrEq ss hd.ss = true
      · right
        obtain ⟨htat, hok⟩ := bucketAsk_bucketTake hs.2 hnow
        rw [if_pos heq, if_pos heq]
        refine ⟨_, _, 0, sd, rfl, rfl, rfl, .cons ⟨?_, htat⟩ hrest, hok.symm⟩
        have hss : (bucketTake now.toNat sd).1.ss = sd.ss := by
          unfold bucketTake
          simp only
          split <;> rfl
        exact hss.trans hs.1
      · rw [if_neg heq, if_neg heq]
        rcases ih with ⟨hnone, hidx⟩ | ⟨held', ok, i, s, hcharge, hidx, hget, hagree, hok⟩
        · left
          rw [hnone, hidx]
          exact ⟨rfl, rfl⟩
        · right
          rw [hcharge, hidx]
          exact ⟨hd :: held', ok, i + 1, s, rfl, rfl, hget, .cons hs hagree, hok⟩

/-- A lookup's ask is this one, for nodes that agree. -/
theorem nodeBudget_nodeBudgetOk {e : HeldNodes} {a : Asker} (hpin : SeedsAgree e.pinned a.pinned)
    (hret : SeedsAgree e.retained a.retained) (ss : NodeAddr) {now : UInt64}
    (hnow : now.toNat < budgetClockEnd) :
    (nodeBudgetOk a ss now.toNat).2 = (nodeBudget e ss now).2 ∧
      SeedsAgree (nodeBudget e ss now).1.pinned (nodeBudgetOk a ss now.toNat).1.pinned ∧
      SeedsAgree (nodeBudget e ss now).1.retained (nodeBudgetOk a ss now.toNat).1.retained := by
  unfold nodeBudget nodeBudgetOk
  rcases chargeFirst_agree ss hnow hpin with
    ⟨hnone, hidx⟩ | ⟨held', ok, i, s, hcharge, hidx, hget, hagree, hok⟩
  · rcases chargeFirst_agree ss hnow hret with
      ⟨hnone', hidx'⟩ | ⟨held', ok, i, s, hcharge, hidx', hget, hagree, hok⟩
    · simp only [hnone, hidx, hnone', hidx']
      exact ⟨trivial, hpin, hret⟩
    · simp only [hnone, hidx, hcharge, hidx', hget]
      exact ⟨hok.symm, hpin, hagree⟩
  · simp only [hcharge, hidx, hget]
    exact ⟨hok.symm, hagree, hret⟩

/-! ## Windows -/

/-- One ask, about any node. -/
def budgetStep (e : HeldNodes) (q : NodeAddr × UInt64) : HeldNodes := (nodeBudget e q.1 q.2).1

/-- The time of an ask about the node that is admitted. -/
def admittedAt (ss : NodeAddr) (e : HeldNodes) (q : NodeAddr × UInt64) : Option Nat :=
  if q.1 = ss ∧ (nodeBudget e q.1 q.2).2 = true then some q.2.toNat else none

/-- How many asks about the node are admitted within `width` of `start`. -/
def admittedWithin (ss : NodeAddr) (e : HeldNodes) (asks : List (NodeAddr × UInt64))
    (start width : Nat) : Nat :=
  ((observe budgetStep (admittedAt ss) e asks).filter fun t =>
    decide (start ≤ t) && decide (t ≤ start + width)).length

/-- What is admitted of a node is what its bucket admits of the asks about it. -/
theorem observe_admittedAt {ss : NodeAddr} {asks : List (NodeAddr × UInt64)}
    (hclock : ∀ q ∈ asks, q.2.toNat < budgetClockEnd) {e : HeldNodes} {tat : UInt64}
    (htat : seedBucket e ss = some tat) :
    observe budgetStep (admittedAt ss) e asks =
      bucketAdmitted (b44NodeBurst * b44NodeCostMs) b44NodeCostMs tat.toNat
        ((asks.filter fun q => decide (q.1 = ss)).map fun q => q.2.toNat) := by
  induction asks generalizing e tat with
  | nil => rfl
  | cons q asks ih =>
      rw [List.forall_mem_cons] at hclock
      obtain ⟨hnow, hclock⟩ := hclock
      rw [observe_cons]
      by_cases hq : q.1 = ss
      · obtain ⟨hself, hok⟩ := nodeBudget_self htat q.2
        obtain ⟨hstep, hadmits⟩ := bucketAsk_eq tat hnow
        have hnext : seedBucket (budgetStep e q) ss = some (bucketAsk tat q.2).1 := by
          rw [budgetStep, hq]
          exact hself
        rw [ih hclock hnext, hstep, List.filter_cons_of_pos (by simpa using hq), List.map_cons]
        have hseen : admittedAt ss e q = if bucketAdmits (b44NodeBurst * b44NodeCostMs) tat.toNat
            q.2.toNat = true then some q.2.toNat else none := by
          unfold admittedAt
          rw [hq, hok, hadmits]
          simp
        rw [hseen]
        rfl
      · have hnext : seedBucket (budgetStep e q) ss = some tat := by
          rw [budgetStep, nodeBudget_other hq]
          exact htat
        have hseen : admittedAt ss e q = none := if_neg fun h => hq h.1
        rw [ih hclock hnext, hseen, List.filter_cons_of_neg (by simpa using hq)]
        rfl

/-- However a node that is held was asked before and however long it was left alone: the
asks about it that are admitted in any window of `width` ms are no more than a burst and one,
and one for every `B44_NODE_COST_MS` of the window, as long as the clock is not within a full
bucket of its end. -/
theorem nodeBudget_window (e : HeldNodes) (ss : NodeAddr) (hheld : (seedBucket e ss).isSome = true)
    (asks : List (NodeAddr × UInt64)) (hclock : ∀ q ∈ asks, q.2.toNat < budgetClockEnd)
    (start width : Nat) :
    admittedWithin ss e asks start width ≤ b44NodeBurst + 1 + width / b44NodeCostMs := by
  obtain ⟨tat, htat⟩ := Option.isSome_iff_exists.mp hheld
  unfold admittedWithin
  rw [observe_admittedAt hclock htat]
  exact bucket_window (by decide) b44NodeBurst start width tat.toNat _

/-- A node that is pinned. -/
def pinnedNode : NodeAddr := .inet (Vector.replicate 4 8) 6881

def onePinned : HeldNodes := { pinned := [{ ss := pinnedNode, tatMs := 0 }], retained := [] }

theorem nodeBudget_window_seven :
    admittedWithin pinnedNode onePinned (List.replicate 7 (pinnedNode, 100000)) 100000 0 ≤ 5 :=
  nodeBudget_window onePinned pinnedNode rfl (List.replicate 7 (pinnedNode, 100000))
    (by decide) 100000 0

/-- At the end of the clock the bucket runs over, and every ask is admitted. -/
theorem nodeBudget_clockEnd :
    (seedBucket onePinned pinnedNode).isSome = true ∧
      ((List.replicate 7 (pinnedNode, (0xffffffffffffffff : UInt64))).Pairwise fun a b =>
        a.2 ≤ b.2) ∧
      ¬admittedWithin pinnedNode onePinned
        (List.replicate 7 (pinnedNode, (0xffffffffffffffff : UInt64))) 0xffffffffffffffff 0 ≤
          b44NodeBurst + 1 + 0 / b44NodeCostMs := by
  refine ⟨rfl, ?_, ?_⟩
  · simp
  · decide

end Bep44
end Comrade
