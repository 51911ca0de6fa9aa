import Comrade.Lib.Best
import Comrade.Lib.Table
import Comrade.Paths.Path

/-!
# The path table

A connection tracks up to eight paths and carries its session over exactly one
of them (the second half of `path.c`).  Slots are stable, so `sel` keeps its
meaning while paths come and go.

* `pathBest` ranks, `pathSelect` is the escape route and the cold start, and
  `pathChallenger` is the question of a discretionary move.
* `pathBest_spec` says what the ranking picks; everything about it rests on
  `pathCmp` being transitive (`pathCmp_neg_trans`).
-/

namespace Comrade
namespace Paths

open Lib

/-- `PATH_TABLE_MAX`. -/
def pathTableMax : Nat := 8

/-- A slot of the table. -/
abbrev Slot := Fin pathTableMax

instance : NeZero pathTableMax := ⟨by decide⟩

/-- `struct path_table`. -/
structure PathTable where
  p : Slot → Path
  sel : Option Slot

/-- `path_table_init`. -/
def pathTableInit : PathTable := { p := fun _ => pathZero, sel := none }

/-- Write one slot. -/
def PathTable.set (t : PathTable) (i : Slot) (p : Path) : PathTable :=
  { t with p := Function.update t.p i p }

/-- Rewrite every slot in use. -/
def PathTable.mapUsed (t : PathTable) (f : Path → Path) : PathTable :=
  { t with p := fun i => if (t.p i).used = true then f (t.p i) else t.p i }

/-- `kind_is_lanlink`. -/
def kindIsLanlink (k : PathKind) : Bool := k == .segment || k == .routed

/-- `path_table_find`. -/
def pathTableFind (t : PathTable) (kind : PathKind) (ep : PathEp) : Option Slot :=
  firstSlot t.p fun p => p.used && p.kind == kind && p.peerEp == ep

/-- `path_table_find_ep`. -/
def pathTableFindEp (t : PathTable) (ep : PathEp) : Option Slot :=
  firstSlot t.p fun p => p.used && kindIsLanlink p.kind && p.peerEp == ep

/-- `path_table_find_agent`. -/
def pathTableFindAgent (t : PathTable) (agent : Option Agent) : Option Slot :=
  match agent with
  | none => none
  | some _ => firstSlot t.p fun p => p.used && p.agent == agent

/-! ## Room -/

/-- The order in which the paths of a full table are given up: the coldest, and
of those the oldest. -/
def worseThan (t : PathTable) (now : Nat) (i j : Slot) : Bool :=
  let w := (pathWarmthOf (t.p i) now).code
  let ww := (pathWarmthOf (t.p j) now).code
  decide (w > ww) || (w == ww && decide ((t.p i).createdMs < (t.p j).createdMs))

/-- `path_table_evict`: the slot a new path may take, never the one in use. -/
def pathTableEvict (t : PathTable) (now : Nat) : Option Slot :=
  match firstSlot t.p fun p => !p.used with
  | some i => some i
  | none =>
      bestBy (fun i => decide (t.sel ≠ some i)) (worseThan t now) (List.finRange pathTableMax)

/-- A path as `path_table_add` enters it. -/
def pathNew (kind : PathKind) (remote : Option Sockaddr) (agent : Option Agent) (ep : PathEp)
    (now : Nat) : Path :=
  { pathZero with
    used := true
    usable := agent.isNone
    kind := kind
    agent := agent
    peerEp := ep
    remote := remote.getD .unspec
    createdMs := now
    tryingSinceMs := now }

/-- The remote endpoint that `path_table_add` enters a path under; `none` where
the address is of no family it knows. -/
def addEp (remote : Option Sockaddr) : Option PathEp :=
  match remote with
  | none => some pathEpZero
  | some sa => pathEpFromSockaddr sa

/-- `path_table_add`. -/
def pathTableAdd (t : PathTable) (kind : PathKind) (remote : Option Sockaddr)
    (agent : Option Agent) (now : Nat) : PathTable × Option Slot :=
  match addEp remote with
  | none => (t, none)
  | some ep =>
      -- an agent's path is found by its agent, since its endpoint is not known yet
      match if agent.isSome = true then pathTableFindAgent t agent else pathTableFind t kind ep with
      | some i => (t, some i)
      | none =>
          match pathTableEvict t now with
          | none => (t, none)
          | some slot => (t.set slot (pathNew kind remote agent ep now), some slot)

/-- `path_table_spare`. -/
def pathTableSpare (t : PathTable) (now : Nat) : Bool :=
  ((List.finRange pathTableMax).any fun i => !(t.p i).used) ||
    (List.finRange pathTableMax).any fun i =>
      decide (t.sel ≠ some i) && pathWarmthOf (t.p i) now == .dead

/-- `path_table_offer`. -/
def pathTableOffer (t : PathTable) (kind : PathKind) (remote : Option Sockaddr) (now : Nat) :
    PathTable × Option Slot :=
  match remote.bind pathEpFromSockaddr with
  | none => (t, none)
  | some ep =>
      match pathTableFindEp t ep with
      | some i => (t, some i)
      | none =>
          if pathTableSpare t now = false then (t, none)
          else pathTableAdd t kind remote none now

/-- Clear the slots in use that `gone` names, and the choice with them. -/
def pathTableDrop (t : PathTable) (gone : Path → Bool) : PathTable where
  p := fun i => if (t.p i).used = true ∧ gone (t.p i) = true then pathZero else t.p i
  sel := t.sel.filter fun i => !((t.p i).used && gone (t.p i))

/-- `path_table_drop_agent`. -/
def pathTableDropAgent (t : PathTable) (agent : Option Agent) : PathTable :=
  match agent with
  | none => t
  | some _ => pathTableDrop t fun p => p.agent == agent

/-- `path_table_drop_kind`. -/
def pathTableDropKind (t : PathTable) (kind : PathKind) : PathTable :=
  pathTableDrop t fun p => p.kind == kind

/-- `path_table_reset_stats`: drop every measurement and every proof. -/
def pathTableResetStats (t : PathTable) (now : Nat) : PathTable :=
  t.mapUsed fun p =>
    { p with
      nonce := 0
      sentMs := 0
      outstanding := false
      srtt8 := 0
      peerSrttMs := 0
      peerLossPpt := 0
      peerBaseSrttMs := 0
      lossReg := 0
      lossN := 0
      rttN := 0
      rttI := 0
      lastPongMs := 0
      nextProbeMs := 0
      qualified := false
      tryingSinceMs := now }

/-! ## The choice -/

/-- May `path_best` pick this path? -/
def candidate (p : Path) : Bool := p.used && p.usable && !fullyLost p

/-- Does slot `i` rank ahead of slot `j`? -/
def ranksAhead (t : PathTable) (now : Nat) (i j : Slot) : Bool :=
  decide (pathCmp (t.p i) (t.p j) now < 0)

/-- `path_best`. -/
def pathBest (t : PathTable) (now : Nat) : Option Slot :=
  bestBy (fun i => candidate (t.p i)) (ranksAhead t now) (List.finRange pathTableMax)

/-- The loop at the head of `path_select`: every probe past its deadline is
scored. -/
def expireProbes (t : PathTable) (now : Nat) : PathTable :=
  t.mapUsed fun p => pathProbeExpire p now

/-- Does `path_select` keep the path in use, with `best` the best there is? -/
def keepsSel (t : PathTable) (best : Slot) (now : Nat) : Option Slot → Bool
  | none => false
  | some i =>
      (t.p i).used && (t.p i).usable &&
        !decide ((pathWarmthOf (t.p best) now).code < (pathWarmthOf (t.p i) now).code)

/-- `path_select`; the path chosen is the new `sel`. -/
def pathSelect (t : PathTable) (now : Nat) : PathTable :=
  let t := expireProbes t now
  match pathBest t now with
  | none => { t with sel := none }
  | some best => if keepsSel t best now t.sel = true then t else { t with sel := some best }

/-- `challenger_eligible`. -/
def challengerEligible (t : PathTable) (i sel : Slot) (now : Nat) : Bool :=
  if i = sel ∨ (t.p i).used = false ∨ (t.p i).usable = false then false
  else if fullyLost (t.p i) = true then false
  else if pathWarmthOf (t.p i) now ≠ pathWarmthOf (t.p sel) now then false
  else decide (pathBaseSrttMs (t.p i) > 0)

/-- `path_challenger`: the path that beats the one in use on the unloaded and
the loaded bucket at once. -/
def pathChallenger (t : PathTable) (now : Nat) : Option Slot :=
  match t.sel with
  | none => none
  | some sel =>
      if (t.p sel).used = false then none
      else
        bestBy
          (fun i => challengerEligible t i sel now &&
            decide (pathBaseBucket (t.p i) < pathBaseBucket (t.p sel)) &&
            decide (pathBucket (t.p i) < pathBucket (t.p sel)))
          (ranksAhead t now) (List.finRange pathTableMax)

/-! ## The order behind the choice -/

theorem PathWarmth.code_injective {w w' : PathWarmth} (h : w.code = w'.code) : w = w' := by
  cases w <;> cases w' <;> first | rfl | exact absurd h (by decide)

/-- `path_cmp` is the lexicographic order of warmth, bucket and id. -/
theorem pathCmp_neg_iff (a b : Path) (now : Nat) :
    pathCmp a b now < 0 ↔
      (pathWarmthOf a now).code < (pathWarmthOf b now).code ∨
        (pathWarmthOf a now = pathWarmthOf b now ∧
          (pathBucket a < pathBucket b ∨
            (pathBucket a = pathBucket b ∧ memcmp a.id.toList b.id.toList < 0))) := by
  unfold pathCmp
  dsimp only
  by_cases hw : pathWarmthOf a now = pathWarmthOf b now
  · rw [if_neg (not_not.mpr hw)]
    by_cases hb : pathBucket a = pathBucket b
    · rw [if_neg (not_not.mpr hb)]
      simp [hw, hb]
    · rw [if_pos hb]
      split_ifs with hlt
      · simp [hw, hlt]
      · simp [hw, hb, hlt]
  · rw [if_pos hw]
    split_ifs with hlt
    · simp [hlt]
    · simp [hlt, hw]

theorem pathCmp_self (p : Path) (now : Nat) : pathCmp p p now = 0 := by
  unfold pathCmp
  simp [memcmp_self]

theorem pathCmp_neg_trans {a b c : Path} {now : Nat} (hab : pathCmp a b now < 0)
    (hbc : pathCmp b c now < 0) : pathCmp a c now < 0 := by
  rw [pathCmp_neg_iff] at hab hbc ⊢
  rcases hab with hab | ⟨hwab, hab⟩
  · rcases hbc with hbc | ⟨hwbc, -⟩
    · exact .inl (hab.trans hbc)
    · rw [← hwbc]
      exact .inl hab
  · -- level in warmth: the buckets decide, and below them the ids
    rcases hbc with hbc | ⟨hwbc, hbc⟩
    · rw [hwab]
      exact .inl hbc
    · refine .inr ⟨hwab.trans hwbc, ?_⟩
      rcases hab with hab | ⟨hbab, hab⟩
      · rcases hbc with hbc | ⟨hbbc, -⟩
        · exact .inl (hab.trans hbc)
        · rw [← hbbc]
          exact .inl hab
      · rcases hbc with hbc | ⟨hbbc, hbc⟩
        · rw [hbab]
          exact .inl hbc
        · exact .inr ⟨hbab.trans hbbc, memcmp_neg_trans (by simp) (by simp) hab hbc⟩

/-- Of two paths with distinct ids one ranks ahead. -/
theorem pathCmp_neg_or {a b : Path} (now : Nat) (hid : a.id ≠ b.id) :
    pathCmp a b now < 0 ∨ pathCmp b a now < 0 := by
  rw [pathCmp_neg_iff, pathCmp_neg_iff]
  rcases Nat.lt_trichotomy (pathWarmthOf a now).code (pathWarmthOf b now).code with h | h | h
  · exact .inl (.inl h)
  · have hw := PathWarmth.code_injective h
    rcases lt_trichotomy (pathBucket a) (pathBucket b) with hb | hb | hb
    · exact .inl (.inr ⟨hw, .inl hb⟩)
    · -- level in warmth and bucket: the id decides, and it cannot tie
      have hne : memcmp a.id.toList b.id.toList ≠ 0 := by
        intro hzero
        have := (memcmp_eq_zero_iff (by simp)).mp hzero
        exact hid (Vector.toList_inj.mp this)
      rcases lt_or_gt_of_ne hne with hlt | hgt
      · exact .inl (.inr ⟨hw, .inr ⟨hb, hlt⟩⟩)
      · refine .inr (.inr ⟨hw.symm, .inr ⟨hb.symm, ?_⟩⟩)
        rw [memcmp_swap a.id.toList b.id.toList]
        omega
    · exact .inr (.inr ⟨hw.symm, .inl hb⟩)
  · exact .inr (.inl h)

/-- What `path_best` picks: a candidate that no candidate ranks ahead of, and
none only where there is no candidate. -/
theorem pathBest_spec (t : PathTable) (now : Nat) :
    match pathBest t now with
    | none => ∀ i, candidate (t.p i) = false
    | some b => candidate (t.p b) = true ∧
        ∀ i, candidate (t.p i) = true → ¬pathCmp (t.p i) (t.p b) now < 0 := by
  have hscan : BestOf (fun i => candidate (t.p i)) (ranksAhead t now) (List.finRange pathTableMax)
      (pathBest t now) := by
    refine bestBy_bestOf ?_ ?_ _
    · intro i
      simp [ranksAhead, pathCmp_self]
    · intro i j k hij hjk
      simp only [ranksAhead, decide_eq_true_eq] at hij hjk ⊢
      exact pathCmp_neg_trans hij hjk
  cases hbest : pathBest t now with
  | none =>
      rw [hbest] at hscan
      intro i
      exact hscan i (List.mem_finRange i)
  | some b =>
      rw [hbest] at hscan
      obtain ⟨-, hok, hmin⟩ := hscan
      refine ⟨hok, ?_⟩
      intro i hi
      simpa [ranksAhead] using hmin i (List.mem_finRange i) hi

end Paths
end Comrade
