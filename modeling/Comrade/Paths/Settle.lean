import Comrade.Lib.Run
import Comrade.Paths.PlaneRun
import Comrade.Paths.Rank

/-!
# Moves of the choice

The path in use changes in two ways: `path_select` escapes from a path that cannot
carry or has grown colder than another, and a discretionary move goes to the path that
`path_challenger` names.

* `pathSelect_cases` is everything that a selection can do, `pathChallenger_spec` what a
  challenger is.
* `pathSelect_notLost_iff`: when a selection stays clear of a path that is fully lost.
  The incumbent is compared by warmth alone.
* `pathChallenger_better_iff`: when a path that is measured better gets a challenger
  named.  A round trip under a millisecond reads as none at all.
* `moves_settle`: with nothing measured anew, every move but the first ranks ahead of
  the path it leaves, so that the moves end.
-/

namespace Comrade
namespace Paths

open Lib

variable {t : PathTable} {now : Nat}

/-! ## A selection -/

/-- What a selection finds in a slot: the path, with its probe scored where that is past
its deadline. -/
def scored (t : PathTable) (now : Nat) (i : Slot) : Path :=
  if (t.p i).used = true then pathProbeExpire (t.p i) now else t.p i

theorem pathProbeExpire_fixed (p : Path) (now : Nat) :
    (pathProbeExpire p now).used = p.used ∧ (pathProbeExpire p now).usable = p.usable ∧
      pathWarmthOf (pathProbeExpire p now) now = pathWarmthOf p now := by
  unfold pathProbeExpire
  split_ifs <;> exact ⟨rfl, rfl, rfl⟩

theorem scored_fixed (t : PathTable) (now : Nat) (i : Slot) :
    (scored t now i).used = (t.p i).used ∧ (scored t now i).usable = (t.p i).usable ∧
      pathWarmthOf (scored t now i) now = pathWarmthOf (t.p i) now := by
  unfold scored
  split_ifs
  · exact pathProbeExpire_fixed _ _
  · exact ⟨rfl, rfl, rfl⟩

theorem expireProbes_p (t : PathTable) (now : Nat) : (expireProbes t now).p = scored t now := rfl

/-- Everything a selection can do: with no candidate it leaves no choice; otherwise it
keeps the path in use, which no candidate is warmer than, or moves to the best. -/
theorem pathSelect_cases (t : PathTable) (now : Nat) :
    ((∀ i, candidate (scored t now i) = false) ∧ (pathSelect t now).sel = none) ∨
      ∃ b, candidate (scored t now b) = true ∧
        (∀ i, candidate (scored t now i) = true →
          ¬pathCmp (scored t now i) (scored t now b) now < 0) ∧
        ((∃ s, t.sel = some s ∧ (pathSelect t now).sel = some s ∧ (t.p s).used = true ∧
            (t.p s).usable = true ∧
            (pathWarmthOf (t.p s) now).code ≤ (pathWarmthOf (t.p b) now).code) ∨
          ((pathSelect t now).sel = some b ∧ ∀ s, t.sel = some s → (t.p s).used = true →
            (t.p s).usable = true →
            (pathWarmthOf (t.p b) now).code < (pathWarmthOf (t.p s) now).code)) := by
  have hspec := pathBest_spec (expireProbes t now) now
  have hsel : (expireProbes t now).sel = t.sel := rfl
  unfold pathSelect
  dsimp only
  cases hbest : pathBest (expireProbes t now) now with
  | none =>
      rw [hbest] at hspec
      exact .inl ⟨hspec, rfl⟩
  | some b =>
      rw [hbest] at hspec
      refine .inr ⟨b, hspec.1, hspec.2, ?_⟩
      dsimp only
      obtain ⟨-, -, hwarmb⟩ := scored_fixed t now b
      cases hs : t.sel with
      | none =>
          rw [hsel, hs, keepsSel, if_neg (by simp)]
          exact .inr ⟨rfl, by simp⟩
      | some s =>
          obtain ⟨hused, husable, hwarm⟩ := scored_fixed t now s
          rw [hsel, hs, keepsSel, expireProbes_p, hused, husable, hwarm, hwarmb]
          by_cases hkeep : ((t.p s).used && (t.p s).usable && !decide
              ((pathWarmthOf (t.p b) now).code < (pathWarmthOf (t.p s) now).code)) = true
          · rw [if_pos hkeep]
            simp only [Bool.and_eq_true, Bool.not_eq_true', decide_eq_false_iff_not] at hkeep
            exact .inl ⟨s, rfl, hs, hkeep.1.1, hkeep.1.2, not_lt.mp hkeep.2⟩
          · rw [if_neg hkeep]
            refine .inr ⟨rfl, ?_⟩
            rintro s' hs' hu hu'
            cases hs'
            by_contra hnot
            exact hkeep (by simp [hu, hu', hnot])

/-- The path in use can send and is fully lost; there is a candidate, and none of them
is warmer. -/
def HeldLost (t : PathTable) (now : Nat) : Prop :=
  ∃ s, t.sel = some s ∧ (t.p s).used = true ∧ (t.p s).usable = true ∧
    fullyLost (scored t now s) = true ∧ (∃ i, candidate (scored t now i) = true) ∧
    ∀ i, candidate (scored t now i) = true →
      (pathWarmthOf (t.p s) now).code ≤ (pathWarmthOf (t.p i) now).code

/-- For every table and time: the path that a selection returns is not fully lost,
exactly unless it is the incumbent that is kept although it is. -/
theorem pathSelect_notLost_iff (t : PathTable) (now : Nat) :
    (∀ i, (pathSelect t now).sel = some i → fullyLost ((pathSelect t now).p i) = false) ↔
      ¬HeldLost t now := by
  rw [pathSelect_p, expireProbes_p]
  rcases pathSelect_cases t now with ⟨hnone, hsel⟩ | ⟨b, hb, hmin, hcases⟩
  · rw [hsel]
    refine iff_of_true (by simp) ?_
    rintro ⟨s, -, -, -, -, ⟨i, hi⟩, -⟩
    rw [hnone i] at hi
    cases hi
  · have hblost : fullyLost (scored t now b) = false := by
      simp only [candidate, Bool.and_eq_true, Bool.not_eq_true'] at hb
      exact hb.2
    -- the best is as warm as any candidate
    have hwarmest : ∀ i, candidate (scored t now i) = true →
        (pathWarmthOf (t.p b) now).code ≤ (pathWarmthOf (t.p i) now).code := by
      intro i hi
      have hahead := hmin i hi
      rw [pathCmp_neg_iff, (scored_fixed t now i).2.2, (scored_fixed t now b).2.2, not_or]
        at hahead
      exact not_lt.mp hahead.1
    rcases hcases with ⟨s, hs, hsel, hused, husable, hwarm⟩ | ⟨hsel, hmoves⟩
    · rw [hsel]
      constructor
      · rintro hclear ⟨s', hs', -, -, hlost, -⟩
        cases hs.symm.trans hs'
        rw [hclear s rfl] at hlost
        cases hlost
      · intro hno i hi
        cases hi
        by_contra hlost
        exact hno ⟨s, hs, hused, husable, by simpa using hlost, ⟨b, hb⟩,
          fun i hi => hwarm.trans (hwarmest i hi)⟩
    · rw [hsel]
      refine iff_of_true ?_ ?_
      · intro i hi
        cases hi
        exact hblost
      · rintro ⟨s, hs, hused, husable, -, -, hle⟩
        have hlt := hmoves s hs hused husable
        have hge := hle b hb
        omega

/-- A path that was asked eight times and never answered. -/
def silentEight : Path :=
  { pathZero with used := true, usable := true, lossReg := 0xff, lossN := 8 }

/-- It stays in use although another path could carry, which is as dead. -/
theorem pathSelect_keepsLost :
    ¬∀ (t : PathTable) (now : Nat) (i : Slot), (pathSelect t now).sel = some i →
      fullyLost ((pathSelect t now).p i) = false := by
  intro h
  have hclear := h
    { twoPaths silentEight { pathZero with used := true, usable := true } with sel := some 0 }
    9000 0 (by decide)
  exact absurd hclear (by decide)

/-! ## A challenger -/

/-- The test that `path_challenger` puts to a slot. -/
def challenges (t : PathTable) (sel : Slot) (now : Nat) (i : Slot) : Bool :=
  challengerEligible t i sel now && decide (pathBaseBucket (t.p i) < pathBaseBucket (t.p sel)) &&
    decide (pathBucket (t.p i) < pathBucket (t.p sel))

theorem challenges_iff {sel i : Slot} :
    challenges t sel now i = true ↔
      candidate (t.p i) = true ∧ pathWarmthOf (t.p i) now = pathWarmthOf (t.p sel) now ∧
        0 < pathBaseSrttMs (t.p i) ∧ pathBaseBucket (t.p i) < pathBaseBucket (t.p sel) ∧
        pathBucket (t.p i) < pathBucket (t.p sel) := by
  unfold challenges challengerEligible candidate
  by_cases hsame : i = sel
  · subst hsame
    simp
  cases (t.p i).used with
  | false => simp
  | true =>
      cases (t.p i).usable with
      | false => simp
      | true =>
          cases fullyLost (t.p i) with
          | true => simp
          | false =>
              by_cases hwarm : pathWarmthOf (t.p i) now = pathWarmthOf (t.p sel) now
              · simp [hsame, hwarm, and_assoc]
              · simp [hsame, hwarm]

/-- What `path_challenger` names: a path that passes the test, and none only where none
does. -/
theorem pathChallenger_spec (t : PathTable) (now : Nat) :
    (∀ c, pathChallenger t now = some c →
        ∃ s, t.sel = some s ∧ (t.p s).used = true ∧ challenges t s now c = true) ∧
      (pathChallenger t now = none → ∀ s, t.sel = some s → (t.p s).used = true →
        ∀ i, challenges t s now i = false) := by
  unfold pathChallenger
  cases hs : t.sel with
  | none => simp
  | some s =>
      dsimp only
      cases hused : (t.p s).used with
      | false => simp [hused]
      | true =>
          rw [if_neg (by simp)]
          have hscan : BestOf (challenges t s now) (ranksAhead t now) (List.finRange pathTableMax)
              (bestBy (challenges t s now) (ranksAhead t now) (List.finRange pathTableMax)) := by
            refine bestBy_bestOf ?_ ?_ _
            · intro i
              simp [ranksAhead, pathCmp_self]
            · intro i j k hij hjk
              simp only [ranksAhead, decide_eq_true_eq] at hij hjk ⊢
              exact pathCmp_neg_trans hij hjk
          change (∀ c, bestBy (challenges t s now) (ranksAhead t now) _ = some c → _) ∧
            (bestBy (challenges t s now) (ranksAhead t now) _ = none → _)
          refine ⟨?_, ?_⟩
          · intro c hc
            rw [hc] at hscan
            exact ⟨s, rfl, hused, hscan.2.1⟩
          · intro hnone s' hs' _ i
            cases hs'
            rw [hnone] at hscan
            exact hscan i (List.mem_finRange i)

theorem pathBaseSrttMs_of_none {p : Path} (h : p.rttN = 0) : pathBaseSrttMs p = 0 := by
  simp [pathBaseSrttMs, h]

/-- A path that has round-tripped beats the path in use on both buckets: it is in its
tier, can carry and is not fully lost. -/
def BetterMeasured (t : PathTable) (sel : Slot) (now : Nat) (i : Slot) : Prop :=
  candidate (t.p i) = true ∧ pathWarmthOf (t.p i) now = pathWarmthOf (t.p sel) now ∧
    (t.p i).rttN ≠ 0 ∧ pathBaseBucket (t.p i) < pathBaseBucket (t.p sel) ∧
    pathBucket (t.p i) < pathBucket (t.p sel)

/-- A challenger is a path that is measured better, at a millisecond or more. -/
theorem challenges_iff_better {sel i : Slot} :
    challenges t sel now i = true ↔
      BetterMeasured t sel now i ∧ 0 < pathBaseSrttMs (t.p i) := by
  rw [challenges_iff]
  constructor
  · rintro ⟨hcand, hwarm, hbase, hbuckets⟩
    refine ⟨⟨hcand, hwarm, ?_, hbuckets⟩, hbase⟩
    intro hnone
    rw [pathBaseSrttMs_of_none hnone] at hbase
    exact lt_irrefl 0 hbase
  · rintro ⟨⟨hcand, hwarm, -, hbuckets⟩, hbase⟩
    exact ⟨hcand, hwarm, hbase, hbuckets⟩

/-- For every table and time: a path that is measured better than the incumbent makes
`path_challenger` name one, and it names none that has not round-tripped, exactly when
one of the better paths has a least round trip of a millisecond or more. -/
theorem pathChallenger_better_iff (t : PathTable) (now : Nat) :
    ((∀ s, t.sel = some s → (t.p s).used = true → (∃ i, BetterMeasured t s now i) →
        (pathChallenger t now).isSome = true) ∧
      ∀ c, pathChallenger t now = some c → (t.p c).rttN ≠ 0) ↔
    ∀ s, t.sel = some s → (t.p s).used = true → (∃ i, BetterMeasured t s now i) →
      ∃ i, BetterMeasured t s now i ∧ 0 < pathBaseSrttMs (t.p i) := by
  obtain ⟨hsome, hnone⟩ := pathChallenger_spec t now
  constructor
  · rintro ⟨hnames, -⟩ s hs hused hbetter
    obtain ⟨c, hc⟩ := Option.isSome_iff_exists.mp (hnames s hs hused hbetter)
    obtain ⟨s', hs', -, htest⟩ := hsome c hc
    cases hs.symm.trans hs'
    exact ⟨c, challenges_iff_better.1 htest⟩
  · intro hmeasured
    refine ⟨?_, ?_⟩
    · intro s hs hused hbetter
      obtain ⟨i, hi⟩ := hmeasured s hs hused hbetter
      by_contra hno
      have htest := hnone (by simpa using hno) s hs hused i
      rw [challenges_iff_better.2 hi] at htest
      cases htest
    · intro c hc
      obtain ⟨s, -, -, htest⟩ := hsome c hc
      exact (challenges_iff_better.1 htest).1.2.2.1

/-- A path that answered once, with its round trip in the ring. -/
def answeredPath (name : UInt8) (rtt : UInt16) : Path :=
  { measuredPath name rtt.toNat 0 with rtt := Vector.replicate 16 rtt, rttN := 1 }

/-- A path that answers within the millisecond does not challenge one that takes
fifty. -/
theorem pathChallenger_skipsFast :
    ¬∀ (t : PathTable) (now : Nat) (s i : Slot), t.sel = some s → (t.p s).used = true →
      BetterMeasured t s now i → (pathChallenger t now).isSome = true := by
  intro h
  have hnamed := h { twoPaths (answeredPath 1 50) (answeredPath 2 0) with sel := some 0 } 1000 0 1
    rfl (by decide)
    ⟨by decide, by decide, by decide, by decide,
      by decide⟩
  exact absurd hnamed (by decide)

/-! ## Moves -/

/-- A move of the choice: a selection, or to the path that challenges. -/
inductive SelMove where
  | select
  | challenge
  deriving DecidableEq, Repr

/-- The table after a move, the clock standing still. -/
def selMove (now : Nat) (t : PathTable) : SelMove → PathTable
  | .select => pathSelect t now
  | .challenge =>
      match pathChallenger t now with
      | none => t
      | some c => { t with sel := some c }

/-- The new choice, where a move changes it. -/
def newSel (now : Nat) (t : PathTable) (m : SelMove) : Option (Option Slot) :=
  if (selMove now t m).sel = t.sel then none else some (selMove now t m).sel

/-- No outstanding probe is past its deadline. -/
def NoneOverdue (t : PathTable) (now : Nat) : Prop :=
  ∀ i, (t.p i).used = true → (t.p i).outstanding = false ∨ now ≤ (t.p i).sentMs ∨
    ((now - (t.p i).sentMs : Nat) : Int) ≤ lossDeadline (t.p i)

theorem scored_of_noneOverdue (h : NoneOverdue t now) : scored t now = t.p := by
  funext i
  unfold scored
  split_ifs with hused
  · exact if_pos (h i hused)
  · rfl

theorem selMove_p (h : NoneOverdue t now) (m : SelMove) : (selMove now t m).p = t.p := by
  cases m with
  | select =>
      show (pathSelect t now).p = t.p
      rw [pathSelect_p, expireProbes_p, scored_of_noneOverdue h]
  | challenge =>
      unfold selMove
      cases pathChallenger t now <;> rfl

/-- What a move can be: with no candidate, the choice is given up; otherwise it goes to a
candidate, which ranks ahead of the path left if that could carry. -/
theorem newSel_cases (h : NoneOverdue t now) {m : SelMove} {s' : Option Slot}
    (hmove : newSel now t m = some s') :
    (selMove now t m).sel = s' ∧
      (((∀ i, candidate (t.p i) = false) ∧ s' = none ∧ t.sel ≠ none) ∨
        ∃ c, s' = some c ∧ candidate (t.p c) = true ∧
          ∀ s, t.sel = some s → candidate (t.p s) = true → pathCmp (t.p c) (t.p s) now < 0) := by
  unfold newSel at hmove
  split_ifs at hmove with hsame
  cases hmove
  refine ⟨rfl, ?_⟩
  cases m with
  | select =>
      have hcases := pathSelect_cases t now
      rw [scored_of_noneOverdue h] at hcases
      simp only [selMove] at hsame ⊢
      rcases hcases with ⟨hnone, hsel⟩ | ⟨b, hb, -, hcases⟩
      · rw [hsel] at hsame ⊢
        exact .inl ⟨hnone, rfl, Ne.symm hsame⟩
      · rcases hcases with ⟨s, hs, hsel, -⟩ | ⟨hsel, hwarmer⟩
        · rw [hsel, hs] at hsame
          exact absurd rfl hsame
        · refine .inr ⟨b, hsel, hb, ?_⟩
          intro s hs hcand
          simp only [candidate, Bool.and_eq_true] at hcand
          rw [pathCmp_neg_iff]
          exact .inl (hwarmer s hs hcand.1.1 hcand.1.2)
  | challenge =>
      simp only [selMove] at hsame ⊢
      cases hc : pathChallenger t now with
      | none =>
          rw [hc] at hsame
          exact absurd rfl hsame
      | some c =>
          obtain ⟨s, hs, -, htest⟩ := (pathChallenger_spec t now).1 c hc
          obtain ⟨hcand, hwarm, -, -, hbucket⟩ := challenges_iff.1 htest
          refine .inr ⟨c, rfl, hcand, ?_⟩
          intro s' hs' _
          cases hs.symm.trans hs'
          rw [pathCmp_neg_iff]
          exact .inr ⟨hwarm, .inl hbucket⟩

/-- The moves so far: none, the choice given up where there is no candidate, or a chain
of candidates each of which ranks ahead of all before it. -/
structure Settling (t₀ : PathTable) (now : Nat) (t : PathTable) (moves : List (Option Slot)) :
    Prop where
  p : t.p = t₀.p
  none_of : (∀ i, candidate (t₀.p i) = false) →
    moves = [] ∨ (moves = [none] ∧ t.sel = none)
  chain : (∃ i, candidate (t₀.p i) = true) →
    ∃ slots : List Slot, moves = slots.map some ∧
      slots.Pairwise (fun i j => pathCmp (t₀.p j) (t₀.p i) now < 0) ∧
      ∀ last ∈ slots.getLast?, t.sel = some last ∧ candidate (t₀.p last) = true

theorem Settling.step {t₀ : PathTable} {moves : List (Option Slot)} (h₀ : NoneOverdue t₀ now)
    (h : Settling t₀ now t moves) (m : SelMove) :
    Settling t₀ now (selMove now t m) (moves ++ (newSel now t m).toList) := by
  have hover : NoneOverdue t now := by
    intro i
    rw [h.p]
    exact h₀ i
  have hp : (selMove now t m).p = t₀.p := (selMove_p hover m).trans h.p
  cases hmove : newSel now t m with
  | none =>
      have hsel : (selMove now t m).sel = t.sel := by
        unfold newSel at hmove
        split_ifs at hmove with hsame
        exact hsame
      rw [Option.toList_none, List.append_nil]
      refine ⟨hp, ?_, ?_⟩
      · rw [hsel]
        exact h.none_of
      · rw [hsel]
        exact h.chain
  | some s' =>
      obtain ⟨hsel, hcases⟩ := newSel_cases hover hmove
      rw [h.p] at hcases
      rw [Option.toList_some]
      rcases hcases with ⟨hnone, rfl, hwas⟩ | ⟨c, rfl, hc, hahead⟩
      · -- given up, for the first time
        refine ⟨hp, ?_, ?_⟩
        · intro _
          rcases h.none_of hnone with hempty | ⟨-, hgone⟩
          · rw [hempty]
            exact .inr ⟨rfl, hsel⟩
          · exact absurd hgone hwas
        · rintro ⟨i, hi⟩
          rw [hnone i] at hi
          cases hi
      · refine ⟨hp, ?_, ?_⟩
        · intro hnone
          rw [hnone c] at hc
          cases hc
        · intro hsome
          obtain ⟨slots, hslots, hpairs, hlast⟩ := h.chain hsome
          refine ⟨slots ++ [c], by rw [hslots, List.map_append]; rfl, ?_, ?_⟩
          · rw [List.pairwise_append]
            refine ⟨hpairs, List.pairwise_singleton _ _, ?_⟩
            intro i hi j hj
            rw [List.mem_singleton.mp hj]
            -- ahead of the last, which is ahead of all the others
            rcases List.eq_nil_or_concat slots with hempty | ⟨front, last, hconcat⟩
            · rw [hempty] at hi
              cases hi
            · rw [List.concat_eq_append] at hconcat
              subst hconcat
              obtain ⟨hcur, hcand⟩ := hlast last (by simp)
              have hfirst := hahead last hcur hcand
              rcases List.mem_append.mp hi with hi | hi
              · have hprev := (List.pairwise_append.mp hpairs).2.2 i hi last (by simp)
                exact pathCmp_neg_trans hfirst hprev
              · rw [List.mem_singleton.mp hi]
                exact hfirst
          · intro last hmem
            rw [List.getLast?_concat] at hmem
            cases hmem
            exact ⟨hsel, hc⟩

theorem settling_run (h : NoneOverdue t now) (moves : List SelMove) :
    Settling t now (run (selMove now) t moves) (observe (selMove now) (newSel now) t moves) := by
  induction moves using List.reverseRecOn with
  | nil =>
      refine ⟨rfl, fun _ => .inl rfl, fun _ => ⟨[], rfl, List.Pairwise.nil, by simp⟩⟩
  | append_singleton moves m ih =>
      rw [run_concat, observe_concat]
      exact ih.step h m

/-- For every table in which no probe is overdue, with the measurements, the usability
and the clock standing still, and for every sequence of selections and moves to the
challenger: no path is moved to twice, there are at most `PATH_TABLE_MAX` moves, and the
path left for a challenger is no challenger of it. -/
theorem moves_settle (t : PathTable) (now : Nat) (h : NoneOverdue t now) (moves : List SelMove) :
    (observe (selMove now) (newSel now) t moves).Nodup ∧
      (observe (selMove now) (newSel now) t moves).length ≤ pathTableMax ∧
      ∀ s c, (run (selMove now) t moves).sel = some s →
        pathChallenger (run (selMove now) t moves) now = some c →
          challenges (selMove now (run (selMove now) t moves) .challenge) c now s = false ∧
          pathChallenger (selMove now (run (selMove now) t moves) .challenge) now ≠ some s := by
  have hrun := settling_run h moves
  have hnodup : (observe (selMove now) (newSel now) t moves).Nodup ∧
      (observe (selMove now) (newSel now) t moves).length ≤ pathTableMax := by
    by_cases hcand : ∃ i, candidate (t.p i) = true
    · obtain ⟨slots, hslots, hpairs, -⟩ := hrun.chain hcand
      have hdistinct : slots.Nodup := by
        refine hpairs.imp ?_
        rintro i j hlt rfl
        rw [pathCmp_self] at hlt
        exact lt_irrefl 0 hlt
      rw [hslots, List.length_map]
      refine ⟨hdistinct.map (Option.some_injective _), ?_⟩
      simpa using hdistinct.length_le_card
    · have hnone : ∀ i, candidate (t.p i) = false := by simpa using hcand
      rcases hrun.none_of hnone with hempty | ⟨hone, -⟩
      · rw [hempty]
        exact ⟨List.nodup_nil, Nat.zero_le _⟩
      · rw [hone]
        exact ⟨List.nodup_singleton _, by decide⟩
  refine ⟨hnodup.1, hnodup.2, ?_⟩
  generalize run (selMove now) t moves = u
  intro s c hs hc
  obtain ⟨s', hs', -, htest⟩ := (pathChallenger_spec u now).1 c hc
  cases hs.symm.trans hs'
  obtain ⟨-, -, -, -, hbucket⟩ := challenges_iff.1 htest
  have hmoved : selMove now u .challenge = { u with sel := some c } := by
    unfold selMove
    rw [hc]
  rw [hmoved]
  have hnot : challenges { u with sel := some c } c now s = false := by
    by_contra hback
    obtain ⟨-, -, -, -, hless⟩ := challenges_iff.1 (Bool.not_eq_false _ ▸ hback)
    exact lt_asymm hbucket hless
  refine ⟨hnot, ?_⟩
  intro hback
  obtain ⟨c', hc', -, htest'⟩ := (pathChallenger_spec { u with sel := some c } now).1 s hback
  cases hc'
  rw [hnot] at htest'
  cases htest'

/-- Two paths, the slower of them in use: one move, to the faster, and then none. -/
theorem moves_settle_twoPaths :
    let t := { twoPaths (answeredPath 1 50) (answeredPath 2 10) with sel := some 0 }
    let moves := [.select, .challenge, .select, .challenge]
    observe (selMove 1000) (newSel 1000) t moves = [some 1] ∧
      (observe (selMove 1000) (newSel 1000) t moves).length ≤ pathTableMax := by
  intro t moves
  have hnone : NoneOverdue t 1000 := by
    unfold NoneOverdue
    decide
  exact ⟨by decide, (moves_settle t 1000 hnone moves).2.1⟩

end Paths
end Comrade
