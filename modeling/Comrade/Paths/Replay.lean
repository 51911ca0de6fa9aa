import Comrade.Lib.Run
import Comrade.Paths.Probeplane

/-!
# The replay window

A receiver acts on each count of a sender once (`replay.c`).  It keeps the highest
count it took and a bitmap of the ones just below it.

* `replayRefuses_iff` and `replayOk_cases`: what the window refuses, and everything
  it can do to itself on a count.
* `replayOk_refused_forever`: a count that the window refuses once it refuses for
  good.
* `ReplayInv` ties the bitmap to the set of counts that were taken, and
  `replay_exact` says which counts those are over a whole run.
-/

namespace Comrade
namespace Paths

open Lib

/-! ## One count -/

/-- Is the count refused? -/
def replayRefuses (w : ReplayWin) (seq : UInt64) : Prop := (replayOk w seq).2 = false

theorem toNat_one_shiftLeft {k : UInt64} (hk : k.toNat < 64) :
    (1 <<< k : UInt64).toNat = 2 ^ k.toNat := by
  rw [UInt64.toNat_shiftLeft]
  simp only [UInt64.toNat_one, Nat.one_shiftLeft, Nat.mod_eq_of_lt hk]
  exact Nat.mod_eq_of_lt (Nat.pow_lt_pow_right (by omega) hk)

theorem toNat_sub_one {k : UInt64} (hk : 0 < k.toNat) : (k - 1).toNat = k.toNat - 1 := by
  rw [UInt64.toNat_sub_of_le _ _ (show 1 ≤ k.toNat from hk)]
  rfl

/-- A bit of the bitmap, as `replay_ok` tests it. -/
theorem and_one_shiftLeft_ne_zero_iff (x : UInt64) {k : UInt64} (hk : k.toNat < 64) :
    x &&& (1 <<< k) ≠ 0 ↔ x.toNat.testBit k.toNat = true := by
  have hone := toNat_one_shiftLeft hk
  have hzero : x &&& (1 <<< k) = 0 ↔ x.toNat &&& 2 ^ k.toNat = 0 := by
    rw [← UInt64.toNat_inj, UInt64.toNat_and, hone]
    rfl
  rw [ne_eq, hzero, Nat.and_two_pow]
  cases x.toNat.testBit k.toNat <;> simp

/-- The counts that a window refuses: none, those it is past, the highest, and those
marked in the bitmap. -/
theorem replayRefuses_iff (w : ReplayWin) (seq : UInt64) :
    replayRefuses w seq ↔
      seq = 0 ∨ (seq.toNat ≤ w.hi.toNat ∧
        (64 ≤ w.hi.toNat - seq.toNat ∨ seq = w.hi ∨
          w.seen.toNat.testBit (w.hi.toNat - seq.toNat - 1) = true)) := by
  unfold replayRefuses replayOk
  by_cases hzero : seq = 0
  · simp [hzero]
  · rw [if_neg hzero]
    by_cases hgt : seq > w.hi
    · rw [if_pos hgt]
      have hgt' : w.hi.toNat < seq.toNat := hgt
      constructor
      · intro h
        cases h
      · rintro (h | ⟨h, -⟩)
        · exact absurd h hzero
        · omega
    · rw [if_neg hgt]
      have hle : seq.toNat ≤ w.hi.toNat := Nat.le_of_not_lt fun h => hgt h
      have hback : (w.hi - seq).toNat = w.hi.toNat - seq.toNat := UInt64.toNat_sub_of_le _ _ hle
      dsimp only
      by_cases hold : w.hi - seq ≥ replayWindow
      · have hold' : 64 ≤ w.hi.toNat - seq.toNat := by
          rw [← hback]
          exact hold
        rw [if_pos hold]
        exact ⟨fun _ => .inr ⟨hle, .inl hold'⟩, fun _ => rfl⟩
      · have hold' : ¬64 ≤ w.hi.toNat - seq.toNat := by
          rw [← hback]
          exact hold
        rw [if_neg hold]
        by_cases htop : w.hi - seq = 0
        · have heq : seq = w.hi := by
            have hz : (w.hi - seq).toNat = 0 := by rw [htop]; rfl
            apply UInt64.toNat_inj.mp
            omega
          rw [if_pos htop]
          exact ⟨fun _ => .inr ⟨hle, .inr (.inl heq)⟩, fun _ => rfl⟩
        · have hpos : 0 < w.hi.toNat - seq.toNat := by
            rw [← hback]
            have hne : (w.hi - seq).toNat ≠ 0 := fun hz => htop (UInt64.toNat_inj.mp hz)
            omega
          have hne : seq ≠ w.hi := by
            rintro rfl
            omega
          have hbit : (w.hi - seq - 1).toNat = w.hi.toNat - seq.toNat - 1 := by
            rw [toNat_sub_one (by omega), hback]
          rw [if_neg htop]
          have htest := and_one_shiftLeft_ne_zero_iff w.seen (k := w.hi - seq - 1) (by omega)
          rw [hbit] at htest
          by_cases hseen : w.seen &&& (1 <<< (w.hi - seq - 1)) ≠ 0
          · rw [if_pos hseen]
            exact ⟨fun _ => .inr ⟨hle, .inr (.inr (htest.mp hseen))⟩, fun _ => rfl⟩
          · rw [if_neg hseen]
            constructor
            · intro h
              cases h
            · rintro (h | ⟨-, h | h | h⟩)
              · exact absurd h hzero
              · exact absurd h hold'
              · exact absurd h hne
              · exact absurd (htest.mpr h) hseen

/-- Everything a window can do to itself on a count: nothing where it refuses, one
more mark below the highest, or a shift to a new highest. -/
theorem replayOk_cases (w : ReplayWin) (seq : UInt64) :
    (replayRefuses w seq ∧ (replayOk w seq).1 = w) ∨
      (¬replayRefuses w seq ∧
        ((seq.toNat < w.hi.toNat ∧ w.hi.toNat - seq.toNat < 64 ∧ (replayOk w seq).1.hi = w.hi ∧
            (replayOk w seq).1.seen.toNat =
              w.seen.toNat ||| 2 ^ (w.hi.toNat - seq.toNat - 1)) ∨
          (w.hi.toNat < seq.toNat ∧ (replayOk w seq).1.hi = seq ∧
            (seq.toNat - w.hi.toNat < 64 → (replayOk w seq).1.seen.toNat =
              (w.seen.toNat <<< (seq.toNat - w.hi.toNat)) % 2 ^ 64 |||
                if w.hi ≠ 0 then 2 ^ (seq.toNat - w.hi.toNat - 1) else 0) ∧
            (64 ≤ seq.toNat - w.hi.toNat → (replayOk w seq).1.seen = 0)))) := by
  unfold replayRefuses replayOk
  by_cases hzero : seq = 0
  · rw [if_pos hzero]
    exact .inl ⟨rfl, rfl⟩
  · rw [if_neg hzero]
    by_cases hgt : seq > w.hi
    · have hgt' : w.hi.toNat < seq.toNat := hgt
      have hstep : (seq - w.hi).toNat = seq.toNat - w.hi.toNat :=
        UInt64.toNat_sub_of_le _ _ hgt'.le
      rw [if_pos hgt]
      refine .inr ⟨by simp, .inr ⟨hgt', rfl, ?_, ?_⟩⟩
      · intro hlt
        have hnot : ¬seq - w.hi ≥ replayWindow := by
          intro h
          have hge : 64 ≤ (seq - w.hi).toNat := h
          omega
        dsimp only
        rw [if_neg hnot, UInt64.toNat_or, UInt64.toNat_shiftLeft, hstep, Nat.mod_eq_of_lt hlt]
        by_cases hhi : w.hi ≠ 0
        · rw [if_pos hhi, if_pos hhi,
            toNat_one_shiftLeft (by rw [toNat_sub_one (by omega)]; omega),
            toNat_sub_one (by omega), hstep]
        · rw [if_neg hhi, if_neg hhi]
          rfl
      · intro hge
        have hfar : seq - w.hi ≥ replayWindow := by
          show 64 ≤ (seq - w.hi).toNat
          omega
        exact if_pos hfar
    · have hle : seq.toNat ≤ w.hi.toNat := Nat.le_of_not_lt fun h => hgt h
      have hback : (w.hi - seq).toNat = w.hi.toNat - seq.toNat := UInt64.toNat_sub_of_le _ _ hle
      rw [if_neg hgt]
      dsimp only
      by_cases hold : w.hi - seq ≥ replayWindow
      · rw [if_pos hold]
        exact .inl ⟨rfl, rfl⟩
      · rw [if_neg hold]
        by_cases htop : w.hi - seq = 0
        · rw [if_pos htop]
          exact .inl ⟨rfl, rfl⟩
        · rw [if_neg htop]
          by_cases hseen : w.seen &&& (1 <<< (w.hi - seq - 1)) ≠ 0
          · rw [if_pos hseen]
            exact .inl ⟨rfl, rfl⟩
          · rw [if_neg hseen]
            have hlt : (w.hi - seq).toNat < 64 := Nat.lt_of_not_le fun h => hold h
            have hpos : 0 < (w.hi - seq).toNat := by
              have hne : (w.hi - seq).toNat ≠ 0 := fun hz => htop (UInt64.toNat_inj.mp hz)
              omega
            refine .inr ⟨by simp, .inl ⟨by omega, by omega, rfl, ?_⟩⟩
            dsimp only
            rw [UInt64.toNat_or, toNat_one_shiftLeft (by rw [toNat_sub_one hpos]; omega),
              toNat_sub_one hpos, hback]

/-- A count that the window refuses it refuses for good. -/
theorem replayOk_refused_forever {w : ReplayWin} {seq : UInt64} (h : replayRefuses w seq)
    (seq' : UInt64) : replayRefuses (replayOk w seq').1 seq := by
  rcases replayOk_cases w seq' with
    ⟨-, hsame⟩ | ⟨-, ⟨-, -, hhi, hseen⟩ | ⟨hgt, hhi, hseen, -⟩⟩
  · rw [hsame]
    exact h
  · -- one more mark leaves the marks there were
    rw [replayRefuses_iff] at h ⊢
    rw [hhi, hseen]
    rcases h with h | ⟨hle, h | h | h⟩
    · exact .inl h
    · exact .inr ⟨hle, .inl h⟩
    · exact .inr ⟨hle, .inr (.inl h)⟩
    · refine .inr ⟨hle, .inr (.inr ?_)⟩
      rw [Nat.testBit_or, h, Bool.true_or]
  · -- the marks move with the highest count, or fall out of the window
    rw [replayRefuses_iff] at h ⊢
    rw [hhi]
    rcases h with h | ⟨hle, h⟩
    · exact .inl h
    · by_cases hzero : seq = 0
      · exact .inl hzero
      · refine .inr ⟨by omega, ?_⟩
        by_cases hfar : 64 ≤ seq'.toNat - seq.toNat
        · exact .inl hfar
        · right
          right
          rw [hseen (by omega), Nat.testBit_or]
          by_cases htop : seq = w.hi
          · -- the highest count so far is marked as it moves
            rw [← htop, if_pos hzero, Nat.testBit_two_pow_self, Bool.or_true]
          · have hne : seq.toNat ≠ w.hi.toNat := fun heq => htop (UInt64.toNat_inj.mp heq)
            rcases h with h | h | h
            · omega
            · exact absurd h htop
            · have hidx : seq'.toNat - seq.toNat - 1 - (seq'.toNat - w.hi.toNat) =
                  w.hi.toNat - seq.toNat - 1 := by omega
              have hshift : seq'.toNat - w.hi.toNat ≤ seq'.toNat - seq.toNat - 1 := by omega
              have hroom : seq'.toNat - seq.toNat - 1 < 64 := by omega
              rw [Nat.testBit_mod_two_pow, Nat.testBit_shiftLeft, hidx, h]
              simp [hshift, hroom]

/-- A count that the window took it refuses from then on. -/
theorem replayOk_refuses_taken (w : ReplayWin) (seq : UInt64) :
    replayRefuses (replayOk w seq).1 seq := by
  rcases replayOk_cases w seq with
    ⟨hrefuse, hsame⟩ | ⟨-, ⟨hlt, -, hhi, hseen⟩ | ⟨-, hhi, -⟩⟩
  · rw [hsame]
    exact hrefuse
  · rw [replayRefuses_iff, hhi, hseen]
    refine .inr ⟨hlt.le, .inr (.inr ?_)⟩
    rw [Nat.testBit_or, Nat.testBit_two_pow_self, Bool.or_true]
  · rw [replayRefuses_iff, hhi]
    exact .inr ⟨le_rfl, .inr (.inl rfl)⟩

/-! ## Whole runs -/

/-- The window after a count. -/
def replayStep (w : ReplayWin) (seq : UInt64) : ReplayWin := (replayOk w seq).1

/-- The count, where the window takes it. -/
def replayTake (w : ReplayWin) (seq : UInt64) : Option UInt64 :=
  if (replayOk w seq).2 = true then some seq else none

/-- A window that has seen nothing. -/
def replayZero : ReplayWin := { hi := 0, seen := 0 }

/-- The counts taken of those fed to a zeroed window, oldest first. -/
def replayTaken (seqs : List UInt64) : List UInt64 := observe replayStep replayTake replayZero seqs

/-- The highest of the counts, 0 where there is none. -/
def highestOf (seqs : List UInt64) : Nat := seqs.foldr (fun s m => max s.toNat m) 0

theorem le_highestOf {seqs : List UInt64} {s : UInt64} (h : s ∈ seqs) :
    s.toNat ≤ highestOf seqs := by
  induction seqs with
  | nil => cases h
  | cons x seqs ih =>
      rw [highestOf, List.foldr_cons, ← highestOf]
      rcases List.mem_cons.mp h with rfl | h
      · exact le_max_left _ _
      · exact (ih h).trans (le_max_right _ _)

theorem exists_highestOf {seqs : List UInt64} (h : highestOf seqs ≠ 0) :
    ∃ s ∈ seqs, s.toNat = highestOf seqs := by
  induction seqs with
  | nil => exact absurd rfl h
  | cons x seqs ih =>
      rw [highestOf, List.foldr_cons, ← highestOf] at h ⊢
      rcases max_cases x.toNat (highestOf seqs) with ⟨hmax, -⟩ | ⟨hmax, -⟩
      · exact ⟨x, by simp, hmax.symm⟩
      · rw [hmax] at h ⊢
        obtain ⟨s, hs, heq⟩ := ih h
        exact ⟨s, List.mem_cons_of_mem _ hs, heq⟩

theorem highestOf_concat (seqs : List UInt64) (s : UInt64) :
    highestOf (seqs ++ [s]) = max (highestOf seqs) s.toNat := by
  induction seqs with
  | nil => simp [highestOf]
  | cons x seqs ih =>
      have hcons : ∀ l, highestOf (x :: l) = max x.toNat (highestOf l) := fun _ => rfl
      rw [List.cons_append, hcons, ih, hcons, max_assoc]

/-- The window holds the highest count taken, and its bitmap those in reach below it. -/
structure ReplayInv (w : ReplayWin) (taken : List UInt64) : Prop where
  pos : ∀ s ∈ taken, s ≠ 0
  hi : w.hi.toNat = highestOf taken
  seen : ∀ b < 63, w.seen.toNat.testBit b = true ↔ ∃ s ∈ taken, s.toNat + b + 1 = w.hi.toNat

/-- A count is refused exactly where it is zero, was taken or is out of reach. -/
theorem ReplayInv.takes_iff {w : ReplayWin} {taken : List UInt64} (h : ReplayInv w taken)
    (seq : UInt64) :
    ¬replayRefuses w seq ↔ seq ≠ 0 ∧ seq ∉ taken ∧ highestOf taken < seq.toNat + 64 := by
  rw [replayRefuses_iff, ← h.hi]
  have htop : ∀ s ∈ taken, s.toNat ≤ w.hi.toNat := by
    intro s hs
    rw [h.hi]
    exact le_highestOf hs
  by_cases hzero : seq = 0
  · simp [hzero]
  have hpos : seq.toNat ≠ 0 := fun hz => hzero (UInt64.toNat_inj.mp hz)
  by_cases hgt : w.hi.toNat < seq.toNat
  · -- ahead of everything taken
    have hnew : seq ∉ taken := by
      intro hmem
      have := htop seq hmem
      omega
    refine iff_of_true ?_ ⟨hzero, hnew, by omega⟩
    rintro (heq | ⟨hle, -⟩)
    · exact hzero heq
    · omega
  by_cases hfar : 64 ≤ w.hi.toNat - seq.toNat
  · refine iff_of_false ?_ ?_
    · exact not_not.mpr (.inr ⟨by omega, .inl hfar⟩)
    · rintro ⟨-, -, hreach⟩
      omega
  by_cases heq : seq = w.hi
  · -- the highest one is among those taken
    obtain ⟨s, hs, hsame⟩ : ∃ s ∈ taken, s.toNat = highestOf taken :=
      exists_highestOf (by rw [← h.hi, ← heq]; exact hpos)
    have hmem : seq ∈ taken := by
      rw [← h.hi, ← heq] at hsame
      rwa [UInt64.toNat_inj.mp hsame] at hs
    refine iff_of_false ?_ fun hnew => hnew.2.1 hmem
    exact not_not.mpr (.inr ⟨by omega, .inr (.inl heq)⟩)
  · -- below it the bitmap knows
    have hne : seq.toNat ≠ w.hi.toNat := fun hsame => heq (UInt64.toNat_inj.mp hsame)
    have hbit := h.seen (w.hi.toNat - seq.toNat - 1) (by omega)
    have hmem : (∃ s ∈ taken, s.toNat + (w.hi.toNat - seq.toNat - 1) + 1 = w.hi.toNat) ↔
        seq ∈ taken := by
      constructor
      · rintro ⟨s, hs, hsum⟩
        rwa [UInt64.toNat_inj.mp (show s.toNat = seq.toNat by omega)] at hs
      · intro hs
        exact ⟨seq, hs, by omega⟩
    rw [hmem] at hbit
    rw [hbit]
    constructor
    · intro hno
      refine ⟨hzero, fun hs => hno (.inr ⟨by omega, .inr (.inr hs)⟩), by omega⟩
    · rintro ⟨-, hnew, -⟩ (hz | ⟨-, hold | htop | hs⟩)
      · exact hzero hz
      · exact hfar hold
      · exact heq htop
      · exact hnew hs

/-- The bitmap after a new highest count in reach of the old one. -/
theorem ReplayInv.seen_shift {w w' : ReplayWin} {taken : List UInt64} (h : ReplayInv w taken)
    {seq : UInt64} (hgt : w.hi.toNat < seq.toNat) (hnear : seq.toNat - w.hi.toNat < 64)
    (hseen : w'.seen.toNat = (w.seen.toNat <<< (seq.toNat - w.hi.toNat)) % 2 ^ 64 |||
      if w.hi ≠ 0 then 2 ^ (seq.toNat - w.hi.toNat - 1) else 0) {b : Nat} (hb : b < 63) :
    w'.seen.toNat.testBit b = true ↔ ∃ s ∈ taken, s.toNat + b + 1 = seq.toNat := by
  have htop : ∀ s ∈ taken, s.toNat ≤ w.hi.toNat := by
    intro s hs
    rw [h.hi]
    exact le_highestOf hs
  rw [hseen, Nat.testBit_or, Nat.testBit_mod_two_pow, Nat.testBit_shiftLeft, Bool.or_eq_true]
  by_cases hhigh : seq.toNat - w.hi.toNat ≤ b
  · -- a mark that was there
    have hnot : (if w.hi ≠ 0 then 2 ^ (seq.toNat - w.hi.toNat - 1) else 0).testBit b = false := by
      split_ifs
      · rw [Nat.testBit_two_pow, decide_eq_false_iff_not]
        omega
      · exact Nat.zero_testBit b
    have hmoved : ∀ n, n + (b - (seq.toNat - w.hi.toNat)) + 1 = w.hi.toNat ↔
        n + b + 1 = seq.toNat := by omega
    rw [hnot]
    simp only [decide_eq_true hhigh, decide_eq_true (show b < 64 by omega), Bool.true_and,
      Bool.false_eq_true, or_false]
    rw [h.seen (b - (seq.toNat - w.hi.toNat)) (by omega)]
    exact exists_congr fun s => and_congr_right fun _ => hmoved s.toNat
  · -- the highest of before, or none
    have hlow : decide (b ≥ seq.toNat - w.hi.toNat) = false := decide_eq_false (by omega)
    rw [hlow, Bool.false_and, Bool.and_false]
    simp only [Bool.false_eq_true, false_or]
    by_cases hhi : w.hi ≠ 0
    · have hpos : w.hi.toNat ≠ 0 := fun hz => hhi (UInt64.toNat_inj.mp hz)
      rw [if_pos hhi, Nat.testBit_two_pow, decide_eq_true_eq]
      constructor
      · intro hb'
        obtain ⟨s, hs, hsame⟩ : ∃ s ∈ taken, s.toNat = highestOf taken :=
          exists_highestOf (by rw [← h.hi]; exact hpos)
        exact ⟨s, hs, by rw [hsame, ← h.hi]; omega⟩
      · rintro ⟨s, hs, hsum⟩
        have := htop s hs
        omega
    · have hzero : w.hi.toNat = 0 := by
        rw [not_not.mp hhi]
        rfl
      rw [if_neg hhi]
      refine iff_of_false (by simp) ?_
      rintro ⟨s, hs, -⟩
      have hle := htop s hs
      exact h.pos s hs (UInt64.toNat_inj.mp (by simpa [hzero] using hle))

theorem ReplayInv.pos_concat {w : ReplayWin} {taken : List UInt64} (h : ReplayInv w taken)
    {seq : UInt64} (htake : ¬replayRefuses w seq) : ∀ s ∈ taken ++ [seq], s ≠ 0 := by
  intro s hs
  rcases List.mem_append.mp hs with hs | hs
  · exact h.pos s hs
  · rw [List.mem_singleton.mp hs]
    exact ((h.takes_iff seq).mp htake).1

theorem ReplayInv.step {w : ReplayWin} {taken : List UInt64} (h : ReplayInv w taken)
    (seq : UInt64) : ReplayInv (replayStep w seq) (taken ++ (replayTake w seq).toList) := by
  unfold replayStep replayTake
  rcases replayOk_cases w seq with
    ⟨hrefuse, hsame⟩ | ⟨htake, ⟨hlt, hreach, hhi, hseen⟩ | ⟨hgt, hhi, hseen, hclear⟩⟩
  · have hno : ¬(replayOk w seq).2 = true := by simpa [replayRefuses] using hrefuse
    rw [if_neg hno, hsame, Option.toList_none, List.append_nil]
    exact h
  · -- one more mark
    have hyes : (replayOk w seq).2 = true := by simpa [replayRefuses] using htake
    rw [if_pos hyes, Option.toList_some]
    refine ⟨h.pos_concat htake, ?_, ?_⟩
    · rw [hhi, highestOf_concat, ← h.hi, max_eq_left hlt.le]
    · intro b hb
      rw [hhi, hseen, Nat.testBit_or, Bool.or_eq_true, h.seen b hb, Nat.testBit_two_pow,
        decide_eq_true_eq]
      simp only [List.mem_append, List.mem_singleton, or_and_right, exists_or, exists_eq_left]
      refine or_congr_right ?_
      omega
  · -- a new highest: the marks move up, and the highest of before becomes one
    have hyes : (replayOk w seq).2 = true := by simpa [replayRefuses] using htake
    rw [if_pos hyes, Option.toList_some]
    refine ⟨h.pos_concat htake, ?_, ?_⟩
    · rw [hhi, highestOf_concat, ← h.hi, max_eq_right hgt.le]
    · intro b hb
      rw [hhi]
      have hlast : (∃ s ∈ taken ++ [seq], s.toNat + b + 1 = seq.toNat) ↔
          ∃ s ∈ taken, s.toNat + b + 1 = seq.toNat := by
        simp only [List.mem_append, List.mem_singleton, or_and_right, exists_or, exists_eq_left]
        exact or_iff_left (by omega)
      rw [hlast]
      by_cases hnear : seq.toNat - w.hi.toNat < 64
      · exact h.seen_shift hgt hnear (hseen hnear) hb
      · rw [hclear (by omega)]
        refine iff_of_false (by simp) ?_
        rintro ⟨s, hs, hsum⟩
        have hle := le_highestOf hs
        rw [← h.hi] at hle
        omega

theorem replayTaken_concat (seqs : List UInt64) (seq : UInt64) :
    replayTaken (seqs ++ [seq]) =
      replayTaken seqs ++ (replayTake (run replayStep replayZero seqs) seq).toList :=
  observe_concat _ _ _ _ _

theorem run_replayInv (seqs : List UInt64) :
    ReplayInv (run replayStep replayZero seqs) (replayTaken seqs) := by
  induction seqs using List.reverseRecOn with
  | nil => exact ⟨by simp [replayTaken], rfl, by simp [replayZero, replayTaken]⟩
  | append_singleton seqs seq ih =>
      rw [run_concat, replayTaken_concat]
      exact ih.step seq

/-- Whatever counts a zeroed window is fed: it takes a count exactly when that is not
zero, was not taken before and is above the highest taken so far less the window.  So
none is taken twice; and where each count is new and in reach of those before it, all
of them are taken, in whatever order they come. -/
theorem replay_exact (seqs : List UInt64) :
    (∀ seq, (replayOk (run replayStep replayZero seqs) seq).2 = true ↔
        seq ≠ 0 ∧ seq ∉ replayTaken seqs ∧
          (seq.toNat : Int) > highestOf (replayTaken seqs) - replayWindow.toNat) ∧
      (replayTaken seqs).Nodup ∧
      ((∀ pre seq post, seqs = pre ++ seq :: post →
          seq ≠ 0 ∧ seq ∉ pre ∧ (seq.toNat : Int) > highestOf pre - replayWindow.toNat) →
        replayTaken seqs = seqs) := by
  have hwindow : (replayWindow.toNat : Int) = 64 := rfl
  have htakes : ∀ seqs seq, (replayOk (run replayStep replayZero seqs) seq).2 = true ↔
      seq ≠ 0 ∧ seq ∉ replayTaken seqs ∧
        (seq.toNat : Int) > highestOf (replayTaken seqs) - replayWindow.toNat := by
    intro seqs seq
    have hiff := (run_replayInv seqs).takes_iff seq
    rw [replayRefuses, Bool.not_eq_false] at hiff
    rw [hiff, hwindow]
    refine and_congr_right fun _ => and_congr_right fun _ => ?_
    omega
  refine ⟨htakes seqs, ?_, ?_⟩
  · induction seqs using List.reverseRecOn with
    | nil => exact List.nodup_nil
    | append_singleton seqs seq ih =>
        rw [replayTaken_concat, replayTake]
        by_cases htake : (replayOk (run replayStep replayZero seqs) seq).2 = true
        · rw [if_pos htake, Option.toList_some]
          rw [List.nodup_append_comm, List.singleton_append, List.nodup_cons]
          exact ⟨((htakes seqs seq).mp htake).2.1, ih⟩
        · rw [if_neg htake, Option.toList_none, List.append_nil]
          exact ih
  · intro hreach
    induction seqs using List.reverseRecOn with
    | nil => rfl
    | append_singleton seqs seq ih =>
        have hprev := ih fun pre s post hsplit =>
          hreach pre s (post ++ [seq]) (by rw [hsplit, List.append_assoc, List.cons_append])
        have hlast := hreach seqs seq [] rfl
        have htake : (replayOk (run replayStep replayZero seqs) seq).2 = true := by
          rw [htakes, hprev]
          exact hlast
        rw [replayTaken_concat, replayTake, if_pos htake, hprev, Option.toList_some]

/-- Three counts out of order: all are taken, and none of them again. -/
theorem replay_exact_reordered :
    replayTaken [3, 1, 2] = [3, 1, 2] ∧
      ((replayOk (run replayStep replayZero [3, 1, 2]) 1).2 = true ↔
        (1 : UInt64) ≠ 0 ∧ (1 : UInt64) ∉ replayTaken [3, 1, 2] ∧
          ((1 : UInt64).toNat : Int) > highestOf (replayTaken [3, 1, 2]) - replayWindow.toNat) := by
  refine ⟨(replay_exact [3, 1, 2]).2.2 ?_, (replay_exact [3, 1, 2]).1 1⟩
  intro pre seq post h
  rcases pre with _ | ⟨a, _ | ⟨b, _ | ⟨c, pre⟩⟩⟩
  · obtain ⟨rfl, -⟩ := List.cons.inj h
    decide
  · obtain ⟨rfl, hrest⟩ := List.cons.inj h
    obtain ⟨rfl, -⟩ := List.cons.inj hrest
    decide
  · obtain ⟨rfl, hrest⟩ := List.cons.inj h
    obtain ⟨rfl, hlast⟩ := List.cons.inj hrest
    obtain ⟨rfl, -⟩ := List.cons.inj hlast
    decide
  · simp at h

end Paths
end Comrade
