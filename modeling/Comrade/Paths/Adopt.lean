import Comrade.Lib.Table
import Comrade.Lib.Tokens
import Comrade.Paths.Plane
import Comrade.Paths.Probe

/-!
# The adoption budget

A probe from a source that no path holds is what a peer that has just moved looks like, so
it is opened to find out; `path_adopt_allow` says how often.  A small ring has one bucket
for each of the sources seen last, and one bucket is shared by all.

* `pathAdoptAllow` is one call, `adoptOwn` its first half: the source's own bucket.
* `RingInv` is what every call keeps up of the ring: a source has one entry, and the entries
  in use come first.
* `adopt_budget` bounds what any run of calls admits in any window, in all and by the bucket
  of a source that stays in the ring.
* `gate_budget` is the same bound on the frames that `pathplane_gate` lets through on the
  budget.
-/

namespace Comrade
namespace Paths

open Lib

/-! ## The model -/

/-- `PATH_ADOPT_RATE`. -/
def pathAdoptRate : Nat := 8

/-- `PATH_ADOPT_DEPTH`. -/
def pathAdoptDepth : Nat := 8

/-- `PATH_ADOPT_SRC_MAX`. -/
def pathAdoptSrcMax : Nat := 8

/-- An entry of the ring. -/
abbrev AdoptSlot := Fin pathAdoptSrcMax

/-- `struct path_adopt_src`; a level is in thousandths of a token and is never negative. -/
structure PathAdoptSrc where
  addr : Vector UInt8 16
  port : UInt16
  used : Bool
  tokens : Nat
  ms : UInt64
  seenMs : UInt64
  deriving DecidableEq

/-- `struct path_adopt`. -/
structure PathAdopt where
  tokens : Nat
  ms : UInt64
  src : AdoptSlot → PathAdoptSrc

/-- An entry as `memset` leaves it. -/
def adoptSrcZero : PathAdoptSrc where
  addr := Vector.replicate 16 0
  port := 0
  used := false
  tokens := 0
  ms := 0
  seenMs := 0

/-- A zeroed budget. -/
def pathAdoptZero : PathAdopt := { tokens := 0, ms := 0, src := fun _ => adoptSrcZero }

/-- `bucket_take`: the level and the time that it leaves, and whether it paid. -/
def bucketTake (tokens : Nat) (ms now : UInt64) : Nat × UInt64 × Bool :=
  let cap := pathAdoptDepth * 1000
  let gained := ((now - ms) * UInt64.ofNat pathAdoptRate).toNat
  let tokens := if gained ≥ cap ∨ tokens + gained ≥ cap then cap else tokens + gained
  if tokens < 1000 then (tokens, now, false) else (tokens - 1000, now, true)

/-- The endpoint that an entry is for. -/
def PathAdoptSrc.ep (s : PathAdoptSrc) : PathEp := { addr := s.addr, port := s.port }

/-- Is the entry for this endpoint? -/
def sameSrc (s : PathAdoptSrc) (ep : PathEp) : Bool := s.port == ep.port && s.addr == ep.addr

/-- The scan of the ring, from the entries left and the oldest so far: the source's own
entry or the first free one, else the oldest. -/
def adoptScan (src : AdoptSlot → PathAdoptSrc) (ep : PathEp) :
    List AdoptSlot → AdoptSlot → AdoptSlot
  | [], oldest => oldest
  | i :: rest, oldest =>
      if (src i).used = true ∧ sameSrc (src i) ep = true then i
      else if (src i).used = false then i
      else adoptScan src ep rest (if (src i).seenMs < (src oldest).seenMs then i else oldest)

/-- The entry that a call is about. -/
def adoptSlot (a : PathAdopt) (ep : PathEp) : AdoptSlot :=
  adoptScan a.src ep (List.finRange pathAdoptSrcMax) ⟨0, Nat.succ_pos 7⟩

/-- The entry once the source is in it; one that was another's, or no one's, starts with a
full bucket. -/
def adoptEntry (s : PathAdoptSrc) (ep : PathEp) (now : UInt64) : PathAdoptSrc :=
  let s :=
    if s.used = false ∨ sameSrc s ep = false then
      { addr := ep.addr, port := ep.port, used := true, tokens := pathAdoptDepth * 1000,
        ms := now, seenMs := 0 }
    else s
  { s with seenMs := now }

/-- The first half of `path_adopt_allow`: the source's own bucket, and whether it paid. -/
def adoptOwn (a : PathAdopt) (ep : PathEp) (now : UInt64) : PathAdopt × Bool :=
  let i := adoptSlot a ep
  let s := adoptEntry (a.src i) ep now
  let r := bucketTake s.tokens s.ms now
  ({ a with src := Function.update a.src i { s with tokens := r.1, ms := r.2.1 } }, r.2.2)

/-- `path_adopt_allow`. -/
def pathAdoptAllow (a : PathAdopt) (ep : PathEp) (now : UInt64) : PathAdopt × Bool :=
  let own := adoptOwn a ep now
  if own.2 = false then (own.1, false)
  else
    let r := bucketTake own.1.tokens own.1.ms now
    ({ own.1 with tokens := r.1, ms := r.2.1 }, r.2.2)

/-- One call. -/
structure AdoptCall where
  ep : PathEp
  now : UInt64
  deriving DecidableEq

/-- The budget after one call. -/
def adoptStep (a : PathAdopt) (c : AdoptCall) : PathAdopt := (pathAdoptAllow a c.ep c.now).1

/-- The times at which a run of calls is admitted. -/
def admittedTimes (a : PathAdopt) (calls : List AdoptCall) : List Nat :=
  observe adoptStep (fun a c => if (pathAdoptAllow a c.ep c.now).2 = true then some c.now.toNat
    else none) a calls

/-- The times at which a source is admitted. -/
def admittedFrom (ep : PathEp) (a : PathAdopt) (calls : List AdoptCall) : List Nat :=
  observe adoptStep (fun a c => if c.ep = ep ∧ (pathAdoptAllow a c.ep c.now).2 = true then
    some c.now.toNat else none) a calls

/-- The times at which a source's own bucket pays. -/
def paidBy (ep : PathEp) (a : PathAdopt) (calls : List AdoptCall) : List Nat :=
  observe adoptStep (fun a c => if c.ep = ep ∧ (adoptOwn a c.ep c.now).2 = true then
    some c.now.toNat else none) a calls

/-- The source has an entry. -/
def InRing (a : PathAdopt) (ep : PathEp) : Prop :=
  ∃ i, (a.src i).used = true ∧ (a.src i).ep = ep

instance (a : PathAdopt) (ep : PathEp) : Decidable (InRing a ep) :=
  inferInstanceAs (Decidable (∃ _, _))

/-- The source has an entry after each of the calls. -/
def StaysInRing (ep : PathEp) (a : PathAdopt) (calls : List AdoptCall) : Prop :=
  EveryStep adoptStep (fun a c => InRing (adoptStep a c) ep) a calls

/-! ## One bucket -/

/-- The bucket that a level and a time stand for. -/
def tokensOf (tokens : Nat) (ms : UInt64) : Tokens := { level := tokens, last := ms.toNat }

/-- What a bucket gains, with the arithmetic of `uint64_t`. -/
def bucketGained (ms now : UInt64) : Nat := ((now - ms) * UInt64.ofNat pathAdoptRate).toNat

/-- `bucket_take` is the token bucket. -/
theorem bucketTake_eq (tokens : Nat) (ms now : UInt64) :
    (tokensOf (bucketTake tokens ms now).1 (bucketTake tokens ms now).2.1,
        (bucketTake tokens ms now).2.2) =
      (tokensOf tokens ms).take (pathAdoptDepth * 1000) 1000 (bucketGained ms now) now.toNat := by
  have hlevel : ∀ cap gained, (if gained ≥ cap ∨ tokens + gained ≥ cap then cap
      else tokens + gained) = (tokensOf tokens ms).refilled cap gained := by
    intro cap gained
    show _ = min cap (tokens + gained)
    by_cases hfull : gained ≥ cap ∨ tokens + gained ≥ cap
    · rw [if_pos hfull]
      omega
    · rw [if_neg hfull]
      omega
  unfold bucketTake Tokens.take
  dsimp only
  rw [← bucketGained, hlevel]
  by_cases hshort : (tokensOf tokens ms).refilled (pathAdoptDepth * 1000)
      (bucketGained ms now) < 1000
  · rw [if_pos hshort, if_pos hshort]
    rfl
  · rw [if_neg hshort, if_neg hshort]
    rfl

/-- The product may run over and then says too little; it never says too much. -/
theorem bucketGained_le {ms now : UInt64} (h : ms ≤ now) :
    bucketGained ms now ≤ pathAdoptRate * (now.toNat - ms.toNat) := by
  unfold bucketGained
  rw [UInt64.toNat_mul, UInt64.toNat_sub_of_le _ _ h]
  refine (Nat.mod_le _ _).trans (le_of_eq ?_)
  exact Nat.mul_comm _ _

/-- One bucket of the budget in the middle of a window. -/
def BucketDrawn (start width tokens : Nat) (ms : UInt64) (n : Nat) : Prop :=
  Drawn (pathAdoptDepth * 1000) pathAdoptRate 1000 start width (tokensOf tokens ms) n

theorem BucketDrawn.take {start width tokens n : Nat} {ms now : UInt64}
    (h : BucketDrawn start width tokens ms n) (hms : ms ≤ now) :
    BucketDrawn start width (bucketTake tokens ms now).1 (bucketTake tokens ms now).2.1
      (n + if (bucketTake tokens ms now).2.2 = true ∧ inWindow start width now.toNat = true then 1
        else 0) := by
  have heq := bucketTake_eq tokens ms now
  have hdrawn := Drawn.take h (UInt64.le_iff_toNat_le.mp hms) (bucketGained_le hms)
  rw [← heq] at hdrawn
  exact hdrawn

theorem bucketTake_level_le (tokens : Nat) (ms now : UInt64) :
    (bucketTake tokens ms now).1 ≤ pathAdoptDepth * 1000 := by
  have hle := (tokensOf tokens ms).take_level_le (pathAdoptDepth * 1000) 1000
    (bucketGained ms now) now.toNat
  rw [← bucketTake_eq] at hle
  exact hle

theorem bucketTake_ms (tokens : Nat) (ms now : UInt64) : (bucketTake tokens ms now).2.1 = now := by
  unfold bucketTake
  dsimp only
  split_ifs <;> rfl

/-! ## The ring -/

theorem sameSrc_iff {s : PathAdoptSrc} {ep : PathEp} : sameSrc s ep = true ↔ s.ep = ep := by
  obtain ⟨addr, port⟩ := ep
  simp only [sameSrc, PathAdoptSrc.ep, Bool.and_eq_true, beq_iff_eq, PathEp.mk.injEq]
  exact and_comm

/-- Does the scan stop at the entry? -/
def scanStops (ep : PathEp) (s : PathAdoptSrc) : Bool := !s.used || sameSrc s ep

/-- The scan stops at the first entry at which it can. -/
theorem adoptScan_of_find {src : AdoptSlot → PathAdoptSrc} {ep : PathEp} {i : AdoptSlot} :
    ∀ (rest : List AdoptSlot) (oldest : AdoptSlot),
      (rest.find? fun j => scanStops ep (src j)) = some i → adoptScan src ep rest oldest = i := by
  intro rest
  induction rest with
  | nil =>
      intro oldest h
      cases h
  | cons j rest ih =>
      intro oldest h
      unfold adoptScan
      by_cases hstop : scanStops ep (src j) = true
      · simp only [List.find?_cons, hstop, Option.some.injEq] at h
        subst h
        unfold scanStops at hstop
        cases hused : (src j).used with
        | false => simp
        | true =>
            have hsame : sameSrc (src j) ep = true := by simpa [hused] using hstop
            rw [if_pos ⟨rfl, hsame⟩]
      · simp only [List.find?_cons, hstop] at h
        simp only [scanStops, Bool.or_eq_true, Bool.not_eq_true', not_or] at hstop
        rw [if_neg fun hboth => hstop.2 hboth.2, if_neg hstop.1]
        exact ih _ h

/-- What every call keeps up of the ring: no source has two entries, and the entries in use
come first. -/
structure RingInv (a : PathAdopt) : Prop where
  unique : UniqueKey PathAdoptSrc.ep PathAdoptSrc.used a.src
  packed : ∀ i j, i < j → (a.src j).used = true → (a.src i).used = true

/-- The entry that a call is about is the source's own, where it has one, and every entry
before it is in use. -/
theorem RingInv.slot {a : PathAdopt} (h : RingInv a) (ep : PathEp) :
    (((a.src (adoptSlot a ep)).used = true ∧ (a.src (adoptSlot a ep)).ep = ep) ∨
        ∀ j, (a.src j).used = true → (a.src j).ep ≠ ep) ∧
      ∀ j < adoptSlot a ep, (a.src j).used = true := by
  cases hfind : firstSlot a.src (scanStops ep) with
  | none =>
      have hall := firstSlot_eq_none_iff.mp hfind
      simp only [scanStops, Bool.or_eq_false_iff, Bool.not_eq_false'] at hall
      refine ⟨.inr ?_, fun j _ => (hall j).1⟩
      intro j _ hsame
      rw [← sameSrc_iff, (hall j).2] at hsame
      cases hsame
  | some i =>
      have hslot : adoptSlot a ep = i := by
        apply adoptScan_of_find
        unfold firstSlot at hfind
        rw [Fin.find?_eq_find?_finRange] at hfind
        exact hfind
      obtain ⟨hstop, hbefore⟩ := firstSlot_eq_some_iff.mp hfind
      simp only [scanStops, Bool.or_eq_false_iff, Bool.not_eq_false'] at hbefore
      rw [hslot]
      refine ⟨?_, fun j hj => (hbefore j hj).1⟩
      cases hused : (a.src i).used with
      | true =>
          rw [scanStops, hused] at hstop
          exact .inl ⟨rfl, sameSrc_iff.1 (by simpa using hstop)⟩
      | false =>
          -- a free entry: nothing after it is in use, and nothing before it is the source's
          right
          intro j hj hsame
          rcases lt_trichotomy j i with hlt | rfl | hgt
          · rw [← sameSrc_iff, (hbefore j hlt).2] at hsame
            cases hsame
          · rw [hused] at hj
            cases hj
          · rw [h.packed i j hgt hj] at hused
            cases hused

theorem adoptEntry_ep (s : PathAdoptSrc) (ep : PathEp) (now : UInt64) :
    (adoptEntry s ep now).used = true ∧ (adoptEntry s ep now).ep = ep := by
  unfold adoptEntry
  by_cases hnew : s.used = false ∨ sameSrc s ep = false
  · rw [if_pos hnew]
    exact ⟨rfl, rfl⟩
  · rw [if_neg hnew]
    rw [not_or, Bool.not_eq_false, Bool.not_eq_false] at hnew
    exact ⟨hnew.1, sameSrc_iff.1 hnew.2⟩

/-- The source's own entry is kept. -/
theorem adoptEntry_own {s : PathAdoptSrc} {ep : PathEp} (hused : s.used = true) (hep : s.ep = ep)
    (now : UInt64) : adoptEntry s ep now = { s with seenMs := now } := by
  unfold adoptEntry
  rw [if_neg]
  rw [hused, sameSrc_iff.2 hep]
  simp

/-- Another's entry starts with a full bucket. -/
theorem adoptEntry_new {s : PathAdoptSrc} {ep : PathEp} (h : s.used = true → s.ep ≠ ep)
    (now : UInt64) : (adoptEntry s ep now).tokens = pathAdoptDepth * 1000 ∧
      (adoptEntry s ep now).ms = now := by
  unfold adoptEntry
  rw [if_pos]
  · exact ⟨rfl, rfl⟩
  · cases hused : s.used with
    | false => exact .inl rfl
    | true =>
        right
        rw [← Bool.not_eq_true, sameSrc_iff]
        exact h hused

/-- What one call does to the ring: one entry is written, the source's. -/
theorem adoptStep_src (a : PathAdopt) (c : AdoptCall) :
    (adoptStep a c).src = (adoptOwn a c.ep c.now).1.src := by
  unfold adoptStep pathAdoptAllow
  dsimp only
  split_ifs <;> rfl

theorem adoptOwn_src_self (a : PathAdopt) (ep : PathEp) (now : UInt64) :
    let s := adoptEntry (a.src (adoptSlot a ep)) ep now
    (adoptOwn a ep now).1.src (adoptSlot a ep) =
      { s with tokens := (bucketTake s.tokens s.ms now).1
               ms := (bucketTake s.tokens s.ms now).2.1 } :=
  Function.update_self _ _ _

theorem adoptOwn_src_of_ne (a : PathAdopt) {ep : PathEp} {i : AdoptSlot} (hi : i ≠ adoptSlot a ep)
    (now : UInt64) : (adoptOwn a ep now).1.src i = a.src i :=
  Function.update_of_ne hi _ _

/-- The entry of the source after a call. -/
theorem adoptStep_self (a : PathAdopt) (c : AdoptCall) :
    ((adoptStep a c).src (adoptSlot a c.ep)).used = true ∧
      ((adoptStep a c).src (adoptSlot a c.ep)).ep = c.ep := by
  rw [adoptStep_src, adoptOwn_src_self]
  exact adoptEntry_ep (a.src (adoptSlot a c.ep)) c.ep c.now

theorem adoptStep_of_ne (a : PathAdopt) {c : AdoptCall} {i : AdoptSlot}
    (hi : i ≠ adoptSlot a c.ep) : (adoptStep a c).src i = a.src i := by
  rw [adoptStep_src, adoptOwn_src_of_ne a hi]

theorem adoptStep_ringInv {a : PathAdopt} (h : RingInv a) (c : AdoptCall) :
    RingInv (adoptStep a c) := by
  obtain ⟨hslot, hbefore⟩ := h.slot c.ep
  obtain ⟨hused, hep⟩ := adoptStep_self a c
  have hsrc : (adoptStep a c).src = Function.update a.src (adoptSlot a c.ep)
      ((adoptStep a c).src (adoptSlot a c.ep)) := by
    funext i
    by_cases hi : i = adoptSlot a c.ep
    · rw [hi, Function.update_self]
    · rw [Function.update_of_ne hi, adoptStep_of_ne a hi]
  constructor
  · rw [hsrc]
    rcases hslot with ⟨hold, holdEp⟩ | hnone
    · exact h.unique.update_same (hep.trans holdEp.symm) fun _ => hold
    · apply h.unique.update_fresh
      intro j hj
      rw [hep]
      exact hnone j hj
  · intro i j hij hj
    by_cases hi : i = adoptSlot a c.ep
    · rw [hi]
      exact hused
    · rw [adoptStep_of_ne a hi]
      by_cases hjs : j = adoptSlot a c.ep
      · exact hbefore i (hjs ▸ hij)
      · rw [adoptStep_of_ne a hjs] at hj
        exact h.packed i j hij hj

/-! ## One call -/

/-- A call that the source's own bucket refuses leaves the shared one alone. -/
theorem pathAdoptAllow_refused {a : PathAdopt} {ep : PathEp} {now : UInt64}
    (h : (adoptOwn a ep now).2 = false) :
    (pathAdoptAllow a ep now).2 = false ∧ (pathAdoptAllow a ep now).1.tokens = a.tokens ∧
      (pathAdoptAllow a ep now).1.ms = a.ms := by
  unfold pathAdoptAllow
  dsimp only
  rw [if_pos h]
  exact ⟨rfl, rfl, rfl⟩

/-- One that it pays is for the shared bucket to say. -/
theorem pathAdoptAllow_paid {a : PathAdopt} {ep : PathEp} {now : UInt64}
    (h : (adoptOwn a ep now).2 = true) :
    (pathAdoptAllow a ep now).2 = (bucketTake a.tokens a.ms now).2.2 ∧
      (pathAdoptAllow a ep now).1.tokens = (bucketTake a.tokens a.ms now).1 ∧
      (pathAdoptAllow a ep now).1.ms = (bucketTake a.tokens a.ms now).2.1 := by
  unfold pathAdoptAllow
  dsimp only
  rw [if_neg (by simp [h])]
  exact ⟨rfl, rfl, rfl⟩

/-- No bucket was asked after the time of the call. -/
def ClockOk (a : PathAdopt) (c : AdoptCall) : Prop :=
  a.ms ≤ c.now ∧ ∀ i, (a.src i).used = true → (a.src i).ms ≤ c.now

theorem adoptStep_clockOk {a : PathAdopt} {c c' : AdoptCall} (h : ClockOk a c')
    (hnow : c.now ≤ c'.now) : ClockOk (adoptStep a c) c' := by
  constructor
  · cases hown : (adoptOwn a c.ep c.now).2 with
    | false =>
        rw [adoptStep, (pathAdoptAllow_refused hown).2.2]
        exact h.1
    | true =>
        rw [adoptStep, (pathAdoptAllow_paid hown).2.2, bucketTake_ms]
        exact hnow
  · intro i hi
    by_cases hslot : i = adoptSlot a c.ep
    · rw [hslot, adoptStep_src, adoptOwn_src_self]
      dsimp only
      rw [bucketTake_ms]
      exact hnow
    · rw [adoptStep_of_ne a hslot] at hi ⊢
      exact h.2 i hi

/-- No bucket holds more than its depth. -/
def LevelsOk (a : PathAdopt) : Prop :=
  a.tokens ≤ pathAdoptDepth * 1000 ∧ ∀ i, (a.src i).tokens ≤ pathAdoptDepth * 1000

theorem adoptStep_levelsOk {a : PathAdopt} (h : LevelsOk a) (c : AdoptCall) :
    LevelsOk (adoptStep a c) := by
  constructor
  · cases hown : (adoptOwn a c.ep c.now).2 with
    | false =>
        rw [adoptStep, (pathAdoptAllow_refused hown).2.1]
        exact h.1
    | true =>
        rw [adoptStep, (pathAdoptAllow_paid hown).2.1]
        exact bucketTake_level_le _ _ _
  · intro i
    by_cases hslot : i = adoptSlot a c.ep
    · rw [hslot, adoptStep_src, adoptOwn_src_self]
      exact bucketTake_level_le _ _ _
    · rw [adoptStep_of_ne a hslot]
      exact h.2 i

/-! ## Whole runs -/

theorem run_ringInv (calls : List AdoptCall) : RingInv (run adoptStep pathAdoptZero calls) := by
  have hinit : RingInv pathAdoptZero := by
    constructor
    · intro i j hi
      cases hi
    · intro i j _ hj
      cases hj
  exact run_invariant (I := RingInv) (fun _ c h => adoptStep_ringInv h c) hinit calls

theorem run_levelsOk (calls : List AdoptCall) : LevelsOk (run adoptStep pathAdoptZero calls) := by
  have hinit : LevelsOk pathAdoptZero := ⟨Nat.zero_le _, fun _ => Nat.zero_le _⟩
  exact run_invariant (I := LevelsOk) (fun _ c h => adoptStep_levelsOk h c) hinit calls

/-- Along calls whose times do not decrease no bucket is ahead of the clock. -/
theorem clockOk_everyStep {calls : List AdoptCall}
    (hclock : calls.Pairwise fun c d => c.now ≤ d.now) :
    EveryStep adoptStep ClockOk pathAdoptZero calls := by
  have hstep : ∀ a c c', ClockOk a c → ClockOk a c' → c.now ≤ c'.now →
      ClockOk (adoptStep a c) c' := fun _ _ _ _ h hnow => adoptStep_clockOk h hnow
  have hinit : ∀ c ∈ calls, ClockOk pathAdoptZero c := by
    intro c _
    refine ⟨?_, ?_⟩
    · rw [UInt64.le_iff_toNat_le]
      exact Nat.zero_le _
    · intro i hi
      cases hi
  exact everyStep_of_pairwise hstep hclock hinit

section Windows

variable (start width : Nat)

/-- The number of the times that fall into the window. -/
def countIn (times : List Nat) : Nat := times.countP (inWindow start width)

variable {start width}

theorem countIn_append_toList (times : List Nat) (o : Option Nat) :
    countIn start width (times ++ o.toList) =
      countIn start width times +
        if ∃ t, o = some t ∧ inWindow start width t = true then 1 else 0 := by
  unfold countIn
  rw [List.countP_append]
  cases o with
  | none => simp
  | some t => simp [List.countP_cons]

theorem countIn_le_of_drawn {tokens n : Nat} {ms : UInt64}
    (h : BucketDrawn start width tokens ms n) :
    n ≤ pathAdoptDepth + pathAdoptRate * width / 1000 := by
  have hle := Drawn.count_le h (by decide)
  rw [Nat.mul_comm pathAdoptDepth 1000, Nat.mul_add_div (by decide)] at hle
  exact hle

/-- The shared bucket pays every call that is admitted. -/
theorem admittedTimes_drawn {calls : List AdoptCall}
    (hclock : EveryStep adoptStep ClockOk pathAdoptZero calls) :
    BucketDrawn start width (run adoptStep pathAdoptZero calls).tokens
      (run adoptStep pathAdoptZero calls).ms
      (countIn start width (admittedTimes pathAdoptZero calls)) := by
  have hinit : BucketDrawn start width pathAdoptZero.tokens pathAdoptZero.ms
      (countIn start width []) := Drawn.zero (Nat.zero_le _)
  refine observe_invariant
    (I := fun a seen => BucketDrawn start width a.tokens a.ms (countIn start width seen))
    ?_ hinit hclock
  · intro a c seen h hnow
    rw [countIn_append_toList]
    cases hown : (adoptOwn a c.ep c.now).2 with
    | false =>
        obtain ⟨hno, htokens, hms⟩ := pathAdoptAllow_refused hown
        rw [adoptStep, htokens, hms, if_neg (by simp [hno])]
        exact h
    | true =>
        obtain ⟨hyes, htokens, hms⟩ := pathAdoptAllow_paid hown
        rw [adoptStep, htokens, hms]
        simpa [hyes] using h.take hnow.1

/-- A source in the ring has drawn on its bucket by what the bucket paid, since it was first
there. -/
structure OwnInv (start width : Nat) (ep : PathEp) (a : PathAdopt) (seen : List Nat) : Prop where
  ring : RingInv a
  levels : LevelsOk a
  drawn : ∀ i, (a.src i).used = true → (a.src i).ep = ep →
    BucketDrawn start width (a.src i).tokens (a.src i).ms (countIn start width seen)
  absent : ¬InRing a ep → countIn start width seen = 0

/-- The entry of the source as its bucket is asked. -/
theorem OwnInv.entry {ep : PathEp} {a : PathAdopt} {seen : List Nat}
    (h : OwnInv start width ep a seen) {now : UInt64} (hnow : ClockOk a { ep := ep, now := now }) :
    BucketDrawn start width (adoptEntry (a.src (adoptSlot a ep)) ep now).tokens
        (adoptEntry (a.src (adoptSlot a ep)) ep now).ms (countIn start width seen) ∧
      (adoptEntry (a.src (adoptSlot a ep)) ep now).ms ≤ now := by
  rcases (h.ring.slot ep).1 with ⟨hused, hep⟩ | hnone
  · rw [adoptEntry_own hused hep]
    exact ⟨h.drawn _ hused hep, hnow.2 _ hused⟩
  · obtain ⟨htokens, hms⟩ := adoptEntry_new (fun hused => hnone (adoptSlot a ep) hused) now
    have hzero : countIn start width seen = 0 := by
      apply h.absent
      rintro ⟨i, hi, hep⟩
      exact hnone i hi hep
    rw [htokens, hms, hzero]
    exact ⟨Drawn.zero le_rfl, UInt64.le_refl now⟩

/-- One call after which the source has an entry. -/
theorem OwnInv.step {ep : PathEp} {a : PathAdopt} {seen : List Nat}
    (h : OwnInv start width ep a seen) (c : AdoptCall) (hnow : ClockOk a c)
    (hin : InRing (adoptStep a c) ep) :
    OwnInv start width ep (adoptStep a c)
      (seen ++ (if c.ep = ep ∧ (adoptOwn a c.ep c.now).2 = true then some c.now.toNat
        else none).toList) := by
  have hring := adoptStep_ringInv h.ring c
  refine ⟨hring, adoptStep_levelsOk h.levels c, ?_, fun hnot => absurd hin hnot⟩
  intro i hi hep
  obtain ⟨hused, hself⟩ := adoptStep_self a c
  rw [countIn_append_toList]
  by_cases hsrc : c.ep = ep
  · -- its own call, and the one entry that it has
    subst hsrc
    obtain rfl : i = adoptSlot a c.ep := hring.unique i _ hi hused (hep.trans hself.symm)
    obtain ⟨hdrawn, hms⟩ := h.entry hnow
    rw [adoptStep_src, adoptOwn_src_self]
    have hpaid : (adoptOwn a c.ep c.now).2 =
        (bucketTake (adoptEntry (a.src (adoptSlot a c.ep)) c.ep c.now).tokens
          (adoptEntry (a.src (adoptSlot a c.ep)) c.ep c.now).ms c.now).2.2 := rfl
    rw [hpaid]
    simpa using hdrawn.take hms
  · have hne : i ≠ adoptSlot a c.ep := by
      rintro rfl
      exact hsrc (hself.symm.trans hep)
    rw [adoptStep_of_ne a hne] at hi hep ⊢
    rw [if_neg (by simp [hsrc])]
    exact h.drawn i hi hep

/-- The bucket of a source that stays in the ring pays no more than it holds and gains. -/
theorem paidBy_le {ep : PathEp} {a : PathAdopt} {calls : List AdoptCall} (hring : RingInv a)
    (hlevels : LevelsOk a) (hclock : EveryStep adoptStep ClockOk a calls)
    (hstays : StaysInRing ep a calls) (start width : Nat) :
    countIn start width (paidBy ep a calls) ≤ pathAdoptDepth + pathAdoptRate * width / 1000 := by
  have hinit : OwnInv start width ep a [] :=
    ⟨hring, hlevels, fun i _ _ => Drawn.zero (hlevels.2 i), fun _ => rfl⟩
  have hend := observe_invariant (I := OwnInv start width ep)
    (fun a c seen h hc => h.step c hc.1 hc.2) hinit (hclock.and hstays)
  rw [List.nil_append] at hend
  by_cases hin : InRing (run adoptStep a calls) ep
  · obtain ⟨i, hi, hep⟩ := hin
    exact countIn_le_of_drawn (hend.drawn i hi hep)
  · have hzero : countIn start width (paidBy ep a calls) = 0 := hend.absent hin
    rw [hzero]
    exact Nat.zero_le _

/-- A source is admitted where its bucket pays, at most. -/
theorem admittedFrom_sublist (ep : PathEp) (a : PathAdopt) (calls : List AdoptCall) :
    (admittedFrom ep a calls).Sublist (paidBy ep a calls) := by
  apply observe_sublist
  intro a c
  cases hown : (adoptOwn a c.ep c.now).2 with
  | false =>
      left
      rw [if_neg]
      simp [(pathAdoptAllow_refused hown).1]
  | true =>
      cases hall : (pathAdoptAllow a c.ep c.now).2 with
      | false => exact .inl (if_neg (by simp))
      | true => exact .inr rfl

end Windows

/-- From a zeroed budget, for every sequence of endpoints at times that do not decrease: what
is admitted in any window of `width` milliseconds is no more than the depth and what the
rate gives for the window; no more is what the own bucket of a source pays, and so what of
it is admitted, over any stretch of the calls in which it stays in the ring; and a call that
the source's own bucket refuses is not admitted and leaves the shared bucket alone. -/
theorem adopt_budget (calls : List AdoptCall) (hclock : calls.Pairwise fun c d => c.now ≤ d.now)
    (start width : Nat) :
    countIn start width (admittedTimes pathAdoptZero calls) ≤
        pathAdoptDepth + pathAdoptRate * width / 1000 ∧
      (∀ pre part ep, pre ++ part <+: calls →
        StaysInRing ep (run adoptStep pathAdoptZero pre) part →
        countIn start width (admittedFrom ep (run adoptStep pathAdoptZero pre) part) ≤
            countIn start width (paidBy ep (run adoptStep pathAdoptZero pre) part) ∧
          countIn start width (paidBy ep (run adoptStep pathAdoptZero pre) part) ≤
            pathAdoptDepth + pathAdoptRate * width / 1000) ∧
      ∀ pre c, pre ++ [c] <+: calls →
        let a := run adoptStep pathAdoptZero pre
        (adoptOwn a c.ep c.now).2 = false →
          (pathAdoptAllow a c.ep c.now).2 = false ∧ (adoptStep a c).tokens = a.tokens ∧
            (adoptStep a c).ms = a.ms := by
  have hok := clockOk_everyStep hclock
  refine ⟨countIn_le_of_drawn (admittedTimes_drawn hok), ?_, ?_⟩
  · intro pre part ep hpre hstays
    have hpart := ((everyStep_append_iff pre part).mp (hok.of_prefix hpre)).2
    exact ⟨(admittedFrom_sublist ep _ part).countP_le,
      paidBy_le (run_ringInv pre) (run_levelsOk pre) hpart hstays start width⟩
  · intro pre c _ a hown
    exact pathAdoptAllow_refused hown

/-- Ten probes at once from one source. -/
def tenProbes : List AdoptCall := List.replicate 10 { ep := pathEpZero, now := 5000 }

theorem adopt_budget_tenProbes :
    StaysInRing pathEpZero pathAdoptZero tenProbes ∧
      countIn 5000 0 (admittedTimes pathAdoptZero tenProbes) ≤ 8 ∧
      countIn 5000 0 (paidBy pathEpZero pathAdoptZero tenProbes) ≤ 8 := by
  have hstays : StaysInRing pathEpZero pathAdoptZero tenProbes := by
    unfold StaysInRing
    decide +kernel
  obtain ⟨hall, hown, -⟩ := adopt_budget tenProbes (by decide) 5000 0
  exact ⟨hstays, hall, (hown [] tenProbes pathEpZero List.prefix_rfl hstays).2⟩

/-! ## The gate -/

/-- `pathplane_holds_ep`, for the exact endpoint. -/
def pathplaneHoldsEp (pl : PathPlane) (ep : PathEp) : Bool := (pathTableFindEp pl.t ep).isSome

/-- `pathplane_gate`: may a frame that arrived be opened? -/
def pathplaneGate (pl : Option PathPlane) (a : PathAdopt) (magic : UInt32) (ep : PathEp)
    (data : Bytes) (now : UInt64) : PathAdopt × Bool :=
  if pathProbeIs magic data = false then (a, true)
  else if (pl.any fun pl => pathplaneHoldsEp pl ep) = true then (a, true)
  else pathAdoptAllow a ep now

/-- A frame that arrives, and the plane of its connection as it is then. -/
structure GateCall where
  pl : Option PathPlane
  magic : UInt32
  ep : PathEp
  data : Bytes
  now : UInt64

/-- What the frame asks of the budget: a probe from a source that no path holds is charged. -/
def GateCall.charged (c : GateCall) : Option AdoptCall :=
  if pathProbeIs c.magic c.data = true ∧
      (c.pl.any fun pl => pathplaneHoldsEp pl c.ep) = false then
    some { ep := c.ep, now := c.now }
  else none

/-- The gate's answer to one frame. -/
def gateAnswer (a : PathAdopt) (c : GateCall) : PathAdopt × Bool :=
  pathplaneGate c.pl a c.magic c.ep c.data c.now

/-- The times at which a frame is let through on the budget. -/
def gateSpent (a : PathAdopt) (calls : List GateCall) : List Nat :=
  observe (fun a c => (gateAnswer a c).1)
    (fun a c => if c.charged.isSome = true ∧ (gateAnswer a c).2 = true then some c.now.toNat
      else none) a calls

theorem gateAnswer_charged {a : PathAdopt} {c : GateCall} {d : AdoptCall}
    (h : c.charged = some d) : gateAnswer a c = pathAdoptAllow a d.ep d.now ∧ d.now = c.now := by
  unfold GateCall.charged at h
  split_ifs at h with hcharged
  cases h
  refine ⟨?_, rfl⟩
  unfold gateAnswer pathplaneGate
  rw [if_neg (by simp [hcharged.1]), if_neg (by simp [hcharged.2])]

/-- A frame that asks nothing of the budget passes, and leaves it alone. -/
theorem gateAnswer_free {a : PathAdopt} {c : GateCall} (h : c.charged = none) :
    gateAnswer a c = (a, true) := by
  unfold GateCall.charged at h
  split_ifs at h with hcharged
  unfold gateAnswer pathplaneGate
  by_cases hprobe : pathProbeIs c.magic c.data = false
  · rw [if_pos hprobe]
  · rw [if_neg hprobe, if_pos]
    by_contra hheld
    exact hcharged ⟨by simpa using hprobe, by simpa using hheld⟩

/-- The frames let through on the budget are the calls that the budget admits. -/
theorem gateSpent_eq (a : PathAdopt) (calls : List GateCall) :
    gateSpent a calls = admittedTimes a (calls.filterMap GateCall.charged) := by
  induction calls generalizing a with
  | nil => rfl
  | cons c calls ih =>
      unfold gateSpent at ih ⊢
      rw [observe_cons, ih]
      cases hcharged : c.charged with
      | none =>
          rw [List.filterMap_cons_none hcharged, gateAnswer_free hcharged]
          simp
      | some d =>
          obtain ⟨hanswer, hnow⟩ := gateAnswer_charged (a := a) hcharged
          have hcons : admittedTimes a (d :: calls.filterMap GateCall.charged) =
              (if (pathAdoptAllow a d.ep d.now).2 = true then some d.now.toNat else none).toList ++
                admittedTimes (adoptStep a d) (calls.filterMap GateCall.charged) := rfl
          rw [List.filterMap_cons_some hcharged, hcons, hanswer, ← hnow]
          simp [adoptStep]

/-- Whatever frames arrive at whatever planes, the gate lets no more through on the budget
in any window than the budget has. -/
theorem gate_budget (calls : List GateCall) (hclock : calls.Pairwise fun c d => c.now ≤ d.now)
    (start width : Nat) :
    countIn start width (gateSpent pathAdoptZero calls) ≤
      pathAdoptDepth + pathAdoptRate * width / 1000 := by
  rw [gateSpent_eq]
  have hcharged : (calls.filterMap GateCall.charged).Pairwise fun c d => c.now ≤ d.now := by
    refine hclock.filterMap _ ?_
    intro c d hle c' hc d' hd
    rw [(gateAnswer_charged (a := pathAdoptZero) hc).2,
      (gateAnswer_charged (a := pathAdoptZero) hd).2]
    exact hle
  exact countIn_le_of_drawn (admittedTimes_drawn (clockOk_everyStep hcharged))

end Paths
end Comrade
