import Comrade.Lib.Recent
import Comrade.Paths.Edits

/-!
# What a path's statistics say

The probes of a path are sent, answered and given up, and three figures are kept of them: a
smoothed round trip in eighths of a millisecond, a ring of the last round trips and a
register of the last outcomes.

* `roundTrip` and `outcome` are what a step measures; `observe` lists them over a run.
* `RttInv` and `LossInv` are what every run keeps up between the figures and those lists.
* `stats_exact`: the figures that `path_srtt_ms`, `path_base_srtt_ms` and `path_loss_ppt`
  give are bounds, minimum and ratio of what was measured.
-/

namespace Comrade
namespace Paths

open Lib

/-! ## What is measured -/

/-- A probe is sent, answered or looked at for its deadline. -/
inductive StatEvent where
  | sent (nonce : UInt64) (now : Nat)
  | pong (nonce : UInt64) (now : Nat)
  | expire (now : Nat)

/-- The path after one of them. -/
def statStep (p : Path) : StatEvent → Path
  | .sent nonce now => pathProbeSent p nonce now
  | .pong nonce now => (pathProbePong p nonce now).1
  | .expire now => pathProbeExpire p now

/-- The round trip that is measured: the time from the probe to its answer. -/
def roundTrip (p : Path) : StatEvent → Option Nat
  | .pong nonce now =>
      if (pathProbePong p nonce now).2 = true then some (now - p.sentMs) else none
  | .sent _ _ => none
  | .expire _ => none

/-- The outcome that is scored: was the probe lost? -/
def outcome (p : Path) : StatEvent → Option Bool
  | .pong nonce now => if (pathProbePong p nonce now).2 = true then some false else none
  | .expire now =>
      if p.outstanding = true ∧ (pathProbeExpire p now).outstanding = false then some true
      else none
  | .sent _ _ => none

/-- A round trip that is measured is below 2^28 ms, some three days. -/
def TripShort (p : Path) (ev : StatEvent) : Prop := ∀ r ∈ roundTrip p ev, r < 2 ^ 28

instance (p : Path) (ev : StatEvent) : Decidable (TripShort p ev) :=
  inferInstanceAs (Decidable (∀ r ∈ roundTrip p ev, r < 2 ^ 28))

/-- A path as it is entered, or as a reset of its statistics leaves it. -/
inductive StatsStart : Path → Prop where
  | created (kind : PathKind) (remote : Option Sockaddr) (agent : Option Agent) (ep : PathEp)
      (now : Nat) : StatsStart (pathNew kind remote agent ep now)
  | reset (p : Path) (now : Nat) : StatsStart (pathReset p now)

/-- A round trip as the ring holds it. -/
def rttCapped (rtt : Nat) : UInt16 := UInt16.ofNat (min rtt 0xffff)

/-- The figures of the round trips that were measured.  The smoothed one is between eight
times any lower and upper bound of them, up to the seven eighths that its division drops. -/
structure RttInv (p : Path) (rtts : List Nat) : Prop where
  qualified : p.qualified = true ↔ rtts ≠ []
  start : rtts = [] → p.srtt8 = 0
  short : ∀ r ∈ rtts, r < 2 ^ 28
  srtt : ∀ lo hi : Nat, rtts ≠ [] → (∀ r ∈ rtts, lo ≤ r ∧ r ≤ hi) →
    (8 * lo : Int) ≤ p.srtt8 ∧ p.srtt8 ≤ 8 * hi + 7
  ring : RingHolds p.rtt (rtts.map rttCapped)
  rttN : p.rttN = min rtts.length pathLossWindow
  rttI : rtts ≠ [] → p.rttI = (rtts.length - 1) % pathLossWindow

/-- The figures of the outcomes that were scored. -/
structure LossInv (p : Path) (outs : List Bool) : Prop where
  reg : ShiftHolds p.lossReg.toBitVec outs
  lossN : p.lossN = min outs.length pathLossWindow

/-! ## One step -/

theorem toInt_of_lt {n : Nat} (h : n < 2 ^ 31) : toInt n = n := by
  apply Int.bmod_eq_of_le_mul_two
  · omega
  · omega

/-- The smoothed value keeps between the bounds of what it was and of what it takes in. -/
theorem smooth_between {s r lo hi : Int} (hlo : 0 ≤ lo) (hs : 8 * lo ≤ s ∧ s ≤ 8 * hi + 7)
    (hr : lo ≤ r ∧ r ≤ hi) :
    8 * lo ≤ s + (r - s.tdiv 8) ∧ s + (r - s.tdiv 8) ≤ 8 * hi + 7 := by
  rw [Int.tdiv_eq_ediv_of_nonneg (by omega)]
  omega

/-- What an answer does to the figures of the round trips. -/
theorem pathProbePong_rtt {p : Path} {nonce : UInt64} {now : Nat}
    (h : (pathProbePong p nonce now).2 = true) (hshort : now - p.sentMs < 2 ^ 28) :
    let p' := (pathProbePong p nonce now).1
    p'.qualified = true ∧
      p'.srtt8 = (if p.qualified = false then ((now - p.sentMs : Nat) : Int) * 8
        else p.srtt8 + ((now - p.sentMs : Nat) - p.srtt8.tdiv 8)) ∧
      p'.rttI = (if p.rttN ≠ 0 then (p.rttI + 1) % pathLossWindow else 0) ∧
      p'.rtt = p.rtt.setIfInBounds p'.rttI (rttCapped (now - p.sentMs)) ∧
      p'.rttN = (if p.rttN < pathLossWindow then p.rttN + 1 else p.rttN) := by
  have hrtt : (if now > p.sentMs then toInt (now - p.sentMs) else 0) =
      ((now - p.sentMs : Nat) : Int) := by
    split_ifs with hlater
    · exact toInt_of_lt (by omega)
    · rw [Nat.sub_eq_zero_of_le (not_lt.mp hlater)]
      rfl
  have hcap : ∀ r : Nat, (if (r : Int) < 0 then 0 else if (r : Int) > 0xffff then 0xffff
      else (r : Int)).toNat = min r 0xffff := by
    intro r
    split_ifs <;> omega
  unfold pathProbePong at h ⊢
  dsimp only at h ⊢
  by_cases hno : p.outstanding = false ∨ nonce ≠ p.nonce
  · rw [if_pos hno] at h
    cases h
  · simp only [if_neg hno, hrtt]
    by_cases hqual : p.qualified = false
    · simp only [if_pos hqual]
      refine ⟨trivial, rfl, rfl, ?_, rfl⟩
      rw [rttCapped, ← hcap]
      rfl
    · simp only [if_neg hqual]
      refine ⟨by simpa [lossRecord, rttRecord] using hqual, rfl, rfl, ?_, rfl⟩
      rw [rttCapped, ← hcap]
      rfl

/-- A nonce that is not the outstanding one changes nothing. -/
theorem pathProbePong_ignored {p : Path} {nonce : UInt64} {now : Nat}
    (h : ¬(pathProbePong p nonce now).2 = true) : (pathProbePong p nonce now).1 = p := by
  unfold pathProbePong at h ⊢
  by_cases hno : p.outstanding = false ∨ nonce ≠ p.nonce
  · rw [if_pos hno]
  · rw [if_neg hno] at h
    dsimp only at h
    split_ifs at h <;> exact absurd rfl h

/-- An answer is an outcome that was not lost. -/
theorem pathProbePong_loss {p : Path} {nonce : UInt64} {now : Nat}
    (h : (pathProbePong p nonce now).2 = true) :
    ∃ p', p'.lossReg = p.lossReg ∧ p'.lossN = p.lossN ∧
      (pathProbePong p nonce now).1.lossReg = (lossRecord p' false).lossReg ∧
      (pathProbePong p nonce now).1.lossN = (lossRecord p' false).lossN := by
  refine ⟨p, rfl, rfl, ?_⟩
  unfold pathProbePong at h ⊢
  by_cases hno : p.outstanding = false ∨ nonce ≠ p.nonce
  · rw [if_pos hno] at h
    cases h
  · rw [if_neg hno]
    dsimp only
    split_ifs <;> exact ⟨rfl, rfl⟩

/-- What a record of one outcome does to the figures of the outcomes. -/
theorem LossInv.record {p : Path} {outs : List Bool} (h : LossInv p outs) (lost : Bool) :
    LossInv (lossRecord p lost) (outs ++ [lost]) := by
  constructor
  · have hreg : (lossRecord p lost).lossReg.toBitVec = shiftIn p.lossReg.toBitVec lost := by
      cases lost <;> rfl
    rw [hreg]
    exact h.reg.push lost
  · have hn : (lossRecord p lost).lossN =
        if p.lossN < pathLossWindow then p.lossN + 1 else p.lossN := rfl
    rw [hn, h.lossN, List.length_append, List.length_singleton]
    split_ifs <;> omega

theorem LossInv.of_eq {p p' : Path} {outs : List Bool} (h : LossInv p outs)
    (hreg : p'.lossReg = p.lossReg) (hn : p'.lossN = p.lossN) : LossInv p' outs := by
  constructor
  · rw [hreg]
    exact h.reg
  · rw [hn]
    exact h.lossN

theorem RttInv.of_eq {p p' : Path} {rtts : List Nat} (h : RttInv p rtts)
    (hqual : p'.qualified = p.qualified) (hsrtt : p'.srtt8 = p.srtt8) (hrtt : p'.rtt = p.rtt)
    (hn : p'.rttN = p.rttN) (hi : p'.rttI = p.rttI) : RttInv p' rtts := by
  constructor
  · rw [hqual]
    exact h.qualified
  · rw [hsrtt]
    exact h.start
  · exact h.short
  · rw [hsrtt]
    exact h.srtt
  · rw [hrtt]
    exact h.ring
  · rw [hn]
    exact h.rttN
  · rw [hi]
    exact h.rttI

/-- An answer to the outstanding probe. -/
theorem RttInv.pong {p : Path} {rtts : List Nat} (h : RttInv p rtts) {nonce : UInt64} {now : Nat}
    (hans : (pathProbePong p nonce now).2 = true) (hshort : now - p.sentMs < 2 ^ 28) :
    RttInv (pathProbePong p nonce now).1 (rtts ++ [now - p.sentMs]) := by
  obtain ⟨hqual, hsrtt, hi, hrtt, hn⟩ := pathProbePong_rtt hans hshort
  have hnext : (pathProbePong p nonce now).1.rttI = rtts.length % pathLossWindow := by
    rw [hi, h.rttN]
    by_cases hnil : rtts = []
    · simp [hnil]
    · have hpos := List.length_pos_of_ne_nil hnil
      rw [if_pos (by simp [pathLossWindow, hnil]), h.rttI hnil, Nat.mod_add_mod]
      congr 1
      omega
  constructor
  · simp [hqual]
  · simp
  · simpa only [List.forall_mem_append, List.forall_mem_singleton] using ⟨h.short, hshort⟩
  · intro lo hi' _ hbounds
    simp only [List.mem_append, List.mem_singleton] at hbounds
    have hr := hbounds (now - p.sentMs) (.inr rfl)
    rw [hsrtt]
    by_cases hfirst : p.qualified = false
    · rw [if_pos hfirst]
      omega
    · rw [if_neg hfirst]
      rw [Bool.not_eq_false, h.qualified] at hfirst
      have hold := h.srtt lo hi' hfirst fun r hr => hbounds r (.inl hr)
      exact smooth_between (by omega) hold (by omega)
  · rw [hrtt, hnext, List.map_append, List.map_singleton]
    have hpush := h.ring.push (by decide) (rttCapped (now - p.sentMs))
    rw [List.length_map] at hpush
    exact hpush
  · rw [hn, h.rttN, List.length_append, List.length_singleton]
    split_ifs <;> omega
  · intro _
    rw [hnext, List.length_append, List.length_singleton, Nat.add_sub_cancel]

/-- Where no answer is taken the figures of the round trips stay. -/
theorem RttInv.step {p : Path} {rtts : List Nat} (h : RttInv p rtts) (ev : StatEvent)
    (hshort : TripShort p ev) :
    RttInv (statStep p ev) (rtts ++ (roundTrip p ev).toList) := by
  cases ev with
  | sent nonce now =>
      rw [roundTrip, Option.toList_none, List.append_nil]
      exact h.of_eq rfl rfl rfl rfl rfl
  | expire now =>
      rw [roundTrip, Option.toList_none, List.append_nil, statStep]
      unfold pathProbeExpire
      split_ifs
      · exact h
      · exact h.of_eq rfl rfl rfl rfl rfl
  | pong nonce now =>
      unfold TripShort at hshort
      rw [roundTrip] at hshort ⊢
      rw [statStep]
      by_cases hans : (pathProbePong p nonce now).2 = true
      · rw [if_pos hans] at hshort ⊢
        exact h.pong hans (hshort _ rfl)
      · rw [if_neg hans, Option.toList_none, List.append_nil]
        rw [pathProbePong_ignored hans]
        exact h

theorem LossInv.step {p : Path} {outs : List Bool} (h : LossInv p outs) (ev : StatEvent) :
    LossInv (statStep p ev) (outs ++ (outcome p ev).toList) := by
  cases ev with
  | sent nonce now =>
      rw [outcome, Option.toList_none, List.append_nil]
      exact h.of_eq rfl rfl
  | expire now =>
      rw [statStep, outcome]
      unfold pathProbeExpire
      by_cases hkeep : p.outstanding = false ∨ now ≤ p.sentMs ∨
          ((now - p.sentMs : Nat) : Int) ≤ lossDeadline p
      · rw [if_pos hkeep, if_neg (by simp), Option.toList_none, List.append_nil]
        exact h
      · have hsame : LossInv { p with outstanding := false } outs := h.of_eq rfl rfl
        rw [if_neg hkeep, if_pos]
        · exact hsame.record true
        · exact ⟨by simpa using (not_or.mp hkeep).1, rfl⟩
  | pong nonce now =>
      rw [statStep, outcome]
      by_cases hans : (pathProbePong p nonce now).2 = true
      · rw [if_pos hans]
        obtain ⟨p', hreg, hn, hreg', hn'⟩ := pathProbePong_loss hans
        exact (LossInv.record (h.of_eq hreg hn : LossInv p' outs) false).of_eq hreg' hn'
      · rw [if_neg hans, Option.toList_none, List.append_nil, pathProbePong_ignored hans]
        exact h

theorem StatsStart.inv {p : Path} (h : StatsStart p) : RttInv p [] ∧ LossInv p [] := by
  have hrtt : ∀ {p : Path}, p.qualified = false → p.srtt8 = 0 → p.rttN = 0 →
      RttInv p [] := by
    intro p hqual hsrtt hn
    refine ⟨by simp [hqual], fun _ => hsrtt, by simp, ?_, ringHolds_nil p.rtt, hn, ?_⟩
    · intro lo hi hne
      exact absurd rfl hne
    · intro hne
      exact absurd rfl hne
  cases h with
  | created kind remote agent ep now => exact ⟨hrtt rfl rfl rfl, shiftHolds_nil _, rfl⟩
  | reset p now => exact ⟨hrtt rfl rfl rfl, shiftHolds_nil _, rfl⟩

/-- A reset starts every path in use again. -/
theorem pathTableResetStats_start {t : PathTable} {i : Slot} (hused : (t.p i).used = true)
    (now : Nat) : StatsStart ((pathTableResetStats t now).p i) := by
  rw [pathTableResetStats_eq]
  show StatsStart (if (t.p i).used = true then pathReset (t.p i) now else t.p i)
  rw [if_pos hused]
  exact .reset (t.p i) now

/-- A path that is new to the table starts so. -/
theorem pathTableAdd_start (t : PathTable) (kind : PathKind) (remote : Option Sockaddr)
    (agent : Option Agent) (now : Nat) {i : Slot}
    (hnew : (pathTableAdd t kind remote agent now).1.p i ≠ t.p i) :
    StatsStart ((pathTableAdd t kind remote agent now).1.p i) := by
  rcases pathTableAdd_cases t kind remote agent now with hsame | ⟨ep, slot, -, -, -, hset⟩
  · rw [hsame] at hnew
    exact absurd rfl hnew
  · rw [hset] at hnew ⊢
    by_cases hi : i = slot
    · subst hi
      have hp : (t.set i (pathNew kind remote agent ep now)).p i =
          pathNew kind remote agent ep now := Function.update_self _ _ _
      rw [hp]
      exact .created kind remote agent ep now
    · have hp : (t.set slot (pathNew kind remote agent ep now)).p i = t.p i :=
        Function.update_of_ne hi _ _
      exact absurd hp hnew

/-! ## What the figures say -/

/-- The round trips of a run, and what is kept of them. -/
theorem run_rttInv {start : Path} (hstart : StatsStart start) {events : List StatEvent}
    (hshort : EveryStep statStep TripShort start events) :
    RttInv (run statStep start events) (observe statStep roundTrip start events) :=
  observe_invariant (I := RttInv) (fun _ ev _ h hr => h.step ev hr) hstart.inv.1 hshort

/-- The outcomes of a run, and what is kept of them. -/
theorem run_lossInv {start : Path} (hstart : StatsStart start) {events : List StatEvent}
    (hshort : EveryStep statStep TripShort start events) :
    LossInv (run statStep start events) (observe statStep outcome start events) :=
  observe_invariant (I := LossInv) (fun _ ev _ h _ => h.step ev) hstart.inv.2 hshort

/-- The scaled average stays within an `int`. -/
theorem srtt8_fits {start : Path} (hstart : StatsStart start) {events : List StatEvent}
    (hshort : EveryStep statStep TripShort start events) :
    0 ≤ (run statStep start events).srtt8 ∧ (run statStep start events).srtt8 < 2 ^ 31 := by
  have h := run_rttInv hstart hshort
  generalize observe statStep roundTrip start events = rtts at h
  by_cases hnil : rtts = []
  · rw [h.start hnil]
    decide
  · have hmost : ∀ r ∈ rtts, 0 ≤ r ∧ r ≤ 2 ^ 28 - 1 := by
      intro r hr
      have hr := h.short r hr
      omega
    have hbounds := h.srtt 0 (2 ^ 28 - 1) hnil hmost
    omega

/-- The truncating division of the smoothed value stays between the bounds. -/
theorem RttInv.srtt_between {p : Path} {rtts : List Nat} (h : RttInv p rtts) {lo hi : Nat}
    (hlo : rtts.min? = some lo) (hhi : rtts.max? = some hi) :
    (lo : Int) ≤ pathSrttMs p ∧ pathSrttMs p ≤ hi := by
  have hne : rtts ≠ [] := by
    rintro rfl
    cases hlo
  rw [List.min?_eq_some_iff] at hlo
  rw [List.max?_eq_some_iff] at hhi
  have hsrtt := h.srtt lo hi hne fun r hr => ⟨hlo.2 r hr, hhi.2 r hr⟩
  unfold pathSrttMs
  rw [Int.tdiv_eq_ediv_of_nonneg (by omega)]
  omega

/-- The scan for the least of the round trips held. -/
theorem leastOf_eq (held : List UInt16) :
    (let base := held.foldl
        (fun (base : Int) r => if base < 0 ∨ (r.toNat : Int) < base then r.toNat else base) (-1)
      if base < 0 then 0 else base) = ((held.map UInt16.toNat).min?.getD 0 : Nat) := by
  have hscan : ∀ (l : List UInt16) (m : Nat), l.foldl
      (fun (base : Int) r => if base < 0 ∨ (r.toNat : Int) < base then r.toNat else base)
        (m : Int) = ((l.map UInt16.toNat).foldl min m : Nat) := by
    intro l
    induction l with
    | nil => exact fun _ => rfl
    | cons r l ih =>
        intro m
        have hstep : (if (m : Int) < 0 ∨ (r.toNat : Int) < m then (r.toNat : Int) else m) =
            (min m r.toNat : Nat) := by
          split_ifs <;> omega
        rw [List.foldl_cons, List.map_cons, List.foldl_cons, hstep, ih]
  cases held with
  | nil => rfl
  | cons r held =>
      have hfirst : (if (-1 : Int) < 0 ∨ (r.toNat : Int) < -1 then (r.toNat : Int) else -1) =
          r.toNat := if_pos (by omega)
      simp only [List.foldl_cons, hfirst, hscan, List.map_cons, List.min?_cons', Option.getD_some]
      rw [if_neg (by omega)]

/-- The base of a path is the least of the last round trips. -/
theorem RttInv.base_eq {p : Path} {rtts : List Nat} (h : RttInv p rtts) :
    pathBaseSrttMs p =
      (((rtts.rtake pathLossWindow).map fun r => min r 0xffff).min?.getD 0 : Nat) := by
  have hmem : ∀ x, x ∈ (p.rtt.toList.take p.rttN).map UInt16.toNat ↔
      x ∈ (rtts.rtake pathLossWindow).map fun r => min r 0xffff := by
    intro x
    have hcapped : ((rtts.map rttCapped).rtake pathLossWindow).map UInt16.toNat =
        (rtts.rtake pathLossWindow).map fun r => min r 0xffff := by
      rw [List.rtake, List.rtake, List.length_map, ← List.map_drop, List.map_map]
      apply List.map_congr_left
      intro r _
      have hlt : min r 0xffff < UInt16.size := by
        rw [show UInt16.size = 65536 from rfl]
        omega
      rw [Function.comp_apply, rttCapped, UInt16.toNat_ofNat_of_lt' hlt]
    rw [← hcapped, h.rttN, List.mem_map, List.mem_map]
    have hring := fun y => h.ring.mem_take_iff (x := y)
    simp only [List.length_map] at hring
    exact exists_congr fun y => and_congr_left' (hring y)
  unfold pathBaseSrttMs
  rw [leastOf_eq, min?_congr hmem]

/-- The loss of a path is the ratio of the last outcomes. -/
theorem LossInv.loss_eq {p : Path} {outs : List Bool} (h : LossInv p outs) :
    pathLossPpt p = (1000 * (outs.rtake pathLossWindow).count true /
      (outs.rtake pathLossWindow).length : Nat) := by
  have hlen : (outs.rtake pathLossWindow).length = p.lossN := by
    rw [List.rtake, List.length_drop, h.lossN]
    omega
  have hones := h.reg.countP_range
  rw [show min outs.length 16 = p.lossN from h.lossN.symm] at hones
  unfold pathLossPpt
  rw [hlen, hones]
  by_cases hnone : p.lossN = 0
  · rw [if_pos hnone, hnone, Nat.div_zero]
    rfl
  · rw [if_neg hnone, Nat.mul_comm]
    push_cast
    rfl

/-- For every sequence of probes sent, answered and given up on one path since it was entered
or its statistics were reset, every round trip below 2^28 ms: the smoothed round trip lies
between the least and the greatest that was measured; the base is the least of the last
sixteen, each capped; and the loss is the rounded-down ratio of the last sixteen
outcomes. -/
theorem stats_exact {start : Path} (hstart : StatsStart start) (events : List StatEvent)
    (hshort : EveryStep statStep TripShort start events) :
    let p := run statStep start events
    let rtts := observe statStep roundTrip start events
    let outs := observe statStep outcome start events
    (∀ lo hi, rtts.min? = some lo → rtts.max? = some hi →
        (lo : Int) ≤ pathSrttMs p ∧ pathSrttMs p ≤ hi) ∧
      pathBaseSrttMs p =
        (((rtts.rtake pathLossWindow).map fun r => min r 0xffff).min?.getD 0 : Nat) ∧
      pathLossPpt p = (1000 * (outs.rtake pathLossWindow).count true /
        (outs.rtake pathLossWindow).length : Nat) := by
  intro p rtts outs
  have hrtt : RttInv p rtts := run_rttInv hstart hshort
  have hloss : LossInv p outs := run_lossInv hstart hshort
  exact ⟨fun lo hi hlo hhi => hrtt.srtt_between hlo hhi, hrtt.base_eq, hloss.loss_eq⟩

/-- Two probes are answered, after 40 and after 80 ms, and the third is lost. -/
def threeProbes : List StatEvent :=
  [.sent 1 0, .pong 1 40, .sent 2 1000, .pong 2 1080, .sent 3 3000, .expire 6000]

theorem stats_exact_threeProbes :
    let p := run statStep (pathNew .routed none none pathEpZero 0) threeProbes
    ((40 : Int) ≤ pathSrttMs p ∧ pathSrttMs p ≤ (80 : Nat)) ∧
      pathBaseSrttMs p = (40 : Nat) ∧ pathLossPpt p = (333 : Nat) := by
  have hshort : EveryStep statStep TripShort (pathNew .routed none none pathEpZero 0)
      threeProbes := by decide
  obtain ⟨hsrtt, hbase, hloss⟩ :=
    stats_exact (.created .routed none none pathEpZero 0) threeProbes hshort
  exact ⟨hsrtt 40 80 (by decide) (by decide), hbase, hloss⟩

end Paths
end Comrade
