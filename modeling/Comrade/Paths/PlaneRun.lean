import Comrade.Lib.Run
import Comrade.Paths.Plane

/-!
# The escape from a dead path

A run of the plane is any list of calls, by whatever thread and at whatever
times.  The session is stuck where the path that carries is dead although
another could carry it.

* `pathSelect_sel`: the ranking alone leaves a dead path for a warm one.
* `PinAlive` is what a run keeps up while nothing dead is pinned: the tier of a
  standing pin is above the dead one.
* `decide_notStuck` joins the two over whole runs.
* `decide_of_dead_pin`: a pin that names a dead path holds the session there.
-/

namespace Comrade
namespace Paths

open Lib

/-- One call into the plane, with the playbook's answers and the time. -/
inductive PlaneEvent where
  | tickScan (k : PlaneSinks) (now : Nat)
  | tickSend (due : List (Slot × UInt64)) (now : Nat)
  | apply (k : PlaneSinks) (pr : PathProbe) (kind : PathKind) (src : Option Sockaddr)
      (agent : Option Agent) (now : Nat)
  | decide (k : PlaneSinks) (now : Nat)
  | pin (k : PlaneSinks) (id : PathId) (forced : Bool) (now : Nat)
  | addIce (agent : Option Agent) (now : Nat)
  | addEp (k : PlaneSinks) (kind : PathKind) (remote : Sockaddr) (now : Nat)
  | offerPath (k : PlaneSinks) (remote : Sockaddr) (now : Nat)
  | dropIce
  | dropAgent (agent : Option Agent)
  | resetStats (now : Nat)
  | clear
  | blackholeArm (kind : PathKind) (dst : Option Sockaddr)
  | blackholeMute (on : Bool)
  | blackholeLift

section Runs

variable (blake2b : Blake2b) (base : Bytes)

/-- The plane after one call. -/
def planeStep (pl : PathPlane) : PlaneEvent → PathPlane
  | .tickScan k now => (tickScan blake2b base pl k now).1
  | .tickSend due now => (tickSend pl due now).1
  | .apply k pr kind src agent now =>
      (pathplaneApply blake2b base pl k pr kind src agent now).1
  | .decide k now => (pathplaneDecide pl k now).1
  | .pin k id _ now => (pathplanePin pl k id now).1
  | .addIce agent now => pathplaneAddIce pl agent now
  | .addEp k kind remote now => (pathplaneAddEp pl k kind remote now).1
  | .offerPath k remote now => pathplaneOfferPath pl k remote now
  | .dropIce => pathplaneDropIce pl
  | .dropAgent agent => pathplaneDropAgent pl agent
  | .resetStats now => pathplaneResetStats pl now
  | .clear => pathplaneClear pl
  | .blackholeArm kind dst => pathplaneBlackholeArm pl kind dst
  | .blackholeMute on => pathplaneBlackholeMute pl on
  | .blackholeLift => pathplaneBlackholeLift pl

/-- The path that carries is not dead while another path, which can send and is
not fully lost, is warm. -/
def NotStuck (pl : PathPlane) (now : Nat) : Prop :=
  ∀ i, pl.t.sel = some i → pathWarmthOf (pl.t.p i) now = .dead →
    ∀ j, j ≠ i → (pl.t.p j).used = true → (pl.t.p j).usable = true →
      fullyLost (pl.t.p j) = false → pathWarmthOf (pl.t.p j) now ≠ .warm

/-- A pin that goes through names a path that is not dead at the time. -/
def PinsAlive (pl : PathPlane) : PlaneEvent → Prop
  | .pin k id _ now => ∀ i, pathById pl.t id = some i → usableNow k (pl.t.p i) = true →
      pathWarmthOf (pl.t.p i) now ≠ .dead
  | _ => True

/-! ## The ranking leaves a dead path -/

theorem pathSelect_p (t : PathTable) (now : Nat) :
    (pathSelect t now).p = (expireProbes t now).p := by
  unfold pathSelect
  dsimp only
  split
  · rfl
  · split_ifs <;> rfl

/-- Where a candidate is warm, `path_select` leaves the session on a warm path. -/
theorem pathSelect_sel {t : PathTable} {now : Nat} {j : Slot}
    (hj : candidate ((pathSelect t now).p j) = true)
    (hw : pathWarmthOf ((pathSelect t now).p j) now = .warm) :
    ∃ i, (pathSelect t now).sel = some i ∧
      pathWarmthOf ((pathSelect t now).p i) now = .warm := by
  rw [pathSelect_p] at hj hw ⊢
  have hspec := pathBest_spec (expireProbes t now) now
  unfold pathSelect
  dsimp only
  cases hbest : pathBest (expireProbes t now) now with
  | none =>
      rw [hbest] at hspec
      rw [hspec j] at hj
      cases hj
  | some b =>
      rw [hbest] at hspec
      -- the best ranks no later than `j`, so it is as warm
      have hcode : (pathWarmthOf ((expireProbes t now).p b) now).code = 0 := by
        have hahead := hspec.2 j hj
        rw [pathCmp_neg_iff, hw, not_or] at hahead
        have hnot := hahead.1
        simp only [PathWarmth.code] at hnot ⊢
        omega
      have hbwarm : pathWarmthOf ((expireProbes t now).p b) now = .warm :=
        PathWarmth.code_injective hcode
      dsimp only
      by_cases hkeep : keepsSel (expireProbes t now) b now (expireProbes t now).sel = true
      · rw [if_pos hkeep]
        cases hsel : (expireProbes t now).sel with
        | none =>
            rw [hsel] at hkeep
            cases hkeep
        | some i =>
            rw [hsel] at hkeep
            refine ⟨i, rfl, PathWarmth.code_injective ?_⟩
            simp only [keepsSel, Bool.and_eq_true, Bool.not_eq_true', decide_eq_false_iff_not]
              at hkeep
            have hnot := hkeep.2
            rw [hcode] at hnot
            simp only [PathWarmth.code] at hnot ⊢
            omega
      · rw [if_neg hkeep]
        exact ⟨b, rfl, hbwarm⟩

/-! ## The pin -/

/-- Everything `pin_check` can do: it leaves the choice, or it makes the pinned
path the choice. -/
theorem pinCheck_cases (pl : PathPlane) (now : Nat) :
    (pinCheck pl now).t.p = pl.t.p ∧ (pinCheck pl now).pinWarmth = pl.pinWarmth ∧
      ((pinCheck pl now).pinned = true → pl.pinned = true) ∧
      ((pinCheck pl now).t.sel = pl.t.sel ∨
        ∃ i, (pinCheck pl now).t.sel = some i ∧ pl.pinned = true ∧
          (pathWarmthOf (pl.t.p i) now).code ≤ pl.pinWarmth.code) := by
  unfold pinCheck
  by_cases hpin : pl.pinned = false
  · rw [if_pos hpin]
    exact ⟨rfl, rfl, fun h => h, .inl rfl⟩
  · rw [if_neg hpin]
    have hpin' : pl.pinned = true := by simpa using hpin
    cases pathById pl.t pl.pinId with
    | none => exact ⟨rfl, rfl, fun _ => hpin', .inl rfl⟩
    | some i =>
        dsimp only
        split_ifs with hkeep
        · exact ⟨rfl, rfl, fun _ => hpin', .inr ⟨i, rfl, hpin', hkeep.2⟩⟩
        · exact ⟨rfl, rfl, fun _ => hpin', .inl rfl⟩

/-- A standing pin was made in a tier above the dead one. -/
def PinAlive (pl : PathPlane) : Prop := pl.pinned = true → pl.pinWarmth ≠ .dead

/-- One decision of a plane whose pin is alive. -/
theorem pathplaneDecide_notStuck {pl : PathPlane} (h : PinAlive pl) (k : PlaneSinks) (now : Nat) :
    NotStuck (pathplaneDecide pl k now).1 now := by
  let sel := { pl with t := pathSelect (refreshUsable pl.t k) now }
  have hdecide : (pathplaneDecide pl k now).1 = pinCheck sel now := rfl
  obtain ⟨hp, -, -, hcases⟩ := pinCheck_cases sel now
  intro i hi hdead j hji hused husable hlost hwarm
  rw [hdecide, hp] at hdead hused husable hlost hwarm
  rw [hdecide] at hi
  have hcand : candidate (sel.t.p j) = true := by simp [candidate, hused, husable, hlost]
  obtain ⟨i', hi', hwarm'⟩ := pathSelect_sel hcand hwarm
  rcases hcases with hsame | ⟨i'', hi'', hpin, hcode⟩
  · -- the ranking's own choice, which is warm
    have heq : i' = i := Option.some.inj (hi'.symm.trans (hsame.symm.trans hi))
    rw [heq] at hwarm'
    exact absurd (hdead.symm.trans hwarm') (by decide)
  · -- the pinned path, no colder than the tier of the pin
    have heq : i'' = i := Option.some.inj (hi''.symm.trans hi)
    rw [heq, hdead] at hcode
    have halive := h hpin
    have hwarmth : sel.pinWarmth = pl.pinWarmth := rfl
    rw [hwarmth] at hcode
    cases hpw : pl.pinWarmth with
    | dead => exact halive hpw
    | _ => rw [hpw] at hcode; exact absurd hcode (by decide)

theorem pathplaneApply_pin (pl : PathPlane) (k : PlaneSinks) (pr : PathProbe) (kind : PathKind)
    (src : Option Sockaddr) (agent : Option Agent) (now : Nat) :
    (pathplaneApply blake2b base pl k pr kind src agent now).1.pinned = pl.pinned ∧
      (pathplaneApply blake2b base pl k pr kind src agent now).1.pinWarmth = pl.pinWarmth := by
  unfold pathplaneApply
  dsimp only
  cases pr.type with
  | ping =>
      dsimp only
      unfold applyPing
      dsimp only
      split_ifs
      all_goals first
        | exact ⟨rfl, rfl⟩
        | (split <;> exact ⟨rfl, rfl⟩)
  | pong =>
      dsimp only
      unfold applyPong
      dsimp only
      split
      · exact ⟨rfl, rfl⟩
      · split_ifs <;> exact ⟨rfl, rfl⟩
  | other code => exact ⟨rfl, rfl⟩

theorem tickSend_pin (pl : PathPlane) (due : List (Slot × UInt64)) (now : Nat) :
    (tickSend pl due now).1.pinned = pl.pinned ∧
      (tickSend pl due now).1.pinWarmth = pl.pinWarmth := by
  suffices h : ∀ st : PathPlane × List ProbeOut,
      (due.foldl (tickSendStep now) st).1.pinned = st.1.pinned ∧
        (due.foldl (tickSendStep now) st).1.pinWarmth = st.1.pinWarmth from h (pl, [])
  induction due with
  | nil => exact fun _ => ⟨rfl, rfl⟩
  | cons d due ih =>
      intro st
      have hstep : (tickSendStep now st d).1.pinned = st.1.pinned ∧
          (tickSendStep now st d).1.pinWarmth = st.1.pinWarmth := by
        unfold tickSendStep
        dsimp only
        split_ifs <;> exact ⟨rfl, rfl⟩
      rw [List.foldl_cons]
      exact ⟨(ih _).1.trans hstep.1, (ih _).2.trans hstep.2⟩

/-- A pin that goes through takes the tier of the path it names; one that does
not leaves the pin that stands. -/
theorem pathplanePin_pinAlive {pl : PathPlane} (h : PinAlive pl) {k : PlaneSinks} {id : PathId}
    {now : Nat}
    (halive : ∀ i, pathById pl.t id = some i → usableNow k (pl.t.p i) = true →
      pathWarmthOf (pl.t.p i) now ≠ .dead) :
    PinAlive (pathplanePin pl k id now).1 := by
  unfold pathplanePin
  cases hid : pathById pl.t id with
  | none => exact h
  | some i =>
      dsimp only
      by_cases husable : usableNow k (pl.t.p i) = true
      · rw [if_neg (by simp [husable])]
        intro _
        exact halive i hid husable
      · rw [if_pos (by simpa using husable)]
        exact h

theorem planeStep_pinAlive {pl : PathPlane} (h : PinAlive pl) (ev : PlaneEvent)
    (hev : PinsAlive pl ev) : PinAlive (planeStep blake2b base pl ev) := by
  have hkeep : ∀ {pl' : PathPlane}, pl'.pinned = pl.pinned → pl'.pinWarmth = pl.pinWarmth →
      PinAlive pl' := by
    intro pl' hpinned hwarmth hp
    rw [hwarmth]
    exact h (hpinned ▸ hp)
  cases ev with
  | tickScan k now =>
      simp only [planeStep, tickScan]
      split_ifs <;> exact hkeep rfl rfl
  | tickSend due now => exact hkeep (tickSend_pin pl due now).1 (tickSend_pin pl due now).2
  | apply k pr kind src agent now =>
      have hpin := pathplaneApply_pin blake2b base pl k pr kind src agent now
      exact hkeep hpin.1 hpin.2
  | decide k now =>
      obtain ⟨-, hwarmth, hpinned, -⟩ :=
        pinCheck_cases { pl with t := pathSelect (refreshUsable pl.t k) now } now
      intro hp
      rw [planeStep, pathplaneDecide] at hp ⊢
      rw [hwarmth]
      exact h (hpinned hp)
  | pin k id forced now => exact pathplanePin_pinAlive h hev
  | addIce agent now => exact hkeep rfl rfl
  | addEp k kind remote now =>
      simp only [planeStep, pathplaneAddEp]
      split
      · exact h
      · split_ifs <;> exact hkeep rfl rfl
  | offerPath k remote now =>
      simp only [planeStep, pathplaneOfferPath]
      split
      · exact h
      · split_ifs <;> exact hkeep rfl rfl
  | dropIce => exact hkeep rfl rfl
  | dropAgent agent => exact hkeep rfl rfl
  | resetStats now => exact hkeep rfl rfl
  | clear => exact hkeep rfl rfl
  | blackholeArm kind dst => exact hkeep rfl rfl
  | blackholeMute on => exact hkeep rfl rfl
  | blackholeLift => exact hkeep rfl rfl

/-! ## Whole runs -/

/-- In every run in which no dead path is pinned, no decision leaves the session
stuck. -/
theorem decide_notStuck (events : List PlaneEvent)
    (hpins : EveryStep (planeStep blake2b base) PinsAlive pathplaneInit events) (k : PlaneSinks)
    (now : Nat) :
    NotStuck (pathplaneDecide (run (planeStep blake2b base) pathplaneInit events) k now).1 now := by
  have hinit : PinAlive pathplaneInit := fun h => absurd h (by decide)
  have halive : PinAlive (run (planeStep blake2b base) pathplaneInit events) :=
    run_invariant_of_everyStep (I := PinAlive)
      (fun _ ev h hev => planeStep_pinAlive blake2b base h ev hev) hinit hpins
  exact pathplaneDecide_notStuck halive k now

end Runs

/-! ## A dead path pinned -/

/-- What a decision leaves of a path's name and of the tier it is in. -/
theorem pathSelect_refresh (t : PathTable) (k : PlaneSinks) (now : Nat) (i : Slot) :
    ((pathSelect (refreshUsable t k) now).p i).used = (t.p i).used ∧
      ((pathSelect (refreshUsable t k) now).p i).id = (t.p i).id ∧
      ((pathSelect (refreshUsable t k) now).p i).usable = usableNow k (t.p i) ∧
      pathWarmthOf ((pathSelect (refreshUsable t k) now).p i) now = pathWarmthOf (t.p i) now := by
  have hexpire : ∀ p : Path, (pathProbeExpire p now).used = p.used ∧
      (pathProbeExpire p now).id = p.id ∧ (pathProbeExpire p now).usable = p.usable ∧
      pathWarmthOf (pathProbeExpire p now) now = pathWarmthOf p now := by
    intro p
    unfold pathProbeExpire
    split_ifs <;> exact ⟨rfl, rfl, rfl, rfl⟩
  rw [pathSelect_p]
  by_cases hused : ((refreshUsable t k).p i).used = true
  · have hp : (expireProbes (refreshUsable t k) now).p i =
        pathProbeExpire ((refreshUsable t k).p i) now := if_pos hused
    rw [hp]
    exact hexpire _
  · have hp : (expireProbes (refreshUsable t k) now).p i = (refreshUsable t k).p i :=
      if_neg hused
    rw [hp]
    exact ⟨rfl, rfl, rfl, rfl⟩

/-- A pin that goes through on a dead path holds the session there: the next
decision leaves it on that path, whatever else could carry. -/
theorem decide_of_dead_pin {pl : PathPlane} {k : PlaneSinks} {id : PathId} {now : Nat} {i : Slot}
    (hid : pathById pl.t id = some i) (husable : usableNow k (pl.t.p i) = true)
    (hdead : pathWarmthOf (pl.t.p i) now = .dead) :
    (pathplaneDecide (pathplanePin pl k id now).1 k now).1.t.sel = some i ∧
      pathWarmthOf ((pathplaneDecide (pathplanePin pl k id now).1 k now).1.t.p i) now = .dead := by
  let p := { pl.t.p i with usable := usableNow k (pl.t.p i) }
  let pinned : PathPlane :=
    { pl with
      pinId := id
      pinWarmth := pathWarmthOf p now
      pinned := true
      t := { pl.t.set i p with sel := some i } }
  have hpin : (pathplanePin pl k id now).1 = pinned := by
    rw [pathplanePin, hid]
    dsimp only
    rw [if_neg (by simp [husable])]
  -- the pin changes neither the names nor the tiers
  have hsame : ∀ j, (pinned.t.p j).used = (pl.t.p j).used ∧ (pinned.t.p j).id = (pl.t.p j).id ∧
      usableNow k (pinned.t.p j) = usableNow k (pl.t.p j) ∧
      pathWarmthOf (pinned.t.p j) now = pathWarmthOf (pl.t.p j) now := by
    intro j
    by_cases hj : j = i
    · subst hj
      have hp : pinned.t.p j = p := Function.update_self _ _ _
      rw [hp]
      exact ⟨rfl, rfl, rfl, rfl⟩
    · have hp : pinned.t.p j = pl.t.p j := Function.update_of_ne hj _ _
      rw [hp]
      exact ⟨rfl, rfl, rfl, rfl⟩
  let chosen : PathPlane := { pinned with t := pathSelect (refreshUsable pinned.t k) now }
  have hchosen : pathById chosen.t id = some i := by
    rw [pathById, firstSlot_eq_some_iff] at hid ⊢
    have htest : ∀ j, ((chosen.t.p j).used && (chosen.t.p j).id == id) =
        ((pl.t.p j).used && (pl.t.p j).id == id) := by
      intro j
      obtain ⟨hused, hname, -, -⟩ := pathSelect_refresh pinned.t k now j
      rw [hused, hname, (hsame j).1, (hsame j).2.1]
    exact ⟨(htest i).trans hid.1, fun j hj => (htest j).trans (hid.2 j hj)⟩
  obtain ⟨-, -, hu, hw⟩ := pathSelect_refresh pinned.t k now i
  have hwarm : pathWarmthOf (chosen.t.p i) now = .dead := by
    rw [hw, (hsame i).2.2.2, hdead]
  have hcheck : pinCheck chosen now = { chosen with t := { chosen.t with sel := some i } } := by
    unfold pinCheck
    rw [if_neg (by simp [chosen, pinned]), show chosen.pinId = id from rfl, hchosen]
    dsimp only
    rw [if_pos]
    refine ⟨?_, ?_⟩
    · rw [hu, (hsame i).2.2.1, husable]
    · have hpw : chosen.pinWarmth = .dead := hdead
      rw [hwarm, hpw]
  have hdecide : (pathplaneDecide pinned k now).1 = pinCheck chosen now := rfl
  rw [hpin, hdecide, hcheck]
  exact ⟨rfl, hwarm⟩

/-- A playbook on which every path can carry. -/
def openSinks : PlaneSinks :=
  { ident := [1], live := none, iceEp := none, isSelf := fun _ => false,
    kindOf := fun _ => .routed }

/-- The endpoint `::n`, port `n`. -/
def testEp (n : UInt8) : PathEp :=
  { addr := Vector.ofFn fun i => if i = 15 then n else 0, port := n.toUInt16 }

/-- The socket address of `testEp n`. -/
def testAddr (n : UInt8) : Sockaddr := .inet6 (testEp n).addr (testEp n).port 0

/-- A stand-in hash: the message backwards. -/
def turnedHash : Blake2b := fun _ msg => Vector.ofFn fun i : Fin 32 => msg.reverse.getD i 0

/-- The answer to a probe, echoing this end as `::1`. -/
def testPong (nonce : UInt64) : PathProbe :=
  { probeBare .pong nonce with haveTail := true, echo := testEp 1 }

/-- The name of the path to `::n`. -/
def testId (n : UInt8) : PathId := pathIdCalc turnedHash [] (testEp 1) (testEp n)

/-- Two paths answer, then the one to `::2` falls silent for good while the one to
`::3` answers again, and at 9000 the peer's statement that it transmits on the
path to `::n` arrives. -/
def silentPath (n : UInt8) : List PlaneEvent :=
  let k := openSinks
  [.addEp k .routed (testAddr 2) 0, .addEp k .routed (testAddr 3) 0, .tickScan k 0,
   .tickSend [(0, 11), (1, 12)] 0, .apply k (testPong 11) .routed (some (testAddr 2)) none 10,
   .apply k (testPong 12) .routed (some (testAddr 3)) none 10, .decide k 10, .tickScan k 8500,
   .tickSend [(0, 13), (1, 14)] 8500, .apply k (testPong 14) .routed (some (testAddr 3)) none 8510,
   .pin k (testId n) true 9000]

set_option maxRecDepth 4000

/-- While the pin names the path that answers, nothing is stuck. -/
theorem decide_notStuck_silentPath :
    EveryStep (planeStep turnedHash []) PinsAlive pathplaneInit (silentPath 3) ∧
      NotStuck (pathplaneDecide (run (planeStep turnedHash []) pathplaneInit (silentPath 3))
        openSinks 9000).1 9000 := by
  have hpins : EveryStep (planeStep turnedHash []) PinsAlive pathplaneInit (silentPath 3) := by
    refine ⟨trivial, trivial, trivial, trivial, trivial, trivial, trivial, trivial, trivial,
      trivial, ?_, trivial⟩
    show ∀ i, _ → _ → _
    decide
  exact ⟨hpins, decide_notStuck turnedHash [] (silentPath 3) hpins openSinks 9000⟩

/-- A statement that names the silent path, arriving after it died, holds the
session on it although the other path is warm. -/
theorem decide_stuck_silentPath :
    ¬∀ (blake2b : Blake2b) (base : Bytes) (events : List PlaneEvent) (k : PlaneSinks) (now : Nat),
      NotStuck (pathplaneDecide (run (planeStep blake2b base) pathplaneInit events) k now).1
        now := by
  intro h
  have hstuck := h turnedHash [] (silentPath 2) openSinks 9000 0 (by decide)
    (by decide) 1 (by decide) (by decide) (by decide)
    (by decide)
  exact hstuck (by decide)

end Paths
end Comrade
