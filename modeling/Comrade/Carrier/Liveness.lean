import Comrade.Lib.Run
import Comrade.Paths.Path

/-!
# The verdict on a link

The link is up while something authenticated arrives: an answer to a ping, or any other
traffic (`ctlplane.c`).  Arrivals are recorded by the threads that receive, and judged
by the one that shows the link, which has read its clock before it asks.  Times are
subtracted unsigned.

* `LiveSys` is the plane with the arrivals that are between the two halves of
  `ctlplane_heard`, and the times recorded so far.
* `InOrder` says that no time is recorded over a later one, and none is judged by that
  is before what is recorded.
* `judge_sound`: in a run whose steps are in order, no judge reports the peer lost with
  an arrival recorded in reach of its time.
-/

namespace Comrade
namespace Carrier

open Lib

/-- `HB_INTERVAL_MS`. -/
def hbIntervalMs : Nat := 700

/-- `HB_SILENT_TRIES`. -/
def hbSilentTries : Nat := 3

/-- `HB_RTT_CAP_MS`. -/
def hbRttCapMs : Int := 1000

/-- `hb_lost_ms`: how long silence may last. -/
def hbLostMs (rttMs : Int) : Nat :=
  let rtt := if rttMs > 0 then (if rttMs > hbRttCapMs then hbRttCapMs.toNat else rttMs.toNat)
    else 0
  hbSilentTries * hbIntervalMs + rtt

/-- `struct ctlplane_live`, less the network generation. -/
structure CtlplaneLive where
  lastPongMs : UInt64
  lastHeardMs : UInt64
  lostSinceMs : UInt64
  rttMs : Int
  pongSeen : Bool
  deriving DecidableEq, Repr

/-- `ctlplane_live_reset`. -/
def ctlplaneLiveReset (live : CtlplaneLive) (now : UInt64) : CtlplaneLive :=
  { live with lastPongMs := now, lastHeardMs := now, pongSeen := false, lostSinceMs := 0 }

/-- `on_pong`, for a ping that was stamped `stamp`. -/
def onPong (live : CtlplaneLive) (stamp now : UInt64) : CtlplaneLive :=
  { live with
    lastPongMs := now
    rttMs := Paths.toInt (now - stamp).toNat
    pongSeen := true }

/-- The time that a judge takes silence to have begun at. -/
def CtlplaneLive.quietSince (live : CtlplaneLive) : UInt64 :=
  if live.lastHeardMs > live.lastPongMs then live.lastHeardMs else live.lastPongMs

/-- `ctlplane_judge`; the flag says that the peer is lost. -/
def ctlplaneJudge (live : CtlplaneLive) (now : UInt64) : CtlplaneLive × Bool :=
  let live :=
    if live.pongSeen = true then
      if now - live.quietSince > UInt64.ofNat (hbLostMs live.rttMs) then
        (if live.lostSinceMs = 0 then { live with lostSinceMs := now } else live)
      else { live with lostSinceMs := 0 }
    else live
  (live, live.lostSinceMs != 0)

/-! ## The threads -/

/-- The plane, the arrivals that have passed the unlocked comparison of `ctlplane_heard`
and not taken the lock yet, and the times recorded. -/
structure LiveSys where
  live : CtlplaneLive
  pending : List UInt64
  recorded : List UInt64

/-- A step of one of the threads.  `ctlplane_heard` is two of them: it compares without
the lock, and records under it. -/
inductive LiveEvent where
  | heardRead (now : UInt64)
  | heardStore (i : Nat)
  | pong (stamp now : UInt64)
  | judge (now : UInt64)
  deriving DecidableEq, Repr

/-- The system after a step. -/
def liveStep (s : LiveSys) : LiveEvent → LiveSys
  | .heardRead now =>
      if now - s.live.lastHeardMs < 100 then s else { s with pending := s.pending ++ [now] }
  | .heardStore i =>
      match s.pending[i]? with
      | none => s
      | some now =>
          { live := { s.live with lastHeardMs := now }
            pending := s.pending.eraseIdx i
            recorded := s.recorded ++ [now] }
  | .pong stamp now =>
      { s with live := onPong s.live stamp now, recorded := s.recorded ++ [now] }
  | .judge now => { s with live := (ctlplaneJudge s.live now).1 }

/-- A link that has just come up. -/
def liveStart (live : CtlplaneLive) (now : UInt64) : LiveSys :=
  { live := ctlplaneLiveReset live now, pending := [], recorded := [] }

/-- The two times are at most `span` apart, whichever is the earlier. -/
def Within (span : Nat) (a b : UInt64) : Prop :=
  a.toNat ≤ b.toNat + span ∧ b.toNat ≤ a.toNat + span

instance (span : Nat) (a b : UInt64) : Decidable (Within span a b) :=
  inferInstanceAs (Decidable (_ ∧ _))

/-- A judge does not report the peer lost with an arrival recorded in reach of its
time. -/
def JudgeSound (s : LiveSys) : LiveEvent → Prop
  | .judge now => (∃ r ∈ s.recorded, Within (hbLostMs s.live.rttMs) r now) →
      (ctlplaneJudge s.live now).2 = false
  | _ => True

/-- An arrival is not recorded over a later one, and a link whose peer has answered is
not judged by a time before what is recorded. -/
def InOrder (s : LiveSys) : LiveEvent → Prop
  | .heardRead _ => True
  | .heardStore i => ∀ now ∈ s.pending[i]?, s.live.lastHeardMs ≤ now
  | .pong _ now => s.live.lastPongMs ≤ now
  | .judge now => s.live.pongSeen = true → s.live.quietSince ≤ now

/-! ## One step -/

theorem le_quietSince (live : CtlplaneLive) :
    live.lastPongMs.toNat ≤ live.quietSince.toNat ∧
      live.lastHeardMs.toNat ≤ live.quietSince.toNat := by
  unfold CtlplaneLive.quietSince
  split_ifs with h
  · exact ⟨Nat.le_of_lt h, le_rfl⟩
  · exact ⟨le_rfl, not_lt.mp h⟩

theorem quietSince_le {live : CtlplaneLive} {n : Nat} (hpong : live.lastPongMs.toNat ≤ n)
    (hheard : live.lastHeardMs.toNat ≤ n) : live.quietSince.toNat ≤ n := by
  unfold CtlplaneLive.quietSince
  split_ifs
  · exact hheard
  · exact hpong

theorem hbLostMs_lt (rttMs : Int) : hbLostMs rttMs < 2 ^ 64 := by
  unfold hbLostMs hbSilentTries hbIntervalMs hbRttCapMs
  dsimp only
  split_ifs <;> omega

/-- What the verdict of a judge comes from. -/
theorem ctlplaneJudge_lost {live : CtlplaneLive} {now : UInt64}
    (h : (ctlplaneJudge live now).2 = true) :
    (live.pongSeen = true ∧ hbLostMs live.rttMs < (now - live.quietSince).toNat) ∨
      (live.pongSeen = false ∧ live.lostSinceMs ≠ 0) := by
  unfold ctlplaneJudge at h
  cases hseen : live.pongSeen with
  | false =>
      rw [hseen] at h
      exact .inr ⟨rfl, by simpa using h⟩
  | true =>
      rw [hseen] at h
      refine .inl ⟨rfl, ?_⟩
      by_cases hquiet : now - live.quietSince > UInt64.ofNat (hbLostMs live.rttMs)
      · have hlt : (UInt64.ofNat (hbLostMs live.rttMs)).toNat < (now - live.quietSince).toNat :=
          hquiet
        rwa [UInt64.toNat_ofNat', Nat.mod_eq_of_lt (hbLostMs_lt _)] at hlt
      · simp [hquiet] at h

/-- Everything recorded is at or before the time that silence is taken to begin at, and
nothing is lost before the peer has answered. -/
structure LiveInv (s : LiveSys) : Prop where
  newest : ∀ r ∈ s.recorded, r.toNat ≤ s.live.quietSince.toNat
  unseen : s.live.pongSeen = false → s.live.lostSinceMs = 0

/-- A time recorded in order keeps what was recorded at or before the newest. -/
theorem LiveInv.record {s : LiveSys} (h : LiveInv s) {live : CtlplaneLive} {now : UInt64}
    (hgrows : s.live.quietSince.toNat ≤ live.quietSince.toNat)
    (hnow : now.toNat ≤ live.quietSince.toNat) :
    ∀ r ∈ s.recorded ++ [now], r.toNat ≤ live.quietSince.toNat := by
  intro r hr
  rcases List.mem_append.mp hr with hr | hr
  · exact (h.newest r hr).trans hgrows
  · rw [List.mem_singleton.mp hr]
    exact hnow

theorem liveStep_inv {s : LiveSys} (h : LiveInv s) {ev : LiveEvent} (hev : InOrder s ev) :
    LiveInv (liveStep s ev) := by
  obtain ⟨hpong, hheard⟩ := le_quietSince s.live
  cases ev with
  | heardRead now =>
      simp only [liveStep]
      split_ifs
      · exact h
      · exact ⟨h.newest, h.unseen⟩
  | heardStore i =>
      unfold liveStep
      dsimp only
      cases hi : s.pending[i]? with
      | none => exact h
      | some now =>
          have hle : s.live.lastHeardMs.toNat ≤ now.toNat := hev now hi
          obtain ⟨hpong', hheard'⟩ := le_quietSince { s.live with lastHeardMs := now }
          refine ⟨h.record ?_ hheard', h.unseen⟩
          exact quietSince_le hpong' (hle.trans hheard')
  | pong stamp now =>
      have hle : s.live.lastPongMs.toNat ≤ now.toNat := hev
      obtain ⟨hpong', hheard'⟩ := le_quietSince (onPong s.live stamp now)
      refine ⟨h.record ?_ hpong', ?_⟩
      · exact quietSince_le (hle.trans hpong') hheard'
      · intro hseen
        cases hseen
  | judge now =>
      have hsame : (ctlplaneJudge s.live now).1.quietSince = s.live.quietSince := by
        unfold ctlplaneJudge
        dsimp only
        split_ifs <;> rfl
      refine ⟨?_, ?_⟩
      · intro r hr
        show r.toNat ≤ (ctlplaneJudge s.live now).1.quietSince.toNat
        rw [hsame]
        exact h.newest r hr
      · show (ctlplaneJudge s.live now).1.pongSeen = false →
          (ctlplaneJudge s.live now).1.lostSinceMs = 0
        unfold ctlplaneJudge
        cases hseen : s.live.pongSeen with
        | false => simpa [hseen] using h.unseen hseen
        | true =>
            dsimp only
            split_ifs <;> simp_all

theorem LiveInv.judgeSound {s : LiveSys} (h : LiveInv s) {ev : LiveEvent} (hev : InOrder s ev) :
    JudgeSound s ev := by
  cases ev with
  | judge now =>
      rintro ⟨r, hr, -, hnear⟩
      by_contra hlost
      rcases ctlplaneJudge_lost (Bool.not_eq_false _ ▸ hlost) with ⟨hseen, hquiet⟩ | ⟨hseen, hsince⟩
      · have hle : s.live.quietSince.toNat ≤ now.toNat := hev hseen
        rw [UInt64.toNat_sub_of_le _ _ hle] at hquiet
        have hnewest := h.newest r hr
        omega
      · exact hsince (h.unseen hseen)
  | _ => trivial

/-! ## Whole runs -/

/-- Over every interleaving of arrivals and judges in which the times are in order, no
judge reports the peer lost with an arrival recorded within `hb_lost_ms` before or after
its time. -/
theorem judge_sound (live : CtlplaneLive) (start : UInt64) (events : List LiveEvent)
    (horder : EveryStep liveStep InOrder (liveStart live start) events) :
    EveryStep liveStep JudgeSound (liveStart live start) events := by
  have hinit : LiveInv (liveStart live start) := ⟨by simp [liveStart], fun _ => rfl⟩
  exact everyStep_of_guarded_invariant (I := LiveInv) (fun _ _ h hev => liveStep_inv h hev)
    (fun _ _ h hev => h.judgeSound hev) hinit horder

instance (s : LiveSys) : DecidablePred (InOrder s)
  | .heardRead _ => isTrue trivial
  | .heardStore i =>
      decidable_of_iff ((s.pending[i]?).all (fun now => decide (s.live.lastHeardMs ≤ now)) = true)
        (by cases h : s.pending[i]? <;> simp [InOrder, h])
  | .pong _ now => inferInstanceAs (Decidable (s.live.lastPongMs ≤ now))
  | .judge now =>
      inferInstanceAs (Decidable (s.live.pongSeen = true → s.live.quietSince ≤ now))

/-- A link before anything has been measured on it. -/
def liveNew : CtlplaneLive :=
  { lastPongMs := 0, lastHeardMs := 0, lostSinceMs := 0, rttMs := 0, pongSeen := false }

/-- The peer answers at 1000, something arrives at 2001, and the link is judged by a time
read at `now`. -/
def racedJudge (now : UInt64) : List LiveEvent :=
  [.pong 990 1000, .heardRead 2001, .heardStore 0, .judge now]

/-- Judged by a time after the arrival. -/
theorem judge_sound_after :
    EveryStep liveStep InOrder (liveStart liveNew 900) (racedJudge 4000) ∧
      EveryStep liveStep JudgeSound (liveStart liveNew 900) (racedJudge 4000) := by
  have horder : EveryStep liveStep InOrder (liveStart liveNew 900) (racedJudge 4000) := by
    decide
  exact ⟨horder, judge_sound liveNew 900 (racedJudge 4000) horder⟩

/-- Judged by a time read one millisecond before it: the silence is minus one, which is
the longest there is. -/
theorem judge_unsound_before :
    ¬∀ (live : CtlplaneLive) (start : UInt64) (events : List LiveEvent),
      EveryStep liveStep JudgeSound (liveStart live start) events := by
  intro h
  obtain ⟨-, -, -, hjudge, -⟩ := h liveNew 900 (racedJudge 2000)
  have hnear : ∃ r ∈ (run liveStep (liveStart liveNew 900)
      [.pong 990 1000, .heardRead 2001, .heardStore 0]).recorded,
      Within (hbLostMs (run liveStep (liveStart liveNew 900)
        [.pong 990 1000, .heardRead 2001, .heardStore 0]).live.rttMs) r 2000 :=
    ⟨2001, by decide, by decide⟩
  exact absurd (hjudge hnear) (by decide)

end Carrier
end Comrade
