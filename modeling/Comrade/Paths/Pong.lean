import Comrade.Paths.Reflect

/-!
# Where a pong comes from

A pong is matched to a path by its nonce, and is to count only where it comes back from
where the ping went: from the path's own endpoint, or over the path's own agent
(`apply_pong`).  A datagram reaches the plane over the shared socket of the lanlink,
with its source, or over an agent, which reports none.

* `Path.measures` is what a path has measured.
* `applyPong_measures`: a pong that is not turned away measures the path that its nonce
  names, and no other.
* `pong_fromPath_iff`: exactly which arrivals are measured right.  The source is
  compared by the way the pong arrived, and not by the kind of the path.
-/

namespace Comrade
namespace Paths

open Lib

/-- How a datagram reaches the plane: on the socket of the lanlink from a source, which
is mapped to IPv6, or over an agent. -/
inductive Arrival where
  | lanlink (addr : Vector UInt8 16) (port : UInt16) (scope : UInt32)
  | ice (agent : Agent)
  deriving DecidableEq, Repr

/-- The kind that the receiving side hands to the plane. -/
def Arrival.kind : Arrival → PathKind
  | .lanlink _ _ _ => .segment
  | .ice _ => .ice

def Arrival.src : Arrival → Option Sockaddr
  | .lanlink addr port scope => some (.inet6 addr port scope)
  | .ice _ => none

def Arrival.agent : Arrival → Option Agent
  | .lanlink _ _ _ => none
  | .ice agent => some agent

/-- What a path has measured. -/
structure Measures where
  outstanding : Bool
  qualified : Bool
  srtt8 : Int
  rtt : Vector UInt16 16
  rttN : Nat
  rttI : Nat
  lossReg : UInt16
  lossN : Nat
  lastPongMs : Nat
  deriving DecidableEq

def Path.measures (p : Path) : Measures where
  outstanding := p.outstanding
  qualified := p.qualified
  srtt8 := p.srtt8
  rtt := p.rtt
  rttN := p.rttN
  rttI := p.rttI
  lossReg := p.lossReg
  lossN := p.lossN
  lastPongMs := p.lastPongMs

/-- Did the datagram arrive from where the path leads: on the lanlink socket from the
path's endpoint, or over the path's agent? -/
def Arrival.FromPath (a : Arrival) (p : Path) : Prop :=
  (kindIsLanlink p.kind = true → ∃ scope, a = .lanlink p.peerEp.addr p.peerEp.port scope) ∧
    (p.kind = .ice → ∃ agent, a = .ice agent ∧ p.agent = some agent)

section Pongs

variable (blake2b : Blake2b) (base : Bytes)

/-- The plane after a pong. -/
def pongArrives (pl : PathPlane) (k : PlaneSinks) (pr : PathProbe) (a : Arrival) (now : Nat) :
    PathPlane :=
  (pathplaneApply blake2b base pl k { pr with type := .pong } a.kind a.src a.agent now).1

/-- Is a pong for the path turned away for its source? -/
def Arrival.turnedAway (a : Arrival) (p : Path) : Bool :=
  match a with
  | .lanlink addr port _ =>
      !pathEpAny { addr := addr, port := port } && { addr := addr, port := port } != p.peerEp
  | .ice _ => false

/-- A pong that is not turned away measures the path that its nonce names, and nothing
else is measured by it. -/
theorem applyPong_measures (pl : PathPlane) (k : PlaneSinks) (pr : PathProbe) (a : Arrival)
    (now : Nat) (i : Slot) :
    ((pongArrives blake2b base pl k pr a now).t.p i).measures ≠ (pl.t.p i).measures ↔
      noncePath pl pr.nonce = some i ∧ a.turnedAway (pl.t.p i) = false := by
  unfold pongArrives pathplaneApply applyPong
  dsimp only
  cases hpath : noncePath pl pr.nonce with
  | none => simp
  | some j =>
      dsimp only
      have haway : (a.kind ≠ .ice ∧ a.src.isSome = true ∧
          pathEpAny ((a.src.bind pathEpFromSockaddr).getD pathEpZero) = false ∧
          (a.src.bind pathEpFromSockaddr).getD pathEpZero ≠ (pl.t.p j).peerEp) ↔
          a.turnedAway (pl.t.p j) = true := by
        cases a with
        | lanlink addr port scope =>
            simp [Arrival.kind, Arrival.src, Arrival.turnedAway, pathEpFromSockaddr]
        | ice agent => simp [Arrival.kind, Arrival.turnedAway]
      by_cases hturned : a.turnedAway (pl.t.p j) = true
      · rw [if_pos (haway.mpr hturned)]
        refine iff_of_false (by simp) ?_
        rintro ⟨hsame, hnot⟩
        cases hsame
        rw [hturned] at hnot
        cases hnot
      · rw [if_neg (fun h => hturned (haway.mp h))]
        have hfound := firstSlot_spec hpath
        simp only [Bool.and_eq_true, beq_iff_eq] at hfound
        by_cases hij : j = i
        · subst hij
          refine iff_of_true ?_ ⟨rfl, by simpa using hturned⟩
          intro hsame
          -- the probe that was outstanding is answered
          obtain ⟨-, hout, hnonce, -⟩ := pathHeard_same blake2b base (pl.t.p j)
            ((a.src.bind pathEpFromSockaddr).getD pathEpZero) { pr with type := .pong }
          have hpong := pathProbePong_answers (hout.trans hfound.1.2) (hnonce.trans hfound.2) now
          have hafter := congrArg Measures.outstanding hsame
          simp only [PathTable.set, Function.update_self, Path.measures] at hafter
          rw [hpong.1, hfound.1.2] at hafter
          cases hafter
        · refine iff_of_false ?_ fun h => hij (Option.some.inj h.1)
          simp [PathTable.set, Function.update_of_ne (Ne.symm hij)]

/-- A pong that names the path arrives over its agent; or on the lanlink socket, for a
lanlink path with a source that is known, or for an agent's path with a source that
turns it away. -/
def Arrival.Right (a : Arrival) (p : Path) : Prop :=
  match a with
  | .lanlink addr port _ =>
      if p.kind = .ice then
        { addr := addr, port := port } ≠ pathEpZero ∧ { addr := addr, port := port } ≠ p.peerEp
      else { addr := addr, port := port } = pathEpZero → p.peerEp = pathEpZero
  | .ice agent => p.kind = .ice ∧ p.agent = some agent

/-- A path is measured right by a pong exactly where it is turned away or comes from
where the path leads. -/
theorem Arrival.right_iff (a : Arrival) (p : Path) :
    a.Right p ↔ (a.turnedAway p = false → a.FromPath p) := by
  cases a with
  | lanlink addr port scope =>
      by_cases hice : p.kind = .ice
      · simp [Arrival.Right, Arrival.turnedAway, Arrival.FromPath, hice, kindIsLanlink, pathEpAny]
      · have hlan : kindIsLanlink p.kind = true := by
          cases hkind : p.kind with
          | ice => exact absurd hkind hice
          | _ => rfl
        have hep : (∃ scope', Arrival.lanlink addr port scope =
            .lanlink p.peerEp.addr p.peerEp.port scope') ↔
              ({ addr := addr, port := port } : PathEp) = p.peerEp := by
          constructor
          · rintro ⟨scope', heq⟩
            cases heq
            rfl
          · rintro heq
            rw [← heq]
            exact ⟨scope, rfl⟩
        simp only [Arrival.Right, Arrival.turnedAway, Arrival.FromPath, hlan, hep, hice, pathEpAny]
        by_cases hzero : ({ addr := addr, port := port } : PathEp) = pathEpZero
        · simp [hzero, eq_comm]
        · simp [hzero]
  | ice agent =>
      cases hkind : p.kind <;>
        simp [Arrival.Right, Arrival.turnedAway, Arrival.FromPath, hkind, kindIsLanlink]

/-- For every plane and every pong that arrives on any transport from any source: each
path that it measures is one that it came from, exactly when it arrives right for the
path that its nonce names. -/
theorem pong_fromPath_iff (pl : PathPlane) (k : PlaneSinks) (pr : PathProbe) (a : Arrival)
    (now : Nat) :
    (∀ i, ((pongArrives blake2b base pl k pr a now).t.p i).measures ≠ (pl.t.p i).measures →
        a.FromPath (pl.t.p i)) ↔
      ∀ i, noncePath pl pr.nonce = some i → a.Right (pl.t.p i) := by
  refine forall_congr' fun i => ?_
  rw [applyPong_measures, Arrival.right_iff]
  exact ⟨fun h hi haway => h ⟨hi, haway⟩, fun h hi => h hi.1 hi.2⟩

end Pongs

/-- A ping is on its way on a path of the lanlink, and an agent's path is there too. -/
def pingOnLanlink : List PlaneEvent :=
  [.addEp openSinks .routed (testAddr 2) 0, .addIce (some 5) 0, .tickScan openSinks 0,
   .tickSend [(0, 11)] 0]

/-- The answer to it measures the path when it comes back over the agent. -/
theorem pong_overAgent :
    ¬∀ (blake2b : Blake2b) (base : Bytes) (pl : PathPlane) (k : PlaneSinks) (pr : PathProbe)
      (a : Arrival) (now : Nat) (i : Slot),
      ((pongArrives blake2b base pl k pr a now).t.p i).measures ≠ (pl.t.p i).measures →
        a.FromPath (pl.t.p i) := by
  intro h
  have hfrom := h turnedHash [] (run (planeStep turnedHash []) pathplaneInit pingOnLanlink)
    openSinks (testPong 11) (.ice 5) 10 0 (by decide)
  obtain ⟨scope, heq⟩ := hfrom.1 (by decide)
  cases heq

end Paths
end Comrade
