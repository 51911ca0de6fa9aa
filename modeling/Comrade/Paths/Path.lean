import Comrade.Lib.Bytes

/-!
# One path

A path is a pair of a local transport and a remote endpoint over which sealed
datagrams of one connection can be sent (`path.h`, and the first half of
`path.c`).  It is probed; what the probes measure is kept in the path, and what
the other end says it measured beside it.

Times are milliseconds of the caller's clock.  `int` values are integers with
C's division; the one conversion that can lose something, of an elapsed time to
an `int`, is `toInt`.
-/

namespace Comrade
namespace Paths

open Lib

/-- `PATH_LOSS_WINDOW`. -/
def pathLossWindow : Nat := 16

/-- `PROBE_EVERY_MS`. -/
def probeEveryMs : Nat := 200

/-- `PATH_KEEP_MS`. -/
def pathKeepMs : Nat := 1000

/-- `PATH_WARM_MS`. -/
def pathWarmMs : Nat := 3000

/-- `PATH_DEAD_MS`. -/
def pathDeadMs : Nat := 8000

/-- `PATH_LOSS_WAIT_MS`. -/
def pathLossWaitMs : Int := 1000

/-- `PATH_LOSS_PENALTY_MS`. -/
def pathLossPenaltyMs : Int := 200

/-- `PATH_COST_QUANTUM_MS`. -/
def pathCostQuantumMs : Int := 5

/-- `PATH_PEER_SRTT_MAX`. -/
def pathPeerSrttMax : Int := 2000

/-- `PATH_PEER_SRTT_RATIO`. -/
def pathPeerSrttRatio : Int := 4

/-! ## Endpoints -/

/-- `struct path_ep`: an address, IPv4 carried v4-mapped, and a port. -/
structure PathEp where
  addr : Vector UInt8 16
  port : UInt16
  deriving DecidableEq, Repr

/-- The all-zero endpoint, one that is not known yet. -/
def pathEpZero : PathEp := { addr := Vector.replicate 16 0, port := 0 }

/-- What a socket address holds, by family; `unspec` for any other family and for
one that was zeroed. -/
inductive Sockaddr where
  | inet6 (addr : Vector UInt8 16) (port : UInt16) (scope : UInt32)
  | inet (addr : Vector UInt8 4) (port : UInt16)
  | unspec
  deriving DecidableEq, Repr

/-- `v4_prefix`. -/
def v4Prefix : Vector UInt8 12 := #v[0, 0, 0, 0, 0, 0, 0, 0, 0, 0, 0xff, 0xff]

/-- `path_ep_is_v4`. -/
def pathEpIsV4 (ep : PathEp) : Bool := ep.addr.toList.take 12 == v4Prefix.toList

/-- `path_ep_is_unicast`: one host, rather than a group or none at all. -/
def pathEpIsUnicast (ep : PathEp) : Bool :=
  if pathEpIsV4 ep = true then
    let a := ep.addr.toList.drop 12
    -- multicast and the rest, then broadcast, then 0.0.0.0/8, which names no host
    if a.headD 0 ≥ 224 then false
    else if a = [255, 255, 255, 255] then false
    else a.headD 0 != 0
  else if ep.addr.toList.headD 0 = 0xff then false
  else ep.addr != Vector.replicate 16 0

/-- `path_ep_any`: is the endpoint empty? -/
def pathEpAny (ep : PathEp) : Bool := ep == pathEpZero

/-- `path_ep_same_addr`. -/
def pathEpSameAddr (a b : PathEp) : Bool := a.addr == b.addr

/-- `path_ep_from_sockaddr`. -/
def pathEpFromSockaddr : Sockaddr → Option PathEp
  | .inet6 addr port _ => some { addr := addr, port := port }
  | .inet addr port => some { addr := v4Prefix ++ addr, port := port }
  | .unspec => none

/-- `path_ep_pack`. -/
def pathEpPack (ep : PathEp) : Bytes :=
  ep.addr.toList ++ [(ep.port >>> 8).toUInt8, ep.port.toUInt8]

/-- A path's name, `PATH_ID_LEN` bytes. -/
abbrev PathId := Vector UInt8 8

/-- `cc_blake2b_keyed` with a digest of 32 bytes. -/
abbrev Blake2b := (key msg : Bytes) → Vector UInt8 32

/-- `path_id_calc`: the name of the unordered pair of endpoints. -/
def pathIdCalc (blake2b : Blake2b) (sigKey : Bytes) (a b : PathEp) : PathId :=
  let ea := pathEpPack a
  let eb := pathEpPack b
  let msg := if memcmp ea eb ≤ 0 then ea ++ eb else eb ++ ea
  Vector.ofFn fun i : Fin 8 => (blake2b sigKey msg)[i.val]

/-! ## The path -/

/-- `enum path_kind`. -/
inductive PathKind where
  | segment
  | routed
  | ice
  deriving DecidableEq, Repr

/-- `enum path_warmth`, best first. -/
inductive PathWarmth where
  | warm
  | cold
  | unqualified
  | dead
  deriving DecidableEq, Repr

/-- The warmth as a number: the numeric order is the preference order. -/
def PathWarmth.code : PathWarmth → Nat
  | .warm => 0
  | .cold => 1
  | .unqualified => 2
  | .dead => 3

/-- A borrowed `struct nat_agent`, by address. -/
abbrev Agent := Nat

/-- `struct path`, less the texts of the log. -/
structure Path where
  used : Bool
  usable : Bool
  kind : PathKind
  remote : Sockaddr
  agent : Option Agent
  peerEp : PathEp
  selfEp : PathEp
  haveSelfEp : Bool
  inSrc : PathEp
  id : PathId
  nonce : UInt64
  sentMs : Nat
  outstanding : Bool
  srtt8 : Int
  peerSrttMs : Int
  peerLossPpt : Int
  peerBaseSrttMs : Int
  lossReg : UInt16
  lossN : Nat
  rtt : Vector UInt16 16
  rttN : Nat
  rttI : Nat
  lastPongMs : Nat
  createdMs : Nat
  tryingSinceMs : Nat
  nextProbeMs : Nat
  qualified : Bool

/-- A slot as `memset` leaves it. -/
def pathZero : Path where
  used := false
  usable := false
  kind := .segment
  remote := .unspec
  agent := none
  peerEp := pathEpZero
  selfEp := pathEpZero
  haveSelfEp := false
  inSrc := pathEpZero
  id := Vector.replicate 8 0
  nonce := 0
  sentMs := 0
  outstanding := false
  srtt8 := 0
  peerSrttMs := 0
  peerLossPpt := 0
  peerBaseSrttMs := 0
  lossReg := 0
  lossN := 0
  rtt := Vector.replicate 16 0
  rttN := 0
  rttI := 0
  lastPongMs := 0
  createdMs := 0
  tryingSinceMs := 0
  nextProbeMs := 0
  qualified := false

/-- `path_warmth_of`. -/
def pathWarmthOf (p : Path) (now : Nat) : PathWarmth :=
  if p.qualified = false then
    if now > p.tryingSinceMs ∧ now - p.tryingSinceMs > pathDeadMs then .dead else .unqualified
  else
    let silent := if now > p.lastPongMs then now - p.lastPongMs else 0
    if silent > pathDeadMs then .dead
    else if silent > pathWarmMs then .cold
    else .warm

/-! ## Measurements -/

/-- `path_srtt_ms`. -/
def pathSrttMs (p : Path) : Int := p.srtt8.tdiv 8

/-- `path_loss_ppt`: the probes lost, per thousand of those in the window. -/
def pathLossPpt (p : Path) : Int :=
  if p.lossN = 0 then 0
  else ((List.range p.lossN).countP fun i => p.lossReg.toBitVec.getLsbD i : Nat) * 1000 / p.lossN

/-- `path_base_srtt_ms`: the least of the round trips held, 0 where there is
none. -/
def pathBaseSrttMs (p : Path) : Int :=
  let base := (p.rtt.toList.take p.rttN).foldl
    (fun (base : Int) r => if base < 0 ∨ (r.toNat : Int) < base then r.toNat else base) (-1)
  if base < 0 then 0 else base

/-- `loss_record`. -/
def lossRecord (p : Path) (lost : Bool) : Path :=
  { p with
    lossReg := (p.lossReg <<< 1) ||| (if lost = true then 1 else 0)
    lossN := if p.lossN < pathLossWindow then p.lossN + 1 else p.lossN }

/-- `rtt_record`. -/
def rttRecord (p : Path) (rtt : Int) : Path :=
  let rtt := if rtt < 0 then 0 else if rtt > 0xffff then 0xffff else rtt
  let i := if p.rttN ≠ 0 then (p.rttI + 1) % pathLossWindow else 0
  { p with
    rttI := i
    rtt := p.rtt.setIfInBounds i (UInt16.ofNat rtt.toNat)
    rttN := if p.rttN < pathLossWindow then p.rttN + 1 else p.rttN }

/-- `loss_deadline`: how long a probe is outstanding before it counts as lost. -/
def lossDeadline (p : Path) : Int :=
  let d := pathSrttMs p * 3
  if d > pathLossWaitMs then d else pathLossWaitMs

/-- `path_probe_due`. -/
def pathProbeDue (p : Path) (now : Nat) : Bool :=
  p.used && !p.outstanding && decide (now ≥ p.nextProbeMs)

/-- `path_probe_sent`. -/
def pathProbeSent (p : Path) (nonce : UInt64) (now : Nat) : Path :=
  { p with
    nonce := nonce
    sentMs := now
    outstanding := true
    nextProbeMs := now + (if p.qualified = true then pathKeepMs else probeEveryMs) }

/-- `path_probe_expire`: score an outstanding probe past its deadline. -/
def pathProbeExpire (p : Path) (now : Nat) : Path :=
  if p.outstanding = false ∨ now ≤ p.sentMs ∨
      ((now - p.sentMs : Nat) : Int) ≤ lossDeadline p then p
  else lossRecord { p with outstanding := false } true

/-- The conversion of an unsigned count to `int`. -/
def toInt (n : Nat) : Int := Int.bmod n (2 ^ 32)

/-- `path_probe_pong`; the flag says that it answered the outstanding probe. -/
def pathProbePong (p : Path) (nonce : UInt64) (now : Nat) : Path × Bool :=
  if p.outstanding = false ∨ nonce ≠ p.nonce then (p, false)
  else
    let rtt := if now > p.sentMs then toInt (now - p.sentMs) else 0
    -- the first answer sets the smoothed value, every later one moves it an eighth
    let p' := { p with
      outstanding := false
      srtt8 := if p.qualified = false then rtt * 8 else p.srtt8 + (rtt - p.srtt8.tdiv 8) }
    let p' := lossRecord (rttRecord p' rtt) false
    let p' := { p' with lastPongMs := now }
    if p.qualified = false then
      ({ p' with qualified := true, nextProbeMs := now + pathKeepMs }, true)
    else (p', true)

/-- `path_peer_view`: the peer's figures, clamped rather than believed. -/
def pathPeerView (p : Path) (srttMs lossPpt baseSrttMs : Int) : Path :=
  let mine := pathSrttMs p
  let srttMs := if srttMs < 0 then 0 else srttMs
  let lossPpt := if lossPpt < 0 then 0 else lossPpt
  let lossPpt := if lossPpt > 1000 then 1000 else lossPpt
  let baseSrttMs := if baseSrttMs < 0 then 0 else baseSrttMs
  -- once we have measured the path ourselves, the peer may say so much more only
  let cap :=
    if p.qualified = true ∧ mine > 0 ∧ mine * pathPeerSrttRatio < pathPeerSrttMax then
      mine * pathPeerSrttRatio
    else pathPeerSrttMax
  { p with
    peerSrttMs := if srttMs > cap then cap else srttMs
    peerLossPpt := lossPpt
    peerBaseSrttMs := if baseSrttMs > cap then cap else baseSrttMs }

/-! ## Cost -/

/-- `path_cost_of`. -/
def pathCostOf (srttA lossA srttB lossB : Int) : Int :=
  let srtt := if srttA > srttB then srttA else srttB
  let loss := if lossA > lossB then lossA else lossB
  srtt + (pathLossPenaltyMs * loss).tdiv 1000

/-- `path_cost`. -/
def pathCost (p : Path) : Int :=
  pathCostOf (pathSrttMs p) (pathLossPpt p) p.peerSrttMs p.peerLossPpt

/-- `path_bucket_of`. -/
def pathBucketOf (cost : Int) : Int := cost.tdiv pathCostQuantumMs

/-- `path_bucket`. -/
def pathBucket (p : Path) : Int := pathBucketOf (pathCost p)

/-- `path_base_cost_of`. -/
def pathBaseCostOf (baseA baseB : Int) : Int := if baseA > baseB then baseA else baseB

/-- `path_base_cost`. -/
def pathBaseCost (p : Path) : Int := pathBaseCostOf (pathBaseSrttMs p) p.peerBaseSrttMs

/-- `path_base_bucket`. -/
def pathBaseBucket (p : Path) : Int := pathBucketOf (pathBaseCost p)

/-- A path proven fully lost: half a window of probes, and every one of them
gone. -/
def fullyLost (p : Path) : Bool :=
  decide (p.lossN ≥ pathLossWindow / 2) && decide (pathLossPpt p ≥ 1000)

/-- `path_cmp`: negative when `a` ranks ahead of `b`. -/
def pathCmp (a b : Path) (now : Nat) : Int :=
  let wa := pathWarmthOf a now
  let wb := pathWarmthOf b now
  if wa ≠ wb then (if wa.code < wb.code then -1 else 1)
  else
    let ba := pathBucket a
    let bb := pathBucket b
    if ba ≠ bb then (if ba < bb then -1 else 1)
    else memcmp a.id.toList b.id.toList

/-! ## Naming a path -/

/-- `path_id_refresh`. -/
def pathIdRefresh (blake2b : Blake2b) (sigKey : Bytes) (p : Path) : Path :=
  { p with id := pathIdCalc blake2b sigKey p.selfEp p.peerEp }

/-- `path_set_self_ep`. -/
def pathSetSelfEp (blake2b : Blake2b) (sigKey : Bytes) (p : Path) (ep : PathEp) : Path :=
  if pathEpAny ep = true ∨ (p.haveSelfEp = true ∧ p.selfEp = ep) then p
  else pathIdRefresh blake2b sigKey { p with selfEp := ep, haveSelfEp := true }

/-- `path_set_peer_ep`. -/
def pathSetPeerEp (blake2b : Blake2b) (sigKey : Bytes) (p : Path) (ep : PathEp) : Path :=
  if pathEpAny ep = true ∨ p.peerEp = ep then p
  else pathIdRefresh blake2b sigKey { p with peerEp := ep }

/-- `path_saw_inbound`. -/
def pathSawInbound (p : Path) (src : PathEp) : Path :=
  if pathEpAny src = true then p else { p with inSrc := src }

/-- The two ends of a path give it one name, whichever of the endpoints each
calls its own. -/
theorem pathIdCalc_comm (blake2b : Blake2b) (sigKey : Bytes) (a b : PathEp) :
    pathIdCalc blake2b sigKey a b = pathIdCalc blake2b sigKey b a := by
  have hlen : (pathEpPack a).length = (pathEpPack b).length := by simp [pathEpPack]
  unfold pathIdCalc
  dsimp only
  rw [memcmp_ordered_comm hlen fun lo hi => lo ++ hi]

end Paths
end Comrade
