import Comrade.Paths.Table

/-!
# The path plane

The plane owns the path table of one connection, the probe cadence and the
answers to probes (`pathplane.c`).  Which carriers may send, what an agent has
nominated and which endpoints are this node's own is the playbook's to say: each
call is given the answers it gets, as `PlaneSinks`.

Every function below is one stretch that the source runs under the plane's lock.
`tick_probes` takes the lock twice, with other threads free to run in between,
so it is two functions here, `tickScan` and `tickSend`.  What a call sends is
returned as the probes it hands to be sealed.
-/

namespace Comrade
namespace Paths

open Lib

/-- The type of a probe; `other` is one the plane does not own. -/
inductive ProbeType where
  | ping
  | pong
  | other (code : UInt8)
  deriving DecidableEq, Repr

/-- `struct path_probe`, as the plane reads and fills it. -/
structure PathProbe where
  type : ProbeType
  nonce : UInt64
  haveTail : Bool
  echo : PathEp
  srttMs : Int
  lossPpt : Int
  baseSrttMs : Int

/-- A probe without its tail, the rest of it zeroed. -/
def probeBare (type : ProbeType) (nonce : UInt64) : PathProbe :=
  { type := type, nonce := nonce, haveTail := false, echo := pathEpZero, srttMs := 0,
    lossPpt := 0, baseSrttMs := 0 }

/-- `path_fill_tail`. -/
def pathFillTail (p : Path) (pr : PathProbe) : PathProbe :=
  { pr with
    haveTail := true
    echo := p.inSrc
    srttMs := pathSrttMs p
    lossPpt := pathLossPpt p
    baseSrttMs := pathBaseSrttMs p }

/-- `path_apply_tail`. -/
def pathApplyTail (blake2b : Blake2b) (sigKey : Bytes) (p : Path) (pr : PathProbe) : Path :=
  if pr.haveTail = false then p
  else pathPeerView (pathSetSelfEp blake2b sigKey p pr.echo) pr.srttMs pr.lossPpt pr.baseSrttMs

/-- What the playbook answers during one call (`struct pathplane_sinks`).  A sink
that is absent answers as the plane assumes it would: no `live` for every path
can carry, no `iceEp` for no pair. -/
structure PlaneSinks where
  ident : Bytes
  live : Option (List Agent)
  iceEp : Option (Agent → Option PathEp)
  isSelf : PathEp → Bool
  kindOf : PathEp → PathKind

/-- The part of `struct pathplane` that the calls below read and write; the
carriers set aside reach the table only by being dropped from it. -/
structure PathPlane where
  t : PathTable
  pinId : PathId
  pinned : Bool
  pinWarmth : PathWarmth
  nextIceEpMs : Nat
  bhKind : Option PathKind
  bhEp : PathEp
  bhMute : Bool

/-- `pathplane_init`. -/
def pathplaneInit : PathPlane where
  t := pathTableInit
  pinId := Vector.replicate 8 0
  pinned := false
  pinWarmth := .warm
  nextIceEpMs := 0
  bhKind := none
  bhEp := pathEpZero
  bhMute := false

/-- A probe on its way to the seal and the carrier, or dropped by the test hook. -/
structure ProbeOut where
  kind : PathKind
  agent : Option Agent
  dst : Option Sockaddr
  drop : Bool
  probe : PathProbe

/-- `blackholed`: has the test hook taken this path away? -/
def blackholed (pl : PathPlane) (kind : PathKind) (dst : Option Sockaddr) : Bool :=
  if pl.bhMute = true then true
  else if pl.bhKind ≠ some kind then false
  else if kind = .ice then true
  else
    match dst.bind pathEpFromSockaddr with
    | none => false
    | some ep => ep == pl.bhEp

/-- `pathplane_blackhole_arm`. -/
def pathplaneBlackholeArm (pl : PathPlane) (kind : PathKind) (dst : Option Sockaddr) : PathPlane :=
  { pl with bhEp := (dst.bind pathEpFromSockaddr).getD pathEpZero, bhKind := some kind }

/-- `pathplane_blackhole_mute`. -/
def pathplaneBlackholeMute (pl : PathPlane) (on : Bool) : PathPlane := { pl with bhMute := on }

/-- `pathplane_blackhole_lift`. -/
def pathplaneBlackholeLift (pl : PathPlane) : PathPlane :=
  { pl with bhKind := none, bhMute := false }

/-- `pathplane_usable`. -/
def pathplaneUsable (p : Path) (live : List Agent) : Bool :=
  if p.kind ≠ .ice then true
  else
    match p.agent with
    | none => false
    | some a => live.contains a

/-- Can the path's transport carry a datagram, as the playbook has it now? -/
def usableNow (k : PlaneSinks) (p : Path) : Bool :=
  match k.live with
  | none => true
  | some live => pathplaneUsable p live

/-! ## Entering and dropping paths -/

/-- `pathplane_add_ice`. -/
def pathplaneAddIce (pl : PathPlane) (agent : Option Agent) (now : Nat) : PathPlane :=
  { pl with t := (pathTableAdd pl.t .ice none agent now).1 }

/-- `pathplane_add_ep`; the flag says that the plane holds the path. -/
def pathplaneAddEp (pl : PathPlane) (k : PlaneSinks) (kind : PathKind) (remote : Sockaddr)
    (now : Nat) : PathPlane × Bool :=
  match pathEpFromSockaddr remote with
  | none => (pl, false)
  | some ep =>
      if k.isSelf ep = true then (pl, false)
      else
        let r := pathTableAdd pl.t kind (some remote) none now
        ({ pl with t := r.1 }, r.2.isSome)

/-- `pathplane_offer_path`. -/
def pathplaneOfferPath (pl : PathPlane) (k : PlaneSinks) (remote : Sockaddr) (now : Nat) :
    PathPlane :=
  match pathEpFromSockaddr remote with
  | none => pl
  | some ep =>
      if pathEpAny ep = true ∨ ep.port = 0 then pl
      else if pathEpIsUnicast ep = false then pl
      else if k.isSelf ep = true then pl
      else { pl with t := (pathTableOffer pl.t (k.kindOf ep) (some remote) now).1 }

/-- `pathplane_drop_ice`. -/
def pathplaneDropIce (pl : PathPlane) : PathPlane := { pl with t := pathTableDropKind pl.t .ice }

/-- `pathplane_drop_agent`. -/
def pathplaneDropAgent (pl : PathPlane) (agent : Option Agent) : PathPlane :=
  { pl with t := pathTableDropAgent pl.t agent }

/-- `pathplane_reset_stats`. -/
def pathplaneResetStats (pl : PathPlane) (now : Nat) : PathPlane :=
  { pl with t := pathTableResetStats pl.t now }

/-- `pathplane_clear`. -/
def pathplaneClear (pl : PathPlane) : PathPlane := { pl with t := pathTableInit }

/-! ## Probing -/

section Probing

variable (blake2b : Blake2b) (base : Bytes)

/-- The pairs that the live agents have nominated, where it is time to ask. -/
def tickEps (pl : PathPlane) (k : PlaneSinks) (now : Nat) : List (Agent × PathEp) :=
  match k.iceEp with
  | none => []
  | some iceEp =>
      if now ≥ pl.nextIceEpMs then
        (k.live.getD []).filterMap fun a => (iceEp a).map fun ep => (a, ep)
      else []

/-- What the scan of `tick_probes` does to one path in use. -/
def tickPath (k : PlaneSinks) (eps : List (Agent × PathEp)) (now : Nat) (p : Path) : Path :=
  let p := pathProbeExpire { p with usable := usableNow k p } now
  if p.kind = .ice then
    match eps.find? fun e => p.agent == some e.1 with
    | none => p
    | some e => pathSetPeerEp blake2b base p e.2
  else p

/-- The first half of `tick_probes`: what has gone quiet is scored, and what is
due is listed. -/
def tickScan (pl : PathPlane) (k : PlaneSinks) (now : Nat) : PathPlane × List Slot :=
  if k.ident = [] then (pl, [])
  else
    let eps := tickEps pl k now
    let next :=
      if now ≥ pl.nextIceEpMs ∧ k.iceEp.isSome = true then now + pathKeepMs else pl.nextIceEpMs
    let t := pl.t.mapUsed (tickPath blake2b base k eps now)
    ({ pl with t := t, nextIceEpMs := next },
      (List.finRange pathTableMax).filter fun i => (t.p i).usable && pathProbeDue (t.p i) now)

/-- One slot of the second half of `tick_probes`. -/
def tickSendStep (now : Nat) (st : PathPlane × List ProbeOut) (due : Slot × UInt64) :
    PathPlane × List ProbeOut :=
  let pl := st.1
  let p := pl.t.p due.1
  if p.usable = false ∨ pathProbeDue p now = false then st
  else
    ({ pl with t := pl.t.set due.1 (pathProbeSent p due.2 now) },
      st.2 ++ [{ kind := p.kind, agent := p.agent, dst := some p.remote,
                 drop := blackholed pl p.kind (some p.remote),
                 probe := pathFillTail p (probeBare .ping due.2) }])

/-- The second half of `tick_probes`: a ping on each path listed that is still
due, under the nonce drawn for it. -/
def tickSend (pl : PathPlane) (due : List (Slot × UInt64)) (now : Nat) :
    PathPlane × List ProbeOut :=
  due.foldl (tickSendStep now) (pl, [])

/-- `recv_path`: the path a frame arrived on. -/
def recvPath (pl : PathPlane) (kind : PathKind) (src : PathEp) (agent : Option Agent) :
    Option Slot :=
  if kind = .ice then pathTableFindAgent pl.t agent else pathTableFindEp pl.t src

/-- `nonce_path`: the path whose outstanding probe carries the nonce. -/
def noncePath (pl : PathPlane) (nonce : UInt64) : Option Slot :=
  firstSlot pl.t.p fun p => p.used && p.outstanding && p.nonce == nonce

/-- What an inbound probe leaves on the path it belongs to: where it was seen
coming from, and the far end's view. -/
def pathHeard (p : Path) (src : PathEp) (pr : PathProbe) : Path :=
  let src := if pathEpAny src = true then p.peerEp else src
  pathApplyTail blake2b base (pathSawInbound p src) pr

/-- `apply_ping`: the pong that answers it, unless the ping is our own. -/
def applyPing (pl : PathPlane) (k : PlaneSinks) (pr : PathProbe) (kind : PathKind)
    (ep : PathEp) (src : Option Sockaddr) (agent : Option Agent) (now : Nat) :
    PathPlane × Option ProbeOut :=
  let srck := if kind = .ice then kind else k.kindOf ep
  let rp := probeBare .pong pr.nonce
  if (noncePath pl pr.nonce).isSome = true then (pl, none)
  else
    -- a source that no path names is entered as one more candidate
    let r :=
      match recvPath pl kind ep agent with
      | some i => (pl.t, some i)
      | none =>
          if src.isSome = true ∧ kind ≠ .ice ∧ k.isSelf ep = false then
            pathTableOffer pl.t srck src now
          else (pl.t, none)
    match r with
    | (t, none) =>
        ({ pl with t := t },
          some { kind := kind, agent := agent, dst := src, drop := blackholed pl srck src,
                 probe := { rp with haveTail := true, echo := ep } })
    | (t, some i) =>
        let p := pathHeard blake2b base (t.p i) ep pr
        ({ pl with t := t.set i p },
          some { kind := kind, agent := agent, dst := src,
                 drop := blackholed pl (t.p i).kind src,
                 probe := pathFillTail p rp })

/-- `apply_pong`; off ICE the answer must come from where the question went. -/
def applyPong (pl : PathPlane) (pr : PathProbe) (kind : PathKind) (ep : PathEp)
    (src : Option Sockaddr) (now : Nat) : PathPlane :=
  match noncePath pl pr.nonce with
  | none => pl
  | some i =>
      let p := pl.t.p i
      if kind ≠ .ice ∧ src.isSome = true ∧ pathEpAny ep = false ∧ ep ≠ p.peerEp then pl
      else
        { pl with
          t := pl.t.set i (pathProbePong (pathHeard blake2b base p ep pr) pr.nonce now).1 }

/-- `pathplane_apply`: a probe already opened and judged. -/
def pathplaneApply (pl : PathPlane) (k : PlaneSinks) (pr : PathProbe) (kind : PathKind)
    (src : Option Sockaddr) (agent : Option Agent) (now : Nat) : PathPlane × Option ProbeOut :=
  let ep := (src.bind pathEpFromSockaddr).getD pathEpZero
  match pr.type with
  | .ping => applyPing blake2b base pl k pr kind ep src agent now
  | .pong => (applyPong blake2b base pl pr kind ep src now, none)
  | .other _ => (pl, none)

end Probing

/-! ## The decision -/

/-- The first path in use under an id. -/
def pathById (t : PathTable) (id : PathId) : Option Slot :=
  firstSlot t.p fun p => p.used && p.id == id

/-- `pin_check`: the pinned path carries while it can, and has not fallen below
the tier it was pinned in. -/
def pinCheck (pl : PathPlane) (now : Nat) : PathPlane :=
  if pl.pinned = false then pl
  else
    match pathById pl.t pl.pinId with
    | none => { pl with pinned := false }
    | some i =>
        if (pl.t.p i).usable = true ∧
            (pathWarmthOf (pl.t.p i) now).code ≤ pl.pinWarmth.code then
          { pl with t := { pl.t with sel := some i } }
        else { pl with pinned := false }

/-- Every slot's `usable`, as the playbook has it now. -/
def refreshUsable (t : PathTable) (k : PlaneSinks) : PathTable :=
  { t with p := fun i => { t.p i with usable := usableNow k (t.p i) } }

/-- `struct pathplane_pick`, less the label. -/
structure PathplanePick where
  kind : Option PathKind
  blackholed : Bool
  qualified : Bool
  srttMs : Int
  remote : Sockaddr
  agent : Option Agent
  nlive : Nat
  moved : Bool

/-- The report on the path that carries. -/
def pickOf (pl : PathPlane) (k : PlaneSinks) (prev : Option Slot) : PathplanePick :=
  let nlive := (k.live.getD []).length
  match pl.t.sel with
  | none =>
      { kind := none, blackholed := false, qualified := false, srttMs := 0, remote := .unspec,
        agent := none, nlive := nlive, moved := false }
  | some i =>
      let p := pl.t.p i
      { kind := some p.kind, blackholed := blackholed pl p.kind (some p.remote),
        qualified := p.qualified, srttMs := pathSrttMs p, remote := p.remote, agent := p.agent,
        nlive := nlive, moved := decide (pl.t.sel ≠ prev) }

/-- `pathplane_decide`. -/
def pathplaneDecide (pl : PathPlane) (k : PlaneSinks) (now : Nat) : PathPlane × PathplanePick :=
  let pl' := pinCheck { pl with t := pathSelect (refreshUsable pl.t k) now } now
  (pl', pickOf pl' k pl.t.sel)

/-- `enum pathplane_pin`. -/
inductive PinResult where
  | ok
  | unknown
  | unusable
  deriving DecidableEq, Repr

/-- `pathplane_pin`; whether the statement was forced shows in the log only. -/
def pathplanePin (pl : PathPlane) (k : PlaneSinks) (id : PathId) (now : Nat) :
    PathPlane × PinResult :=
  match pathById pl.t id with
  | none => (pl, .unknown)
  | some i =>
      let p := { pl.t.p i with usable := usableNow k (pl.t.p i) }
      if p.usable = false then ({ pl with t := pl.t.set i p }, .unusable)
      else
        ({ pl with
           pinId := id
           pinWarmth := pathWarmthOf p now
           pinned := true
           t := { pl.t.set i p with sel := some i } }, .ok)

/-- `pathplane_carry_id`. -/
def pathplaneCarryId (pl : PathPlane) : Option PathId :=
  match pl.t.sel with
  | none => none
  | some i => if (pl.t.p i).used = true then some (pl.t.p i).id else none

/-- `pathplane_challenger`. -/
def pathplaneChallenger (pl : PathPlane) (now : Nat) : Option PathId :=
  (pathChallenger pl.t now).map fun i => (pl.t.p i).id

end Paths
end Comrade
