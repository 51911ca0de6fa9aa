import Comrade.Lib.Bytes
import Comrade.Lib.Run

/-!
# What a host knows about its own reachability

The pure model of `netstate.c`: for each address family the epoch of the network it is
on, the verdict on reachability, the source the kernel sends from, the probe schedule,
the rendezvous node held and the nodes on trial beside it, and the two address sets.

* Every entry point is a function on the state of one family; `netstate_on_netmon` and
  `netstate_tick` loop over the two families and do the same to each.
* `pend[i]`, the actions owed for family `i`, is kept with the family.
* A buffer with its length is the byte string of that length, and a null pointer or a
  length that is not positive is the empty string.
* Times are 64 bits wide and epochs 32, with the arithmetic of the C types.

`famStep` is one call as family `i` sees it, and `netstateStep` is the whole model: the
families share nothing but the calls (`run_netstateStep`).
-/

namespace Comrade
namespace Netstate

open Lib

/-- The index of the family: `f[0]` is v4 and `f[1]` is v6. -/
inductive Fam where
  | v4
  | v6
  deriving DecidableEq, Repr

/-- `NET_SCOPE_*`. -/
inductive Scope where
  | lan
  | cgnat
  | global
  deriving DecidableEq, Repr

/-- `NET_CONN_*`; `none` is the 0 of a family with no route. -/
inductive Conn where
  | none
  | up
  | pending
  deriving DecidableEq, Repr

/-! ## Constants -/

/-- `NETMON_MAX_ADDRS`, which is `NETSTATE_LOCAL_MAX`. -/
def netmonMaxAddrs : Nat := 64

/-- `NETSTATE_XLAT_MAX`. -/
def netstateXlatMax : Nat := 8

/-- `NETSTATE_SA_MAX`. -/
def netstateSaMax : Nat := 128

/-- `NETSTATE_CANDS_MAX`. -/
def netstateCandsMax : Nat := 4

/-- `NETSTATE_ANCHOR_QUALIFY`. -/
def anchorQualify : Nat := 4

/-- `NETSTATE_ANCHOR_QUIET`. -/
def anchorQuietMax : Nat := 5

/-- `NETSTATE_ANCHOR_GONE`. -/
def anchorGone : Nat := 90

/-- `NETSTATE_ANCHOR_PROVE_MS`. -/
def anchorProveMs : UInt64 := 10000

/-- `NETSTATE_ANCHOR_TRY_MS`. -/
def anchorTryMs : UInt64 := 3 * anchorProveMs

/-- `NETSTATE_RDV_MS`. -/
def netstateRdvMs : UInt64 := 2000

/-- `NETSTATE_SRC_FAST_MS`. -/
def srcFastMs : UInt64 := 500

/-- `NETSTATE_SRC_SLOW_MS`. -/
def srcSlowMs : UInt64 := 5000

/-- `NETSTATE_SRC_FAST_TRIES`. -/
def srcFastTries : Nat := 30

/-- `NETSTATE_PROBE_ROUNDS`. -/
def probeRoundsMax : Nat := 5

/-- `NETSTATE_PROBE_MS`. -/
def probeMs : UInt64 := 4000

/-- `NETSTATE_PROBE_SLOW_MS`. -/
def probeSlowMs : UInt64 := 30000

/-- `NETMON_CH_V4` and `NETMON_CH_V6`. -/
def netmonCh : Fam → UInt32
  | .v4 => 1
  | .v6 => 2

/-! The actions owed, `NSA_*`. -/

def nsaSampleSrc : UInt32 := 1
def nsaKickProbe : UInt32 := 2
def nsaEmitRows : UInt32 := 4
def nsaEmitConn : UInt32 := 8
def nsaEmitRdv : UInt32 := 16
def nsaRdvPin : UInt32 := 32
def nsaRdvRelocate : UInt32 := 64
def nsaEmitToken : UInt32 := 128
def nsaRdvDrop : UInt32 := 256

/-! ## The state -/

/-- `struct netmon_addr`: the family (`none` for one that is neither) and the
`addrlen` bytes of the address. -/
structure NetmonAddr where
  family : Option Fam
  addr : Bytes
  deriving DecidableEq

/-- `struct netstate_cand`. -/
structure Cand where
  addr : Bytes
  acks : Nat
  firstMs : UInt64
  seenMs : UInt64
  deriving DecidableEq

/-- `struct netstate_local`. -/
structure NetLocal where
  addr : Bytes
  scope : Scope
  proven : Bool
  deriving DecidableEq

/-- `struct netstate_xlat`. -/
structure Xlat where
  addr : Bytes
  scope : Scope
  deriving DecidableEq

/-- `struct netstate_fam`, with the actions owed for the family. -/
structure NetFam where
  epoch : UInt32
  src : Bytes
  srcText : Bytes
  srcScope : Scope
  srcEpoch : UInt32
  srcNextMs : UInt64
  srcTries : Nat
  routed : Bool
  conn : Conn
  upEpoch : UInt32
  probeRunning : Bool
  probeWanted : Bool
  probeNextMs : UInt64
  probeRounds : Nat
  anchor : Bytes
  picking : Bool
  cands : List Cand
  anchorConfirmed : Bool
  anchorVouched : Bool
  anchorCandidate : Bool
  anchorAcks : Nat
  anchorQuiet : Nat
  anchorSetMs : UInt64
  anchorFirstMs : UInt64
  anchorNextMs : UInt64
  hasAddr : Bool
  dhtAcked : Bool
  concluded : Bool
  locals : List NetLocal
  xlats : List Xlat
  pend : UInt32
  deriving DecidableEq

/-- A family after `netstate_init`. -/
def famInit (isHost : Bool) (now : UInt64) : NetFam where
  epoch := 1
  src := []
  srcText := []
  srcScope := .lan
  srcEpoch := 0
  srcNextMs := now
  srcTries := 0
  routed := false
  conn := .none
  upEpoch := 0
  probeRunning := false
  probeWanted := false
  probeNextMs := now
  probeRounds := 0
  anchor := []
  picking := isHost
  cands := []
  anchorConfirmed := false
  anchorVouched := false
  anchorCandidate := false
  anchorAcks := 0
  anchorQuiet := 0
  anchorSetMs := 0
  anchorFirstMs := 0
  anchorNextMs := now
  hasAddr := false
  dhtAcked := false
  concluded := false
  locals := []
  xlats := []
  pend := 0

/-- `raise_act`. -/
def raiseAct (f : NetFam) (bits : UInt32) : NetFam :=
  { f with pend := f.pend ||| bits }

/-- `conn_of`. -/
def connOf (f : NetFam) : Conn :=
  if f.hasAddr = false then .none
  else if f.upEpoch = f.epoch then .up
  else if f.routed = true then .pending
  else .none

/-- `sync_conn`. -/
def syncConn (f : NetFam) : NetFam :=
  if connOf f = f.conn then f
  else raiseAct { f with conn := connOf f } nsaEmitConn

/-- `probe_gap`. -/
def probeGap (f : NetFam) : UInt64 :=
  if f.probeRounds < probeRoundsMax then probeMs else probeSlowMs

/-- `facts_moved`. -/
def factsMoved (isHost : Bool) (f : NetFam) : NetFam :=
  if isHost = true then raiseAct f nsaEmitToken else f

/-! ## Addresses -/

/-- The length of an address of the family. -/
def addrLen : Fam → Nat
  | .v4 => 4
  | .v6 => 16

/-- `addr_scope_raw`. -/
def addrScopeRaw (b : Bytes) : Scope :=
  let b0 := b.getD 0 0
  let b1 := b.getD 1 0
  if b.length = 16 then
    if b0 = 0xfe ∧ b1 &&& 0xc0 = 0x80 then .lan
    else if b0 = 0xfe ∧ b1 &&& 0xc0 = 0xc0 then .lan
    else if b0 &&& 0xfe = 0xfc then .lan
    else .global
  else if b0 = 10 ∨ (b0 = 192 ∧ b1 = 168) ∨ (b0 = 172 ∧ 16 ≤ b1 ∧ b1 ≤ 31) ∨
      (b0 = 169 ∧ b1 = 254) then .lan
  else if b0 = 100 ∧ 64 ≤ b1 ∧ b1 ≤ 127 then .cgnat
  else .global

/-- `local_idx`. -/
def localIdx (f : NetFam) (a : Bytes) : Option Nat :=
  f.locals.findIdx? fun l => l.addr == a

/-- `snap_has`. -/
def snapHas (addrs : List NetmonAddr) (i : Fam) (a : Bytes) : Bool :=
  addrs.any fun r => r.family == some i && r.addr == a

/-- `xlat_forget`: whether the address was held as a translation, and the family
without it. -/
def xlatForget (f : NetFam) (a : Bytes) : Bool × NetFam :=
  if f.xlats.any (fun x => x.addr == a) then
    (true, { f with xlats := f.xlats.eraseP fun x => x.addr == a })
  else (false, f)

/-- The first loop of `local_sync`, with `k` entries left to look at: it walks down, and
an entry the snapshot lacks is closed over by the ones above it.  The flag is
`LOCAL_LOST`. -/
def localPrune (addrs : List NetmonAddr) (i : Fam) : Nat → List NetLocal → List NetLocal × Bool
  | 0, ls => (ls, false)
  | k + 1, ls =>
      if (ls[k]?).all (fun l => snapHas addrs i l.addr) then localPrune addrs i k ls
      else ((localPrune addrs i k (ls.eraseIdx k)).1, true)

/-- The second loop of `local_sync`.  The flag is `LOCAL_GAINED`. -/
def localAdd (i : Fam) : List NetmonAddr → NetFam → NetFam × Bool
  | [], f => (f, false)
  | r :: rest, f =>
      if netmonMaxAddrs ≤ f.locals.length then (f, false)
      else if r.family ≠ some i ∨ r.addr.length ≠ addrLen i then localAdd i rest f
      else if (localIdx f r.addr).isSome then localAdd i rest f
      else
        let (proven, f') := xlatForget f r.addr
        let l : NetLocal := { addr := r.addr, scope := addrScopeRaw r.addr, proven := proven }
        ((localAdd i rest { f' with locals := f'.locals ++ [l] }).1, true)

/-- `local_sync`: the family, `LOCAL_LOST` and `LOCAL_GAINED`. -/
def localSync (f : NetFam) (i : Fam) (addrs : List NetmonAddr) : NetFam × Bool × Bool :=
  let (kept, lost) := localPrune addrs i f.locals.length f.locals
  let (f', gained) := localAdd i addrs { f with locals := kept }
  (f', lost, gained)

/-- `proofs_demote`. -/
def proofsDemote (f : NetFam) : NetFam :=
  { f with locals := f.locals.map fun l => { l with proven := false } }

/-- `xlat_note`: nothing when it was held already or there is no room. -/
def xlatNote (f : NetFam) (a : Bytes) : Option NetFam :=
  if f.xlats.any (fun x => x.addr == a) then none
  else if netstateXlatMax ≤ f.xlats.length then none
  else some { f with xlats := f.xlats ++ [{ addr := a, scope := addrScopeRaw a }] }

/-! ## A snapshot of the interfaces -/

/-- `same` of `netstate_on_netmon`: the addresses moved one way only, with one held on
either side of it. -/
def sameNet (had lost gained : Bool) (kept : List NetLocal) : Bool :=
  if gained && !lost then had
  else if lost && !gained then !kept.isEmpty
  else false

/-- What a move resets, whatever it carries across. -/
def moveReset (same : Bool) (now : UInt64) (f : NetFam) : NetFam :=
  { f with
    epoch := f.epoch + 1
    srcTries := 0
    srcNextMs := now
    routed := f.routed && same
    anchorAcks := 0
    anchorSetMs := now
    anchorFirstMs := 0
    anchorQuiet := 0
    anchorNextMs := now
    cands := []
    dhtAcked := false
    concluded := false
    probeRounds := 0
    probeWanted := false
    probeRunning := false
    probeNextMs := now }

/-- The proofs a move drops or carries across. -/
def moveProofs (same wasUp : Bool) (f : NetFam) : NetFam :=
  if same = false then { proofsDemote f with xlats := [] }
  else if wasUp = true then { f with upEpoch := f.epoch }
  else f

/-- What a move makes the caller do. -/
def moveRaise (isHost : Bool) (f : NetFam) : NetFam :=
  let f1 := raiseAct f (nsaSampleSrc ||| nsaKickProbe ||| nsaEmitRows ||| nsaEmitConn)
  factsMoved isHost (if f1.anchor ≠ [] then raiseAct f1 (nsaRdvPin ||| nsaEmitRdv) else f1)

/-- `netstate_on_netmon` past the test of the family's bit: the family has moved. -/
def famMove (isHost same wasUp : Bool) (now : UInt64) (f : NetFam) : NetFam :=
  let f1 := moveProofs same wasUp (moveReset same now f)
  moveRaise isHost { f1 with conn := connOf f1 }

/-- `has_addr` brought in line with the address set, in `netstate_on_netmon`. -/
def syncHasAddr (isHost : Bool) (f : NetFam) : NetFam :=
  if f.hasAddr ≠ !f.locals.isEmpty then
    factsMoved isHost (syncConn { f with hasAddr := !f.locals.isEmpty })
  else f

/-- One turn of the loop of `netstate_on_netmon`. -/
def netstateOnNetmon (isHost : Bool) (i : Fam) (changed : UInt32) (addrs : List NetmonAddr)
    (now : UInt64) (f : NetFam) : NetFam :=
  let had := !f.locals.isEmpty
  let (f1, lost, gained) := localSync f i addrs
  let f2 := if lost || gained then raiseAct f1 nsaEmitRows else f1
  let same := sameNet had lost gained f2.locals
  let wasUp := f2.upEpoch == f2.epoch
  let f3 := syncHasAddr isHost f2
  if changed &&& netmonCh i = 0 then f3 else famMove isHost same wasUp now f3

/-! ## Source samples and probes -/

/-- `src_unusable`. -/
def srcUnusable (a : Bytes) : Bool :=
  a.length == 16 && a.getD 0 0 == 0xfe && a.getD 1 0 &&& 0xc0 == 0x80

/-- When the source is sampled next. -/
def srcGap (tries : Nat) : UInt64 := if tries < srcFastTries then srcFastMs else srcSlowMs

/-- Whether the family has a route, taken as `on`. -/
def setRouted (isHost on : Bool) (f : NetFam) : NetFam :=
  if f.routed = on then f else factsMoved isHost (syncConn { f with routed := on })

/-- The source taken, when it or its epoch is not the one held. -/
def srcTake (addr : Bytes) (scope : Scope) (text : Bytes) (f : NetFam) : NetFam :=
  if f.srcEpoch ≠ f.epoch ∨ f.src ≠ addr then
    { f with src := addr, srcScope := scope, srcEpoch := f.epoch, srcText := text.take 63 }
  else f

/-- `netstate_on_src`. -/
def netstateOnSrc (isHost : Bool) (epoch : UInt32) (addr : Bytes) (scope : Scope) (text : Bytes)
    (now : UInt64) (f : NetFam) : NetFam :=
  if epoch ≠ f.epoch then f
  else if addr = [] ∨ srcUnusable addr = true then
    setRouted isHost false
      { f with srcTries := f.srcTries + 1, srcNextMs := now + srcGap (f.srcTries + 1) }
  else
    setRouted isHost true
      (srcTake (addr.take 16) scope text { f with srcTries := 0, srcNextMs := now + srcSlowMs })

/-- `netstate_on_probe_started`. -/
def netstateOnProbeStarted (epoch : UInt32) (now : UInt64) (f : NetFam) : NetFam :=
  if epoch ≠ f.epoch then f
  else
    let f1 :=
      { f with probeRunning := true, probeWanted := false, probeRounds := f.probeRounds + 1 }
    { f1 with probeNextMs := now + probeGap f1 }

/-- `netstate_on_probe_deferred`. -/
def netstateOnProbeDeferred (epoch : UInt32) (f : NetFam) : NetFam :=
  if epoch ≠ f.epoch then f else { f with probeWanted := true }

/-- `netstate_on_probe_done`. -/
def netstateOnProbeDone (epoch : UInt32) (now : UInt64) (f : NetFam) : NetFam :=
  if epoch ≠ f.epoch then f
  else if f.probeWanted = true then
    raiseAct { f with probeRunning := false, probeWanted := false, probeNextMs := now } nsaKickProbe
  else if now + probeGap f < f.probeNextMs then
    { f with probeRunning := false, probeNextMs := now + probeGap f }
  else { f with probeRunning := false }

/-- `netstate_on_servers`. -/
def netstateOnServers (epoch : UInt32) (now : UInt64) (f : NetFam) : NetFam :=
  if epoch ≠ f.epoch ∨ f.probeRunning = true then f
  else raiseAct { f with probeNextMs := now } nsaKickProbe

/-- `netstate_on_roundtrip`. -/
def netstateOnRoundtrip (epoch : UInt32) (f : NetFam) : NetFam :=
  if epoch ≠ f.epoch then f else syncConn { f with upEpoch := epoch }

/-! ## The rendezvous node -/

/-- Whether the node on trial gives way before the other one. -/
def candWeaker (c w : Cand) : Bool :=
  c.acks < w.acks || (c.acks == w.acks && w.firstMs < c.firstMs)

/-- The scan of `cand_ack` for the weakest node on trial, from entry `k` on. -/
def candWorst (cands : List Cand) : Nat → List Cand → Nat → Nat
  | _, [], worst => worst
  | k, c :: rest, worst =>
      candWorst cands (k + 1) rest
        (if (cands[worst]?).any (fun w => candWeaker c w) then k else worst)

/-- The answer counted for the entry. -/
def candCount (c : Cand) (now : UInt64) : Cand :=
  { c with seenMs := now, acks := if c.acks < anchorQualify then c.acks + 1 else c.acks }

/-- Whether the node on trial has answered often and long enough. -/
def candQualified (c : Cand) (now : UInt64) : Bool :=
  anchorQualify ≤ c.acks && anchorProveMs ≤ now - c.firstMs

/-- An entry for a node that has just begun to answer. -/
def candFresh (node : Bytes) (now : UInt64) : Cand :=
  { addr := node, acks := 0, firstMs := now, seenMs := 0 }

/-- `cand_ack`: the nodes on trial, and whether this one has earned its place. -/
def candAck (cands : List Cand) (node : Bytes) (now : UInt64) : List Cand × Bool :=
  match cands.findIdx? (fun c => c.addr == node) with
  | some k =>
      (cands.modify k fun c => candCount c now,
        (cands[k]?).any fun c => candQualified (candCount c now) now)
  | none =>
      let c := candCount (candFresh node now) now
      if cands.length < netstateCandsMax then (cands ++ [c], candQualified c now)
      else
        let worst := candWorst cands 1 cands.tail 0
        if (cands[worst]?).any (fun w => anchorQualify ≤ w.acks) then (cands, false)
        else (cands.set worst c, candQualified c now)

/-- `anchor_set`. -/
def anchorSet (node : Bytes) (now : UInt64) (candidate : Bool) (acks : Nat) (f : NetFam) :
    NetFam :=
  if node = [] ∨ netstateSaMax < node.length then f
  else if f.anchor = node then f
  else
    raiseAct { f with
      anchor := node
      anchorConfirmed := false
      anchorVouched := false
      anchorCandidate := candidate
      anchorAcks := acks
      anchorSetMs := now
      anchorFirstMs := if acks ≠ 0 then now else 0
      anchorQuiet := 0 } (nsaRdvPin ||| nsaEmitRdv)

/-- `anchor_confirm`. -/
def anchorConfirm (isHost : Bool) (now : UInt64) (f : NetFam) : NetFam :=
  if f.anchor = [] ∨ f.anchorConfirmed = true then f
  else if f.anchorAcks < anchorQualify ∨ now - f.anchorFirstMs < anchorProveMs then f
  else
    factsMoved isHost
      (raiseAct { f with anchorConfirmed := true, anchorCandidate := false } nsaEmitRdv)

/-- The answer of the node held, counted: its silence ends, and its run begins with the
first. -/
def anchorCount (now : UInt64) (f : NetFam) : NetFam :=
  { f with
    anchorQuiet := 0
    anchorFirstMs := if f.anchorAcks = 0 then now else f.anchorFirstMs
    anchorAcks := if f.anchorAcks < anchorQualify then f.anchorAcks + 1 else f.anchorAcks }

/-- The node that has earned its place beside an anchor that has not is taken, in
`netstate_on_dht_ack`. -/
def anchorTake (isHost : Bool) (node : Bytes) (now : UInt64) (f : NetFam) : NetFam :=
  factsMoved isHost (raiseAct
    { anchorSet node now false anchorQualify f with anchorConfirmed := true, cands := [] }
    nsaEmitRdv)

/-- `!anchor_confirmed && cand_ack(...)`: the nodes on trial, and whether this one has
earned its place. -/
def candTrial (node : Bytes) (now : UInt64) (f : NetFam) : List Cand × Bool :=
  if f.anchorConfirmed = true then (f.cands, false) else candAck f.cands node now

/-- `netstate_on_dht_ack` for a node that is not the anchor. -/
def dhtAckOther (isHost : Bool) (node : Bytes) (now : UInt64) (f : NetFam) : NetFam :=
  if f.picking = false then f
  else
    let f1 := { f with cands := (candTrial node now f).1 }
    if (candTrial node now f).2 = true then anchorTake isHost node now f1
    else if f1.anchor ≠ [] ∧ f1.anchorQuiet < anchorGone then f1
    else anchorSet node now true 1 f1

/-- The part of `netstate_on_dht_ack` that proves the family. -/
def dhtAckUp (isHost : Bool) (epoch : UInt32) (f : NetFam) : NetFam :=
  let f1 := syncConn { f with upEpoch := epoch }
  if f1.dhtAcked = false then factsMoved isHost { f1 with dhtAcked := true } else f1

/-- The part of `netstate_on_dht_ack` about the node that answered. -/
def dhtAckNode (isHost : Bool) (node : Bytes) (now : UInt64) (f : NetFam) : NetFam :=
  let f1 := { f with anchorNextMs := now + netstateRdvMs }
  if f1.anchor = node then anchorConfirm isHost now (anchorCount now f1)
  else dhtAckOther isHost node now f1

/-- `netstate_on_dht_ack`. -/
def netstateOnDhtAck (isHost : Bool) (epoch : UInt32) (node : Bytes) (now : UInt64)
    (f : NetFam) : NetFam :=
  if epoch ≠ f.epoch then f
  else
    let f1 := dhtAckUp isHost epoch f
    if node = [] ∨ netstateSaMax < node.length then f1 else dhtAckNode isHost node now f1

/-- `netstate_on_anchor_seen`. -/
def netstateOnAnchorSeen (now : UInt64) (f : NetFam) : NetFam :=
  if f.anchor = [] then f else anchorCount now f

/-- `netstate_on_rdv_offered`. -/
def netstateOnRdvOffered (node : Bytes) (now : UInt64) (f : NetFam) : NetFam :=
  anchorSet node now false 0 f

/-- `netstate_on_rdv_vouched`. -/
def netstateOnRdvVouched (isHost : Bool) (node : Bytes) (now : UInt64) (f : NetFam) : NetFam :=
  let f1 := anchorSet node now false 0 f
  if f1.anchor = [] ∨ f1.anchorVouched = true then f1
  else
    factsMoved isHost
      (raiseAct { f1 with anchorVouched := true, anchorCandidate := false } nsaEmitRdv)

/-- `netstate_set_picking`. -/
def netstateSetPicking (on : Bool) (f : NetFam) : NetFam :=
  if f.picking = on then f
  else { f with picking := on, cands := if on = false then [] else f.cands }

/-- `netstate_on_reflexive`. -/
def netstateOnReflexive (i : Fam) (epoch : UInt32) (addr : Bytes) (f : NetFam) : NetFam :=
  if epoch ≠ f.epoch ∨ addr.length ≠ addrLen i then f
  else
    match localIdx f addr with
    | some k =>
        if (f.locals[k]?).all (fun l => l.proven || l.scope == .lan) then f
        else
          raiseAct { f with locals := f.locals.modify k fun l => { l with proven := true } }
            nsaEmitRows
    | none =>
        match xlatNote f addr with
        | none => f
        | some f' => raiseAct f' nsaEmitRows

/-- `netstate_on_dht_concluded`. -/
def netstateOnDhtConcluded (isHost concluded : Bool) (f : NetFam) : NetFam :=
  if f.concluded = concluded then f else factsMoved isHost { f with concluded := concluded }

/-! ## The tick -/

/-- `cand_drop`. -/
def candDrop (isHost : Bool) (f : NetFam) : NetFam :=
  factsMoved isHost (raiseAct
    { f with
      anchor := []
      anchorCandidate := false
      anchorConfirmed := false
      anchorAcks := 0
      anchorFirstMs := 0
      anchorQuiet := 0 } (nsaEmitRdv ||| nsaRdvDrop))

/-- The source sampled, when it is due. -/
def tickSrc (now : UInt64) (f : NetFam) : NetFam :=
  if f.srcNextMs ≤ now then
    raiseAct { f with srcNextMs := now + srcGap f.srcTries } nsaSampleSrc
  else f

/-- The probe kicked, when it is due. -/
def tickProbe (now : UInt64) (f : NetFam) : NetFam :=
  if f.hasAddr = true ∧ f.probeRunning = false ∧ f.probeNextMs ≤ now then
    raiseAct { f with probeNextMs := now + probeGap f } nsaKickProbe
  else f

/-- A round the node held left unanswered. -/
def tickQuiet (isHost : Bool) (f : NetFam) : NetFam :=
  let f1 := { f with anchorQuiet := f.anchorQuiet + 1 }
  if anchorQuietMax ≤ f1.anchorQuiet then
    if f1.anchorCandidate = true then candDrop isHost f1 else raiseAct f1 nsaRdvRelocate
  else f1

/-- The round of the node held, when one is due: its silence is counted while the family
is up. -/
def tickRound (isHost : Bool) (now : UInt64) (f : NetFam) : NetFam :=
  if f.anchor ≠ [] ∧ f.anchorNextMs ≤ now then
    let f1 := { f with anchorNextMs := now + netstateRdvMs }
    if f1.conn = .up then tickQuiet isHost f1 else f1
  else f

/-- The trial ceiling. -/
def tickCeiling (isHost : Bool) (now : UInt64) (f : NetFam) : NetFam :=
  if f.anchor ≠ [] ∧ f.anchorCandidate = true ∧ anchorTryMs ≤ now - f.anchorSetMs then
    candDrop isHost f
  else f

/-- One turn of the loop of `netstate_tick`. -/
def netstateTick (isHost : Bool) (now : UInt64) (f : NetFam) : NetFam :=
  tickCeiling isHost now
    (anchorConfirm isHost now (tickRound isHost now (tickProbe now (tickSrc now f))))

/-! ## The whole model -/

/-- `struct netstate`. -/
structure NetState where
  isHost : Bool
  f : Fam → NetFam

/-- `netstate_init`. -/
def netstateInit (isHost : Bool) (now : UInt64) : NetState where
  isHost := isHost
  f := fun _ => famInit isHost now

/-- A call into the model. -/
inductive NetIn where
  | netmon (changed : UInt32) (addrs : List NetmonAddr) (now : UInt64)
  | src (family : Fam) (epoch : UInt32) (addr : Bytes) (scope : Scope) (text : Bytes)
      (now : UInt64)
  | probeStarted (family : Fam) (epoch : UInt32) (now : UInt64)
  | probeDeferred (family : Fam) (epoch : UInt32)
  | probeDone (family : Fam) (epoch : UInt32) (now : UInt64)
  | servers (family : Fam) (epoch : UInt32) (now : UInt64)
  | roundtrip (family : Fam) (epoch : UInt32)
  | dhtAck (family : Fam) (epoch : UInt32) (node : Bytes) (now : UInt64)
  | anchorSeen (family : Fam) (now : UInt64)
  | rdvOffered (family : Fam) (node : Bytes) (now : UInt64)
  | rdvVouched (family : Fam) (node : Bytes) (now : UInt64)
  | setPicking (family : Fam) (on : Bool)
  | reflexive (family : Fam) (epoch : UInt32) (addr : Bytes)
  | dhtConcluded (family : Fam) (concluded : Bool)
  | tick (now : UInt64)
  | resync
  | takeActions
  deriving DecidableEq

/-- What a call addressed to one family does to family `i`. -/
def addressed (family i : Fam) (g : NetFam → NetFam) (f : NetFam) : NetFam :=
  if family = i then g f else f

/-- One call, as family `i` sees it. -/
def famStep (isHost : Bool) (i : Fam) (f : NetFam) : NetIn → NetFam
  | .netmon changed addrs now => netstateOnNetmon isHost i changed addrs now f
  | .src family epoch addr scope text now =>
      addressed family i (netstateOnSrc isHost epoch addr scope text now) f
  | .probeStarted family epoch now => addressed family i (netstateOnProbeStarted epoch now) f
  | .probeDeferred family epoch => addressed family i (netstateOnProbeDeferred epoch) f
  | .probeDone family epoch now => addressed family i (netstateOnProbeDone epoch now) f
  | .servers family epoch now => addressed family i (netstateOnServers epoch now) f
  | .roundtrip family epoch => addressed family i (netstateOnRoundtrip epoch) f
  | .dhtAck family epoch node now =>
      addressed family i (netstateOnDhtAck isHost epoch node now) f
  | .anchorSeen family now => addressed family i (netstateOnAnchorSeen now) f
  | .rdvOffered family node now => addressed family i (netstateOnRdvOffered node now) f
  | .rdvVouched family node now => addressed family i (netstateOnRdvVouched isHost node now) f
  | .setPicking family on => addressed family i (netstateSetPicking on) f
  | .reflexive family epoch addr => addressed family i (netstateOnReflexive family epoch addr) f
  | .dhtConcluded family concluded =>
      addressed family i (netstateOnDhtConcluded isHost concluded) f
  | .tick now => netstateTick isHost now f
  -- `netstate_resync` and `netstate_take_actions`
  | .resync => raiseAct f (nsaEmitRows ||| nsaEmitConn ||| nsaEmitRdv)
  | .takeActions => { f with pend := 0 }

/-- One call. -/
def netstateStep (ns : NetState) (e : NetIn) : NetState :=
  { ns with f := fun i => famStep ns.isHost i (ns.f i) e }

/-- A run of the model is a run of each family by itself. -/
theorem run_netstateStep (ns : NetState) (es : List NetIn) :
    (run netstateStep ns es).isHost = ns.isHost ∧
      ∀ i, (run netstateStep ns es).f i = run (famStep ns.isHost i) (ns.f i) es := by
  induction es generalizing ns with
  | nil => exact ⟨rfl, fun _ => rfl⟩
  | cons e es ih =>
      obtain ⟨hhost, hfam⟩ := ih (netstateStep ns e)
      exact ⟨hhost, hfam⟩

theorem addressed_self (i : Fam) (g : NetFam → NetFam) (f : NetFam) : addressed i i g f = g f :=
  if_pos rfl

/-- What a call keeps of the family it is addressed to, it keeps of any. -/
theorem addressed_keeps {α : Type} {view : NetFam → α} {family i : Fam} {g : NetFam → NetFam}
    {f : NetFam} (h : view (g f) = view f) : view (addressed family i g f) = view f := by
  unfold addressed
  split
  · exact h
  · rfl

/-- `struct tokgen_facts`. -/
structure TokgenFacts where
  hasUsableAddr : Bool
  hasDefaultRoute : Bool
  dhtAcked : Bool
  dhtAttemptConcluded : Bool
  publicPortProven : Bool
  deriving DecidableEq

/-- `netstate_facts`. -/
def netstateFacts (f : NetFam) : TokgenFacts where
  hasUsableAddr := f.hasAddr
  hasDefaultRoute := f.routed
  dhtAcked := (f.anchorConfirmed && f.conn == .up) || f.anchorVouched
  dhtAttemptConcluded := f.concluded
  publicPortProven := false

end Netstate
end Comrade
