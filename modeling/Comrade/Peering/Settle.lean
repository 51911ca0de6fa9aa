import Comrade.Netstate.Frame
import Comrade.Peering.FactsRun
import Comrade.Peering.Pool

/-!
# The rounds of the probe and the pass that settles them

`Peer` is the model with the probe threads of the two families (`peering.c`), the facts they
post and the pool they fill.  The loop kicks a round, which is deferred while the thread of
the last one is still running, and reaps a thread on the pass that takes its last fact.

* A thread stamps its round with the epoch of its `struct peering_probe` as it begins, which
  may be after the loop has moved that epoch on.
* What the source sample found and whether a thread could be made are picked by the
  environment of a pass.
* What a pass tells the signaller and the view is left out: neither writes the model.

`peeringSettle_deferred` says when the pass that reaps a thread kicks the round that was
deferred for it.
-/

namespace Comrade
namespace Peering

open Lib Netstate

/-! ## The model -/

/-- The thread of a family's round. -/
inductive Round where
  | none
  | created
  | asking (epoch : UInt32)
  | ended
  deriving DecidableEq

/-- `struct peering_probe`, with its thread. -/
structure Probe where
  th : Round
  running : Bool
  stop : Bool
  epoch : UInt32
  start : Int
  deriving DecidableEq

/-- `struct peering_net`, as far as the rounds and the pass read it. -/
structure PeeringNet where
  facts : Nsfacts
  pool : Pool
  probe : Fam → Probe
  nservers : Int
  autoProbe : Bool

/-- The model and the threads. -/
structure Peer where
  ns : NetState
  net : PeeringNet

def probeInit : Probe where
  th := .none
  running := false
  stop := false
  epoch := 0
  start := 0

/-- `peering_net_init`. -/
def peeringNetInit (nservers : Int) (autoProbe : Bool) : PeeringNet where
  facts := nsfactsInit
  pool := peeringPoolInit
  probe := fun _ => probeInit
  nservers := nservers
  autoProbe := autoProbe

def PeeringNet.setProbe (m : PeeringNet) (i : Fam) (p : Probe) : PeeringNet :=
  { m with probe := Function.update m.probe i p }

/-- The number of a family. -/
def famNum : Fam → Int
  | .v4 => 4
  | .v6 => 6

/-! ### The threads -/

/-- The beginning of `probe_round`. -/
def roundStart (m : PeeringNet) (i : Fam) : PeeringNet :=
  if (m.probe i).th = .created then
    let m1 := m.setProbe i { m.probe i with th := .asking (m.probe i).epoch }
    match i with
    | .v4 => { m1 with pool := peeringPoolRound m1.pool }
    | .v6 => m1
  else m

/-- `probe_hit` in the round of the family. -/
def probeHit (m : PeeringNet) (i : Fam) (addr : Vector UInt8 16) (port : UInt16) : PeeringNet :=
  match (m.probe i).th with
  | .asking epoch =>
      let m1 := { m with facts := nsfactsPost m.facts .roundtrip (famNum i) epoch }
      match i with
      | .v6 => { m1 with facts := nsfactsPostAddr m1.facts 6 epoch addr }
      | .v4 =>
          let addr4 : Addr4 := Vector.ofFn fun k => addr[k.val]
          { m1 with
            pool := peeringPoolSample (peeringPoolNote m1.pool addr4 epoch).2 addr4 port epoch }
  | _ => m

/-- The end of `probe_round`. -/
def roundEnd (m : PeeringNet) (i : Fam) : PeeringNet :=
  match (m.probe i).th with
  | .asking epoch =>
      { m.setProbe i { m.probe i with th := .ended } with
        facts := nsfactsPost m.facts .probeDone (famNum i) epoch }
  | _ => m

/-- `peering_net_more`. -/
def peeringNetMore (m : PeeringNet) (i : Fam) : PeeringNet :=
  { m with facts := nsfactsPost m.facts .servers (famNum i) (m.probe i).epoch }

/-! ### The loop -/

/-- `peering_net_reap`. -/
def peeringNetReap (m : PeeringNet) (i : Fam) : PeeringNet :=
  if (m.probe i).running = false then m
  else m.setProbe i { m.probe i with running := false, th := .none }

/-- `peering_net_kick`; `made` says whether the thread could be made. -/
def peeringNetKick (m : PeeringNet) (i : Fam) (epoch : UInt32) (start6 : Int) (made : Bool) :
    Int × PeeringNet :=
  let p := { m.probe i with epoch := epoch }
  if m.autoProbe = false ∨ m.nservers < 1 then (0, m.setProbe i p)
  else if p.running = true then (-1, m.setProbe i { p with stop := true })
  else
    let p1 := { p with start := start6, stop := false }
    if made = false then (0, m.setProbe i p1)
    else (1, m.setProbe i { p1 with running := true, th := .created })

/-- What the environment of a pass finds. -/
structure SettleEnv where
  srcAddr : Fam → Bytes
  srcScope : Fam → Scope
  srcText : Fam → Bytes
  made : Fam → Bool
  start6 : Int

/-- The call that `peering_facts_feed` makes of a fact. -/
def factIn (now : UInt64) (e : Nsfact) : NetIn :=
  match e.kind with
  | .roundtrip => .roundtrip (famIdx e.family) e.epoch
  | .servers => .servers (famIdx e.family) e.epoch now
  | .addr => .reflexive (famIdx e.family) e.epoch (famBytes e.family e.addr)
  | .probeDone => .probeDone (famIdx e.family) e.epoch now

/-- One turn of the loop of `peering_settle`. -/
def settleFact (now : UInt64) (s : Peer) (e : Nsfact) : Peer where
  ns := netstateStep s.ns (factIn now e)
  net := if e.kind = .probeDone then peeringNetReap s.net (famIdx e.family) else s.net

/-- `pool_tell`. -/
def poolTell (s : Peer) : Peer :=
  let e := (s.ns.f .v4).epoch
  { s with
    ns := (peeringPoolCopy s.net.pool e).foldl
      (fun ns a => netstateStep ns (.reflexive .v4 e a.toList)) s.ns }

/-- One turn of the loop of `apply`. -/
def applyFam (env : SettleEnv) (now : UInt64) (s : Peer) (i : Fam) (act epoch : UInt32) : Peer :=
  let s1 :=
    if act &&& nsaSampleSrc = 0 then s
    else
      { s with
        ns := netstateStep s.ns
          (.src i epoch (env.srcAddr i) (env.srcScope i) (env.srcText i) now) }
  if act &&& nsaKickProbe = 0 then s1
  else
    let (kick, net) := peeringNetKick s1.net i epoch env.start6 (env.made i)
    if 0 < kick then { ns := netstateStep s1.ns (.probeStarted i epoch now), net := net }
    else if kick < 0 then { ns := netstateStep s1.ns (.probeDeferred i epoch), net := net }
    else { s1 with net := net }

/-- `peering_settle` up to the actions taken. -/
def settleTold (now : UInt64) (s : Peer) : Peer :=
  let (out, facts) := nsfactsTake nsfactsOut s.net.facts
  let s1 := out.foldl (settleFact now) { s with net := { s.net with facts := facts } }
  let s2 := poolTell s1
  { s2 with ns := netstateStep s2.ns (.tick now) }

/-- `peering_settle`. -/
def peeringSettle (env : SettleEnv) (now : UInt64) (s : Peer) : Peer :=
  let told := settleTold now s
  let act := fun i => (told.ns.f i).pend
  let epoch := fun i => (told.ns.f i).epoch
  let s1 := { told with ns := netstateStep told.ns .takeActions }
  if act .v4 = 0 ∧ act .v6 = 0 then s1
  else applyFam env now (applyFam env now s1 .v4 (act .v4) (epoch .v4)) .v6 (act .v6) (epoch .v6)

/-- The calls into the model that a pass does not make. -/
def plainCall : NetIn → Bool
  | .netmon .. => false
  | .probeStarted .. => false
  | .probeDeferred .. => false
  | .probeDone .. => false
  | .servers .. => false
  | .tick .. => false
  | .takeActions => false
  | _ => true

/-- What happens to the model and the threads. -/
inductive SettleOp where
  /-- `peering_settle`. -/
  | settle (env : SettleEnv) (now : UInt64)
  /-- A snapshot of the network, with the families that moved. -/
  | watch (changed : UInt32) (addrs : List NetmonAddr) (now : UInt64)
  /-- Another call into the model. -/
  | call (e : NetIn)
  | roundStart (i : Fam)
  | hit (i : Fam) (addr : Vector UInt8 16) (port : UInt16)
  | roundEnd (i : Fam)
  | more (i : Fam)
  /-- The gather thread posts that something answered, and where this host was seen. -/
  | answered (family : Int) (epoch : UInt32)
  | seen (family : Int) (epoch : UInt32) (addr : Vector UInt8 16)
  /-- A call on the pool. -/
  | pool (op : PoolOp)

/-- One operation. -/
def settleStep (s : Peer) : SettleOp → Peer
  | .settle env now => peeringSettle env now s
  | .watch changed addrs now => { s with ns := netstateStep s.ns (.netmon changed addrs now) }
  | .call e => if plainCall e = true then { s with ns := netstateStep s.ns e } else s
  | .roundStart i => { s with net := roundStart s.net i }
  | .hit i addr port => { s with net := probeHit s.net i addr port }
  | .roundEnd i => { s with net := roundEnd s.net i }
  | .more i => { s with net := peeringNetMore s.net i }
  | .answered family epoch =>
      { s with net := { s.net with facts := nsfactsPost s.net.facts .roundtrip family epoch } }
  | .seen family epoch addr =>
      { s with net := { s.net with facts := nsfactsPostAddr s.net.facts family epoch addr } }
  | .pool op => { s with net := { s.net with pool := poolStep s.net.pool op } }

/-- The session as it begins. -/
def settleInit (isHost autoProbe : Bool) (nservers : Int) (now : UInt64) : Peer where
  ns := netstateInit isHost now
  net := peeringNetInit nservers autoProbe

end Peering
end Comrade
