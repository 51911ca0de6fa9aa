import Comrade.Bep44.Server

/-!
# A lookup

The asking half of `bep44.c`: an operation keeps a list of nodes sorted by their
distance to the target, asks the closest ones, merges the nodes they name into the
list, and may store a value on those that handed out a token.

A request names its node by the place in the list, which moves when a node is put in
before it.  `sentTo` notes beside each request which node its query went to; the source
keeps no such note, and nothing here reads it.
-/

namespace Comrade
namespace Bep44

open Lib Bencode

/-! ## Addresses -/

/-- A socket address as `addr_eq` reads it; `other` is one cut short or of a family
that no node has. -/
inductive NodeAddr where
  | inet (addr : Vector UInt8 4) (port : UInt16)
  | inet6 (addr : Vector UInt8 16) (port : UInt16) (scope : UInt32)
  | other
  deriving DecidableEq

/-- `addr_eq`. -/
def addrEq : NodeAddr → NodeAddr → Bool
  | .inet a port, .inet b port' => port == port' && a == b
  | .inet6 a port scope, .inet6 b port' scope' => port == port' && scope == scope' && a == b
  | _, _ => false

/-- Is the address of the second family? -/
def NodeAddr.isV6 : NodeAddr → Bool
  | .inet6 _ _ _ => true
  | _ => false

/-- `node_addr_usable`. -/
def nodeAddrUsable : NodeAddr → Bool
  | .inet a port => port != 0 && a != Vector.replicate 4 0
  | .inet6 a port _ => port != 0 && a != Vector.replicate 16 0
  | .other => false

/-! ## The operation -/

/-- `B44_NODES_MAX`. -/
def b44NodesMax : Nat := 192

/-- `B44_ALPHA_V4`. -/
def b44AlphaV4 : Nat := 16

/-- `B44_ALPHA_V6`. -/
def b44AlphaV6 : Nat := 32

/-- `B44_REQS_MAX`. -/
def b44ReqsMax : Nat := b44AlphaV4 + b44AlphaV6

/-- `B44_K`. -/
def b44K : Nat := 8

/-- `B44_REQ_TIMEOUT_MS`. -/
def b44ReqTimeoutMs : Nat := 1000

/-- `B44_OP_TIMEOUT_MS`. -/
def b44OpTimeoutMs : Nat := 30000

/-- `B44_TOKEN_MAX`. -/
def b44TokenMax : Nat := 40

/-- `B44_NODE_BURST`. -/
def b44NodeBurst : Nat := 4

/-- `B44_NODE_COST_MS`. -/
def b44NodeCostMs : Nat := 2 * 1000 / 5

/-- `enum b44_node_state`. -/
inductive NodeState where
  | fresh
  | inflight
  | replied
  | failed
  | storeInflight
  | stored
  deriving DecidableEq, Repr

/-- Is the node being waited for? -/
def NodeState.busy (st : NodeState) : Bool := st == .inflight || st == .storeInflight

/-- `enum b44_phase`. -/
inductive B44Phase where
  | lookup
  | store
  deriving DecidableEq, Repr

/-- `struct b44_node`; `seq` is `none` while `have_seq` is not set. -/
structure B44Node where
  id : Id20
  dist : Id20
  ss : NodeAddr
  state : NodeState
  token : Bytes
  seq : Option Int
  deriving DecidableEq

/-- Which node it is, whatever it has answered. -/
def B44Node.who (n : B44Node) : Id20 × Id20 × NodeAddr := (n.id, n.dist, n.ss)

/-- `struct b44_req`; `node` is 8 bits wide. -/
structure B44Req where
  inUse : Bool
  node : Nat
  tid : UInt16
  sentMs : Nat
  sentTo : Option (Id20 × Id20 × NodeAddr)

/-- The place of a request. -/
abbrev ReqSlot := Fin b44ReqsMax

/-- `struct b44_seed`, with what a lookup reads and writes of it. -/
structure B44Seed where
  id : Option Id20
  ss : NodeAddr
  tatMs : Nat
  lastOkMs : Nat

/-- The parts of the engine that a lookup uses; `retained` lists the entries in use. -/
structure Asker where
  myid : Id20
  tidSeq : UInt16
  pinned : List B44Seed
  retained : List B44Seed

/-- `struct b44_op`, with the engine it belongs to; `value`, `best` and the salt stand
for their buffers up to their lengths, `nodes` for the array up to `nnodes`, and `done`
for an operation that was finished and freed. -/
structure B44Op where
  e : Asker
  isPut : Bool
  isImmutable : Bool
  isUpdate : Bool
  storeDeferred : Bool
  direct : Bool
  phase : B44Phase
  target : Id20
  pk : Bytes
  salt : Bytes
  value : Bytes
  seq : Int
  cas : Int
  best : Bytes
  bestSeq : Int
  haveBest : Bool
  bestNode4 : Option NodeAddr
  bestNode6 : Option NodeAddr
  nodes : List B44Node
  reqs : ReqSlot → B44Req
  startMs : Nat
  stored : Nat
  done : Bool

/-- What an operation meets outside: the clock, the sockets, its key, and the caller's
merge. -/
structure LookupEnv where
  now : Nat
  msgSend : NodeAddr → Bytes → Bool
  sign : Bytes → Option Bytes
  merge : Option Bytes → Int → Option Bytes

/-! ## The node list -/

/-- The distance a node is ranked at. -/
def nodeDist (target : Id20) (id : Option Id20) (pinned : Bool) : Id20 :=
  match id with
  | some id => distCalc id target
  | none => if pinned = true then Vector.replicate 20 0 else Vector.replicate 20 0xff

/-- A node just put in. -/
def nodeNew (id : Option Id20) (dist : Id20) (ss : NodeAddr) : B44Node where
  id := id.getD (Vector.replicate 20 0)
  dist := dist
  ss := ss
  state := .fresh
  token := []
  seq := none

/-- Does the list have the node, by its address or its id? -/
def nodeKnown (nodes : List B44Node) (id : Option Id20) (ss : NodeAddr) : Bool :=
  nodes.any fun n => addrEq ss n.ss || id == some n.id

/-- A request in use moves on with the nodes at and after `pos`. -/
def reqShift (pos : Nat) (r : B44Req) : B44Req :=
  if r.inUse = true ∧ pos ≤ r.node then { r with node := (r.node + 1) % 2 ^ 8 } else r

/-- `node_insert`; whether the node was put in. -/
def nodeInsert (op : B44Op) (id : Option Id20) (ss : NodeAddr) (pinned : Bool) : B44Op × Bool :=
  let dist := nodeDist op.target id pinned
  if nodeKnown op.nodes id ss = true then (op, false)
  else
    let pos := op.nodes.findIdx fun n => decide (idCmp dist n.dist < 0)
    if pos ≥ b44NodesMax then (op, false)
    else if op.nodes.length ≥ b44NodesMax ∧
        (op.nodes[b44NodesMax - 1]?.any fun n => n.state.busy) = true then (op, false)
    else
      let nodes := if op.nodes.length ≥ b44NodesMax then op.nodes.take (b44NodesMax - 1)
        else op.nodes
      ({ op with
         nodes := nodes.insertIdx pos (nodeNew id dist ss)
         reqs := fun r => reqShift pos (op.reqs r) }, true)

/-- The first `n` bytes as an array. -/
def bytesVec (n : Nat) (p : Bytes) : Vector UInt8 n := Vector.ofFn fun i => p.getD i 0

/-- Two bytes in network order. -/
def portOf (p : Bytes) : UInt16 := (p.getD 0 0).toUInt16 <<< 8 ||| (p.getD 1 0).toUInt16

/-- The length of an entry of a compact node list. -/
def compactEntry : Family → Nat
  | .inet => 26
  | .inet6 => 38

/-- The address in an entry of a compact node list. -/
def compactSs (af : Family) (p : Bytes) : NodeAddr :=
  match af with
  | .inet => .inet (bytesVec 4 (p.drop 20)) (portOf (p.drop 24))
  | .inet6 => .inet6 (bytesVec 16 (p.drop 20)) (portOf (p.drop 36)) 0

/-- `nodes_compact_add`, less the referral cache it also fills. -/
def nodesCompactAdd (op : B44Op) (data : Bytes) (af : Family) : B44Op :=
  (List.range (data.length / compactEntry af)).foldl (fun op i =>
    let p := data.drop (i * compactEntry af)
    (nodeInsert op (some (bytesVec 20 p)) (compactSs af p) false).1) op

/-! ## Asking and storing -/

/-- The list with one node changed. -/
def B44Op.setNode (op : B44Op) (i : Nat) (f : B44Node → B44Node) : B44Op :=
  { op with nodes := op.nodes.modify i f }

/-- A node's state set. -/
def B44Op.setState (op : B44Op) (i : Nat) (st : NodeState) : B44Op :=
  op.setNode i fun n => { n with state := st }

/-- A request given back. -/
def B44Op.freeReq (op : B44Op) (r : ReqSlot) : B44Op :=
  { op with reqs := Function.update op.reqs r { op.reqs r with inUse := false } }

/-- `req_alloc`. -/
def reqAlloc (op : B44Op) (node now : Nat) : Option (B44Op × ReqSlot) :=
  (firstSlot op.reqs fun r => !r.inUse).map fun i =>
    ({ op with
       e := { op.e with tidSeq := op.e.tidSeq + 1 }
       reqs := Function.update op.reqs i
         { inUse := true, node := node % 2 ^ 8, tid := op.e.tidSeq, sentMs := now,
           sentTo := op.nodes[node]?.map B44Node.who } }, i)

/-- `tid_bytes`. -/
def tidBytes (tid : UInt16) : Bytes := ascii ['p', 'm'] ++ [tid.toUInt8, (tid >>> 8).toUInt8]

/-- The end of every query. -/
def queryEnd (b : BencBuf) (method : List Char) (tid : UInt16) : BencBuf :=
  let b := bencRawAdd b (ascii (['e', '1', ':', 'q', '3', ':'] ++ method ++ ['1', ':', 't']))
  let b := bencStrAdd b (tidBytes tid)
  bencRawAdd b (ascii ['1', ':', 'y', '1', ':', 'q', 'e'])

/-- The query `get_send` builds. -/
def getMsg (op : B44Op) (tid : UInt16) : Option Bytes :=
  let b := bencRawAdd (bencBufInit b44MsgMax) (ascii ['d', '1', ':', 'a', 'd'])
  let b := bencField b (ascii ['i', 'd']) (some op.e.myid.toList)
  let b := bencField b (ascii ['t', 'a', 'r', 'g', 'e', 't']) (some op.target.toList)
  let b := bencKeyAdd b (ascii ['w', 'a', 'n', 't'])
  let b := bencRawAdd b (ascii ['l', '2', ':', 'n', '4', '2', ':', 'n', '6', 'e'])
  BencBuf.sent (queryEnd b ['g', 'e', 't'] tid)

/-- `node_cas`. -/
def nodeCas (n : B44Node) (opCas : Int) : Int := n.seq.getD opCas

/-- The query `put_send` builds for a node, where the item can be signed and it fits. -/
def putMsg (op : B44Op) (n : B44Node) (tid : UInt16) (sign : Bytes → Option Bytes) :
    Option Bytes :=
  let b := bencRawAdd (bencBufInit b44MsgMax) (ascii ['d', '1', ':', 'a', 'd'])
  if op.isImmutable = true then
    let b := bencField b (ascii ['i', 'd']) (some op.e.myid.toList)
    let b := bencField b (ascii ['t', 'o', 'k', 'e', 'n']) (some n.token)
    let b := bencRawAdd (bencKeyAdd b (ascii ['v'])) op.value
    BencBuf.sent (queryEnd b ['p', 'u', 't'] tid)
  else
    match (sigBufferN (bep44MaxValue + 128) op.salt op.seq op.value).bind sign with
    | none => none
    | some sig =>
        let cas := nodeCas n op.cas
        let b := if cas ≥ 0 then bencIntAdd (bencKeyAdd b (ascii ['c', 'a', 's'])) cas else b
        let b := bencField b (ascii ['i', 'd']) (some op.e.myid.toList)
        let b := bencField b (ascii ['k']) (some op.pk)
        let b := bencField b (ascii ['s', 'a', 'l', 't'])
          (if op.salt = [] then none else some op.salt)
        let b := bencIntAdd (bencKeyAdd b (ascii ['s', 'e', 'q'])) op.seq
        let b := bencField b (ascii ['s', 'i', 'g']) (some sig)
        let b := bencField b (ascii ['t', 'o', 'k', 'e', 'n']) (some n.token)
        let b := bencRawAdd (bencKeyAdd b (ascii ['v'])) op.value
        BencBuf.sent (queryEnd b ['p', 'u', 't'] tid)

/-- What `get_send` and `put_send` share: a request is taken, the query built and sent,
and the node waited for; `false` where they return -1. -/
def querySend (op : B44Op) (node : Nat) (st : NodeState) (env : LookupEnv)
    (msg : B44Op → B44Node → UInt16 → Option Bytes) : B44Op × Bool :=
  match op.nodes[node]? with
  | none => (op, false)
  | some n =>
      match reqAlloc op node env.now with
      | none => (op, false)
      | some (op', r) =>
          match msg op' n (op'.reqs r).tid with
          | none => (op'.freeReq r, false)
          | some m =>
              if env.msgSend n.ss m = true then (op'.setState node st, true)
              else ((op'.freeReq r).setState node .failed, true)

/-- `get_send`. -/
def getSend (op : B44Op) (node : Nat) (env : LookupEnv) : B44Op × Bool :=
  querySend op node (if op.phase = .store then .storeInflight else .inflight) env
    fun op _ tid => getMsg op tid

/-- `put_send`. -/
def putSend (op : B44Op) (node : Nat) (env : LookupEnv) : B44Op × Bool :=
  querySend op node .storeInflight env fun op n tid => putMsg op n tid env.sign

/-- The bucket of a seed after a query, or `none` where the budget holds it back. -/
def bucketTake (now : Nat) (s : B44Seed) : B44Seed × Bool :=
  let tat := max s.tatMs now
  if tat - now > b44NodeBurst * b44NodeCostMs then ({ s with tatMs := tat }, false)
  else ({ s with tatMs := tat + b44NodeCostMs }, true)

/-- `node_budget_ok`: the first seed of that address is asked for its bucket, pinned
before retained. -/
def nodeBudgetOk (e : Asker) (ss : NodeAddr) (now : Nat) : Asker × Bool :=
  match e.pinned.findIdx? fun s => addrEq ss s.ss with
  | some i =>
      match e.pinned[i]? with
      | none => (e, true)
      | some s => ({ e with pinned := e.pinned.set i (bucketTake now s).1 }, (bucketTake now s).2)
  | none =>
      match e.retained.findIdx? fun s => addrEq ss s.ss with
      | none => (e, true)
      | some i =>
          match e.retained[i]? with
          | none => (e, true)
          | some s =>
              ({ e with retained := e.retained.set i (bucketTake now s).1 }, (bucketTake now s).2)

/-- `op_finish`, as far as the operation itself goes. -/
def opFinish (op : B44Op) : B44Op := { op with done := true }

/-- What the loop of `store_start` counts; `stop` is its `break`. -/
structure StoreScan where
  op : B44Op
  sent : Nat
  s4 : Nat
  s6 : Nat
  stop : Bool

/-- How many puts went to one family. -/
def StoreScan.family (s : StoreScan) (v6 : Bool) : Nat := if v6 = true then s.s6 else s.s4

/-- One more put, by the family of its node. -/
def StoreScan.more (s : StoreScan) (v6 : Bool) : StoreScan :=
  { s with
    sent := s.sent + 1
    s4 := if v6 = true then s.s4 else s.s4 + 1
    s6 := if v6 = true then s.s6 + 1 else s.s6 }

/-- A node that is to be stored on, where its budget allows it. -/
def storePut (env : LookupEnv) (s : StoreScan) (i : Nat) (n : B44Node) : StoreScan :=
  let budget := nodeBudgetOk s.op.e n.ss env.now
  let op := { s.op with e := budget.1 }
  if budget.2 = false then { s with op := { op with storeDeferred := true } }
  else
    let put := putSend op i env
    if put.2 = false then { s with op := put.1, stop := true }
    else { s with op := put.1 }.more n.ss.isV6

/-- One node in the loop of `store_start`. -/
def storeStep (env : LookupEnv) (s : StoreScan) (i : Nat) : StoreScan :=
  match s.op.nodes[i]? with
  | none => s
  | some n =>
      if s.stop = true ∨ n.state ≠ .replied ∨ n.token = [] then s
      else if s.family n.ss.isV6 ≥ b44K then s
      else storePut env s i n

/-- `store_start`: the operation, and how many puts went out. -/
def storeStart (op : B44Op) (env : LookupEnv) : B44Op × Nat :=
  let s := (List.range op.nodes.length).foldl (storeStep env)
    { op := { op with phase := .store, storeDeferred := false }, sent := 0, s4 := 0, s6 := 0,
      stop := false }
  (s.op, s.sent)

/-- A store is begun, and the operation ends where there is nothing to wait for. -/
def storeOrFinish (op : B44Op) (env : LookupEnv) : B44Op :=
  let r := storeStart op env
  if r.2 = 0 ∧ r.1.storeDeferred = false then opFinish r.1 else r.1

/-- `next_seq`. -/
def nextSeq (haveBest : Bool) (best : Int) : Int :=
  if haveBest = false then 1 else if best ≥ int64Max then -1 else best + 1

/-- `store_seq`. -/
def storeSeq (haveBest : Bool) (best : Int) (cur nv : Bytes) : Int :=
  let next := nextSeq haveBest best
  if next < 0 then -1 else if haveBest = true ∧ nv = cur then best else next

/-- `update_store`. -/
def updateStore (op : B44Op) (env : LookupEnv) : B44Op :=
  match env.merge (if op.haveBest = true then some op.best else none)
      (if op.haveBest = true then op.bestSeq else -1) with
  | none => opFinish op
  | some nv =>
      if nv = [] ∨ nv.length > bep44MaxValue then opFinish op
      else
        let next := storeSeq op.haveBest op.bestSeq op.best nv
        if next < 0 then opFinish op
        else
          storeOrFinish
            { op with
              value := nv
              seq := next
              cas := if op.haveBest = true then op.bestSeq else -1
              isPut := true } env

/-! ## A step -/

/-- What the loops of `op_step` count; `stop` is the `break` of the second. -/
structure StepScan where
  op : B44Op
  inflight : Nat
  if4 : Nat
  if6 : Nat
  deferred : Nat
  answered : Nat
  stop : Bool

/-- One more request in flight, by the family of its node. -/
def StepScan.more (s : StepScan) (v6 : Bool) : StepScan :=
  { s with
    inflight := s.inflight + 1
    if4 := if v6 = true then s.if4 else s.if4 + 1
    if6 := if v6 = true then s.if6 + 1 else s.if6 }

/-- Has a family as many requests in flight as it may? -/
def StepScan.full (s : StepScan) (v6 : Bool) : Bool :=
  if v6 = true then decide (s.if6 ≥ b44AlphaV6) else decide (s.if4 ≥ b44AlphaV4)

/-- A node that has answered counts. -/
def StepScan.answer (s : StepScan) (st : NodeState) : StepScan :=
  if st = .replied ∨ st = .stored then { s with answered := s.answered + 1 } else s

/-- One request in the first loop: it has timed out, or is still waited for. -/
def reqStep (now : Nat) (s : StepScan) (r : ReqSlot) : StepScan :=
  let req := s.op.reqs r
  if req.inUse = false then s
  else if now - req.sentMs > b44ReqTimeoutMs then
    { s with op := (s.op.setState req.node .failed).freeReq r }
  else s.more (s.op.nodes[req.node]?.any fun n => n.ss.isV6)

/-- A fresh node is asked, where its budget allows it. -/
def askNode (env : LookupEnv) (s : StepScan) (i : Nat) (n : B44Node) : StepScan :=
  let budget := nodeBudgetOk s.op.e n.ss env.now
  let op := { s.op with e := budget.1 }
  if budget.2 = false then { s with op := op, deferred := s.deferred + 1 }
  else
    let get := getSend op i env
    if get.2 = false then { s with op := get.1, stop := true }
    else { s with op := get.1 }.more n.ss.isV6

/-- One node in the second loop. -/
def askStep (env : LookupEnv) (s : StepScan) (i : Nat) : StepScan :=
  match s.op.nodes[i]? with
  | none => s
  | some n =>
      if s.stop = true then s
      else if n.state ≠ .fresh ∨ s.full n.ss.isV6 = true then s.answer n.state
      else askNode env s i n

/-- `op_step`. -/
def opStep (op : B44Op) (env : LookupEnv) : B44Op :=
  if env.now - op.startMs > b44OpTimeoutMs then opFinish op
  else
    let s := (List.finRange b44ReqsMax).foldl (reqStep env.now)
      { op := op, inflight := 0, if4 := 0, if6 := 0, deferred := 0, answered := 0, stop := false }
    match op.phase with
    | .lookup =>
        let s := (List.range s.op.nodes.length).foldl (askStep env) s
        if s.inflight ≠ 0 ∨ (s.deferred ≠ 0 ∧ s.answered = 0) then s.op
        else if op.isUpdate = true then updateStore s.op env
        else if op.isPut = false then opFinish s.op
        else storeOrFinish s.op env
    | .store =>
        if s.inflight ≠ 0 then s.op
        else if s.op.storeDeferred = true then storeOrFinish s.op env
        else opFinish s.op

/-! ## A reply -/

/-- `record_best_node`. -/
def recordBestNode (op : B44Op) (src : Option NodeAddr) : B44Op :=
  match src with
  | none => op
  | some a =>
      if nodeAddrUsable a = false then op
      else if a.isV6 = true then { op with bestNode6 := op.bestNode6.or (some a) }
      else { op with bestNode4 := op.bestNode4.or (some a) }

/-- A value that takes over from the best so far. -/
def takeBest (op : B44Op) (v : Bytes) (seq : Int) (src : Option NodeAddr) : B44Op :=
  recordBestNode
    { op with best := v, bestSeq := seq, haveBest := true, bestNode4 := none, bestNode6 := none }
    src

/-- `value_check`, for the node in place `i`. -/
def valueCheck (C : Crypto) (op : B44Op) (i : Nat) (src : Option NodeAddr) (rdict : Bytes) :
    B44Op :=
  match bencDictFind rdict (ascii ['v']) with
  | none => op
  | some v =>
      if v.length > bep44MaxValue then op
      else if op.isImmutable = true then
        if C.sha1 v ≠ op.target then op
        else if op.haveBest = true then recordBestNode op src
        else takeBest op v (-1) src
      else
        match dictStr rdict (ascii ['k']), dictStr rdict (ascii ['s', 'i', 'g']),
            (bencDictFind rdict (ascii ['s', 'e', 'q'])).bind bencIntGet with
        | some k, some sig, some seq =>
            if k.length ≠ 32 ∨ k ≠ op.pk ∨ sig.length ≠ 64 ∨ seq < 0 then op
            else
              match sigBufferN (bep44MaxValue + 128) op.salt seq v with
              | none => op
              | some text =>
                  if C.ed25519Check sig op.pk text = false then op
                  else
                    -- an older copy is noted too: it is what a put must compare with
                    let op := op.setNode i fun n => { n with seq := some seq }
                    if op.haveBest = true ∧ seq ≤ op.bestSeq then recordBestNode op src
                    else takeBest op v seq src
        | _, _, _ => op

/-- `pin_learn_id`. -/
def pinLearnId (e : Asker) (src : Option NodeAddr) (rdict : Bytes) (now : Nat) : Asker :=
  match src, (dictStr rdict (ascii ['i', 'd'])).filter fun id => id.length == 20 with
  | some a, some id =>
      { e with
        pinned := e.pinned.map fun p =>
          if addrEq a p.ss = true then
            { p with lastOkMs := now, id := p.id.or (some (bytesVec 20 id)) }
          else p }
  | _, _ => e

/-- The nodes named under one key of a reply. -/
def mergeNodes (op : B44Op) (rdict key : Bytes) (af : Family) : B44Op :=
  if op.direct = true then op
  else
    match dictStr rdict key with
    | none => op
    | some data => nodesCompactAdd op data af

/-- The write token in a reply is kept with the node in place `i`. -/
def keepToken (op : B44Op) (i : Nat) (rdict : Bytes) : B44Op :=
  match dictStr rdict (ascii ['t', 'o', 'k', 'e', 'n']) with
  | none => op
  | some tok =>
      if tok.length ≤ b44TokenMax then op.setNode i fun n => { n with token := tok } else op

/-- What `reply_handle` makes of an answer to a lookup before it steps. -/
def replyTake (C : Crypto) (op : B44Op) (i : Nat) (buf : Bytes) (src : Option NodeAddr)
    (env : LookupEnv) : B44Op :=
  let op := op.setState i .replied
  match bencDictFind buf (ascii ['r']) with
  | none => op
  | some rdict =>
      let op := { op with e := pinLearnId op.e src rdict env.now }
      let op := keepToken op i rdict
      -- before the merge, which moves the nodes
      let op := if op.isPut = true then op else valueCheck C op i src rdict
      let op := mergeNodes op rdict (ascii ['n', 'o', 'd', 'e', 's']) .inet
      mergeNodes op rdict (ascii ['n', 'o', 'd', 'e', 's', '6']) .inet6

/-- `reply_handle`. -/
def replyHandle (C : Crypto) (op : B44Op) (r : ReqSlot) (buf : Bytes) (isError : Bool)
    (src : Option NodeAddr) (env : LookupEnv) : B44Op :=
  let i := (op.reqs r).node
  let storing := op.nodes[i]?.any fun n => n.state == .storeInflight
  let op := op.freeReq r
  if storing = true then
    if isError = true then opStep (op.setState i .failed) env
    else opStep { op.setState i .stored with stored := op.stored + 1 } env
  else if isError = true then opStep (op.setState i .failed) env
  else opStep (replyTake C op i buf src env) env

/-- `op_new`, before its seeds are put in. -/
def opNew (e : Asker) (target : Id20) (direct : Bool) (now : Nat) : B44Op where
  e := e
  isPut := false
  isImmutable := false
  isUpdate := false
  storeDeferred := false
  direct := direct
  phase := .lookup
  target := target
  pk := List.replicate 32 0
  salt := []
  value := []
  seq := 0
  cas := 0
  best := []
  bestSeq := 0
  haveBest := false
  bestNode4 := none
  bestNode6 := none
  nodes := []
  reqs := fun _ => { inUse := false, node := 0, tid := 0, sentMs := 0, sentTo := none }
  startMs := now
  stored := 0
  done := false

end Bep44
end Comrade
