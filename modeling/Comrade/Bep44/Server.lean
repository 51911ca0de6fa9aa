import Comrade.Bep44.Ban
import Comrade.Bep44.Store
import Comrade.Bencode.Find

/-!
# The storing node

How a node answers the `get` and `put` queries of others (`bep44.c`, incoming
queries).  A query is checked in full before the store is looked at; what is
then done to the store is one step after `store_expire`.  `B44Plan` keeps the
two apart: a query is answered from its checks alone, or it expires the store
and acts on it.

What the source takes from its surroundings at a call stands in `Env`: the
clock at each reading, and whether memory is to be had.
-/

namespace Comrade
namespace Bep44

open Lib Bencode

/-- `B44_TOKEN_LEN`. -/
def b44TokenLen : Nat := 8

/-- `B44_TID_MAX`. -/
def b44TidMax : Nat := 64

/-- `B44_TOKEN_ROTATE_MS`. -/
def b44TokenRotateMs : Nat := 5 * 60 * 1000

/-- `B44_CACHE_MAX`. -/
def b44CacheMax : Nat := 128

/-- `B44_REPLY_NODES`. -/
def b44ReplyNodes : Nat := 8

/-- `B44_CACHE_TTL_MS`. -/
def b44CacheTtlMs : Nat := 60 * 60 * 1000

/-- `B44_MSG_MAX`. -/
def b44MsgMax : Nat := 1400

/-- `struct b44_cnode`; `addr` is `none` for a free entry. -/
structure B44Cnode where
  id : Id20
  addr : Option Sockaddr
  seenMs : Nat

/-- The storing side of `struct bep44_engine`. -/
structure Engine (cap : Nat) where
  myid : Id20
  serving : Bool
  tokenSecret : Bytes × Bytes
  tokenRotateMs : Nat
  store : Store cap
  cache : Fin b44CacheMax → B44Cnode
  bans : BanList

/-- What a call takes from its surroundings: the clock as `ban_ok`, the handler
and `cache_nodes` read it, and whether `calloc` succeeds. -/
structure Env where
  banNow : Nat
  now : Nat
  cacheNow : Nat
  allocOk : Bool

/-! ## Replies -/

/-- A KRPC error, as `send_error` is called with. -/
structure B44Error where
  code : Nat
  msg : String
  deriving DecidableEq, Repr

/-- What a `get` is answered with. -/
structure GetReply where
  item : Option B44Item
  serveValue : Bool
  nodes : Bytes
  nodes6 : Bytes
  token : Bytes
  deriving DecidableEq

/-- What a query is answered with. -/
inductive B44Reply where
  | error (e : B44Error)
  | ack
  | got (r : GetReply)
  deriving DecidableEq

/-- The bytes written, unless they did not fit. -/
def BencBuf.sent (b : BencBuf) : Option Bytes := if b.err = true then none else some b.buf

/-- The end of every reply: the transaction id and the kind. -/
def replyEnd (b : BencBuf) (tid : Bytes) (kind : Char) : BencBuf :=
  let b := bencRawAdd b (ascii ['e', '1', ':', 't'])
  let b := bencStrAdd b tid
  bencRawAdd b (ascii ['1', ':', 'y', '1', ':', kind, 'e'])

/-- The start of every answer: our id. -/
def replyStart (cap : Nat) (myid : Id20) : BencBuf :=
  let b := bencRawAdd (bencBufInit cap) (ascii ['d', '1', ':', 'r', 'd'])
  bencStrAdd (bencKeyAdd b (ascii ['i', 'd'])) myid.toList

/-- `send_error`. -/
def sendError (tid : Bytes) (e : B44Error) : Option Bytes :=
  let b := bencRawAdd (bencBufInit 256) (ascii ['d', '1', ':', 'e', 'l'])
  let b := bencIntAdd b e.code
  let b := bencStrAdd b (ascii e.msg.toList)
  BencBuf.sent (replyEnd b tid 'e')

/-- `send_ack`. -/
def sendAck (myid : Id20) (tid : Bytes) : Option Bytes :=
  BencBuf.sent (replyEnd (replyStart 128 myid) tid 'r')

/-- A key with its string, where there is one to write. -/
def bencField (b : BencBuf) (key : Bytes) (val : Option Bytes) : BencBuf :=
  match val with
  | none => b
  | some val => bencStrAdd (bencKeyAdd b key) val

/-- The datagram `handle_get` builds. -/
def sendGot (myid : Id20) (tid : Bytes) (r : GetReply) : Option Bytes :=
  let owned := r.item.filter fun it => it.isMutable
  let served := if r.serveValue = true then r.item else none
  let b := replyStart b44MsgMax myid
  let b := bencField b (ascii ['k']) (if r.serveValue = true then owned.map B44Item.k else none)
  let b := bencField b (ascii ['n', 'o', 'd', 'e', 's'])
    (if r.nodes = [] then none else some r.nodes)
  let b := bencField b (ascii ['n', 'o', 'd', 'e', 's', '6'])
    (if r.nodes6 = [] then none else some r.nodes6)
  let b := match owned with
    | none => b
    | some it => bencIntAdd (bencKeyAdd b (ascii ['s', 'e', 'q'])) it.seq
  let b := bencField b (ascii ['s', 'i', 'g'])
    (if r.serveValue = true then owned.map B44Item.sig else none)
  let b := bencField b (ascii ['t', 'o', 'k', 'e', 'n']) (some r.token)
  let b := match served with
    | none => b
    | some it => bencRawAdd (bencKeyAdd b (ascii ['v'])) it.v
  BencBuf.sent (replyEnd b tid 'r')

/-- The datagram a reply goes out as. -/
def sendReply (myid : Id20) (tid : Bytes) : B44Reply → Option Bytes
  | .error e => sendError tid e
  | .ack => sendAck myid tid
  | .got r => sendGot myid tid r

/-! ## Write tokens -/

/-- `token_make`. -/
def tokenMake (C : Crypto) (secret : Bytes) (addr : Sockaddr) (target : Id20) : Bytes :=
  let ab := (addrBytes addr).elim [] Prod.snd
  (C.sha1 (secret ++ ab ++ target.toList)).toList.take b44TokenLen

/-- `token_valid`. -/
def tokenValid (C : Crypto) (secrets : Bytes × Bytes) (tok : Bytes) (addr : Sockaddr)
    (target : Id20) : Bool :=
  tok.length == b44TokenLen &&
    (tokenMake C secrets.1 addr target == tok || tokenMake C secrets.2 addr target == tok)

/-- `token_rotate`, `fresh` being what `random_bytes` gave. -/
def tokenRotate {cap : Nat} (e : Engine cap) (now : Nat) (fresh : Option Bytes) : Engine cap :=
  if now < e.tokenRotateMs then e
  else
    match fresh with
    | none => e
    | some fresh =>
        { e with
          tokenSecret := (fresh, e.tokenSecret.1)
          tokenRotateMs := now + b44TokenRotateMs }

/-! ## Referrals -/

/-- The address and port of a referral. -/
def compactAddr : Sockaddr → Bytes
  | .inet addr port => addr.toList ++ [(port >>> 8).toUInt8, port.toUInt8]
  | .inet6 addr port => addr.toList ++ [(port >>> 8).toUInt8, port.toUInt8]
  | .other => []

/-- One step of the selection in `cache_nodes`: a node joins the picks in the
order of its distance, and the furthest falls out. -/
def cachePick (picks : List (Id20 × B44Cnode)) (d : Id20) (c : B44Cnode) :
    List (Id20 × B44Cnode) :=
  let j := (picks.takeWhile fun p => decide (0 ≤ idCmp d p.1)).length
  (picks.take j ++ (d, c) :: picks.drop j).take b44ReplyNodes

/-- Is a cache entry a fresh node of the family?  The age is the source's
unsigned difference. -/
def cacheFresh (af : Family) (now : Nat) (c : B44Cnode) : Bool :=
  (c.addr.bind addrBytes).map Prod.fst == some af &&
    decide ((now + 2 ^ 64 - c.seenMs) % 2 ^ 64 ≤ b44CacheTtlMs)

/-- `cache_nodes`. -/
def cacheNodes {cap : Nat} (e : Engine cap) (target : Id20) (af : Family) (now outCap : Nat) :
    Bytes :=
  let entry := match af with
    | .inet => 26
    | .inet6 => 38
  let picks := (List.finRange b44CacheMax).foldl (fun picks i =>
    let c := e.cache i
    if cacheFresh af now c = true then cachePick picks (distCalc c.id target) c else picks) []
  (picks.take (outCap / entry)).flatMap fun p => p.2.id.toList ++ p.2.addr.elim [] compactAddr

/-! ## Arguments -/

/-- The three outcomes of the argument accessors. -/
inductive Arg (α : Type) where
  | present (a : α)
  | absent
  | malformed
  deriving DecidableEq

/-- `arg_raw`. -/
def argRaw (args key : Bytes) : Option Bytes := bencDictFind args key

/-- An argument read by `get` where it is there. -/
def argRead {α : Type} (get : Bytes → Option α) (args key : Bytes) : Arg α :=
  match bencDictFind args key with
  | none => .absent
  | some val =>
      match get val with
      | none => .malformed
      | some a => .present a

/-- `arg_str`. -/
def argStr (args key : Bytes) : Arg Bytes := argRead bencStrGet args key

/-- `arg_int`. -/
def argInt (args key : Bytes) : Arg Int := argRead bencIntGet args key

/-- Is an argument there and well formed? -/
def Arg.get? {α : Type} : Arg α → Option α
  | .present a => some a
  | _ => none

/-- An argument that may be left out but must not be malformed. -/
def Arg.optional {α : Type} (a : Arg α) (msg : String) : Except B44Error (Option α) :=
  match a with
  | .present a => .ok (some a)
  | .absent => .ok none
  | .malformed => .error ⟨203, msg⟩

/-- Refuse with an error unless the condition holds. -/
def require (b : Bool) (e : B44Error) : Except B44Error Unit :=
  if b = true then .ok () else .error e

/-! ## Queries -/

/-- A query past the checks of `query_handle`. -/
structure B44Query where
  addr : Sockaddr
  args : Bytes
  want4 : Bool
  want6 : Bool

/-- What a query does once it is checked: it is answered without looking at the
store, or the store is expired at `now` and acted on. -/
inductive B44Plan (cap : Nat) where
  | answer (r : B44Reply)
  | store (now : Nat) (act : Store cap → Store cap × B44Reply)

variable {cap : Nat}

/-- The store and the reply that a plan comes to. -/
def B44Plan.run (p : B44Plan cap) (s : Store cap) : Store cap × B44Reply :=
  match p with
  | .answer r => (s, r)
  | .store now act => act (storeExpire s now)

/-- `handle_get`. -/
def handleGet (C : Crypto) (e : Engine cap) (q : B44Query) (env : Env) : B44Plan cap :=
  match argStr q.args (ascii ['t', 'a', 'r', 'g', 'e', 't']) with
  | .present t =>
      if h : t.length = 20 then
        let target : Id20 := ⟨t.toArray, by simpa using h⟩
        match argInt q.args (ascii ['s', 'e', 'q']) with
        | .malformed => .answer (.error ⟨203, "seq must be an integer"⟩)
        | wantSeq =>
            .store env.now fun s =>
              let it := (storeItemAt s target).map Prod.snd
              -- a conditional get withholds the value from an asker that has it
              let serveValue := !(it.any fun it =>
                it.isMutable && wantSeq.get?.any fun want => decide (it.seq ≤ want))
              let referred := !(it.isSome && serveValue)
              let nodes := fun (want : Bool) af =>
                if referred = true ∧ want = true
                then cacheNodes e target af env.cacheNow (b44ReplyNodes * 38) else []
              (s, .got
                { item := it
                  serveValue := serveValue
                  nodes := nodes q.want4 .inet
                  nodes6 := nodes q.want6 .inet6
                  token := tokenMake C e.tokenSecret.1 q.addr target })
      else .answer (.error ⟨203, "get requires a 20-byte target"⟩)
  | _ => .answer (.error ⟨203, "get requires a 20-byte target"⟩)

/-- A put past all the checks that come before the store. -/
structure PutReq where
  isMutable : Bool
  target : Id20
  k : Bytes
  sig : Bytes
  salt : Bytes
  seq : Int
  cas : Option Int
  v : Bytes

/-- Does any mutable field commit the put to being mutable? -/
def putMutable (k sig : Option Bytes) (seq cas : Option Int) : Bool :=
  k.isSome || sig.isSome || seq.isSome || cas.isSome

/-- The fields a mutable put must have, all of them well formed. -/
def putComplete (k sig : Option Bytes) (seq : Option Int) : Bool :=
  (k.any fun k => k.length == 32) && (sig.any fun sig => sig.length == 64) &&
    (seq.any fun seq => decide (0 ≤ seq))

/-- `handle_put` up to the store: every check of the arguments. -/
def putCheck (C : Crypto) (e : Engine cap) (q : B44Query) : Except B44Error PutReq := do
  require (bencCanonical q.args) ⟨203, "put arguments are not canonical bencode"⟩
  let v ← (argRaw q.args (ascii ['v'])).elim (.error ⟨203, "put requires v"⟩) .ok
  let k ← (argStr q.args (ascii ['k'])).optional "k must be a string"
  let sig ← (argStr q.args (ascii ['s', 'i', 'g'])).optional "sig must be a string"
  let salt ← (argStr q.args (ascii ['s', 'a', 'l', 't'])).optional "salt must be a string"
  let seq ← (argInt q.args (ascii ['s', 'e', 'q'])).optional "seq must be an integer"
  let cas ← (argInt q.args (ascii ['c', 'a', 's'])).optional "cas must be an integer"
  let isMutable := putMutable k sig seq cas
  require (!isMutable || putComplete k sig seq) ⟨203, "incomplete or malformed mutable put"⟩
  let r : PutReq :=
    { isMutable := isMutable
      -- derived here and nowhere else: a target sent in the put is not read
      target := if isMutable = true then targetN C (k.getD []) (salt.getD []) else C.sha1 v
      k := k.getD [], sig := sig.getD [], salt := salt.getD [], seq := seq.getD 0
      cas := cas, v := v }
  require ((argStr q.args (ascii ['t', 'o', 'k', 'e', 'n'])).get?.any fun tok =>
    tokenValid C e.tokenSecret tok q.addr r.target) ⟨203, "bad write token"⟩
  require (decide (v.length ≤ bep44MaxValue)) ⟨205, "message (v field) too big"⟩
  require (decide (r.salt.length ≤ bep44MaxSalt)) ⟨207, "salt (salt field) too big"⟩
  require (!isMutable || (sigBufferN (bep44MaxValue + 128) r.salt r.seq v).any fun msg =>
    C.ed25519Check r.sig r.k msg) ⟨206, "invalid signature"⟩
  return r

/-- The item a put makes. -/
def PutReq.item (r : PutReq) (now : Nat) : B44Item :=
  if r.isMutable = true then
    { itemNew r.target r.v now with
      isMutable := true, seq := r.seq, k := r.k, sig := r.sig, salt := r.salt }
  else itemNew r.target r.v now

/-- `handle_put` from the store on, `now` having expired it. -/
def putStore (myid : Id20) (r : PutReq) (env : Env) (s : Store cap) : Store cap × B44Reply :=
  match storeItemAt s r.target with
  | some (i, it) =>
      if it.isMutable ≠ r.isMutable then
        (s, .error ⟨203, "cannot replace an item with the other kind"⟩)
      else if it.isMutable = false then
        -- the value is its own name, so a repeat put carries the same bytes
        (Function.update s i (some { it with expiresMs := env.now + b44ItemTtlMs }), .ack)
      else if (r.cas.any fun cas => decide (cas ≠ it.seq)) = true then
        (s, .error ⟨301, "CAS mismatched, re-read value and try again"⟩)
      else if r.seq = it.seq ∧ r.v = it.v then
        (Function.update s i (some { it with expiresMs := env.now + b44ItemTtlMs }), .ack)
      else if r.seq ≤ it.seq then
        (s, .error ⟨302, "sequence number less than current"⟩)
      else if env.allocOk = false then (s, .error ⟨202, "server error"⟩)
      else (Function.update s i (some (r.item env.now)), .ack)
  | none =>
      if env.allocOk = false then (s, .error ⟨202, "server error"⟩)
      else
        match storeFreeSlot s myid r.target with
        | (s, none) => (s, .ack)
        | (s, some i) => (Function.update s i (some (r.item env.now)), .ack)

/-- `handle_put`. -/
def handlePut (C : Crypto) (e : Engine cap) (q : B44Query) (env : Env) : B44Plan cap :=
  match putCheck C e q with
  | .error err => .answer (.error err)
  | .ok r => .store env.now (putStore e.myid r env)

/-- `want_parse`: the families the asker wants back, `2:n4` and `2:n6` anywhere
in the argument, or the one it reached us on. -/
def wantParse (addr : Sockaddr) (args : Bytes) : Bool × Bool :=
  match argRaw args (ascii ['w', 'a', 'n', 't']) with
  | none =>
      ((addrBytes addr).any fun fa => decide (fa.1 = .inet),
        (addrBytes addr).any fun fa => decide (fa.1 = .inet6))
  | some want =>
      (want.tails.any fun t => t.take 4 == ascii ['2', ':', 'n', '4'],
        want.tails.any fun t => t.take 4 == ascii ['2', ':', 'n', '6'])

/-- A string of a dictionary. -/
def dictStr (dict key : Bytes) : Option Bytes := (bencDictFind dict key).bind bencStrGet

/-- The method of a query: true for a put, and `none` for one that is not ours. -/
def queryMethod (buf : Bytes) : Option Bool :=
  match dictStr buf (ascii ['q']) with
  | none => none
  | some meth =>
      if meth = ascii ['g', 'e', 't'] then some false
      else if meth = ascii ['p', 'u', 't'] then some true
      else none

/-- The arguments dictionary of a query. -/
def queryArgs (buf : Bytes) : Option Bytes :=
  (bencDictFind buf (ascii ['a'])).filter fun val =>
    decide (2 ≤ val.length) && val.head? == some (ch 'd')

/-- What `query_handle` does with a query it answers. -/
def queryPlan (C : Crypto) (e : Engine cap) (isPut : Bool) (buf : Bytes) (addr : Sockaddr)
    (env : Env) : B44Plan cap :=
  match queryArgs buf with
  | none => .answer (.error ⟨203, "missing arguments dict"⟩)
  | some args =>
      if ((argStr args (ascii ['i', 'd'])).get?.any fun id => id.length == 20) = false then
        .answer (.error ⟨203, "bad node id"⟩)
      else if isPut = true then
        handlePut C e { addr := addr, args := args, want4 := false, want6 := false } env
      else
        handleGet C e
          { addr := addr, args := args, want4 := (wantParse addr args).1,
            want6 := (wantParse addr args).2 } env

/-- What became of a datagram: the engine after it, whether it was ours, the
plan it was answered by and the datagram sent back. -/
structure Served (cap : Nat) where
  engine : Engine cap
  consumed : Bool
  plan : Option (B44Plan cap)
  sent : Option Bytes

/-- The reply to a datagram, if it was answered. -/
def Served.reply (r : Served cap) (e : Engine cap) : Option B44Reply :=
  r.plan.map fun p => (p.run e.store).2

/-- `query_handle`. -/
def queryHandle (C : Crypto) (e : Engine cap) (buf : Bytes) (addr : Sockaddr) (env : Env) :
    Served cap :=
  if e.serving = false then { engine := e, consumed := false, plan := none, sent := none }
  else
    match queryMethod buf with
    | none => { engine := e, consumed := false, plan := none, sent := none }
    | some isPut =>
        if addrMartian addr = true then
          { engine := e, consumed := true, plan := none, sent := none }
        else
          let (bans, ok) := banOk e.bans addr env.banNow
          let e := { e with bans := bans }
          if ok = false then { engine := e, consumed := true, plan := none, sent := none }
          else
            match (dictStr buf (ascii ['t'])).filter fun tid => decide (tid.length ≤ b44TidMax) with
            | none => { engine := e, consumed := true, plan := none, sent := none }
            | some tid =>
                let p := queryPlan C e isPut buf addr env
                { engine := { e with store := (p.run e.store).1 }
                  consumed := true
                  plan := some p
                  sent := sendReply e.myid tid (p.run e.store).2 }

/-- `bep44_input`, for what the storing side answers; the replies to our own
queries are the client side's and leave the store alone. -/
def bep44Input (C : Crypto) (e : Engine cap) (buf : Bytes) (addr : Sockaddr) (env : Env) :
    Served cap :=
  if dictStr buf (ascii ['y']) = some (ascii ['q']) then queryHandle C e buf addr env
  else { engine := e, consumed := false, plan := none, sent := none }

/-! ## The rest of the engine's life -/

/-- `B44_BAN_RATE`. -/
def b44BanRate : Int := 8 * 5

/-- `B44_BAN_TIME_MS`. -/
def b44BanTimeMs : Nat := 5 * 60 * 1000

/-- `bep44_create`, for the storing side: it holds and serves nothing yet. -/
def bep44Create (cap : Nat) (myid : Id20) : Engine cap where
  myid := myid
  serving := false
  tokenSecret := (List.replicate 16 0, List.replicate 16 0)
  tokenRotateMs := 0
  store := fun _ => none
  cache := fun _ => { id := Vector.replicate 20 0, addr := none, seenMs := 0 }
  bans := { ban := fun _ => banZero, blockAllUntil := 0, rlRate := 0, rlBanMs := 0 }

/-- `bep44_serve`, `secrets` being what the two calls of `random_bytes` gave. -/
def bep44Serve (e : Engine cap) (enable : Bool) (secrets : Option Bytes × Option Bytes)
    (now : Nat) : Engine cap :=
  if enable = false then { e with serving := false }
  else if e.serving = true then e
  else
    match secrets with
    | (none, _) => e
    | (some fresh, none) => { e with tokenSecret := (fresh, e.tokenSecret.2) }
    | (some fresh, some previous) =>
        { e with
          tokenSecret := (fresh, previous)
          tokenRotateMs := now + b44TokenRotateMs
          bans := { e.bans with rlRate := b44BanRate, rlBanMs := b44BanTimeMs }
          serving := true }

/-- `bep44_ratelimit`. -/
def bep44Ratelimit (e : Engine cap) (perSourceRate : Int) (banSeconds : Int) : Engine cap :=
  { e with bans := { e.bans with rlRate := perSourceRate, rlBanMs := banSeconds.toNat * 1000 } }

/-- `bep44_periodic`, for the storing side. -/
def bep44Periodic (e : Engine cap) (now : Nat) (fresh : Option Bytes) : Engine cap :=
  if e.serving = false then e
  else { tokenRotate e now fresh with store := storeExpire e.store now }

end Bep44
end Comrade
