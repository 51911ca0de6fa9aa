import Comrade.Rdv.HostReply

/-!
# The hosting session

The host turnstile of `session.c`: the offers read from the cell and queued, the agent
kept ready, the punches in flight, the workers that serve a connected claimant, and the
budget of admissions.

A connection is a place in a heap (`ConnId`), held by the turnstile while its agent is
made ready, then by a punch, then by a worker.  The heap keeps what the turnstile reads
and writes of it.  What the session does not decide itself comes in with the step: the
clock, whether an agent has connected or failed, whether it takes a description, whether
a thread can be started, which place an allocation is given.

* `claimantRead` (`sig.c`) reads an offer and queues it.
* `hostOfferTake` decides one queued offer.
* `scanSlot` is one turn of `punch_scan`, `punchRelease` ends a punch, and `workerPass` is
  the turnstile's pass over one worker, which reaps it when it is done.
* `lanDrain` admits the claimants of the segment, and `hostReanswer` states the answers of
  the punches in flight again.
-/

namespace Comrade
namespace Session

open Lib Rdv

/-- `HOST_MAX_WORKERS`. -/
def hostMaxWorkers : Nat := 16

/-- `PUNCH_PARALLEL_MAX`. -/
def punchParallelMax : Nat := 3

/-- `CLAIM_SERVED_MAX`. -/
def claimServedMax : Nat := 8

/-- `NAT_SDP_MAX`, and `SIG_SDP_MAX`. -/
def natSdpMax : Nat := 4096

/-! ## Descriptions -/

/-- `strstr`, past the text it finds. -/
def afterText (text : Bytes) : Bytes → Option Bytes
  | [] => if text = [] then some [] else none
  | b :: bs =>
      if text.isPrefixOf (b :: bs) then some ((b :: bs).drop text.length) else afterText text bs

/-- `cand_sdp_ufrag` into a buffer of 40 bytes. -/
def candSdpUfrag (sdp : Bytes) : Bytes :=
  match afterText (ascii ['a', '=', 'i', 'c', 'e', '-', 'u', 'f', 'r', 'a', 'g', ':']) sdp with
  | none => []
  | some p => (p.takeWhile fun b => b != 0x0d && b != 0x0a && b != 0x20).take 39

/-- `isspace`. -/
def isSpace (b : UInt8) : Bool := b == 0x20 || (0x09 ≤ b && b ≤ 0x0d)

/-- `sdp_pwd`: the word that `%39s` reads. -/
def sdpPwd (sdp : Bytes) : Bytes :=
  match afterText (ascii ['i', 'c', 'e', '-', 'p', 'w', 'd', ':']) sdp with
  | none => []
  | some p => ((p.dropWhile isSpace).takeWhile fun b => !isSpace b).take 39

/-- The packing of descriptions (`candpack.c`).  A packing that is written fits the
payload of a message and is not empty. -/
structure Candpack where
  decode : Bytes → Option Bytes
  encode : Bytes → Option Bytes
  encode_len : ∀ sdp packed, encode sdp = some packed →
    packed ≠ [] ∧ packed.length ≤ rdvMaxPayload

/-! ## The state -/

/-- A place of the heap. -/
abbrev ConnId := Nat

/-- `struct conn`, as far as the turnstile is concerned; `proven` and `lost` are what
`conn_is_proven` and `conn_is_lost` say of its control plane. -/
structure Conn where
  claimCid : Cid
  claimUfrag : Bytes
  punchUfrag : Bytes
  remotePwd : Bytes
  answerSdp : Bytes
  punchResume : Option ConnId
  resumePending : Int
  punchStartMs : UInt64
  punchStuck : Bool
  proven : Bool
  lost : Bool
  deriving DecidableEq

/-- A connection after `conn_alloc`. -/
def connNew : Conn where
  claimCid := rdvZero
  claimUfrag := []
  punchUfrag := []
  remotePwd := []
  answerSdp := []
  punchResume := none
  resumePending := 0
  punchStartMs := 0
  punchStuck := false
  proven := false
  lost := false

/-- `struct worker`. -/
structure Worker where
  used : Bool
  done : Bool
  released : Bool
  c : ConnId
  deriving DecidableEq

/-- An entry of `offers`. -/
structure Offer where
  used : Bool
  cid : Cid
  sdp : Bytes
  deriving DecidableEq

/-- An entry of `lan_pending`, by the endpoint it maps to. -/
structure LanClaim where
  peer : Bytes
  ufrag : Bytes
  deriving DecidableEq

/-- `struct claim_served`. -/
structure ClaimServed where
  ufrag : Nat → Bytes
  pwd : Nat → Bytes
  next : Nat

/-- `struct sess`, with the locals of `host_turnstile`. -/
structure HostSess where
  rh : RdvHost
  offers : Fin rdvHostMax → Offer
  conn : ConnId → Conn
  listen : Option ConnId
  punching : Fin hostMaxWorkers → Option ConnId
  ws : Fin hostMaxWorkers → Worker
  lanConns : Fin hostMaxWorkers → Option ConnId
  lanPending : List LanClaim
  served : ClaimServed
  lastServedUfrag : Bytes
  haveServed : Bool
  admittedN : Int
  admitMax : Int
  stuckLeft : Int
  subscribed : Bool

/-- A session that begins to host. -/
def sessInit (cid : Cid) (gen : UInt32) (admitMax stuck : Int) : HostSess where
  rh := rdvHostInit cid gen 0
  offers := fun _ => { used := false, cid := rdvZero, sdp := [] }
  conn := fun _ => connNew
  listen := none
  punching := fun _ => none
  ws := fun _ => { used := false, done := false, released := false, c := 0 }
  lanConns := fun _ => none
  lanPending := []
  served := { ufrag := fun _ => [], pwd := fun _ => [], next := 0 }
  lastServedUfrag := []
  haveServed := false
  admittedN := 0
  admitMax := admitMax
  stuckLeft := stuck
  subscribed := false

/-- Write one connection. -/
def HostSess.edit (s : HostSess) (c : ConnId) (g : Conn → Conn) : HostSess :=
  { s with conn := Function.update s.conn c (g (s.conn c)) }

/-- `if (s->admitted_n > 0) s->admitted_n--`. -/
def HostSess.admittedLess (s : HostSess) : HostSess :=
  if 0 < s.admittedN then { s with admittedN := s.admittedN - 1 } else s

/-- Empty one punch slot. -/
def HostSess.punchClear (s : HostSess) (i : Fin hostMaxWorkers) : HostSess :=
  { s with punching := Function.update s.punching i none }

/-- Empty one entry of the queue. -/
def HostSess.offerDone (s : HostSess) (idx : Fin rdvHostMax) : HostSess :=
  { s with offers := Function.update s.offers idx { s.offers idx with used := false } }

/-- The first punch in flight that passes the test. -/
def punchFind (s : HostSess) (p : Conn → Bool) : Option (Fin hostMaxWorkers) :=
  firstSlot s.punching fun o => o.any fun c => p (s.conn c)

/-! ## The claims made -/

/-- `claim_made`. -/
def claimMade (connPwd claimPwd : Bytes) : Bool :=
  connPwd != [] && claimPwd != [] && connPwd == claimPwd

/-- `served_find`. -/
def servedFind (l : ClaimServed) (ufrag : Bytes) : Option Nat :=
  if ufrag = [] then none else (List.range claimServedMax).find? fun i => l.ufrag i == ufrag

/-- `claim_served_note`; both texts fit their buffers. -/
def claimServedNote (l : ClaimServed) (ufrag pwd : Bytes) : ClaimServed :=
  if ufrag = [] then l
  else
    match servedFind l ufrag with
    | some i => { l with pwd := Function.update l.pwd i pwd }
    | none =>
        { ufrag := Function.update l.ufrag l.next ufrag
          pwd := Function.update l.pwd l.next pwd
          next := (l.next + 1) % claimServedMax }

/-- `claim_served_made`. -/
def claimServedMade (l : ClaimServed) (ufrag pwd : Bytes) : Bool :=
  (servedFind l ufrag).any fun i => claimMade (l.pwd i) pwd

/-! ## Who is in hand -/

/-- `ufrag_admitted`. -/
def ufragAdmitted (s : HostSess) (ufrag : Bytes) : Bool :=
  ufrag != [] && (punchFind s fun c => c.punchUfrag == ufrag).isSome

/-- `lan_pending_ufrag`. -/
def lanPendingUfrag (s : HostSess) (ufrag : Bytes) : Bool :=
  s.lanPending.any fun l => l.ufrag == ufrag

/-- `lan_ufrag_claimed`. -/
def lanUfragClaimed (s : HostSess) (ufrag : Bytes) : Bool :=
  ufrag != [] &&
    match firstSlot s.lanConns fun o => o.any fun c => (s.conn c).claimUfrag == ufrag with
    | some i => (s.lanConns i).any fun c => (s.conn c).proven && !(s.conn c).lost
    | none => lanPendingUfrag s ufrag

/-- `worker_by_ufrag`. -/
def workerByUfrag (s : HostSess) (ufrag : Bytes) : Option ConnId :=
  if ufrag = [] then none
  else
    (firstSlot s.ws fun w => w.used && !w.done && (s.conn w.c).claimUfrag == ufrag).map
      fun i => (s.ws i).c

/-- `punch_tried_again`. -/
def punchTriedAgain (s : HostSess) (ufrag pwd : Bytes) : Bool :=
  ufrag != [] && pwd != [] &&
    ((punchFind s fun c => c.punchUfrag == ufrag).bind s.punching).any
      fun c => (s.conn c).remotePwd != pwd

/-- `punch_dup`. -/
def punchDup (s : HostSess) (ufrag pwd : Bytes) : Bool :=
  (punchFind s fun c => c.punchUfrag == ufrag && c.remotePwd == pwd).isSome

/-- `punch_count`. -/
def punchCount (s : HostSess) (ufrag : Bytes) : Nat :=
  slotCount s.punching fun o => o.any fun c => (s.conn c).punchUfrag == ufrag

/-- `offer_queued_ufrag`. -/
def offerQueuedUfrag (s : HostSess) (ufrag : Bytes) : Bool :=
  (firstSlot s.offers fun o => o.used && candSdpUfrag o.sdp == ufrag).isSome

/-- `made`, in `host_offer_take`. -/
def offerMade (s : HostSess) (ufrag pwd : Bytes) : Bool :=
  (workerByUfrag s ufrag).any (fun w => claimMade (s.conn w).remotePwd pwd) ||
    claimServedMade s.served ufrag pwd

/-- The test of `host_offer_take` for an offer that is in hand already. -/
def offerInHand (s : HostSess) (ufrag pwd : Bytes) : Bool :=
  lanUfragClaimed s ufrag || lanPendingUfrag s ufrag || punchDup s ufrag pwd ||
    (workerByUfrag s ufrag).any fun w =>
      !(s.conn w).lost && ((s.conn w).proven || offerMade s ufrag pwd)

/-- The test of `host_offer_take` for a budget that is spent. -/
def budgetSpent (s : HostSess) (ufrag : Bytes) : Bool :=
  (workerByUfrag s ufrag).isNone && !ufragAdmitted s ufrag && s.admitMax != 0 &&
    s.admitMax ≤ s.admittedN

/-! ## The queue -/

/-- The entry `offers_push` writes: the claimant's own, else the first that is free. -/
def offersSlot (s : HostSess) (cid : Cid) : Option (Fin rdvHostMax) :=
  (firstSlot s.offers fun o => o.used && o.cid == cid).or (firstSlot s.offers fun o => !o.used)

/-- `offers_push`. -/
def offersPush (s : HostSess) (cid : Cid) (sdp : Bytes) : HostSess :=
  match offersSlot s cid with
  | none => s
  | some i =>
      { s with offers := Function.update s.offers i { used := true, cid := cid, sdp := sdp } }

/-- `on_peer_offer`, in a session that serves many. -/
def onPeerOffer (s : HostSess) (cid : Cid) (sdp : Bytes) : HostSess :=
  if natSdpMax ≤ sdp.length then s else offersPush s cid sdp

/-- The grade of an ask and the way it came, on the claimant's record. -/
def claimantAsks (h : RdvHost) (cid : Cid) (grade : UInt8) (wide : Bool) : RdvHost :=
  match rdvHostFind h cid with
  | none => h
  | some i => h.put i { h.c i with grade := grade, wideAsk := if wide = true then 1 else 0 }

/-- `claimant_read`, of a copy that opened under the key of `grade`. -/
def claimantRead (C : Candpack) (s : HostSess) (m : RdvMsg) (grade : UInt8) (wide : Bool) :
    HostSess :=
  if m.kind ≠ .offer then s
  else
    match rdvHostSlot s.rh m with
    | (rh, false) => { s with rh := rh }
    | (rh, true) =>
        let s := { s with rh := claimantAsks rh m.frm grade wide }
        match C.decode m.payload with
        | none => s
        | some sdp => if s.subscribed = true then onPeerOffer s m.frm sdp else s

/-- `offers_drop_ufrag`. -/
def offersDropUfrag (s : HostSess) (ufrag : Bytes) : HostSess :=
  { s with
    offers := fun i =>
      if (s.offers i).used = true ∧ candSdpUfrag (s.offers i).sdp = ufrag then
        { s.offers i with used := false }
      else s.offers i }

/-- `on_direct_claim`, of a claim from the segment at that endpoint; `active` says that a
worker of the segment holds the endpoint already. -/
def onDirectClaim (s : HostSess) (peer ufrag : Bytes) (active : Bool) : HostSess :=
  if ufragAdmitted s ufrag = true ∨ (s.haveServed = true ∧ ufrag = s.lastServedUfrag) then s
  else if active = true then s
  else if lanUfragClaimed s ufrag = true then s
  else
    let s := offersDropUfrag s ufrag
    if (s.lanPending.any fun l => l.peer == peer) = true then s
    else if hostMaxWorkers ≤ s.lanPending.length then s
    else { s with lanPending := s.lanPending ++ [{ peer := peer, ufrag := ufrag }] }

/-! ## The punches -/

/-- `punch_release`. -/
def punchRelease (s : HostSess) (i : Fin hostMaxWorkers) : HostSess :=
  match s.punching i with
  | none => s
  | some c =>
      let pc := s.conn c
      let s :=
        match pc.punchResume with
        | some t => s.edit t fun w => { w with resumePending := w.resumePending - 1 }
        | none => s.admittedLess
      let s :=
        if pc.claimCid ≠ rdvZero then { s with rh := rdvHostRelease s.rh pc.claimCid } else s
      s.punchClear i

/-- The longest-running punch that passes the test: the first with the least start. -/
def punchOldest (s : HostSess) (p : Conn → Bool) : Option (Fin hostMaxWorkers) :=
  ((List.finRange hostMaxWorkers).foldl
    (fun victim i =>
      match s.punching i with
      | none => victim
      | some c =>
          if p (s.conn c) = false then victim
          else if victim.all (fun v => (s.conn c).punchStartMs < v.2) then
            some (i, (s.conn c).punchStartMs)
          else victim)
    none).map Prod.fst

/-- `punch_reap_oldest`. -/
def punchReapOldest (s : HostSess) (ufrag : Bytes) : HostSess :=
  match punchOldest s fun c => c.punchUfrag == ufrag with
  | none => s
  | some i => punchRelease s i

/-- `punch_evict_idle`. -/
def punchEvictIdle (s : HostSess) : HostSess × Bool :=
  match punchOldest s fun c => c.punchResume.isNone && !offerQueuedUfrag s c.punchUfrag with
  | none => (s, false)
  | some i => (punchRelease s i, true)

/-- `punch_reap_stale`. -/
def punchReapStale (s : HostSess) (ufrag pwd : Bytes) : HostSess :=
  (List.finRange hostMaxWorkers).foldl
    (fun s i =>
      match s.punching i with
      | none => s
      | some c =>
          if (s.conn c).punchUfrag = ufrag ∧ (s.conn c).remotePwd ≠ pwd then punchRelease s i
          else s)
    s

/-- `punch_slot_find`, where what is in flight leaves room within the budget. -/
def punchSlotFind (s : HostSess) : Option (Fin hostMaxWorkers) :=
  if hostMaxWorkers ≤ slotCount s.ws Worker.used + slotCount s.punching Option.isSome then none
  else firstSlot s.punching Option.isNone

/-- A slot for the next punch, with an idle one given up for it where none is free. -/
def punchRoom (s : HostSess) : HostSess × Option (Fin hostMaxWorkers) :=
  match punchSlotFind s with
  | some i => (s, some i)
  | none =>
      match punchEvictIdle s with
      | (s, false) => (s, none)
      | (s, true) => (s, punchSlotFind s)

/-- `punch_take`, of a description the agent takes. -/
def punchTake (s : HostSess) (pc : ConnId) (resume : Option ConnId) (pslot : Fin hostMaxWorkers)
    (cid : Cid) (cu cp : Bytes) (now : UInt64) : HostSess :=
  let s :=
    match resume with
    | some t => s.edit t fun w => { w with resumePending := w.resumePending + 1 }
    | none => if ufragAdmitted s cu = true then s else { s with admittedN := s.admittedN + 1 }
  let s := { s with punching := Function.update s.punching pslot (some pc) }
  s.edit pc fun c =>
    { c with
      claimCid := cid
      remotePwd := cp
      punchResume := resume
      claimUfrag := cu
      punchStartMs := now
      punchStuck := decide (0 < s.stuckLeft)
      punchUfrag := cu }

/-- `sig_answer`. -/
def sigAnswer (C : Candpack) (h : RdvHost) (cid : Cid) (sdp : Bytes) : RdvHost :=
  if natSdpMax ≤ sdp.length then h
  else
    match C.encode sdp with
    | none => h
    | some packed => rdvHostAnswer h cid packed

/-! ## An offer decided -/

/-- What an offer is taken with: the agent that is ready, its description, whether it
takes the claimant's, and the time. -/
structure TakeIn where
  ready : Bool
  localSdp : Bytes
  primes : Bool
  now : UInt64

/-- The punches given up before a punch for the claimant, and the slot it is given. -/
def offerRoom (s : HostSess) (cu cp : Bytes) : HostSess × Option (Fin hostMaxWorkers) :=
  let s := if punchTriedAgain s cu cp = true then punchReapStale s cu cp else s
  match punchRoom s with
  | (s, none) => (s, none)
  | (s, some pslot) =>
      (if punchParallelMax ≤ punchCount s cu then punchReapOldest s cu else s, some pslot)

/-- The end of `host_offer_take`: the agent is spent on the offer. -/
def offerPunch (C : Candpack) (s : HostSess) (idx : Fin rdvHostMax) (pc : ConnId)
    (resume : Option ConnId) (pslot : Fin hostMaxWorkers) (e : TakeIn) : HostSess :=
  let o := s.offers idx
  if e.primes = false then s.offerDone idx
  else
    let s := punchTake s pc resume pslot o.cid (candSdpUfrag o.sdp) (sdpPwd o.sdp) e.now
    let s := if 0 < s.stuckLeft then { s with stuckLeft := s.stuckLeft - 1 } else s
    let s := s.edit pc fun c => { c with answerSdp := e.localSdp }
    { s with rh := sigAnswer C s.rh o.cid e.localSdp }.offerDone idx

/-- `host_offer_take`.  True when the ready agent was spent. -/
def hostOfferTake (C : Candpack) (s : HostSess) (idx : Fin rdvHostMax) (e : TakeIn) :
    HostSess × Bool :=
  let o := s.offers idx
  let cu := candSdpUfrag o.sdp
  let cp := sdpPwd o.sdp
  if cu = [] then (s.offerDone idx, false)
  else if offerInHand s cu cp = true then
    ({ s with rh := rdvHostKeep s.rh o.cid }.offerDone idx, false)
  else if budgetSpent s cu = true then
    ({ s with rh := rdvHostRefuse s.rh o.cid 1 }.offerDone idx, false) -- RDV_REFUSE_FULL
  else
    match (if e.ready = true then s.listen else none) with
    | none => (s, false)
    | some pc =>
        let resume := workerByUfrag s cu
        match offerRoom s cu cp with
        | (s, none) => (s, false)
        | (s, some pslot) => (offerPunch C s idx pc resume pslot e, true)

/-- One turn of the loop of `host_offers_drain`; its caller gives the agent up when it was
spent. -/
def offerTurn (C : Candpack) (s : HostSess) (idx : Fin rdvHostMax) (e : TakeIn) : HostSess :=
  if (s.offers idx).used = false then s
  else
    match hostOfferTake C s idx e with
    | (s, false) => s
    | (s, true) => { s with listen := none }

/-- `host_reanswer`; `fan` is what `peering_net_fan` makes of a description. -/
def hostReanswer (C : Candpack) (s : HostSess) (fan : Bytes → Bytes) : HostSess :=
  (List.finRange hostMaxWorkers).foldl
    (fun s i =>
      match s.punching i with
      | none => s
      | some c =>
          if (s.conn c).answerSdp = [] then s
          else
            { s with
              rh := sigAnswer C s.rh (s.conn c).claimCid (fan (s.conn c).answerSdp) })
    s

/-! ## Workers -/

/-- `worker_spawn`; `starts` says that the thread could be started.  True when the worker
runs. -/
def workerSpawn (s : HostSess) (c : ConnId) (starts : Bool) : HostSess × Bool :=
  match firstSlot s.ws fun w => !w.used with
  | none => (s, false)
  | some i =>
      if starts = false then
        ({ s with ws := Function.update s.ws i { s.ws i with c := c } }, false)
      else
        ({ s with
            ws := Function.update s.ws i
              { used := true, done := false, released := false, c := c } },
          true)

/-- What `punch_scan` finds of a punch: its agent has connected or failed, and a thread
can be started. -/
structure ScanIn where
  connected : Bool
  failed : Bool
  starts : Bool

/-- A punch that ends with nobody admitted: its resumption, or its admission, is given
back. -/
def punchDrop (s : HostSess) (pc : Conn) (i : Fin hostMaxWorkers) : HostSess :=
  let s :=
    match pc.punchResume with
    | some t => s.edit t fun w => { w with resumePending := w.resumePending - 1 }
    | none => s.admittedLess
  s.punchClear i

/-- One turn of the loop of `punch_scan`. -/
def scanSlot (s : HostSess) (i : Fin hostMaxWorkers) (e : ScanIn) : HostSess :=
  match s.punching i with
  | none => s
  | some c =>
      let pc := s.conn c
      if pc.punchStuck = false ∧ e.connected = true then
        let s := { s with lastServedUfrag := pc.punchUfrag, haveServed := true }
        match pc.punchResume.or (workerByUfrag s pc.punchUfrag) with
        | some t =>
            -- the agent is handed to the worker that serves the claimant
            punchDrop (s.edit t fun w => { w with remotePwd := pc.remotePwd }) pc i
        | none =>
            let s := s.punchClear i
            let s := { s with served := claimServedNote s.served pc.punchUfrag pc.remotePwd }
            (workerSpawn s c e.starts).1
      else if pc.punchStuck = false ∧ e.failed = true then punchDrop s pc i
      else s

/-- A connection is one of the punches in flight. -/
def isPunching (s : HostSess) (c : ConnId) : Bool :=
  (firstSlot s.punching fun o => o == some c).isSome

/-- The punches that were resuming a worker lose their target. -/
def resumesLost (s : HostSess) (t : ConnId) : HostSess :=
  { s with
    conn := fun c =>
      if isPunching s c = true ∧ (s.conn c).punchResume = some t then
        { s.conn c with punchResume := none }
      else s.conn c }

/-- The first punch for the claimant no longer names it. -/
def punchUnnamed (s : HostSess) (ufrag : Bytes) : HostSess :=
  if ufrag = [] then s
  else
    match (punchFind s fun c => c.punchUfrag == ufrag).bind s.punching with
    | none => s
    | some c => s.edit c fun pc => { pc with punchUfrag := [] }

/-- The turnstile's reaping of a worker that is done. -/
def workerReap (s : HostSess) (i : Fin hostMaxWorkers) : HostSess :=
  let c := (s.ws i).c
  let wc := s.conn c
  let s := { s with lanConns := fun j => if s.lanConns j = some c then none else s.lanConns j }
  let s := resumesLost s c
  let s := punchUnnamed s wc.claimUfrag
  let s := { s with rh := rdvHostForget s.rh wc.claimCid }
  let s :=
    if wc.claimUfrag ≠ [] ∧ s.haveServed = true ∧ s.lastServedUfrag = wc.claimUfrag then
      { s with lastServedUfrag := [], haveServed := false }
    else s
  let s := if wc.proven = true then s else s.admittedLess
  { s with ws := Function.update s.ws i { s.ws i with used := false } }

/-- The turnstile's pass over one worker. -/
def workerPass (s : HostSess) (i : Fin hostMaxWorkers) : HostSess :=
  if (s.ws i).used = true ∧ (s.ws i).done = true then workerReap s i
  else if (s.ws i).used = true ∧ (s.ws i).released = false ∧ (s.conn (s.ws i).c).proven = true ∧
      (s.conn (s.ws i).c).claimCid ≠ rdvZero then
    { s with
      ws := Function.update s.ws i { s.ws i with released := true }
      rh := rdvHostRelease s.rh (s.conn (s.ws i).c).claimCid }
  else s

/-! ## The segment -/

/-- What `lan_drain` finds of an entry: that it is passed over (it cannot be mapped, is
being served or is our own), the place allocated for it, whether its path could be added,
and whether a thread could be started. -/
structure LanIn where
  skip : Bool
  alloc : Option ConnId
  path : Bool
  starts : Bool

/-- A connection is in use. -/
def connLive (s : HostSess) (c : ConnId) : Bool :=
  s.listen == some c || isPunching s c || (firstSlot s.ws fun w => w.used && w.c == c).isSome

/-- A claimant of the segment is given a worker. -/
def lanSpawn (s : HostSess) (ufrag : Bytes) (slot : Fin hostMaxWorkers) (c : ConnId)
    (starts : Bool) : HostSess :=
  let s := { s with conn := Function.update s.conn c { connNew with claimUfrag := ufrag } }
  let s := if ufrag ≠ [] then { s with lastServedUfrag := ufrag, haveServed := true } else s
  let s :=
    { s with
      admittedN := s.admittedN + 1
      lanConns := Function.update s.lanConns slot (some c) }
  match workerSpawn s c starts with
  | (s, true) => s
  | (s, false) => { s with lanConns := Function.update s.lanConns slot none }

/-- One turn of the loop of `lan_drain`.  True when the loop goes on.  A place in use is
never allocated. -/
def lanAdmit (s : HostSess) (claim : LanClaim) (e : LanIn) : HostSess × Bool :=
  if e.skip = true then (s, true)
  else if s.admitMax ≠ 0 ∧ s.admitMax ≤ s.admittedN then (s, true)
  else
    match firstSlot s.lanConns Option.isNone with
    | none => (s, false)
    | some slot =>
        match e.alloc with
        | none => (s, false)
        | some c =>
            if connLive s c = true ∨ e.path = false then (s, false)
            else (lanSpawn s claim.ufrag slot c e.starts, true)

/-- The loop of `lan_drain`. -/
def lanLoop (s : HostSess) : List LanClaim → List LanIn → HostSess
  | claim :: claims, e :: es =>
      match lanAdmit s claim e with
      | (s, true) => lanLoop s claims es
      | (s, false) => s
  | _, _ => s

/-- `lan_drain`. -/
def lanDrain (s : HostSess) (es : List LanIn) : HostSess :=
  { lanLoop s s.lanPending es with lanPending := [] }

/-! ## Steps -/

/-- What happens to a session.  The loops over the queue and over the punches are taken
turn by turn, since a worker may end and an agent connect between two turns. -/
inductive SessOp where
  | read (m : RdvMsg) (grade : UInt8) (wide : Bool)
  | claim (peer ufrag : Bytes) (active : Bool)
  | drain (es : List LanIn)
  /-- The signaller is told whom to call, or is one rebuilt that was not told yet. -/
  | subscribe (on : Bool)
  /-- An agent is made ready in the place allocated for it. -/
  | gather (c : ConnId)
  /-- The agent that was ready is given up. -/
  | giveUp
  | take (idx : Fin rdvHostMax) (e : TakeIn)
  | reanswer (fan : Bytes → Bytes)
  | scan (i : Fin hostMaxWorkers) (e : ScanIn)
  | release (i : Fin hostMaxWorkers)
  | pass (i : Fin hostMaxWorkers)
  /-- The thread of the worker returns. -/
  | ended (i : Fin hostMaxWorkers)
  /-- The control plane of a connection hears its peer, or loses it. -/
  | link (c : ConnId) (proven lost : Bool)
  /-- The signaller's own calls into the rendezvous. -/
  | sig (op : HostOp)

/-- The calls into the rendezvous that no step above makes. -/
def sigCall : HostOp → Bool
  | .unsent _ => true
  | .turnKept => true
  | .setGen _ => true
  | .entomb => true
  | .next _ => true
  | _ => false

/-- One step of a session. -/
def sessStep (C : Candpack) (s : HostSess) : SessOp → HostSess
  | .read m grade wide => claimantRead C s m grade wide
  | .claim peer ufrag active => onDirectClaim s peer ufrag active
  | .drain es => lanDrain s es
  | .subscribe on => { s with subscribed := on }
  | .gather c =>
      if s.listen.isSome = true ∨ connLive s c = true then s
      else { s with listen := some c, conn := Function.update s.conn c connNew }
  | .giveUp => { s with listen := none }
  | .take idx e => offerTurn C s idx e
  | .reanswer fan => hostReanswer C s fan
  | .scan i e => scanSlot s i e
  | .release i => punchRelease s i
  | .pass i => workerPass s i
  | .ended i => { s with ws := Function.update s.ws i { s.ws i with done := true } }
  | .link c proven lost => s.edit c fun w => { w with proven := proven, lost := lost }
  | .sig op => if sigCall op = true then { s with rh := hostStep s.rh op } else s

end Session
end Comrade
