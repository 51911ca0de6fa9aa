import Comrade.Lib.Channel
import Comrade.Lib.Run

/-!
# A forwarded connection

The bridges of `sshfwd.c`: a forwarded connection is two of them, one on the client and one on
the host, each between a TCP socket and its end of one SSH channel.

* `BridgeEnd` is one side: what its TCP peer has sent and been given, `struct fwd_bridge`, and
  the end of the channel.
* `bridgePumpIn`, `bridgePumpOut`, `reap` and `bridgeDown` are what a tick does to it.
* The channel is reliable and ordered: what one end writes arrives at the other in order, a
  close after what was written before it, and a channel that the peer closed counts as open
  until what it brought has been read.  The window grows when the peer says so.
* `forwardStep` is one call of one side, one arrival, or one thing a TCP peer does, in any
  order.  The order of a tick is `tick`.

The kernel takes and gives what it likes: how much each `read` finds and how much each `write`
takes is part of the event.  No call fails but a write to a channel the peer has closed.
`polled` says when a side is woken and is left out, the events coming in any order.
-/

namespace Comrade
namespace Fwd

open Lib

/-- `FWD_BUF`. -/
def fwdBuf : Nat := 32768

/-- `FWD_SLICE`. -/
def fwdSlice : Nat := 8192

/-- The two sides of a forwarded connection. -/
inductive Side where
  | client
  | host
  deriving DecidableEq

/-- The side across the channel. -/
def Side.other : Side → Side
  | .client => .host
  | .host => .client

/-- One side.  `buf` is `buf[buf_off, buf_len)`. -/
structure BridgeEnd where
  -- the TCP peer: all it has sent, whether it has ended its stream, what of it is not read
  -- yet, and all it has been given
  sent : Bytes
  eos : Bool
  unread : Bytes
  written : Bytes
  -- `struct fwd_bridge`
  used : Bool
  sentEof : Bool
  buf : Bytes
  -- the end of the channel: what has arrived and is not read yet, and the peer's window
  inbox : Bytes
  remoteEof : Bool
  remoteClosed : Bool
  window : Nat
  deriving DecidableEq

/-- `bridge_up` on a channel with this window. -/
def bridgeUp (window : Nat) : BridgeEnd where
  sent := []
  eos := false
  unread := []
  written := []
  used := true
  sentEof := false
  buf := []
  inbox := []
  remoteEof := false
  remoteClosed := false
  window := window

/-! ## The channel -/

/-- `ssh_channel_is_open`. -/
def sshChannelIsOpen (e : BridgeEnd) : Bool := !(e.remoteClosed && e.inbox.isEmpty)

/-- `ssh_channel_is_eof`. -/
def sshChannelIsEof (e : BridgeEnd) : Bool := e.remoteEof && e.inbox.isEmpty

/-- A message arrives at the end of the channel. -/
def receive (m : ChanMsg) (e : BridgeEnd) : BridgeEnd :=
  match m with
  | .data b => { e with inbox := e.inbox ++ b }
  | .eof => { e with remoteEof := true }
  | .close => { e with remoteClosed := true }

/-! ## One side -/

/-- `bridge_down`: the side with its socket closed and its channel freed, and what goes out on
the channel.  A close ends the stream first. -/
def bridgeDown (e : BridgeEnd) : BridgeEnd × List ChanMsg :=
  ({ e with
      unread := []
      used := false
      sentEof := false
      buf := []
      inbox := []
      remoteEof := false
      remoteClosed := false },
    if sshChannelIsOpen e = true then (if e.sentEof = true then [] else [.eof]) ++ [.close] else [])

/-- `sock_read` of at most `cap` bytes when `n` of those sent have come in: `none` is a read that
would block, and the empty string the end of the stream. -/
def sockRead (e : BridgeEnd) (cap n : Nat) : Option Bytes :=
  if e.unread ≠ [] then
    if n = 0 then none else some (e.unread.take (min cap n))
  else if e.eos = true ∧ n ≠ 0 then some []
  else none

/-- `bridge_pump_in`, and the teardown when it fails: the side, and what goes out. -/
def bridgePumpIn (n : Nat) (e : BridgeEnd) : BridgeEnd × List ChanMsg :=
  if e.sentEof = true then (e, [])
  else if e.window = 0 then (e, [])
  else
    match sockRead e (min fwdSlice e.window) n with
    | none => (e, [])
    | some [] => ({ e with sentEof := true }, [.eof])
    | some (b :: bs) =>
        let e1 := { e with unread := e.unread.drop (bs.length + 1) }
        if e.remoteClosed = true then bridgeDown e1
        else ({ e1 with window := e.window - (bs.length + 1) }, [.data (b :: bs)])

/-- `ssh_channel_read_nonblocking` into a buffer that has been drained. -/
def refill (e : BridgeEnd) : BridgeEnd :=
  if e.buf = [] then { e with buf := e.inbox.take fwdBuf, inbox := e.inbox.drop fwdBuf } else e

/-- `bridge_pump_out`, where the kernel takes at most so many bytes in each write: none is a
write that would block, and so are those past the last. -/
def bridgePumpOut : List Nat → BridgeEnd → BridgeEnd
  | [], e => refill e
  | w :: rest, e =>
      let e1 := refill e
      -- nothing came in, or nothing goes out
      if e1.buf = [] ∨ w = 0 then e1
      else
        bridgePumpOut rest
          { e1 with written := e1.written ++ e1.buf.take w, buf := e1.buf.drop w }

/-- The test of the drain loop: the channel is closed, or ended and drained. -/
def reaps (e : BridgeEnd) : Bool :=
  !sshChannelIsOpen e || (sshChannelIsEof e && e.buf.isEmpty)

/-- The drain loop's turn past `bridge_pump_out`. -/
def reap (e : BridgeEnd) : BridgeEnd × List ChanMsg :=
  if reaps e = true then bridgeDown e else (e, [])

/-! ## The connection -/

/-- Both sides, and what is on its way to each. -/
structure Forward where
  ends : Side → BridgeEnd
  wire : Side → List ChanMsg

/-- A connection as it comes up. -/
def forwardUp (window : Side → Nat) : Forward where
  ends := fun s => bridgeUp (window s)
  wire := fun _ => []

/-- One thing that happens to one side. -/
inductive ForwardIn where
  -- the TCP peer sends, or ends its stream
  | send (s : Side) (bytes : Bytes)
  | eos (s : Side)
  -- the calls of a tick
  | pumpIn (s : Side) (n : Nat)
  | pumpOut (s : Side) (takes : List Nat)
  | reap (s : Side)
  -- the channel: a message arrives, or the window grows
  | arrive (s : Side)
  | adjust (s : Side) (n : Nat)
  deriving DecidableEq

/-- A side changed, with what is on its way to it and to the other one. -/
def Forward.put (f : Forward) (s : Side) (e : BridgeEnd) (toward out : List ChanMsg) : Forward where
  ends := fun x => if x = s then e else f.ends x
  wire := fun x => if x = s then toward else out

/-- A call of side `s`, which is made on a bridge in use. -/
def call (f : Forward) (s : Side) (g : BridgeEnd → BridgeEnd × List ChanMsg) : Forward :=
  if (f.ends s).used = false then f
  else f.put s (g (f.ends s)).1 (f.wire s) (f.wire s.other ++ (g (f.ends s)).2)

/-- What a TCP peer has sent comes into a socket, if there is one. -/
def peerSend (b : Bytes) (e : BridgeEnd) : BridgeEnd :=
  if e.eos = true then e
  else { e with sent := e.sent ++ b, unread := if e.used = true then e.unread ++ b else e.unread }

/-- One event. -/
def forwardStep (f : Forward) : ForwardIn → Forward
  | .send s b => f.put s (peerSend b (f.ends s)) (f.wire s) (f.wire s.other)
  | .eos s => f.put s { f.ends s with eos := true } (f.wire s) (f.wire s.other)
  | .pumpIn s n => call f s (bridgePumpIn n)
  | .pumpOut s takes => call f s fun e => (bridgePumpOut takes e, [])
  | .reap s => call f s reap
  | .arrive s =>
      match f.wire s with
      | [] => f
      | m :: rest =>
          -- a channel that was freed takes no more
          f.put s (if (f.ends s).used = true then receive m (f.ends s) else f.ends s) rest
            (f.wire s.other)
  | .adjust s n => call f s fun e => ({ e with window := e.window + n }, [])

/-- What `sshfwd_tick` does to the bridge of side `s`, with what each read finds and each write
takes. -/
def tick (s : Side) (reads takes : List Nat) : List ForwardIn :=
  reads.map (.pumpIn s) ++ [.pumpOut s takes, .reap s]

/-! ## What is delivered -/

/-- What side `s` has sent and is still on its way to the other TCP peer: nothing once the
bridge there is down. -/
def Forward.pending (f : Forward) (s : Side) : Bytes :=
  if (f.ends s.other).used = true then
    (f.ends s.other).buf ++ (f.ends s.other).inbox ++ payload (f.wire s.other) ++ (f.ends s).unread
  else []

/-- Nothing that side `s` has sent is lost: it was given to the other TCP peer or is still to
come, in order. -/
def Carried (f : Forward) (s : Side) : Prop :=
  (f.ends s).sent = (f.ends s.other).written ++ f.pending s

instance (f : Forward) (s : Side) : Decidable (Carried f s) :=
  inferInstanceAs (Decidable (_ = _))

/-- The event discards nothing: a bridge that is reaped has read its socket and emptied its
buffer, and no TCP peer sends to one that has been. -/
def Spares (f : Forward) : ForwardIn → Prop
  | .reap s => (f.ends s).used = true → reaps (f.ends s) = true →
      (f.ends s).unread = [] ∧ (f.ends s).buf = []
  | .send s b => (f.ends s).used = true ∨ (f.ends s).eos = true ∨ b = []
  | .eos _ => True
  | .pumpIn _ _ => True
  | .pumpOut _ _ => True
  | .arrive _ => True
  | .adjust _ _ => True

end Fwd
end Comrade
