import Comrade.Lib.Run
import Comrade.Lib.Records
import Comrade.Ui.Event

/-!
# The way of an event to the foreground

The service queues one line for an event, and a thread of its own writes the queue into a
socket, as much at a time as the socket takes (`emit_writer`).  The foreground reads what has
arrived into a buffer and takes the whole lines off its front (`ui_pump`).  A write that fails
ends the channel: what is queued is dropped, and so is all that comes after.

* `UiChannel` is the queue, the socket, the foreground's buffer and the calls it has made of
  the view.
* `ui_channel`: however the lines are cut on their way, the calls are those of the events from
  the first to some one, in their order; the others are on the way, or behind a write that
  failed.
-/

namespace Comrade
namespace Ui

open Lib

/-- The size of the buffer `rx`. -/
def rxMax : Nat := 1024

/-- `struct ui_emit`, the socket, and `rx` of `struct ui` with the calls of the view.  Of the line
at the head of the queue only what is still to be written is there.  `emitted` is what the
session has reported. -/
structure UiChannel where
  queue : List Bytes
  closed : Bool
  sock : Bytes
  rx : Bytes
  calls : List UiEvent
  emitted : List UiEvent

def uiChannelStart : UiChannel where
  queue := []
  closed := false
  sock := []
  rx := []
  calls := []
  emitted := []

/-- A step of the session's threads, of the writer or of the foreground. -/
inductive UiStep where
  | emit (e : UiEvent)
  /-- `sock_write` takes this many bytes of the line at the head, or the whole of it. -/
  | write (n : Nat)
  | writeFails
  /-- `ui_pump`, where this many bytes can be read, or what there is. -/
  | pump (n : Nat)

/-- `emitf`. -/
def UiChannel.emit (c : UiChannel) (e : UiEvent) : UiChannel :=
  { c with
    queue := if c.closed = true then c.queue else c.queue ++ [e.line]
    emitted := c.emitted ++ [e] }

/-- A turn of `emit_writer`; a write of nothing is one that fails. -/
def UiChannel.write (c : UiChannel) (n : Nat) : UiChannel :=
  match c.queue with
  | [] => c
  | line :: queue =>
      if n = 0 then { c with closed := true, queue := [] }
      else
        { c with
          sock := c.sock ++ line.take n
          queue := if line.length ≤ n then queue else line.drop n :: queue }

/-- `ui_pump`. -/
def UiChannel.pump (c : UiChannel) (n : Nat) : UiChannel :=
  -- a full buffer without a newline
  let rx := if c.rx.length = rxMax - 1 then [] else c.rx
  let got := min n (rxMax - 1 - rx.length)
  let r := takeRecords (ch '\n') (rx ++ c.sock.take got)
  { c with
    sock := c.sock.drop got
    rx := r.2
    calls := c.calls ++ r.1.filterMap feed }

def uiStep (c : UiChannel) : UiStep → UiChannel
  | .emit e => c.emit e
  | .write n => c.write n
  | .writeFails => c.write 0
  | .pump n => c.pump n

/-- The bodies of the lines of these events. -/
def bodies (es : List UiEvent) : List Bytes := es.map UiEvent.body

theorem newline_not_mem_bodies {es : List UiEvent} (h : ∀ e ∈ es, e.Fits) :
    ∀ b ∈ bodies es, ch '\n' ∉ b := by
  simp only [bodies, List.mem_map]
  rintro b ⟨e, he, rfl⟩
  exact newline_not_mem_body (h e he).oneLine

theorem length_bodies {es : List UiEvent} (h : ∀ e ∈ es, e.Fits) :
    ∀ b ∈ bodies es, b.length ≤ emitMax := by
  simp only [bodies, List.mem_map]
  rintro b ⟨e, he, rfl⟩
  have := (h e he).length_lt
  omega

/-- Whole lines are heard as their events. -/
theorem feed_bodies {es : List UiEvent} (h : ∀ e ∈ es, e.Fits) :
    (bodies es).filterMap feed = es.filterMap heardAs := by
  induction es with
  | nil => rfl
  | cons e es ih =>
      obtain ⟨he, hes⟩ := List.forall_mem_cons.mp h
      have hcons : bodies (e :: es) = e.body :: bodies es := rfl
      rw [hcons, List.filterMap_cons, List.filterMap_cons, ih hes, feed_body he.oneLine]

/-- The events that have been heard, and those that have not.  What the writer has lost is
`lost`, the end of their lines. -/
structure UiOnWay (c : UiChannel) (heard later : List UiEvent) (lost : Bytes) : Prop where
  emitted_eq : c.emitted = heard ++ later
  fits : ∀ e ∈ c.emitted, e.Fits
  calls_eq : c.calls = heard.filterMap heardAs
  way_eq : c.rx ++ (c.sock ++ (c.queue.flatten ++ lost)) = recordStream (ch '\n') (bodies later)
  rx_length : c.rx.length ≤ emitMax
  rx_line : ch '\n' ∉ c.rx
  open_lost : c.closed = false → lost = []
  closed_queue : c.closed = true → c.queue = []

theorem uiChannelStart_onWay : UiOnWay uiChannelStart [] [] [] where
  emitted_eq := rfl
  fits := by simp [uiChannelStart]
  calls_eq := rfl
  way_eq := rfl
  rx_length := by simp [uiChannelStart]
  rx_line := by simp [uiChannelStart]
  open_lost := fun _ => rfl
  closed_queue := fun _ => rfl

theorem UiOnWay.emit {c : UiChannel} {heard later : List UiEvent} {lost : Bytes}
    (h : UiOnWay c heard later lost) {e : UiEvent} (he : e.Fits) :
    ∃ lost', UiOnWay (c.emit e) heard (later ++ [e]) lost' := by
  have hstream : recordStream (ch '\n') (bodies (later ++ [e])) =
      recordStream (ch '\n') (bodies later) ++ e.line := by
    rw [bodies, List.map_append, recordStream_append, he.line_eq]
    simp [bodies]
  have hemitted : c.emitted ++ [e] = heard ++ (later ++ [e]) := by
    rw [h.emitted_eq, List.append_assoc]
  have hfits : ∀ x ∈ c.emitted ++ [e], x.Fits := by
    intro x hx
    rcases List.mem_append.mp hx with hx | hx
    · exact h.fits x hx
    · rwa [List.mem_singleton.mp hx]
  cases hclosed : c.closed with
  | true =>
      refine ⟨lost ++ e.line, hemitted, hfits, h.calls_eq, ?_, h.rx_length, h.rx_line, ?_, ?_⟩
      · rw [hstream, ← h.way_eq]
        simp [UiChannel.emit, hclosed]
      · simp [UiChannel.emit, hclosed]
      · intro _
        simpa [UiChannel.emit, hclosed] using h.closed_queue hclosed
  | false =>
      refine ⟨[], hemitted, hfits, h.calls_eq, ?_, h.rx_length, h.rx_line,
        fun _ => rfl, ?_⟩
      · rw [hstream, ← h.way_eq, h.open_lost hclosed]
        simp [UiChannel.emit, hclosed]
      · simp [UiChannel.emit, hclosed]

theorem UiOnWay.write {c : UiChannel} {heard later : List UiEvent} {lost : Bytes}
    (h : UiOnWay c heard later lost) (n : Nat) :
    ∃ lost', UiOnWay (c.write n) heard later lost' := by
  have hway := h.way_eq
  cases hqueue : c.queue with
  | nil =>
      rw [UiChannel.write, hqueue]
      exact ⟨lost, h⟩
  | cons line queue =>
      rw [hqueue, List.flatten_cons] at hway
      rw [UiChannel.write, hqueue]
      dsimp only
      by_cases hn : n = 0
      · rw [if_pos hn]
        refine ⟨line ++ (queue.flatten ++ lost), h.emitted_eq, h.fits, h.calls_eq, ?_,
          h.rx_length, h.rx_line, by simp, by simp⟩
        simpa using hway
      · rw [if_neg hn]
        have hopen : c.closed = false := by
          cases hclosed : c.closed with
          | true => simp [h.closed_queue hclosed] at hqueue
          | false => rfl
        refine ⟨lost, h.emitted_eq, h.fits, h.calls_eq, ?_, h.rx_length, h.rx_line, h.open_lost, ?_⟩
        · rw [← hway]
          dsimp only
          split_ifs with hle
          · rw [List.take_of_length_le hle]
            simp
          · simp only [List.flatten_cons, List.append_assoc]
            rw [← List.append_assoc (line.take n), List.take_append_drop]
        · simp [hopen]

theorem UiOnWay.pump {c : UiChannel} {heard later : List UiEvent} {lost : Bytes}
    (h : UiOnWay c heard later lost) (n : Nat) :
    ∃ now later', later = now ++ later' ∧ UiOnWay (c.pump n) (heard ++ now) later' lost := by
  have hrx : c.rx.length ≠ rxMax - 1 := by
    have hlen : c.rx.length ≤ 512 := h.rx_length
    simp only [rxMax]
    omega
  have hlater : ∀ e ∈ later, e.Fits := by
    intro e he
    refine h.fits e ?_
    rw [h.emitted_eq]
    exact List.mem_append_right _ he
  let got := min n (rxMax - 1 - c.rx.length)
  have hpart : (c.rx ++ c.sock.take got) ++ (c.sock.drop got ++ (c.queue.flatten ++ lost)) =
      recordStream (ch '\n') (bodies later) := by
    rw [← h.way_eq, List.append_assoc, ← List.append_assoc (c.sock.take got),
      List.take_append_drop]
  obtain ⟨nowBodies, laterBodies, hsplit, hnow, hleft, hlen⟩ :=
    takeRecords_part (newline_not_mem_bodies hlater) hpart
  obtain ⟨now, later', rfl, rfl, rfl⟩ := List.map_eq_append_iff.mp hsplit
  refine ⟨now, later', rfl, ?_⟩
  simp only [UiChannel.pump, if_neg hrx]
  constructor
  · dsimp only
    rw [h.emitted_eq, List.append_assoc]
  · exact h.fits
  · have hfits : ∀ e ∈ now, e.Fits := fun e he => hlater e (List.mem_append_left _ he)
    dsimp only
    rw [hnow, h.calls_eq, List.filterMap_append]
    exact congrArg _ (feed_bodies hfits)
  · exact hleft
  · exact hlen emitMax (length_bodies hlater)
  · exact takeRecords_left _
  · exact h.open_lost
  · exact h.closed_queue

theorem UiOnWay.step {c : UiChannel} {heard later : List UiEvent} {lost : Bytes}
    (h : UiOnWay c heard later lost) {s : UiStep} (hs : ∀ e, s = .emit e → e.Fits) :
    ∃ heard' later' lost', UiOnWay (uiStep c s) heard' later' lost' := by
  cases s with
  | emit e => exact ⟨heard, _, h.emit (hs e rfl)⟩
  | write n => exact ⟨heard, later, h.write n⟩
  | writeFails => exact ⟨heard, later, h.write 0⟩
  | pump n =>
      obtain ⟨now, later', -, hpump⟩ := h.pump n
      exact ⟨_, _, _, hpump⟩

theorem UiOnWay.run {c : UiChannel} {heard later : List UiEvent} {lost : Bytes}
    (h : UiOnWay c heard later lost) {steps : List UiStep}
    (hsteps : ∀ e, .emit e ∈ steps → e.Fits) :
    ∃ heard' later' lost', UiOnWay (run uiStep c steps) heard' later' lost' := by
  induction steps generalizing c heard later lost with
  | nil => exact ⟨heard, later, lost, h⟩
  | cons s steps ih =>
      obtain ⟨heard', later', lost', hstep⟩ :=
        h.step (s := s) fun e he => hsteps e (he ▸ List.mem_cons_self)
      exact ih hstep fun e he => hsteps e (List.mem_cons_of_mem _ he)

/-- Where nothing is on the way and no write has failed, all has been heard. -/
theorem UiOnWay.all_heard {c : UiChannel} {heard later : List UiEvent} {lost : Bytes}
    (h : UiOnWay c heard later lost) (hopen : c.closed = false) (hqueue : c.queue = [])
    (hsock : c.sock = []) : later = [] := by
  have hway := h.way_eq
  rw [hqueue, hsock, h.open_lost hopen] at hway
  cases later with
  | nil => rfl
  | cons e later =>
      have hrx : c.rx = recordStream (ch '\n') (bodies (e :: later)) := by simpa using hway
      have hline := h.rx_line
      rw [hrx, bodies, List.map_cons, recordStream_cons] at hline
      exact absurd (by simp) hline

/-- Two events in three writes and one read. -/
def twoEvents : List UiStep :=
  [.emit .reset, .emit (.escalate (ascii ['n', 'o'])), .write 1, .write 7, .write 7, .pump 64]

end Ui
end Comrade
