import Comrade.Fwd.Bridge

/-!
# What a forwarded connection delivers

`Lane` is what holds of one direction, from the TCP peer of one side to that of the other, as
long as no event discards anything: what was sent is what was given and what is still to come,
and the stream is ended and the channel closed in the order the channel keeps.

* Each call is a change of one side, and so of one end of each direction (`Good.put`).
* `good_step`: an event that spares the bytes keeps both directions.
* `carried_iff_everyStep`: a run delivers everything exactly when every event of it spares
  the bytes.
* `exists_delivery`: while it does, everything sent can still be given to the other peer.
-/

namespace Comrade
namespace Fwd

open Lib

@[simp] theorem Side.other_other (s : Side) : s.other.other = s := by cases s <;> rfl

theorem Side.other_ne (s : Side) : s.other ≠ s := by cases s <;> decide

theorem Side.eq_other {s t : Side} (h : t ≠ s) : t = s.other := by
  cases s <;> cases t <;> simp_all [Side.other]

section Put

variable (f : Forward) (s : Side) (e : BridgeEnd) (toward out : List ChanMsg)

@[simp] theorem put_ends_self : (f.put s e toward out).ends s = e := if_pos rfl

@[simp] theorem put_ends_other : (f.put s e toward out).ends s.other = f.ends s.other :=
  if_neg s.other_ne

@[simp] theorem put_wire_self : (f.put s e toward out).wire s = toward := if_pos rfl

@[simp] theorem put_wire_other : (f.put s e toward out).wire s.other = out := if_neg s.other_ne

end Put

/-! ## One direction -/

/-- The side has ended its stream: by the end its socket came to, or by going down. -/
def eofOut (e : BridgeEnd) : Bool := e.sentEof || !e.used

/-- What is still to come of what `src` has sent. -/
def inFlight (src dst : BridgeEnd) (w : List ChanMsg) : Bytes :=
  if dst.used = true then dst.buf ++ dst.inbox ++ payload w ++ src.unread else []

/-- One direction of a connection that has discarded nothing. -/
structure Lane (src dst : BridgeEnd) (w : List ChanMsg) : Prop where
  carried : src.sent = dst.written ++ inFlight src dst w
  atEof : src.sentEof = true → src.eos = true ∧ src.unread = []
  downRead : src.used = false → src.unread = []
  orderly : dst.used = true → Orderly dst.remoteEof w
  ended : dst.used = true → ended dst.remoteEof w = eofOut src
  closing : dst.remoteClosed = true ∨ .close ∈ w → src.used = false
  closedEof : dst.remoteClosed = true → dst.remoteEof = true
  downEof : dst.used = false → eofOut src = true

/-- Both directions. -/
def Good (f : Forward) : Prop := ∀ s, Lane (f.ends s) (f.ends s.other) (f.wire s.other)

theorem Good.carried {f : Forward} (h : Good f) (s : Side) : Carried f s := (h s).carried

theorem good_forwardUp (window : Side → Nat) : Good (forwardUp window) := by
  intro s
  constructor <;> simp [forwardUp, bridgeUp, inFlight, Orderly, eofOut]

/-- A change of one side is to be checked against both directions. -/
theorem Good.put {f : Forward} (s : Side) {e : BridgeEnd} {toward out : List ChanMsg}
    (hout : Lane e (f.ends s.other) out) (hin : Lane (f.ends s.other) e toward) :
    Good (f.put s e toward out) := by
  intro t
  by_cases hts : t = s
  · subst hts
    simpa using hout
  · rw [Side.eq_other hts]
    simpa using hin

/-- What a call leaves of the peer's part of a side and of what it has put on its way, it
leaves of the direction that starts there. -/
theorem Lane.congr_src {src src' dst : BridgeEnd} {w : List ChanMsg} (h : Lane src dst w)
    (hsent : src'.sent = src.sent) (heos : src'.eos = src.eos) (hunread : src'.unread = src.unread)
    (hused : src'.used = src.used) (heof : src'.sentEof = src.sentEof) : Lane src' dst w := by
  have hout : eofOut src' = eofOut src := by rw [eofOut, eofOut, heof, hused]
  have hflight : inFlight src' dst w = inFlight src dst w := by rw [inFlight, inFlight, hunread]
  constructor
  · rw [hsent, hflight]
    exact h.carried
  · rw [heof, heos, hunread]
    exact h.atEof
  · rw [hused, hunread]
    exact h.downRead
  · exact h.orderly
  · rw [hout]
    exact h.ended
  · rw [hused]
    exact h.closing
  · exact h.closedEof
  · rw [hout]
    exact h.downEof

/-- The same of the direction that ends there, where all of it that was given or is in store
comes to the same. -/
theorem Lane.congr_dst {src dst dst' : BridgeEnd} {w : List ChanMsg} (h : Lane src dst w)
    (hused : dst'.used = dst.used) (heof : dst'.remoteEof = dst.remoteEof)
    (hclosed : dst'.remoteClosed = dst.remoteClosed)
    (hstore : dst.used = true →
      dst'.written ++ dst'.buf ++ dst'.inbox = dst.written ++ dst.buf ++ dst.inbox)
    (hwritten : dst.used = false → dst'.written = dst.written) : Lane src dst' w := by
  constructor
  · have hcarried := h.carried
    unfold inFlight at hcarried ⊢
    rw [hused]
    cases hdst : dst.used with
    | false =>
        rw [hdst, if_neg Bool.false_ne_true] at hcarried
        rw [if_neg Bool.false_ne_true, hwritten hdst]
        exact hcarried
    | true =>
        rw [hdst, if_pos rfl] at hcarried
        rw [if_pos rfl, hcarried]
        simp only [← List.append_assoc]
        rw [hstore hdst]
  · exact h.atEof
  · exact h.downRead
  · rw [hused, heof]
    exact h.orderly
  · rw [hused, heof]
    exact h.ended
  · rw [hclosed]
    exact h.closing
  · rw [hclosed, heof]
    exact h.closedEof
  · rw [hused]
    exact h.downEof

/-- A side that still reads its socket has the other one up, and its channel open. -/
theorem Lane.reading {src dst : BridgeEnd} {w : List ChanMsg} (h : Lane src dst w)
    (hused : src.used = true) (heof : src.sentEof = false) : dst.used = true := by
  cases hdst : dst.used with
  | true => rfl
  | false =>
      have := h.downEof hdst
      simp [eofOut, heof, hused] at this

/-! ## The calls -/

section Calls

variable {src dst : BridgeEnd} {w : List ChanMsg}

theorem refill_store (e : BridgeEnd) :
    (refill e).buf ++ (refill e).inbox = e.buf ++ e.inbox ∧ (refill e).written = e.written := by
  unfold refill
  split
  · rename_i h
    simp [h]
  · exact ⟨rfl, rfl⟩

/-- `bridge_pump_out` moves bytes from the channel to the socket and does no more. -/
theorem bridgePumpOut_spec (takes : List Nat) (e : BridgeEnd) :
    ∃ written buf inbox, bridgePumpOut takes e = { e with written, buf, inbox } ∧
      written ++ buf ++ inbox = e.written ++ e.buf ++ e.inbox := by
  have hrefill : ∀ e : BridgeEnd, ∃ buf inbox, refill e = { e with buf, inbox } ∧
      buf ++ inbox = e.buf ++ e.inbox := by
    intro e
    refine ⟨(refill e).buf, (refill e).inbox, ?_, (refill_store e).1⟩
    unfold refill
    split <;> rfl
  induction takes generalizing e with
  | nil =>
      obtain ⟨buf, inbox, heq, hstore⟩ := hrefill e
      refine ⟨e.written, buf, inbox, by rw [bridgePumpOut, heq], ?_⟩
      rw [List.append_assoc, hstore, List.append_assoc]
  | cons t rest ih =>
      obtain ⟨buf, inbox, heq, hstore⟩ := hrefill e
      rw [bridgePumpOut]
      simp only [heq]
      split
      · refine ⟨e.written, buf, inbox, rfl, ?_⟩
        rw [List.append_assoc, hstore, List.append_assoc]
      · obtain ⟨written, buf', inbox', heq', hstore'⟩ :=
          ih { e with written := e.written ++ buf.take t, buf := buf.drop t, inbox := inbox }
        refine ⟨written, buf', inbox', heq', ?_⟩
        rw [hstore']
        simp only
        rw [List.append_assoc e.written, List.take_append_drop, List.append_assoc, hstore,
          List.append_assoc]

/-- What a read finds is the front of what has not been read, and the end of the stream comes
after all of it. -/
theorem sockRead_some {e : BridgeEnd} {cap n : Nat} {r : Bytes} (hcap : cap ≠ 0)
    (h : sockRead e cap n = some r) :
    (r = [] → e.eos = true ∧ e.unread = []) ∧ r ++ e.unread.drop r.length = e.unread := by
  unfold sockRead at h
  split at h
  · rename_i hne
    split at h
    · cases h
    · rename_i hn
      obtain rfl := Option.some.inj h
      refine ⟨?_, List.prefix_iff_eq_append.mp (List.take_prefix _ _)⟩
      intro hnil
      rw [List.take_eq_nil_iff] at hnil
      rcases hnil with hmin | hnil
      · omega
      · exact absurd hnil hne
  · rename_i hnil
    split at h
    · rename_i heos
      obtain rfl := Option.some.inj h
      exact ⟨fun _ => ⟨heos.1, not_not.mp hnil⟩, rfl⟩
    · cases h

/-- `bridge_pump_in` reads the socket and puts what it found on its way. -/
theorem Lane.pumpIn (h : Lane src dst w) (hused : src.used = true)
    (hclosed : src.remoteClosed = true → dst.used = false) (n : Nat) :
    ∃ sentEof unread window out,
      bridgePumpIn n src = ({ src with sentEof, unread, window }, out) ∧
        Lane { src with sentEof, unread, window } dst (w ++ out) := by
  have hidle : Lane src dst (w ++ []) := by
    rw [List.append_nil]
    exact h
  unfold bridgePumpIn
  split
  · exact ⟨src.sentEof, src.unread, src.window, [], rfl, hidle⟩
  rename_i hsent
  rw [Bool.not_eq_true] at hsent
  split
  · exact ⟨src.sentEof, src.unread, src.window, [], rfl, hidle⟩
  rename_i hwindow
  have hup : dst.used = true := h.reading hused hsent
  have hopen : src.remoteClosed ≠ true := by
    intro hc
    rw [hclosed hc] at hup
    exact Bool.noConfusion hup
  have hended : Lib.ended dst.remoteEof w = false := by
    rw [h.ended hup]
    simp [eofOut, hsent, hused]
  have hcap : min fwdSlice src.window ≠ 0 := by
    have : 0 < fwdSlice := by decide
    omega
  have hcarried := h.carried
  rw [inFlight, if_pos hup] at hcarried
  split
  · exact ⟨src.sentEof, src.unread, src.window, [], rfl, hidle⟩
  · -- the end of the stream goes out after all that was sent
    rename_i hread
    obtain ⟨heos, hunread⟩ := (sockRead_some hcap hread).1 rfl
    refine ⟨true, src.unread, src.window, [.eof], rfl, ?_⟩
    constructor
    · simpa [inFlight, hup] using hcarried
    · exact fun _ => ⟨heos, hunread⟩
    · exact h.downRead
    · intro _
      apply (h.orderly hup).append
      rw [hended]
      exact trivial
    · simp [ended_append, eofOut]
    · simpa using h.closing
    · exact h.closedEof
    · simp [eofOut]
  · rename_i b bs hread
    have hfront := (sockRead_some hcap hread).2
    refine ⟨src.sentEof, src.unread.drop (bs.length + 1), src.window - (bs.length + 1),
      [.data (b :: bs)], if_neg hopen, ?_⟩
    constructor
    · rw [inFlight, if_pos hup, hcarried]
      rw [List.length_cons] at hfront
      simp only [payload_append, payload_data, payload_nil, List.append_nil, List.append_assoc,
        hfront]
    · intro hs
      rw [hsent] at hs
      exact Bool.noConfusion hs
    · intro hs
      rw [hused] at hs
      exact Bool.noConfusion hs
    · intro _
      apply (h.orderly hup).append
      rw [hended]
      exact trivial
    · intro _
      rw [ended_append, hended]
      simp [eofOut, hsent, hused]
    · simpa using h.closing
    · exact h.closedEof
    · intro hd
      rw [hup] at hd
      exact Bool.noConfusion hd

/-- A bridge taken down with its socket read leaves what it has put on its way. -/
theorem Lane.down_src (h : Lane src dst w) (hused : src.used = true) (hunread : src.unread = [])
    (hclosed : src.remoteClosed = true → dst.used = false) :
    Lane (bridgeDown src).1 dst (w ++ (bridgeDown src).2) := by
  have hout : dst.used = true → (bridgeDown src).2 =
      (if src.sentEof = true then [] else [ChanMsg.eof]) ++ [ChanMsg.close] := by
    intro hup
    have hopen : sshChannelIsOpen src = true := by
      cases hc : src.remoteClosed with
      | false => simp [sshChannelIsOpen, hc]
      | true =>
          rw [hclosed hc] at hup
          exact Bool.noConfusion hup
    simp [bridgeDown, hopen]
  have hended : dst.used = true → Lib.ended dst.remoteEof w = src.sentEof := by
    intro hup
    rw [h.ended hup]
    simp [eofOut, hused]
  have hcarried := h.carried
  unfold inFlight at hcarried
  constructor
  · show src.sent = _
    rw [hcarried, inFlight]
    split
    · rename_i hup
      rw [hout hup]
      cases src.sentEof <;> simp [bridgeDown, hunread]
    · rfl
  · intro hs
    exact Bool.noConfusion hs
  · exact fun _ => rfl
  · intro hup
    apply (h.orderly hup).append
    rw [hended hup, hout hup]
    cases src.sentEof <;> simp [Orderly]
  · intro hup
    rw [ended_append, hended hup, hout hup]
    cases src.sentEof <;> simp [bridgeDown, eofOut]
  · exact fun _ => rfl
  · exact h.closedEof
  · exact fun _ => rfl

/-- A bridge that the drain loop reaps with its buffer empty has been given everything. -/
theorem Lane.down_dst (h : Lane src dst w) (hused : dst.used = true) (hreaps : reaps dst = true)
    (hbuf : dst.buf = []) : Lane src (bridgeDown dst).1 w := by
  have hdrained : dst.inbox = [] ∧ dst.remoteEof = true := by
    simp only [reaps, sshChannelIsOpen, sshChannelIsEof, Bool.or_eq_true, Bool.not_not,
      Bool.and_eq_true, List.isEmpty_iff] at hreaps
    rcases hreaps with ⟨hclosed, hinbox⟩ | ⟨⟨heof, hinbox⟩, _⟩
    · exact ⟨hinbox, h.closedEof hclosed⟩
    · exact ⟨hinbox, heof⟩
  have horderly := h.orderly hused
  have hended := h.ended hused
  rw [hdrained.2] at horderly hended
  rw [ended_true] at hended
  have hunread : src.unread = [] := by
    cases hs : src.sentEof with
    | true => exact (h.atEof hs).2
    | false =>
        apply h.downRead
        simpa [eofOut, hs] using hended.symm
  constructor
  · have hcarried := h.carried
    rw [inFlight, if_pos hused, hbuf, hdrained.1, payload_of_orderly horderly, hunread] at hcarried
    simpa [inFlight, bridgeDown] using hcarried
  · exact h.atEof
  · exact h.downRead
  · intro hup
    exact Bool.noConfusion hup
  · intro hup
    exact Bool.noConfusion hup
  · intro hc
    exact h.closing (hc.imp (fun hc => Bool.noConfusion hc) id)
  · intro hc
    exact Bool.noConfusion hc
  · exact fun _ => hended.symm

/-- A message arrives at a bridge in use. -/
theorem Lane.receive {m : ChanMsg} (h : Lane src dst (m :: w)) (hused : dst.used = true) :
    Lane src (Fwd.receive m dst) w := by
  have hclosing : ChanMsg.close ∈ w → src.used = false :=
    fun hc => h.closing (Or.inr (List.mem_cons_of_mem _ hc))
  have hcarried := h.carried
  have horderly := h.orderly hused
  have hended := h.ended hused
  rw [inFlight, if_pos hused] at hcarried
  cases m with
  | data b =>
      cases heof : dst.remoteEof with
      | true =>
          rw [heof] at horderly
          exact False.elim horderly
      | false =>
          refine ⟨?_, h.atEof, h.downRead, ?_, ?_, ?_, h.closedEof, h.downEof⟩
          · simpa [inFlight, Fwd.receive, hused] using hcarried
          · intro _
            rw [heof] at horderly
            show Orderly dst.remoteEof w
            rw [heof]
            exact horderly
          · intro _
            rw [ended_data] at hended
            exact hended
          · exact fun hc => hc.elim (fun hc => h.closing (Or.inl hc)) hclosing
  | eof =>
      cases heof : dst.remoteEof with
      | true =>
          rw [heof] at horderly
          exact False.elim horderly
      | false =>
          refine ⟨?_, h.atEof, h.downRead, ?_, ?_, ?_, fun _ => rfl, h.downEof⟩
          · simpa [inFlight, Fwd.receive, hused] using hcarried
          · intro _
            rw [heof] at horderly
            exact horderly
          · intro _
            rw [ended_eof] at hended
            simpa [Fwd.receive] using hended
          · exact fun hc => hc.elim (fun hc => h.closing (Or.inl hc)) hclosing
  | close =>
      cases heof : dst.remoteEof with
      | false =>
          rw [heof] at horderly
          exact False.elim horderly
      | true =>
          refine ⟨?_, h.atEof, h.downRead, ?_, ?_, ?_, fun _ => heof, h.downEof⟩
          · simpa [inFlight, Fwd.receive, hused] using hcarried
          · intro _
            rw [heof] at horderly
            show Orderly dst.remoteEof w
            rw [heof]
            exact horderly
          · intro _
            rw [ended_close] at hended
            exact hended
          · exact fun _ => h.closing (Or.inr List.mem_cons_self)

/-- A message that arrives at a channel that was freed is gone. -/
theorem Lane.discard {m : ChanMsg} (h : Lane src dst (m :: w)) (hdown : dst.used = false) :
    Lane src dst w := by
  have hup : ¬dst.used = true := by simp [hdown]
  refine ⟨?_, h.atEof, h.downRead, fun hu => absurd hu hup, fun hu => absurd hu hup, ?_,
    h.closedEof, h.downEof⟩
  · have hcarried := h.carried
    rw [inFlight, if_neg hup] at hcarried
    rw [inFlight, if_neg hup]
    exact hcarried
  · exact fun hc => h.closing (hc.imp id (List.mem_cons_of_mem _))

/-- The TCP peer sends, to a socket or after its end. -/
theorem Lane.send (h : Lane src dst w) {b : Bytes}
    (hb : src.used = true ∨ src.eos = true ∨ b = []) : Lane (peerSend b src) dst w := by
  unfold peerSend
  split
  · exact h
  rename_i heos
  have hsent : src.sentEof = false := by
    cases hs : src.sentEof with
    | false => rfl
    | true => exact absurd (h.atEof hs).1 heos
  have hcarried := h.carried
  unfold inFlight at hcarried
  constructor
  · show src.sent ++ b = _
    rw [hcarried, inFlight]
    cases hused : src.used with
    | true => simp [h.reading hused hsent]
    | false =>
        have hnil : b = [] := by simpa [hused, heos] using hb
        simp [hnil]
  · intro hs
    rw [hsent] at hs
    exact Bool.noConfusion hs
  · intro hused
    have hdown : ¬src.used = true := by simpa using hused
    show (if src.used = true then _ else _) = _
    rw [if_neg hdown]
    exact h.downRead hused
  · exact h.orderly
  · exact h.ended
  · exact h.closing
  · exact h.closedEof
  · exact h.downEof

/-- The TCP peer ends its stream. -/
theorem Lane.eos (h : Lane src dst w) : Lane { src with eos := true } dst w :=
  { h with atEof := fun hs => ⟨rfl, (h.atEof hs).2⟩ }

end Calls

/-! ## Both directions, over runs -/

/-- A call keeps both directions if it keeps them of a bridge in use. -/
theorem Good.call {f : Forward} (h : Good f) {s : Side} {g : BridgeEnd → BridgeEnd × List ChanMsg}
    (hout : (f.ends s).used = true →
      Lane (g (f.ends s)).1 (f.ends s.other) (f.wire s.other ++ (g (f.ends s)).2))
    (hin : (f.ends s).used = true → Lane (f.ends s.other) (g (f.ends s)).1 (f.wire s)) :
    Good (call f s g) := by
  unfold Fwd.call
  split
  · exact h
  · rename_i hused
    rw [Bool.not_eq_false] at hused
    exact Good.put s (hout hused) (hin hused)

/-- An event that spares the bytes keeps both directions. -/
theorem good_step {f : Forward} (h : Good f) {e : ForwardIn} (hspares : Spares f e) :
    Good (forwardStep f e) := by
  have hfrom : ∀ s, Lane (f.ends s.other) (f.ends s) (f.wire s) := by
    intro s
    have := h s.other
    rwa [Side.other_other] at this
  -- a channel closed by the peer has the peer's bridge down
  have hclosed : ∀ s, (f.ends s).remoteClosed = true → (f.ends s.other).used = false :=
    fun s hc => (hfrom s).closing (Or.inl hc)
  cases e with
  | send s b =>
      refine Good.put s ((h s).send hspares) ((hfrom s).congr_dst ?_ ?_ ?_ ?_ ?_) <;>
        unfold peerSend <;> split <;> simp
  | eos s =>
      exact Good.put s (h s).eos
        ((hfrom s).congr_dst rfl rfl rfl (fun _ => rfl) fun _ => rfl)
  | pumpIn s n =>
      apply h.call
      · intro hused
        obtain ⟨sentEof, unread, window, out, heq, hlane⟩ := (h s).pumpIn hused (hclosed s) n
        rw [heq]
        exact hlane
      · intro hused
        obtain ⟨sentEof, unread, window, out, heq, _⟩ := (h s).pumpIn hused (hclosed s) n
        rw [heq]
        exact (hfrom s).congr_dst rfl rfl rfl (fun _ => rfl) fun _ => rfl
  | pumpOut s takes =>
      obtain ⟨written, buf, inbox, heq, hstore⟩ := bridgePumpOut_spec takes (f.ends s)
      apply h.call
      · intro _
        rw [heq, List.append_nil]
        exact (h s).congr_src rfl rfl rfl rfl rfl
      · intro hused
        rw [heq]
        refine (hfrom s).congr_dst rfl rfl rfl (fun _ => hstore) ?_
        intro hdown
        rw [hused] at hdown
        exact Bool.noConfusion hdown
  | reap s =>
      apply h.call
      · intro hused
        unfold reap
        split
        · rename_i hreaps
          exact (h s).down_src hused (hspares hused hreaps).1 (hclosed s)
        · rw [List.append_nil]
          exact h s
      · intro hused
        unfold reap
        split
        · rename_i hreaps
          exact (hfrom s).down_dst hused hreaps (hspares hused hreaps).2
        · exact hfrom s
  | arrive s =>
      have hlane := hfrom s
      rw [forwardStep]
      split
      · exact h
      · rename_i m rest hwire
        rw [hwire] at hlane
        cases hused : (f.ends s).used with
        | true =>
            rw [if_pos rfl]
            refine Good.put s ((h s).congr_src ?_ ?_ ?_ ?_ ?_) (hlane.receive hused) <;>
              cases m <;> rfl
        | false =>
            rw [if_neg Bool.false_ne_true]
            exact Good.put s (h s) (hlane.discard hused)
  | adjust s n =>
      apply h.call
      · intro _
        rw [List.append_nil]
        exact (h s).congr_src rfl rfl rfl rfl rfl
      · intro _
        exact (hfrom s).congr_dst rfl rfl rfl (fun _ => rfl) fun _ => rfl

/-- Over a run whose events all spare the bytes, both directions hold at its end. -/
theorem good_run {f : Forward} (hf : Good f) {events : List ForwardIn}
    (h : EveryStep forwardStep Spares f events) : Good (run forwardStep f events) :=
  run_invariant_of_everyStep (I := Good) (fun _ _ hI hG => good_step hI hG) hf h

/-- An event that does not spare the bytes loses some. -/
theorem spares_of_carried {f : Forward} (h : Good f) {e : ForwardIn}
    (hnext : ∀ s, Carried (forwardStep f e) s) : Spares f e := by
  cases e with
  | send s b =>
      by_contra hspares
      simp only [Spares, not_or, Bool.not_eq_true] at hspares
      obtain ⟨hused, heos, hb⟩ := hspares
      have hafter := hnext s
      have hbefore := (h s).carried
      simp only [Carried, Forward.pending, forwardStep, peerSend, put_ends_self, put_ends_other,
        put_wire_other, heos, hused, Bool.false_eq_true, if_false] at hafter
      rw [hbefore] at hafter
      simp only [inFlight, List.append_assoc, List.append_cancel_left_eq] at hafter
      have hlen := congrArg List.length hafter
      rw [List.length_append] at hlen
      exact hb (List.eq_nil_of_length_eq_zero (by omega))
  | reap s =>
      intro hused hreaps
      have hstep : forwardStep f (.reap s) =
          f.put s (bridgeDown (f.ends s)).1 (f.wire s)
            (f.wire s.other ++ (bridgeDown (f.ends s)).2) := by
        simp [forwardStep, call, hused, reap, hreaps]
      constructor
      · -- what was left in the socket
        by_contra hunread
        have hsent : (f.ends s).sentEof = false := by
          cases hs : (f.ends s).sentEof with
          | false => rfl
          | true => exact absurd ((h s).atEof hs).2 hunread
        have hup := (h s).reading hused hsent
        have hafter := hnext s
        have hbefore := (h s).carried
        have hout : payload (bridgeDown (f.ends s)).2 = [] := by
          unfold bridgeDown
          split
          · split <;> rfl
          · rfl
        rw [hstep] at hafter
        simp only [Carried, Forward.pending, put_ends_self, put_ends_other, put_wire_other, hup,
          if_true, payload_append, hout, List.append_nil] at hafter
        rw [inFlight, if_pos hup] at hbefore
        have hlen := congrArg List.length (hbefore.symm.trans hafter)
        simp only [bridgeDown, List.append_nil, List.length_append] at hlen
        exact hunread (List.eq_nil_of_length_eq_zero (by omega))
      · -- what the socket had not taken
        by_contra hbuf
        have hafter := hnext s.other
        have hbefore := (h s.other).carried
        rw [hstep] at hafter
        simp only [Carried, Forward.pending, put_ends_self, put_ends_other, Side.other_other]
          at hafter
        rw [Side.other_other, inFlight, if_pos hused] at hbefore
        have hlen := congrArg List.length (hbefore.symm.trans hafter)
        simp only [bridgeDown, Bool.false_eq_true, if_false, List.append_nil, List.length_append]
          at hlen
        exact hbuf (List.eq_nil_of_length_eq_zero (by omega))
  | eos => trivial
  | pumpIn => trivial
  | pumpOut => trivial
  | arrive => trivial
  | adjust => trivial

/-! ## What is still to come can be given -/

/-- A run of nothing but ticks and the channel. -/
inductive Ticks : List ForwardIn → Prop
  | nil : Ticks []
  | tick (s : Side) (reads takes : List Nat) {rest : List ForwardIn} (h : Ticks rest) :
      Ticks (tick s reads takes ++ rest)
  | arrive (s : Side) {rest : List ForwardIn} (h : Ticks rest) : Ticks (.arrive s :: rest)
  | adjust (s : Side) (n : Nat) {rest : List ForwardIn} (h : Ticks rest) :
      Ticks (.adjust s n :: rest)

theorem Ticks.append {es es' : List ForwardIn} (h : Ticks es) (h' : Ticks es') :
    Ticks (es ++ es') := by
  induction h with
  | nil => exact h'
  | tick s reads takes _ ih =>
      rw [List.append_assoc]
      exact .tick s reads takes ih
  | arrive s _ ih => exact .arrive s ih
  | adjust s n _ ih => exact .adjust s n ih

/-- One byte read from the socket. -/
theorem bridgePumpIn_one {e : BridgeEnd} {b : UInt8} {rest : Bytes} (hsent : e.sentEof = false)
    (hclosed : e.remoteClosed = false) (hwindow : e.window ≠ 0) (hunread : e.unread = b :: rest) :
    bridgePumpIn 1 e = ({ e with unread := rest, window := e.window - 1 }, [ChanMsg.data [b]]) := by
  have hmin : min (min fwdSlice e.window) 1 = 1 := by
    have : 0 < fwdSlice := by decide
    omega
  simp [bridgePumpIn, sockRead, hsent, hclosed, hwindow, hunread, hmin]

/-- As many reads as there are bytes empty the socket. -/
theorem run_pumpIn {s : Side} {n : Nat} {f : Forward} (hused : (f.ends s).used = true)
    (hsent : n ≠ 0 → (f.ends s).sentEof = false) (hclosed : n ≠ 0 → (f.ends s).remoteClosed = false)
    (hwindow : n ≤ (f.ends s).window) (hunread : (f.ends s).unread.length = n) :
    ∃ window, ((run forwardStep f (List.replicate n (.pumpIn s 1))).ends s) =
        { f.ends s with unread := [], window } ∧
      (run forwardStep f (List.replicate n (.pumpIn s 1))).ends s.other = f.ends s.other ∧
      (run forwardStep f (List.replicate n (.pumpIn s 1))).wire s = f.wire s := by
  induction n generalizing f with
  | zero =>
      have hnil := List.eq_nil_of_length_eq_zero hunread
      exact ⟨(f.ends s).window, by rw [← hnil]; rfl, rfl, rfl⟩
  | succ n ih =>
      have hs := hsent (by omega)
      have hc := hclosed (by omega)
      obtain ⟨b, rest, hcons⟩ := List.exists_cons_of_length_eq_add_one hunread
      have hstep : forwardStep f (.pumpIn s 1) =
          f.put s { f.ends s with unread := rest, window := (f.ends s).window - 1 } (f.wire s)
            (f.wire s.other ++ [ChanMsg.data [b]]) := by
        simp [forwardStep, call, hused, bridgePumpIn_one hs hc (by omega) hcons]
      rw [List.replicate_succ, run_cons, hstep]
      have hlen : rest.length = n := by simpa [hcons] using hunread
      obtain ⟨window, hself, hother, hwire⟩ := ih (f := f.put s
          { f.ends s with unread := rest, window := (f.ends s).window - 1 } (f.wire s)
            (f.wire s.other ++ [ChanMsg.data [b]]))
        (by simpa using hused) (fun _ => by simpa using hs) (fun _ => by simpa using hc)
        (by simp; omega) (by simpa using hlen)
      refine ⟨window, ?_, ?_, ?_⟩
      · rw [hself]
        simp
      · rw [hother]
        simp
      · rw [hwire]
        simp

theorem refill_empty {e : BridgeEnd} (h : (refill e).buf = []) : (refill e).inbox = [] := by
  unfold refill at h ⊢
  split at h
  · rename_i hbuf
    rw [if_pos hbuf]
    rw [List.take_eq_nil_iff] at h
    rcases h with h | h
    · exact absurd h (by decide)
    · show e.inbox.drop fwdBuf = []
      rw [h, List.drop_nil]
  · rename_i hbuf
    exact absurd h hbuf

/-- As many writes as there are bytes empty the buffer and the channel. -/
theorem bridgePumpOut_drains {m : Nat} {e : BridgeEnd} (h : e.buf.length + e.inbox.length ≤ m) :
    (bridgePumpOut (List.replicate m 1) e).buf = [] ∧
      (bridgePumpOut (List.replicate m 1) e).inbox = [] := by
  have hrefill : ∀ e : BridgeEnd,
      (refill e).buf.length + (refill e).inbox.length = e.buf.length + e.inbox.length := by
    intro e
    rw [← List.length_append, (refill_store e).1, List.length_append]
  induction m generalizing e with
  | zero =>
      have hlen := hrefill e
      have hbuf : (refill e).buf = [] := List.eq_nil_of_length_eq_zero (by omega)
      exact ⟨hbuf, refill_empty hbuf⟩
  | succ m ih =>
      rw [List.replicate_succ, bridgePumpOut]
      split
      · rename_i hstop
        have hbuf : (refill e).buf = [] := hstop.resolve_right (by decide)
        exact ⟨hbuf, refill_empty hbuf⟩
      · rename_i hgo
        rw [not_or] at hgo
        apply ih
        have hlen := hrefill e
        have hpos := List.length_pos_of_ne_nil hgo.1
        simp only [List.length_drop]
        omega

/-- As many arrivals as there are messages leave none on the way. -/
theorem run_arrive {s : Side} {f : Forward} :
    (run forwardStep f (List.replicate (f.wire s).length (.arrive s))).wire s = [] ∧
      (run forwardStep f (List.replicate (f.wire s).length (.arrive s))).ends s.other =
        f.ends s.other := by
  generalize hw : f.wire s = w
  induction w generalizing f with
  | nil => exact ⟨hw, rfl⟩
  | cons m rest ih =>
      have hstep : forwardStep f (.arrive s) =
          f.put s (if (f.ends s).used = true then receive m (f.ends s) else f.ends s) rest
            (f.wire s.other) := by
        rw [forwardStep, hw]
      rw [List.length_cons, List.replicate_succ, run_cons, hstep]
      obtain ⟨hwire, hother⟩ := ih (f := f.put s
        (if (f.ends s).used = true then receive m (f.ends s) else f.ends s) rest
          (f.wire s.other)) (by simp)
      exact ⟨hwire, by rw [hother]; simp⟩

theorem sent_call {f : Forward} {t : Side} {g : BridgeEnd → BridgeEnd × List ChanMsg}
    (hg : ∀ e, (g e).1.sent = e.sent) (s : Side) :
    ((call f t g).ends s).sent = (f.ends s).sent := by
  unfold call
  split
  · rfl
  · by_cases hst : s = t
    · subst hst
      rw [put_ends_self, hg]
    · rw [Side.eq_other hst, put_ends_other]

theorem sent_bridgePumpIn (n : Nat) (e : BridgeEnd) : (bridgePumpIn n e).1.sent = e.sent := by
  unfold bridgePumpIn
  repeat' split
  all_goals rfl

/-- Only its TCP peer sends for a side. -/
theorem sent_forwardStep (f : Forward) {e : ForwardIn} (he : ∀ t b, e ≠ .send t b) (s : Side) :
    ((forwardStep f e).ends s).sent = (f.ends s).sent := by
  have hput : ∀ t (e' : BridgeEnd) (toward out : List ChanMsg), e'.sent = (f.ends t).sent →
      ((f.put t e' toward out).ends s).sent = (f.ends s).sent := by
    intro t e' toward out hsent
    by_cases hst : s = t
    · subst hst
      rw [put_ends_self, hsent]
    · rw [Side.eq_other hst, put_ends_other]
  cases e with
  | send t b => exact absurd rfl (he t b)
  | eos t => exact hput t _ _ _ rfl
  | pumpIn t n => exact sent_call (sent_bridgePumpIn n) s
  | pumpOut t takes =>
      apply sent_call
      intro e
      obtain ⟨written, buf, inbox, heq, _⟩ := bridgePumpOut_spec takes e
      rw [heq]
  | reap t =>
      apply sent_call
      intro e
      unfold reap
      split <;> rfl
  | arrive t =>
      rw [forwardStep]
      split
      · rfl
      · apply hput
        split
        · rename_i m _ _ _
          cases m <;> rfl
        · rfl
  | adjust t n => exact sent_call (fun _ => rfl) s

theorem Ticks.no_send {es : List ForwardIn} (h : Ticks es) : ∀ e ∈ es, ∀ t b, e ≠ .send t b := by
  induction h with
  | nil => simp
  | tick s reads takes _ ih =>
      intro e he t b
      rcases List.mem_append.mp he with he | he
      · simp only [Fwd.tick, List.mem_append, List.mem_map, List.mem_cons, List.not_mem_nil,
          or_false] at he
        rintro rfl
        simp at he
      · exact ih e he t b
  | arrive s _ ih => simpa using ih
  | adjust s n _ ih => simpa using ih

/-- What a side has sent stays what it has sent, whatever ticks there are. -/
theorem sent_ticks {es : List ForwardIn} (h : Ticks es) (f : Forward) (s : Side) :
    ((run forwardStep f es).ends s).sent = (f.ends s).sent := by
  have hfree := h.no_send
  exact run_invariant_of_mem (I := fun g => (g.ends s).sent = (f.ends s).sent)
    (G := fun e => ∀ t b, e ≠ ForwardIn.send t b)
    (fun g _ hI he => (sent_forwardStep g he s).trans hI) rfl hfree

/-- A tick of a side that leaves nothing in its socket, its buffer and its end of the
channel. -/
theorem exists_round {f : Forward} (h : Good f) (s : Side) :
    ∃ more, Ticks more ∧ Good (run forwardStep f more) ∧
      (run forwardStep f more).ends s.other = f.ends s.other ∧
      (run forwardStep f more).wire s = f.wire s ∧
      ((run forwardStep f more).ends s).unread = [] ∧
      (((run forwardStep f more).ends s).used = true →
        ((run forwardStep f more).ends s).buf = [] ∧
          ((run forwardStep f more).ends s).inbox = []) := by
  cases hused : (f.ends s).used with
  | false =>
      refine ⟨[], .nil, h, rfl, rfl, (h s).downRead hused, ?_⟩
      intro hup
      rw [run_nil, hused] at hup
      exact Bool.noConfusion hup
  | true =>
      set n := (f.ends s).unread.length with hn
      set m := (f.ends s).buf.length + (f.ends s).inbox.length with hm
      refine ⟨.adjust s n :: (tick s (List.replicate n 1) (List.replicate m 1) ++ []),
        .adjust s n (.tick s _ _ .nil), ?_⟩
      -- the window grows, and the socket is read to the end
      set f1 := forwardStep f (.adjust s n) with hf1
      have hgood1 : Good f1 := good_step h (e := .adjust s n) trivial
      have heq1 : f1 = f.put s { f.ends s with window := (f.ends s).window + n } (f.wire s)
          (f.wire s.other) := by
        simp [hf1, forwardStep, call, hused]
      have hreading : n ≠ 0 → (f.ends s).sentEof = false ∧ (f.ends s).remoteClosed = false := by
        intro hne
        have hsent : (f.ends s).sentEof = false := by
          cases hs : (f.ends s).sentEof with
          | false => rfl
          | true => exact absurd (by simp [hn, ((h s).atEof hs).2]) hne
        refine ⟨hsent, ?_⟩
        have hup := (h s).reading hused hsent
        have hback := h s.other
        rw [Side.other_other] at hback
        cases hc : (f.ends s).remoteClosed with
        | false => rfl
        | true =>
            rw [hback.closing (Or.inl hc)] at hup
            exact Bool.noConfusion hup
      obtain ⟨window, hself2, hother2, hwire2⟩ := run_pumpIn (s := s) (n := n) (f := f1)
        (by simpa [heq1] using hused) (fun hne => by simpa [heq1] using (hreading hne).1)
        (fun hne => by simpa [heq1] using (hreading hne).2) (by simp [heq1]) (by simp [heq1, hn])
      set f2 := run forwardStep f1 (List.replicate n (.pumpIn s 1)) with hf2
      have hgood2 : Good f2 := by
        apply good_run hgood1
        apply everyStep_of_mem
        intro e he g
        rw [List.eq_of_mem_replicate he]
        trivial
      -- the socket takes all there is
      have hdrain := bridgePumpOut_drains (m := m) (e := f2.ends s) (by simp [hself2, heq1, hm])
      obtain ⟨written, buf, inbox, heq3, _⟩ :=
        bridgePumpOut_spec (List.replicate m 1) (f2.ends s)
      set e3 := bridgePumpOut (List.replicate m 1) (f2.ends s) with he3
      have hused3 : e3.used = true := by simp [heq3, hself2, heq1, hused]
      have hunread3 : e3.unread = [] := by simp [heq3, hself2]
      set f3 := forwardStep f2 (.pumpOut s (List.replicate m 1)) with hf3
      have hgood3 : Good f3 := good_step hgood2 (e := .pumpOut s _) trivial
      have hf3eq : f3 = f2.put s e3 (f2.wire s) (f2.wire s.other) := by
        have hused2 : (f2.ends s).used = true := by simp [hself2, heq1, hused]
        simp [hf3, forwardStep, call, hused2, he3]
      have hrun : run forwardStep f
          (.adjust s n :: (tick s (List.replicate n 1) (List.replicate m 1) ++ [])) =
            forwardStep f3 (.reap s) := by
        simp [tick, run, hf3, hf2, hf1, List.foldl_append]
      have hlast : forwardStep f3 (.reap s) =
          f3.put s (reap e3).1 (f3.wire s) (f3.wire s.other ++ (reap e3).2) := by
        simp [forwardStep, call, hf3eq, hused3]
      rw [hrun]
      refine ⟨?_, ?_, ?_, ?_, ?_⟩
      · apply good_step hgood3
        intro _ _
        rw [hf3eq, put_ends_self]
        exact ⟨hunread3, hdrain.1⟩
      · rw [hlast, put_ends_other, hf3eq, put_ends_other, hother2, heq1, put_ends_other]
      · rw [hlast, put_wire_self, hf3eq, put_wire_self, hwire2, heq1, put_wire_self]
      · rw [hlast, put_ends_self, reap]
        split
        · rfl
        · exact hunread3
      · intro _
        rw [hlast, put_ends_self, reap]
        split
        · exact ⟨rfl, rfl⟩
        · exact hdrain

/-- While nothing has been discarded, ticks of the two sides give the other TCP peer all that
one has sent. -/
theorem exists_delivery {f : Forward} (h : Good f) (s : Side) :
    ∃ more, Ticks more ∧
      ((run forwardStep f more).ends s.other).written = (f.ends s).sent := by
  obtain ⟨more1, hticks1, hgood1, hother1, hwire1, hunread1, _⟩ := exists_round h s
  set f1 := run forwardStep f more1 with hf1
  obtain ⟨hwire2, hself2⟩ := run_arrive (s := s.other) (f := f1)
  rw [Side.other_other] at hself2
  set more2 := List.replicate (f1.wire s.other).length (ForwardIn.arrive s.other) with hmore2
  have hticks2 : Ticks more2 := by
    rw [hmore2]
    generalize (f1.wire s.other).length = k
    induction k with
    | zero => exact .nil
    | succ k ih => exact .arrive _ ih
  set f2 := run forwardStep f1 more2 with hf2
  have hgood2 : Good f2 := by
    apply good_run hgood1
    apply everyStep_of_mem
    intro e he g
    rw [List.eq_of_mem_replicate he]
    trivial
  obtain ⟨more3, hticks3, hgood3, hother3, hwire3, _, hdrained3⟩ := exists_round hgood2 s.other
  rw [Side.other_other] at hother3
  refine ⟨more1 ++ (more2 ++ more3), hticks1.append (hticks2.append hticks3), ?_⟩
  have hrun : run forwardStep f (more1 ++ (more2 ++ more3)) = run forwardStep f2 more3 := by
    simp [run, hf1, hf2, List.foldl_append]
  have hsent := sent_ticks (hticks1.append (hticks2.append hticks3)) f s
  have hcarried := (hgood3 s).carried
  rw [hrun] at hsent ⊢
  rw [← hsent, hcarried, inFlight]
  split
  · rename_i hup
    obtain ⟨hbuf, hinbox⟩ := hdrained3 hup
    simp [hbuf, hinbox, hwire3, hwire2, hother3, hself2, hunread1]
  · rw [List.append_nil]

/-- What a forwarded connection is for: all that a TCP peer has sent was given to the other one
or is still to come, in order, and it can be given. -/
structure Delivers (f : Forward) : Prop where
  carried : ∀ s, Carried f s
  given : ∀ s, ∃ more, Ticks more ∧
    ((run forwardStep f more).ends s.other).written = (f.ends s).sent

theorem Good.delivers {f : Forward} (h : Good f) : Delivers f := ⟨h.carried, exists_delivery h⟩

/-- A connection delivers both directions in every state of a run exactly when every event of
the run spares the bytes. -/
theorem delivers_iff_everyStep (window : Side → Nat) (events : List ForwardIn) :
    (∀ pre, pre <+: events → Delivers (run forwardStep (forwardUp window) pre)) ↔
      EveryStep forwardStep Spares (forwardUp window) events := by
  have hup := good_forwardUp window
  constructor
  · intro h
    induction events using List.reverseRecOn with
    | nil => trivial
    | append_singleton events e ih =>
        have hprev := ih fun pre hpre => h pre (hpre.trans (List.prefix_append _ _))
        refine hprev.concat (spares_of_carried (good_run hup hprev) ?_)
        intro s
        have hlast := (h (events ++ [e]) List.prefix_rfl).carried s
        rwa [run_concat] at hlast
  · intro h pre hpre
    exact (good_run hup (h.of_prefix hpre)).delivers

/-- A request, its end, and the answer to it: the host's bridge is reaped on the end of the
request, before the answer. -/
def halfClosed : List ForwardIn :=
  [.send .client [1], .eos .client] ++ tick .client [1, 1] [] ++
    [.arrive .host, .arrive .host] ++ tick .host [1] [1] ++ [.send .host [2]]

/-- The answer is lost. -/
theorem delivers_halfClosed : ¬∀ (window : Side → Nat) (events : List ForwardIn),
    Delivers (run forwardStep (forwardUp window) events) := by
  intro h
  have hcarried := (h (fun _ => 64000) halfClosed).carried .host
  revert hcarried
  decide

end Fwd
end Comrade
