import Comrade.Lib.Run
import Comrade.Lib.Bytes

/-!
# Framing of the control stream

The control channel is a stream of bytes that carries frames: a type, the length of
the payload and the payload (`ctlproto.c`).  A read yields whatever part of the stream
has arrived, so that the receiver keeps the beginning of a frame until the rest comes.

* `reframeLoop` takes the whole frames off the front of the buffer; a length that no
  sender writes drops everything.
* `reframeLoop_part`: on a part of a stream of frames it takes the frames that are
  whole, and leaves less than a frame.
* `reframe_stream`: however the stream is cut into reads, the frames come out as they
  were written; and whatever the bytes are, the buffer and the payloads keep their
  bounds.
-/

namespace Comrade
namespace Carrier

open Lib

/-- `CTL_HDR`. -/
def ctlHdr : Nat := 2

/-- `CTL_KEY_PLEN`. -/
def ctlKeyPlen : Nat := 32

/-- `CTL_FRAME_MAX`. -/
def ctlFrameMax : Nat := ctlHdr + ctlKeyPlen

/-- The size of the reframer's buffer. -/
def ctlBufMax : Nat := 128

/-- The size of the buffer that `ctl_readable` reads into. -/
def ctlReadMax : Nat := 64

/-- A frame, as it is handed to the callback. -/
structure CtlMsg where
  type : UInt8
  payload : Bytes
  deriving DecidableEq, Repr

/-- `ctl_frame`; none where it returns 0. -/
def ctlFrame (type : Int) (payload : Bytes) : Option Bytes :=
  if payload.length > ctlFrameMax - ctlHdr then none
  else some (UInt8.ofInt type :: UInt8.ofNat payload.length :: payload)

/-- `struct ctl_reframer`: the bytes of the buffer that are held. -/
structure CtlReframer where
  held : Bytes
  deriving DecidableEq, Repr

/-- A reframer as `memset` leaves it. -/
def ctlReframerZero : CtlReframer := { held := [] }

/-- The loop of `ctl_reframer_feed`, on what is left of the buffer: what it leaves, and
the frames it hands over. -/
def reframeLoop : Bytes → Bytes × List CtlMsg
  | type :: plen :: rest =>
      -- a length that the writer never sends: the stream is lost, and with it what is held
      if ctlHdr + plen.toNat > ctlFrameMax then ([], [])
      else if rest.length < plen.toNat then (type :: plen :: rest, [])
      else
        let r := reframeLoop (rest.drop plen.toNat)
        (r.1, { type := type, payload := rest.take plen.toNat } :: r.2)
  | b => (b, [])
termination_by b => b.length
decreasing_by
  rw [List.length_drop, List.length_cons, List.length_cons]
  omega

/-- The buffer as the loop finds it; none for a feed that is dropped whole.  A feed
that would overflow the buffer drops the partial frame that is held. -/
def reframerLoad (r : CtlReframer) (input : Bytes) : Option Bytes :=
  if input.length > ctlBufMax then none
  else if r.held.length + input.length > ctlBufMax then some input
  else some (r.held ++ input)

/-- `ctl_reframer_feed`. -/
def ctlReframerFeed (r : CtlReframer) (input : Bytes) : CtlReframer × List CtlMsg :=
  match reframerLoad r input with
  | none => (r, [])
  | some b => ({ held := (reframeLoop b).1 }, (reframeLoop b).2)

/-- One feed after another, and the frames they hand over. -/
def reframerFeeds : CtlReframer → List Bytes → CtlReframer × List CtlMsg
  | r, [] => (r, [])
  | r, input :: inputs =>
      let now := ctlReframerFeed r input
      let later := reframerFeeds now.1 inputs
      (later.1, now.2 ++ later.2)

/-! ## The loop -/

theorem reframeLoop_short {b : Bytes} (h : b.length < ctlHdr) : reframeLoop b = (b, []) := by
  rcases b with _ | ⟨x, _ | ⟨y, rest⟩⟩
  · rw [reframeLoop]
    simp
  · rw [reframeLoop]
    simp
  · simp [ctlHdr] at h

theorem reframeLoop_header (type plen : UInt8) (rest : Bytes) :
    reframeLoop (type :: plen :: rest) =
      if ctlHdr + plen.toNat > ctlFrameMax then ([], [])
      else if rest.length < plen.toNat then (type :: plen :: rest, [])
      else
        ((reframeLoop (rest.drop plen.toNat)).1,
          { type := type, payload := rest.take plen.toNat } ::
            (reframeLoop (rest.drop plen.toNat)).2) := by
  rw [reframeLoop]

theorem reframeLoop_oversize {type plen : UInt8} (rest : Bytes)
    (h : ctlHdr + plen.toNat > ctlFrameMax) : reframeLoop (type :: plen :: rest) = ([], []) := by
  rw [reframeLoop_header, if_pos h]

theorem reframeLoop_cut {type plen : UInt8} {rest : Bytes}
    (h : ctlHdr + plen.toNat ≤ ctlFrameMax) (hrest : rest.length < plen.toNat) :
    reframeLoop (type :: plen :: rest) = (type :: plen :: rest, []) := by
  rw [reframeLoop_header, if_neg (not_lt.mpr h), if_pos hrest]

theorem reframeLoop_whole {type plen : UInt8} {rest : Bytes}
    (h : ctlHdr + plen.toNat ≤ ctlFrameMax) (hrest : plen.toNat ≤ rest.length) :
    reframeLoop (type :: plen :: rest) =
      ((reframeLoop (rest.drop plen.toNat)).1,
        { type := type, payload := rest.take plen.toNat } ::
          (reframeLoop (rest.drop plen.toNat)).2) := by
  rw [reframeLoop_header, if_neg (not_lt.mpr h), if_neg (not_lt.mpr hrest)]

/-- What the loop leaves and hands over came out of the buffer, and no payload is longer
than a frame allows. -/
theorem reframeLoop_bounds (b : Bytes) :
    (reframeLoop b).1.length + ctlHdr * (reframeLoop b).2.length ≤ b.length ∧
      ∀ m ∈ (reframeLoop b).2, m.payload.length ≤ ctlFrameMax - ctlHdr := by
  induction b using reframeLoop.induct with
  | case1 type plen rest hover =>
      rw [reframeLoop_oversize rest hover]
      simp
  | case2 type plen rest hok hpart =>
      rw [reframeLoop_cut (not_lt.mp hok) hpart]
      simp
  | case3 type plen rest hok hwhole ih =>
      obtain ⟨hlen, hpayload⟩ := ih
      rw [reframeLoop_whole (not_lt.mp hok) (not_lt.mp hwhole)]
      simp only [List.length_cons, List.length_drop, List.mem_cons] at hlen ⊢
      refine ⟨?_, ?_⟩
      · simp only [ctlHdr] at hlen ⊢
        omega
      · rintro m (rfl | hm)
        · simp only [List.length_take]
          omega
        · exact hpayload m hm
  | case4 b hshort =>
      have hlt : b.length < ctlHdr := by
        rcases b with _ | ⟨x, _ | ⟨y, rest⟩⟩
        · decide
        · simp [ctlHdr]
        · exact absurd rfl (hshort x y rest)
      rw [reframeLoop_short hlt]
      simp

/-! ## Streams of frames -/

/-- A frame that a sender asks for. -/
structure CtlSent where
  type : Int
  payload : Bytes

/-- The frame as the other end should see it. -/
def CtlSent.msg (m : CtlSent) : CtlMsg := { type := UInt8.ofInt m.type, payload := m.payload }

/-- The frames that `ctl_frame` builds, one by one. -/
def Framed (sent : List CtlSent) (frames : List Bytes) : Prop :=
  List.Forall₂ (fun m f => ctlFrame m.type m.payload = some f) sent frames

theorem ctlFrame_eq_some {type : Int} {payload f : Bytes} (h : ctlFrame type payload = some f) :
    payload.length ≤ ctlFrameMax - ctlHdr ∧
      f = UInt8.ofInt type :: UInt8.ofNat payload.length :: payload := by
  unfold ctlFrame at h
  split_ifs at h with hlen
  exact ⟨not_lt.mp hlen, (Option.some.inj h).symm⟩

/-- The length byte of a frame says how long its payload is. -/
theorem toNat_plen {payload : Bytes} (h : payload.length ≤ ctlFrameMax - ctlHdr) :
    (UInt8.ofNat payload.length).toNat = payload.length := by
  rw [UInt8.toNat_ofNat']
  refine Nat.mod_eq_of_lt ?_
  simp only [ctlFrameMax, ctlHdr, ctlKeyPlen] at h
  omega

/-- A whole frame at the front of the buffer is handed over. -/
theorem reframeLoop_frame {m : CtlSent} {f : Bytes} (h : ctlFrame m.type m.payload = some f)
    (rest : Bytes) :
    reframeLoop (f ++ rest) = ((reframeLoop rest).1, m.msg :: (reframeLoop rest).2) := by
  obtain ⟨hlen, rfl⟩ := ctlFrame_eq_some h
  have hplen := toNat_plen hlen
  rw [List.cons_append, List.cons_append, reframeLoop_whole, hplen, List.drop_left,
    List.take_left]
  · rfl
  · rw [hplen]
    simp only [ctlFrameMax] at hlen ⊢
    omega
  · rw [hplen, List.length_append]
    omega

/-- The beginning of a frame stays. -/
theorem reframeLoop_begun {m : CtlSent} {f b tail : Bytes} (h : ctlFrame m.type m.payload = some f)
    (hpart : b ++ tail = f) (htail : tail ≠ []) : reframeLoop b = (b, []) := by
  obtain ⟨hlen, rfl⟩ := ctlFrame_eq_some h
  have hplen := toNat_plen hlen
  rcases b with _ | ⟨x, _ | ⟨y, rest⟩⟩
  · exact reframeLoop_short (by decide)
  · exact reframeLoop_short (by simp [ctlHdr])
  · simp only [List.cons_append, List.cons.injEq] at hpart
    obtain ⟨-, rfl, hpayload⟩ := hpart
    have htail' : 0 < tail.length := List.length_pos_of_ne_nil htail
    have hsum := congrArg List.length hpayload
    rw [List.length_append] at hsum
    refine reframeLoop_cut ?_ ?_
    · rw [hplen]
      simp only [ctlFrameMax] at hlen ⊢
      omega
    · rw [hplen]
      omega

/-- Bytes that are less than a frame, and of which the loop takes nothing. -/
def Begun (b : Bytes) : Prop := b.length < ctlFrameMax ∧ reframeLoop b = (b, [])

theorem begun_nil : Begun [] := ⟨by decide, reframeLoop_short (by decide)⟩

theorem begun_of_part {m : CtlSent} {f b tail : Bytes} (h : ctlFrame m.type m.payload = some f)
    (hpart : b ++ tail = f) (htail : tail ≠ []) : Begun b := by
  refine ⟨?_, reframeLoop_begun h hpart htail⟩
  obtain ⟨hlen, hshape⟩ := ctlFrame_eq_some h
  have hsum := congrArg List.length hpart
  have hpos := List.length_pos_of_ne_nil htail
  rw [hshape, List.length_append, List.length_cons, List.length_cons] at hsum
  simp only [ctlFrameMax, ctlHdr] at hlen ⊢
  omega

/-- On a part of a stream of frames, the loop takes the frames that are whole and leaves
the beginning of the next. -/
theorem reframeLoop_part {sent : List CtlSent} {frames : List Bytes} (h : Framed sent frames)
    {b tail : Bytes} (hpart : b ++ tail = frames.flatten) :
    ∃ whole more frames', sent = whole ++ more ∧ Framed more frames' ∧
      (reframeLoop b).2 = whole.map CtlSent.msg ∧ (reframeLoop b).1 ++ tail = frames'.flatten ∧
      Begun (reframeLoop b).1 := by
  induction h generalizing b with
  | nil =>
      rw [List.flatten_nil, List.append_eq_nil_iff] at hpart
      obtain ⟨rfl, rfl⟩ := hpart
      refine ⟨[], [], [], rfl, .nil, ?_⟩
      rw [reframeLoop_short (by decide)]
      exact ⟨rfl, rfl, begun_nil⟩
  | @cons m f sent frames hf hrest ih =>
      rw [List.flatten_cons] at hpart
      rcases List.append_eq_append_iff.mp hpart with ⟨c, hf', htail⟩ | ⟨c, hb, hrest'⟩
      · by_cases hc : c = []
        · -- the part ends with the frame
          rw [hc, List.append_nil] at hf'
          rw [hc, List.nil_append] at htail
          refine ⟨[m], sent, frames, rfl, hrest, ?_⟩
          have hframe := reframeLoop_frame hf []
          rw [List.append_nil, begun_nil.2] at hframe
          rw [← hf', hframe]
          exact ⟨rfl, htail, begun_nil⟩
        · -- it ends inside the frame
          refine ⟨[], m :: sent, f :: frames, rfl, .cons hf hrest, ?_⟩
          have hbegun := begun_of_part hf hf'.symm hc
          rw [hbegun.2]
          exact ⟨rfl, by rw [hpart, List.flatten_cons], hbegun⟩
      · -- the frame is whole: on with what follows it
        obtain ⟨whole, more, frames', hsent, hmore, hout, hleft, hshort⟩ := ih hrest'.symm
        rw [hb, reframeLoop_frame hf]
        exact ⟨m :: whole, more, frames', by rw [hsent, List.cons_append], hmore,
          by rw [hout, List.map_cons], hleft, hshort⟩

/-! ## Whole streams -/

/-- What is held never exceeds the buffer. -/
theorem reframerLoad_length {r : CtlReframer} {input b : Bytes}
    (h : reframerLoad r input = some b) : b.length ≤ ctlBufMax := by
  unfold reframerLoad at h
  split_ifs at h with hbig hover
  · rw [← Option.some.inj h]
    exact not_lt.mp hbig
  · rw [← Option.some.inj h, List.length_append]
    exact not_lt.mp hover

theorem ctlReframerFeed_bounds {r : CtlReframer} (h : r.held.length ≤ ctlBufMax)
    (input : Bytes) :
    (ctlReframerFeed r input).1.held.length ≤ ctlBufMax ∧
      ctlHdr * (ctlReframerFeed r input).2.length ≤ ctlBufMax ∧
      ∀ m ∈ (ctlReframerFeed r input).2, m.payload.length ≤ ctlFrameMax - ctlHdr := by
  unfold ctlReframerFeed
  cases hload : reframerLoad r input with
  | none => exact ⟨h, by simp, by simp⟩
  | some b =>
      have hlen := reframerLoad_length hload
      obtain ⟨hsum, hpayload⟩ := reframeLoop_bounds b
      dsimp only
      exact ⟨by omega, by omega, hpayload⟩

theorem reframerFeeds_bounds {r : CtlReframer} (h : r.held.length ≤ ctlBufMax)
    (inputs : List Bytes) :
    (reframerFeeds r inputs).1.held.length ≤ ctlBufMax ∧
      ∀ m ∈ (reframerFeeds r inputs).2, m.payload.length ≤ ctlFrameMax - ctlHdr := by
  induction inputs generalizing r with
  | nil => exact ⟨h, by simp [reframerFeeds]⟩
  | cons input inputs ih =>
      obtain ⟨hheld, -, hpayload⟩ := ctlReframerFeed_bounds h input
      obtain ⟨hheld', hpayload'⟩ := ih hheld
      refine ⟨hheld', ?_⟩
      intro m hm
      rcases List.mem_append.mp hm with hm | hm
      · exact hpayload m hm
      · exact hpayload' m hm

/-- Reads of a stream of frames: what is held is the beginning of a frame, so that
neither of the rules that drop bytes applies. -/
theorem reframerFeeds_stream {sent : List CtlSent} {frames : List Bytes} (h : Framed sent frames)
    {r : CtlReframer} (hheld : Begun r.held) {inputs : List Bytes}
    (hsize : ∀ input ∈ inputs, input.length ≤ ctlReadMax)
    (hcut : r.held ++ inputs.flatten = frames.flatten) :
    reframerFeeds r inputs = (ctlReframerZero, sent.map CtlSent.msg) := by
  induction inputs generalizing r sent frames with
  | nil =>
      rw [List.flatten_nil, List.append_nil] at hcut
      -- nothing is left to come, and a frame that is whole would not be held
      cases h with
      | nil =>
          obtain ⟨held⟩ := r
          rw [show held = [] from hcut]
          rfl
      | cons hf hrest =>
          have hwhole := hheld.2
          rw [hcut, List.flatten_cons, reframeLoop_frame hf] at hwhole
          cases congrArg Prod.snd hwhole
  | cons input inputs ih =>
      rw [List.forall_mem_cons] at hsize
      rw [List.flatten_cons, ← List.append_assoc] at hcut
      have hload : reframerLoad r input = some (r.held ++ input) := by
        have hsmall : input.length ≤ 64 := hsize.1
        have hless : r.held.length < 34 := hheld.1
        have hbuf : ctlBufMax = 128 := rfl
        unfold reframerLoad
        rw [if_neg (by omega), if_neg (by omega)]
      obtain ⟨whole, more, frames', hsent, hmore, hout, hleft, hshort⟩ := reframeLoop_part h hcut
      have hlater := ih hmore (r := { held := (reframeLoop (r.held ++ input)).1 }) hshort hsize.2
        hleft
      rw [reframerFeeds, ctlReframerFeed, hload]
      dsimp only
      rw [hlater, hout, hsent, List.map_append]

/-- However a stream of frames is cut into reads, the reframer hands over exactly these
frames, in order.  Whatever it is fed: it never holds more than its buffer, neither
between feeds nor while one is worked on, a feed is done after at most one frame for
every two bytes of the buffer, and no payload is longer than a frame allows. -/
theorem reframe_stream :
    (∀ sent frames inputs, Framed sent frames → inputs.flatten = frames.flatten →
      (∀ input ∈ inputs, input.length ≤ ctlReadMax) →
        (reframerFeeds ctlReframerZero inputs).2 = sent.map CtlSent.msg) ∧
    ∀ inputs input,
      (reframerFeeds ctlReframerZero inputs).1.held.length ≤ ctlBufMax ∧
        (∀ b ∈ reframerLoad (reframerFeeds ctlReframerZero inputs).1 input,
          b.length ≤ ctlBufMax) ∧
        ctlHdr * (ctlReframerFeed (reframerFeeds ctlReframerZero inputs).1 input).2.length ≤
          ctlBufMax ∧
        ∀ m ∈ (reframerFeeds ctlReframerZero inputs).2,
          m.payload.length ≤ ctlFrameMax - ctlHdr := by
  refine ⟨?_, ?_⟩
  · intro sent frames inputs hframed hcut hsize
    rw [reframerFeeds_stream hframed (r := ctlReframerZero) begun_nil hsize hcut]
  · intro inputs input
    obtain ⟨hheld, hpayload⟩ := reframerFeeds_bounds (r := ctlReframerZero) (by decide) inputs
    obtain ⟨-, hpasses, -⟩ := ctlReframerFeed_bounds hheld input
    exact ⟨hheld, fun b hb => reframerLoad_length hb, hpasses, hpayload⟩

/-- Two frames in three reads, the second of which ends one and begins the other. -/
theorem reframe_stream_twoFrames :
    (reframerFeeds ctlReframerZero [[5, 3, 1], [2, 3, 6], [0]]).2 =
      [{ type := 5, payload := [1, 2, 3] }, { type := 6, payload := [] }] := by
  have hframed : Framed [{ type := 5, payload := [1, 2, 3] }, { type := 6, payload := [] }]
      [[5, 3, 1, 2, 3], [6, 0]] := .cons rfl (.cons rfl .nil)
  exact reframe_stream.1 _ _ [[5, 3, 1], [2, 3, 6], [0]] hframed rfl (by decide)

end Carrier
end Comrade
