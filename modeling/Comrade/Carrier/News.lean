import Comrade.Lib.Word
import Comrade.Candpack.Encode
import Comrade.Carrier.Reframe

/-!
# What one end tells the other about itself

Beside the key and the carrier, the control stream carries what an end has to say
about itself: the nodes it rendezvouses at, the endpoints it has learnt of, what it
can reach, and the families it asks the other end to rendezvous on (`ctlproto.c`,
and the part of `ctlplane.c` that latches what arrived until it is taken).

* `NewsPair` is the teller, the stream between the two, and the reader with what
  its owner has taken.  The stream is cut into reads as it comes.
* `Follows` says that the reader and its owner know what the messages heard so far
  say, and nothing else.
* `news_followed`: in every run, what the reader has heard is a part of what was
  told, from its beginning on, and the rest is still on the way.
-/

namespace Comrade
namespace Carrier

open Lib Candpack

/-! ## The payloads -/

/-- `CTLM_RDV`. -/
def ctlmRdv : UInt8 := 2

/-- `CTLM_CAND`. -/
def ctlmCand : UInt8 := 3

/-- `CTLM_REACH`. -/
def ctlmReach : UInt8 := 4

/-- `CTLM_RDVASK`. -/
def ctlmRdvask : UInt8 := 5

/-- `CTL_RDV_PLEN`. -/
def ctlRdvPlen : Nat := 19

/-- `CTL_RDVST_PLEN`. -/
def ctlRdvstPlen : Nat := ctlRdvPlen + 1

/-- `CTL_REACH_PLEN`. -/
def ctlReachPlen : Nat := 4

/-- `CTL_RDVASK_PLEN`. -/
def ctlRdvaskPlen : Nat := 1

/-- The byte that stands for a family. -/
def famByte : Family → UInt8
  | .v4 => 4
  | .v6 => 6

/-- An endpoint: what the codec carries of a `struct sockaddr`. -/
structure CtlEp where
  fam : Family
  port : UInt16
  addr : Bytes
  length_eq : addr.length = fam.alen

/-- `ctl_rdv_encode`. -/
def ctlRdvEncode (ep : CtlEp) : Bytes :=
  [famByte ep.fam] ++
    (bePut 2 ep.port.toNat ++ (ep.addr ++ List.replicate (16 - ep.fam.alen) 0))

theorem length_ctlRdvAddr {pl : Bytes} (h : ctlRdvPlen ≤ pl.length) (fam : Family) :
    ((pl.drop 3).take fam.alen).length = fam.alen := by
  have hmost : fam.alen ≤ 16 := by cases fam <;> simp [Family.alen]
  have hplen : ctlRdvPlen = 19 := rfl
  rw [List.length_take, List.length_drop]
  omega

/-- `ctl_rdv_decode`. -/
def ctlRdvDecode (pl : Bytes) : Option CtlEp :=
  if h : ctlRdvPlen ≤ pl.length then
    let port := UInt16.ofNat (beGet ((pl.drop 1).take 2))
    if pl.getD 0 0 = 6 then
      some ⟨.v6, port, (pl.drop 3).take Family.v6.alen, length_ctlRdvAddr h .v6⟩
    else if pl.getD 0 0 = 4 then
      some ⟨.v4, port, (pl.drop 3).take Family.v4.alen, length_ctlRdvAddr h .v4⟩
    else none
  else none

theorem length_ctlRdvEncode (ep : CtlEp) : (ctlRdvEncode ep).length = ctlRdvPlen := by
  have hlen := ep.length_eq
  cases hfam : ep.fam <;>
    simp [ctlRdvEncode, hlen, hfam, Family.alen, ctlRdvPlen]

/-- The decoder, on a payload that begins with a family's byte. -/
theorem ctlRdvDecode_fam {pl : Bytes} (h : ctlRdvPlen ≤ pl.length) {fam : Family}
    (hfam : pl.getD 0 0 = famByte fam) :
    ctlRdvDecode pl =
      some ⟨fam, UInt16.ofNat (beGet ((pl.drop 1).take 2)), (pl.drop 3).take fam.alen,
        length_ctlRdvAddr h fam⟩ := by
  rw [ctlRdvDecode, dif_pos h]
  simp only [hfam]
  cases fam with
  | v4 => simp [famByte]
  | v6 => simp [famByte]

/-- What is behind the endpoint does not matter. -/
theorem ctlRdvDecode_encode (ep : CtlEp) (rest : Bytes) :
    ctlRdvDecode (ctlRdvEncode ep ++ rest) = some ep := by
  have hle : ctlRdvPlen ≤ (ctlRdvEncode ep ++ rest).length := by
    rw [List.length_append, length_ctlRdvEncode]
    omega
  have hfirst : (ctlRdvEncode ep ++ rest).getD 0 0 = famByte ep.fam := rfl
  rw [ctlRdvDecode_fam hle hfirst]
  obtain ⟨fam, port, addr, hlen⟩ := ep
  simp only [Option.some.injEq, CtlEp.mk.injEq, true_and]
  simp only [ctlRdvEncode, List.append_assoc]
  constructor
  · have hpre : [famByte fam].length = 1 := by simp
    rw [← hpre, List.drop_left, List.take_left' (length_bePut 2 _), beGet_bePut_of_lt port.toNat_lt]
    exact UInt16.ofNat_toNat
  · have hpre : ([famByte fam] ++ bePut 2 port.toNat).length = 3 := by simp
    rw [← List.append_assoc [famByte fam], ← hpre, List.drop_left, List.take_left' hlen]

/-! ## The reader -/

/-- `struct ctlplane_node`, where there is one. -/
structure CtlNode where
  ep : CtlEp
  status : UInt8

/-- The fields of `struct ctlplane` for what the peer has said about itself. -/
structure CtlNews where
  rdvIn : Family → Option CtlNode
  rdvInDirty : Bool
  reachIn : Bytes
  reachInSeen : Bool
  reachInDirty : Bool
  rdvaskIn : Family → Bool

/-- The fields as `ctlplane_init` leaves them. -/
def ctlNewsInit : CtlNews where
  rdvIn := fun _ => none
  rdvInDirty := false
  reachIn := List.replicate ctlReachPlen 0
  reachInSeen := false
  reachInDirty := false
  rdvaskIn := fun _ => false

/-- `on_rdv`. -/
def onRdv (cp : CtlNews) (pl : Bytes) : CtlNews :=
  match ctlRdvDecode pl with
  | none => cp
  | some ep =>
      let status := if ctlRdvstPlen ≤ pl.length then pl.getD ctlRdvPlen 0 else 0
      { cp with
        rdvIn := Function.update cp.rdvIn ep.fam (some ⟨ep, status⟩)
        rdvInDirty := true }

/-- `CTLM_RDVASK`. -/
def onRdvask (cp : CtlNews) (pl : Bytes) : CtlNews :=
  if pl.getD 0 0 = 6 then { cp with rdvaskIn := Function.update cp.rdvaskIn .v6 true }
  else if pl.getD 0 0 = 4 then { cp with rdvaskIn := Function.update cp.rdvaskIn .v4 true }
  else cp

/-- `ctlplane_on_msg`, the messages that an end tells about itself; the endpoint is one that
`offer_path` is called with. -/
def ctlplaneOnNews (cp : CtlNews) (m : CtlMsg) : CtlNews × Option CtlEp :=
  if m.type = ctlmRdv ∧ ctlRdvPlen ≤ m.payload.length then (onRdv cp m.payload, none)
  else if m.type = ctlmReach ∧ ctlReachPlen ≤ m.payload.length then
    ({ cp with
       reachIn := m.payload.take ctlReachPlen
       reachInSeen := true
       reachInDirty := true }, none)
  else if m.type = ctlmRdvask ∧ ctlRdvaskPlen ≤ m.payload.length then (onRdvask cp m.payload, none)
  else if m.type = ctlmCand ∧ ctlRdvPlen ≤ m.payload.length then (cp, ctlRdvDecode m.payload)
  else (cp, none)

/-! ## The teller -/

/-- A message of the stream that is about something else. -/
structure CtlOther where
  type : UInt8
  payload : Bytes
  not_news : type ∉ [ctlmRdv, ctlmCand, ctlmReach, ctlmRdvask]
  fits : payload.length ≤ ctlFrameMax - ctlHdr

/-- What one end tells: `ctlplane_tell_rdv`, `ctlplane_tell_cand`, `ctlplane_tell_reach`, one
family of `ctlplane_tell_asks`, or another message. -/
inductive Told where
  | rdv (ep : CtlEp) (status : UInt8)
  | cand (ep : CtlEp)
  | reach (pl : Vector UInt8 ctlReachPlen)
  | ask (fam : Family)
  | other (m : CtlOther)

/-- The type and the payload that are handed to `send`. -/
def Told.sent : Told → CtlSent
  | .rdv ep status => { type := ctlmRdv.toNat, payload := ctlRdvEncode ep ++ [status] }
  | .cand ep => { type := ctlmCand.toNat, payload := ctlRdvEncode ep }
  | .reach pl => { type := ctlmReach.toNat, payload := pl.toList }
  | .ask fam => { type := ctlmRdvask.toNat, payload := [famByte fam] }
  | .other m => { type := m.type.toNat, payload := m.payload }

theorem Told.fits (t : Told) : t.sent.payload.length ≤ ctlFrameMax - ctlHdr := by
  have hmax : ctlFrameMax - ctlHdr = 32 := rfl
  cases t with
  | rdv ep status =>
      rw [hmax, Told.sent, List.length_append, length_ctlRdvEncode]
      simp [ctlRdvPlen]
  | cand ep =>
      rw [hmax, Told.sent, length_ctlRdvEncode]
      decide
  | reach pl =>
      rw [hmax, Told.sent, Vector.length_toList]
      simp [ctlReachPlen]
  | ask fam => simp [hmax, Told.sent]
  | other m => exact m.fits

/-- The bytes of the stream. -/
def Told.frame (t : Told) : Bytes := (ctlFrame t.sent.type t.sent.payload).getD []

theorem Told.frame_eq (t : Told) : ctlFrame t.sent.type t.sent.payload = some t.frame := by
  rw [Told.frame, ctlFrame, if_neg (not_lt.mpr t.fits), Option.getD_some]

theorem framed_told (ts : List Told) : Framed (ts.map Told.sent) (ts.map Told.frame) := by
  induction ts with
  | nil => exact .nil
  | cons t ts ih => exact .cons t.frame_eq ih

/-! ## The pair -/

/-- The families that the teller still owes an ask, the stream, and the reader with what its
owner has been given: the endpoints `offer_path` was called with, the nodes and the reach last
taken, and the families of every take.  `told` is what has gone into the stream. -/
structure NewsPair where
  rdvaskOut : Family → Bool
  wire : Bytes
  told : List Told
  rf : CtlReframer
  cp : CtlNews
  offered : List CtlEp
  nodes : Family → Option CtlNode
  reach : Option Bytes
  asked : Family → Bool

/-- Both ends reset, and nothing on the way. -/
def newsStart : NewsPair where
  rdvaskOut := fun _ => false
  wire := []
  told := []
  rf := ctlReframerZero
  cp := ctlNewsInit
  offered := []
  nodes := fun _ => none
  reach := none
  asked := fun _ => false

/-- What either end does. -/
inductive NewsEvent where
  | tellRdv (ep : CtlEp) (status : UInt8)
  | tellCand (ep : CtlEp)
  | tellReach (pl : Vector UInt8 ctlReachPlen)
  | tellOther (m : CtlOther)
  | askRdv (fam : Family)
  | tellAsks
  /-- A read that yields this many bytes, or what there is. -/
  | read (n : Nat)
  | takeNodes
  | takeAsks
  | takeReach

/-- `send`. -/
def NewsPair.send (s : NewsPair) (t : Told) : NewsPair :=
  { s with wire := s.wire ++ t.frame, told := s.told ++ [t] }

/-- The callback of the reframer. -/
def NewsPair.hear (s : NewsPair) (m : CtlMsg) : NewsPair :=
  let r := ctlplaneOnNews s.cp m
  { s with cp := r.1, offered := s.offered ++ r.2.toList }

/-- `ctlplane_tell_asks`. -/
def NewsPair.tellAsks (s : NewsPair) : NewsPair :=
  let asks := [Family.v4, Family.v6].filter s.rdvaskOut
  asks.foldl (fun s fam => s.send (.ask fam)) { s with rdvaskOut := fun _ => false }

/-- `ctl_readable`, where it gets these bytes. -/
def NewsPair.read (s : NewsPair) (n : Nat) : NewsPair :=
  let n := min n ctlReadMax
  let r := ctlReframerFeed s.rf (s.wire.take n)
  r.2.foldl NewsPair.hear { s with wire := s.wire.drop n, rf := r.1 }

/-- `ctlplane_take_nodes`. -/
def NewsPair.takeNodes (s : NewsPair) : NewsPair :=
  if s.cp.rdvInDirty = true then
    { s with nodes := s.cp.rdvIn, cp := { s.cp with rdvInDirty := false } }
  else s

/-- `ctlplane_take_asks`. -/
def NewsPair.takeAsks (s : NewsPair) : NewsPair :=
  { s with
    asked := fun fam => s.asked fam || s.cp.rdvaskIn fam
    cp := { s.cp with rdvaskIn := fun _ => false } }

/-- `ctlplane_take_reach`. -/
def NewsPair.takeReach (s : NewsPair) : NewsPair :=
  if s.cp.reachInDirty = true then
    { s with reach := some s.cp.reachIn, cp := { s.cp with reachInDirty := false } }
  else s

/-- The pair after an event. -/
def newsStep (s : NewsPair) : NewsEvent → NewsPair
  | .tellRdv ep status => s.send (.rdv ep status)
  | .tellCand ep => s.send (.cand ep)
  | .tellReach pl => s.send (.reach pl)
  | .tellOther m => s.send (.other m)
  | .askRdv fam => { s with rdvaskOut := Function.update s.rdvaskOut fam true }
  | .tellAsks => s.tellAsks
  | .read n => s.read n
  | .takeNodes => s.takeNodes
  | .takeAsks => s.takeAsks
  | .takeReach => s.takeReach

/-! ## What is known of what was heard -/

/-- The node of the family that a message states. -/
def Told.node? (fam : Family) : Told → Option CtlNode
  | .rdv ep status => if ep.fam = fam then some ⟨ep, status⟩ else none
  | _ => none

/-- The reach that a message states. -/
def Told.reach? : Told → Option Bytes
  | .reach pl => some pl.toList
  | _ => none

/-- The endpoint that a message offers. -/
def Told.cand? : Told → Option CtlEp
  | .cand ep => some ep
  | _ => none

/-- The last of what the messages state. -/
def lastOf {α : Type} (f : Told → Option α) (heard : List Told) : Option α :=
  (heard.filterMap f).getLast?

theorem lastOf_append {α : Type} (f : Told → Option α) (heard : List Told) (t : Told) :
    lastOf f (heard ++ [t]) = (f t).or (lastOf f heard) := by
  rw [lastOf, List.filterMap_append, List.getLast?_append, lastOf]
  cases h : f t <;> simp [h]

theorem cands_append (heard : List Told) (t : Told) :
    (heard ++ [t]).filterMap Told.cand? = heard.filterMap Told.cand? ++ (Told.cand? t).toList := by
  rw [List.filterMap_append]
  cases h : Told.cand? t <;> simp [h]

/-- The reader knows what the messages say, and has given its owner what the owner has not left
to be taken. -/
structure Follows (s : NewsPair) (heard : List Told) : Prop where
  node : ∀ fam, s.cp.rdvIn fam = lastOf (Told.node? fam) heard
  node_taken : s.cp.rdvInDirty = false → s.nodes = s.cp.rdvIn
  reach : (if s.cp.reachInSeen = true then some s.cp.reachIn else none) =
    lastOf Told.reach? heard
  reach_seen : s.cp.reachInDirty = true → s.cp.reachInSeen = true
  reach_taken : s.cp.reachInDirty = false → s.reach = lastOf Told.reach? heard
  asks : ∀ fam, s.asked fam = true ∨ s.cp.rdvaskIn fam = true ↔ Told.ask fam ∈ heard
  offers : s.offered = heard.filterMap Told.cand?

theorem newsStart_follows : Follows newsStart [] where
  node := fun _ => rfl
  node_taken := fun _ => rfl
  reach := rfl
  reach_seen := fun h => h
  reach_taken := fun _ => rfl
  asks := fun fam => by simp [newsStart, ctlNewsInit]
  offers := rfl

/-! ## One message -/

theorem msg_ofNat (type : UInt8) (payload : Bytes) :
    CtlSent.msg { type := type.toNat, payload := payload } =
      { type := type, payload := payload } := by
  have hlt : (type.toNat : Int) % 256 = type.toNat := by
    have := type.toNat_lt
    omega
  simp [CtlSent.msg, UInt8.ofInt, hlt]

theorem onNews_rdv (cp : CtlNews) (ep : CtlEp) (status : UInt8) :
    ctlplaneOnNews cp (Told.rdv ep status).sent.msg =
      ({ cp with
         rdvIn := Function.update cp.rdvIn ep.fam (some ⟨ep, status⟩)
         rdvInDirty := true }, none) := by
  have hlen := length_ctlRdvEncode ep
  have hall : (ctlRdvEncode ep ++ [status]).length = ctlRdvstPlen := by
    rw [List.length_append, hlen]
    simp [ctlRdvstPlen]
  have hstatus : (ctlRdvEncode ep ++ [status]).getD ctlRdvPlen 0 = status := by
    rw [← hlen]
    simp
  have hplen : ctlRdvPlen ≤ (ctlRdvEncode ep ++ [status]).length := by
    rw [hall, ctlRdvstPlen]
    omega
  rw [Told.sent, msg_ofNat, ctlplaneOnNews]
  dsimp only
  rw [if_pos ⟨by rfl, hplen⟩, onRdv, ctlRdvDecode_encode]
  dsimp only
  rw [if_pos hall.ge, hstatus]

theorem onNews_cand (cp : CtlNews) (ep : CtlEp) :
    ctlplaneOnNews cp (Told.cand ep).sent.msg = (cp, some ep) := by
  have hlen := length_ctlRdvEncode ep
  have hdec := ctlRdvDecode_encode ep []
  rw [List.append_nil] at hdec
  rw [Told.sent, msg_ofNat, ctlplaneOnNews]
  simp [ctlmCand, ctlmRdv, ctlmReach, ctlmRdvask, hlen, hdec]

theorem onNews_reach (cp : CtlNews) (pl : Vector UInt8 ctlReachPlen) :
    ctlplaneOnNews cp (Told.reach pl).sent.msg =
      ({ cp with reachIn := pl.toList, reachInSeen := true, reachInDirty := true }, none) := by
  have hlen : pl.toList.length = ctlReachPlen := Vector.length_toList
  rw [Told.sent, msg_ofNat, ctlplaneOnNews]
  simp [ctlmRdv, ctlmReach, hlen, List.take_of_length_le hlen.le]

theorem onNews_ask (cp : CtlNews) (fam : Family) :
    ctlplaneOnNews cp (Told.ask fam).sent.msg =
      ({ cp with rdvaskIn := Function.update cp.rdvaskIn fam true }, none) := by
  rw [Told.sent, msg_ofNat, ctlplaneOnNews]
  cases fam <;> simp [ctlmRdv, ctlmReach, ctlmRdvask, ctlRdvaskPlen, onRdvask, famByte]

theorem onNews_other (cp : CtlNews) (m : CtlOther) :
    ctlplaneOnNews cp (Told.other m).sent.msg = (cp, none) := by
  have hnot := m.not_news
  simp only [List.mem_cons, List.not_mem_nil, or_false, not_or] at hnot
  obtain ⟨hrdv, hcand, hreach, hask⟩ := hnot
  rw [Told.sent, msg_ofNat, ctlplaneOnNews]
  simp [hrdv, hcand, hreach, hask]

/-- A message heard is known. -/
theorem Follows.hear {s : NewsPair} {heard : List Told} (h : Follows s heard) (t : Told) :
    Follows (s.hear t.sent.msg) (heard ++ [t]) := by
  obtain ⟨node, node_taken, reach, reach_seen, reach_taken, asks, offers⟩ := h
  cases t with
  | rdv ep status =>
      refine ⟨?_, ?_, ?_, ?_, ?_, ?_, ?_⟩ <;>
        simp only [NewsPair.hear, onNews_rdv, lastOf_append, cands_append, Told.node?,
          Told.reach?, Told.cand?]
      · intro fam
        by_cases hfam : ep.fam = fam
        · subst hfam
          simp
        · rw [Function.update_of_ne (Ne.symm hfam), if_neg hfam, node fam]
          rfl
      · simp
      · simpa using reach
      · exact reach_seen
      · simpa using reach_taken
      · simpa using asks
      · simpa using offers
  | cand ep =>
      refine ⟨?_, ?_, ?_, ?_, ?_, ?_, ?_⟩ <;>
        simp only [NewsPair.hear, onNews_cand, lastOf_append, cands_append, Told.node?,
          Told.reach?, Told.cand?]
      · simpa using node
      · exact node_taken
      · simpa using reach
      · exact reach_seen
      · simpa using reach_taken
      · simpa using asks
      · simpa using offers
  | reach pl =>
      refine ⟨?_, ?_, ?_, ?_, ?_, ?_, ?_⟩ <;>
        simp only [NewsPair.hear, onNews_reach, lastOf_append, cands_append, Told.node?,
          Told.reach?, Told.cand?]
      · simpa using node
      · exact node_taken
      · simp
      · simp
      · simp
      · simpa using asks
      · simpa using offers
  | ask fam =>
      refine ⟨?_, ?_, ?_, ?_, ?_, ?_, ?_⟩ <;>
        simp only [NewsPair.hear, onNews_ask, lastOf_append, cands_append, Told.node?,
          Told.reach?, Told.cand?]
      · simpa using node
      · exact node_taken
      · simpa using reach
      · exact reach_seen
      · simpa using reach_taken
      · intro fam'
        rw [List.mem_append, ← asks fam']
        by_cases hfam : fam' = fam
        · subst hfam
          simp
        · simp [hfam]
      · simpa using offers
  | other m =>
      refine ⟨?_, ?_, ?_, ?_, ?_, ?_, ?_⟩ <;>
        simp only [NewsPair.hear, onNews_other, lastOf_append, cands_append, Told.node?,
          Told.reach?, Told.cand?]
      · simpa using node
      · exact node_taken
      · simpa using reach
      · exact reach_seen
      · simpa using reach_taken
      · simpa using asks
      · simpa using offers

/-! ## The run -/

/-- What has been heard, and what is on the way. -/
structure OnWay (s : NewsPair) (heard later : List Told) : Prop where
  told_eq : s.told = heard ++ later
  wire_eq : s.rf.held ++ s.wire = (later.map Told.frame).flatten
  begun : Begun s.rf.held
  follows : Follows s heard

theorem newsStart_onWay : OnWay newsStart [] [] where
  told_eq := rfl
  wire_eq := rfl
  begun := begun_nil
  follows := newsStart_follows

theorem OnWay.send {s : NewsPair} {heard later : List Told} (h : OnWay s heard later) (t : Told) :
    OnWay (s.send t) heard (later ++ [t]) where
  told_eq := by rw [NewsPair.send, h.told_eq, List.append_assoc]
  wire_eq := by
    rw [NewsPair.send, ← List.append_assoc, h.wire_eq]
    simp
  begun := h.begun
  follows := { h.follows with }

/-- The frames of what was told are no others. -/
theorem framed_told_unique {ts : List Told} {frames : List Bytes}
    (h : Framed (ts.map Told.sent) frames) : frames = ts.map Told.frame := by
  induction ts generalizing frames with
  | nil =>
      cases h
      rfl
  | cons t ts ih =>
      cases h with
      | cons hf hrest =>
          rw [t.frame_eq] at hf
          rw [List.map_cons, ih hrest, Option.some.inj hf]

/-- The messages of a read, one after another. -/
theorem Follows.hear_all {s : NewsPair} {heard : List Told} (h : Follows s heard)
    (ts : List Told) :
    Follows (((ts.map Told.sent).map CtlSent.msg).foldl NewsPair.hear s) (heard ++ ts) := by
  induction ts generalizing s heard with
  | nil => simpa using h
  | cons t ts ih =>
      have hnext := ih (h.hear t)
      rw [List.append_assoc] at hnext
      exact hnext

/-- Hearing is about the reader's plane alone. -/
theorem hear_all_frame (s : NewsPair) (ms : List CtlMsg) :
    (ms.foldl NewsPair.hear s).wire = s.wire ∧ (ms.foldl NewsPair.hear s).rf = s.rf ∧
      (ms.foldl NewsPair.hear s).told = s.told ∧
      (ms.foldl NewsPair.hear s).rdvaskOut = s.rdvaskOut := by
  induction ms generalizing s with
  | nil => simp
  | cons m ms ih => exact ih (s.hear m)

/-- A read hears the messages that are whole, and the rest stays on the way. -/
theorem OnWay.read {s : NewsPair} {heard later : List Told} (h : OnWay s heard later) (n : Nat) :
    ∃ now later', later = now ++ later' ∧ OnWay (s.read n) (heard ++ now) later' := by
  have hpart : (s.rf.held ++ s.wire.take (min n ctlReadMax)) ++ s.wire.drop (min n ctlReadMax) =
      (later.map Told.frame).flatten := by
    rw [List.append_assoc, List.take_append_drop, h.wire_eq]
  have hload : reframerLoad s.rf (s.wire.take (min n ctlReadMax)) =
      some (s.rf.held ++ s.wire.take (min n ctlReadMax)) := by
    have hheld : s.rf.held.length < 34 := h.begun.1
    have hmax : ctlReadMax = 64 := rfl
    have hbuf : ctlBufMax = 128 := rfl
    have htake : (s.wire.take (min n ctlReadMax)).length ≤ 64 := by
      rw [List.length_take]
      omega
    rw [reframerLoad, if_neg (by omega), if_neg (by omega)]
  obtain ⟨whole, more, frames', hsent, hmore, hout, hleft, hbegun⟩ :=
    reframeLoop_part (framed_told later) hpart
  obtain ⟨now, later', hlater, hnow, hlater'⟩ := List.map_eq_append_iff.mp hsent
  rw [← hlater'] at hmore
  rw [framed_told_unique hmore] at hleft
  rw [← hnow] at hout
  refine ⟨now, later', hlater, ?_⟩
  simp only [NewsPair.read, ctlReframerFeed, hload, hout]
  let s' : NewsPair :=
    { s with
      wire := s.wire.drop (min n ctlReadMax)
      rf := { held := (reframeLoop (s.rf.held ++ s.wire.take (min n ctlReadMax))).1 } }
  have hfollows : Follows s' heard := { h.follows with }
  obtain ⟨hwire, hrf, htold, -⟩ := hear_all_frame s' ((now.map Told.sent).map CtlSent.msg)
  constructor
  · rw [htold, List.append_assoc, ← hlater]
    exact h.told_eq
  · rw [hwire, hrf]
    exact hleft
  · rw [hrf]
    exact hbegun
  · exact hfollows.hear_all now

theorem OnWay.tellAsks {s : NewsPair} {heard later : List Told} (h : OnWay s heard later) :
    ∃ later', OnWay s.tellAsks heard later' := by
  have hclear : OnWay { s with rdvaskOut := fun _ => false } heard later :=
    { h with follows := { h.follows with } }
  rw [NewsPair.tellAsks]
  generalize [Family.v4, Family.v6].filter s.rdvaskOut = asks
  generalize ({ s with rdvaskOut := fun _ => false } : NewsPair) = s' at hclear
  clear h
  induction asks generalizing s' later with
  | nil => exact ⟨later, hclear⟩
  | cons fam asks ih => exact ih (s'.send (.ask fam)) (hclear.send (.ask fam))

theorem OnWay.takeNodes {s : NewsPair} {heard later : List Told} (h : OnWay s heard later) :
    OnWay s.takeNodes heard later := by
  rw [NewsPair.takeNodes]
  split_ifs with hdirty
  · exact { h with follows := { h.follows with node_taken := fun _ => rfl } }
  · exact h

theorem OnWay.takeReach {s : NewsPair} {heard later : List Told} (h : OnWay s heard later) :
    OnWay s.takeReach heard later := by
  rw [NewsPair.takeReach]
  split_ifs with hdirty
  · have hreach := h.follows.reach
    rw [if_pos (h.follows.reach_seen hdirty)] at hreach
    exact { h with follows := { h.follows with
      reach_seen := fun hno => absurd hno (by simp)
      reach_taken := fun _ => hreach } }
  · exact h

theorem OnWay.takeAsks {s : NewsPair} {heard later : List Told} (h : OnWay s heard later) :
    OnWay s.takeAsks heard later := by
  refine { h with follows := { h.follows with asks := ?_ } }
  intro fam
  rw [← h.follows.asks fam]
  simp [NewsPair.takeAsks]

/-- One step hears a further part of what is on the way, if anything. -/
theorem OnWay.step {s : NewsPair} {heard later : List Told} (h : OnWay s heard later)
    (e : NewsEvent) : ∃ heard' later', OnWay (newsStep s e) heard' later' := by
  cases e with
  | tellRdv ep status => exact ⟨_, _, h.send _⟩
  | tellCand ep => exact ⟨_, _, h.send _⟩
  | tellReach pl => exact ⟨_, _, h.send _⟩
  | tellOther m => exact ⟨_, _, h.send _⟩
  | askRdv fam => exact ⟨heard, later, { h with follows := { h.follows with } }⟩
  | tellAsks => exact ⟨heard, h.tellAsks⟩
  | read n =>
      obtain ⟨now, later', -, hread⟩ := h.read n
      exact ⟨_, _, hread⟩
  | takeNodes => exact ⟨_, _, h.takeNodes⟩
  | takeAsks => exact ⟨_, _, h.takeAsks⟩
  | takeReach => exact ⟨_, _, h.takeReach⟩

theorem OnWay.run {s : NewsPair} {heard later : List Told} (h : OnWay s heard later)
    (events : List NewsEvent) : ∃ heard' later', OnWay (run newsStep s events) heard' later' := by
  induction events generalizing s heard later with
  | nil => exact ⟨heard, later, h⟩
  | cons e events ih =>
      obtain ⟨heard', later', hstep⟩ := h.step e
      exact ih hstep

/-- Where nothing is left to read, nothing is on the way. -/
theorem OnWay.later_nil {s : NewsPair} {heard later : List Told} (h : OnWay s heard later)
    (hwire : s.wire = []) : later = [] := by
  have hheld := h.wire_eq
  rw [hwire, List.append_nil] at hheld
  cases later with
  | nil => rfl
  | cons t later =>
      have hwhole := h.begun.2
      rw [hheld, List.map_cons, List.flatten_cons, reframeLoop_frame t.frame_eq] at hwhole
      cases congrArg Prod.snd hwhole

/-! ## Asks -/

/-- An ask is owed, or has been told. -/
def NewsPair.asks (s : NewsPair) (fam : Family) : Prop :=
  s.rdvaskOut fam = true ∨ Told.ask fam ∈ s.told

theorem asks_send (s : NewsPair) {t : Told} {fam : Family} (hne : Told.ask fam ≠ t) :
    (s.send t).asks fam ↔ s.asks fam := by
  simp [NewsPair.asks, NewsPair.send, hne]

theorem told_sendAsks (s : NewsPair) (asks : List Family) (fam : Family) :
    let s' := asks.foldl (fun s fam => s.send (.ask fam)) s
    s'.rdvaskOut = s.rdvaskOut ∧ (Told.ask fam ∈ s'.told ↔ Told.ask fam ∈ s.told ∨ fam ∈ asks) := by
  induction asks generalizing s with
  | nil => simp
  | cons f asks ih =>
      obtain ⟨hout, hmem⟩ := ih (s.send (.ask f))
      refine ⟨hout, ?_⟩
      rw [List.foldl_cons, hmem, List.mem_cons]
      simp [NewsPair.send, or_assoc]

theorem asks_tellAsks (s : NewsPair) (fam : Family) : s.tellAsks.asks fam ↔ s.asks fam := by
  obtain ⟨hout, hmem⟩ := told_sendAsks { s with rdvaskOut := fun _ => false }
    ([Family.v4, Family.v6].filter s.rdvaskOut) fam
  have hfam : fam ∈ [Family.v4, Family.v6] := by cases fam <;> simp
  rw [NewsPair.asks, NewsPair.tellAsks, hout, hmem, List.mem_filter]
  simp [NewsPair.asks, hfam, or_comm]

/-- An ask is made by `ctlplane_ask_rdv`, and by nothing else. -/
theorem newsStep_asks (s : NewsPair) (e : NewsEvent) (fam : Family) :
    (newsStep s e).asks fam ↔ s.asks fam ∨ e = .askRdv fam := by
  cases e with
  | tellRdv ep status => simpa [newsStep] using asks_send s (by simp)
  | tellCand ep => simpa [newsStep] using asks_send s (by simp)
  | tellReach pl => simpa [newsStep] using asks_send s (by simp)
  | tellOther m => simpa [newsStep] using asks_send s (by simp)
  | askRdv f =>
      by_cases hf : fam = f
      · subst hf
        simp [newsStep, NewsPair.asks]
      · simp [newsStep, NewsPair.asks, hf, Ne.symm hf]
  | tellAsks => simpa [newsStep] using asks_tellAsks s fam
  | read n =>
      obtain ⟨-, -, htold, hout⟩ := hear_all_frame
        { s with
          wire := s.wire.drop (min n ctlReadMax)
          rf := (ctlReframerFeed s.rf (s.wire.take (min n ctlReadMax))).1 }
        (ctlReframerFeed s.rf (s.wire.take (min n ctlReadMax))).2
      simp [newsStep, NewsPair.asks, NewsPair.read, htold, hout]
  | takeNodes =>
      simp only [newsStep, NewsPair.takeNodes]
      split_ifs <;> simp [NewsPair.asks]
  | takeAsks => simp [newsStep, NewsPair.asks, NewsPair.takeAsks]
  | takeReach =>
      simp only [newsStep, NewsPair.takeReach]
      split_ifs <;> simp [NewsPair.asks]

theorem run_asks (s : NewsPair) (events : List NewsEvent) (fam : Family) :
    (run newsStep s events).asks fam ↔ s.asks fam ∨ .askRdv fam ∈ events := by
  induction events generalizing s with
  | nil => simp
  | cons e events ih =>
      rw [run_cons, ih, newsStep_asks, List.mem_cons, or_assoc, eq_comm (a := e)]

/-- However the stream is cut into reads, and whenever the owner takes: what the reader and its
owner know is what the messages from the first to some one say, the last of each kind, and all
of the offers and asks.  The others are on the way, none where nothing is left to read; and an ask
that was made is owed until it is told. -/
theorem news_followed (events : List NewsEvent) :
    let s := run newsStep newsStart events
    (∃ heard later, s.told = heard ++ later ∧ Follows s heard ∧
      s.rf.held ++ s.wire = (later.map Told.frame).flatten ∧ (s.wire = [] → later = [])) ∧
    ∀ fam, s.rdvaskOut fam = true ∨ Told.ask fam ∈ s.told ↔ .askRdv fam ∈ events := by
  intro s
  obtain ⟨heard, later, h⟩ := newsStart_onWay.run events
  constructor
  · exact ⟨heard, later, h.told_eq, h.follows, h.wire_eq, h.later_nil⟩
  · intro fam
    have hstart : ¬newsStart.asks fam := by simp [NewsPair.asks, newsStart]
    exact (run_asks newsStart events fam).trans (or_iff_right hstart)

end Carrier
end Comrade
