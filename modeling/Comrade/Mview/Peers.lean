import Comrade.Lib.Run
import Comrade.Lib.Word
import Comrade.Token.Codec

/-!
# The machine view and its peers

`mview.c` keeps what a headless host observes of its session and renders it as one document.
A peer has a slot of a table of `MV_PEERS`, found by its id and taken by the first event that
names it; a peer that is gone keeps its slot.

* `Mview` is the view, `mvStep` one call of an observer and `mvDoc` the document of a view.
* `lastState` is the state a peer was reported in last.
* `Shows` is what the document is for, and `Room` the condition under which a peer gets into it.
-/

namespace Comrade
namespace Mview

open Lib Token

/-! ## The code -/

/-- `MV_PEERS`. -/
def mvPeers : Nat := 8

/-- `SESSION_PEER_`. -/
inductive PeerState where
  | seen
  | punching
  | live
  | gone
  deriving DecidableEq, Repr

/-- `struct mv_peer`. -/
structure MvPeer where
  id : Int
  state : PeerState
  readOnly : Bool
  fwdRefused : Bool
  addr : Bytes
  deriving DecidableEq

/-- The part of `struct mview` that the document takes its peers and its state from. -/
structure Mview where
  token : Bytes
  tokenRo : Bytes
  error : Bytes
  escalate : Bytes
  peer : List MvPeer

/-- What `snprintf(buf, n, "%s", s)` leaves in a buffer. -/
def printed (n : Nat) (s : Bytes) : Bytes := (cString s).take (n - 1)

/-- A slot cleared for a peer. -/
def freshPeer (id : Int) : MvPeer := ⟨id, .seen, false, false, []⟩

/-- `mv_peer_slot`: the table with a slot for the peer and its index. -/
def mvPeerSlot (peer : List MvPeer) (id : Int) : Option (List MvPeer × Nat) :=
  match peer.findIdx? fun p => p.id == id with
  | some i => some (peer, i)
  | none =>
      if peer.length < mvPeers then some (peer ++ [freshPeer id], peer.length) else none

/-- What the three callbacks that name a peer have in common: a change of its slot, if it gets
one. -/
def withSlot (m : Mview) (id : Int) (change : MvPeer → MvPeer) : Mview :=
  match mvPeerSlot m.peer id with
  | none => m
  | some (peer, i) => { m with peer := peer.modify i change }

/-- `mv_peer_cb`. -/
def mvPeerCb (m : Mview) (id : Int) (state : PeerState) (addr : Bytes) : Mview :=
  withSlot m id fun p =>
    { p with state := state, addr := if cString addr ≠ [] then printed 80 addr else p.addr }

/-- `mv_peer_ro`.  It leaves a mark that is set as it is. -/
def mvPeerRo (m : Mview) (id : Int) : Mview :=
  withSlot m id fun p => { p with readOnly := true }

/-- `mv_peer_fwd_refused`. -/
def mvPeerFwdRefused (m : Mview) (id : Int) : Mview :=
  withSlot m id fun p => { p with fwdRefused := true }

/-- The calls of the observer that the document shows. -/
inductive MvEvent where
  | peer (id : Int) (state : PeerState) (addr : Bytes)
  | peerRo (id : Int)
  | peerFwdRefused (id : Int)
  | token (tok : Bytes)
  | tokenRo (tok : Bytes)
  | escalate (why : Bytes)
  | escalateClear
  | error (err : Bytes)

/-- One call. -/
def mvStep (m : Mview) : MvEvent → Mview
  | .peer id state addr => mvPeerCb m id state addr
  | .peerRo id => mvPeerRo m id
  | .peerFwdRefused id => mvPeerFwdRefused m id
  | .token tok => { m with token := printed 256 tok }
  | .tokenRo tok => { m with tokenRo := printed 256 tok }
  | .escalate why => { m with escalate := printed 160 why }
  | .escalateClear => { m with escalate := [] }
  | .error err => { m with error := printed 32 err }

/-- `mview_create`. -/
def mviewCreate : Mview := ⟨[], [], [], [], []⟩

/-- The states of the service. -/
inductive MvState where
  | error
  | serving
  | starting
  | ready
  | rendezvous
  deriving DecidableEq, Repr

/-- A token with an endpoint in one of its families. -/
def tokenReady (tok : Bytes) : Bool :=
  match tokenDecode tok with
  | .error _ => false
  | .ok t => t.state4 == .rendezvous || t.state4 == .direct || t.state6 == .rendezvous ||
      t.state6 == .direct

/-- `mv_state`. -/
def mvState (m : Mview) : MvState :=
  if m.error ≠ [] then .error
  else if m.peer.any fun p => p.state == .live then .serving
  else if m.token = [] then .starting
  else if tokenReady m.token then .ready
  else .rendezvous

/-- A peer as the document lists it. -/
structure DocPeer where
  id : Int
  state : PeerState
  readOnly : Bool
  fwdRefused : Bool
  addr : Option Bytes
  deriving DecidableEq

/-- A text that a document has only where it is not empty. -/
def shown (s : Bytes) : Option Bytes := if s = [] then none else some s

/-- The entry of a slot. -/
def MvPeer.doc (p : MvPeer) : DocPeer :=
  { id := p.id, state := p.state, readOnly := p.readOnly, fwdRefused := p.fwdRefused
    addr := if p.addr.head? = some (ch '-') then none else shown p.addr }

/-- The document, as far as the calls above make it. -/
structure Doc where
  state : MvState
  error : Option Bytes
  token : Option Bytes
  tokenRo : Option Bytes
  peers : List DocPeer
  warning : Option Bytes

/-- `mv_doc`. -/
def mvDoc (m : Mview) : Doc where
  state := mvState m
  error := shown m.error
  token := shown m.token
  tokenRo := shown m.tokenRo
  peers := (m.peer.filter fun p => p.state != .gone).map MvPeer.doc
  warning := shown m.escalate

/-! ## What the document is for -/

/-- The state that an event reports of a peer. -/
def MvEvent.reports (id : Int) : MvEvent → Option PeerState
  | .peer i state _ => if i = id then some state else none
  | _ => none

/-- The state in which a peer was reported last. -/
def lastState (events : List MvEvent) (id : Int) : Option PeerState :=
  events.foldl (fun last e => (e.reports id).or last) none

/-- The peer that an event reports. -/
def MvEvent.peerId : MvEvent → Option Int
  | .peer id _ _ => some id
  | _ => none

/-- The peers that were not reported gone last. -/
def present (events : List MvEvent) : List Int :=
  (events.filterMap MvEvent.peerId).dedup.filter fun id => lastState events id ≠ some .gone

/-- The document of `m` lists every peer that was not reported gone last, and while there is no
error its state is serving whenever one of them is live. -/
structure Shows (m : Mview) (events : List MvEvent) : Prop where
  listed : ∀ id state, lastState events id = some state → state ≠ .gone →
    ∃ p ∈ (mvDoc m).peers, p.id = id ∧ p.state = state
  serving : m.error = [] → (∃ id, lastState events id = some .live) →
    (mvDoc m).state = .serving

/-- The peer has a slot or can get one. -/
def Room (m : Mview) (id : Int) : Prop := (∃ p ∈ m.peer, p.id = id) ∨ m.peer.length < mvPeers

/-- An event that reports a peer as anything but gone finds room for it. -/
def RoomFor (m : Mview) : MvEvent → Prop
  | .peer id state _ => state ≠ .gone → Room m id
  | _ => True

/-! ## The slots -/

theorem findIdx_none_iff {peer : List MvPeer} {id : Int} :
    (peer.findIdx? fun p => p.id == id) = none ↔ ∀ p ∈ peer, p.id ≠ id := by
  simp [List.findIdx?_eq_none_iff]

/-- Without room the table stays as it is. -/
theorem withSlot_of_not_room {m : Mview} {id : Int} {change : MvPeer → MvPeer}
    (h : ¬Room m id) : withSlot m id change = m := by
  rw [Room, not_or, not_lt] at h
  have hnone : (m.peer.findIdx? fun p => p.id == id) = none :=
    findIdx_none_iff.2 fun p hp hid => h.1 ⟨p, hp, hid⟩
  simp [withSlot, mvPeerSlot, hnone, not_lt.mpr h.2]

theorem mem_modify_of_ne {peer : List MvPeer} {i j : Nat} {change : MvPeer → MvPeer}
    (hj : j < peer.length) (hne : i ≠ j) : peer[j] ∈ peer.modify i change := by
  have hlen : j < (peer.modify i change).length := by rwa [List.length_modify]
  have hget : (peer.modify i change)[j] = peer[j] := by rw [List.getElem_modify, if_neg hne]
  exact hget ▸ List.getElem_mem hlen

theorem mem_modify_self {peer : List MvPeer} {i : Nat} {change : MvPeer → MvPeer}
    (hi : i < peer.length) : change peer[i] ∈ peer.modify i change := by
  have hlen : i < (peer.modify i change).length := by rwa [List.length_modify]
  have hget : (peer.modify i change)[i] = change peer[i] := by rw [List.getElem_modify, if_pos rfl]
  exact hget ▸ List.getElem_mem hlen

/-- The slot that a peer gets: all slots from before are there, and the one given is the
peer's. -/
theorem mvPeerSlot_spec {peer peer' : List MvPeer} {id : Int} {i : Nat}
    (h : mvPeerSlot peer id = some (peer', i)) :
    (∀ p ∈ peer, p ∈ peer') ∧ ∃ hi : i < peer'.length, peer'[i].id = id := by
  unfold mvPeerSlot at h
  split at h
  · rename_i k hk
    obtain ⟨rfl, rfl⟩ := Prod.mk.inj (Option.some.inj h)
    obtain ⟨hlt, hid, -⟩ := List.findIdx?_eq_some_iff_getElem.mp hk
    exact ⟨fun _ hp => hp, hlt, by simpa using hid⟩
  · split at h
    · obtain ⟨rfl, rfl⟩ := Prod.mk.inj (Option.some.inj h)
      refine ⟨fun p hp => List.mem_append_left _ hp, by simp, by simp [freshPeer]⟩
    · simp at h

theorem mvPeerSlot_of_room {m : Mview} {id : Int} (h : Room m id) :
    ∃ x, mvPeerSlot m.peer id = some x := by
  unfold mvPeerSlot
  split
  · exact ⟨_, rfl⟩
  · rename_i hnone
    obtain ⟨p, hp, hid⟩ | hfree := h
    · exact absurd hid (findIdx_none_iff.1 hnone p hp)
    · exact ⟨_, if_pos hfree⟩

/-- The slots of other peers stay, and so does the peer's own but for the change. -/
theorem mem_withSlot {m : Mview} (id : Int) (change : MvPeer → MvPeer) {p : MvPeer}
    (hp : p ∈ m.peer) :
    p ∈ (withSlot m id change).peer ∨ (p.id = id ∧ change p ∈ (withSlot m id change).peer) := by
  unfold withSlot
  split
  · exact .inl hp
  · rename_i peer i hslot
    obtain ⟨hkept, hi, hid⟩ := mvPeerSlot_spec hslot
    obtain ⟨j, hj, rfl⟩ := List.mem_iff_getElem.mp (hkept p hp)
    by_cases heq : i = j
    · subst heq
      exact .inr ⟨hid, mem_modify_self hj⟩
    · exact .inl (mem_modify_of_ne hj heq)

/-- With room, the peer's slot has the change. -/
theorem exists_withSlot {m : Mview} {id : Int} {change : MvPeer → MvPeer} (h : Room m id) :
    ∃ p, p.id = id ∧ change p ∈ (withSlot m id change).peer := by
  obtain ⟨⟨peer, i⟩, hslot⟩ := mvPeerSlot_of_room h
  obtain ⟨-, hi, hid⟩ := mvPeerSlot_spec hslot
  rw [withSlot, hslot]
  exact ⟨peer[i], hid, mem_modify_self hi⟩

/-! ## The document after an event -/

/-- A peer that is listed in a state. -/
def Lists (m : Mview) (id : Int) (state : PeerState) : Prop :=
  ∃ p ∈ m.peer, p.id = id ∧ p.state = state

theorem lists_iff_doc {m : Mview} {id : Int} {state : PeerState} (h : state ≠ .gone) :
    (∃ p ∈ (mvDoc m).peers, p.id = id ∧ p.state = state) ↔ Lists m id state := by
  simp only [mvDoc, List.mem_map, List.mem_filter]
  constructor
  · rintro ⟨-, ⟨p, ⟨hp, -⟩, rfl⟩, hid, hstate⟩
    exact ⟨p, hp, hid, hstate⟩
  · rintro ⟨p, hp, hid, rfl⟩
    exact ⟨p.doc, ⟨p, ⟨hp, by simpa using h⟩, rfl⟩, hid, rfl⟩

theorem mvState_serving {m : Mview} {id : Int} (herror : m.error = []) (h : Lists m id .live) :
    mvState m = .serving := by
  obtain ⟨p, hp, -, hlive⟩ := h
  have hany : (m.peer.any fun p => p.state == .live) = true :=
    List.any_eq_true.mpr ⟨p, hp, by simpa using hlive⟩
  simp [mvState, herror, hany]

/-- The document shows what it is for as soon as it lists the peers. -/
theorem shows_iff {m : Mview} {events : List MvEvent} :
    Shows m events ↔
      ∀ id state, lastState events id = some state → state ≠ .gone → Lists m id state := by
  constructor
  · intro h id state hlast hne
    exact (lists_iff_doc hne).mp (h.listed id state hlast hne)
  · intro h
    refine ⟨fun id state hlast hne => (lists_iff_doc hne).mpr (h id state hlast hne), ?_⟩
    rintro herror ⟨id, hlive⟩
    exact mvState_serving herror (h id .live hlive (by simp))

theorem lastState_concat (events : List MvEvent) (e : MvEvent) (id : Int) :
    lastState (events ++ [e]) id = (e.reports id).or (lastState events id) := by
  rw [lastState, List.foldl_concat]
  rfl

/-- A change that leaves the state of a peer alone keeps what is listed. -/
theorem Lists.withSlot {m : Mview} {id i : Int} {state : PeerState} {change : MvPeer → MvPeer}
    (h : Lists m i state) (hid : ∀ p, (change p).id = p.id)
    (hstate : i ≠ id ∨ ∀ p, (change p).state = p.state) :
    Lists (Mview.withSlot m id change) i state := by
  obtain ⟨p, hp, rfl, rfl⟩ := h
  obtain hkept | ⟨hown, hchanged⟩ := mem_withSlot id change hp
  · exact ⟨p, hkept, rfl, rfl⟩
  · have hsame := hstate.resolve_left (not_not.mpr hown)
    exact ⟨change p, hchanged, hid p, hsame p⟩

/-- What was listed stays listed, but for a peer that the event reports. -/
theorem Lists.step {m : Mview} {i : Int} {state : PeerState} (h : Lists m i state)
    (e : MvEvent) (he : e.reports i = none) : Lists (mvStep m e) i state := by
  cases e with
  | peer id s addr =>
      have hne : i ≠ id := by
        rintro rfl
        simp [MvEvent.reports] at he
      exact h.withSlot (fun _ => rfl) (.inl hne)
  | peerRo id => exact h.withSlot (fun _ => rfl) (.inr fun _ => rfl)
  | peerFwdRefused id => exact h.withSlot (fun _ => rfl) (.inr fun _ => rfl)
  | token tok => exact h
  | tokenRo tok => exact h
  | escalate why => exact h
  | escalateClear => exact h
  | error err => exact h

/-- A peer reported with room for it is listed. -/
theorem lists_mvPeerCb {m : Mview} {id : Int} (state : PeerState) (addr : Bytes)
    (h : Room m id) : Lists (mvPeerCb m id state addr) id state := by
  obtain ⟨p, hid, hp⟩ := exists_withSlot h
  exact ⟨_, hp, hid, rfl⟩

/-- One more event: the document goes on showing what it is for exactly when the event finds
room. -/
theorem shows_concat_iff {m : Mview} {events : List MvEvent} (h : Shows m events) (e : MvEvent) :
    Shows (mvStep m e) (events ++ [e]) ↔ RoomFor m e := by
  rw [shows_iff] at h ⊢
  simp only [lastState_concat]
  constructor
  · intro hnext
    cases e with
    | peer id state addr =>
        intro hne
        by_contra hroom
        have hlist := hnext id state (by simp [MvEvent.reports]) hne
        have hsame : mvStep m (.peer id state addr) = m := withSlot_of_not_room hroom
        rw [hsame] at hlist
        obtain ⟨p, hp, hid, -⟩ := hlist
        exact hroom (.inl ⟨p, hp, hid⟩)
    | peerRo | peerFwdRefused | token | tokenRo | escalate | escalateClear | error => trivial
  · intro hroom id state hlast hne
    cases hreport : e.reports id with
    | none =>
        rw [hreport, Option.none_or] at hlast
        exact (h id state hlast hne).step e hreport
    | some s =>
        rw [hreport, Option.some_or, Option.some.injEq] at hlast
        subst hlast
        cases e with
        | peer i s' addr =>
            obtain ⟨rfl, rfl⟩ : i = id ∧ s' = s := by simpa [MvEvent.reports] using hreport
            exact lists_mvPeerCb s' addr (hroom hne)
        | peerRo | peerFwdRefused | token | tokenRo | escalate | escalateClear | error =>
            simp [MvEvent.reports] at hreport

/-- Over any run of events, the document shows after each of them what it is for, if and only
if every event that reports a peer as anything but gone finds a slot of the peer or a free
one. -/
theorem shows_iff_everyStep (events : List MvEvent) :
    (∀ pre, pre <+: events → Shows (run mvStep mviewCreate pre) pre) ↔
      EveryStep mvStep RoomFor mviewCreate events := by
  refine forall_prefix_iff_everyStep (Q := fun pre => Shows (run mvStep mviewCreate pre) pre) ?_ ?_
  · exact ⟨fun _ _ h => by simp [lastState] at h, fun _ ⟨_, h⟩ => by simp [lastState] at h⟩
  · intro pre e _ hpre
    rw [run_concat]
    exact shows_concat_iff hpre e

/-- Eight clients that come and go, and a ninth. -/
def nineClients : List MvEvent :=
  (([1, 2, 3, 4, 5, 6, 7, 8] : List Int).flatMap fun id =>
    [.peer id .live [], .peer id .gone []]) ++
    [.peer 9 .live []]

/-- No two of them are there at one time, and the ninth is not in the document. -/
theorem shows_nineClients :
    (∀ pre, pre <+: nineClients → (present pre).length ≤ 1) ∧
      ¬Shows (run mvStep mviewCreate nineClients) nineClients := by
  constructor
  · have hall : ∀ pre ∈ nineClients.inits, (present pre).length ≤ 1 := by decide
    exact fun pre hpre => hall pre ((List.mem_inits _ _).mpr hpre)
  · intro h
    obtain ⟨p, hp, hid, -⟩ := shows_iff.1 h 9 .live (by decide) (by decide)
    have hnone : ∀ p ∈ (run mvStep mviewCreate nineClients).peer, p.id ≠ 9 := by decide
    exact hnone p hp hid

end Mview
end Comrade
