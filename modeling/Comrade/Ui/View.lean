import Comrade.Token.Codec
import Comrade.Ui.Channel

/-!
# The view

What the view holds of the events it is called with (`ui.c`), on the dashboard and in the log.
A line that is logged is not part of it.

* `viewCall` is one call of the observer: the functions `um_net`, `um_peer` and the others.
* `Painted` says that the view is to be painted again where it holds something else than was
  painted last.
* `foreground_rows`: a foreground that has read all that its service has sent shows, for each
  family, the rows last reported, and no others.
-/

namespace Comrade
namespace Ui

open Lib Token

/-! ## Rows -/

/-- `NETSTATE_ROWS_MAX`. -/
def netstateRowsMax : Nat := 12

/-- `UI_NET_MAX`. -/
def uiNetMax : Nat := 2 * netstateRowsMax

/-- The size of the tables of links and of peers. -/
def uiRowsMax : Nat := 8

/-- `struct netrow`. -/
structure NetRow where
  family : Int32
  scope : Int32
  via : Int32
  addr : Bytes
  deriving DecidableEq

/-- `struct linkrow`. -/
structure LinkRow where
  name : Bytes
  has4 : Int32
  has6 : Int32
  deriving DecidableEq

/-- `struct rdvrow`. -/
structure RdvRow where
  family : Int32
  ready : Int32
  addr : Bytes
  deriving DecidableEq

/-- `struct peerrow`. -/
structure PeerRow where
  id : Int32
  state : Int32
  link : Int32
  rttMs : Int32
  readOnly : Bool
  nproven : Int32
  lostMs : UInt64
  addr : Bytes
  ident : Bytes
  deriving DecidableEq

/-- `CONN_CONNECTING`. -/
def connConnecting : Int32 := 0

/-- `CONN_LOST`. -/
def connLost : Int32 := 4

/-- `SESSION_PEER_GONE`. -/
def sessionPeerGone : Int32 := 3

/-- The fields of `struct ui` that events are kept in. -/
structure Shown where
  net : List NetRow
  mapping : Option Int32
  conn4 : Int32
  conn6 : Int32
  link : List LinkRow
  rdv4 : RdvRow
  rdv6 : RdvRow
  stage4 : Int32
  stage6 : Int32
  mb : Option SessionMailbox
  token : Option Bytes
  tokSt4 : TokenState
  tokSt6 : TokenState
  tokenRo : Option Bytes
  peer : List PeerRow
  escalate : Option Bytes
  established : Bool
  deriving DecidableEq

/-- `struct ui`: whether it is the dashboard, whether it is to be painted, and what it holds. -/
structure View where
  anim : Bool
  dirty : Bool
  shown : Shown

/-- `ui_create`. -/
def shownStart : Shown where
  net := []
  mapping := none
  conn4 := 0
  conn6 := 0
  link := []
  rdv4 := ⟨0, 0, []⟩
  rdv6 := ⟨0, 0, []⟩
  stage4 := -1
  stage6 := -1
  mb := none
  token := none
  tokSt4 := .pending
  tokSt6 := .pending
  tokenRo := none
  peer := []
  escalate := none
  established := false

/-- What `snprintf(buf, n, "%s", t)` leaves in the buffer. -/
def fitted (n : Nat) (t : Bytes) : Bytes := t.take (n - 1)

/-- The new contents, and a mark that they are to be painted. -/
def View.marked (u : View) (shown : Shown) : View :=
  { u with shown := shown, dirty := u.dirty || u.anim }

/-! ## Calls -/

/-- The loop of `um_net`: a second report of an address carries its revision. -/
def netRevise (r : NetRow) : List NetRow → Option (List NetRow)
  | [] => none
  | x :: rows =>
      if x.family = r.family ∧ x.addr = r.addr then some ({ x with via := r.via } :: rows)
      else (netRevise r rows).map fun rows => x :: rows

/-- `um_net`, on the rows. -/
def netNote (rows : List NetRow) (r : NetRow) : List NetRow :=
  match netRevise r rows with
  | some rows => rows
  | none =>
      if uiNetMax ≤ rows.length then rows else rows ++ [{ r with addr := fitted 80 r.addr }]

/-- `um_net`. -/
def umNet (u : View) (r : NetRow) : View :=
  let rows := netNote u.shown.net r
  if rows = u.shown.net then u else u.marked { u.shown with net := rows }

/-- `um_link`. -/
def umLink (u : View) (name : Bytes) (has4 has6 : Int32) : View :=
  if (u.shown.link.any fun l => l.name == name) || uiRowsMax ≤ u.shown.link.length then u
  else u.marked { u.shown with link := u.shown.link ++ [⟨fitted 32 name, has4, has6⟩] }

/-- `um_rdv`: the slot of the family; it is written in any case, and marked if it was another. -/
def umRdv (u : View) (family ready : Int32) (addr : Bytes) : View :=
  let old := if family = 4 then u.shown.rdv4 else u.shown.rdv6
  let row : RdvRow := ⟨family, ready, fitted 80 addr⟩
  let shown := if family = 4 then { u.shown with rdv4 := row } else { u.shown with rdv6 := row }
  if old.family = family ∧ old.ready = ready ∧ old.addr = addr then { u with shown := shown }
  else u.marked shown

/-- `um_mailbox`. -/
def umMailbox (u : View) (m : SessionMailbox) : View :=
  if u.shown.mb = some m then u else u.marked { u.shown with mb := some m }

/-- A peer's row after `um_peer_link`. -/
def PeerRow.linked (p : PeerRow) (state rttMs nproven : Int32) (now : UInt64) : PeerRow :=
  { p with
    lostMs :=
      if state = connLost ∧ p.link ≠ connLost then now
      else if state ≠ connLost then 0
      else p.lostMs
    link := state
    rttMs := rttMs
    nproven := nproven }

/-- `um_peer_link`. -/
def umPeerLink (u : View) (id state rttMs nproven : Int32) (now : UInt64) : View :=
  match u.shown.peer.findIdx? fun p => p.id == id with
  | none => u
  | some i =>
      let same := (u.shown.peer[i]?.map fun p =>
        p.link == state && p.rttMs == rttMs && p.nproven == nproven).getD false
      if same = true then u
      else u.marked { u.shown with
        peer := u.shown.peer.modify i fun p => p.linked state rttMs nproven now }

/-- `um_rdv_stage`. -/
def umRdvStage (u : View) (family stage : Int32) : View :=
  if family = 6 then
    if u.shown.stage6 = stage then u else u.marked { u.shown with stage6 := stage }
  else if u.shown.stage4 = stage then u
  else u.marked { u.shown with stage4 := stage }

/-- `um_token`: what the token says is read out of it. -/
def umToken (u : View) (tok : Bytes) : View :=
  let kept := fitted 256 tok
  match tokenDecode kept with
  | .ok t =>
      u.marked { u.shown with token := some kept, tokSt4 := t.state4, tokSt6 := t.state6 }
  | .error _ => u.marked { u.shown with token := some kept }

/-- A text for a peer's address. -/
def haveAddr (addr : Bytes) : Bool := addr != [] && addr.head? != some (ch '-')

/-- A new connection's row.  `um_peer` leaves the time in it that the slot held; nothing reads it
before the link is lost, and that sets it. -/
def freshPeerRow (id : Int32) : PeerRow := ⟨id, 0, connConnecting, -1, false, 0, 0, [], []⟩

/-- `um_peer`, on the table: its rows are keyed by the connection's id. -/
def peerNote (rows : List PeerRow) (id state : Int32) (addr : Bytes) : List PeerRow :=
  let change (p : PeerRow) : PeerRow :=
    { p with
      state := state
      addr := if haveAddr addr = true then fitted 80 addr else p.addr }
  match rows.findIdx? fun p => p.id == id with
  | some i => if state = sessionPeerGone then rows.eraseIdx i else rows.modify i change
  | none =>
      if state = sessionPeerGone ∨ uiRowsMax ≤ rows.length then rows
      else rows ++ [change (freshPeerRow id)]

/-- `um_peer`: the log has no table. -/
def umPeer (u : View) (id state : Int32) (addr : Bytes) : View :=
  if u.anim = false then u
  else
    let rows := peerNote u.shown.peer id state addr
    if rows = u.shown.peer ∧ (u.shown.peer.any fun p => p.id == id) = false then u
    else u.marked { u.shown with peer := rows }

/-- A change of the row of a connection, where it has one: `um_peer_ro` and `um_peer_ident`. -/
def withPeer (u : View) (id : Int32) (change : PeerRow → PeerRow) : View :=
  if u.anim = false then u
  else
    match u.shown.peer.findIdx? fun p => p.id == id with
    | none => u
    | some i => u.marked { u.shown with peer := u.shown.peer.modify i change }

/-- `um_peer_ro`. -/
def umPeerRo (u : View) (id : Int32) : View := withPeer u id fun p => { p with readOnly := true }

/-- `um_peer_ident`. -/
def umPeerIdent (u : View) (id : Int32) (ident : Bytes) : View :=
  withPeer u id fun p => { p with ident := fitted 16 ident }

/-- `um_escalate`: the log has no row for it. -/
def umEscalate (u : View) (why : Bytes) : View :=
  if u.anim = false then u else u.marked { u.shown with escalate := some (fitted 160 why) }

/-- `um_escalate_clear`. -/
def umEscalateClear (u : View) : View :=
  if u.anim = false ∨ u.shown.escalate = none then u
  else u.marked { u.shown with escalate := none }

/-- `um_net_conn`. -/
def umNetConn (u : View) (family status : Int32) : View :=
  u.marked
    (if family = 6 then { u.shown with conn6 := status } else { u.shown with conn4 := status })

/-- `um_reset`: a roam tore the path down. -/
def umReset (u : View) : View :=
  u.marked { u.shown with
    net := []
    mapping := none
    conn4 := 0
    conn6 := 0
    peer := []
    established := false }

/-- `um_net_reset`: one family's rows, or both for 0. -/
def umNetReset (u : View) (family : Int32) : View :=
  u.marked { u.shown with
    net := u.shown.net.filter fun r => family != 0 && r.family != family }

/-- A call of the observer, at a time that the view reads. -/
def viewCall (now : UInt64) (u : View) : UiEvent → View
  | .net f sc v ad => umNet u ⟨f, sc, v, ad⟩
  | .mapping4 d => u.marked { u.shown with mapping := some d }
  | .netConn f st => umNetConn u f st
  | .link n h4 h6 => umLink u n h4 h6
  | .rendezvous f ad rd => umRdv u f rd ad
  | .rdvStage f st => umRdvStage u f st
  | .mailbox m => umMailbox u m
  | .peerLink id st rtt np => umPeerLink u id st rtt np now
  | .token t => umToken u t
  | .tokenRo t => u.marked { u.shown with tokenRo := some (fitted 256 t) }
  | .peer id s ad => umPeer u id s ad
  | .peerRo id => umPeerRo u id
  | .peerIdent id t => umPeerIdent u id t
  | .reset => umReset u
  | .linkReset => u.marked { u.shown with link := [] }
  | .netReset f => umNetReset u f
  | .escalate w => umEscalate u w
  | .escalateClear => umEscalateClear u
  | .established => u.marked { u.shown with established := true }

/-! ## What is to be painted -/

/-- The slots keep what fits them. -/
structure SlotsFit (shown : Shown) : Prop where
  rdv4 : shown.rdv4.addr.length < 80
  rdv6 : shown.rdv6.addr.length < 80

/-- What a dashboard holds has been painted, or is marked. -/
structure Painted (painted : Shown) (u : View) : Prop where
  anim : u.anim = true
  fit : SlotsFit u.shown
  known : u.dirty = true ∨ u.shown = painted

theorem Painted.marked {painted : Shown} {u : View} (h : Painted painted u) {shown : Shown}
    (hfit : SlotsFit shown) : Painted painted (u.marked shown) where
  anim := h.anim
  fit := hfit
  known := Or.inl (by simp [View.marked, h.anim])

theorem Painted.marked_or {painted : Shown} {u : View} (h : Painted painted u) {c : Prop}
    [Decidable c] {shown : Shown} (hfit : SlotsFit shown) :
    Painted painted (if c then u else u.marked shown) := by
  split_ifs
  · exact h
  · exact h.marked hfit

theorem Painted.withPeer {painted : Shown} {u : View} (h : Painted painted u) (id : Int32)
    (change : PeerRow → PeerRow) : Painted painted (withPeer u id change) := by
  rw [Ui.withPeer]
  split_ifs
  · exact h
  · split
    · exact h
    · exact h.marked { h.fit with }

theorem length_fitted_lt {n : Nat} (hn : 0 < n) (t : Bytes) : (fitted n t).length < n := by
  rw [fitted, List.length_take]
  omega

/-- A slot that is written and not marked is written as it was. -/
theorem rdvRow_eq_of_same {old : RdvRow} (hfit : old.addr.length < 80) {family ready : Int32}
    {addr : Bytes} (h : old.family = family ∧ old.ready = ready ∧ old.addr = addr) :
    (⟨family, ready, fitted 80 addr⟩ : RdvRow) = old := by
  obtain ⟨rfl, rfl, rfl⟩ := h
  rw [fitted, List.take_of_length_le (by omega)]

theorem Painted.umRdv {painted : Shown} {u : View} (h : Painted painted u)
    (family ready : Int32) (addr : Bytes) : Painted painted (umRdv u family ready addr) := by
  have hlen : (fitted 80 addr).length < 80 := length_fitted_lt (by omega) addr
  rw [Ui.umRdv]
  by_cases hfam : family = 4
  · simp only [if_pos hfam]
    split_ifs with hsame
    · rw [rdvRow_eq_of_same h.fit.rdv4 hsame]
      exact ⟨h.anim, h.fit, h.known⟩
    · exact h.marked { h.fit with rdv4 := hlen }
  · simp only [if_neg hfam]
    split_ifs with hsame
    · rw [rdvRow_eq_of_same h.fit.rdv6 hsame]
      exact ⟨h.anim, h.fit, h.known⟩
    · exact h.marked { h.fit with rdv6 := hlen }

theorem Painted.call {painted : Shown} {u : View} (h : Painted painted u) (now : UInt64)
    (e : UiEvent) : Painted painted (viewCall now u e) := by
  cases e with
  | net f sc v ad => exact h.marked_or { h.fit with }
  | link n h4 h6 => exact h.marked_or { h.fit with }
  | rendezvous f ad rd => exact h.umRdv f rd ad
  | mailbox m => exact h.marked_or { h.fit with }
  | netConn f st =>
      simp only [viewCall, umNetConn]
      split_ifs <;> exact h.marked { h.fit with }
  | rdvStage f st =>
      simp only [viewCall, umRdvStage]
      split_ifs
      · exact h
      · exact h.marked { h.fit with }
      · exact h
      · exact h.marked { h.fit with }
  | peerLink id st rtt np =>
      simp only [viewCall, umPeerLink]
      split
      · exact h
      · exact h.marked_or { h.fit with }
  | token t =>
      simp only [viewCall, umToken]
      split <;> exact h.marked { h.fit with }
  | peer id s ad =>
      simp only [viewCall, umPeer]
      split_ifs
      · exact h
      · exact h
      · exact h.marked { h.fit with }
  | peerRo id => exact h.withPeer id _
  | peerIdent id t => exact h.withPeer id _
  | escalate w => exact h.marked_or { h.fit with }
  | escalateClear => exact h.marked_or { h.fit with }
  | mapping4 | tokenRo | reset | linkReset | netReset | established =>
      exact h.marked { h.fit with }

/-! ## One family's rows -/

theorem netRevise_cons (r x : NetRow) (rows : List NetRow) :
    netRevise r (x :: rows) =
      if x.family = r.family ∧ x.addr = r.addr then some ({ x with via := r.via } :: rows)
      else (netRevise r rows).map fun rows => x :: rows := rfl

/-- The rows of a family. -/
def familyRows (f : Int32) (rows : List NetRow) : List NetRow :=
  rows.filter fun r => r.family == f

theorem netRevise_family {r : NetRow} {f : Int32} (hf : r.family = f) (rows : List NetRow) :
    netRevise r (familyRows f rows) = (netRevise r rows).map (familyRows f) := by
  induction rows with
  | nil => rfl
  | cons x rows ih =>
      by_cases hx : x.family = f
      · have hcons : familyRows f (x :: rows) = x :: familyRows f rows := by
          simp [familyRows, hx]
        rw [hcons, netRevise_cons, netRevise_cons]
        split_ifs
        · simp [familyRows, hx]
        · rw [ih, Option.map_map, Option.map_map]
          congr 1
          funext rows'
          simp [familyRows, hx]
      · have hcons : familyRows f (x :: rows) = familyRows f rows := by
          simp [familyRows, hx]
        rw [hcons, ih, netRevise_cons, if_neg (by simp [hf, hx]), Option.map_map]
        congr 1
        funext rows'
        simp [familyRows, hx]

theorem netRevise_others {r : NetRow} {g : Int32} (hg : r.family ≠ g) {rows rows' : List NetRow}
    (h : netRevise r rows = some rows') : familyRows g rows' = familyRows g rows := by
  induction rows generalizing rows' with
  | nil => cases h
  | cons x rows ih =>
      rw [netRevise_cons] at h
      split_ifs at h with hx
      · obtain rfl := Option.some.inj h
        have hxg : x.family ≠ g := hx.1 ▸ hg
        simp [familyRows, hxg]
      · obtain ⟨rows'', hrows, rfl⟩ := Option.map_eq_some_iff.mp h
        have htail := ih hrows
        simp only [familyRows] at htail ⊢
        rw [List.filter_cons, List.filter_cons, htail]

theorem netRevise_map_family {r : NetRow} {rows rows' : List NetRow}
    (h : netRevise r rows = some rows') : rows'.map NetRow.family = rows.map NetRow.family := by
  induction rows generalizing rows' with
  | nil => cases h
  | cons x rows ih =>
      rw [netRevise_cons] at h
      split_ifs at h
      · obtain rfl := Option.some.inj h
        rfl
      · obtain ⟨rows'', hrows, rfl⟩ := Option.map_eq_some_iff.mp h
        rw [List.map_cons, List.map_cons, ih hrows]

/-- One family's rows with one more reported. -/
def noteRow (rows : List NetRow) (r : NetRow) : List NetRow :=
  (netRevise r rows).getD (rows ++ [r])

theorem length_noteRow (rows : List NetRow) (r : NetRow) :
    (noteRow rows r).length ≤ rows.length + 1 := by
  rw [noteRow]
  cases h : netRevise r rows with
  | none => simp
  | some rows' =>
      have hlen := congrArg List.length (netRevise_map_family h)
      rw [List.length_map, List.length_map] at hlen
      rw [Option.getD_some]
      omega

/-- Where the table has room, a report is noted among the rows of its family. -/
theorem familyRows_netNote {rows : List NetRow} {r : NetRow} (hroom : rows.length < uiNetMax)
    (haddr : r.addr.length < 80) :
    familyRows r.family (netNote rows r) = noteRow (familyRows r.family rows) r := by
  have hfit : fitted 80 r.addr = r.addr := by
    rw [fitted, List.take_of_length_le (by omega)]
  rw [noteRow, netRevise_family rfl, netNote]
  cases netRevise r rows with
  | some rows' => rfl
  | none =>
      dsimp only
      rw [if_neg (by omega), hfit]
      simp [familyRows]

theorem familyRows_netNote_others {rows : List NetRow} {r : NetRow} {g : Int32}
    (hg : r.family ≠ g) : familyRows g (netNote rows r) = familyRows g rows := by
  rw [netNote]
  cases h : netRevise r rows with
  | some rows' => exact netRevise_others hg h
  | none =>
      dsimp only
      split_ifs
      · rfl
      · simp [familyRows, hg]

/-- Every row is of one of the two families. -/
def Families (rows : List NetRow) : Prop := ∀ x ∈ rows, x.family = 4 ∨ x.family = 6

theorem Families.length_eq {rows : List NetRow} (h : Families rows) :
    rows.length = (familyRows 4 rows).length + (familyRows 6 rows).length := by
  induction rows with
  | nil => rfl
  | cons x rows ih =>
      obtain ⟨hx, hrows⟩ := List.forall_mem_cons.mp h
      have hlen := ih hrows
      rcases hx with hx | hx
      · simp only [familyRows, List.filter_cons, hx] at hlen ⊢
        simp
        omega
      · simp only [familyRows, List.filter_cons, hx] at hlen ⊢
        simp
        omega

theorem Families.netNote {rows : List NetRow} (h : Families rows) {r : NetRow}
    (hr : r.family = 4 ∨ r.family = 6) : Families (netNote rows r) := by
  rw [Ui.netNote]
  cases hrevise : netRevise r rows with
  | some rows' =>
      have hmap := netRevise_map_family hrevise
      intro x hx
      have hmem : x.family ∈ rows.map NetRow.family := hmap ▸ List.mem_map_of_mem hx
      obtain ⟨y, hy, heq⟩ := List.mem_map.mp hmem
      exact heq ▸ h y hy
  | none =>
      dsimp only
      split_ifs
      · exact h
      · intro x hx
        rcases List.mem_append.mp hx with hx | hx
        · exact h x hx
        · rw [List.mem_singleton.mp hx]
          exact hr

/-- Both families' rows are within what is reported of a family. -/
structure NetRoom (rows : List NetRow) : Prop where
  families : Families rows
  four : (familyRows 4 rows).length ≤ netstateRowsMax
  six : (familyRows 6 rows).length ≤ netstateRowsMax

theorem NetRoom.of_family {rows : List NetRow} (h : NetRoom rows) {f : Int32}
    (hf : f = 4 ∨ f = 6) : (familyRows f rows).length ≤ netstateRowsMax := by
  rcases hf with rfl | rfl
  · exact h.four
  · exact h.six

/-- The table has room for a row of a family that has less than its number. -/
theorem NetRoom.room {rows : List NetRow} (h : NetRoom rows) {f : Int32} (hf : f = 4 ∨ f = 6)
    (hless : (familyRows f rows).length < netstateRowsMax) : rows.length < uiNetMax := by
  have hlen := h.families.length_eq
  have hfour := h.four
  have hsix := h.six
  rcases hf with rfl | rfl
  · simp only [uiNetMax]
    omega
  · simp only [uiNetMax]
    omega

/-- A row that is noted in the room of its family. -/
theorem NetRoom.netNote {rows : List NetRow} (h : NetRoom rows) {r : NetRow}
    (hr : r.family = 4 ∨ r.family = 6) (haddr : r.addr.length < 80)
    (hless : (familyRows r.family rows).length < netstateRowsMax) : NetRoom (netNote rows r) := by
  have hown : (familyRows r.family (Ui.netNote rows r)).length ≤ netstateRowsMax := by
    rw [familyRows_netNote (h.room hr hless) haddr]
    have hlen := length_noteRow (familyRows r.family rows) r
    omega
  have hall : ∀ g, g = 4 ∨ g = 6 →
      (familyRows g (Ui.netNote rows r)).length ≤ netstateRowsMax := by
    intro g hg
    by_cases hrg : r.family = g
    · exact hrg ▸ hown
    · rw [familyRows_netNote_others hrg]
      exact h.of_family hg
  exact ⟨h.families.netNote hr, hall 4 (Or.inl rfl), hall 6 (Or.inr rfl)⟩

/-! ## Reports -/

/-- `struct netstate_row`, as it is reported. -/
structure RowText where
  scope : Int32
  via : Int32
  text : Bytes

/-- What `inet_ntop` writes is neither empty nor too long for the row, and does not start with
white space. -/
structure RowText.Plain (r : RowText) : Prop where
  ne_nil : r.text ≠ []
  front : Stops isSpace r.text
  length_lt : r.text.length < 80

/-- The row of a family. -/
def RowText.row (f : Int32) (r : RowText) : NetRow := ⟨f, r.scope, r.via, r.text⟩

/-- What the session reports at one time: a family's rows, which goes through `obsemit_rows`, or
something else. -/
inductive Report where
  | rows (f : Int32) (rs : List RowText)
  | other (e : UiEvent)

/-- The events of a report; `obsemit_rows` takes the family's rows down first. -/
def Report.events : Report → List UiEvent
  | .rows f rs => .netReset f :: rs.map fun r => .net f r.scope r.via r.text
  | .other e => [e]

/-- A report that the session makes: no more rows than `netstate_rows` offers, and no rows
other than through `obsemit_rows`. -/
def Report.Ok : Report → Prop
  | .rows f rs => (f = 4 ∨ f = 6) ∧ rs.length ≤ netstateRowsMax ∧ ∀ r ∈ rs, r.Plain
  | .other (.net ..) => False
  | .other (.netReset _) => False
  | .other _ => True

/-- A family's rows after a report, where two rows of one address are one. -/
def Report.after (f : Int32) (rows : List NetRow) : Report → List NetRow
  | .rows g rs => if g = f then (rs.map (RowText.row f)).foldl noteRow [] else rows
  | .other .reset => []
  | .other _ => rows

/-- What a call does to the table of addresses. -/
def netCall (rows : List NetRow) : UiEvent → List NetRow
  | .net f sc v ad => netNote rows ⟨f, sc, v, ad⟩
  | .netReset f => rows.filter fun r => f != 0 && r.family != f
  | .reset => []
  | _ => rows

theorem withPeer_net (u : View) (id : Int32) (change : PeerRow → PeerRow) :
    (withPeer u id change).shown.net = u.shown.net := by
  rw [withPeer]
  split_ifs
  · rfl
  · split <;> rfl

theorem viewCall_net (now : UInt64) (u : View) (e : UiEvent) :
    (viewCall now u e).shown.net = netCall u.shown.net e := by
  cases e with
  | net f sc v ad =>
      simp only [viewCall, umNet]
      split_ifs with h
      · exact h.symm
      · rfl
  | peerRo id => exact withPeer_net u id _
  | peerIdent id t => exact withPeer_net u id _
  | mapping4 | tokenRo | reset | linkReset | netReset | established => rfl
  | netConn f st =>
      simp only [viewCall, umNetConn, View.marked]
      split_ifs <;> rfl
  | link n h4 h6 =>
      simp only [viewCall, umLink, View.marked]
      split_ifs <;> rfl
  | rendezvous f ad rd =>
      simp only [viewCall, umRdv, View.marked]
      split_ifs <;> rfl
  | rdvStage f st =>
      simp only [viewCall, umRdvStage, View.marked]
      split_ifs <;> rfl
  | mailbox m =>
      simp only [viewCall, umMailbox, View.marked]
      split_ifs <;> rfl
  | peerLink id st rtt np =>
      simp only [viewCall, umPeerLink, View.marked]
      split
      · rfl
      · split_ifs <;> rfl
  | token t =>
      simp only [viewCall, umToken, View.marked]
      split <;> rfl
  | peer id st ad =>
      simp only [viewCall, umPeer, View.marked]
      split_ifs <;> rfl
  | escalate w =>
      simp only [viewCall, umEscalate, View.marked]
      split_ifs <;> rfl
  | escalateClear =>
      simp only [viewCall, umEscalateClear, View.marked]
      split_ifs <;> rfl

/-- The rows of a report, one after the other. -/
theorem foldl_rows {f : Int32} (hf : f = 4 ∨ f = 6) {rs : List RowText}
    (hplain : ∀ r ∈ rs, r.Plain) {rows : List NetRow} (h : NetRoom rows)
    (hroom : (familyRows f rows).length + rs.length ≤ netstateRowsMax) :
    let rows' := (rs.map (RowText.row f)).foldl netNote rows
    NetRoom rows' ∧
      familyRows f rows' = (rs.map (RowText.row f)).foldl noteRow (familyRows f rows) ∧
      ∀ g, g ≠ f → familyRows g rows' = familyRows g rows := by
  induction rs generalizing rows with
  | nil => exact ⟨h, rfl, fun _ _ => rfl⟩
  | cons r rs ih =>
      obtain ⟨hr, hrs⟩ := List.forall_mem_cons.mp hplain
      rw [List.length_cons] at hroom
      have hless : (familyRows f rows).length < netstateRowsMax := by omega
      have hnote := familyRows_netNote (r := r.row f) (h.room hf hless) hr.length_lt
      have hlen := length_noteRow (familyRows f rows) (r.row f)
      obtain ⟨hroom', hown, hothers⟩ := ih hrs (h.netNote (r := r.row f) hf hr.length_lt hless) (by
        rw [show familyRows f (netNote rows (r.row f)) = _ from hnote]
        have hlen' : (noteRow (familyRows (r.row f).family rows) (r.row f)).length ≤
            (familyRows f rows).length + 1 := hlen
        omega)
      refine ⟨hroom', ?_, ?_⟩
      · rw [List.map_cons, List.foldl_cons, List.foldl_cons, hown]
        exact congrArg (fun start => (rs.map (RowText.row f)).foldl noteRow start) hnote
      · intro g hg
        rw [List.map_cons, List.foldl_cons, hothers g hg]
        exact familyRows_netNote_others (Ne.symm hg)

/-- What is heard of a report that is made. -/
theorem heard_rows (f : Int32) {rs : List RowText} (h : ∀ r ∈ rs, r.Plain) :
    (Report.rows f rs).events.filterMap heardAs = (Report.rows f rs).events := by
  have hrow : ∀ r : RowText, r.Plain → heardAs (.net f r.scope r.via r.text) =
      some (.net f r.scope r.via r.text) := by
    intro r hr
    have hlen := hr.length_lt
    rw [heardAs, lineText_of_plain hr.front (by omega), someText_of_ne hr.ne_nil]
    rfl
  rw [Report.events, List.filterMap_cons_some (show heardAs (.netReset f) = some (.netReset f)
    from rfl)]
  congr 1
  induction rs with
  | nil => rfl
  | cons r rs ih =>
      obtain ⟨hr, hrs⟩ := List.forall_mem_cons.mp h
      rw [List.map_cons, List.filterMap_cons_some (hrow r hr), ih hrs]

theorem NetRoom.nil : NetRoom [] where
  families := by simp [Families]
  four := by simp [familyRows]
  six := by simp [familyRows]

/-- Taking a family's rows down. -/
theorem netReset_rows {f : Int32} (hf : f = 4 ∨ f = 6) {rows : List NetRow} (h : NetRoom rows) :
    let rows' := netCall rows (.netReset f)
    NetRoom rows' ∧ familyRows f rows' = [] ∧
      ∀ g, g ≠ f → familyRows g rows' = familyRows g rows := by
  intro rows'
  have hrows' : rows' = rows.filter fun r => r.family != f := by
    have hne : (f != 0) = true := by
      rcases hf with rfl | rfl <;> rfl
    change rows.filter _ = _
    simp [hne]
  have hown : familyRows f rows' = [] := by
    rw [hrows', familyRows, List.filter_filter]
    simp
  have hothers : ∀ g, g ≠ f → familyRows g rows' = familyRows g rows := by
    intro g hg
    rw [hrows', familyRows, familyRows, List.filter_filter]
    refine List.filter_congr ?_
    intro r _
    by_cases hr : r.family = g
    · simp [hr, hg]
    · simp [hr]
  have hall : ∀ g, g = 4 ∨ g = 6 → (familyRows g rows').length ≤ netstateRowsMax := by
    intro g hg
    by_cases hgf : g = f
    · rw [hgf, hown]
      simp
    · rw [hothers g hgf]
      exact h.of_family hg
  refine ⟨⟨?_, hall 4 (Or.inl rfl), hall 6 (Or.inr rfl)⟩, hown, hothers⟩
  intro x hx
  rw [hrows'] at hx
  exact h.families x (List.mem_of_mem_filter hx)

/-- What is heard of anything else leaves the table as it is, or empty. -/
theorem foldl_other {e : UiEvent} (hok : (Report.other e).Ok) (rows : List NetRow) :
    (heardAs e).toList.foldl netCall rows = if e = .reset then [] else rows := by
  cases e with
  | net => exact False.elim hok
  | netReset => exact False.elim hok
  | reset =>
      rw [if_pos rfl]
      rfl
  | link n h4 h6 =>
      rw [heardAs]
      cases someText (lineText 31 n) <;> rfl
  | rendezvous f ad rd =>
      rw [heardAs]
      cases someText (lineText 79 ad) <;> rfl
  | token t =>
      rw [heardAs]
      cases someText (wordText 255 t) <;> rfl
  | tokenRo t =>
      rw [heardAs]
      cases someText (wordText 255 t) <;> rfl
  | peerIdent id t =>
      rw [heardAs]
      cases someText (wordText 15 t) <;> rfl
  | escalate w =>
      rw [heardAs]
      cases someText (lineText 159 w) <;> rfl
  | mapping4 | netConn | rdvStage | mailbox | peerLink | peer | peerRo | linkReset | escalateClear
  | established => rfl

theorem after_other {e : UiEvent} (f : Int32) (rows : List NetRow) :
    Report.after f rows (.other e) = if e = .reset then [] else rows := by
  cases e <;> rfl

/-- What is heard of a report, on the table. -/
theorem foldl_heard {report : Report} (hok : report.Ok) {rows : List NetRow} (h : NetRoom rows)
    {f : Int32} (hf : f = 4 ∨ f = 6) :
    let rows' := (report.events.filterMap heardAs).foldl netCall rows
    NetRoom rows' ∧ familyRows f rows' = report.after f (familyRows f rows) := by
  intro rows'
  cases report with
  | rows g rs =>
      obtain ⟨hg, hmax, hplain⟩ := hok
      obtain ⟨hroom, hempty, hothers⟩ := netReset_rows hg h
      have hfold : rows' = (rs.map (RowText.row g)).foldl netNote (netCall rows (.netReset g)) := by
        change ((Report.rows g rs).events.filterMap heardAs).foldl netCall rows = _
        rw [heard_rows g hplain, Report.events, List.foldl_cons, List.foldl_map, List.foldl_map]
        rfl
      obtain ⟨hroom', hown', hothers'⟩ := foldl_rows hg hplain hroom (by
        rw [hempty, List.length_nil]
        omega)
      rw [hfold]
      refine ⟨hroom', ?_⟩
      by_cases hgf : g = f
      · subst hgf
        rw [hown', hempty]
        simp [Report.after]
      · rw [hothers' f (Ne.symm hgf), hothers f (Ne.symm hgf)]
        simp [Report.after, hgf]
  | other e =>
      have hkeep : rows' = (heardAs e).toList.foldl netCall rows := by
        change ([e].filterMap heardAs).foldl netCall rows = _
        cases hheard : heardAs e <;> simp [hheard]
      rw [hkeep, foldl_other hok, after_other]
      split_ifs
      · exact ⟨.nil, rfl⟩
      · exact ⟨h, rfl⟩

/-- Reports one after the other. -/
theorem foldl_reports {reports : List Report} (hok : ∀ r ∈ reports, r.Ok) {rows : List NetRow}
    (h : NetRoom rows) {f : Int32} (hf : f = 4 ∨ f = 6) :
    familyRows f (((reports.flatMap Report.events).filterMap heardAs).foldl netCall rows) =
      reports.foldl (Report.after f) (familyRows f rows) := by
  induction reports generalizing rows with
  | nil => rfl
  | cons r reports ih =>
      obtain ⟨hr, hreports⟩ := List.forall_mem_cons.mp hok
      obtain ⟨hroom, hafter⟩ := foldl_heard hr h hf
      rw [List.flatMap_cons, List.filterMap_append, List.foldl_append, ih hreports hroom, hafter,
        List.foldl_cons]

/-- Calls of the view, each at the time the view reads then. -/
def viewCalls (u : View) (calls : List (UInt64 × UiEvent)) : View :=
  calls.foldl (fun u c => viewCall c.1 u c.2) u

theorem viewCalls_net (u : View) (calls : List (UInt64 × UiEvent)) :
    (viewCalls u calls).shown.net = (calls.map Prod.snd).foldl netCall u.shown.net := by
  induction calls generalizing u with
  | nil => rfl
  | cons c calls ih =>
      rw [List.map_cons, List.foldl_cons, ← viewCall_net c.1 u c.2]
      exact ih (viewCall c.1 u c.2)

theorem netRevise_none {r : NetRow} {rows : List NetRow} (h : ∀ x ∈ rows, x.addr ≠ r.addr) :
    netRevise r rows = none := by
  induction rows with
  | nil => rfl
  | cons x rows ih =>
      obtain ⟨hx, hrows⟩ := List.forall_mem_cons.mp h
      rw [netRevise_cons, if_neg (by simp [hx]), ih hrows]
      rfl

/-- Rows of different addresses are noted as they are. -/
theorem foldl_noteRow_of_nodup {rows added : List NetRow}
    (h : ((rows ++ added).map NetRow.addr).Nodup) : added.foldl noteRow rows = rows ++ added := by
  induction added generalizing rows with
  | nil => simp
  | cons r added ih =>
      have hnew : ∀ x ∈ rows, x.addr ≠ r.addr := by
        intro x hx heq
        rw [List.map_append, List.nodup_append] at h
        exact h.2.2 x.addr (List.mem_map_of_mem hx) r.addr (by simp) heq
      have happend : rows ++ r :: added = rows ++ [r] ++ added := by simp
      rw [happend] at h
      rw [List.foldl_cons, noteRow, netRevise_none hnew, Option.getD_none, ih h, happend]

/-- A report that leaves a family's rows as they are. -/
def Report.Keeps (f : Int32) : Report → Prop
  | .rows g _ => g ≠ f
  | .other e => e ≠ .reset

theorem foldl_after_keeps {f : Int32} {reports : List Report} (h : ∀ r ∈ reports, r.Keeps f)
    (rows : List NetRow) : reports.foldl (Report.after f) rows = rows := by
  induction reports with
  | nil => rfl
  | cons r reports ih =>
      obtain ⟨hr, hreports⟩ := List.forall_mem_cons.mp h
      have hafter : Report.after f rows r = rows := by
        cases r with
        | rows g rs => simp [Report.after, show g ≠ f from hr]
        | other e => rw [after_other, if_neg hr]
      rw [List.foldl_cons, hafter, ih hreports]

/-- The rows that are left, where the last report of the family is known. -/
theorem foldl_after_last {f : Int32} {rs : List RowText} (hrs : (rs.map RowText.text).Nodup)
    {post : List Report} (hpost : ∀ r ∈ post, r.Keeps f) (pre : List Report) :
    (pre ++ .rows f rs :: post).foldl (Report.after f) [] = rs.map (RowText.row f) := by
  have haddr : ((rs.map (RowText.row f)).map NetRow.addr).Nodup := by
    rw [List.map_map]
    exact hrs
  rw [List.foldl_append, List.foldl_cons, foldl_after_keeps hpost, Report.after, if_pos rfl]
  have hrows := @foldl_noteRow_of_nodup [] _ haddr
  simpa using hrows

/-- A foreground that has read all that its service has sent shows for each family the rows of
the last report of it, with one row for each address, and none after a reset; whatever else
was reported, and at whatever times the view is called.  In particular it shows just the rows
of a report that neither another of the family nor a reset follows. -/
theorem foreground_rows {steps : List UiStep} (hsteps : ∀ e, .emit e ∈ steps → e.Fits)
    {reports : List Report} (hreports : ∀ r ∈ reports, r.Ok) :
    let c := run uiStep uiChannelStart steps
    c.emitted = reports.flatMap Report.events → c.closed = false → c.sock = [] → c.queue = [] →
      ∀ anim dirty calls, calls.map Prod.snd = c.calls → ∀ f, f = 4 ∨ f = 6 →
        let rows := familyRows f (viewCalls ⟨anim, dirty, shownStart⟩ calls).shown.net
        rows = reports.foldl (Report.after f) [] ∧
          ∀ pre rs post, reports = pre ++ .rows f rs :: post → (∀ r ∈ post, r.Keeps f) →
            (rs.map RowText.text).Nodup → rows = rs.map (RowText.row f) := by
  intro c hemitted hopen hsock hqueue anim dirty calls hcalls f hf
  obtain ⟨heard, later, lost, h⟩ := uiChannelStart_onWay.run hsteps
  have hlater := h.all_heard hopen hqueue hsock
  have hall : c.calls = (reports.flatMap Report.events).filterMap heardAs := by
    have hheard := h.emitted_eq
    rw [hlater, List.append_nil] at hheard
    rw [← hemitted]
    exact h.calls_eq.trans (congrArg _ hheard.symm)
  have hrows : familyRows f (viewCalls ⟨anim, dirty, shownStart⟩ calls).shown.net =
      reports.foldl (Report.after f) [] := by
    rw [viewCalls_net, hcalls, hall]
    exact foldl_reports hreports .nil hf
  refine ⟨hrows, ?_⟩
  rintro pre rs post rfl hpost hrs
  exact hrows.trans (foldl_after_last hrs hpost pre)

/-- Two rows of a family, and then another report of it. -/
def threeReports : List Report :=
  [.rows 4 [⟨0, 0, ascii ['1', '.', '1']⟩, ⟨2, 1, ascii ['2', '.', '2']⟩], .other .established,
    .rows 4 [⟨2, 1, ascii ['2', '.', '2']⟩]]

/-- The reports as they go, and one read of their lines. -/
def threeReportsRun : List UiStep :=
  (threeReports.flatMap Report.events).flatMap (fun e => [.emit e, .write 512]) ++ [.pump 512]

theorem foreground_rows_threeReports :
    familyRows 4 (viewCalls ⟨true, false, shownStart⟩
        ((run uiStep uiChannelStart threeReportsRun).calls.map fun e => (7, e))).shown.net =
      [⟨4, 2, 1, ascii ['2', '.', '2']⟩] := by
  have hfits : ∀ e, .emit e ∈ threeReportsRun → e.Fits := by
    intro e he
    have hmem : e ∈ threeReports.flatMap Report.events := by
      rcases List.mem_append.mp he with he | he
      · obtain ⟨x, hx, hstep⟩ := List.mem_flatMap.mp he
        obtain rfl : e = x := by simpa using hstep
        exact hx
      · simp at he
    have htexts : ∀ e ∈ threeReports.flatMap Report.events,
        e.text.length < 256 ∧ ch '\n' ∉ e.text := by decide
    exact fits_of_text (htexts e hmem).1 (htexts e hmem).2
  have hplain : ∀ scope via : Int32, ∀ a : Char, isSpace (ch a) = false →
      (⟨scope, via, ascii [a, '.', a]⟩ : RowText).Plain := by
    intro scope via a ha
    exact ⟨by simp [ascii], stops_cons.mpr ha, by simp [ascii]⟩
  have hone := hplain 0 0 '1' rfl
  have htwo := hplain 2 1 '2' rfl
  have hok : ∀ r ∈ threeReports, r.Ok := by
    simp [threeReports, Report.Ok, hone, htwo, netstateRowsMax]
  have hcalls (cs : List UiEvent) : (cs.map fun e => ((7 : UInt64), e)).map Prod.snd = cs := by
    rw [List.map_map]
    exact List.map_id' cs
  exact (foreground_rows hfits hok rfl rfl rfl rfl true false _ (hcalls _) 4 (Or.inl rfl)).1

/-! ## Runs of the view -/

/-- A call of the view, or a painting of it. -/
inductive ViewEvent where
  | call (now : UInt64) (e : UiEvent)
  | paint

/-- The view and what was painted last; painting clears the mark. -/
def viewStep (s : View × Shown) : ViewEvent → View × Shown
  | .call now e => (viewCall now s.1 e, s.2)
  | .paint => ({ s.1 with dirty := false }, s.1.shown)

theorem shownStart_fit : SlotsFit shownStart where
  rdv4 := by simp [shownStart]
  rdv6 := by simp [shownStart]

theorem Painted.step {s : View × Shown} (h : Painted s.2 s.1) (e : ViewEvent) :
    Painted (viewStep s e).2 (viewStep s e).1 := by
  cases e with
  | call now e => exact h.call now e
  | paint => exact ⟨h.anim, h.fit, Or.inr rfl⟩

theorem Painted.run {s : View × Shown} (h : Painted s.2 s.1) (events : List ViewEvent) :
    Painted (run viewStep s events).2 (run viewStep s events).1 := by
  induction events generalizing s with
  | nil => exact h
  | cons e events ih => exact ih (h.step e)

end Ui
end Comrade
