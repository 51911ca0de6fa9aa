import Comrade.Bep44.Lookup
import Comrade.Lib.Insert
import Comrade.Lib.Run

/-!
# The node list over whole runs

Replies name nodes, nodes are put into the list, and requests refer to the list by
place.  What ties them is that a request in use refers to a node that is being waited
for, and no two to one node: so a node that is not waited for can go from the end of a
full list, and a reply is credited to the node that was asked.

* `ListInv` is about which nodes the list has, `NodesInv` adds the requests.
* `nodeInsert_spec` is an insertion.
* `querySend_nodesInv`, `freeReq_nodesInv` are the two ends of a request.
* `lookup_reachable` is what holds after any events.
-/

namespace Comrade
namespace Bep44

open Lib Bencode

theorem addrEq_comm (a b : NodeAddr) : addrEq a b = addrEq b a := by
  cases a with
  | inet x port => cases b <;> simp [addrEq, Bool.beq_comm]
  | inet6 x port scope => cases b <;> simp [addrEq, Bool.beq_comm]
  | other => cases b <;> rfl

/-! ## What holds of the list and the requests -/

/-- A node by what it never changes. -/
abbrev Who := Id20 × Id20 × NodeAddr

/-- The nodes are sorted by distance, not too many, and all different. -/
structure ListInv (w : List Who) : Prop where
  sorted : w.Pairwise fun a b => idCmp a.2.1 b.2.1 ≤ 0
  short : w.length ≤ b44NodesMax
  addrs : w.Pairwise fun a b => addrEq a.2.2 b.2.2 = false
  ids : w.Pairwise fun a b => a.1 = b.1 → a.1 = Vector.replicate 20 0

/-- The list with the requests: one in use refers to the node that it was sent to, which
is being waited for, and no other request does. -/
structure NodesInv (nodes : List B44Node) (reqs : ReqSlot → B44Req) : Prop where
  list : ListInv (nodes.map B44Node.who)
  named : ∀ r, (reqs r).inUse = true → ∃ n, nodes[(reqs r).node]? = some n ∧
    n.state.busy = true ∧ (reqs r).sentTo = some n.who
  apart : ∀ r r', (reqs r).inUse = true → (reqs r').inUse = true →
    (reqs r).node = (reqs r').node → r = r'

/-- The same of an operation. -/
def B44Op.Ok (op : B44Op) : Prop := NodesInv op.nodes op.reqs

theorem ListInv.insert {w : List Who} (h : ListInv w) {x : Who} {pos : Nat}
    (hpos : pos ≤ w.length) (hroom : w.length < b44NodesMax)
    (hbefore : ∀ a ∈ w.take pos, idCmp a.2.1 x.2.1 ≤ 0)
    (hafter : ∀ a ∈ w.drop pos, idCmp x.2.1 a.2.1 ≤ 0)
    (haddr : ∀ a ∈ w, addrEq x.2.2 a.2.2 = false)
    (hid : ∀ a ∈ w, x.1 = a.1 → x.1 = Vector.replicate 20 0) : ListInv (w.insertIdx pos x) := by
  constructor
  · exact pairwise_insertIdx hpos h.sorted hbefore hafter
  · rw [List.length_insertIdx_of_le_length hpos]
    exact hroom
  · apply pairwise_insertIdx_of_symm _ hpos h.addrs haddr
    intro a b hab
    rw [addrEq_comm]
    exact hab
  · apply pairwise_insertIdx_of_symm _ hpos h.ids hid
    intro a b hab heq
    rw [heq]
    exact hab heq.symm

theorem ListInv.sublist {w w' : List Who} (h : ListInv w) (hsub : w'.Sublist w) :
    ListInv w' := by
  constructor
  · exact h.sorted.sublist hsub
  · exact hsub.length_le.trans h.short
  · exact h.addrs.sublist hsub
  · exact h.ids.sublist hsub

/-! ## An insertion -/

/-- The list that a node is put into: a full one without its last. -/
def keptNodes (nodes : List B44Node) : List B44Node :=
  if nodes.length ≥ b44NodesMax then nodes.take (b44NodesMax - 1) else nodes

/-- Where a node of that distance goes. -/
def nodePos (nodes : List B44Node) (dist : Id20) : Nat :=
  nodes.findIdx fun n => decide (idCmp dist n.dist < 0)

/-- Everything `node_insert` can do. -/
theorem nodeInsert_cases (op : B44Op) (id : Option Id20) (ss : NodeAddr) (pinned : Bool) :
    nodeInsert op id ss pinned = (op, false) ∨
      (nodeKnown op.nodes id ss = false ∧
        nodePos op.nodes (nodeDist op.target id pinned) < b44NodesMax ∧
        (b44NodesMax ≤ op.nodes.length →
          ∀ n, op.nodes[b44NodesMax - 1]? = some n → n.state.busy = false) ∧
        nodeInsert op id ss pinned =
          ({ op with
             nodes := (keptNodes op.nodes).insertIdx
               (nodePos op.nodes (nodeDist op.target id pinned))
               (nodeNew id (nodeDist op.target id pinned) ss)
             reqs := fun r =>
               reqShift (nodePos op.nodes (nodeDist op.target id pinned)) (op.reqs r) },
            true)) := by
  unfold nodeInsert
  dsimp only
  by_cases hknown : nodeKnown op.nodes id ss = true
  · rw [if_pos hknown]
    exact .inl rfl
  rw [if_neg hknown]
  by_cases hpos : nodePos op.nodes (nodeDist op.target id pinned) ≥ b44NodesMax
  · left
    unfold nodePos at hpos
    rw [if_pos hpos]
  have hpos' := hpos
  unfold nodePos at hpos'
  rw [if_neg hpos']
  by_cases hbusy : op.nodes.length ≥ b44NodesMax ∧
      (op.nodes[b44NodesMax - 1]?.any fun n => n.state.busy) = true
  · rw [if_pos hbusy]
    exact .inl rfl
  · right
    rw [if_neg hbusy]
    refine ⟨by simpa using hknown, by omega, ?_, rfl⟩
    intro hfull n hn
    by_contra hnot
    apply hbusy
    rw [hn]
    exact ⟨hfull, by simpa using hnot⟩

theorem nodePos_le (nodes : List B44Node) (dist : Id20) : nodePos nodes dist ≤ nodes.length :=
  List.findIdx_le_length

/-- The nodes before the place are no further, those from it on are further. -/
theorem nodePos_before {nodes : List B44Node} {dist : Id20} {n : B44Node}
    (hn : n ∈ nodes.take (nodePos nodes dist)) : idCmp n.dist dist ≤ 0 := by
  obtain ⟨i, hi, rfl⟩ := List.mem_take_iff_getElem.mp hn
  apply idCmp_le_of_not_lt
  have hlt : i < nodePos nodes dist := lt_of_lt_of_le hi (min_le_left _ _)
  simpa using List.not_of_lt_findIdx hlt

theorem nodePos_after {nodes : List B44Node} {dist : Id20}
    (hsorted : nodes.Pairwise fun a b => idCmp a.dist b.dist ≤ 0) {n : B44Node}
    (hn : n ∈ nodes.drop (nodePos nodes dist)) : idCmp dist n.dist ≤ 0 := by
  have hlt : nodePos nodes dist < nodes.length := by
    by_contra hnot
    rw [List.drop_eq_nil_iff.mpr (by omega)] at hn
    cases hn
  have hhead : idCmp dist (nodes[nodePos nodes dist]).dist < 0 :=
    of_decide_eq_true (List.findIdx_getElem (w := hlt))
  rw [List.drop_eq_getElem_cons hlt] at hn
  rcases List.mem_cons.mp hn with rfl | hn
  · exact hhead.le
  · have hdrop := hsorted.sublist (List.drop_sublist (nodePos nodes dist) nodes)
    rw [List.drop_eq_getElem_cons hlt, List.pairwise_cons] at hdrop
    exact idCmp_le_trans hhead.le (hdrop.1 n hn)

theorem keptNodes_length {nodes : List B44Node} (h : nodes.length ≤ b44NodesMax) :
    (keptNodes nodes).length < b44NodesMax ∧
      min nodes.length (b44NodesMax - 1) = (keptNodes nodes).length := by
  unfold keptNodes
  split_ifs with hfull
  · rw [List.length_take]
    unfold b44NodesMax at *
    omega
  · omega

theorem keptNodes_sublist (nodes : List B44Node) : (keptNodes nodes).Sublist nodes := by
  unfold keptNodes
  split_ifs
  · exact List.take_sublist _ _
  · exact List.Sublist.refl _

theorem keptNodes_take {nodes : List B44Node} {pos : Nat} (hpos : pos < b44NodesMax) :
    (keptNodes nodes).take pos = nodes.take pos := by
  unfold keptNodes
  split_ifs
  · rw [List.take_take, min_eq_left (by omega)]
  · rfl

theorem keptNodes_drop (nodes : List B44Node) (pos : Nat) :
    ((keptNodes nodes).drop pos).Sublist (nodes.drop pos) :=
  (keptNodes_sublist nodes).drop pos

/-- A node that is waited for stays where it is in the list that is kept. -/
theorem keptNodes_busy {nodes : List B44Node} (hshort : nodes.length ≤ b44NodesMax)
    (htail : b44NodesMax ≤ nodes.length →
      ∀ n, nodes[b44NodesMax - 1]? = some n → n.state.busy = false)
    {i : Nat} {n : B44Node} (hi : nodes[i]? = some n) (hbusy : n.state.busy = true) :
    (keptNodes nodes)[i]? = some n := by
  unfold keptNodes
  split_ifs with hfull
  · have hlt := (List.getElem?_eq_some_iff.mp hi).1
    have hne : i ≠ b44NodesMax - 1 := by
      rintro rfl
      rw [htail hfull n hi] at hbusy
      cases hbusy
    rw [List.getElem?_take_of_lt (by omega)]
    exact hi
  · exact hi

/-- A request in use follows its node, and 8 bits are enough for it. -/
theorem reqShift_node {pos : Nat} {req : B44Req} (huse : req.inUse = true)
    (hnode : req.node < b44NodesMax) :
    (reqShift pos req).node = shift pos req.node ∧ (reqShift pos req).inUse = true ∧
      (reqShift pos req).sentTo = req.sentTo := by
  unfold reqShift shift
  by_cases hpos : pos ≤ req.node
  · rw [if_pos ⟨huse, hpos⟩, if_pos hpos]
    refine ⟨?_, huse, rfl⟩
    show (req.node + 1) % 2 ^ 8 = req.node + 1
    unfold b44NodesMax at hnode
    omega
  · rw [if_neg (fun h => hpos h.2), if_neg hpos]
    exact ⟨rfl, huse, rfl⟩

theorem reqShift_inUse (pos : Nat) (req : B44Req) : (reqShift pos req).inUse = req.inUse := by
  unfold reqShift
  split_ifs <;> rfl

/-- What an insertion does: the list stays in order, a request keeps its node, and a
full list loses its last node at most, where that one is not waited for. -/
structure Inserted (op op' : B44Op) : Prop where
  ok : op'.Ok
  keeps : ∀ r, (op.reqs r).inUse = true → (op'.reqs r).inUse = true ∧
    op'.nodes[(op'.reqs r).node]? = op.nodes[(op.reqs r).node]?
  full : op.nodes.length = b44NodesMax → op'.nodes = op.nodes ∨
    ∃ pos x, op'.nodes = (op.nodes.take (b44NodesMax - 1)).insertIdx pos x ∧
      ∀ n, op.nodes[b44NodesMax - 1]? = some n → n.state.busy = false

theorem Inserted.refl {op : B44Op} (h : op.Ok) : Inserted op op :=
  ⟨h, fun _ huse => ⟨huse, rfl⟩, fun _ => .inl rfl⟩

/-- A node that is not known yet differs from all in the list. -/
theorem nodeKnown_false {nodes : List B44Node} {id : Option Id20} {ss : NodeAddr}
    (h : nodeKnown nodes id ss = false) {n : B44Node} (hn : n ∈ nodes) :
    addrEq ss n.ss = false ∧ id ≠ some n.id := by
  unfold nodeKnown at h
  rw [List.any_eq_false] at h
  have hno := h n hn
  rw [Bool.or_eq_true, not_or] at hno
  exact ⟨by simpa using hno.1, by simpa using hno.2⟩

/-- The list with a new node in it. -/
theorem insert_listInv {nodes : List B44Node} {id : Option Id20} {ss : NodeAddr} {dist : Id20}
    (h : ListInv (nodes.map B44Node.who)) (hknown : nodeKnown nodes id ss = false)
    (hpos : nodePos nodes dist < b44NodesMax) :
    ListInv (((keptNodes nodes).insertIdx (nodePos nodes dist) (nodeNew id dist ss)).map
      B44Node.who) := by
  have hshort : nodes.length ≤ b44NodesMax := by
    have hlen := h.short
    rwa [List.length_map] at hlen
  have hsorted : nodes.Pairwise fun a b => idCmp a.dist b.dist ≤ 0 := List.pairwise_map.mp h.sorted
  obtain ⟨hroom, hkept⟩ := keptNodes_length hshort
  have hle : nodePos nodes dist ≤ (keptNodes nodes).length := by
    rw [← hkept]
    exact le_min (nodePos_le nodes dist) (by omega)
  rw [List.map_insertIdx]
  apply (h.sublist ((keptNodes_sublist nodes).map B44Node.who)).insert
  · rw [List.length_map]
    exact hle
  · rw [List.length_map]
    exact hroom
  · intro a ha
    rw [← List.map_take, keptNodes_take hpos] at ha
    obtain ⟨n, hn, rfl⟩ := List.mem_map.mp ha
    exact nodePos_before hn
  · intro a ha
    rw [← List.map_drop] at ha
    obtain ⟨n, hn, rfl⟩ := List.mem_map.mp ha
    exact nodePos_after hsorted ((keptNodes_drop nodes _).subset hn)
  · intro a ha
    obtain ⟨n, hn, rfl⟩ := List.mem_map.mp ha
    exact (nodeKnown_false hknown ((keptNodes_sublist nodes).subset hn)).1
  · intro a ha heq
    obtain ⟨n, hn, rfl⟩ := List.mem_map.mp ha
    cases id with
    | none => rfl
    | some i =>
        have hne := (nodeKnown_false hknown ((keptNodes_sublist nodes).subset hn)).2
        exact absurd (congrArg some heq) hne

theorem nodeInsert_spec {op : B44Op} (h : op.Ok) (id : Option Id20) (ss : NodeAddr)
    (pinned : Bool) : Inserted op (nodeInsert op id ss pinned).1 := by
  rcases nodeInsert_cases op id ss pinned with hsame | ⟨hknown, hpos, htail, hput⟩
  · rw [hsame]
    exact .refl h
  rw [hput]
  generalize hdist : nodeDist op.target id pinned = dist at hpos ⊢
  have hshort : op.nodes.length ≤ b44NodesMax := by
    have hlen := h.list.short
    rwa [List.length_map] at hlen
  -- a request in use, before and after
  have hreq : ∀ r, (op.reqs r).inUse = true →
      ∃ n, op.nodes[(op.reqs r).node]? = some n ∧ n.state.busy = true ∧
        (op.reqs r).sentTo = some n.who ∧
        (reqShift (nodePos op.nodes dist) (op.reqs r)).node =
          shift (nodePos op.nodes dist) (op.reqs r).node ∧
        ((keptNodes op.nodes).insertIdx (nodePos op.nodes dist) (nodeNew id dist ss))[
          (reqShift (nodePos op.nodes dist) (op.reqs r)).node]? = some n := by
    intro r huse
    obtain ⟨n, hn, hbusy, hsent⟩ := h.named r huse
    have hlt := (List.getElem?_eq_some_iff.mp hn).1
    have hnode : (reqShift (nodePos op.nodes dist) (op.reqs r)).node =
        shift (nodePos op.nodes dist) (op.reqs r).node := (reqShift_node huse (by omega)).1
    refine ⟨n, hn, hbusy, hsent, hnode, ?_⟩
    rw [hnode]
    exact getElem?_insertIdx_shift (keptNodes_busy hshort htail hn hbusy)
  constructor
  · constructor
    · exact insert_listInv h.list hknown hpos
    · intro r huse
      rw [reqShift_inUse] at huse
      obtain ⟨n, hn, hbusy, hsent, -, hfound⟩ := hreq r huse
      have hlt := (List.getElem?_eq_some_iff.mp hn).1
      refine ⟨n, hfound, hbusy, ?_⟩
      rw [(reqShift_node huse (by omega)).2.2]
      exact hsent
    · intro r r' huse huse' hnode
      rw [reqShift_inUse] at huse huse'
      obtain ⟨-, -, -, -, hr, -⟩ := hreq r huse
      obtain ⟨-, -, -, -, hr', -⟩ := hreq r' huse'
      apply h.apart r r' huse huse'
      apply shift_injective (nodePos op.nodes dist)
      rw [← hr, ← hr']
      exact hnode
  · intro r huse
    obtain ⟨n, hn, -, -, -, hfound⟩ := hreq r huse
    exact ⟨(reqShift_inUse _ _).trans huse, hfound.trans hn.symm⟩
  · intro hfull
    right
    refine ⟨nodePos op.nodes dist, nodeNew id dist ss, ?_, htail hfull.ge⟩
    show (keptNodes op.nodes).insertIdx _ _ = _
    unfold keptNodes
    rw [if_pos hfull.ge]

theorem nodesCompactAdd_ok {op : B44Op} (h : op.Ok) (data : Bytes) (af : Family) :
    (nodesCompactAdd op data af).Ok := by
  unfold nodesCompactAdd
  exact run_invariant (I := B44Op.Ok) (fun _ i h => (nodeInsert_spec h _ _ _).ok) h _

/-! ## Nodes and requests that change -/

section Changes

variable {nodes : List B44Node} {reqs : ReqSlot → B44Req} {i : Nat} {f : B44Node → B44Node}

theorem map_who_modify (hwho : ∀ n, (f n).who = n.who) :
    (nodes.modify i f).map B44Node.who = nodes.map B44Node.who := by
  apply List.ext_getElem?
  intro j
  rw [List.getElem?_map, List.getElem?_map, List.getElem?_modify]
  cases nodes[j]? with
  | none => rfl
  | some n =>
      show some (if i = j then f n else n).who = some n.who
      split_ifs
      · rw [hwho]
      · rfl

/-- A change that leaves the states alone. -/
theorem NodesInv.modify_same (h : NodesInv nodes reqs) (hwho : ∀ n, (f n).who = n.who)
    (hstate : ∀ n, (f n).state = n.state) : NodesInv (nodes.modify i f) reqs := by
  constructor
  · rw [map_who_modify hwho]
    exact h.list
  · intro r huse
    obtain ⟨n, hn, hbusy, hsent⟩ := h.named r huse
    rw [List.getElem?_modify, hn]
    refine ⟨if i = (reqs r).node then f n else n, rfl, ?_, ?_⟩
    · split_ifs
      · rw [hstate]
        exact hbusy
      · exact hbusy
    · split_ifs
      · rw [hwho]
        exact hsent
      · exact hsent
  · exact h.apart

/-- A change of a node that no request in use refers to. -/
theorem NodesInv.modify_idle (h : NodesInv nodes reqs) (hwho : ∀ n, (f n).who = n.who)
    (hidle : ∀ r, (reqs r).inUse = true → (reqs r).node ≠ i) :
    NodesInv (nodes.modify i f) reqs := by
  constructor
  · rw [map_who_modify hwho]
    exact h.list
  · intro r huse
    obtain ⟨n, hn, hrest⟩ := h.named r huse
    refine ⟨n, ?_, hrest⟩
    rw [List.getElem?_modify, hn]
    show some (if i = (reqs r).node then f n else n) = some n
    rw [if_neg (fun heq => hidle r huse heq.symm)]
  · exact h.apart

/-- A request given back. -/
theorem NodesInv.free (h : NodesInv nodes reqs) {r : ReqSlot} {req : B44Req}
    (hreq : req.inUse = false) : NodesInv nodes (Function.update reqs r req) := by
  have hother : ∀ r', (Function.update reqs r req r').inUse = true →
      Function.update reqs r req r' = reqs r' := by
    intro r' huse
    by_cases hr : r' = r
    · rw [hr, Function.update_self, hreq] at huse
      cases huse
    · exact Function.update_of_ne hr _ _
  constructor
  · exact h.list
  · intro r' huse
    have hsame := hother r' huse
    rw [hsame] at huse ⊢
    exact h.named r' huse
  · intro r₁ r₂ h₁ h₂ hnode
    have hsame₁ := hother r₁ h₁
    have hsame₂ := hother r₂ h₂
    rw [hsame₁] at h₁ hnode
    rw [hsame₂] at h₂ hnode
    exact h.apart r₁ r₂ h₁ h₂ hnode

/-- A node that is not waited for is referred to by no request. -/
theorem NodesInv.idle (h : NodesInv nodes reqs) {n : B44Node} (hn : nodes[i]? = some n)
    (hbusy : n.state.busy = false) (r : ReqSlot) (huse : (reqs r).inUse = true) :
    (reqs r).node ≠ i := by
  rintro rfl
  obtain ⟨n', hn', hbusy', -⟩ := h.named r huse
  obtain rfl : n = n' := Option.some.inj (hn.symm.trans hn')
  rw [hbusy] at hbusy'
  cases hbusy'

/-- A request taken for a node, which is waited for from here on. -/
theorem NodesInv.take (h : NodesInv nodes reqs) {n : B44Node} (hn : nodes[i]? = some n)
    (hidle : n.state.busy = false) (hwho : ∀ n, (f n).who = n.who)
    (hbusy : (f n).state.busy = true) {r : ReqSlot} {req : B44Req} (hnode : req.node = i)
    (hsent : req.sentTo = some n.who) :
    NodesInv (nodes.modify i f) (Function.update reqs r req) := by
  have hother : ∀ r', r' ≠ r → Function.update reqs r req r' = reqs r' :=
    fun r' hr => Function.update_of_ne hr _ _
  have hself : Function.update reqs r req r = req := Function.update_self _ _ _
  constructor
  · rw [map_who_modify hwho]
    exact h.list
  · intro r' huse
    by_cases hr : r' = r
    · subst hr
      rw [hself, hnode, List.getElem?_modify, hn]
      refine ⟨f n, ?_, hbusy, ?_⟩
      · show some (if i = i then f n else n) = some (f n)
        rw [if_pos rfl]
      · rw [hsent, hwho]
    · rw [hother r' hr] at huse ⊢
      obtain ⟨n', hn', hrest⟩ := h.named r' huse
      refine ⟨n', ?_, hrest⟩
      rw [List.getElem?_modify, hn']
      show some (if i = (reqs r').node then f n' else n') = some n'
      rw [if_neg (fun heq => h.idle hn hidle r' huse heq.symm)]
  · intro r₁ r₂ h₁ h₂ heq
    by_cases hr₁ : r₁ = r <;> by_cases hr₂ : r₂ = r
    · rw [hr₁, hr₂]
    · subst hr₁
      rw [hself, hother r₂ hr₂, hnode] at heq
      rw [hother r₂ hr₂] at h₂
      exact absurd heq.symm (h.idle hn hidle r₂ h₂)
    · subst hr₂
      rw [hself, hother r₁ hr₁, hnode] at heq
      rw [hother r₁ hr₁] at h₁
      exact absurd heq (h.idle hn hidle r₁ h₁)
    · rw [hother r₁ hr₁] at h₁ heq
      rw [hother r₂ hr₂] at h₂ heq
      exact h.apart r₁ r₂ h₁ h₂ heq

end Changes

/-- The end of a request: it is given back, and its node no longer waited for. -/
theorem freeReq_ok {op : B44Op} (h : op.Ok) {r : ReqSlot} (huse : (op.reqs r).inUse = true)
    (st : NodeState) : ((op.freeReq r).setState (op.reqs r).node st).Ok := by
  apply NodesInv.modify_idle
  · exact NodesInv.free h rfl
  · exact fun _ => rfl
  · intro r' huse' hnode
    have hreqs : ((op.freeReq r).setState (op.reqs r).node st).reqs =
        Function.update op.reqs r { op.reqs r with inUse := false } := rfl
    rw [hreqs] at huse' hnode
    by_cases hr : r' = r
    · rw [hr, Function.update_self] at huse'
      cases huse'
    · rw [Function.update_of_ne hr] at huse' hnode
      exact hr (h.apart r' r huse' huse hnode)

/-- The start of a request, for a node that is not waited for. -/
theorem querySend_ok {op : B44Op} (h : op.Ok) {i : Nat} {n : B44Node}
    (hn : op.nodes[i]? = some n) (hidle : n.state.busy = false) {st : NodeState}
    (hst : st.busy = true) (env : LookupEnv)
    (msg : B44Op → B44Node → UInt16 → Option Bytes) : (querySend op i st env msg).1.Ok := by
  have hlt : i < b44NodesMax := by
    have hlen := h.list.short
    rw [List.length_map] at hlen
    exact lt_of_lt_of_le (List.getElem?_eq_some_iff.mp hn).1 hlen
  have hmod : i % 2 ^ 8 = i := by
    unfold b44NodesMax at hlt
    omega
  unfold querySend reqAlloc
  rw [hn]
  cases firstSlot op.reqs fun r => !r.inUse with
  | none => exact h
  | some r =>
      dsimp only [Option.map_some]
      split
      · -- the query could not be built
        show NodesInv op.nodes (Function.update (Function.update op.reqs r _) r _)
        rw [Function.update_idem]
        exact h.free rfl
      · split_ifs
        · exact h.take (f := fun n => { n with state := st }) hn hidle (fun _ => rfl) hst hmod rfl
        · -- it could not be sent
          show NodesInv (op.nodes.modify i _) (Function.update (Function.update op.reqs r _) r _)
          rw [Function.update_idem]
          apply NodesInv.modify_idle
          · exact h.free rfl
          · exact fun _ => rfl
          · intro r' huse
            by_cases hr : r' = r
            · rw [hr, Function.update_self] at huse
              cases huse
            · rw [Function.update_of_ne hr] at huse ⊢
              exact h.idle hn hidle r' huse

theorem getSend_ok {op : B44Op} (h : op.Ok) {i : Nat} {n : B44Node}
    (hn : op.nodes[i]? = some n) (hfresh : n.state = .fresh) (env : LookupEnv) :
    (getSend op i env).1.Ok := by
  apply querySend_ok h hn
  · rw [hfresh]
    rfl
  · split_ifs <;> rfl

theorem putSend_ok {op : B44Op} (h : op.Ok) {i : Nat} {n : B44Node}
    (hn : op.nodes[i]? = some n) (hreplied : n.state = .replied) (env : LookupEnv) :
    (putSend op i env).1.Ok := by
  apply querySend_ok h hn
  · rw [hreplied]
    rfl
  · rfl

/-! ## Steps and replies -/

theorem storeStep_ok (env : LookupEnv) {s : StoreScan} (h : s.op.Ok) (i : Nat) :
    (storeStep env s i).op.Ok := by
  unfold storeStep
  cases hn : s.op.nodes[i]? with
  | none => exact h
  | some n =>
      dsimp only
      split_ifs with hskip
      · exact h
      · exact h
      · have hreplied : n.state = .replied := by
          by_contra hnot
          exact hskip (.inr (.inl hnot))
        let op : B44Op := { s.op with e := (nodeBudgetOk s.op.e n.ss env.now).1 }
        have hop : op.Ok := h
        have hput := putSend_ok hop hn hreplied env
        unfold storePut
        dsimp only
        split_ifs
        · exact h
        · exact hput
        · exact hput

theorem storeStart_ok {op : B44Op} (h : op.Ok) (env : LookupEnv) : (storeStart op env).1.Ok := by
  unfold storeStart
  exact run_invariant (I := fun s : StoreScan => s.op.Ok) (fun _ i hs => storeStep_ok env hs i) h _

theorem storeOrFinish_ok {op : B44Op} (h : op.Ok) (env : LookupEnv) :
    (storeOrFinish op env).Ok := by
  have hstart := storeStart_ok h env
  unfold storeOrFinish
  dsimp only
  split_ifs
  · exact hstart
  · exact hstart

theorem updateStore_ok {op : B44Op} (h : op.Ok) (env : LookupEnv) : (updateStore op env).Ok := by
  unfold updateStore
  split
  · exact h
  · dsimp only
    split
    · exact h
    · split
      · exact h
      · apply storeOrFinish_ok
        exact h

theorem reqStep_ok (now : Nat) {s : StepScan} (h : s.op.Ok) (r : ReqSlot) :
    (reqStep now s r).op.Ok := by
  unfold reqStep
  dsimp only
  split_ifs with huse
  · exact h
  · exact freeReq_ok h (by simpa using huse) .failed
  · exact h

theorem askStep_ok (env : LookupEnv) {s : StepScan} (h : s.op.Ok) (i : Nat) :
    (askStep env s i).op.Ok := by
  unfold askStep
  cases hn : s.op.nodes[i]? with
  | none => exact h
  | some n =>
      dsimp only
      split_ifs with hstop hskip
      · exact h
      · unfold StepScan.answer
        split_ifs
        · exact h
        · exact h
      · have hfresh : n.state = .fresh := by
          by_contra hnot
          exact hskip (.inl hnot)
        let op : B44Op := { s.op with e := (nodeBudgetOk s.op.e n.ss env.now).1 }
        have hop : op.Ok := h
        have hget := getSend_ok hop hn hfresh env
        unfold askNode
        dsimp only
        split_ifs
        · exact h
        · exact hget
        · exact hget

theorem opStep_ok {op : B44Op} (h : op.Ok) (env : LookupEnv) : (opStep op env).Ok := by
  unfold opStep
  by_cases htime : env.now - op.startMs > b44OpTimeoutMs
  · rw [if_pos htime]
    exact h
  rw [if_neg htime]
  have hreqs : ((List.finRange b44ReqsMax).foldl (reqStep env.now)
      { op := op, inflight := 0, if4 := 0, if6 := 0, deferred := 0, answered := 0,
        stop := false }).op.Ok :=
    run_invariant (I := fun s : StepScan => s.op.Ok) (fun _ r hs => reqStep_ok env.now hs r) h _
  generalize (List.finRange b44ReqsMax).foldl (reqStep env.now) _ = s at hreqs ⊢
  have hask : ((List.range s.op.nodes.length).foldl (askStep env) s).op.Ok :=
    run_invariant (I := fun s : StepScan => s.op.Ok) (fun _ i hs => askStep_ok env hs i) hreqs _
  cases op.phase with
  | lookup =>
      dsimp only
      generalize (List.range s.op.nodes.length).foldl (askStep env) s = s' at hask ⊢
      split_ifs
      · exact hask
      · exact updateStore_ok hask env
      · exact hask
      · exact storeOrFinish_ok hask env
  | store =>
      dsimp only
      split_ifs
      · exact hreqs
      · exact storeOrFinish_ok hreqs env
      · exact hreqs

theorem recordBestNode_same (op : B44Op) (src : Option NodeAddr) :
    (recordBestNode op src).nodes = op.nodes ∧ (recordBestNode op src).reqs = op.reqs := by
  unfold recordBestNode
  split
  · exact ⟨rfl, rfl⟩
  · split_ifs <;> exact ⟨rfl, rfl⟩

theorem recordBestNode_ok {op : B44Op} (h : op.Ok) (src : Option NodeAddr) :
    (recordBestNode op src).Ok := by
  obtain ⟨hnodes, hreqs⟩ := recordBestNode_same op src
  unfold B44Op.Ok
  rw [hnodes, hreqs]
  exact h

theorem takeBest_ok {op : B44Op} (h : op.Ok) (v : Bytes) (seq : Int) (src : Option NodeAddr) :
    (takeBest op v seq src).Ok := by
  unfold takeBest
  apply recordBestNode_ok
  exact h

theorem valueCheck_ok (C : Crypto) {op : B44Op} (h : op.Ok) (i : Nat) (src : Option NodeAddr)
    (rdict : Bytes) : (valueCheck C op i src rdict).Ok := by
  have hnoted : ∀ seq, (op.setNode i fun n => { n with seq := some seq }).Ok :=
    fun seq => NodesInv.modify_same h (fun _ => rfl) fun _ => rfl
  unfold valueCheck
  split
  · exact h
  · split_ifs
    · exact h
    · exact h
    · exact recordBestNode_ok h src
    · exact takeBest_ok h _ _ src
    · split
      · split_ifs
        · exact h
        · split
          · exact h
          · dsimp only
            split_ifs
            · exact h
            · exact recordBestNode_ok (hnoted _) src
            · exact takeBest_ok (hnoted _) _ _ src
      · exact h

theorem keepToken_ok {op : B44Op} (h : op.Ok) (i : Nat) (rdict : Bytes) :
    (keepToken op i rdict).Ok := by
  unfold keepToken
  split
  · exact h
  · split_ifs
    · exact NodesInv.modify_same h (fun _ => rfl) fun _ => rfl
    · exact h

theorem mergeNodes_ok {op : B44Op} (h : op.Ok) (rdict key : Bytes) (af : Family) :
    (mergeNodes op rdict key af).Ok := by
  unfold mergeNodes
  split_ifs
  · exact h
  · split
    · exact h
    · exact nodesCompactAdd_ok h _ af

/-- What follows once the request is given back and its node has answered. -/
theorem replyTake_ok (C : Crypto) {op : B44Op} {i : Nat} (h : (op.setState i .replied).Ok)
    (buf : Bytes) (src : Option NodeAddr) (env : LookupEnv) :
    (replyTake C op i buf src env).Ok := by
  unfold replyTake
  dsimp only
  split
  · exact h
  · rename_i rdict _
    apply mergeNodes_ok
    apply mergeNodes_ok
    have hlearned : B44Op.Ok { op.setState i .replied with
        e := pinLearnId (op.setState i .replied).e src rdict env.now } := h
    have htoken := keepToken_ok hlearned i rdict
    split_ifs
    · exact htoken
    · exact valueCheck_ok C htoken i src rdict

theorem replyHandle_ok (C : Crypto) {op : B44Op} (h : op.Ok) {r : ReqSlot}
    (huse : (op.reqs r).inUse = true) (buf : Bytes) (isError : Bool) (src : Option NodeAddr)
    (env : LookupEnv) : (replyHandle C op r buf isError src env).Ok := by
  unfold replyHandle
  dsimp only
  split_ifs
  · exact opStep_ok (freeReq_ok h huse .failed) env
  · apply opStep_ok
    exact freeReq_ok h huse .stored
  · exact opStep_ok (freeReq_ok h huse .failed) env
  · apply opStep_ok
    exact replyTake_ok C (freeReq_ok h huse .replied) buf src env

/-! ## Whole runs -/

/-- What can happen to an operation. -/
inductive LookupEvent where
  | insert (id : Option Id20) (ss : NodeAddr) (pinned : Bool)
  | compact (data : Bytes) (af : Family)
  | get (node : Nat) (env : LookupEnv)
  | put (node : Nat) (env : LookupEnv)
  | reply (r : ReqSlot) (buf : Bytes) (isError : Bool) (src : Option NodeAddr) (env : LookupEnv)
  | step (env : LookupEnv)

/-- The operation after one event; nothing happens to one that is finished. -/
def lookupStep (C : Crypto) (op : B44Op) (ev : LookupEvent) : B44Op :=
  if op.done = true then op
  else
    match ev with
    | .insert id ss pinned => (nodeInsert op id ss pinned).1
    | .compact data af => nodesCompactAdd op data af
    | .get node env => (getSend op node env).1
    | .put node env => (putSend op node env).1
    | .reply r buf isError src env => replyHandle C op r buf isError src env
    | .step env => opStep op env

/-- What the callers see to: a fresh node is asked, a node that has answered is stored
on, and a reply belongs to a request in use. -/
def AsCalled (op : B44Op) : LookupEvent → Prop
  | .get node _ => ∃ n ∈ op.nodes[node]?, n.state = .fresh
  | .put node _ => ∃ n ∈ op.nodes[node]?, n.state = .replied
  | .reply r _ _ _ _ => (op.reqs r).inUse = true
  | _ => True

instance decidableAsCalled (op : B44Op) : ∀ ev, Decidable (AsCalled op ev)
  | .insert _ _ _ => isTrue trivial
  | .compact _ _ => isTrue trivial
  | .get node _ => inferInstanceAs (Decidable (∃ n ∈ op.nodes[node]?, n.state = .fresh))
  | .put node _ => inferInstanceAs (Decidable (∃ n ∈ op.nodes[node]?, n.state = .replied))
  | .reply r _ _ _ _ => inferInstanceAs (Decidable ((op.reqs r).inUse = true))
  | .step _ => isTrue trivial

theorem lookupStep_ok (C : Crypto) {op : B44Op} (h : op.Ok) {ev : LookupEvent}
    (hev : AsCalled op ev) : (lookupStep C op ev).Ok := by
  unfold lookupStep
  split_ifs
  · exact h
  · cases ev with
    | insert id ss pinned => exact (nodeInsert_spec h id ss pinned).ok
    | compact data af => exact nodesCompactAdd_ok h data af
    | get node env =>
        obtain ⟨n, hn, hfresh⟩ := hev
        exact getSend_ok h hn hfresh env
    | put node env =>
        obtain ⟨n, hn, hreplied⟩ := hev
        exact putSend_ok h hn hreplied env
    | reply r buf isError src env => exact replyHandle_ok C h hev buf isError src env
    | step env => exact opStep_ok h env

/-- An operation that was just made: it has no nodes and no request in use. -/
def B44Op.IsNew (op : B44Op) : Prop := op.nodes = [] ∧ ∀ r, (op.reqs r).inUse = false

theorem B44Op.IsNew.ok {op : B44Op} (h : op.IsNew) : op.Ok := by
  obtain ⟨hnodes, hreqs⟩ := h
  constructor
  · rw [hnodes]
    exact ⟨List.Pairwise.nil, Nat.zero_le _, List.Pairwise.nil, List.Pairwise.nil⟩
  · intro r huse
    rw [hreqs r] at huse
    cases huse
  · intro r r' huse
    rw [hreqs r] at huse
    cases huse

/-- After any events on a new operation: the list is sorted by distance and not too
long, no two nodes have one address or one id, every request in use refers to the node
that its query went to, and a further insertion moves no request to another node and
takes away the last node of a full list at most, where that one is not waited for. -/
theorem lookup_reachable (C : Crypto) (op₀ : B44Op) (hnew : op₀.IsNew)
    (events : List LookupEvent) (hev : EveryStep (lookupStep C) AsCalled op₀ events) :
    let op := run (lookupStep C) op₀ events
    op.nodes.Pairwise (fun a b => idCmp a.dist b.dist ≤ 0) ∧ op.nodes.length ≤ b44NodesMax ∧
      op.nodes.Pairwise (fun a b => addrEq a.ss b.ss = false) ∧
      op.nodes.Pairwise (fun a b => a.id = b.id → a.id = Vector.replicate 20 0) ∧
      (∀ r, (op.reqs r).inUse = true → ∃ n, op.nodes[(op.reqs r).node]? = some n ∧
        (op.reqs r).sentTo = some n.who) ∧
      ∀ id ss pinned,
        (∀ r, (op.reqs r).inUse = true →
          ((nodeInsert op id ss pinned).1.reqs r).inUse = true ∧
            (nodeInsert op id ss pinned).1.nodes[
              ((nodeInsert op id ss pinned).1.reqs r).node]? = op.nodes[(op.reqs r).node]?) ∧
        (op.nodes.length = b44NodesMax → (nodeInsert op id ss pinned).1.nodes = op.nodes ∨
          ∃ pos x, (nodeInsert op id ss pinned).1.nodes =
              (op.nodes.take (b44NodesMax - 1)).insertIdx pos x ∧
            ∀ n, op.nodes[b44NodesMax - 1]? = some n → n.state.busy = false) := by
  intro op
  have h : op.Ok :=
    run_invariant_of_everyStep (I := B44Op.Ok) (fun _ _ h hev => lookupStep_ok C h hev) hnew.ok
      hev
  have hshort := h.list.short
  rw [List.length_map] at hshort
  refine ⟨List.pairwise_map.mp h.list.sorted, hshort, List.pairwise_map.mp h.list.addrs,
    List.pairwise_map.mp h.list.ids, ?_, ?_⟩
  · intro r huse
    obtain ⟨n, hn, -, hsent⟩ := h.named r huse
    exact ⟨n, hn, hsent⟩
  · intro id ss pinned
    have hput := nodeInsert_spec h id ss pinned
    exact ⟨hput.keeps, hput.full⟩

instance neZeroReqsMax : NeZero b44ReqsMax := ⟨by decide⟩

/-- The world around a small run: no signature checks and every datagram goes out. -/
def testCrypto : Crypto where
  sha1 := fun _ => Vector.replicate 20 0
  ed25519Check := fun _ _ _ => false

def testEnv : LookupEnv :=
  { now := 10, msgSend := fun _ _ => true, sign := fun _ => none, merge := fun _ _ => none }

def testOp : B44Op :=
  opNew { myid := Vector.replicate 20 9, tidSeq := 0, pinned := [], retained := [] }
    (Vector.replicate 20 0) false 0

/-- A reply that names one node, closer than the others. -/
def closerReply : Bytes :=
  ascii ['d', '1', ':', 'r', 'd', '5', ':', 'n', 'o', 'd', 'e', 's', '2', '6', ':'] ++
    List.replicate 20 1 ++ [198, 51, 100, 2, 26, 225] ++ ascii ['e', 'e']

/-- Two nodes are asked; the first answers, and the node it names goes in before both. -/
def closerRun : List LookupEvent :=
  [.insert (some (Vector.replicate 20 5)) (.inet (Vector.replicate 4 3) 6881) false,
    .insert (some (Vector.replicate 20 7)) (.inet (Vector.replicate 4 4) 6881) false,
    .step testEnv,
    .reply 0 closerReply false (some (.inet (Vector.replicate 4 3) 6881)) testEnv]

set_option maxRecDepth 4000

theorem lookup_reachable_closerRun :
    EveryStep (lookupStep testCrypto) AsCalled testOp closerRun ∧
      (run (lookupStep testCrypto) testOp closerRun).nodes.map B44Node.state =
        [.inflight, .replied, .inflight] ∧
      ∀ r, ((run (lookupStep testCrypto) testOp closerRun).reqs r).inUse = true →
        ∃ n, (run (lookupStep testCrypto) testOp closerRun).nodes[
            ((run (lookupStep testCrypto) testOp closerRun).reqs r).node]? = some n ∧
          ((run (lookupStep testCrypto) testOp closerRun).reqs r).sentTo = some n.who := by
  have hev : EveryStep (lookupStep testCrypto) AsCalled testOp closerRun := by
    with_unfolding_all decide
  refine ⟨hev, by with_unfolding_all decide, ?_⟩
  exact (lookup_reachable testCrypto testOp ⟨rfl, fun _ => rfl⟩ closerRun hev).2.2.2.2.1


end Bep44
end Comrade
