import Comrade.Lib.Selection
import Comrade.Lib.Radix
import Comrade.Lib.Lex
import Comrade.Lib.Run
import Comrade.Bep44.Lookup

/-!
# The nodes a node refers to

`cache_add` keeps the nodes seen, one for a host, and `cache_nodes` writes those of them
that are closest to a target into a reply.  It picks them in one pass over the cache, with
two arrays of `B44_REPLY_NODES` places in the order of the distance: what has its place
before the last moves the rest up by one in both, and the last falls out.

* `cacheSelect` is the pass over the arrays as the source makes it; an access outside of an
  array has no result.
* `Picks` ties the arrays to the list of what was picked, and `cachePickAt_picks` says what
  one node of the cache does to it.
* `cache_nodes_selects`: what is written, for every content of the cache.
-/

namespace Comrade
namespace Bep44

open Lib

/-! ## The cache -/

/-- The node cache of `struct bep44_engine`, with the place the next new node is put at. -/
structure NodeCache where
  cache : Fin b44CacheMax → B44Cnode
  next : Fin b44CacheMax

/-- The cache of an engine just made. -/
def nodeCacheEmpty : NodeCache where
  cache := fun _ => { id := Vector.replicate 20 0, addr := none, seenMs := 0 }
  next := ⟨0, by decide⟩

/-- `node_addr_usable`, of an address as it is cached. -/
def sockaddrUsable : Sockaddr → Bool
  | .inet a port => port != 0 && a != Vector.replicate 4 0
  | .inet6 a port => port != 0 && a != Vector.replicate 16 0
  | .other => false

/-- `addr_same_host`. -/
def addrSameHost : Sockaddr → Sockaddr → Bool
  | .inet a _, .inet b _ => a == b
  | .inet6 a _, .inet6 b _ => a == b
  | _, _ => false

/-- What `cache_add` is called with, and what it reads of the engine and the clock. -/
structure CacheCall where
  serving : Bool
  myid : Id20
  id : Option Id20
  sa : Sockaddr
  now : Nat

/-- `cache_add`. -/
def cacheAdd (c : NodeCache) (q : CacheCall) : NodeCache :=
  match q.id with
  | none => c
  | some id =>
      if q.serving = false ∨ id = Vector.replicate 20 0 ∨ sockaddrUsable q.sa = false ∨
          addrMartian q.sa = true ∨ id = q.myid then c
      else
        let node : B44Cnode := { id := id, addr := some q.sa, seenMs := q.now }
        match firstSlot c.cache fun n => n.addr.any (addrSameHost q.sa) with
        | some i => { c with cache := Function.update c.cache i node }
        | none =>
            { cache := Function.update c.cache c.next node
              next := ⟨(c.next + 1) % b44CacheMax, Nat.mod_lt _ (by decide)⟩ }

/-! ## The selection -/

/-- The local arrays of `cache_nodes`. -/
structure CachePicks where
  n : Nat
  pick : Vector (Fin b44CacheMax) b44ReplyNodes
  pdist : Vector Id20 b44ReplyNodes

/-- Write one place of an array. -/
def arraySet {α : Type} {n : Nat} (v : Vector α n) (i : Nat) (a : α) : Option (Vector α n) :=
  if h : i < n then some (v.set i a h) else none

/-- The loop that looks for the place of a distance, `rounds` before its end. -/
def pickPlace (pdist : Vector Id20 b44ReplyNodes) (d : Id20) : (rounds j : Nat) → Option Nat
  | 0, j => some j
  | rounds + 1, j => do
      let e ← pdist[j]?
      if idCmp d e < 0 then some j else pickPlace pdist d rounds (j + 1)

/-- The loop that moves the picks up to `m` and behind `j` up by one. -/
def pickShift (j : Nat) : (m : Nat) → CachePicks → Option CachePicks
  | 0, p => some p
  | m + 1, p =>
      if j < m + 1 then do
        let i ← p.pick[m]?
        let d ← p.pdist[m]?
        let pick ← arraySet p.pick (m + 1) i
        let pdist ← arraySet p.pdist (m + 1) d
        pickShift j m { p with pick := pick, pdist := pdist }
      else some p

/-- The pass of `cache_nodes` over one place of the cache. -/
def cachePickAt {cap : Nat} (e : Engine cap) (target : Id20) (af : Family) (now : Nat)
    (p : CachePicks) (i : Fin b44CacheMax) : Option CachePicks :=
  if cacheFresh af now (e.cache i) = false then some p
  else do
    let d := distCalc (e.cache i).id target
    let j ← pickPlace p.pdist d p.n 0
    if b44ReplyNodes ≤ j then some p
    else
      let n := if p.n < b44ReplyNodes then p.n + 1 else p.n
      let p ← pickShift j (n - 1) { p with n := n }
      let pick ← arraySet p.pick j i
      let pdist ← arraySet p.pdist j d
      some { p with pick := pick, pdist := pdist }

/-- The entry of a node in a compact list. -/
def compactNode (c : B44Cnode) : Bytes := c.id.toList ++ c.addr.elim [] compactAddr

/-- The loop that writes the picks, `rounds` before its end. -/
def cacheWrite {cap : Nat} (e : Engine cap) (af : Family) (outCap : Nat)
    (pick : Vector (Fin b44CacheMax) b44ReplyNodes) : (rounds i : Nat) → Bytes → Option Bytes
  | 0, _, out => some out
  | rounds + 1, i, out =>
      if out.length + compactEntry af ≤ outCap then do
        let slot ← pick[i]?
        cacheWrite e af outCap pick rounds (i + 1) (out ++ compactNode (e.cache slot))
      else some out

/-- `cache_nodes`, over its arrays; `raw` is what these hold at first. -/
def cacheSelect {cap : Nat} (e : Engine cap) (target : Id20) (af : Family) (now outCap : Nat)
    (raw : CachePicks) : Option Bytes :=
  if outCap < compactEntry af then some []
  else do
    let p ← (List.finRange b44CacheMax).foldlM (cachePickAt e target af now) { raw with n := 0 }
    cacheWrite e af outCap p.pick p.n 0 []

/-! ## Distances as numbers -/

/-- The XOR distance of a place of the cache from the target. -/
def nodeXor {cap : Nat} (e : Engine cap) (target : Id20) (i : Fin b44CacheMax) : Nat :=
  radixValue 256 (ranks (distCalc (e.cache i).id target).toList)

/-- `memcmp` over distances compares them as numbers. -/
theorem idCmp_neg_iff (a b : Id20) :
    idCmp a b < 0 ↔ radixValue 256 (ranks a.toList) < radixValue 256 (ranks b.toList) := by
  have hdigits : ∀ v : Id20, Digits 256 (ranks v.toList) := by
    intro v d hd
    obtain ⟨x, -, rfl⟩ := List.mem_map.mp hd
    exact x.toNat_lt
  rw [radixValue_lt_iff (by norm_num) (by simp [ranks]) (hdigits a) (hdigits b)]
  exact memcmp_neg_iff (id20_length a b)

/-! ## The arrays -/

variable {cap : Nat} {e : Engine cap} {target : Id20}

/-- The arrays hold what was picked, with its distances. -/
structure Picks (e : Engine cap) (target : Id20) (p : CachePicks) (l : List (Fin b44CacheMax)) :
    Prop where
  n : p.n = l.length
  le : l.length ≤ b44ReplyNodes
  pick : ∀ i < l.length, p.pick[i]? = l[i]?
  pdist : ∀ i < l.length, p.pdist[i]? = l[i]?.map fun s => distCalc (e.cache s).id target

theorem getElem?_arraySet {α : Type} {n : Nat} (v : Vector α n) {i : Nat} (a : α) (hi : i < n) :
    ∃ v', arraySet v i a = some v' ∧ ∀ j : Nat, v'[j]? = if j = i then some a else v[j]? := by
  refine ⟨v.set i a hi, dif_pos hi, ?_⟩
  intro j
  rw [Vector.getElem?_set]
  by_cases hij : i = j
  · rw [if_pos hij, if_pos hij.symm]
  · rw [if_neg hij, if_neg (Ne.symm hij)]

theorem pickPlace_eq {pdist : Vector Id20 b44ReplyNodes} {l : List (Fin b44CacheMax)}
    (hpdist : ∀ i < l.length, pdist[i]? = l[i]?.map fun s => distCalc (e.cache s).id target)
    (x : Fin b44CacheMax) (rounds j : Nat) (hj : j + rounds = l.length) :
    pickPlace pdist (distCalc (e.cache x).id target) rounds j =
      some (j + placeOf (nodeXor e target) (l.drop j) x) := by
  induction rounds generalizing j with
  | zero =>
      rw [List.drop_eq_nil_of_le (by omega)]
      rfl
  | succ rounds ih =>
      have hlt : j < l.length := by omega
      rw [pickPlace, hpdist j hlt, List.getElem?_eq_getElem hlt, List.drop_eq_getElem_cons hlt,
        placeOf, List.findIdx_cons]
      simp only [Option.map_some, Option.bind_eq_bind, Option.bind_some, idCmp_neg_iff]
      split_ifs with hnear
      · rw [show decide (nodeXor e target x < nodeXor e target l[j]) = true from
          decide_eq_true hnear]
        rfl
      · rw [show decide (nodeXor e target x < nodeXor e target l[j]) = false from
          decide_eq_false hnear, ih (j + 1) (by omega), cond_false, placeOf]
        congr 1
        omega

/-- What the shift does to the two arrays at once. -/
theorem pickShift_eq (j m : Nat) (hm : m < b44ReplyNodes) (p : CachePicks) :
    ∃ p', pickShift j m p = some p' ∧ p'.n = p.n ∧
      (∀ i : Nat, p'.pick[i]? = if j < i ∧ i ≤ m then p.pick[i - 1]? else p.pick[i]?) ∧
      ∀ i : Nat, p'.pdist[i]? = if j < i ∧ i ≤ m then p.pdist[i - 1]? else p.pdist[i]? := by
  induction m generalizing p with
  | zero =>
      refine ⟨p, rfl, rfl, ?_, ?_⟩
      all_goals
        intro i
        rw [if_neg (by omega)]
  | succ m ih =>
      by_cases hjm : j < m + 1
      · rw [pickShift, if_pos hjm]
        obtain ⟨pick, hpick, hpicks⟩ := getElem?_arraySet p.pick p.pick[m] hm
        obtain ⟨pdist, hpdist, hpdists⟩ := getElem?_arraySet p.pdist p.pdist[m] hm
        have hpickm : p.pick[m]? = some p.pick[m] := Vector.getElem?_eq_getElem (by omega)
        have hpdistm : p.pdist[m]? = some p.pdist[m] := Vector.getElem?_eq_getElem (by omega)
        simp only [hpickm, hpdistm, Option.bind_eq_bind, Option.bind_some, hpick, hpdist]
        obtain ⟨p', hp', hn, hpick', hpdist'⟩ :=
          ih (by omega) { p with pick := pick, pdist := pdist }
        refine ⟨p', hp', hn, ?_, ?_⟩
        · intro i
          rw [hpick', hpicks, hpicks]
          rcases lt_trichotomy i (m + 1) with hi | rfl | hi
          · rw [if_neg (by omega : ¬i - 1 = m + 1), if_neg (by omega : ¬i = m + 1)]
            exact if_congr (by omega) rfl rfl
          · rw [if_neg (by omega), if_pos rfl, if_pos (by omega), ← hpickm]
            rfl
          · rw [if_neg (by omega), if_neg (by omega), if_neg (by omega)]
        · intro i
          rw [hpdist', hpdists, hpdists]
          rcases lt_trichotomy i (m + 1) with hi | rfl | hi
          · rw [if_neg (by omega : ¬i - 1 = m + 1), if_neg (by omega : ¬i = m + 1)]
            exact if_congr (by omega) rfl rfl
          · rw [if_neg (by omega), if_pos rfl, if_pos (by omega), ← hpdistm]
            rfl
          · rw [if_neg (by omega), if_neg (by omega), if_neg (by omega)]
      · rw [pickShift, if_neg hjm]
        refine ⟨p, rfl, rfl, ?_, ?_⟩
        all_goals
          intro i
          rw [if_neg (by omega)]

/-- One fresh node of the cache joins the picks in its place. -/
theorem cachePickAt_picks (af : Family) (now : Nat) {p : CachePicks} {l : List (Fin b44CacheMax)}
    (h : Picks e target p l) (x : Fin b44CacheMax) :
    ∃ p', cachePickAt e target af now p x = some p' ∧
      Picks e target p' (if cacheFresh af now (e.cache x) = true
        then insertFirst (nodeXor e target) b44ReplyNodes l x else l) := by
  unfold cachePickAt
  by_cases hfresh : cacheFresh af now (e.cache x) = true
  · rw [if_neg (by simp [hfresh]), if_pos hfresh]
    have hplace := pickPlace_eq h.pdist x p.n 0 (by rw [h.n, Nat.zero_add])
    rw [List.drop_zero, Nat.zero_add] at hplace
    have hat := fun i =>
      (getElem?_insertFirst l x i : (insertFirst (nodeXor e target) b44ReplyNodes l x)[i]? = _)
    have hle : placeOf (nodeXor e target) l x ≤ l.length := placeOf_le l x
    have hlen : (insertFirst (nodeXor e target) b44ReplyNodes l x).length =
        min b44ReplyNodes (l.length + 1) := by
      simp [insertFirst, insertKey, List.orderedInsert_length]
    have hl := h.le
    have hn : (if p.n < b44ReplyNodes then p.n + 1 else p.n) =
        (insertFirst (nodeXor e target) b44ReplyNodes l x).length := by
      rw [h.n, hlen]
      split_ifs <;> omega
    simp only [hplace, hn, Option.bind_eq_bind, Option.bind_some]
    generalize placeOf (nodeXor e target) l x = j at *
    generalize insertFirst (nodeXor e target) b44ReplyNodes l x = l' at *
    by_cases hfull : b44ReplyNodes ≤ j
    · -- behind the last of a full array
      rw [if_pos hfull]
      have hsame : l' = l := by
        apply List.ext_getElem?
        intro i
        rw [hat]
        split_ifs with hi hj hj
        · rw [List.getElem?_eq_none (by omega)]
        · rfl
        all_goals omega
      rw [hsame]
      exact ⟨p, rfl, h⟩
    · rw [if_neg hfull]
      obtain ⟨p', hp', hn', hpick', hpdist'⟩ :=
        pickShift_eq j (l'.length - 1) (by omega) { p with n := l'.length }
      obtain ⟨pick, hpick, hpicks⟩ := getElem?_arraySet p'.pick x (not_le.mp hfull)
      obtain ⟨pdist, hpdist, hpdists⟩ :=
        getElem?_arraySet p'.pdist (distCalc (e.cache x).id target) (not_le.mp hfull)
      rw [hp']
      simp only [Option.bind_some, hpick, hpdist]
      refine ⟨_, rfl, hn', by omega, ?_, ?_⟩
      · intro i hi
        dsimp only
        rw [hpicks, hpick', hat, if_neg (show ¬b44ReplyNodes ≤ i by omega)]
        rcases lt_trichotomy i j with hij | rfl | hij
        · rw [if_neg (by omega), if_neg (by omega), if_pos hij]
          exact h.pick i (by omega)
        · rw [if_pos rfl, if_neg (by omega), if_pos rfl]
        · rw [if_neg (by omega), if_pos (by omega), if_neg (by omega), if_neg (by omega)]
          exact h.pick (i - 1) (by omega)
      · intro i hi
        dsimp only
        rw [hpdists, hpdist', hat, if_neg (show ¬b44ReplyNodes ≤ i by omega)]
        rcases lt_trichotomy i j with hij | rfl | hij
        · rw [if_neg (by omega), if_neg (by omega), if_pos hij]
          exact h.pdist i (by omega)
        · rw [if_pos rfl, if_neg (by omega), if_pos rfl]
          rfl
        · rw [if_neg (by omega), if_pos (by omega), if_neg (by omega), if_neg (by omega)]
          exact h.pdist (i - 1) (by omega)
  · rw [if_pos (by simpa using hfresh), if_neg hfresh]
    exact ⟨p, rfl, h⟩

/-- The whole pass. -/
theorem foldlM_picks (af : Family) (now : Nat) (slots : List (Fin b44CacheMax)) {p : CachePicks}
    {l : List (Fin b44CacheMax)} (h : Picks e target p l) :
    ∃ p', slots.foldlM (cachePickAt e target af now) p = some p' ∧
      Picks e target p' ((slots.filter fun x => cacheFresh af now (e.cache x)).foldl
        (insertFirst (nodeXor e target) b44ReplyNodes) l) := by
  induction slots generalizing p l with
  | nil => exact ⟨p, rfl, h⟩
  | cons x slots ih =>
      obtain ⟨p₁, hp₁, h₁⟩ := cachePickAt_picks af now h x
      obtain ⟨p', hp', h'⟩ := ih h₁
      refine ⟨p', ?_, ?_⟩
      · rw [List.foldlM_cons, hp₁]
        exact hp'
      · rw [List.filter_cons]
        split_ifs at h' ⊢ with hfresh
        · exact h'
        · exact h'

/-! ## What is written -/

/-- The places of the fresh nodes of the family. -/
def freshSlots (e : Engine cap) (af : Family) (now : Nat) : List (Fin b44CacheMax) :=
  (List.finRange b44CacheMax).filter fun i => cacheFresh af now (e.cache i)

/-- The places picked, closest first. -/
def pickedSlots (e : Engine cap) (target : Id20) (af : Family) (now : Nat) :
    List (Fin b44CacheMax) :=
  keepFirst (nodeXor e target) b44ReplyNodes (freshSlots e af now)

/-- A fresh node of the family has an address of it. -/
theorem cacheFresh_addr {af : Family} {now : Nat} {c : B44Cnode}
    (h : cacheFresh af now c = true) :
    ∃ sa, c.addr = some sa ∧ (addrBytes sa).map Prod.fst = some af := by
  rw [cacheFresh, Bool.and_eq_true, beq_iff_eq] at h
  obtain ⟨⟨f, ab⟩, hab, rfl⟩ := Option.map_eq_some_iff.mp h.1
  obtain ⟨sa, hsa, hbytes⟩ := Option.bind_eq_some_iff.mp hab
  exact ⟨sa, hsa, by rw [hbytes]; rfl⟩

theorem length_compactNode {af : Family} {now : Nat} {c : B44Cnode}
    (h : cacheFresh af now c = true) : (compactNode c).length = compactEntry af := by
  obtain ⟨sa, hsa, hf⟩ := cacheFresh_addr h
  rw [compactNode, hsa]
  cases sa with
  | inet a port =>
      obtain rfl : Family.inet = af := by simpa [addrBytes] using hf
      simp [compactAddr, compactEntry]
  | inet6 a port =>
      obtain rfl : Family.inet6 = af := by simpa [addrBytes] using hf
      simp [compactAddr, compactEntry]
  | other => simp [addrBytes] at hf

/-- The loop writes the entries of the picks as far as they fit. -/
theorem cacheWrite_eq {af : Family} {outCap : Nat} {p : CachePicks} {l : List (Fin b44CacheMax)}
    (h : Picks e target p l)
    (hentry : ∀ i ∈ l, (compactNode (e.cache i)).length = compactEntry af)
    (rounds i : Nat) (out : Bytes) (hi : i + rounds = l.length)
    (hout : out.length = i * compactEntry af) :
    cacheWrite e af outCap p.pick rounds i out =
      some (out ++ ((l.drop i).take (outCap / compactEntry af - i)).flatMap
        fun s => compactNode (e.cache s)) := by
  have hpos : 0 < compactEntry af := by cases af <;> decide
  induction rounds generalizing i out with
  | zero =>
      rw [List.drop_eq_nil_of_le (by omega), cacheWrite]
      simp
  | succ rounds ih =>
      have hlt : i < l.length := by omega
      have hfits : out.length + compactEntry af ≤ outCap ↔ i < outCap / compactEntry af := by
        rw [hout, ← Nat.succ_mul, ← Nat.le_div_iff_mul_le hpos, Nat.succ_le_iff]
      rw [cacheWrite]
      by_cases hroom : i < outCap / compactEntry af
      · rw [if_pos (hfits.mpr hroom), h.pick i hlt, List.getElem?_eq_getElem hlt,
          List.drop_eq_getElem_cons hlt]
        simp only [Option.bind_eq_bind, Option.bind_some]
        rw [ih (i + 1) _ (by omega), List.append_assoc,
          show outCap / compactEntry af - i = outCap / compactEntry af - (i + 1) + 1 by omega,
          List.take_succ_cons, List.flatMap_cons]
        rw [List.length_append, hout, hentry _ (List.getElem_mem hlt)]
        ring
      · rw [if_neg (fun hfit => hroom (hfits.mp hfit)),
          show outCap / compactEntry af - i = 0 by omega]
        simp

/-- What is written are the entries of the picks, as far as they fit, whatever the arrays
hold at first. -/
theorem cacheSelect_eq (e : Engine cap) (target : Id20) (af : Family) (now outCap : Nat)
    (raw : CachePicks) :
    cacheSelect e target af now outCap raw =
      some (((pickedSlots e target af now).take (outCap / compactEntry af)).flatMap
        fun i => compactNode (e.cache i)) := by
  unfold cacheSelect
  split_ifs with hcap
  · rw [Nat.div_eq_of_lt hcap]
    simp
  · have hstart : Picks e target { raw with n := 0 } [] :=
      ⟨rfl, Nat.zero_le _, fun _ hi => absurd hi (Nat.not_lt_zero _),
        fun _ hi => absurd hi (Nat.not_lt_zero _)⟩
    obtain ⟨p, hp, hpicks⟩ := foldlM_picks af now (List.finRange b44CacheMax) hstart
    have hpicked : Picks e target p (pickedSlots e target af now) := hpicks
    rw [hp]
    simp only [Option.bind_eq_bind, Option.bind_some]
    rw [cacheWrite_eq hpicked ?_ p.n 0 [] (by rw [hpicked.n, Nat.zero_add]) (by simp)]
    · simp
    · intro i hi
      exact length_compactNode (List.mem_filter.mp (mem_of_mem_keepFirst hi)).2

/-- The picks as the server has them: with their distances and nodes. -/
def pickedNode (e : Engine cap) (target : Id20) (s : Fin b44CacheMax) : Id20 × B44Cnode :=
  (distCalc (e.cache s).id target, e.cache s)

/-- One step of the server's selection is an insertion into the picks. -/
theorem cachePick_eq (e : Engine cap) (target : Id20) (l : List (Fin b44CacheMax))
    (x : Fin b44CacheMax) :
    cachePick (l.map (pickedNode e target)) (distCalc (e.cache x).id target) (e.cache x) =
      (insertFirst (nodeXor e target) b44ReplyNodes l x).map (pickedNode e target) := by
  have hnear : ∀ s, decide (0 ≤ idCmp (distCalc (e.cache x).id target) (pickedNode e target s).1) =
      decide ¬nodeXor e target x < nodeXor e target s := by
    intro s
    rw [decide_eq_decide, ← not_lt, idCmp_neg_iff]
    rfl
  have hsplit := List.takeWhile_append_dropWhile (l := l)
    (p := fun s => decide ¬nodeXor e target x < nodeXor e target s)
  unfold cachePick insertFirst insertKey
  simp only [List.takeWhile_map, Function.comp_def, hnear, List.length_map]
  rw [List.orderedInsert_eq_take_drop, ← List.map_take, ← List.map_drop]
  conv_lhs =>
    enter [2, 1, 2, 2]
    rw [← hsplit]
  conv_lhs =>
    enter [2, 2, 2, 2, 2]
    rw [← hsplit]
  rw [List.take_left, List.drop_left, List.map_take, List.map_append, List.map_cons]
  rfl

/-- The server's account of `cache_nodes` is what comes out of the arrays. -/
theorem cacheSelect_eq_cacheNodes (e : Engine cap) (target : Id20) (af : Family)
    (now outCap : Nat) (raw : CachePicks) :
    cacheSelect e target af now outCap raw = some (cacheNodes e target af now outCap) := by
  have hpicks : ∀ (slots l : List (Fin b44CacheMax)),
      slots.foldl (fun picks i => if cacheFresh af now (e.cache i) = true then
          cachePick picks (distCalc (e.cache i).id target) (e.cache i) else picks)
        (l.map (pickedNode e target)) =
      ((slots.filter fun i => cacheFresh af now (e.cache i)).foldl
        (insertFirst (nodeXor e target) b44ReplyNodes) l).map (pickedNode e target) := by
    intro slots
    induction slots with
    | nil => exact fun l => rfl
    | cons x slots ih =>
        intro l
        rw [List.foldl_cons, List.filter_cons]
        split_ifs with hfresh
        · rw [cachePick_eq, ih]
          rfl
        · exact ih l
  rw [cacheSelect_eq]
  unfold cacheNodes
  dsimp only
  have hall := hpicks (List.finRange b44CacheMax) []
  rw [List.map_nil] at hall
  rw [hall, ← List.map_take, List.flatMap_map]
  cases af <;> rfl

/-! ## One place for a host -/

/-- No two places of the cache are for one host. -/
def OneSlotPerHost (cache : Fin b44CacheMax → B44Cnode) : Prop :=
  ∀ i j, i ≠ j → ∀ a b, (cache i).addr = some a → (cache j).addr = some b →
    addrSameHost a b = false

theorem addrSameHost_comm (a b : Sockaddr) : addrSameHost a b = addrSameHost b a := by
  cases a <;> cases b <;> simp [addrSameHost, Bool.beq_comm]

/-- Writing a node over the place of its host, or over any place where its host has none. -/
theorem oneSlotPerHost_update {cache : Fin b44CacheMax → B44Cnode} (h : OneSlotPerHost cache)
    (i : Fin b44CacheMax) (node : B44Cnode)
    (hother : ∀ j, j ≠ i → ∀ a b, node.addr = some a → (cache j).addr = some b →
      addrSameHost a b = false) : OneSlotPerHost (Function.update cache i node) := by
  intro j k hjk a b ha hb
  by_cases hj : j = i
  · subst hj
    rw [Function.update_self] at ha
    rw [Function.update_of_ne (Ne.symm hjk)] at hb
    exact hother k (Ne.symm hjk) a b ha hb
  · rw [Function.update_of_ne hj] at ha
    by_cases hk : k = i
    · subst hk
      rw [Function.update_self] at hb
      rw [addrSameHost_comm]
      exact hother j hj b a hb ha
    · rw [Function.update_of_ne hk] at hb
      exact h j k hjk a b ha hb

theorem addrSameHost_trans {a b c : Sockaddr} (hab : addrSameHost a b = true) :
    addrSameHost a c = addrSameHost b c := by
  cases a <;> cases b <;> cases c <;> simp_all [addrSameHost]

theorem oneSlotPerHost_cacheAdd {c : NodeCache} (h : OneSlotPerHost c.cache) (q : CacheCall) :
    OneSlotPerHost (cacheAdd c q).cache := by
  unfold cacheAdd
  cases q.id with
  | none => exact h
  | some id =>
      dsimp only
      split_ifs
      · exact h
      · cases hslot : firstSlot c.cache fun n => n.addr.any (addrSameHost q.sa) with
        | some i =>
            have hhost := (firstSlot_eq_some_iff.mp hslot).1
            obtain ⟨b, hb⟩ : ∃ b, (c.cache i).addr = some b :=
              Option.isSome_iff_exists.mp (Option.isSome_of_any hhost)
            rw [hb, Option.any_some] at hhost
            refine oneSlotPerHost_update h i _ ?_
            rintro j hj a b' ⟨⟩ hb'
            rw [addrSameHost_trans hhost]
            exact h i j (Ne.symm hj) b b' hb hb'
        | none =>
            refine oneSlotPerHost_update h c.next _ ?_
            rintro j - a b ⟨⟩ hb
            have hfree := firstSlot_eq_none_iff.mp hslot j
            rwa [hb, Option.any_some] at hfree

/-- Addresses of one family with one spelling are of one host. -/
theorem addrSameHost_of_compactAddr {a b : Sockaddr} {af : Family}
    (ha : (addrBytes a).map Prod.fst = some af) (hb : (addrBytes b).map Prod.fst = some af)
    (h : compactAddr a = compactAddr b) : addrSameHost a b = true := by
  cases a with
  | other => cases ha
  | inet addr port =>
      obtain rfl : Family.inet = af := Option.some_inj.mp ha
      cases b with
      | inet addr' port' =>
          have haddr := (List.append_inj h (by simp)).1
          rw [addrSameHost, Vector.toList_inj.mp haddr, beq_self_eq_true]
      | inet6 addr' port' => cases hb
      | other => cases hb
  | inet6 addr port =>
      obtain rfl : Family.inet6 = af := Option.some_inj.mp ha
      cases b with
      | inet6 addr' port' =>
          have haddr := (List.append_inj h (by simp)).1
          rw [addrSameHost, Vector.toList_inj.mp haddr, beq_self_eq_true]
      | inet addr' port' => cases hb
      | other => cases hb

/-- Entries of different hosts differ. -/
theorem compactNode_ne {af : Family} {now : Nat} {c d : B44Cnode}
    (hc : cacheFresh af now c = true) (hd : cacheFresh af now d = true)
    (hhost : ∀ a b, c.addr = some a → d.addr = some b → addrSameHost a b = false) :
    compactNode c ≠ compactNode d := by
  obtain ⟨a, ha, hfa⟩ := cacheFresh_addr hc
  obtain ⟨b, hb, hfb⟩ := cacheFresh_addr hd
  intro heq
  rw [compactNode, compactNode, ha, hb] at heq
  have hsame := addrSameHost_of_compactAddr hfa hfb (List.append_inj heq (by simp)).2
  rw [hhost a b ha hb] at hsame
  cases hsame

/-! ## The reply -/

/-- The places are those of the closest fresh nodes of the family, closest first, each
once, and as many as there are to be. -/
structure Referred (e : Engine cap) (target : Id20) (af : Family) (now outCap : Nat)
    (sel : List (Fin b44CacheMax)) : Prop where
  fresh : ∀ i ∈ sel, cacheFresh af now (e.cache i) = true
  ascending : sel.Pairwise fun i j => nodeXor e target i ≤ nodeXor e target j
  closest : ∀ i ∈ sel, ∀ j, cacheFresh af now (e.cache j) = true → j ∉ sel →
    nodeXor e target i ≤ nodeXor e target j
  once : sel.Nodup
  count : sel.length =
    min b44ReplyNodes (min (freshSlots e af now).length (outCap / compactEntry af))

theorem referred_keepFirst (e : Engine cap) (target : Id20) (af : Family) (now outCap : Nat) :
    Referred e target af now outCap
      ((pickedSlots e target af now).take (outCap / compactEntry af)) := by
  have hsel : (pickedSlots e target af now).take (outCap / compactEntry af) =
      keepFirst (nodeXor e target) (min (outCap / compactEntry af) b44ReplyNodes)
        (freshSlots e af now) := by
    rw [pickedSlots, keepFirst_eq_take, keepFirst_eq_take, List.take_take]
  rw [hsel]
  constructor
  · intro i hi
    exact (List.mem_filter.mp (mem_of_mem_keepFirst hi)).2
  · exact pairwise_keepFirst _ _
  · intro i hi j hj hnot
    exact keepFirst_le hi (List.mem_filter.mpr ⟨List.mem_finRange j, hj⟩) hnot
  · exact nodup_keepFirst ((List.nodup_finRange _).filter _)
  · rw [length_keepFirst]
    omega

/-- For every content of the cache, every target, family and size of the output, the entries
written are those of the closest fresh nodes of the family in ascending distance, as many as
the reply takes, there are and fit, each place once.  Where the cache was filled by
`cache_add`, no entry is written twice. -/
theorem cache_nodes_selects (e : Engine cap) (target : Id20) (af : Family) (now outCap : Nat)
    (raw : CachePicks) :
    ∃ sel, Referred e target af now outCap sel ∧
      cacheSelect e target af now outCap raw =
        some (sel.flatMap fun i => compactNode (e.cache i)) ∧
      ∀ calls, e.cache = (run cacheAdd nodeCacheEmpty calls).cache →
        (sel.map fun i => compactNode (e.cache i)).Nodup := by
  have hsel := referred_keepFirst e target af now outCap
  refine ⟨_, hsel, cacheSelect_eq e target af now outCap raw, ?_⟩
  intro calls hcalls
  have hhosts : OneSlotPerHost e.cache := by
    rw [hcalls]
    refine run_invariant (I := fun c : NodeCache => OneSlotPerHost c.cache) ?_ ?_ calls
    · exact fun c q hc => oneSlotPerHost_cacheAdd hc q
    · intro i j _ a b ha
      cases ha
  refine List.Nodup.map_on ?_ hsel.once
  intro i hi j hj heq
  by_contra hij
  exact compactNode_ne (hsel.fresh i hi) (hsel.fresh j hj) (hhosts i j hij) heq

end Bep44
end Comrade
