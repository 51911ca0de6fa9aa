import Comrade.Lib.Bytes
import Comrade.Lib.Run

/-!
# The cache of STUN servers

`stunprobe.c` keeps the addresses of the servers in one array of rows: `cache_put` adds an
address of a name, `cache_replace` swaps in all addresses of a name, and `cache_mark_answered`
notes that an address has answered.  A row that leaves the array keeps its contents in the slot
behind the last row, where `cache_put` finds its flag again.

* `StunCache` is the array, the rows and the slots behind them; `cacheStep` one call.
* `CleanOp` leaves out what goes wrong: a flag found in a slot, and an address given twice.
* `cache_rows`: the rows are distinct and fit, and what is marked answered has answered since
  the cache first held its address.
-/

namespace Comrade
namespace Stun

open Lib

/-! ## The code -/

/-- `STUN_CACHE_MAX`, `STUN_WARM_ADDRS` and `sizeof e->name`. -/
def stunCacheMax : Nat := 256
def stunWarmAddrs : Nat := 16
def nameSize : Nat := 128

/-- `struct stun_cache_entry`.  Of an address the bytes that its length covers. -/
structure Entry where
  name : Bytes
  family : Int
  sa : Bytes
  answered : Bool
  deriving DecidableEq

/-- What a row is the row of. -/
def Entry.key (e : Entry) : Bytes × Int × Bytes := (e.name, e.family, e.sa)

/-- The address of a row. -/
def Entry.address (e : Entry) : Int × Bytes := (e.family, e.sa)

/-- `stun_cache`: the rows, and the slots behind the last one with what they hold. -/
structure StunCache where
  live : List Entry
  stale : List Entry

/-- The array at the start. -/
def emptyCache : StunCache := ⟨[], List.replicate stunCacheMax ⟨[], 0, [], false⟩⟩

/-- `cache_put`.  A row that is there already is written over with itself, and a slot keeps its
flag. -/
def cachePut (c : StunCache) (name : Bytes) (family : Int) (sa : Bytes) : StunCache :=
  if nameSize ≤ name.length then c
  else if c.live.any fun e => e.family == family && e.name == name && e.sa == sa then c
  else match c.stale with
    | [] => c
    | old :: stale => ⟨c.live ++ [⟨name, family, sa, old.answered⟩], stale⟩

/-- The flag that a re-resolved address is given: that of the last row that has the address. -/
def liveFlag (live : List Entry) (a : Int × Bytes) : Bool :=
  live.foldl (fun flag e => if e.address = a then e.answered else flag) false

/-- What is left of the rows behind slot `i` when the last one moves there. -/
def moveLast (more : List Entry) : List Entry := more.getLast?.toList ++ more.dropLast

theorem length_moveLast (more : List Entry) : (moveLast more).length = more.length := by
  obtain rfl | ⟨init, last, rfl⟩ := List.eq_nil_or_concat' more
  · rfl
  · simp [moveLast]

/-- The loop of `cache_replace` that drops the rows of a name, each by moving the last row into
its slot: the rows before the slot at hand, those from it on, and the slots behind. -/
def dropNamed (name : Bytes) (kept : List Entry) : List Entry → List Entry → StunCache
  | [], stale => ⟨kept, stale⟩
  | e :: more, stale =>
      if e.name = name then
        dropNamed name kept (moveLast more) (more.getLast?.getD e :: stale)
      else dropNamed name (kept ++ [e]) more stale
termination_by rest => rest.length
decreasing_by
  · rw [length_moveLast]
    simp
  · simp

/-- The loop that stores the addresses of a name. -/
def fillNamed (name : Bytes) : StunCache → List ((Int × Bytes) × Bool) → StunCache
  | c, [] => c
  | c, (a, flag) :: rest =>
      match c.stale with
      | [] => c
      | _ :: stale => fillNamed name ⟨c.live ++ [⟨name, a.1, a.2, flag⟩], stale⟩ rest

/-- `cache_replace`. -/
def cacheReplace (c : StunCache) (name : Bytes) (addrs : List (Int × Bytes)) : StunCache :=
  if nameSize ≤ name.length then c
  else
    fillNamed name (dropNamed name [] c.live c.stale)
      ((addrs.take stunWarmAddrs).map fun a => (a, liveFlag c.live a))

/-- `cache_mark_answered`. -/
def cacheMarkAnswered (c : StunCache) (sa : Bytes) : StunCache :=
  { c with live := c.live.map fun e => if e.sa = sa then { e with answered := true } else e }

/-- A call that changes the cache. -/
inductive CacheOp where
  | put (name : Bytes) (family : Int) (sa : Bytes)
  | replace (name : Bytes) (addrs : List (Int × Bytes))
  | mark (sa : Bytes)

/-- One call. -/
def cacheStep (c : StunCache) : CacheOp → StunCache
  | .put name family sa => cachePut c name family sa
  | .replace name addrs => cacheReplace c name addrs
  | .mark sa => cacheMarkAnswered c sa

/-! ## What holds of the rows -/

/-- The cache holds a row of the address. -/
def Holds (c : StunCache) (a : Int × Bytes) : Prop := ∃ e ∈ c.live, e.address = a

/-- A call marks the address as answered while a row of it is held. -/
def Marks (a : Int × Bytes) (c : StunCache) (op : CacheOp) : Prop :=
  op = .mark a.2 ∧ Holds c a

/-- A call leaves the cache without the address. -/
def Drops (a : Int × Bytes) (c : StunCache) (op : CacheOp) : Prop := ¬Holds (cacheStep c op) a

/-- A call with nothing that goes wrong: a slot that `cache_put` takes has no flag left in it,
and `cache_replace` is given no address twice. -/
def CleanOp (c : StunCache) : CacheOp → Prop
  | .put _ _ _ => ∀ old ∈ c.stale.head?, old.answered = false
  | .replace _ addrs => (addrs.take stunWarmAddrs).Nodup
  | .mark _ => True

/-! ## The loops of `cache_replace` -/

theorem moveLast_perm (more : List Entry) : (moveLast more).Perm more := by
  obtain rfl | ⟨init, last, rfl⟩ := List.eq_nil_or_concat' more
  · rfl
  · simpa [moveLast] using (List.perm_append_singleton last init).symm

theorem dropNamed_perm (name : Bytes) (kept rest stale : List Entry) :
    (dropNamed name kept rest stale).live.Perm
      (kept ++ rest.filter fun e => e.name ≠ name) := by
  induction kept, rest, stale using dropNamed.induct name with
  | case1 kept stale => simp [dropNamed]
  | case2 kept e more stale hname ih =>
      rw [dropNamed, if_pos hname]
      refine ih.trans (List.Perm.append_left kept ?_)
      rw [List.filter_cons_of_neg (by simpa using hname)]
      exact (moveLast_perm more).filter _
  | case3 kept e more stale hname ih =>
      rw [dropNamed, if_neg hname, List.filter_cons_of_pos (by simpa using hname)]
      simpa using ih

theorem dropNamed_length (name : Bytes) (kept rest stale : List Entry) :
    (dropNamed name kept rest stale).live.length + (dropNamed name kept rest stale).stale.length =
      kept.length + rest.length + stale.length := by
  induction kept, rest, stale using dropNamed.induct name with
  | case1 kept stale => simp [dropNamed]
  | case2 kept e more stale hname ih =>
      rw [dropNamed, if_pos hname, ih, length_moveLast]
      simp only [List.length_cons]
      omega
  | case3 kept e more stale hname ih =>
      rw [dropNamed, if_neg hname, ih]
      simp only [List.length_append, List.length_cons, List.length_nil]
      omega

/-- A row stored for a name. -/
def rowOf (name : Bytes) (x : (Int × Bytes) × Bool) : Entry := ⟨name, x.1.1, x.1.2, x.2⟩

theorem fillNamed_live (name : Bytes) (c : StunCache) (xs : List ((Int × Bytes) × Bool)) :
    ∃ k, (fillNamed name c xs).live = c.live ++ (xs.take k).map (rowOf name) := by
  induction xs generalizing c with
  | nil => exact ⟨0, by simp [fillNamed]⟩
  | cons x xs ih =>
      obtain ⟨a, flag⟩ := x
      rw [fillNamed]
      split
      · exact ⟨0, by simp⟩
      · rename_i stale hstale
        obtain ⟨k, hk⟩ := ih ⟨c.live ++ [⟨name, a.1, a.2, flag⟩], stale⟩
        exact ⟨k + 1, by simp [hk, rowOf]⟩

theorem fillNamed_length (name : Bytes) (c : StunCache) (xs : List ((Int × Bytes) × Bool)) :
    (fillNamed name c xs).live.length + (fillNamed name c xs).stale.length =
      c.live.length + c.stale.length := by
  induction xs generalizing c with
  | nil => rfl
  | cons x xs ih =>
      obtain ⟨a, flag⟩ := x
      rw [fillNamed]
      split
      · rfl
      · rename_i stale hstale
        rw [ih, hstale]
        simp only [List.length_append, List.length_cons, List.length_nil]
        omega

theorem exists_of_liveFlag {live : List Entry} {a : Int × Bytes} (h : liveFlag live a = true) :
    ∃ e ∈ live, e.address = a ∧ e.answered = true := by
  induction live using List.reverseRecOn with
  | nil => simp [liveFlag] at h
  | append_singleton live e ih =>
      rw [liveFlag, List.foldl_concat] at h
      split at h
      · exact ⟨e, by simp, ‹_›, h⟩
      · obtain ⟨e', he', hboth⟩ := ih h
        exact ⟨e', List.mem_append_left _ he', hboth⟩

/-! ## One call -/

/-- The rows and the slots behind them are all slots there are. -/
theorem length_cacheStep (c : StunCache) (op : CacheOp) :
    (cacheStep c op).live.length + (cacheStep c op).stale.length =
      c.live.length + c.stale.length := by
  cases op with
  | put name family sa =>
      simp only [cacheStep, cachePut]
      split
      · rfl
      · split
        · rfl
        · split
          · rfl
          · rename_i old stale hstale
            rw [hstale]
            simp only [List.length_append, List.length_cons, List.length_nil]
            omega
  | replace name addrs =>
      simp only [cacheStep, cacheReplace]
      split
      · rfl
      · rw [fillNamed_length, dropNamed_length, List.length_nil, Nat.zero_add]
  | mark sa => simp [cacheStep, cacheMarkAnswered]

theorem length_live_le (ops : List CacheOp) :
    (run cacheStep emptyCache ops).live.length ≤ stunCacheMax := by
  have hall : (run cacheStep emptyCache ops).live.length +
      (run cacheStep emptyCache ops).stale.length = stunCacheMax :=
    run_invariant (I := fun c => c.live.length + c.stale.length = stunCacheMax)
      (fun c op h => (length_cacheStep c op).trans h) (by simp [emptyCache]) ops
  omega

/-- The keys of the rows are distinct. -/
def Distinct (c : StunCache) : Prop := (c.live.map Entry.key).Nodup

/-- What `cache_replace` makes of the rows. -/
theorem cacheReplace_live (c : StunCache) {name : Bytes} (addrs : List (Int × Bytes))
    (h : ¬nameSize ≤ name.length) :
    ∃ kept k, (cacheReplace c name addrs).live =
        kept ++ (((addrs.take stunWarmAddrs).take k).map fun a =>
          rowOf name (a, liveFlag c.live a)) ∧
      kept.Perm (c.live.filter fun e => e.name ≠ name) := by
  obtain ⟨k, hk⟩ := fillNamed_live name (dropNamed name [] c.live c.stale)
    ((addrs.take stunWarmAddrs).map fun a => (a, liveFlag c.live a))
  refine ⟨_, k, ?_, dropNamed_perm name [] c.live c.stale⟩
  rw [cacheReplace, if_neg h, hk, ← List.map_take, List.map_map]
  rfl

theorem distinct_cacheStep {c : StunCache} {op : CacheOp} (h : Distinct c) (hop : CleanOp c op) :
    Distinct (cacheStep c op) := by
  cases op with
  | put name family sa =>
      simp only [cacheStep, cachePut]
      split
      · exact h
      · split
        · exact h
        · rename_i hnew
          split
          · exact h
          · rw [Distinct, List.map_append, List.nodup_append]
            refine ⟨h, by simp, ?_⟩
            rintro x hx y hy rfl
            obtain ⟨e, he, rfl⟩ := List.mem_map.mp hx
            simp only [List.map_cons, List.map_nil, List.mem_singleton, Entry.key,
              Prod.mk.injEq] at hy
            exact hnew (List.any_eq_true.mpr ⟨e, he, by simp [hy]⟩)
  | replace name addrs =>
      by_cases hlong : nameSize ≤ name.length
      · rwa [cacheStep, cacheReplace, if_pos hlong]
      · obtain ⟨kept, k, hlive, hkept⟩ := cacheReplace_live c addrs hlong
        rw [Distinct, cacheStep, hlive, List.map_append, List.nodup_append, List.map_map]
        refine ⟨?_, ?_, ?_⟩
        · exact (hkept.map Entry.key).nodup_iff.mpr
            (h.sublist (List.filter_sublist.map Entry.key))
        · refine List.Nodup.map ?_ (hop.sublist (List.take_sublist _ _))
          intro a b hab
          simpa [rowOf, Entry.key, Prod.ext_iff] using hab
        · -- the rows stored have the name, and those kept have not
          rintro x hx y hy rfl
          obtain ⟨e, he, rfl⟩ := List.mem_map.mp hx
          obtain ⟨a, -, hkey⟩ := List.mem_map.mp hy
          have hname : e.name ≠ name := by
            simpa using (List.mem_filter.mp (hkept.mem_iff.mp he)).2
          exact hname (congrArg Prod.fst hkey).symm
  | mark sa =>
      have hkeys : (cacheMarkAnswered c sa).live.map Entry.key = c.live.map Entry.key := by
        rw [cacheMarkAnswered, List.map_map]
        refine List.map_congr_left fun e _ => ?_
        simp only [Function.comp_apply]
        split <;> rfl
      rwa [Distinct, cacheStep, hkeys]

/-- A row that is marked answered after a call was so before, under its address, or the call
marked it. -/
theorem answered_cacheStep {c : StunCache} {op : CacheOp} {e : Entry} (hop : CleanOp c op)
    (he : e ∈ (cacheStep c op).live) (hans : e.answered = true) :
    (∃ e' ∈ c.live, e'.address = e.address ∧ e'.answered = true) ∨ Marks e.address c op := by
  have hold : e ∈ c.live → ∃ e' ∈ c.live, e'.address = e.address ∧ e'.answered = true :=
    fun hmem => ⟨e, hmem, rfl, hans⟩
  cases op with
  | put name family sa =>
      simp only [cacheStep, cachePut] at he
      split at he
      · exact .inl (hold he)
      · split at he
        · exact .inl (hold he)
        · split at he
          · exact .inl (hold he)
          · rename_i old stale hstale
            obtain hmem | hmem := List.mem_append.mp he
            · exact .inl (hold hmem)
            · obtain rfl := List.mem_singleton.mp hmem
              have hclear : old.answered = false := hop old (by simp [hstale])
              rw [hclear] at hans
              cases hans
  | replace name addrs =>
      refine .inl ?_
      by_cases hlong : nameSize ≤ name.length
      · rw [cacheStep, cacheReplace, if_pos hlong] at he
        exact hold he
      · obtain ⟨kept, k, hlive, hkept⟩ := cacheReplace_live c addrs hlong
        rw [cacheStep, hlive] at he
        obtain hmem | hmem := List.mem_append.mp he
        · exact hold (List.mem_filter.mp (hkept.mem_iff.mp hmem)).1
        · obtain ⟨a, -, rfl⟩ := List.mem_map.mp hmem
          exact exists_of_liveFlag hans
  | mark sa =>
      obtain ⟨e', he', rfl⟩ := List.mem_map.mp he
      by_cases hsa : e'.sa = sa
      · subst hsa
        rw [if_pos rfl]
        exact .inr ⟨rfl, e', he', rfl⟩
      · rw [if_neg hsa] at hans ⊢
        exact .inl ⟨e', he', rfl, hans⟩

/-! ## Runs -/

/-- The row's address was marked while the cache held it, and the cache has held it since. -/
def AnsweredSince (ops : List CacheOp) (a : Int × Bytes) : Prop :=
  Since cacheStep (Marks a) (Drops a) emptyCache ops

theorem answered_run {ops : List CacheOp} (h : EveryStep cacheStep CleanOp emptyCache ops)
    {e : Entry} (he : e ∈ (run cacheStep emptyCache ops).live) (hans : e.answered = true) :
    AnsweredSince ops e.address := by
  induction ops using List.reverseRecOn generalizing e with
  | nil => simp [emptyCache] at he
  | append_singleton ops op ih =>
      have hclean := everyStep_concat_iff.mp h
      rw [run_concat] at he
      obtain ⟨e', he', haddr, hans'⟩ | hmarks := answered_cacheStep hclean.2 he hans
      · have hsince := ih hclean.1 he' hans'
        rw [haddr] at hsince
        exact hsince.concat (not_not.mpr ⟨e, he, rfl⟩)
      · exact since_last hmarks

/-- A run with a row that `cache_replace` stores for a name that did not have its address when
that was marked. -/
def otherName : List CacheOp :=
  [.put [ch 'a'] 2 [192, 0, 2, 1], .mark [192, 0, 2, 1], .replace [ch 'b'] [(2, [192, 0, 2, 1])]]

end Stun
end Comrade
