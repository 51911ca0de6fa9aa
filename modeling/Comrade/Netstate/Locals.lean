import Comrade.Netstate.Model

/-!
# The kernel's set taken as the family's

`local_sync` walks the local set down, closing over the entries the snapshot lacks, and
then appends the addresses the snapshot has and the set lacks, each with the proof it was
held with as a translation.  This module says what the two loops leave.

* `localPrune_length`: the first loop is a filter.
* `SyncAdds` is what the second loop appends; `localAdd_spec` says it does no more.
* `localAdd_complete`: no address of a snapshot the kernel can report is left out.
-/

namespace Comrade
namespace Netstate

open Lib

/-- The addresses of the local set. -/
def localAddrs (f : NetFam) : List Bytes := f.locals.map NetLocal.addr

/-- The addresses held as translations. -/
def xlatAddrs (f : NetFam) : List Bytes := f.xlats.map Xlat.addr

/-- The addresses of the family in a snapshot. -/
def famAddrs (i : Fam) (addrs : List NetmonAddr) : List Bytes :=
  (addrs.filter fun r => r.family == some i && r.addr.length == addrLen i).map NetmonAddr.addr

theorem mem_famAddrs {i : Fam} {addrs : List NetmonAddr} {a : Bytes} :
    a ∈ famAddrs i addrs ↔ a.length = addrLen i ∧ snapHas addrs i a = true := by
  unfold famAddrs snapHas
  constructor
  · intro h
    obtain ⟨r, hr, rfl⟩ := List.mem_map.mp h
    rw [List.mem_filter] at hr
    obtain ⟨hmem, htest⟩ := hr
    simp only [Bool.and_eq_true, beq_iff_eq] at htest
    refine ⟨htest.2, ?_⟩
    rw [List.any_eq_true]
    exact ⟨r, hmem, by simp [htest.1]⟩
  · rintro ⟨hlen, hany⟩
    obtain ⟨r, hr, htest⟩ := List.any_eq_true.mp hany
    simp only [Bool.and_eq_true, beq_iff_eq] at htest
    obtain ⟨hfam, rfl⟩ := htest
    apply List.mem_map_of_mem
    rw [List.mem_filter]
    exact ⟨hr, by simp [hfam, hlen]⟩

theorem snapHas_of_mem {i : Fam} {addrs : List NetmonAddr} {a : Bytes}
    (h : a ∈ famAddrs i addrs) : snapHas addrs i a = true :=
  (mem_famAddrs.1 h).2

theorem length_famAddrs_le (i : Fam) (addrs : List NetmonAddr) :
    (famAddrs i addrs).length ≤ addrs.length := by
  unfold famAddrs
  rw [List.length_map]
  exact List.length_filter_le _ _

theorem famAddrs_cons_of_neg {i : Fam} {r : NetmonAddr} {rest : List NetmonAddr}
    (h : r.family ≠ some i ∨ r.addr.length ≠ addrLen i) :
    famAddrs i (r :: rest) = famAddrs i rest := by
  have htest : (r.family == some i && r.addr.length == addrLen i) = false := by
    rw [Bool.and_eq_false_iff]
    rcases h with h | h
    · exact Or.inl (by simpa using h)
    · exact Or.inr (by simpa using h)
  simp [famAddrs, htest]

theorem famAddrs_cons_of_pos {i : Fam} {r : NetmonAddr} {rest : List NetmonAddr}
    (h : ¬(r.family ≠ some i ∨ r.addr.length ≠ addrLen i)) :
    famAddrs i (r :: rest) = r.addr :: famAddrs i rest := by
  push Not at h
  simp [famAddrs, h.1, h.2]

theorem localIdx_isSome {f : NetFam} {a : Bytes} : (localIdx f a).isSome ↔ a ∈ localAddrs f := by
  unfold localIdx localAddrs
  rw [List.findIdx?_isSome, List.any_eq_true, List.mem_map]
  constructor
  · rintro ⟨l, hl, ha⟩
    exact ⟨l, hl, by simpa using ha⟩
  · rintro ⟨l, hl, ha⟩
    exact ⟨l, hl, by simpa using ha⟩

/-! ## The entries that go -/

/-- With `k` entries left to look at, those above them have been looked at. -/
theorem localPrune_eq (addrs : List NetmonAddr) (i : Fam) (k : Nat) (ls : List NetLocal)
    (hk : k ≤ ls.length) :
    localPrune addrs i k ls =
      ((ls.take k).filter (fun l => snapHas addrs i l.addr) ++ ls.drop k,
        (ls.take k).any fun l => !snapHas addrs i l.addr) := by
  induction k generalizing ls with
  | zero => simp [localPrune]
  | succ k ih =>
      have hget : ls[k]? = some (ls.get ⟨k, hk⟩) := List.getElem?_eq_getElem hk
      have htake : ls.take (k + 1) = ls.take k ++ [ls.get ⟨k, hk⟩] := by
        rw [List.take_add_one, hget]
        rfl
      have hdrop : ls.drop k = ls.get ⟨k, hk⟩ :: ls.drop (k + 1) := List.drop_eq_getElem_cons hk
      rw [localPrune, hget, Option.all_some, htake, List.filter_append, List.any_append]
      by_cases hhas : snapHas addrs i (ls.get ⟨k, hk⟩).addr = true
      · rw [if_pos hhas, ih ls (by omega), hdrop]
        simp only [List.get_eq_getElem] at hhas
        simp [hhas]
      · -- the entry is closed over: what is below it has not moved
        have herase : (ls.eraseIdx k).take k = ls.take k := by
          rw [List.eraseIdx_eq_take_drop_succ, List.take_append_of_le_length (by simp; omega),
            List.take_take, Nat.min_self]
        have herase' : (ls.eraseIdx k).drop k = ls.drop (k + 1) := by
          rw [List.eraseIdx_eq_take_drop_succ, List.drop_append_of_le_length (by simp; omega)]
          simp
        have hlen : k ≤ (ls.eraseIdx k).length := by
          rw [List.length_eraseIdx_of_lt hk]
          omega
        rw [if_neg hhas, ih _ hlen, herase, herase']
        rw [Bool.not_eq_true] at hhas
        simp only [List.get_eq_getElem] at hhas
        simp [hhas]

/-- The first loop of `local_sync` keeps what the snapshot has. -/
theorem localPrune_length (addrs : List NetmonAddr) (i : Fam) (ls : List NetLocal) :
    localPrune addrs i ls.length ls =
      (ls.filter (fun l => snapHas addrs i l.addr), ls.any fun l => !snapHas addrs i l.addr) := by
  rw [localPrune_eq addrs i ls.length ls (Nat.le_refl _)]
  simp

/-! ## The entries that come -/

theorem xlatForget_fst (f : NetFam) (a : Bytes) :
    (xlatForget f a).1 = true ↔ a ∈ xlatAddrs f := by
  unfold xlatForget xlatAddrs
  rw [List.mem_map]
  split
  · rename_i h
    obtain ⟨x, hx, ha⟩ := List.any_eq_true.mp h
    simp only [true_iff]
    exact ⟨x, hx, by simpa using ha⟩
  · rename_i h
    rw [List.any_eq_true] at h
    push Not at h
    simp only [Bool.false_eq_true, false_iff]
    rintro ⟨x, hx, ha⟩
    exact h x hx (by simpa using ha)

/-- Forgetting a translation touches the translations alone. -/
theorem xlatForget_snd (f : NetFam) (a : Bytes) :
    (xlatForget f a).2 = { f with xlats := f.xlats.eraseP fun x => x.addr == a } := by
  unfold xlatForget
  split
  · rfl
  · rename_i h
    rw [List.any_eq_true] at h
    push Not at h
    rw [List.eraseP_of_forall_not h]

/-- An address taken out of a list without repetition is gone from it. -/
theorem not_mem_eraseP_addr {xs : List Xlat} {a : Bytes} (h : (xs.map Xlat.addr).Nodup) :
    a ∉ (xs.eraseP fun x => x.addr == a).map Xlat.addr := by
  induction xs with
  | nil => simp
  | cons x xs ih =>
      rw [List.map_cons, List.nodup_cons] at h
      by_cases hx : x.addr = a
      · rw [List.eraseP_cons_of_pos (by simpa using hx)]
        rw [← hx]
        exact h.1
      · rw [List.eraseP_cons_of_neg (by simpa using hx), List.map_cons, List.mem_cons, not_or]
        exact ⟨fun ha => hx ha.symm, ih h.2⟩

/-- What the second loop of `local_sync` appends to the local set of `f`, and what it
leaves of its translations. -/
structure SyncAdds (i : Fam) (addrs : List NetmonAddr) (f : NetFam) (new : List NetLocal)
    (left : List Xlat) : Prop where
  inSnap : ∀ l ∈ new, l.addr ∈ famAddrs i addrs
  fresh : ∀ l ∈ new, l.addr ∉ localAddrs f
  nodup : (new.map NetLocal.addr).Nodup
  proof : ∀ l ∈ new, l.proven = true → l.addr ∈ xlatAddrs f
  left_sublist : left.Sublist f.xlats
  taken : (xlatAddrs f).Nodup → ∀ l ∈ new, l.addr ∉ left.map Xlat.addr
  scope : ∀ l ∈ new, l.scope = addrScopeRaw l.addr

theorem SyncAdds.nil (i : Fam) (addrs : List NetmonAddr) (f : NetFam) :
    SyncAdds i addrs f [] f.xlats where
  inSnap := by simp
  fresh := by simp
  nodup := List.nodup_nil
  proof := by simp
  left_sublist := List.Sublist.refl _
  taken := by simp
  scope := by simp

theorem SyncAdds.weaken {i : Fam} {addrs addrs' : List NetmonAddr} {f : NetFam}
    {new : List NetLocal} {left : List Xlat} (h : SyncAdds i addrs f new left)
    (hsub : famAddrs i addrs ⊆ famAddrs i addrs') : SyncAdds i addrs' f new left :=
  { h with inSnap := fun l hl => hsub (h.inSnap l hl) }

/-- The family as `local_sync` leaves it when it takes one more address. -/
def takeLocal (f : NetFam) (a : Bytes) : NetFam :=
  { f with
    xlats := f.xlats.eraseP fun x => x.addr == a
    locals := f.locals ++
      [{ addr := a, scope := addrScopeRaw a, proven := (xlatForget f a).1 }] }

theorem localAddrs_takeLocal (f : NetFam) (a : Bytes) :
    localAddrs (takeLocal f a) = localAddrs f ++ [a] := by
  simp [localAddrs, takeLocal]

theorem localAdd_full {i : Fam} {addrs : List NetmonAddr} {f : NetFam}
    (hfull : netmonMaxAddrs ≤ f.locals.length) : localAdd i addrs f = (f, false) := by
  cases addrs with
  | nil => rfl
  | cons r rest => exact if_pos hfull

theorem localAdd_cons {i : Fam} {r : NetmonAddr} {rest : List NetmonAddr} {f : NetFam}
    (hroom : ¬netmonMaxAddrs ≤ f.locals.length) :
    localAdd i (r :: rest) f =
      if r.family ≠ some i ∨ r.addr.length ≠ addrLen i then localAdd i rest f
      else if (localIdx f r.addr).isSome = true then localAdd i rest f
      else
        ((localAdd i rest
          { (xlatForget f r.addr).2 with
            locals := (xlatForget f r.addr).2.locals ++
              [{ addr := r.addr, scope := addrScopeRaw r.addr,
                 proven := (xlatForget f r.addr).1 }] }).1, true) :=
  if_neg hroom

/-- The loop of `local_sync` at a record that it passes over. -/
theorem localAdd_cons_skip {i : Fam} {r : NetmonAddr} {rest : List NetmonAddr} {f : NetFam}
    (hroom : ¬netmonMaxAddrs ≤ f.locals.length)
    (hskip : (r.family ≠ some i ∨ r.addr.length ≠ addrLen i) ∨
      (localIdx f r.addr).isSome = true) :
    localAdd i (r :: rest) f = localAdd i rest f := by
  rw [localAdd_cons hroom]
  by_cases hfam : r.family ≠ some i ∨ r.addr.length ≠ addrLen i
  · rw [if_pos hfam]
  · rw [if_neg hfam, if_pos (hskip.resolve_left hfam)]

/-- The loop of `local_sync` at an address of the family that is not held. -/
theorem localAdd_cons_take {i : Fam} {r : NetmonAddr} {rest : List NetmonAddr} {f : NetFam}
    (hroom : ¬netmonMaxAddrs ≤ f.locals.length)
    (hfam : ¬(r.family ≠ some i ∨ r.addr.length ≠ addrLen i))
    (hnew : ¬(localIdx f r.addr).isSome = true) :
    localAdd i (r :: rest) f = ((localAdd i rest (takeLocal f r.addr)).1, true) := by
  rw [localAdd_cons hroom, if_neg hfam, if_neg hnew, xlatForget_snd]
  rfl

theorem SyncAdds.cons {i : Fam} {r : NetmonAddr} {rest : List NetmonAddr} {f : NetFam}
    {new : List NetLocal} {left : List Xlat}
    (hfam : ¬(r.family ≠ some i ∨ r.addr.length ≠ addrLen i))
    (hnew : r.addr ∉ localAddrs f) (h : SyncAdds i rest (takeLocal f r.addr) new left) :
    SyncAdds i (r :: rest) f
      ({ addr := r.addr, scope := addrScopeRaw r.addr, proven := (xlatForget f r.addr).1 } :: new)
      left := by
  have hleft : left.Sublist (f.xlats.eraseP fun x => x.addr == r.addr) := h.left_sublist
  have herase : (f.xlats.eraseP fun x => x.addr == r.addr).Sublist f.xlats :=
    List.eraseP_sublist
  have hfresh : ∀ l ∈ new, l.addr ∉ localAddrs f ∧ l.addr ≠ r.addr := by
    intro l hl
    have := h.fresh l hl
    rw [localAddrs_takeLocal, List.mem_append, List.mem_singleton, not_or] at this
    exact this
  refine ⟨?_, ?_, ?_, ?_, hleft.trans herase, ?_, ?_⟩
  · -- each of them is in the snapshot
    intro l hl
    rw [famAddrs_cons_of_pos hfam]
    rcases List.mem_cons.mp hl with rfl | hl
    · exact List.mem_cons_self
    · exact List.mem_cons_of_mem _ (h.inSnap l hl)
  · intro l hl
    rcases List.mem_cons.mp hl with rfl | hl
    · exact hnew
    · exact (hfresh l hl).1
  · rw [List.map_cons, List.nodup_cons]
    refine ⟨?_, h.nodup⟩
    intro hmem
    obtain ⟨l, hl, ha⟩ := List.mem_map.mp hmem
    exact (hfresh l hl).2 ha
  · -- a proof comes out of the translations, and those only shrink
    intro l hl hp
    rcases List.mem_cons.mp hl with rfl | hl
    · exact (xlatForget_fst f r.addr).mp hp
    · exact (herase.map Xlat.addr).subset (h.proof l hl hp)
  · intro hnodup l hl
    rcases List.mem_cons.mp hl with rfl | hl
    · intro hmem
      exact not_mem_eraseP_addr hnodup ((hleft.map Xlat.addr).subset hmem)
    · exact h.taken ((herase.map Xlat.addr).nodup hnodup) l hl
  · intro l hl
    rcases List.mem_cons.mp hl with rfl | hl
    · rfl
    · exact h.scope l hl

/-- The second loop of `local_sync` appends addresses and touches nothing else; the flag
says whether it appended any. -/
theorem localAdd_spec (i : Fam) (addrs : List NetmonAddr) (f : NetFam) :
    ∃ new left, SyncAdds i addrs f new left ∧
      (localAdd i addrs f).1 = { f with locals := f.locals ++ new, xlats := left } ∧
      (localAdd i addrs f).2 = !new.isEmpty := by
  induction addrs generalizing f with
  | nil => exact ⟨[], f.xlats, .nil i [] f, by rw [List.append_nil]; rfl, rfl⟩
  | cons r rest ih =>
      by_cases hroom : netmonMaxAddrs ≤ f.locals.length
      · rw [localAdd_full hroom]
        exact ⟨[], f.xlats, .nil i _ f, by rw [List.append_nil], rfl⟩
      by_cases hfam : r.family ≠ some i ∨ r.addr.length ≠ addrLen i
      · obtain ⟨new, left, hadds, hres, hflag⟩ := ih f
        rw [localAdd_cons_skip hroom (.inl hfam)]
        refine ⟨new, left, hadds.weaken ?_, hres, hflag⟩
        rw [famAddrs_cons_of_neg hfam]
        exact List.Subset.refl _
      by_cases hnew : (localIdx f r.addr).isSome = true
      · obtain ⟨new, left, hadds, hres, hflag⟩ := ih f
        rw [localAdd_cons_skip hroom (.inr hnew)]
        refine ⟨new, left, hadds.weaken ?_, hres, hflag⟩
        rw [famAddrs_cons_of_pos hfam]
        exact List.subset_cons_self _ _
      · obtain ⟨new, left, hadds, hres, _⟩ := ih (takeLocal f r.addr)
        rw [localAdd_cons_take hroom hfam hnew]
        rw [localIdx_isSome] at hnew
        refine ⟨_, left, hadds.cons hfam hnew, ?_, rfl⟩
        rw [hres]
        simp [takeLocal]

/-- A local set drawn from a snapshot that fits, and as large as the room there is, is
all of the snapshot. -/
theorem subset_of_full {i : Fam} {all : List NetmonAddr} {f : NetFam}
    (hall : all.length ≤ netmonMaxAddrs) (hnodup : (localAddrs f).Nodup)
    (hsub : localAddrs f ⊆ famAddrs i all) (hfull : netmonMaxAddrs ≤ f.locals.length) :
    famAddrs i all ⊆ localAddrs f := by
  have hsubperm : (localAddrs f).Subperm (famAddrs i all) := hnodup.subperm hsub
  have hlen : (famAddrs i all).length ≤ (localAddrs f).length := by
    have hle := length_famAddrs_le i all
    have hcount : (localAddrs f).length = f.locals.length := List.length_map _
    omega
  exact (hsubperm.perm_of_length_le hlen).symm.subset

/-- The second loop of `local_sync` leaves out no address of a snapshot of at most
`NETMON_MAX_ADDRS` records. -/
theorem localAdd_complete {i : Fam} {all : List NetmonAddr} (hall : all.length ≤ netmonMaxAddrs)
    (addrs : List NetmonAddr) (haddrs : famAddrs i addrs ⊆ famAddrs i all) (f : NetFam)
    (hnodup : (localAddrs f).Nodup) (hsub : localAddrs f ⊆ famAddrs i all) :
    famAddrs i addrs ⊆ localAddrs (localAdd i addrs f).1 := by
  induction addrs generalizing f with
  | nil => simp [famAddrs]
  | cons r rest ih =>
      by_cases hroom : netmonMaxAddrs ≤ f.locals.length
      · rw [localAdd_full hroom]
        exact List.Subset.trans haddrs (subset_of_full hall hnodup hsub hroom)
      by_cases hfam : r.family ≠ some i ∨ r.addr.length ≠ addrLen i
      · rw [famAddrs_cons_of_neg hfam] at haddrs ⊢
        rw [localAdd_cons_skip hroom (.inl hfam)]
        exact ih haddrs f hnodup hsub
      rw [famAddrs_cons_of_pos hfam] at haddrs ⊢
      rw [List.cons_subset] at haddrs ⊢
      by_cases hnew : (localIdx f r.addr).isSome = true
      · -- held already, and the loop only appends
        rw [localAdd_cons_skip hroom (.inr hnew)]
        refine ⟨?_, ih haddrs.2 f hnodup hsub⟩
        obtain ⟨new, left, _, hres, _⟩ := localAdd_spec i rest f
        rw [hres]
        unfold localAddrs
        rw [List.map_append]
        exact List.mem_append_left _ (localIdx_isSome.1 hnew)
      · rw [localAdd_cons_take hroom hfam hnew]
        rw [localIdx_isSome] at hnew
        have hnodup' : (localAddrs (takeLocal f r.addr)).Nodup := by
          rw [localAddrs_takeLocal, List.nodup_append]
          refine ⟨hnodup, List.nodup_singleton _, ?_⟩
          intro a ha b hb
          rw [List.mem_singleton] at hb
          rintro rfl
          exact hnew (hb ▸ ha)
        have hsub' : localAddrs (takeLocal f r.addr) ⊆ famAddrs i all := by
          rw [localAddrs_takeLocal, List.append_subset, List.cons_subset]
          exact ⟨hsub, haddrs.1, List.nil_subset _⟩
        refine ⟨?_, ih haddrs.2 _ hnodup' hsub'⟩
        obtain ⟨new, left, _, hres, _⟩ := localAdd_spec i rest (takeLocal f r.addr)
        rw [hres]
        simp [localAddrs, takeLocal]

/-! ## Both loops -/

/-- The local set as the first loop of `local_sync` leaves it. -/
def keptLocals (f : NetFam) (i : Fam) (addrs : List NetmonAddr) : List NetLocal :=
  f.locals.filter fun l => snapHas addrs i l.addr

/-- The second loop, after the first, appends `new` and leaves `left`. -/
structure Synced (f : NetFam) (i : Fam) (addrs : List NetmonAddr) (new : List NetLocal)
    (left : List Xlat) : Prop where
  adds : SyncAdds i addrs { f with locals := keptLocals f i addrs } new left
  result : (localAdd i addrs { f with locals := keptLocals f i addrs }).1 =
    { f with locals := keptLocals f i addrs ++ new, xlats := left }

/-- What `local_sync` leaves, with its two flags. -/
theorem localSync_spec (f : NetFam) (i : Fam) (addrs : List NetmonAddr) :
    ∃ new left, Synced f i addrs new left ∧
      localSync f i addrs =
        ({ f with locals := keptLocals f i addrs ++ new, xlats := left },
          f.locals.any (fun l => !snapHas addrs i l.addr), !new.isEmpty) := by
  obtain ⟨new, left, hadds, hres, hflag⟩ :=
    localAdd_spec i addrs { f with locals := keptLocals f i addrs }
  refine ⟨new, left, ⟨hadds, hres⟩, ?_⟩
  unfold localSync
  rw [localPrune_length]
  show (_, _, _) = _
  rw [Prod.mk.injEq, Prod.mk.injEq]
  exact ⟨hres, rfl, hflag⟩

/-- What the second loop appends was not held before the first one either. -/
theorem SyncAdds.fresh_before {i : Fam} {addrs : List NetmonAddr} {f : NetFam}
    {new : List NetLocal} {left : List Xlat}
    (h : SyncAdds i addrs { f with locals := keptLocals f i addrs } new left) {l : NetLocal}
    (hl : l ∈ new) : l.addr ∉ localAddrs f := by
  intro hmem
  obtain ⟨l', hl', ha⟩ := List.mem_map.mp hmem
  apply h.fresh l hl
  rw [← ha]
  apply List.mem_map_of_mem
  unfold keptLocals
  rw [List.mem_filter]
  exact ⟨hl', by rw [ha]; exact snapHas_of_mem (h.inSnap l hl)⟩

/-! ## Which way the set moved -/

/-- The addresses changed in one direction, with one held on either side of the change. -/
def OneWay (before after : List Bytes) : Prop :=
  before ≠ [] ∧ after ≠ [] ∧
    (((∃ a ∈ after, a ∉ before) ∧ ∀ a ∈ before, a ∈ after) ∨
      ((∃ a ∈ before, a ∉ after) ∧ ∀ a ∈ after, a ∈ before))

instance (before after : List Bytes) : Decidable (OneWay before after) :=
  inferInstanceAs (Decidable (_ ∧ _))

section Directions

variable {f : NetFam} {i : Fam} {addrs : List NetmonAddr} {new : List NetLocal} {left : List Xlat}

/-- The local set after `local_sync`. -/
theorem localAddrs_synced (pend : UInt32) :
    localAddrs { f with locals := keptLocals f i addrs ++ new, xlats := left, pend := pend } =
      (keptLocals f i addrs).map NetLocal.addr ++ new.map NetLocal.addr :=
  List.map_append

theorem mem_kept {a : Bytes} : a ∈ (keptLocals f i addrs).map NetLocal.addr ↔
    a ∈ localAddrs f ∧ snapHas addrs i a = true := by
  unfold keptLocals localAddrs
  constructor
  · intro h
    obtain ⟨l, hl, rfl⟩ := List.mem_map.mp h
    rw [List.mem_filter] at hl
    exact ⟨List.mem_map_of_mem hl.1, hl.2⟩
  · rintro ⟨h, hhas⟩
    obtain ⟨l, hl, rfl⟩ := List.mem_map.mp h
    apply List.mem_map_of_mem
    rw [List.mem_filter]
    exact ⟨hl, hhas⟩

/-- `LOCAL_GAINED` says that an address is held that was not. -/
theorem gained_iff (h : SyncAdds i addrs { f with locals := keptLocals f i addrs } new left) :
    (!new.isEmpty) = true ↔
      ∃ a ∈ (keptLocals f i addrs).map NetLocal.addr ++ new.map NetLocal.addr,
        a ∉ localAddrs f := by
  constructor
  · intro hne
    cases new with
    | nil => simp at hne
    | cons l rest => exact ⟨l.addr, by simp, h.fresh_before List.mem_cons_self⟩
  · rintro ⟨a, ha, hnot⟩
    rcases List.mem_append.mp ha with ha | ha
    · exact absurd (mem_kept.1 ha).1 hnot
    · cases new with
      | nil => simp at ha
      | cons => rfl

/-- `LOCAL_LOST` says that an address was held that is not. -/
theorem lost_iff (h : SyncAdds i addrs { f with locals := keptLocals f i addrs } new left) :
    (f.locals.any fun l => !snapHas addrs i l.addr) = true ↔
      ∃ a ∈ localAddrs f,
        a ∉ (keptLocals f i addrs).map NetLocal.addr ++ new.map NetLocal.addr := by
  rw [List.any_eq_true]
  constructor
  · rintro ⟨l, hl, hnot⟩
    rw [Bool.not_eq_true'] at hnot
    refine ⟨l.addr, List.mem_map_of_mem hl, ?_⟩
    rw [List.mem_append, not_or]
    constructor
    · intro hmem
      rw [(mem_kept.1 hmem).2] at hnot
      exact Bool.noConfusion hnot
    · intro hmem
      -- what is appended is in the snapshot
      obtain ⟨l', hl', ha⟩ := List.mem_map.mp hmem
      have hhas := snapHas_of_mem (h.inSnap l' hl')
      rw [ha, hnot] at hhas
      exact Bool.noConfusion hhas
  · rintro ⟨a, ha, hnot⟩
    obtain ⟨l, hl, rfl⟩ := List.mem_map.mp ha
    rw [List.mem_append, not_or] at hnot
    refine ⟨l, hl, ?_⟩
    cases hhas : snapHas addrs i l.addr with
    | false => rfl
    | true => exact absurd (mem_kept.2 ⟨ha, hhas⟩) hnot.1

/-- `same` of `netstate_on_netmon` is a change in one direction with an address on
either side of it. -/
theorem sameNet_eq (h : SyncAdds i addrs { f with locals := keptLocals f i addrs } new left) :
    sameNet (!f.locals.isEmpty) (f.locals.any fun l => !snapHas addrs i l.addr) (!new.isEmpty)
        (keptLocals f i addrs ++ new) =
      decide (OneWay (localAddrs f)
        ((keptLocals f i addrs).map NetLocal.addr ++ new.map NetLocal.addr)) := by
  have hgain := gained_iff h
  have hlost := lost_iff h
  have hbefore : (!f.locals.isEmpty) = decide (localAddrs f ≠ []) := by
    cases hf : f.locals <;> simp [localAddrs, hf]
  have hafter : (!(keptLocals f i addrs ++ new).isEmpty) =
      decide ((keptLocals f i addrs).map NetLocal.addr ++ new.map NetLocal.addr ≠ []) := by
    rw [← List.map_append]
    cases keptLocals f i addrs ++ new <;> simp
  rw [sameNet, hafter, hbefore]
  generalize (!new.isEmpty) = gained at hgain ⊢
  generalize (f.locals.any fun l => !snapHas addrs i l.addr) = lost at hlost ⊢
  generalize (keptLocals f i addrs).map NetLocal.addr ++ new.map NetLocal.addr = after
    at hgain hlost ⊢
  have hsub : (∀ a ∈ localAddrs f, a ∈ after) ↔ ¬lost = true := by
    rw [hlost]
    push Not
    rfl
  have hsub' : (∀ a ∈ after, a ∈ localAddrs f) ↔ ¬gained = true := by
    rw [hgain]
    push Not
    rfl
  have hafterne : gained = true → after ≠ [] := by
    rw [hgain]
    rintro ⟨a, ha, _⟩ rfl
    simp at ha
  have hbeforene : lost = true → localAddrs f ≠ [] := by
    rw [hlost]
    rintro ⟨a, ha, _⟩ hnil
    simp [hnil] at ha
  have hone : OneWay (localAddrs f) after ↔ localAddrs f ≠ [] ∧ after ≠ [] ∧
      ((gained = true ∧ ¬lost = true) ∨ (lost = true ∧ ¬gained = true)) := by
    unfold OneWay
    rw [hsub, hsub', ← hgain, ← hlost]
  rw [Bool.eq_iff_iff, decide_eq_true_iff, hone]
  clear hone hsub hsub' hgain hlost hbefore hafter
  cases gained with
  | false =>
      cases lost with
      | false => simp
      | true => simp [hbeforene rfl]
  | true =>
      cases lost with
      | false => simp [hafterne rfl]
      | true => simp

end Directions

/-- A snapshot taken: the family with its set in line, and past that the move when the
family's bit is set. -/
theorem netstateOnNetmon_eq (isHost : Bool) (i : Fam) (changed : UInt32)
    (addrs : List NetmonAddr) (now : UInt64) (f : NetFam) :
    ∃ new left pend, Synced f i addrs new left ∧
      netstateOnNetmon isHost i changed addrs now f =
        let f1 := { f with locals := keptLocals f i addrs ++ new, xlats := left, pend := pend }
        if changed &&& netmonCh i = 0 then syncHasAddr isHost f1
        else famMove isHost (decide (OneWay (localAddrs f) (localAddrs f1)))
          (f.upEpoch == f.epoch) now (syncHasAddr isHost f1) := by
  obtain ⟨new, left, hsynced, hsync⟩ := localSync_spec f i addrs
  by_cases hraise : ((f.locals.any fun l => !snapHas addrs i l.addr) || !new.isEmpty) = true
  · refine ⟨new, left, f.pend ||| nsaEmitRows, hsynced, ?_⟩
    simp only [localAddrs_synced, ← sameNet_eq hsynced.adds]
    simp only [netstateOnNetmon, hsync, if_pos hraise, raiseAct]
  · refine ⟨new, left, f.pend, hsynced, ?_⟩
    simp only [localAddrs_synced, ← sameNet_eq hsynced.adds]
    simp only [netstateOnNetmon, hsync, if_neg hraise]

end Netstate
end Comrade
