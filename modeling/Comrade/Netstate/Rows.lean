import Comrade.Netstate.Addrs

/-!
# The rows a family shows, and the order reports arrive in

`netstate_rows` lists the proven addresses, the translations, what the kernel reports on a
segment, and last the addresses no exchange has confirmed.  This module compares an
observation taken before a snapshot with the same observation taken after it.

* `netstateRows_eq`: the four loops with their room are the first rows of one list.
* `localAdd_congr`: what a snapshot appends depends on the addresses held and not on their
  proofs.
* `localAdd_track`: what becomes of one address, and of the family that holds it as a
  translation besides.
* `rows_commute_iff`: the two orders show the same unless the snapshot withdraws the address
  observed.
-/

namespace Comrade
namespace Netstate

open Lib

/-- `NET_VIA_*`. -/
inductive Via where
  | direct
  | stun
  | shadow
  deriving DecidableEq, Repr

/-- `struct netstate_row`; its text is what `inet_ntop` makes of the address. -/
structure NetstateRow where
  addr : Bytes
  scope : Scope
  via : Via
  deriving DecidableEq

/-- One loop of `netstate_rows`: it stops when `max` rows are out. -/
def rowsLoop {α : Type} (max : Nat) (rowOf : α → Option NetstateRow) :
    List α → List NetstateRow → List NetstateRow
  | [], out => out
  | l :: rest, out =>
      if max ≤ out.length then out
      else
        match rowOf l with
        | none => rowsLoop max rowOf rest out
        | some r => rowsLoop max rowOf rest (out ++ [r])

/-- The row of a local address that an exchange confirmed. -/
def provenRow (l : NetLocal) : Option NetstateRow :=
  if l.scope ≠ .lan ∧ l.proven = true then some ⟨l.addr, l.scope, .direct⟩ else none

/-- The row of a translation. -/
def xlatRow (x : Xlat) : Option NetstateRow := some ⟨x.addr, x.scope, .stun⟩

/-- The row of an address on a segment. -/
def lanRow (l : NetLocal) : Option NetstateRow :=
  if l.scope = .lan then some ⟨l.addr, l.scope, .direct⟩ else none

/-- The row of a local address that no exchange confirmed. -/
def shadowRow (l : NetLocal) : Option NetstateRow :=
  if l.scope ≠ .lan ∧ l.proven = false then some ⟨l.addr, l.scope, .shadow⟩ else none

/-- `netstate_rows`. -/
def netstateRows (max : Nat) (f : NetFam) : List NetstateRow :=
  let n1 := rowsLoop max provenRow f.locals []
  let n2 := rowsLoop max xlatRow f.xlats n1
  let n3 := rowsLoop max lanRow f.locals n2
  rowsLoop max shadowRow f.locals n3

/-- All the rows of the two sets, with no limit. -/
def rowsOf (sets : List NetLocal × List Xlat) : List NetstateRow :=
  sets.1.filterMap provenRow ++ sets.2.filterMap xlatRow ++ sets.1.filterMap lanRow ++
    sets.1.filterMap shadowRow

theorem rowsLoop_eq {α : Type} (max : Nat) (rowOf : α → Option NetstateRow) (ls : List α)
    (before : List NetstateRow) :
    rowsLoop max rowOf ls (before.take max) = (before ++ ls.filterMap rowOf).take max := by
  induction ls generalizing before with
  | nil => simp [rowsLoop]
  | cons l rest ih =>
      rw [rowsLoop]
      by_cases hfull : max ≤ before.length
      · have hlen : max ≤ (before.take max).length := by simp [hfull]
        rw [if_pos hlen, List.take_append_of_le_length hfull]
      have hroom : ¬max ≤ (before.take max).length := by
        rw [List.length_take]
        omega
      rw [if_neg hroom]
      cases hrow : rowOf l with
      | none =>
          simp only [List.filterMap_cons, hrow]
          exact ih before
      | some r =>
          simp only [List.filterMap_cons, hrow]
          have htake : before.take max ++ [r] = (before ++ [r]).take max := by
            rw [List.take_of_length_le (by omega), List.take_of_length_le]
            simp
            omega
          rw [htake, ih, List.append_assoc]
          rfl

/-- The rows shown are the first of all there are. -/
theorem netstateRows_eq (max : Nat) (f : NetFam) :
    netstateRows max f = (rowsOf (addrsOf f)).take max := by
  have hstart : rowsLoop max provenRow f.locals [] =
      (f.locals.filterMap provenRow).take max := by
    have := rowsLoop_eq max provenRow f.locals []
    simpa using this
  simp only [netstateRows, hstart, rowsLoop_eq, rowsOf, addrsOf]

/-- Two families show the same with every limit exactly when all their rows agree. -/
theorem netstateRows_forall {f g : NetFam} :
    (∀ max, netstateRows max f = netstateRows max g) ↔
      rowsOf (addrsOf f) = rowsOf (addrsOf g) := by
  simp only [netstateRows_eq]
  constructor
  · intro h
    have hlong := h ((rowsOf (addrsOf f)).length + (rowsOf (addrsOf g)).length)
    rw [List.take_of_length_le (by omega), List.take_of_length_le (by omega)] at hlong
    exact hlong
  · intro h max
    rw [h]

/-- An address is shown exactly when it is held. -/
theorem mem_rowsOf {f : NetFam} {a : Bytes} :
    (∃ r ∈ rowsOf (addrsOf f), r.addr = a) ↔ a ∈ localAddrs f ∨ a ∈ xlatAddrs f := by
  unfold localAddrs xlatAddrs
  simp only [rowsOf, addrsOf, List.mem_append, List.mem_filterMap, List.mem_map]
  constructor
  · rintro ⟨r, ((⟨l, hl, hrow⟩ | ⟨x, hx, hrow⟩) | ⟨l, hl, hrow⟩) | ⟨l, hl, hrow⟩, rfl⟩
    · simp only [provenRow, Option.ite_none_right_eq_some, Option.some.injEq] at hrow
      exact Or.inl ⟨l, hl, by rw [← hrow.2]⟩
    · simp only [xlatRow, Option.some.injEq] at hrow
      exact Or.inr ⟨x, hx, by rw [← hrow]⟩
    · simp only [lanRow, Option.ite_none_right_eq_some, Option.some.injEq] at hrow
      exact Or.inl ⟨l, hl, by rw [← hrow.2]⟩
    · simp only [shadowRow, Option.ite_none_right_eq_some, Option.some.injEq] at hrow
      exact Or.inl ⟨l, hl, by rw [← hrow.2]⟩
  · rintro (⟨l, hl, rfl⟩ | ⟨x, hx, rfl⟩)
    · -- by its scope and its proof it is in one of the three
      by_cases hlan : l.scope = .lan
      · exact ⟨_, Or.inl (Or.inr ⟨l, hl, if_pos hlan⟩), rfl⟩
      cases hp : l.proven with
      | true => exact ⟨_, Or.inl (Or.inl (Or.inl ⟨l, hl, if_pos ⟨hlan, hp⟩⟩)), rfl⟩
      | false => exact ⟨_, Or.inr ⟨l, hl, if_pos ⟨hlan, hp⟩⟩, rfl⟩
    · exact ⟨_, Or.inl (Or.inl (Or.inr ⟨x, hx, rfl⟩)), rfl⟩

/-- The entry as an observation of its address leaves it: one on a segment is left out of
the distinction. -/
def seen (l : NetLocal) : NetLocal :=
  if l.scope = .lan then l else { l with proven := true }

@[simp] theorem seen_addr (l : NetLocal) : (seen l).addr = l.addr := by
  unfold seen
  split <;> simp

theorem seen_of_proven {l : NetLocal} (h : l.proven = true) : seen l = l := by
  cases l
  unfold seen
  simp_all

/-- The proof of an address on a segment shows in no row. -/
theorem rowsOf_seen (before after : List NetLocal) (l : NetLocal) (xs : List Xlat) :
    rowsOf (before ++ seen l :: after, xs) =
      rowsOf (before ++ { l with proven := true } :: after, xs) := by
  by_cases hlan : l.scope = .lan
  · simp [seen, hlan, rowsOf, provenRow, lanRow, shadowRow, List.filterMap_append]
  · simp [seen, hlan]

/-! ## An observation -/

theorem not_mem_localAddrs {f : NetFam} {a : Bytes} :
    a ∉ localAddrs f ↔ localIdx f a = none := by
  rw [← localIdx_isSome, Option.not_isSome_iff_eq_none]

/-- The entry a held address is found at. -/
theorem exists_split {ls : List NetLocal} {a : Bytes} (h : a ∈ ls.map NetLocal.addr) :
    ∃ before l after, ls = before ++ l :: after ∧ l.addr = a ∧
      a ∉ before.map NetLocal.addr := by
  induction ls with
  | nil => simp at h
  | cons x xs ih =>
      by_cases hx : x.addr = a
      · exact ⟨[], x, xs, rfl, hx, by simp⟩
      · have hmem : a ∈ xs.map NetLocal.addr := by
          rw [List.map_cons, List.mem_cons] at h
          rcases h with h | h
          · exact absurd h.symm hx
          · exact h
        obtain ⟨before, l, after, rfl, hl, hnot⟩ := ih hmem
        refine ⟨x :: before, l, after, rfl, hl, ?_⟩
        rw [List.map_cons, List.mem_cons, not_or]
        exact ⟨fun hax => hx hax.symm, hnot⟩

theorem localIdx_split {f : NetFam} {before after : List NetLocal} {l : NetLocal}
    (hf : f.locals = before ++ l :: after) (hnot : l.addr ∉ before.map NetLocal.addr) :
    localIdx f l.addr = some before.length := by
  unfold localIdx
  rw [hf, List.findIdx?_append]
  have hbefore : before.findIdx? (fun x => x.addr == l.addr) = none := by
    rw [List.findIdx?_eq_none_iff]
    intro x hx
    rw [beq_eq_false_iff_ne]
    intro heq
    exact hnot (heq ▸ List.mem_map_of_mem hx)
  rw [hbefore]
  simp [List.findIdx?_cons]

theorem modify_split (before after : List NetLocal) (l : NetLocal) (g : NetLocal → NetLocal) :
    (before ++ l :: after).modify before.length g = before ++ g l :: after := by
  induction before with
  | nil => rfl
  | cons x xs ih =>
      rw [List.cons_append, List.length_cons, List.modify_succ_cons, ih]
      rfl

section Observation

variable {i : Fam} {a : Bytes} {f : NetFam}

/-- An observation of a local address marks its first entry. -/
theorem onReflexive_split (ha : a.length = addrLen i) {before after : List NetLocal}
    {l : NetLocal} (hf : f.locals = before ++ l :: after) (hl : l.addr = a)
    (hnot : a ∉ before.map NetLocal.addr) :
    addrsOf (netstateOnReflexive i f.epoch a f) = (before ++ seen l :: after, f.xlats) := by
  subst hl
  have hget : f.locals[before.length]? = some l := by simp [hf]
  simp only [netstateOnReflexive, ha, ne_eq, not_true_eq_false, or_self, if_false,
    localIdx_split hf hnot, hget, Option.all_some, Bool.or_eq_true, beq_iff_eq]
  split
  · rename_i hguard
    have hseen : seen l = l := by
      rcases hguard with hp | hlan
      · exact seen_of_proven hp
      · exact if_pos hlan
    rw [hseen, ← hf]
    rfl
  · rename_i hguard
    rw [not_or] at hguard
    show (f.locals.modify before.length _, f.xlats) = _
    rw [hf, modify_split, seen, if_neg hguard.2]

/-- An observation of a translation held changes nothing. -/
theorem onReflexive_held (ha : a.length = addrLen i) (hlocal : a ∉ localAddrs f)
    (hx : a ∈ xlatAddrs f) : addrsOf (netstateOnReflexive i f.epoch a f) = addrsOf f := by
  have hnote : xlatNote f a = none := by
    unfold xlatNote
    rw [if_pos]
    obtain ⟨x, hmem, rfl⟩ := List.mem_map.mp hx
    rw [List.any_eq_true]
    exact ⟨x, hmem, by simp⟩
  simp [netstateOnReflexive, ha, not_mem_localAddrs.1 hlocal, hnote]

/-- An observation of an address not held notes it, as long as there is room. -/
theorem onReflexive_noted (ha : a.length = addrLen i) (hlocal : a ∉ localAddrs f)
    (hx : a ∉ xlatAddrs f) (hroom : f.xlats.length < netstateXlatMax) :
    addrsOf (netstateOnReflexive i f.epoch a f) = (f.locals, f.xlats ++ [⟨a, addrScopeRaw a⟩]) := by
  have hany : ¬(f.xlats.any fun x => x.addr == a) = true := by
    intro hany
    obtain ⟨x, hmem, haddr⟩ := List.any_eq_true.mp hany
    exact hx (List.mem_map.mpr ⟨x, hmem, by simpa using haddr⟩)
  have hnote : xlatNote f a =
      some { f with xlats := f.xlats ++ [{ addr := a, scope := addrScopeRaw a }] } := by
    rw [xlatNote, if_neg hany, if_neg (by omega)]
  simp only [netstateOnReflexive, ha, ne_eq, not_true_eq_false, or_self, if_false,
    not_mem_localAddrs.1 hlocal, hnote]
  rfl

end Observation

/-! ## A snapshot, with and without the observation -/

/-- The second loop of `local_sync` at one record: it ends, passes over the record, or
takes its address, and which one depends on the addresses held alone. -/
theorem localAdd_step (i : Fam) (r : NetmonAddr) (rest : List NetmonAddr) (held : List Bytes) :
    (∀ f, localAddrs f = held → (localAdd i (r :: rest) f).1 = f) ∨
      (∀ f, localAddrs f = held → localAdd i (r :: rest) f = localAdd i rest f) ∨
      (r.addr ∉ held ∧ ∀ f, localAddrs f = held →
        (localAdd i (r :: rest) f).1 = (localAdd i rest (takeLocal f r.addr)).1) := by
  have hlength : ∀ f, localAddrs f = held → f.locals.length = held.length := by
    rintro f rfl
    simp [localAddrs]
  by_cases hroom : netmonMaxAddrs ≤ held.length
  · left
    intro f hf
    rw [localAdd_full (by rw [hlength f hf]; exact hroom)]
  have hspace : ∀ f, localAddrs f = held → ¬netmonMaxAddrs ≤ f.locals.length := by
    intro f hf
    rw [hlength f hf]
    exact hroom
  by_cases hfam : r.family ≠ some i ∨ r.addr.length ≠ addrLen i
  · right
    left
    intro f hf
    exact localAdd_cons_skip (hspace f hf) (.inl hfam)
  by_cases hmem : r.addr ∈ held
  · right
    left
    intro f hf
    have hidx : (localIdx f r.addr).isSome = true := by
      rw [localIdx_isSome, hf]
      exact hmem
    exact localAdd_cons_skip (hspace f hf) (.inr hidx)
  · right
    right
    refine ⟨hmem, ?_⟩
    intro f hf
    have hidx : ¬(localIdx f r.addr).isSome = true := by
      rw [localIdx_isSome, hf]
      exact hmem
    rw [localAdd_cons_take (hspace f hf) hfam hidx]

/-- What an address was held as goes with it. -/
theorem addrsOf_takeLocal (f : NetFam) (a : Bytes) :
    addrsOf (takeLocal f a) =
      (f.locals ++ [⟨a, addrScopeRaw a, decide (a ∈ xlatAddrs f)⟩],
        f.xlats.eraseP fun x => x.addr == a) := by
  have hforget : (xlatForget f a).1 = decide (a ∈ xlatAddrs f) := by
    rw [Bool.eq_iff_iff, decide_eq_true_iff]
    exact xlatForget_fst f a
  simp [addrsOf, takeLocal, hforget]

/-- What a snapshot appends depends on the addresses held and not on their proofs. -/
theorem localAdd_congr {i : Fam} (addrs : List NetmonAddr) {f g : NetFam}
    (hlocals : localAddrs g = localAddrs f) (hxlats : g.xlats = f.xlats) :
    ∃ new left, addrsOf (localAdd i addrs f).1 = (f.locals ++ new, left) ∧
      addrsOf (localAdd i addrs g).1 = (g.locals ++ new, left) := by
  induction addrs generalizing f g with
  | nil => exact ⟨[], f.xlats, by simp [localAdd, addrsOf], by simp [localAdd, addrsOf, hxlats]⟩
  | cons r rest ih =>
      rcases localAdd_step i r rest (localAddrs f) with hstep | hstep | ⟨_, hstep⟩
      · refine ⟨[], f.xlats, ?_, ?_⟩
        · rw [hstep f rfl]
          simp [addrsOf]
        · rw [hstep g hlocals]
          simp [addrsOf, hxlats]
      · rw [hstep f rfl, hstep g hlocals]
        exact ih hlocals hxlats
      · rw [hstep f rfl, hstep g hlocals]
        have hf := addrsOf_takeLocal f r.addr
        have hg := addrsOf_takeLocal g r.addr
        simp only [addrsOf, Prod.mk.injEq] at hf hg
        obtain ⟨new, left, hres, hres'⟩ := ih (f := takeLocal f r.addr) (g := takeLocal g r.addr)
          (by rw [localAddrs_takeLocal, localAddrs_takeLocal, hlocals])
          (by rw [hf.2, hg.2, hxlats])
        refine ⟨⟨r.addr, addrScopeRaw r.addr, decide (r.addr ∈ xlatAddrs f)⟩ :: new, left, ?_, ?_⟩
        · rw [hres, hf.1]
          simp
        · have hx : xlatAddrs g = xlatAddrs f := congrArg (List.map Xlat.addr) hxlats
          rw [hres', hg.1, hx]
          simp

/-- Taking one address leaves every other translation. -/
theorem mem_xlatAddrs_takeLocal {f : NetFam} {a b : Bytes} (h : b ≠ a) :
    a ∈ xlatAddrs (takeLocal f b) ↔ a ∈ xlatAddrs f := by
  unfold xlatAddrs takeLocal
  simp only [List.mem_map]
  constructor
  · rintro ⟨x, hx, rfl⟩
    exact ⟨x, List.mem_of_mem_eraseP hx, rfl⟩
  · rintro ⟨x, hx, rfl⟩
    exact ⟨x, (List.mem_eraseP_of_neg (by simpa using fun he => h he.symm)).mpr hx, rfl⟩

/-- A family holds an address with its proof, or holds it as a translation. -/
def Confirmed (f : NetFam) (a : Bytes) : Prop :=
  (a ∉ localAddrs f ∧ a ∈ xlatAddrs f) ∨
    ∃ before l after, f.locals = before ++ l :: after ∧ l.addr = a ∧ l.proven = true ∧
      a ∉ before.map NetLocal.addr

/-- A translation stays one or is moved across with its proof. -/
theorem localAdd_held {i : Fam} {a : Bytes} (addrs : List NetmonAddr) {f : NetFam}
    (hlocal : a ∉ localAddrs f) (hx : a ∈ xlatAddrs f) :
    Confirmed (localAdd i addrs f).1 a := by
  induction addrs generalizing f with
  | nil => exact Or.inl ⟨hlocal, hx⟩
  | cons r rest ih =>
      rcases localAdd_step i r rest (localAddrs f) with hstep | hstep | ⟨hnew, hstep⟩
      · rw [hstep f rfl]
        exact Or.inl ⟨hlocal, hx⟩
      · rw [hstep f rfl]
        exact ih hlocal hx
      rw [hstep f rfl]
      by_cases hra : r.addr = a
      · -- it is the one taken, and what follows only appends
        right
        obtain ⟨new, left, hres, _⟩ :=
          localAdd_congr rest (i := i) (f := takeLocal f r.addr) rfl rfl
        have htake := addrsOf_takeLocal f r.addr
        simp only [addrsOf, Prod.mk.injEq] at hres htake
        refine ⟨f.locals, ⟨r.addr, addrScopeRaw r.addr, decide (r.addr ∈ xlatAddrs f)⟩, new,
          ?_, hra, ?_, hlocal⟩
        · rw [hres.1, htake.1, List.append_assoc]
          rfl
        · simp only [hra]
          exact decide_eq_true hx
      · apply ih
        · rw [localAddrs_takeLocal, List.mem_append, List.mem_singleton, not_or]
          exact ⟨hlocal, fun h => hra h.symm⟩
        · exact (mem_xlatAddrs_takeLocal hra).mpr hx

/-- An observation of an address that is confirmed changes neither set. -/
theorem Confirmed.onReflexive {i : Fam} {a : Bytes} {f : NetFam} (h : Confirmed f a)
    (ha : a.length = addrLen i) : addrsOf (netstateOnReflexive i f.epoch a f) = addrsOf f := by
  rcases h with ⟨hlocal, hx⟩ | ⟨before, l, after, hf, hl, hp, hnot⟩
  · exact onReflexive_held ha hlocal hx
  · rw [onReflexive_split ha hf hl hnot, seen_of_proven hp, ← hf]
    rfl

/-! Taking an address out of the translations, with one more at their end. -/

theorem eraseP_of_not_mem {xs : List Xlat} {b : Bytes} (h : b ∉ xs.map Xlat.addr) :
    (xs.eraseP fun x => x.addr == b) = xs := by
  apply List.eraseP_of_forall_not
  intro x hx heq
  exact h (List.mem_map.mpr ⟨x, hx, by simpa using heq⟩)

theorem eraseP_concat_self {xs : List Xlat} {x : Xlat} (h : x.addr ∉ xs.map Xlat.addr) :
    ((xs ++ [x]).eraseP fun y => y.addr == x.addr) = xs := by
  induction xs with
  | nil => simp
  | cons y ys ih =>
      rw [List.map_cons, List.mem_cons, not_or] at h
      rw [List.cons_append, List.eraseP_cons_of_neg (by simpa using Ne.symm h.1), ih h.2]

theorem eraseP_concat_other {xs : List Xlat} {x : Xlat} {b : Bytes} (h : x.addr ≠ b) :
    ((xs ++ [x]).eraseP fun y => y.addr == b) = (xs.eraseP fun y => y.addr == b) ++ [x] := by
  induction xs with
  | nil => simp [h]
  | cons y ys ih =>
      by_cases hy : y.addr = b
      · simp [hy]
      · rw [List.cons_append, List.eraseP_cons_of_neg (by simpa using hy), ih,
          List.eraseP_cons_of_neg (by simpa using hy), List.cons_append]

/-- The family without the translation and the family with it, once a snapshot has been
taken: as they were, or with the address local in both and proven in the second. -/
def NotedApart (a : Bytes) (f g : NetFam) : Prop :=
  (a ∉ localAddrs f ∧ a ∉ xlatAddrs f ∧
      addrsOf g = (f.locals, f.xlats ++ [⟨a, addrScopeRaw a⟩])) ∨
    ∃ before l after, f.locals = before ++ l :: after ∧ l.addr = a ∧
      a ∉ before.map NetLocal.addr ∧
      addrsOf g = (before ++ { l with proven := true } :: after, f.xlats)

/-- A snapshot keeps the two families apart by the observation alone. -/
theorem localAdd_noted {i : Fam} {a : Bytes} (addrs : List NetmonAddr) {f g : NetFam}
    (hlocal : a ∉ localAddrs f) (hx : a ∉ xlatAddrs f)
    (hg : addrsOf g = (f.locals, f.xlats ++ [⟨a, addrScopeRaw a⟩])) :
    NotedApart a (localAdd i addrs f).1 (localAdd i addrs g).1 := by
  induction addrs generalizing f g with
  | nil => exact Or.inl ⟨hlocal, hx, hg⟩
  | cons r rest ih =>
      have hlocals : g.locals = f.locals := congrArg Prod.fst hg
      have hxlats : g.xlats = f.xlats ++ [⟨a, addrScopeRaw a⟩] := congrArg Prod.snd hg
      have haddrs : localAddrs g = localAddrs f := congrArg (List.map NetLocal.addr) hlocals
      rcases localAdd_step i r rest (localAddrs f) with hstep | hstep | ⟨hnew, hstep⟩
      · rw [hstep f rfl, hstep g haddrs]
        exact Or.inl ⟨hlocal, hx, hg⟩
      · rw [hstep f rfl, hstep g haddrs]
        exact ih hlocal hx hg
      rw [hstep f rfl, hstep g haddrs]
      have hxg : xlatAddrs g = xlatAddrs f ++ [a] := by simp [xlatAddrs, hxlats]
      have htf := addrsOf_takeLocal f r.addr
      have htg := addrsOf_takeLocal g r.addr
      rw [hlocals, hxlats, hxg] at htg
      have hheld : localAddrs (takeLocal g r.addr) = localAddrs (takeLocal f r.addr) := by
        rw [localAddrs_takeLocal, localAddrs_takeLocal, haddrs]
      by_cases hra : r.addr = a
      · -- it is taken in both: as a translation it leaves, and its proof comes along
        right
        subst hra
        rw [eraseP_concat_self (x := ⟨r.addr, addrScopeRaw r.addr⟩) hx] at htg
        rw [eraseP_of_not_mem hx] at htf
        simp only [addrsOf, Prod.mk.injEq] at htf htg
        obtain ⟨new, left, hres, hres'⟩ :=
          localAdd_congr rest (i := i) hheld (htg.2.trans htf.2.symm)
        simp only [addrsOf, Prod.mk.injEq] at hres
        have hin : decide (r.addr ∈ xlatAddrs f ++ [r.addr]) = true := by simp
        refine ⟨f.locals, ⟨r.addr, addrScopeRaw r.addr, decide (r.addr ∈ xlatAddrs f)⟩, new,
          ?_, rfl, hlocal, ?_⟩
        · rw [hres.1, htf.1, List.append_assoc]
          rfl
        · rw [hres', htg.1, hin, hres.2, List.append_assoc]
          rfl
      · have hout : decide (r.addr ∈ xlatAddrs f ++ [a]) = decide (r.addr ∈ xlatAddrs f) := by
          simp [hra]
        simp only [addrsOf, Prod.mk.injEq] at htf
        rw [hout, eraseP_concat_other (Ne.symm hra), ← htf.1, ← htf.2] at htg
        apply ih _ _ htg
        · rw [localAddrs_takeLocal, List.mem_append, List.mem_singleton, not_or]
          exact ⟨hlocal, fun h => hra h.symm⟩
        · rw [mem_xlatAddrs_takeLocal hra]
          exact hx

/-! ## The two orders -/

/-- The family as the first loop of `local_sync` leaves it. -/
def pruned (i : Fam) (addrs : List NetmonAddr) (f : NetFam) : NetFam :=
  { f with locals := keptLocals f i addrs }

/-- A snapshot that reports no move brings the sets in line and keeps the epoch. -/
theorem netmon_stays (isHost : Bool) {i : Fam} {changed : UInt32} (addrs : List NetmonAddr)
    (now : UInt64) (f : NetFam) (hstay : changed &&& netmonCh i = 0) :
    addrsOf (netstateOnNetmon isHost i changed addrs now f) =
        addrsOf (localAdd i addrs (pruned i addrs f)).1 ∧
      (netstateOnNetmon isHost i changed addrs now f).epoch = f.epoch := by
  obtain ⟨new, left, pend, hsynced, heq⟩ := netstateOnNetmon_eq isHost i changed addrs now f
  simp only [if_pos hstay] at heq
  rw [heq]
  refine ⟨?_, ?_⟩
  · rw [addrsOf_syncHasAddr, pruned, hsynced.result]
    rfl
  · exact view_syncHasAddr (fun _ _ _ => rfl) (fun _ _ _ _ _ => rfl) isHost _

theorem not_mem_pruned {i : Fam} {addrs : List NetmonAddr} {f : NetFam} {a : Bytes}
    (h : ¬(a ∈ localAddrs f ∧ snapHas addrs i a = true)) :
    a ∉ localAddrs (pruned i addrs f) :=
  fun hmem => h (mem_kept.mp hmem)

/-- A snapshot leaves no more translations than there were. -/
theorem localAdd_xlats_le (i : Fam) (addrs : List NetmonAddr) (f : NetFam) :
    (localAdd i addrs f).1.xlats.length ≤ f.xlats.length := by
  obtain ⟨new, left, hadds, hres, _⟩ := localAdd_spec i addrs f
  rw [hres]
  exact hadds.left_sublist.length_le

/-- An address that is neither held nor in the snapshot is not held after it. -/
theorem localAdd_absent {i : Fam} {addrs : List NetmonAddr} {f : NetFam} {a : Bytes}
    (hlocal : a ∉ localAddrs f) (hx : a ∉ xlatAddrs f) (hsnap : snapHas addrs i a = false) :
    a ∉ localAddrs (localAdd i addrs f).1 ∧ a ∉ xlatAddrs (localAdd i addrs f).1 := by
  obtain ⟨new, left, hadds, hres, _⟩ := localAdd_spec i addrs f
  rw [hres]
  refine ⟨?_, ?_⟩
  · unfold localAddrs
    rw [List.map_append, List.mem_append, not_or]
    refine ⟨hlocal, ?_⟩
    intro hmem
    obtain ⟨l, hl, rfl⟩ := List.mem_map.mp hmem
    rw [snapHas_of_mem (hadds.inSnap l hl)] at hsnap
    exact Bool.noConfusion hsnap
  · exact fun hmem => hx ((hadds.left_sublist.map Xlat.addr).subset hmem)

section Orders

variable {isHost : Bool} {i : Fam} {changed : UInt32} {addrs : List NetmonAddr} {now : UInt64}
  {f : NetFam} {a : Bytes}

/-- The observation before the snapshot. -/
def obsThenSnap (isHost : Bool) (i : Fam) (changed : UInt32) (addrs : List NetmonAddr)
    (now : UInt64) (a : Bytes) (f : NetFam) : NetFam :=
  netstateOnNetmon isHost i changed addrs now (netstateOnReflexive i f.epoch a f)

/-- The observation, stamped as before, after the snapshot. -/
def snapThenObs (isHost : Bool) (i : Fam) (changed : UInt32) (addrs : List NetmonAddr)
    (now : UInt64) (a : Bytes) (f : NetFam) : NetFam :=
  netstateOnReflexive i f.epoch a (netstateOnNetmon isHost i changed addrs now f)

/-- An observation after the snapshot sees the sets the snapshot left, in its epoch. -/
theorem addrsOf_snapThenObs (hstay : changed &&& netmonCh i = 0) {P : List NetLocal × List Xlat}
    (h : ∀ g, addrsOf g = addrsOf (localAdd i addrs (pruned i addrs f)).1 →
      addrsOf (netstateOnReflexive i g.epoch a g) = P) :
    addrsOf (snapThenObs isHost i changed addrs now a f) = P := by
  obtain ⟨hsets, hepoch⟩ := netmon_stays isHost addrs now f hstay
  unfold snapThenObs
  rw [← hepoch]
  exact h _ hsets

/-- The snapshot after the observation starts from the sets the observation left. -/
theorem addrsOf_obsThenSnap (hstay : changed &&& netmonCh i = 0) :
    addrsOf (obsThenSnap isHost i changed addrs now a f) =
      addrsOf (localAdd i addrs (pruned i addrs (netstateOnReflexive i f.epoch a f))).1 :=
  (netmon_stays isHost addrs now _ hstay).1

/-- The two sets are all `local_sync` looks at. -/
theorem localAdd_sets {f g : NetFam} (h : addrsOf g = addrsOf f) :
    addrsOf (localAdd i addrs g).1 = addrsOf (localAdd i addrs f).1 := by
  have hlocals : g.locals = f.locals := congrArg Prod.fst h
  have hxlats : g.xlats = f.xlats := congrArg Prod.snd h
  obtain ⟨new, left, hf, hg⟩ :=
    localAdd_congr (i := i) addrs (congrArg (List.map NetLocal.addr) hlocals) hxlats
  rw [hf, hg, hlocals]

theorem pruned_sets (i : Fam) (addrs : List NetmonAddr) {f : NetFam} {ls : List NetLocal}
    {xs : List Xlat} (h : addrsOf f = (ls, xs)) :
    addrsOf (pruned i addrs f) = (ls.filter fun l => snapHas addrs i l.addr, xs) := by
  have hlocals : f.locals = ls := congrArg Prod.fst h
  have hxlats : f.xlats = xs := congrArg Prod.snd h
  simp [addrsOf, pruned, keptLocals, hlocals, hxlats]

/-- An address local before the snapshot and in it: it is marked either way. -/
theorem sets_kept (hstay : changed &&& netmonCh i = 0) (ha : a.length = addrLen i)
    (hlocal : a ∈ localAddrs f) (hsnap : snapHas addrs i a = true) :
    addrsOf (obsThenSnap isHost i changed addrs now a f) =
      addrsOf (snapThenObs isHost i changed addrs now a f) := by
  obtain ⟨before, l, after, hf, hl, hnot⟩ := exists_split hlocal
  set keep : NetLocal → Bool := fun l => snapHas addrs i l.addr with hkeep
  have hkeeps : keep l = true := by
    simp only [hkeep, hl]
    exact hsnap
  have hseen : keep (seen l) = true := by
    simp only [hkeep, seen_addr, hl]
    exact hsnap
  have hp : addrsOf (pruned i addrs f) =
      (before.filter keep ++ l :: after.filter keep, f.xlats) := by
    rw [pruned_sets i addrs (f := f) rfl, hf]
    simp [← hkeep, hkeeps]
  have hpo : addrsOf (pruned i addrs (netstateOnReflexive i f.epoch a f)) =
      (before.filter keep ++ seen l :: after.filter keep, f.xlats) := by
    rw [pruned_sets i addrs (onReflexive_split ha hf hl hnot)]
    simp [← hkeep, hseen]
  simp only [addrsOf, Prod.mk.injEq] at hp hpo
  obtain ⟨new, left, hres, hres'⟩ := localAdd_congr (i := i) addrs
    (f := pruned i addrs f) (g := pruned i addrs (netstateOnReflexive i f.epoch a f))
    (by simp [localAddrs, hp.1, hpo.1]) (by rw [hp.2, hpo.2])
  rw [addrsOf_obsThenSnap hstay, hres', hpo.1, eq_comm]
  apply addrsOf_snapThenObs hstay
  intro g hg
  rw [hres, hp.1, List.append_assoc, List.cons_append] at hg
  simp only [addrsOf, Prod.mk.injEq] at hg
  have hnot' : a ∉ (before.filter keep).map NetLocal.addr :=
    fun hmem => hnot ((List.filter_sublist.map NetLocal.addr).subset hmem)
  rw [onReflexive_split ha hg.1 hl hnot', hg.2, List.append_assoc, List.cons_append]

/-- An address the snapshot withdraws: the observation before it leaves no trace. -/
theorem obsThenSnap_withdrawn (hstay : changed &&& netmonCh i = 0) (ha : a.length = addrLen i)
    (hlocal : a ∈ localAddrs f) (hsnap : snapHas addrs i a = false) :
    addrsOf (obsThenSnap isHost i changed addrs now a f) =
      addrsOf (localAdd i addrs (pruned i addrs f)).1 := by
  obtain ⟨before, l, after, hf, hl, hnot⟩ := exists_split hlocal
  rw [addrsOf_obsThenSnap hstay]
  apply localAdd_sets
  rw [pruned_sets i addrs (onReflexive_split ha hf hl hnot), pruned_sets i addrs (f := f) rfl, hf]
  simp [List.filter_append, hl, hsnap]

/-- An address held as a translation, and not kept as a local one: the observation after
the snapshot finds it confirmed. -/
theorem snapThenObs_held (hstay : changed &&& netmonCh i = 0) (ha : a.length = addrLen i)
    (hlocal : a ∉ localAddrs (pruned i addrs f)) (hx : a ∈ xlatAddrs f) :
    addrsOf (snapThenObs isHost i changed addrs now a f) =
      addrsOf (localAdd i addrs (pruned i addrs f)).1 := by
  have hconf := localAdd_held (i := i) addrs hlocal hx
  apply addrsOf_snapThenObs hstay
  intro g hg
  have hlocals : g.locals = (localAdd i addrs (pruned i addrs f)).1.locals := congrArg Prod.fst hg
  have hxlats : g.xlats = (localAdd i addrs (pruned i addrs f)).1.xlats := congrArg Prod.snd hg
  have hconf' : Confirmed g a := by
    unfold Confirmed localAddrs xlatAddrs at hconf ⊢
    rw [hlocals, hxlats]
    exact hconf
  rw [hconf'.onReflexive ha, hg]

/-- An address the snapshot leaves in neither set is noted as a translation after it. -/
theorem snapThenObs_absent (hstay : changed &&& netmonCh i = 0) (ha : a.length = addrLen i)
    (hroom : f.xlats.length < netstateXlatMax)
    (hlocal : a ∉ localAddrs (localAdd i addrs (pruned i addrs f)).1)
    (hx : a ∉ xlatAddrs (localAdd i addrs (pruned i addrs f)).1) :
    addrsOf (snapThenObs isHost i changed addrs now a f) =
      ((localAdd i addrs (pruned i addrs f)).1.locals,
        (localAdd i addrs (pruned i addrs f)).1.xlats ++ [⟨a, addrScopeRaw a⟩]) := by
  have hle : (localAdd i addrs (pruned i addrs f)).1.xlats.length ≤ f.xlats.length :=
    localAdd_xlats_le i addrs (pruned i addrs f)
  apply addrsOf_snapThenObs hstay
  intro g hg
  have hlocals : g.locals = (localAdd i addrs (pruned i addrs f)).1.locals := congrArg Prod.fst hg
  have hxlats : g.xlats = (localAdd i addrs (pruned i addrs f)).1.xlats := congrArg Prod.snd hg
  have hlocal' : a ∉ localAddrs g := by
    unfold localAddrs at hlocal ⊢
    rwa [hlocals]
  have hx' : a ∉ xlatAddrs g := by
    unfold xlatAddrs at hx ⊢
    rwa [hxlats]
  rw [onReflexive_noted ha hlocal' hx' (by rw [hxlats]; omega), hlocals, hxlats]

/-- An address held in neither set: it is noted, and moved across if the snapshot has it,
or the other way about. -/
theorem rows_noted (hstay : changed &&& netmonCh i = 0) (ha : a.length = addrLen i)
    (hroom : f.xlats.length < netstateXlatMax) (hlocal : a ∉ localAddrs f)
    (hx : a ∉ xlatAddrs f) :
    rowsOf (addrsOf (obsThenSnap isHost i changed addrs now a f)) =
      rowsOf (addrsOf (snapThenObs isHost i changed addrs now a f)) := by
  have hpo := pruned_sets i addrs (onReflexive_noted ha hlocal hx hroom)
  have hapart := localAdd_noted (i := i) addrs (f := pruned i addrs f)
    (not_mem_pruned fun h => hlocal h.1) hx hpo
  rw [addrsOf_obsThenSnap hstay]
  rcases hapart with ⟨hlocal', hx', hres⟩ | ⟨before, l, after, hF, hl, hnot, hres⟩
  · rw [hres]
    congr 1
    exact (snapThenObs_absent hstay ha hroom hlocal' hx').symm
  · rw [hres, ← rowsOf_seen]
    congr 1
    rw [eq_comm]
    apply addrsOf_snapThenObs hstay
    intro g hg
    simp only [addrsOf, hF, Prod.mk.injEq] at hg
    rw [onReflexive_split ha hg.1 hl hnot, hg.2]

/-- The two orders leave the same rows unless the address observed is a local one that the
snapshot withdraws. -/
theorem fam_rows_commute (hstay : changed &&& netmonCh i = 0) (ha : a.length = addrLen i)
    (hroom : f.xlats.length < netstateXlatMax) :
    rowsOf (addrsOf (obsThenSnap isHost i changed addrs now a f)) =
        rowsOf (addrsOf (snapThenObs isHost i changed addrs now a f)) ↔
      (a ∈ localAddrs f → snapHas addrs i a = true ∨ a ∈ xlatAddrs f) := by
  by_cases hlocal : a ∈ localAddrs f
  · cases hsnap : snapHas addrs i a with
    | true => simp [sets_kept hstay ha hlocal hsnap]
    | false =>
        have hgone : a ∉ localAddrs (pruned i addrs f) :=
          not_mem_pruned fun h => by simp [hsnap] at h
        have hfirst : addrsOf (obsThenSnap isHost i changed addrs now a f) = _ :=
          obsThenSnap_withdrawn hstay ha hlocal hsnap
        by_cases hx : a ∈ xlatAddrs f
        · simp [hfirst, snapThenObs_held hstay ha hgone hx, hx]
        · obtain ⟨hlocal', hx'⟩ := localAdd_absent hgone hx hsnap
          have hsecond : addrsOf (snapThenObs isHost i changed addrs now a f) = _ :=
            snapThenObs_absent hstay ha hroom hlocal' hx'
          simp only [hlocal, hx, Bool.false_eq_true, or_self, imp_false, not_true_eq_false,
            iff_false]
          -- the second order shows the address, and the first has lost it
          intro hrows
          have hshown : ∃ r ∈ rowsOf (addrsOf (snapThenObs isHost i changed addrs now a f)),
              r.addr = a := by
            rw [mem_rowsOf]
            right
            have hxlats := congrArg Prod.snd hsecond
            simp only [addrsOf] at hxlats
            simp [xlatAddrs, hxlats]
          rw [← hrows, hfirst, mem_rowsOf] at hshown
          exact hshown.elim hlocal' hx'
  · simp only [hlocal, false_imp_iff, iff_true]
    by_cases hx : a ∈ xlatAddrs f
    · have hgone : a ∉ localAddrs (pruned i addrs f) := not_mem_pruned fun h => hlocal h.1
      have hsame : addrsOf (netstateOnReflexive i f.epoch a f) = addrsOf f :=
        onReflexive_held ha hlocal hx
      rw [snapThenObs_held hstay ha hgone hx, addrsOf_obsThenSnap hstay]
      congr 1
      apply localAdd_sets
      rw [pruned_sets i addrs hsame, pruned_sets i addrs (f := f) rfl]
    · exact rows_noted hstay ha hroom hlocal hx

end Orders

/-- An observation of a family of an address of another length does nothing. -/
theorem onReflexive_length {i : Fam} {epoch : UInt32} {a : Bytes} {f : NetFam}
    (ha : a.length ≠ addrLen i) : netstateOnReflexive i epoch a f = f :=
  if_pos (Or.inr ha)

/-- The model shows the same rows for both families, whatever the limit. -/
def SameRows (ns ns' : NetState) : Prop :=
  ∀ i max, netstateRows max (ns.f i) = netstateRows max (ns'.f i)

/-- A reflexive observation in its epoch and a snapshot that reports no move of the family
show the same in either order exactly when the snapshot does not withdraw the address
observed: one held as a local address, and not as a translation besides, is in it. -/
theorem rows_commute_iff (ns : NetState) (i : Fam) (a : Bytes) (changed : UInt32)
    (addrs : List NetmonAddr) (now : UInt64) (hroom : (ns.f i).xlats.length < netstateXlatMax)
    (hstay : changed &&& netmonCh i = 0) :
    SameRows (run netstateStep ns [.reflexive i (ns.f i).epoch a, .netmon changed addrs now])
        (run netstateStep ns [.netmon changed addrs now, .reflexive i (ns.f i).epoch a]) ↔
      (a.length = addrLen i → a ∈ localAddrs (ns.f i) →
        snapHas addrs i a = true ∨ a ∈ xlatAddrs (ns.f i)) := by
  have hfirst : ∀ j, (run netstateStep ns
      [.reflexive i (ns.f i).epoch a, .netmon changed addrs now]).f j =
      netstateOnNetmon ns.isHost j changed addrs now
        (addressed i j (netstateOnReflexive i (ns.f i).epoch a) (ns.f j)) := fun _ => rfl
  have hsecond : ∀ j, (run netstateStep ns
      [.netmon changed addrs now, .reflexive i (ns.f i).epoch a]).f j =
      addressed i j (netstateOnReflexive i (ns.f i).epoch a)
        (netstateOnNetmon ns.isHost j changed addrs now (ns.f j)) := fun _ => rfl
  -- the other family sees the snapshot alone
  have hone : SameRows
        (run netstateStep ns [.reflexive i (ns.f i).epoch a, .netmon changed addrs now])
        (run netstateStep ns [.netmon changed addrs now, .reflexive i (ns.f i).epoch a]) ↔
      rowsOf (addrsOf (obsThenSnap ns.isHost i changed addrs now a (ns.f i))) =
        rowsOf (addrsOf (snapThenObs ns.isHost i changed addrs now a (ns.f i))) := by
    unfold SameRows
    simp only [netstateRows_forall, hfirst, hsecond]
    constructor
    · intro h
      have hi := h i
      rw [addressed_self, addressed_self] at hi
      exact hi
    · intro h j
      by_cases hij : i = j
      · subst hij
        rw [addressed_self, addressed_self]
        exact h
      · simp [addressed, hij]
  rw [hone]
  by_cases ha : a.length = addrLen i
  · rw [fam_rows_commute hstay ha hroom]
    simp [ha]
  · simp [obsThenSnap, snapThenObs, onReflexive_length ha, ha]

/-- A family on a segment, before it has a lease. -/
def unleased : NetState :=
  netstateStep (netstateInit true 0) (.netmon 0 [⟨some .v4, [169, 254, 1, 5]⟩] 0)

theorem rows_commute_unleased :
    SameRows
      (run netstateStep unleased
        [.reflexive .v4 (unleased.f .v4).epoch [169, 254, 1, 5],
          .netmon 0 [⟨some .v4, [169, 254, 1, 5]⟩, ⟨some .v4, [10, 0, 0, 2]⟩] 1000])
      (run netstateStep unleased
        [.netmon 0 [⟨some .v4, [169, 254, 1, 5]⟩, ⟨some .v4, [10, 0, 0, 2]⟩] 1000,
          .reflexive .v4 (unleased.f .v4).epoch [169, 254, 1, 5]]) :=
  (rows_commute_iff unleased .v4 [169, 254, 1, 5] 0 _ 1000 (by decide) (by decide)).mpr
    (fun _ _ => Or.inl (by decide))

/-- The segment's own address was on its way out when an exchange named it: after the
snapshot it counts as a translation, before it it is forgotten. -/
theorem rows_withdrawn :
    ¬∀ (ns : NetState) (i : Fam) (a : Bytes) (changed : UInt32) (addrs : List NetmonAddr)
      (now : UInt64), (ns.f i).xlats.length < netstateXlatMax → changed &&& netmonCh i = 0 →
        SameRows (run netstateStep ns [.reflexive i (ns.f i).epoch a, .netmon changed addrs now])
          (run netstateStep ns [.netmon changed addrs now, .reflexive i (ns.f i).epoch a]) := by
  intro h
  have hrows := h unleased .v4 [169, 254, 1, 5] 0 [⟨some .v4, [10, 0, 0, 2]⟩] 1000 (by decide)
    (by decide) .v4 12
  revert hrows
  decide

end Netstate
end Comrade
