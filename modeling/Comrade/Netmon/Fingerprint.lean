import Comrade.Candpack.Encode
import Comrade.Lib.Lex

/-!
# The network fingerprint

`netmon_fingerprint` (`netmon.c`) sorts the addresses of the interfaces and hashes three streams
of them: the v4 addresses, the v6 addresses and the pairs of an interface and a family.  A
`169.254/16` address goes into none of them.  The hash is a parameter.

* `NetmonAddr` is a record of a snapshot and `addrCmp` the order of `qsort`.
* `fpLoop` is the loop, with the record before the one at hand; `netmonFingerprint` the function.
* `addrsOf` and `ifaces` are the sets that the fingerprints are about.
* `masked` are the interfaces that are left out because an ignored record sorts before all
  others.
-/

namespace Comrade
namespace Netmon

open Lib Candpack

/-! ## The code -/

/-- `struct netmon_addr`, as a snapshot fills it: a name of at most 15 bytes and an address of
its family. -/
@[ext] structure NetmonAddr where
  ifname : Bytes
  fam : Family
  addr : Bytes
  ifname_length : ifname.length ≤ 15
  ifname_text : (0 : UInt8) ∉ ifname
  addr_length : addr.length = fam.alen

/-- A field of 16 bytes, zero behind what it holds. -/
def field16 (b : Bytes) : Bytes := b ++ List.replicate (16 - b.length) 0

/-- `AF_INET` and `AF_INET6`. -/
def afOf : Family → Int
  | .v4 => 2
  | .v6 => 10

/-- `addr_cmp`. -/
def addrCmp (x y : NetmonAddr) : Int :=
  let c := strcmp x.ifname y.ifname
  if c ≠ 0 then c
  else if afOf x.fam ≠ afOf y.fam then afOf x.fam - afOf y.fam
  else memcmp (field16 x.addr) (field16 y.addr)

/-- `qsort` by `addr_cmp`. -/
def sorted (addrs : List NetmonAddr) : List NetmonAddr :=
  addrs.mergeSort fun x y => decide (addrCmp x y ≤ 0)

/-- The test for an address that routes nowhere off its segment. -/
def NetmonAddr.apipa (a : NetmonAddr) : Bool :=
  a.fam == .v4 && a.addr.getD 0 0 == 169 && a.addr.getD 1 0 == 254

/-- The test for a record of the same interface and family as the one before. -/
def NetmonAddr.repeats (a : NetmonAddr) : Option NetmonAddr → Bool
  | none => false
  | some prev => a.fam == prev.fam && strcmp a.ifname prev.ifname == 0

/-- What goes into the three hashes. -/
structure Streams where
  v4 : Bytes
  v6 : Bytes
  iface : Bytes
  deriving DecidableEq

/-- The loop, `prev` being the record before the first of the list. -/
def fpLoop : Option NetmonAddr → List NetmonAddr → Streams
  | _, [] => ⟨[], [], []⟩
  | prev, a :: rest =>
      let s := fpLoop (some a) rest
      if a.apipa then s
      else
        let entry := field16 a.ifname ++ a.addr
        let pair := field16 a.ifname ++ [a.fam.code]
        let iface := if a.repeats prev then s.iface else pair ++ s.iface
        match a.fam with
        | .v4 => ⟨entry ++ s.v4, s.v6, iface⟩
        | .v6 => ⟨s.v4, entry ++ s.v6, iface⟩

/-- The three fingerprints. -/
structure Fingerprints where
  fp4 : Bytes
  fp6 : Bytes
  fpif : Bytes

/-- `netmon_fingerprint`.  The hash is missing where its contexts could not be set up. -/
def netmonFingerprint (blake2b : Option (Bytes → Bytes)) (addrs : List NetmonAddr) :
    Fingerprints :=
  match blake2b with
  | none => ⟨List.replicate 32 0, List.replicate 32 0, List.replicate 32 0⟩
  | some h =>
      let s := fpLoop none (sorted addrs)
      ⟨h s.v4, h s.v6, h s.iface⟩

/-! ## What the fingerprints are about -/

/-- The interface and the family of a record. -/
def NetmonAddr.pair (a : NetmonAddr) : Bytes × Family := (a.ifname, a.fam)

/-- The interfaces and addresses of one family that are not ignored. -/
def addrsOf (fam : Family) (addrs : List NetmonAddr) : Set (Bytes × Bytes) :=
  {x | ∃ a ∈ addrs, a.fam = fam ∧ a.apipa = false ∧ (a.ifname, a.addr) = x}

/-- The interfaces and families that have an address that is not ignored. -/
def ifaces (addrs : List NetmonAddr) : Set (Bytes × Family) :=
  {x | ∃ a ∈ addrs, a.apipa = false ∧ a.pair = x}

/-- `a` is the first record of its interface and family. -/
def First (addrs : List NetmonAddr) (a : NetmonAddr) : Prop :=
  a ∈ addrs ∧ ∀ b ∈ addrs, b.pair = a.pair → addrCmp a b ≤ 0

/-- The interfaces and families with an address that is not ignored whose first record is. -/
def masked (addrs : List NetmonAddr) : Set (Bytes × Family) :=
  {x | x ∈ ifaces addrs ∧ ∃ a, First addrs a ∧ a.apipa = true ∧ a.pair = x}

/-- A list of records without duplicates. -/
structure Snapshot where
  addrs : List NetmonAddr
  nodup : addrs.Nodup

/-- For two snapshots, the fingerprints depend on no more than they are about. -/
structure Comparable (blake2b : Option (Bytes → Bytes)) (l l' : Snapshot) : Prop where
  perm : l.addrs.Perm l'.addrs →
    netmonFingerprint blake2b l.addrs = netmonFingerprint blake2b l'.addrs
  v4 : addrsOf .v4 l.addrs = addrsOf .v4 l'.addrs →
    (netmonFingerprint blake2b l.addrs).fp4 = (netmonFingerprint blake2b l'.addrs).fp4
  v6 : addrsOf .v6 l.addrs = addrsOf .v6 l'.addrs →
    (netmonFingerprint blake2b l.addrs).fp6 = (netmonFingerprint blake2b l'.addrs).fp6
  iface : ifaces l.addrs = ifaces l'.addrs →
    (netmonFingerprint blake2b l.addrs).fpif = (netmonFingerprint blake2b l'.addrs).fpif

/-! ## The order -/

/-- A record in the order of `addr_cmp`: its interface and family, then its address. -/
def pairKey (x : Bytes × Family) : List Nat ×ₗ Int := toLex (ranks x.1, afOf x.2)
def NetmonAddr.key (a : NetmonAddr) : (List Nat ×ₗ Int) ×ₗ List Nat :=
  toLex (pairKey a.pair, ranks a.addr)

theorem afOf_injective : Function.Injective afOf := by
  intro x y h
  cases x <;> cases y <;> first | rfl | exact absurd h (by decide)

theorem pairKey_injective : Function.Injective pairKey := by
  rintro ⟨name, fam⟩ ⟨name', fam'⟩ h
  have hboth := Prod.mk.inj (toLex.injective h)
  exact Prod.ext (ranks_injective hboth.1) (afOf_injective hboth.2)

theorem key_injective : Function.Injective NetmonAddr.key := by
  intro a b h
  have hboth := Prod.mk.inj (toLex.injective h)
  have hpair := Prod.mk.inj (pairKey_injective hboth.1)
  exact NetmonAddr.ext hpair.1 hpair.2 (ranks_injective hboth.2)

/-- The parts of `addr_cmp`. -/
theorem addrCmp_of_ne {x y : NetmonAddr} (h : x.ifname ≠ y.ifname) :
    addrCmp x y = strcmp x.ifname y.ifname :=
  if_pos fun hzero => h ((strcmp_eq_zero_iff x.ifname_text y.ifname_text).mp hzero)

theorem addrCmp_of_name {x y : NetmonAddr} (h : x.ifname = y.ifname) (hf : x.fam ≠ y.fam) :
    addrCmp x y = afOf x.fam - afOf y.fam := by
  have hzero := (strcmp_eq_zero_iff x.ifname_text y.ifname_text).mpr h
  have hne : afOf x.fam ≠ afOf y.fam := fun heq => hf (afOf_injective heq)
  rw [addrCmp]
  simp only [hzero, ne_eq, not_true_eq_false, if_false]
  exact if_pos hne

theorem addrCmp_of_pair {x y : NetmonAddr} (h : x.ifname = y.ifname) (hf : x.fam = y.fam) :
    addrCmp x y = memcmp x.addr y.addr := by
  have hzero := (strcmp_eq_zero_iff x.ifname_text y.ifname_text).mpr h
  have hlen : x.addr.length = y.addr.length := by rw [x.addr_length, y.addr_length, hf]
  have hcmp : memcmp (field16 x.addr) (field16 y.addr) = memcmp x.addr y.addr := by
    rw [field16, field16, ← hlen, memcmp_append_right hlen]
  rw [addrCmp]
  simp only [hzero, ne_eq, not_true_eq_false, if_false]
  rw [if_neg (by simp [hf]), hcmp]

theorem addrCmp_neg_iff (x y : NetmonAddr) : addrCmp x y < 0 ↔ x.key < y.key := by
  rw [NetmonAddr.key, NetmonAddr.key, Prod.Lex.toLex_lt_toLex, pairKey_injective.eq_iff, pairKey,
    pairKey, Prod.Lex.toLex_lt_toLex]
  simp only [NetmonAddr.pair, Prod.mk.injEq, ranks_injective.eq_iff]
  by_cases hn : x.ifname = y.ifname
  · by_cases hf : x.fam = y.fam
    · have hlen : x.addr.length = y.addr.length := by rw [x.addr_length, y.addr_length, hf]
      rw [addrCmp_of_pair hn hf, memcmp_neg_iff hlen]
      simp [hn, hf]
    · rw [addrCmp_of_name hn hf, sub_neg]
      simp [hn, hf]
  · rw [addrCmp_of_ne hn, strcmp_neg_iff x.ifname_text y.ifname_text]
    simp [hn]

theorem addrCmp_eq_zero_iff (x y : NetmonAddr) : addrCmp x y = 0 ↔ x = y := by
  rw [NetmonAddr.ext_iff]
  by_cases hn : x.ifname = y.ifname
  · by_cases hf : x.fam = y.fam
    · have hlen : x.addr.length = y.addr.length := by rw [x.addr_length, y.addr_length, hf]
      rw [addrCmp_of_pair hn hf, memcmp_eq_zero_iff hlen]
      simp [hn, hf]
    · rw [addrCmp_of_name hn hf, sub_eq_zero, afOf_injective.eq_iff]
      simp [hf]
  · rw [addrCmp_of_ne hn, strcmp_eq_zero_iff x.ifname_text y.ifname_text]
    simp [hn]

theorem addrCmp_le_iff (x y : NetmonAddr) : addrCmp x y ≤ 0 ↔ x.key ≤ y.key := by
  rw [le_iff_lt_or_eq, le_iff_lt_or_eq, addrCmp_neg_iff, addrCmp_eq_zero_iff,
    key_injective.eq_iff]

/-! ## The sorted list -/

theorem mem_sorted {a : NetmonAddr} {addrs : List NetmonAddr} : a ∈ sorted addrs ↔ a ∈ addrs :=
  List.mem_mergeSort

/-- Of records without duplicates, each comes strictly before the next. -/
theorem sorted_pairwise (l : Snapshot) :
    (sorted l.addrs).Pairwise fun x y => x.key < y.key := by
  have hsort : (sorted l.addrs).Pairwise fun x y => decide (addrCmp x y ≤ 0) = true := by
    refine List.pairwise_mergeSort ?_ ?_ l.addrs
    · intro a b c hab hbc
      simp only [decide_eq_true_eq, addrCmp_le_iff] at hab hbc ⊢
      exact hab.trans hbc
    · intro a b
      simp only [Bool.or_eq_true, decide_eq_true_eq, addrCmp_le_iff]
      exact le_total _ _
  have hnodup : (sorted l.addrs).Nodup := (List.mergeSort_perm _ _).nodup_iff.mpr l.nodup
  refine hsort.imp₂ (fun a b hle hne => ?_) hnodup
  rw [decide_eq_true_eq, addrCmp_le_iff] at hle
  exact lt_of_le_of_ne hle fun heq => hne (key_injective heq)

/-- Two strictly sorted lists with the same members are one. -/
theorem eq_of_sorted {α β : Type} [LinearOrder β] {f : α → β} {L L' : List α}
    (h : L.Pairwise fun x y => f x < f y) (h' : L'.Pairwise fun x y => f x < f y)
    (hmem : ∀ a, a ∈ L ↔ a ∈ L') : L = L' := by
  have : Std.Irrefl fun x y : α => f x < f y := ⟨fun _ => lt_irrefl _⟩
  have : Std.Antisymm fun x y : α => f x < f y :=
    ⟨fun _ _ hxy hyx => absurd (hxy.trans hyx) (lt_irrefl _)⟩
  exact h.eq_of_mem_iff h' hmem

/-! ## The addresses -/

/-- The records of one family that are not ignored. -/
def kept (fam : Family) (L : List NetmonAddr) : List NetmonAddr :=
  L.filter fun a => a.fam == fam && !a.apipa

/-- What a record adds to the stream of its family. -/
def NetmonAddr.entry (a : NetmonAddr) : Bytes := field16 a.ifname ++ a.addr

theorem fpLoop_cons (prev : Option NetmonAddr) (a : NetmonAddr) (L : List NetmonAddr) :
    fpLoop prev (a :: L) =
      if a.apipa = true then fpLoop (some a) L
      else
        match a.fam with
        | .v4 => ⟨a.entry ++ (fpLoop (some a) L).v4, (fpLoop (some a) L).v6,
            if a.repeats prev then (fpLoop (some a) L).iface
            else (field16 a.ifname ++ [a.fam.code]) ++ (fpLoop (some a) L).iface⟩
        | .v6 => ⟨(fpLoop (some a) L).v4, a.entry ++ (fpLoop (some a) L).v6,
            if a.repeats prev then (fpLoop (some a) L).iface
            else (field16 a.ifname ++ [a.fam.code]) ++ (fpLoop (some a) L).iface⟩ :=
  rfl

theorem fpLoop_v4 (prev : Option NetmonAddr) (L : List NetmonAddr) :
    (fpLoop prev L).v4 = (kept .v4 L).flatMap NetmonAddr.entry := by
  induction L generalizing prev with
  | nil => rfl
  | cons a L ih =>
      rw [fpLoop_cons]
      cases hf : a.fam <;> cases ha : a.apipa <;> simp [kept, hf, ha, ih]

theorem fpLoop_v6 (prev : Option NetmonAddr) (L : List NetmonAddr) :
    (fpLoop prev L).v6 = (kept .v6 L).flatMap NetmonAddr.entry := by
  induction L generalizing prev with
  | nil => rfl
  | cons a L ih =>
      rw [fpLoop_cons]
      cases hf : a.fam <;> cases ha : a.apipa <;> simp [kept, hf, ha, ih]

theorem mem_kept_sorted {fam : Family} {addrs : List NetmonAddr} {a : NetmonAddr} :
    a ∈ kept fam (sorted addrs) ↔ a.fam = fam ∧ (a.ifname, a.addr) ∈ addrsOf fam addrs := by
  simp only [kept, List.mem_filter, mem_sorted, Bool.and_eq_true, beq_iff_eq, Bool.not_eq_true']
  constructor
  · rintro ⟨ha, hf, hkept⟩
    exact ⟨hf, a, ha, hf, hkept, rfl⟩
  · rintro ⟨hf, b, hb, hbf, hkept, heq⟩
    obtain ⟨hname, haddr⟩ := Prod.mk.inj heq
    obtain rfl : b = a := NetmonAddr.ext hname (hbf.trans hf.symm) haddr
    exact ⟨hb, hf, hkept⟩

/-- The records that are not ignored, in order, depend on their set only. -/
theorem kept_sorted_eq {fam : Family} {l l' : Snapshot}
    (h : addrsOf fam l.addrs = addrsOf fam l'.addrs) :
    kept fam (sorted l.addrs) = kept fam (sorted l'.addrs) := by
  refine eq_of_sorted ((sorted_pairwise l).filter _) ((sorted_pairwise l').filter _) fun a => ?_
  rw [mem_kept_sorted, mem_kept_sorted, h]

/-! ## The interfaces -/

/-- The pairs that the loop puts into the third stream. -/
def emitted : Option NetmonAddr → List NetmonAddr → List (Bytes × Family)
  | _, [] => []
  | prev, a :: rest =>
      if a.apipa = true ∨ a.repeats prev = true then emitted (some a) rest
      else a.pair :: emitted (some a) rest

/-- What a pair adds to the third stream. -/
def pairBytes (x : Bytes × Family) : Bytes := field16 x.1 ++ [x.2.code]

theorem emitted_cons (prev : Option NetmonAddr) (a : NetmonAddr) (L : List NetmonAddr) :
    emitted prev (a :: L) =
      if a.apipa = true ∨ a.repeats prev = true then emitted (some a) L
      else a.pair :: emitted (some a) L :=
  rfl

theorem fpLoop_iface (prev : Option NetmonAddr) (L : List NetmonAddr) :
    (fpLoop prev L).iface = (emitted prev L).flatMap pairBytes := by
  induction L generalizing prev with
  | nil => rfl
  | cons a L ih =>
      rw [fpLoop_cons, emitted_cons]
      cases hf : a.fam <;> cases ha : a.apipa <;> cases hr : a.repeats prev <;>
        simp [hf, ih, pairBytes, NetmonAddr.pair]

theorem repeats_iff {a : NetmonAddr} {prev : Option NetmonAddr} :
    a.repeats prev = true ↔ ∃ p ∈ prev, p.pair = a.pair := by
  cases prev with
  | none => simp [NetmonAddr.repeats]
  | some p =>
      have hname := strcmp_eq_zero_iff a.ifname_text p.ifname_text
      simp only [NetmonAddr.repeats, Bool.and_eq_true, beq_iff_eq, hname, NetmonAddr.pair,
        Option.mem_def, Option.some.injEq, exists_eq_left', Prod.mk.injEq]
      constructor
      · rintro ⟨hf, hn⟩
        exact ⟨hn.symm, hf.symm⟩
      · rintro ⟨hn, hf⟩
        exact ⟨hf.symm, hn.symm⟩

theorem pairKey_le_of_key_lt {a b : NetmonAddr} (h : a.key < b.key) :
    pairKey a.pair ≤ pairKey b.pair := by
  rw [NetmonAddr.key, NetmonAddr.key, Prod.Lex.toLex_lt_toLex] at h
  obtain h | ⟨h, -⟩ := h
  · exact h.le
  · exact h.le

/-- The records of one interface and family stand next to each other. -/
theorem pair_eq_of_between {a b c : NetmonAddr} (hab : a.key < b.key) (hbc : b.key < c.key)
    (hac : a.pair = c.pair) : b.pair = c.pair := by
  have hle := pairKey_le_of_key_lt hab
  rw [hac] at hle
  exact pairKey_injective (le_antisymm (pairKey_le_of_key_lt hbc) hle)

/-- The first record of its pair, where a record comes before all others. -/
theorem first_cons_iff {a b : NetmonAddr} {L : List NetmonAddr} (hL : ∀ c ∈ L, a.key < c.key) :
    First (a :: L) b ↔ b = a ∨ (b.pair ≠ a.pair ∧ First L b) := by
  simp only [First, addrCmp_le_iff, List.mem_cons, forall_eq_or_imp]
  constructor
  · rintro ⟨rfl | hb, hfirst, hrest⟩
    · exact .inl rfl
    · refine .inr ⟨fun hpair => ?_, hb, hrest⟩
      exact absurd (hfirst hpair.symm) (not_le.mpr (hL b hb))
  · rintro (rfl | ⟨hne, hb, hrest⟩)
    · exact ⟨.inl rfl, fun _ => le_rfl, fun c hc _ => (hL c hc).le⟩
    · exact ⟨.inr hb, fun hpair => absurd hpair.symm hne, hrest⟩

/-- What the loop emits: the pairs whose first record is not ignored. -/
theorem mem_emitted {prev : Option NetmonAddr} {L : List NetmonAddr} {x : Bytes × Family}
    (hL : L.Pairwise fun a b => a.key < b.key) (hprev : ∀ p ∈ prev, ∀ a ∈ L, p.key < a.key) :
    x ∈ emitted prev L ↔
      (∃ a, First L a ∧ a.apipa = false ∧ a.pair = x) ∧ ∀ p ∈ prev, p.pair ≠ x := by
  induction L generalizing prev with
  | nil => simp [emitted, First]
  | cons a L ih =>
      rw [List.pairwise_cons] at hL
      have hnext : ∀ p ∈ some a, ∀ b ∈ L, p.key < b.key := by
        intro p hp b hb
        obtain rfl := Option.some.inj hp
        exact hL.1 b hb
      have hrest := ih hL.2 hnext
      simp only [Option.mem_def, Option.some.injEq, forall_eq'] at hrest
      -- a pair that begins behind `a` is not that of the record before `a`
      have hbehind : ∀ b, First L b → b.pair ≠ a.pair → ∀ p ∈ prev, p.pair ≠ b.pair := by
        intro b hb hne p hp heq
        exact hne (pair_eq_of_between (hprev p hp a (.head _)) (hL.1 b hb.1) heq).symm
      have hfirst : ((∃ b, First (a :: L) b ∧ b.apipa = false ∧ b.pair = x) ∧
            ∀ p ∈ prev, p.pair ≠ x) ↔
          (a.apipa = false ∧ a.pair = x ∧ ∀ p ∈ prev, p.pair ≠ x) ∨
            ((∃ b, First L b ∧ b.apipa = false ∧ b.pair = x) ∧ a.pair ≠ x) := by
        simp only [first_cons_iff hL.1]
        constructor
        · rintro ⟨⟨b, rfl | ⟨hne, hb⟩, hkept, rfl⟩, hp⟩
          · exact .inl ⟨hkept, rfl, hp⟩
          · exact .inr ⟨⟨b, hb, hkept, rfl⟩, hne.symm⟩
        · rintro (⟨hkept, rfl, hp⟩ | ⟨⟨b, hb, hkept, rfl⟩, hne⟩)
          · exact ⟨⟨a, .inl rfl, hkept, rfl⟩, hp⟩
          · exact ⟨⟨b, .inr ⟨hne.symm, hb⟩, hkept, rfl⟩, hbehind b hb hne.symm⟩
      rw [hfirst, ← hrest, emitted_cons]
      by_cases hskip : a.apipa = true ∨ a.repeats prev = true
      · rw [if_pos hskip]
        refine (or_iff_right ?_).symm
        rintro ⟨hkept, rfl, hp⟩
        obtain hignored | hrep := hskip
        · rw [hkept] at hignored
          cases hignored
        · obtain ⟨p, hmem, hpair⟩ := repeats_iff.1 hrep
          exact hp p hmem hpair
      · rw [if_neg hskip, List.mem_cons]
        rw [not_or, Bool.not_eq_true, repeats_iff] at hskip
        refine or_congr_left ⟨?_, fun h => h.2.1.symm⟩
        rintro rfl
        exact ⟨hskip.1, rfl, fun p hp heq => hskip.2 ⟨p, hp, heq⟩⟩

theorem emitted_pairwise {prev : Option NetmonAddr} {L : List NetmonAddr}
    (hL : L.Pairwise fun a b => a.key < b.key) :
    (emitted prev L).Pairwise fun x y => pairKey x < pairKey y := by
  induction L generalizing prev with
  | nil => exact List.Pairwise.nil
  | cons a L ih =>
      rw [List.pairwise_cons] at hL
      rw [emitted_cons]
      split
      · exact ih hL.2
      · refine List.pairwise_cons.mpr ⟨fun x hx => ?_, ih hL.2⟩
        have hprev : ∀ p ∈ some a, ∀ b ∈ L, p.key < b.key := by
          intro p hp b hb
          obtain rfl := Option.some.inj hp
          exact hL.1 b hb
        obtain ⟨⟨b, hb, -, rfl⟩, hne⟩ := (mem_emitted hL.2 hprev).mp hx
        refine lt_of_le_of_ne (pairKey_le_of_key_lt (hL.1 b hb.1)) fun heq => ?_
        exact hne a rfl (pairKey_injective heq)

theorem first_sorted_iff {addrs : List NetmonAddr} {a : NetmonAddr} :
    First (sorted addrs) a ↔ First addrs a := by
  simp only [First, mem_sorted]

theorem First.unique {addrs : List NetmonAddr} {a b : NetmonAddr} (ha : First addrs a)
    (hb : First addrs b) (h : a.pair = b.pair) : a = b := by
  have hab := ha.2 b hb.1 h.symm
  have hba := hb.2 a ha.1 h
  rw [addrCmp_le_iff] at hab hba
  exact key_injective (le_antisymm hab hba)

/-- Every pair of a snapshot has a first record. -/
theorem exists_first (l : Snapshot) {a : NetmonAddr} (ha : a ∈ l.addrs) :
    ∃ b, First l.addrs b ∧ b.pair = a.pair := by
  have hsorted := (sorted_pairwise l).filter fun b => b.pair = a.pair
  have hmem : ∀ b, b ∈ (sorted l.addrs).filter (fun b => b.pair = a.pair) ↔
      b ∈ l.addrs ∧ b.pair = a.pair := by
    intro b
    simp [mem_sorted]
  generalize (sorted l.addrs).filter (fun b => b.pair = a.pair) = L at hsorted hmem
  cases L with
  | nil => exact absurd ((hmem a).mpr ⟨ha, rfl⟩) (by simp)
  | cons b L =>
      obtain ⟨hb, hpair⟩ := (hmem b).mp (.head _)
      refine ⟨b, ⟨hb, fun c hc hcpair => ?_⟩, hpair⟩
      rw [addrCmp_le_iff]
      obtain rfl | hcL := List.mem_cons.mp ((hmem c).mpr ⟨hc, hcpair.trans hpair⟩)
      · exact le_rfl
      · exact ((List.pairwise_cons.mp hsorted).1 c hcL).le

/-- What the loop emits of a snapshot: all pairs but the masked ones. -/
theorem mem_emitted_sorted {l : Snapshot} {x : Bytes × Family} :
    x ∈ emitted none (sorted l.addrs) ↔ x ∈ ifaces l.addrs \ masked l.addrs := by
  rw [mem_emitted (sorted_pairwise l) (by simp)]
  simp only [first_sorted_iff, Option.mem_def, reduceCtorEq, false_implies, implies_true, and_true]
  constructor
  · rintro ⟨a, ha, hkept, rfl⟩
    refine ⟨⟨a, ha.1, hkept, rfl⟩, ?_⟩
    rintro ⟨-, b, hb, hignored, hpair⟩
    obtain rfl := hb.unique ha hpair
    rw [hkept] at hignored
    cases hignored
  · rintro ⟨⟨a, ha, hkept, rfl⟩, hunmasked⟩
    obtain ⟨b, hb, hpair⟩ := exists_first l ha
    refine ⟨b, hb, ?_, hpair⟩
    by_contra hignored
    exact hunmasked ⟨⟨a, ha, hkept, rfl⟩, b, hb, by simpa using hignored, hpair⟩

/-! ## The third stream -/

theorem cString_field16 {b : Bytes} (h : (0 : UInt8) ∉ b) : cString (field16 b) = b := by
  have hb : ∀ c ∈ b, (c != 0) = true := by
    intro c hc
    simpa using fun hzero : c = 0 => h (hzero ▸ hc)
  rw [cString, field16, List.takeWhile_append_of_pos hb]
  cases 16 - b.length with
  | zero => simp
  | succ n => simp [List.replicate_succ]

theorem pairBytes_injective {x y : Bytes × Family} (hx : (0 : UInt8) ∉ x.1)
    (hy : (0 : UInt8) ∉ y.1) (h : pairBytes x = pairBytes y) : x = y := by
  obtain ⟨hname, hcode⟩ := List.append_inj' h rfl
  have hfam : x.2 = y.2 := by
    cases hxf : x.2 <;> cases hyf : y.2 <;> simp_all [Family.code]
  have hboth := congrArg cString hname
  rw [cString_field16 hx, cString_field16 hy] at hboth
  exact Prod.ext hboth hfam

theorem length_pairBytes {x : Bytes × Family} (h : x.1.length ≤ 15) :
    (pairBytes x).length = 17 := by
  simp only [pairBytes, field16, List.length_append, List.length_replicate, List.length_singleton]
  omega

/-- The third stream tells which pairs went into it. -/
theorem flatMap_pairBytes_inj {xs ys : List (Bytes × Family)}
    (hx : ∀ x ∈ xs, x.1.length ≤ 15 ∧ (0 : UInt8) ∉ x.1)
    (hy : ∀ y ∈ ys, y.1.length ≤ 15 ∧ (0 : UInt8) ∉ y.1)
    (h : xs.flatMap pairBytes = ys.flatMap pairBytes) : xs = ys := by
  induction xs generalizing ys with
  | nil =>
      cases ys with
      | nil => rfl
      | cons y ys =>
          have hlen := congrArg List.length h
          rw [List.flatMap_cons, List.length_append, length_pairBytes (hy y (.head _)).1] at hlen
          simp at hlen
          omega
  | cons x xs ih =>
      have hxlen := length_pairBytes (hx x (.head _)).1
      cases ys with
      | nil =>
          have hlen := congrArg List.length h
          rw [List.flatMap_cons, List.length_append, hxlen] at hlen
          simp at hlen
      | cons y ys =>
          have hylen := length_pairBytes (hy y (.head _)).1
          rw [List.flatMap_cons, List.flatMap_cons] at h
          obtain ⟨hhead, htail⟩ := List.append_inj h (hxlen.trans hylen.symm)
          rw [pairBytes_injective (hx x (.head _)).2 (hy y (.head _)).2 hhead,
            ih (fun z hz => hx z (.tail _ hz)) (fun z hz => hy z (.tail _ hz)) htail]

theorem name_of_mem_emitted {l : Snapshot} {x : Bytes × Family}
    (h : x ∈ emitted none (sorted l.addrs)) : x.1.length ≤ 15 ∧ (0 : UInt8) ∉ x.1 := by
  obtain ⟨⟨a, -, -, rfl⟩, -⟩ := mem_emitted_sorted.1 h
  exact ⟨a.ifname_length, a.ifname_text⟩

/-- Two snapshots emit the same pairs exactly when the same pairs are left unmasked. -/
theorem emitted_eq_iff {l l' : Snapshot} :
    emitted none (sorted l.addrs) = emitted none (sorted l'.addrs) ↔
      ifaces l.addrs \ masked l.addrs = ifaces l'.addrs \ masked l'.addrs := by
  constructor
  · intro h
    ext x
    rw [← mem_emitted_sorted, ← mem_emitted_sorted, h]
  · intro h
    refine eq_of_sorted (emitted_pairwise (sorted_pairwise l))
      (emitted_pairwise (sorted_pairwise l')) fun x => ?_
    rw [mem_emitted_sorted, mem_emitted_sorted, h]

theorem masked_subset (addrs : List NetmonAddr) : masked addrs ⊆ ifaces addrs :=
  fun _ h => h.1

/-- What is hashed of the interfaces tells what is masked of them. -/
theorem masked_eq_of_comparable {l l' : Snapshot} (h : ∀ blake2b, Comparable blake2b l l')
    (hif : ifaces l.addrs = ifaces l'.addrs) : masked l.addrs = masked l'.addrs := by
  have hstream := (h (some id)).iface hif
  simp only [netmonFingerprint, id_eq, fpLoop_iface] at hstream
  have hpairs := flatMap_pairBytes_inj (fun _ => name_of_mem_emitted)
    (fun _ => name_of_mem_emitted) hstream
  have hleft := emitted_eq_iff.1 hpairs
  rw [← Set.sdiff_sdiff_cancel_left (masked_subset l.addrs), hleft, hif,
    Set.sdiff_sdiff_cancel_left (masked_subset l'.addrs)]

/-- The fingerprints of two snapshots depend on no more than the addresses and interfaces they
are about, exactly when snapshots with the same interfaces mask the same of them. -/
theorem netmonFingerprint_iff (l l' : Snapshot) :
    (∀ blake2b, Comparable blake2b l l') ↔
      (ifaces l.addrs = ifaces l'.addrs → masked l.addrs = masked l'.addrs) := by
  constructor
  · exact masked_eq_of_comparable
  · intro h blake2b
    cases blake2b with
    | none => exact ⟨fun _ => rfl, fun _ => rfl, fun _ => rfl, fun _ => rfl⟩
    | some hash =>
        refine ⟨fun hperm => ?_, fun h4 => ?_, fun h6 => ?_, fun hif => ?_⟩
        · have hsorted : sorted l.addrs = sorted l'.addrs :=
            eq_of_sorted (sorted_pairwise l) (sorted_pairwise l') fun a => by
              rw [mem_sorted, mem_sorted, hperm.mem_iff]
          rw [netmonFingerprint, netmonFingerprint, hsorted]
        · simp only [netmonFingerprint, fpLoop_v4, kept_sorted_eq h4]
        · simp only [netmonFingerprint, fpLoop_v6, kept_sorted_eq h6]
        · have hpairs : emitted none (sorted l.addrs) = emitted none (sorted l'.addrs) :=
            emitted_eq_iff.2 (by rw [hif, h hif])
          simp only [netmonFingerprint, fpLoop_iface, hpairs]

/-- An address of `eth0`. -/
def eth0 (addr : Vector UInt8 4) : NetmonAddr :=
  ⟨ascii "eth0".toList, .v4, addr.toList, by decide, by decide, by simp [Family.alen]⟩

/-- An interface with a `192.168` address, and the same one beside a `169.254` address. -/
def leased : Snapshot := ⟨[eth0 #v[192, 168, 1, 2]], by simp⟩
def leasedBeside : Snapshot :=
  ⟨[eth0 #v[192, 168, 1, 2], eth0 #v[169, 254, 7, 7]],
    by simp [NetmonAddr.ext_iff, eth0]⟩

/-- The address that is ignored comes first and takes the interface out of the fingerprint. -/
theorem netmonFingerprint_leased : ¬∀ blake2b, Comparable blake2b leasedBeside leased := by
  intro h
  have hset : ifaces leasedBeside.addrs = ifaces leased.addrs := by
    ext x
    have hkept : (eth0 #v[192, 168, 1, 2]).apipa = false := by decide
    have hignored : (eth0 #v[169, 254, 7, 7]).apipa = true := by decide
    simp [ifaces, leased, leasedBeside, hkept, hignored]
  have hmasked := masked_eq_of_comparable h hset
  have hin : (eth0 #v[169, 254, 7, 7]).pair ∈ masked leasedBeside.addrs := by
    refine ⟨⟨eth0 #v[192, 168, 1, 2], by simp [leasedBeside], by decide, rfl⟩,
      eth0 #v[169, 254, 7, 7], ⟨by simp [leasedBeside], ?_⟩, by decide, rfl⟩
    simp only [leasedBeside, List.mem_cons, List.not_mem_nil, or_false, forall_eq_or_imp, forall_eq]
    exact ⟨fun _ => by decide, fun _ => by decide⟩
  rw [hmasked] at hin
  obtain ⟨-, a, ha, hignored, -⟩ := hin
  obtain rfl : a = eth0 #v[192, 168, 1, 2] := by simpa [leased] using ha.1
  exact absurd hignored (by decide)

end Netmon
end Comrade
