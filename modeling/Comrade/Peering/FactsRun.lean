import Comrade.Peering.Facts

/-!
# Runs of the fact queue

What a run of posts and takes hands back: the addresses in the order they were posted
(`nsfacts_order`), and the newest epoch of a slot where no older one was posted over it
(`nsfacts_newest`).
-/

namespace Comrade
namespace Peering

open Lib Netstate

/-! ## The slots and what is queued of them -/

/-- The slot that a kind has for a family. -/
def slot (f : Nsfacts) : FactKind → Slots
  | .roundtrip => f.rt
  | .probeDone => f.done
  | .servers => f.more
  | .addr => fun _ => none

/-- A fact of the kind for the family is among those handed back. -/
def HandsBack (out : List Nsfact) (kind : FactKind) (i : Fam) : Prop :=
  ∃ e ∈ out, e.kind = kind ∧ famIdx e.family = i

instance (out : List Nsfact) (kind : FactKind) (i : Fam) : Decidable (HandsBack out kind i) :=
  inferInstanceAs (Decidable (∃ e ∈ out, _))

@[simp] theorem emit_kind (kind : FactKind) (i : Fam) (epoch : UInt32) :
    (emit kind i epoch).kind = kind := rfl

@[simp] theorem emit_epoch (kind : FactKind) (i : Fam) (epoch : UInt32) :
    (emit kind i epoch).epoch = epoch := rfl

@[simp] theorem famIdx_emit (kind : FactKind) (i : Fam) (epoch : UInt32) :
    famIdx (emit kind i epoch).family = i := by
  cases i <;> rfl

theorem mem_slotFacts {kind : FactKind} {slots : Slots} {e : Nsfact} :
    e ∈ slotFacts kind slots ↔ ∃ i epoch, slots i = some epoch ∧ e = emit kind i epoch := by
  unfold slotFacts
  simp only [List.mem_append, List.mem_map, Option.mem_toList]
  constructor
  · rintro (⟨epoch, hslot, rfl⟩ | ⟨epoch, hslot, rfl⟩)
    · exact ⟨.v4, epoch, hslot, rfl⟩
    · exact ⟨.v6, epoch, hslot, rfl⟩
  · rintro ⟨i, epoch, hslot, rfl⟩
    cases i with
    | v4 => exact .inl ⟨epoch, hslot, rfl⟩
    | v6 => exact .inr ⟨epoch, hslot, rfl⟩

/-- A fact that is no address is queued where its slot is set. -/
theorem mem_queued_iff {f : Nsfacts} {e : Nsfact} (hkind : e.kind ≠ .addr) :
    e ∈ queued f ↔ ∃ i epoch, slot f e.kind i = some epoch ∧ e = emit e.kind i epoch := by
  have hq : e ∉ f.q := fun he => hkind (f.addrs e he)
  simp only [queued, List.mem_append, mem_slotFacts, hq, or_false]
  constructor
  · rintro ((⟨i, epoch, hslot, rfl⟩ | ⟨i, epoch, hslot, rfl⟩) | ⟨i, epoch, hslot, rfl⟩) <;>
      exact ⟨i, epoch, hslot, rfl⟩
  · rintro ⟨i, epoch, hslot, he⟩
    cases hk : e.kind with
    | addr => exact absurd hk hkind
    | roundtrip => exact .inl (.inl ⟨i, epoch, by rwa [hk] at hslot, by rwa [hk] at he⟩)
    | servers => exact .inl (.inr ⟨i, epoch, by rwa [hk] at hslot, by rwa [hk] at he⟩)
    | probeDone => exact .inr ⟨i, epoch, by rwa [hk] at hslot, by rwa [hk] at he⟩

theorem emit_mem_queued {f : Nsfacts} {kind : FactKind} {i : Fam} {epoch : UInt32}
    (hkind : kind ≠ .addr) : emit kind i epoch ∈ queued f ↔ slot f kind i = some epoch := by
  rw [mem_queued_iff (by simpa using hkind), emit_kind]
  constructor
  · rintro ⟨j, epoch', hslot, heq⟩
    have hfam : i = j := by simpa using congrArg (fun e => famIdx e.family) heq
    have hepoch : epoch = epoch' := congrArg Nsfact.epoch heq
    rw [hfam, hepoch]
    exact hslot
  · intro hslot
    exact ⟨i, epoch, hslot, rfl⟩

/-- Two facts of one kind and family, in the order they are queued, are addresses. -/
def Apart (a b : Nsfact) : Prop :=
  a.kind = b.kind → famIdx a.family = famIdx b.family → a.kind = .addr

theorem slotFacts_apart (kind : FactKind) (slots : Slots) :
    (slotFacts kind slots).Pairwise Apart := by
  have hne : famIdx 4 ≠ famIdx 6 := by decide
  unfold slotFacts Apart
  cases slots .v4 <;> cases slots .v6 <;> simp [emit, hne]

theorem queued_apart (f : Nsfacts) : (queued f).Pairwise Apart := by
  have hslots : ∀ {kind kind' : FactKind} {slots slots' : Slots}, kind ≠ kind' →
      ∀ a ∈ slotFacts kind slots, ∀ b ∈ slotFacts kind' slots', Apart a b := by
    intro kind kind' slots slots' hne a ha b hb hkind
    obtain ⟨i, epoch, -, rfl⟩ := mem_slotFacts.1 ha
    obtain ⟨j, epoch', -, rfl⟩ := mem_slotFacts.1 hb
    exact absurd hkind hne
  have haddr : ∀ {kind : FactKind} {slots : Slots}, kind ≠ .addr →
      ∀ a ∈ slotFacts kind slots, ∀ b ∈ f.q, a.kind ≠ b.kind := by
    intro kind slots hne a ha b hb
    obtain ⟨i, epoch, -, rfl⟩ := mem_slotFacts.1 ha
    rw [f.addrs b hb]
    exact hne
  have hq : f.q.Pairwise Apart := List.pairwise_of_forall_mem_list fun a ha b hb _ _ => f.addrs a ha
  unfold queued
  rw [List.pairwise_append, List.pairwise_append, List.pairwise_append]
  refine ⟨⟨⟨slotFacts_apart _ _, slotFacts_apart _ _, hslots (by decide)⟩, hq, ?_⟩,
    slotFacts_apart _ _, ?_⟩
  · intro a ha b hb hkind
    rcases List.mem_append.mp ha with ha | ha
    · exact absurd hkind (haddr (by decide) a ha b hb)
    · exact absurd hkind (haddr (by decide) a ha b hb)
  · intro a ha b hb hkind
    rcases List.mem_append.mp ha with ha | ha
    · rcases List.mem_append.mp ha with ha | ha
      · exact hslots (by decide) a ha b hb hkind
      · exact hslots (by decide) a ha b hb hkind
    · exact absurd hkind.symm (haddr (by decide) b hb a ha)

/-- A take empties the slots it hands back and no others. -/
theorem slot_nsfactsTake (max : Nat) (f : Nsfacts) {kind : FactKind} (hkind : kind ≠ .addr)
    (i : Fam) : slot (nsfactsTake max f).2 kind i =
      if HandsBack (nsfactsTake max f).1 kind i then none else slot f kind i := by
  obtain ⟨hout, hleft⟩ := nsfactsTake_queued max f
  have hcut : (queued f).take max ++ (queued f).drop max = queued f := List.take_append_drop _ _
  have hdrop : ∀ epoch, slot (nsfactsTake max f).2 kind i = some epoch ↔
      emit kind i epoch ∈ (queued f).drop max := by
    intro epoch
    rw [← emit_mem_queued hkind, hleft]
  rw [hout]
  apply Option.ext
  intro epoch
  rw [hdrop]
  split_ifs with hback
  · obtain ⟨e, he, hk, hf⟩ := hback
    have happart := queued_apart f
    rw [← hcut, List.pairwise_append] at happart
    refine iff_of_false ?_ (by simp)
    intro hmem
    exact hkind (hk ▸ happart.2.2 e he _ hmem hk (by rw [hf, famIdx_emit]))
  · have hkept : emit kind i epoch ∉ (queued f).take max :=
      fun hmem => hback ⟨_, hmem, rfl, famIdx_emit _ _ _⟩
    have hsplit : emit kind i epoch ∈ queued f ↔
        emit kind i epoch ∈ (queued f).take max ∨ emit kind i epoch ∈ (queued f).drop max := by
      rw [← List.mem_append, hcut]
    rw [← emit_mem_queued hkind, hsplit, or_iff_right hkept]

/-- Every fact is in a place of its own, so the addresses handed back and those that stay
are the queue. -/
theorem queue_nsfactsTake (max : Nat) (f : Nsfacts) :
    (nsfactsTake max f).1.filter (·.kind = .addr) ++ (nsfactsTake max f).2.q = f.q := by
  have hfilter : ∀ g : Nsfacts, (queued g).filter (·.kind = .addr) = g.q := by
    intro g
    have hslots : ∀ (kind : FactKind) (slots : Slots), kind ≠ .addr →
        (slotFacts kind slots).filter (·.kind = .addr) = [] := by
      intro kind slots hne
      rw [List.filter_eq_nil_iff]
      intro e he
      obtain ⟨i, epoch, -, rfl⟩ := mem_slotFacts.1 he
      simp only [emit_kind, hne, decide_false, Bool.false_eq_true, not_false_eq_true]
    have hq : g.q.filter (·.kind = .addr) = g.q := by
      rw [List.filter_eq_self]
      simpa using g.addrs
    have hrt := hslots .roundtrip g.rt (by decide)
    have hmore := hslots .servers g.more (by decide)
    have hdone := hslots .probeDone g.done (by decide)
    simp only [queued, List.filter_append, hrt, hmore, hdone, hq, List.nil_append,
      List.append_nil]
  obtain ⟨hout, hleft⟩ := nsfactsTake_queued max f
  rw [← hfilter (nsfactsTake max f).2, hout, hleft, ← List.filter_append, List.take_append_drop,
    hfilter]

/-! ## The order, and what is lost -/

/-- The addresses that a call hands back. -/
def addrsOut (f : Nsfacts) : FactOp → Option (List Nsfact)
  | .take max => some ((nsfactsTake max f).1.filter (·.kind = .addr))
  | _ => none

/-- The address that a call posts, left out where the same one is queued and where
`NSFACTS_MAX` are. -/
def addrIn (f : Nsfacts) : FactOp → Option Nsfact
  | .postAddr family epoch addr =>
      if (addrFact family epoch addr).key ∈ f.q.map Nsfact.key ∨ f.q.length = nsfactsMax then none
      else some (addrFact family epoch addr)
  | _ => none

/-- A probe round of the family ended. -/
def EndsRound (i : Fam) : FactOp → Prop
  | .post .probeDone family _ => famIdx family = i
  | _ => False

/-- The call hands back the end of a probe round of the family. -/
def HandsDone (i : Fam) (f : Nsfacts) : FactOp → Prop
  | .take max => HandsBack (nsfactsTake max f).1 .probeDone i
  | _ => False

theorem q_nsfactsPost (f : Nsfacts) (kind : FactKind) (family : Int) (epoch : UInt32) :
    (nsfactsPost f kind family epoch).q = f.q := by
  cases kind <;> rfl

/-- One call moves the addresses along. -/
theorem queue_nsfactsStep (f : Nsfacts) (op : FactOp) :
    (addrsOut f op).toList.flatten ++ (nsfactsStep f op).q = f.q ++ (addrIn f op).toList := by
  cases op with
  | post kind family epoch => simp [addrsOut, addrIn, nsfactsStep, q_nsfactsPost]
  | take max => simp [addrsOut, addrIn, nsfactsStep, queue_nsfactsTake]
  | postAddr family epoch addr =>
      have hsame : f.q.any (sameFact family epoch addr) = true ↔
          (addrFact family epoch addr).key ∈ f.q.map Nsfact.key := by
        rw [List.any_eq_true, List.mem_map]
        exact exists_congr fun e => and_congr_right fun he => sameFact_iff (f.addrs e he)
      have hfull : nsfactsMax ≤ f.q.length ↔ f.q.length = nsfactsMax :=
        ⟨fun h => le_antisymm f.within h, fun h => h.ge⟩
      simp only [addrsOut, addrIn, nsfactsStep, nsfactsPostAddr, hsame, hfull]
      split_ifs <;> simp_all

theorem slot_nsfactsPostAddr (f : Nsfacts) (family : Int) (epoch : UInt32)
    (addr : Vector UInt8 16) (kind : FactKind) :
    slot (nsfactsPostAddr f family epoch addr) kind = slot f kind := by
  unfold nsfactsPostAddr
  split_ifs
  · rfl
  · rfl
  · cases kind <;> rfl

theorem slot_nsfactsPost (f : Nsfacts) (kind kind' : FactKind) (family : Int) (epoch : UInt32)
    (i : Fam) : slot (nsfactsPost f kind family epoch) kind' i =
      if kind = kind' ∧ kind' ≠ .addr ∧ famIdx family = i then some epoch else slot f kind' i := by
  cases kind <;> cases kind' <;> simp [nsfactsPost, slot, Function.update_apply, eq_comm]

/-- The addresses handed back over a run and those still queued are the ones posted, in
their order, less those left out. -/
theorem queue_run (ops : List FactOp) :
    (observe nsfactsStep addrsOut nsfactsInit ops).flatten ++
        (run nsfactsStep nsfactsInit ops).q =
      observe nsfactsStep addrIn nsfactsInit ops := by
  induction ops using List.reverseRecOn with
  | nil => rfl
  | append_singleton ops op ih =>
      rw [observe_concat, observe_concat, run_concat, List.flatten_append, List.append_assoc,
        queue_nsfactsStep, ← List.append_assoc, ih]

/-- The end of a round stays until a call hands one back. -/
theorem done_nsfactsStep {f : Nsfacts} {i : Fam} {op : FactOp} (hdone : f.done i ≠ none)
    (hop : ¬HandsDone i f op) : (nsfactsStep f op).done i ≠ none := by
  have hslot : ∀ g : Nsfacts, g.done = slot g .probeDone := fun _ => rfl
  rw [hslot] at hdone ⊢
  cases op with
  | post kind family epoch =>
      rw [nsfactsStep, slot_nsfactsPost]
      split_ifs
      · simp
      · exact hdone
  | postAddr family epoch addr =>
      rw [nsfactsStep, slot_nsfactsPostAddr]
      exact hdone
  | take max =>
      have hkept : ¬HandsBack (nsfactsTake max f).1 .probeDone i := hop
      rw [nsfactsStep, slot_nsfactsTake max f (by decide), if_neg hkept]
      exact hdone

theorem done_posted (f : Nsfacts) {i : Fam} {op : FactOp} (hop : EndsRound i op) :
    (nsfactsStep f op).done i ≠ none := by
  match op, hop with
  | .post .probeDone family epoch, hop => simp [nsfactsStep, nsfactsPost, hop.symm]

/-- The ends of rounds are handed back after all else, and only where nothing else stays. -/
theorem done_nsfactsTake (max : Nat) (f : Nsfacts) :
    ∃ others ends, (nsfactsTake max f).1 = others ++ ends ∧
      (∀ e ∈ others, e.kind ≠ .probeDone) ∧ (∀ e ∈ ends, e.kind = .probeDone) ∧
      (ends ≠ [] → (nsfactsTake max f).2.q = [] ∧ (nsfactsTake max f).2.rt = (fun _ => none) ∧
        (nsfactsTake max f).2.more = fun _ => none) := by
  obtain ⟨hout, hleft⟩ := nsfactsTake_queued max f
  have hqueued : queued f = (slotFacts .roundtrip f.rt ++ slotFacts .servers f.more ++ f.q) ++
      slotFacts .probeDone f.done := rfl
  rw [hqueued, List.take_append] at hout
  rw [hqueued, List.drop_append] at hleft
  have hfront : ∀ e ∈ slotFacts .roundtrip f.rt ++ slotFacts .servers f.more ++ f.q,
      e.kind ≠ .probeDone := by
    intro e he
    rcases List.mem_append.mp he with he | he
    · rcases List.mem_append.mp he with he | he <;>
        obtain ⟨i, epoch, -, rfl⟩ := mem_slotFacts.1 he <;> simp
    · rw [f.addrs e he]
      decide
  have hback : ∀ e ∈ slotFacts .probeDone f.done, e.kind = .probeDone := by
    intro e he
    obtain ⟨i, epoch, -, rfl⟩ := mem_slotFacts.1 he
    rfl
  refine ⟨_, _, hout, fun e he => hfront e (List.mem_of_mem_take he),
    fun e he => hback e (List.mem_of_mem_take he), ?_⟩
  intro hends
  -- an end is handed back only where there is room for all that stands before it
  rw [List.drop_eq_nil_of_le, List.nil_append] at hleft
  · have hdone : ∀ e ∈ queued (nsfactsTake max f).2, e.kind = .probeDone := by
      intro e he
      rw [hleft] at he
      exact hback e (List.mem_of_mem_drop he)
    have hslot : ∀ kind, kind ≠ .addr → kind ≠ .probeDone →
        slot (nsfactsTake max f).2 kind = fun _ => none := by
      intro kind haddr hne
      funext i
      rw [Option.eq_none_iff_forall_not_mem]
      intro epoch hset
      exact hne (hdone _ ((emit_mem_queued haddr).mpr hset))
    refine ⟨?_, hslot .roundtrip (by decide) (by decide), hslot .servers (by decide) (by decide)⟩
    rw [List.eq_nil_iff_forall_not_mem]
    intro e he
    have hkind := hdone e (by simp [queued, he])
    rw [(nsfactsTake max f).2.addrs e he] at hkind
    cases hkind
  · by_contra hroom
    apply hends
    rw [Nat.sub_eq_zero_of_le (by omega), List.take_zero]

/-- What a run of posts and takes keeps to: addresses come out in the order they went in, no
two of those handed back and those still queued are the same, one is left out only where
the same one or `NSFACTS_MAX` are queued, the end of a round stays until one is handed
back, and it is handed back after all else. -/
theorem nsfacts_order (ops : List FactOp) :
    ((observe nsfactsStep addrsOut nsfactsInit ops).flatten ++
        (run nsfactsStep nsfactsInit ops).q =
      observe nsfactsStep addrIn nsfactsInit ops) ∧
    (∀ max, (((nsfactsTake max (run nsfactsStep nsfactsInit ops)).1.filter (·.kind = .addr) ++
      (nsfactsTake max (run nsfactsStep nsfactsInit ops)).2.q).map Nsfact.key).Nodup) ∧
    (∀ i pre op post, ops = pre ++ op :: post → EndsRound i op →
      EveryStep nsfactsStep (fun f op => ¬HandsDone i f op)
        (run nsfactsStep nsfactsInit (pre ++ [op])) post →
      (run nsfactsStep nsfactsInit ops).done i ≠ none) ∧
    ∀ max, ∃ others ends, (nsfactsTake max (run nsfactsStep nsfactsInit ops)).1 = others ++ ends ∧
      (∀ e ∈ others, e.kind ≠ .probeDone) ∧ (∀ e ∈ ends, e.kind = .probeDone) ∧
      (ends ≠ [] → (nsfactsTake max (run nsfactsStep nsfactsInit ops)).2.q = [] ∧
        (nsfactsTake max (run nsfactsStep nsfactsInit ops)).2.rt = (fun _ => none) ∧
        (nsfactsTake max (run nsfactsStep nsfactsInit ops)).2.more = fun _ => none) := by
  refine ⟨queue_run ops, ?_, ?_, fun max => done_nsfactsTake max _⟩
  · intro max
    rw [queue_nsfactsTake]
    exact (run nsfactsStep nsfactsInit ops).distinct
  · rintro i pre op post rfl hop hpost
    have hrun : run nsfactsStep nsfactsInit (pre ++ op :: post) =
        run nsfactsStep (run nsfactsStep nsfactsInit (pre ++ [op])) post := by
      simp [run]
    rw [hrun]
    refine run_invariant_of_everyStep (I := fun f => f.done i ≠ none)
      (fun f op hf hop => done_nsfactsStep hf hop) ?_ hpost
    rw [run_concat]
    exact done_posted _ hop

/-! ## The newest epoch -/

/-- The facts with the highest epoch posted of each kind and family since one of them was
last handed back. -/
structure Posted where
  facts : Nsfacts
  high : FactKind → Slots

def postedInit : Posted where
  facts := nsfactsInit
  high := fun _ _ => none

/-- The higher of the epochs posted. -/
def higher (epoch : UInt32) : Option UInt32 → UInt32
  | none => epoch
  | some held => if held ≤ epoch then epoch else held

def postedStep (s : Posted) (op : FactOp) : Posted where
  facts := nsfactsStep s.facts op
  high := fun kind i =>
    match op with
    | .post posted family epoch =>
        if posted = kind ∧ famIdx family = i then some (higher epoch (s.high kind i))
        else s.high kind i
    | .postAddr _ _ _ => s.high kind i
    | .take max => if HandsBack (nsfactsTake max s.facts).1 kind i then none else s.high kind i

/-- Every fact that a take of any room would hand back, an address apart, has the highest
epoch posted. -/
def Newest (s : Posted) : Prop :=
  ∀ max, ∀ e ∈ (nsfactsTake max s.facts).1, e.kind ≠ .addr →
    s.high e.kind (famIdx e.family) = some e.epoch

/-- A post finds no newer epoch in its slot. -/
def InOrder (s : Posted) : FactOp → Prop
  | .post kind family epoch => ∀ held, slot s.facts kind (famIdx family) = some held → held ≤ epoch
  | _ => True

theorem newest_iff {s : Posted}
    (hset : ∀ kind i, kind ≠ .addr → (s.high kind i).isSome = (slot s.facts kind i).isSome) :
    Newest s ↔ ∀ kind i, kind ≠ .addr → s.high kind i = slot s.facts kind i := by
  constructor
  · intro h kind i hkind
    cases hslot : slot s.facts kind i with
    | none => simpa [hslot] using hset kind i hkind
    | some epoch =>
        -- a take with room for all of them hands this one back
        have hmem : emit kind i epoch ∈ (nsfactsTake (queued s.facts).length s.facts).1 := by
          rw [(nsfactsTake_queued _ _).1, List.take_length, emit_mem_queued hkind]
          exact hslot
        simpa using h _ _ hmem (by simpa using hkind)
  · intro h max e he hkind
    rw [(nsfactsTake_queued _ _).1] at he
    obtain ⟨i, epoch, hslot, heq⟩ := (mem_queued_iff hkind).mp (List.mem_of_mem_take he)
    rw [h _ _ hkind]
    rw [heq] at hslot ⊢
    simpa using hslot

/-- A slot is set where its kind was posted for the family since it was last handed back. -/
theorem high_isSome (ops : List FactOp) (kind : FactKind) (i : Fam) (hkind : kind ≠ .addr) :
    ((run postedStep postedInit ops).high kind i).isSome =
      (slot (run postedStep postedInit ops).facts kind i).isSome := by
  induction ops using List.reverseRecOn with
  | nil => cases kind <;> rfl
  | append_singleton ops op ih =>
      rw [run_concat]
      cases op with
      | post posted family epoch =>
          simp only [postedStep, nsfactsStep, slot_nsfactsPost, hkind, ne_eq, not_false_eq_true,
            true_and]
          split_ifs
          · rfl
          · exact ih
      | postAddr family epoch addr =>
          simp only [postedStep, nsfactsStep, slot_nsfactsPostAddr]
          exact ih
      | take max =>
          simp only [postedStep, nsfactsStep, slot_nsfactsTake max _ hkind]
          split_ifs
          · rfl
          · exact ih

theorem higher_eq_iff {epoch : UInt32} {held : Option UInt32} :
    higher epoch held = epoch ↔ ∀ x, held = some x → x ≤ epoch := by
  cases held with
  | none => simp [higher]
  | some x =>
      simp only [higher, Option.some.injEq, forall_eq', ite_eq_left_iff]
      constructor
      · intro h
        by_contra hlt
        rw [h hlt] at hlt
        exact hlt (UInt32.le_refl epoch)
      · intro h hlt
        exact absurd h hlt

theorem newest_postedStep {ops : List FactOp} {op : FactOp}
    (h : Newest (run postedStep postedInit ops)) :
    Newest (run postedStep postedInit (ops ++ [op])) ↔
      InOrder (run postedStep postedInit ops) op := by
  have hset := high_isSome (ops ++ [op])
  rw [newest_iff (fun kind i => high_isSome ops kind i)] at h
  rw [newest_iff (fun kind i => hset kind i)]
  rw [run_concat]
  generalize run postedStep postedInit ops = s at h
  cases op with
  | post posted family epoch =>
      simp only [postedStep, nsfactsStep, slot_nsfactsPost, InOrder, ← higher_eq_iff]
      constructor
      · intro hnew
        by_cases hkind : posted = .addr
        · rw [hkind]
          rfl
        · have hposted := hnew posted (famIdx family) hkind
          rw [if_pos ⟨rfl, rfl⟩, if_pos ⟨rfl, hkind, rfl⟩, h _ _ hkind] at hposted
          exact Option.some.inj hposted
      · intro hnew kind i hkind
        rw [h kind i hkind]
        by_cases hslot : posted = kind ∧ famIdx family = i
        · obtain ⟨rfl, rfl⟩ := hslot
          rw [if_pos ⟨rfl, rfl⟩, if_pos ⟨rfl, hkind, rfl⟩, hnew]
        · rw [if_neg hslot, if_neg (fun hset => hslot ⟨hset.1, hset.2.2⟩)]
  | postAddr family epoch addr =>
      refine iff_of_true ?_ trivial
      intro kind i hkind
      simp only [postedStep, nsfactsStep, slot_nsfactsPostAddr]
      exact h kind i hkind
  | take max =>
      refine iff_of_true ?_ trivial
      intro kind i hkind
      simp only [postedStep, nsfactsStep, slot_nsfactsTake max _ hkind, h kind i hkind]

/-- A post of an older epoch takes the place of the newer one. -/
theorem nsfactsPost_older :
    (nsfactsTake nsfactsOut (run nsfactsStep nsfactsInit
      [.post .roundtrip 4 2, .post .roundtrip 4 1])).1 = [emit .roundtrip .v4 1] := by
  decide

/-- The facts handed back over a run have the highest epoch posted of their kind and family
exactly where no post found a newer epoch in its slot. -/
theorem nsfacts_newest (ops : List FactOp) :
    (∀ pre, pre <+: ops → Newest (run postedStep postedInit pre)) ↔
      EveryStep postedStep InOrder postedInit ops := by
  apply forall_prefix_iff_everyStep
  · intro max e he hkind
    rw [(nsfactsTake_queued _ _).1] at he
    exact absurd (List.mem_of_mem_take he) (by simp [postedInit, queued_eq_nil_iff.mpr])
  · intro pre op _ h
    exact newest_postedStep h

end Peering
end Comrade
