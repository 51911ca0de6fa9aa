import Comrade.Netstate.Model

/-!
# The facts on their way to the loop

`nsfacts.c`: what the threads learn about the network waits here for the loop that owns the
model.  An address waits in a queue of `NSFACTS_MAX`; a round trip, a family with somewhere
new to ask and the end of a probe round wait each in a slot of its family.

* A flag with its epoch is `some` epoch, and a flag that is down is `none`.
* The queue of a `Nsfacts` is within its room and holds addresses only, no two of them the
  same.

`queued` is the order in which the facts are handed back, and `nsfacts_take` is a cut of it
(`nsfactsTake_queued`).
-/

namespace Comrade
namespace Peering

open Lib Netstate

/-! ## The model -/

/-- `NSFACTS_MAX`. -/
def nsfactsMax : Nat := 16

/-- `NSFACTS_OUT`. -/
def nsfactsOut : Nat := nsfactsMax + 4

/-- `NSF_*`. -/
inductive FactKind where
  | roundtrip
  | probeDone
  | addr
  | servers
  deriving DecidableEq, Repr

/-- `struct nsfact`. -/
structure Nsfact where
  kind : FactKind
  family : Int
  epoch : UInt32
  addr : Vector UInt8 16
  deriving DecidableEq

/-- `fam_idx`. -/
def famIdx (family : Int) : Fam := if family = 6 then .v6 else .v4

/-- `addr_len`. -/
def factAddrLen (family : Int) : Nat := if family = 6 then 16 else 4

/-- The bytes of an address that its family has. -/
def famBytes (family : Int) (addr : Vector UInt8 16) : Bytes :=
  addr.toList.take (factAddrLen family)

/-- What the queue compares a fact by. -/
def Nsfact.key (e : Nsfact) : Int × UInt32 × Bytes := (e.family, e.epoch, famBytes e.family e.addr)

/-- The slots of one kind. -/
abbrev Slots := Fam → Option UInt32

/-- `struct nsfacts`. -/
@[ext] structure Nsfacts where
  q : List Nsfact
  rt : Slots
  done : Slots
  more : Slots
  within : q.length ≤ nsfactsMax
  addrs : ∀ e ∈ q, e.kind = .addr
  distinct : (q.map Nsfact.key).Nodup

/-- `nsfacts_init`. -/
def nsfactsInit : Nsfacts where
  q := []
  rt := fun _ => none
  done := fun _ => none
  more := fun _ => none
  within := Nat.zero_le _
  addrs := by simp
  distinct := List.nodup_nil

/-- `nsfacts_post`. -/
def nsfactsPost (f : Nsfacts) (kind : FactKind) (family : Int) (epoch : UInt32) : Nsfacts :=
  match kind with
  | .roundtrip => { f with rt := Function.update f.rt (famIdx family) (some epoch) }
  | .probeDone => { f with done := Function.update f.done (famIdx family) (some epoch) }
  | .servers => { f with more := Function.update f.more (famIdx family) (some epoch) }
  | .addr => f

/-- The fact that `nsfacts_post_addr` queues. -/
def addrFact (family : Int) (epoch : UInt32) (addr : Vector UInt8 16) : Nsfact where
  kind := .addr
  family := family
  epoch := epoch
  addr := Vector.ofFn fun i => if i.val < factAddrLen family then addr[i] else 0

/-- The test of its loop. -/
def sameFact (family : Int) (epoch : UInt32) (addr : Vector UInt8 16) (e : Nsfact) : Bool :=
  e.kind == .addr && e.family == family && e.epoch == epoch &&
    famBytes family e.addr == famBytes family addr

theorem famBytes_addrFact (family : Int) (epoch : UInt32) (addr : Vector UInt8 16) :
    famBytes family (addrFact family epoch addr).addr = famBytes family addr := by
  unfold famBytes
  apply List.ext_getElem
  · simp
  · intro i hi hi'
    have hlen : i < factAddrLen family := by
      rw [List.length_take] at hi
      omega
    simp [addrFact, hlen]

/-- The loop of `nsfacts_post_addr` looks for the key of the fact it would queue. -/
theorem sameFact_iff {family : Int} {epoch : UInt32} {addr : Vector UInt8 16} {e : Nsfact}
    (haddr : e.kind = .addr) :
    sameFact family epoch addr e = true ↔ e.key = (addrFact family epoch addr).key := by
  have hkey : (addrFact family epoch addr).key = (family, epoch, famBytes family addr) := by
    rw [← famBytes_addrFact family epoch addr]
    rfl
  rw [hkey]
  simp only [sameFact, haddr, Nsfact.key, Prod.mk.injEq, Bool.and_eq_true, beq_iff_eq, true_and]
  constructor
  · rintro ⟨⟨rfl, rfl⟩, hbytes⟩
    exact ⟨rfl, rfl, hbytes⟩
  · rintro ⟨rfl, rfl, hbytes⟩
    exact ⟨⟨rfl, rfl⟩, hbytes⟩

/-- `nsfacts_post_addr`. -/
def nsfactsPostAddr (f : Nsfacts) (family : Int) (epoch : UInt32) (addr : Vector UInt8 16) :
    Nsfacts :=
  if hsame : f.q.any (sameFact family epoch addr) = true then f
  else if hfull : nsfactsMax ≤ f.q.length then f
  else
    { f with
      q := f.q ++ [addrFact family epoch addr]
      within := by
        rw [List.length_append, List.length_singleton]
        omega
      addrs := by
        intro e he
        rcases List.mem_append.mp he with he | he
        · exact f.addrs e he
        · rw [List.mem_singleton.mp he]
          rfl
      distinct := by
        rw [List.map_append, List.nodup_append]
        refine ⟨f.distinct, List.nodup_singleton _, ?_⟩
        intro k hk k' hk' heq
        obtain ⟨e, he, rfl⟩ := List.mem_map.mp hk
        rw [List.map_singleton, List.mem_singleton] at hk'
        subst hk'
        exact hsame (List.any_eq_true.mpr ⟨e, he, (sameFact_iff (f.addrs e he)).mpr heq⟩) }

/-- `emit`. -/
def emit (kind : FactKind) (i : Fam) (epoch : UInt32) : Nsfact where
  kind := kind
  family := match i with
    | .v4 => 4
    | .v6 => 6
  epoch := epoch
  addr := Vector.replicate 16 0

/-- One turn of a loop over the slots, with what was handed back before it. -/
def takeSlot (kind : FactKind) (max : Nat) (i : Fam) (acc : List Nsfact × Slots) :
    List Nsfact × Slots :=
  match acc.2 i with
  | none => acc
  | some epoch =>
      if max ≤ acc.1.length then acc
      else (acc.1 ++ [emit kind i epoch], Function.update acc.2 i none)

/-- One loop over the slots of a kind. -/
def takeSlots (kind : FactKind) (max : Nat) (acc : List Nsfact × Slots) : List Nsfact × Slots :=
  takeSlot kind max .v6 (takeSlot kind max .v4 acc)

/-- `nsfacts_take`: what is handed back, and what stays. -/
def nsfactsTake (max : Nat) (f : Nsfacts) : List Nsfact × Nsfacts :=
  let rt := takeSlots .roundtrip max ([], f.rt)
  let more := takeSlots .servers max (rt.1, f.more)
  let i := min f.q.length (max - more.1.length)
  let done := takeSlots .probeDone max (more.1 ++ f.q.take i, f.done)
  (done.1,
    { q := f.q.drop i
      rt := rt.2
      done := done.2
      more := more.2
      within := (List.drop_sublist i f.q).length_le.trans f.within
      addrs := fun e he => f.addrs e (List.mem_of_mem_drop he)
      distinct := f.distinct.sublist ((List.drop_sublist i f.q).map _) })

/-- One call. -/
inductive FactOp where
  | post (kind : FactKind) (family : Int) (epoch : UInt32)
  | postAddr (family : Int) (epoch : UInt32) (addr : Vector UInt8 16)
  | take (max : Nat)

def nsfactsStep (f : Nsfacts) : FactOp → Nsfacts
  | .post kind family epoch => nsfactsPost f kind family epoch
  | .postAddr family epoch addr => nsfactsPostAddr f family epoch addr
  | .take max => (nsfactsTake max f).2

/-! ## What is queued, and in which order -/

/-- The facts of the slots of a kind. -/
def slotFacts (kind : FactKind) (slots : Slots) : List Nsfact :=
  (slots .v4).toList.map (emit kind .v4) ++ (slots .v6).toList.map (emit kind .v6)

/-- Everything queued, in the order it is handed back. -/
def queued (f : Nsfacts) : List Nsfact :=
  slotFacts .roundtrip f.rt ++ slotFacts .servers f.more ++ f.q ++ slotFacts .probeDone f.done

theorem takeSlot_eq (kind : FactKind) (max : Nat) (i : Fam) (out : List Nsfact) (slots : Slots) :
    (takeSlot kind max i (out, slots)).1 =
        out ++ ((slots i).toList.map (emit kind i)).take (max - out.length) ∧
      ((takeSlot kind max i (out, slots)).2 i).toList.map (emit kind i) =
        ((slots i).toList.map (emit kind i)).drop (max - out.length) ∧
      ∀ j, j ≠ i → (takeSlot kind max i (out, slots)).2 j = slots j := by
  unfold takeSlot
  dsimp only
  cases hslot : slots i with
  | none => simp [hslot]
  | some epoch =>
      dsimp only
      split_ifs with hfull
      · have hroom : max - out.length = 0 := by omega
        simp [hroom, hslot]
      · obtain ⟨room, hroom⟩ : ∃ room, max - out.length = room + 1 :=
          ⟨max - out.length - 1, by omega⟩
        refine ⟨by simp [hroom], by simp [hroom], ?_⟩
        intro j hj
        exact Function.update_of_ne hj _ _

/-- A loop over the slots hands back what it has room for and leaves the rest. -/
theorem takeSlots_eq (kind : FactKind) (max : Nat) (out : List Nsfact) (slots : Slots) :
    (takeSlots kind max (out, slots)).1 =
        out ++ (slotFacts kind slots).take (max - out.length) ∧
      slotFacts kind (takeSlots kind max (out, slots)).2 =
        (slotFacts kind slots).drop (max - out.length) := by
  obtain ⟨hout, hleft, hframe⟩ := takeSlot_eq kind max .v4 out slots
  obtain ⟨hout', hleft', hframe'⟩ := takeSlot_eq kind max .v6
    (takeSlot kind max .v4 (out, slots)).1 (takeSlot kind max .v4 (out, slots)).2
  have hroom : max - (takeSlot kind max .v4 (out, slots)).1.length =
      max - out.length - ((slots .v4).toList.map (emit kind .v4)).length := by
    rw [hout, List.length_append, List.length_take]
    omega
  rw [hroom, hframe .v6 (by decide)] at hout' hleft'
  unfold takeSlots slotFacts
  constructor
  · rw [hout', hout, List.append_assoc, List.take_append]
  · rw [hframe' .v4 (by decide), hleft, hleft', List.drop_append]

/-- The room left beside what was handed back of `facts`. -/
theorem room_take (max : Nat) (facts : List Nsfact) :
    max - (facts.take max).length = max - facts.length := by
  rw [List.length_take]
  omega

/-- A loop over the slots goes on with a cut of what is queued. -/
theorem takeSlots_cut (kind : FactKind) (max : Nat) (facts : List Nsfact) (slots : Slots) :
    (takeSlots kind max (facts.take max, slots)).1 = (facts ++ slotFacts kind slots).take max ∧
      facts.drop max ++ slotFacts kind (takeSlots kind max (facts.take max, slots)).2 =
        (facts ++ slotFacts kind slots).drop max := by
  obtain ⟨hout, hleft⟩ := takeSlots_eq kind max (facts.take max) slots
  rw [room_take] at hout hleft
  exact ⟨by rw [hout, List.take_append], by rw [hleft, List.drop_append]⟩

/-- The addresses handed back, and those that stay. -/
theorem queue_cut (max : Nat) (facts q : List Nsfact) :
    facts.take max ++ q.take (min q.length (max - (facts.take max).length)) =
        (facts ++ q).take max ∧
      facts.drop max ++ q.drop (min q.length (max - (facts.take max).length)) =
        (facts ++ q).drop max := by
  rw [room_take, min_comm, ← List.take_eq_take_min, ← List.drop_eq_drop_min, List.take_append,
    List.drop_append]
  exact ⟨rfl, rfl⟩

/-- `nsfacts_take` cuts the queued facts. -/
theorem nsfactsTake_queued (max : Nat) (f : Nsfacts) :
    (nsfactsTake max f).1 = (queued f).take max ∧
      queued (nsfactsTake max f).2 = (queued f).drop max := by
  obtain ⟨hrt, hrt'⟩ := takeSlots_cut .roundtrip max [] f.rt
  simp only [List.take_nil, List.drop_nil, List.nil_append] at hrt hrt'
  obtain ⟨hmore, hmore'⟩ := takeSlots_cut .servers max (slotFacts .roundtrip f.rt) f.more
  obtain ⟨hq, hq'⟩ := queue_cut max (slotFacts .roundtrip f.rt ++ slotFacts .servers f.more) f.q
  obtain ⟨hdone, hdone'⟩ := takeSlots_cut .probeDone max
    (slotFacts .roundtrip f.rt ++ slotFacts .servers f.more ++ f.q) f.done
  unfold nsfactsTake queued
  dsimp only
  rw [hrt, hmore, hq]
  exact ⟨hdone, by rw [hrt', hmore', hq', hdone']⟩

/-- The number of slots that are set. -/
def slotsSet (f : Nsfacts) : Nat :=
  [f.rt .v4, f.rt .v6, f.more .v4, f.more .v6, f.done .v4, f.done .v6].countP Option.isSome

theorem length_slotFacts (kind : FactKind) (slots : Slots) :
    (slotFacts kind slots).length = [slots .v4, slots .v6].countP Option.isSome := by
  unfold slotFacts
  cases slots .v4 <;> cases slots .v6 <;> rfl

theorem length_queued (f : Nsfacts) : (queued f).length = f.q.length + slotsSet f := by
  have hsplit : slotsSet f = [f.rt .v4, f.rt .v6].countP Option.isSome +
      [f.more .v4, f.more .v6].countP Option.isSome +
      [f.done .v4, f.done .v6].countP Option.isSome := by
    rw [← List.countP_append, ← List.countP_append]
    rfl
  simp only [queued, List.length_append, length_slotFacts, hsplit]
  omega

theorem slotFacts_eq_nil {kind : FactKind} {slots : Slots} (h : slotFacts kind slots = []) :
    slots = fun _ => none := by
  rw [slotFacts, List.append_eq_nil_iff, List.map_eq_nil_iff, List.map_eq_nil_iff,
    Option.toList_eq_nil_iff, Option.toList_eq_nil_iff] at h
  funext i
  cases i with
  | v4 => exact h.1
  | v6 => exact h.2

/-- Nothing is queued in the state that `nsfacts_init` makes, and in no other. -/
theorem queued_eq_nil_iff {f : Nsfacts} : queued f = [] ↔ f = nsfactsInit := by
  constructor
  · intro h
    simp only [queued, List.append_eq_nil_iff] at h
    obtain ⟨⟨⟨hrt, hmore⟩, hq⟩, hdone⟩ := h
    exact Nsfacts.ext hq (slotFacts_eq_nil hrt) (slotFacts_eq_nil hdone) (slotFacts_eq_nil hmore)
  · rintro rfl
    rfl

/-- A take with `NSFACTS_OUT` hands back the lot and leaves nothing exactly where no more than
`NSFACTS_OUT` facts are queued. -/
theorem nsfactsTake_all (ops : List FactOp) :
    (nsfactsTake nsfactsOut (run nsfactsStep nsfactsInit ops)).1 =
          queued (run nsfactsStep nsfactsInit ops) ∧
        (nsfactsTake nsfactsOut (run nsfactsStep nsfactsInit ops)).2 = nsfactsInit ↔
      (run nsfactsStep nsfactsInit ops).q.length + slotsSet (run nsfactsStep nsfactsInit ops) ≤
        nsfactsOut := by
  generalize run nsfactsStep nsfactsInit ops = f
  obtain ⟨hout, hleft⟩ := nsfactsTake_queued nsfactsOut f
  rw [← queued_eq_nil_iff, hout, hleft, List.take_eq_self_iff, List.drop_eq_nil_iff, and_self,
    length_queued]

/-- Posts that fill every slot of both families and the whole queue. -/
def burst : List FactOp :=
  [.post .roundtrip 4 1, .post .roundtrip 6 1, .post .servers 4 1, .post .servers 6 1,
    .post .probeDone 4 1, .post .probeDone 6 1] ++
  (List.range nsfactsMax).map fun n => .postAddr 4 1 (Vector.replicate 16 (UInt8.ofNat n))

/-- After a burst a take with `NSFACTS_OUT` leaves the ends of both probe rounds behind. -/
theorem nsfactsTake_burst :
    queued (nsfactsTake nsfactsOut (run nsfactsStep nsfactsInit burst)).2 =
      [emit .probeDone .v4 1, emit .probeDone .v6 1] := by
  decide

end Peering
end Comrade
