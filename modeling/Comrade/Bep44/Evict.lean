import Comrade.Lib.Nearest
import Comrade.Bep44.StoreRun

/-!
# What a full store keeps

A store that has no room left admits an item only in the place of the one furthest from the
node's own id, and only if the item is nearer than that one.

* `closer` is the order of the targets by their XOR distance to an id; it is total, for two
  targets at one distance are the same (`closer_total`).
* `putStore_nearest`: one put keeps the store at the nearest of what was put.
* `held_closest`: over a run in which nothing runs out, the targets held are the `cap`
  nearest of those put, whatever the order of the puts.
-/

namespace Comrade
namespace Bep44

open Lib Bencode

variable {cap : Nat}

/-! ## Distances -/

/-- Two targets at the same distance from an id are the same. -/
theorem distCalc_left_injective (id : Id20) : Function.Injective fun a => distCalc a id := by
  intro a b h
  apply Vector.ext
  intro i hi
  have hi' := congrArg (fun v : Id20 => v[i]) h
  simp only [distCalc, Vector.getElem_zipWith] at hi'
  simpa using hi'

/-- The first target is nearer to the id than the second. -/
def closer (myid a b : Id20) : Prop := idCmp (distCalc a myid) (distCalc b myid) < 0

instance (myid : Id20) : DecidableRel (closer myid) := fun a b =>
  inferInstanceAs (Decidable (idCmp (distCalc a myid) (distCalc b myid) < 0))

instance (myid : Id20) : IsTrans Id20 (closer myid) where
  trans _ _ _ hab hbc := idCmp_lt_trans hab hbc

theorem closer_asymm {myid a b : Id20} (h : closer myid a b) : ¬closer myid b a := by
  unfold closer at *
  rw [idCmp_swap]
  omega

theorem closer_total {myid a b : Id20} (hne : a ≠ b) (h : ¬closer myid a b) : closer myid b a := by
  unfold closer at *
  have hzero : idCmp (distCalc a myid) (distCalc b myid) ≠ 0 := by
    intro h0
    exact hne (distCalc_left_injective myid (idCmp_eq_zero_iff.mp h0))
  rw [idCmp_swap]
  omega

/-! ## The targets held -/

/-- The targets that a store holds an item for. -/
def heldTargets (s : Store cap) : Finset Id20 :=
  Finset.univ.biUnion fun i => ((s i).map B44Item.target).toFinset

theorem mem_heldTargets {s : Store cap} {t : Id20} :
    t ∈ heldTargets s ↔ ∃ i it, s i = some it ∧ it.target = t := by
  simp [heldTargets, Option.map_eq_some_iff]

/-- With one item for a target, the targets are as many as the items. -/
theorem card_heldTargets {s : Store cap}
    (hunique : UniqueKey (Option.map B44Item.target) Option.isSome s) :
    (heldTargets s).card = slotCount s Option.isSome := by
  have hone : ∀ i, ((s i).map B44Item.target).toFinset.card =
      if (s i).isSome = true then 1 else 0 := by
    intro i
    cases s i <;> rfl
  unfold heldTargets slotCount
  rw [Finset.card_biUnion, Finset.card_filter]
  · exact Finset.sum_congr rfl fun i _ => hone i
  · intro i _ j _ hij
    show Disjoint ((s i).map B44Item.target).toFinset ((s j).map B44Item.target).toFinset
    rw [Finset.disjoint_left]
    intro t hti htj
    rw [Option.mem_toFinset, Option.mem_def] at hti htj
    apply hij
    apply hunique i j
    · cases hs : s i <;> simp [hs] at hti ⊢
    · cases hs : s j <;> simp [hs] at htj ⊢
    · rw [hti, htj]

theorem heldTargets_update (s : Store cap) (i : Fin cap) (it : B44Item) :
    ∀ t, t ∈ heldTargets (Function.update s i (some it)) ↔
      t = it.target ∨ ∃ j it', j ≠ i ∧ s j = some it' ∧ it'.target = t := by
  intro t
  rw [mem_heldTargets]
  constructor
  · rintro ⟨j, it', hj, ht⟩
    by_cases hji : j = i
    · subst hji
      rw [Function.update_self, Option.some.injEq] at hj
      subst hj
      exact Or.inl ht.symm
    · rw [Function.update_of_ne hji] at hj
      exact Or.inr ⟨j, it', hji, hj, ht⟩
  · rintro (rfl | ⟨j, it', hji, hj, ht⟩)
    · exact ⟨i, it, Function.update_self .., rfl⟩
    · exact ⟨j, it', by rw [Function.update_of_ne hji]; exact hj, ht⟩

/-- An item written in the place of one for the same target. -/
theorem heldTargets_same {s : Store cap} {i : Fin cap} {it it' : B44Item} (hi : s i = some it)
    (ht : it'.target = it.target) :
    heldTargets (Function.update s i (some it')) = heldTargets s := by
  ext t
  rw [heldTargets_update, mem_heldTargets, ht]
  constructor
  · rintro (rfl | ⟨j, it₁, -, hj, hjt⟩)
    · exact ⟨i, it, hi, rfl⟩
    · exact ⟨j, it₁, hj, hjt⟩
  · rintro ⟨j, it₁, hj, hjt⟩
    by_cases hji : j = i
    · subst hji
      rw [hi, Option.some.injEq] at hj
      subst hj
      exact Or.inl hjt.symm
    · exact Or.inr ⟨j, it₁, hji, hj, hjt⟩

/-- An item written in a free slot. -/
theorem heldTargets_free {s : Store cap} {i : Fin cap} {it : B44Item} (hi : s i = none) :
    heldTargets (Function.update s i (some it)) = insert it.target (heldTargets s) := by
  ext t
  rw [heldTargets_update, Finset.mem_insert, mem_heldTargets]
  apply or_congr_right
  constructor
  · rintro ⟨j, it', -, hj, ht⟩
    exact ⟨j, it', hj, ht⟩
  · rintro ⟨j, it', hj, ht⟩
    refine ⟨j, it', ?_, hj, ht⟩
    rintro rfl
    rw [hi] at hj
    cases hj

/-- An item written in the place of another. -/
theorem heldTargets_evict {s : Store cap}
    (hunique : UniqueKey (Option.map B44Item.target) Option.isSome s) {i : Fin cap}
    {victim it : B44Item} (hi : s i = some victim) :
    heldTargets (Function.update s i (some it)) =
      insert it.target ((heldTargets s).erase victim.target) := by
  ext t
  rw [heldTargets_update, Finset.mem_insert, Finset.mem_erase, mem_heldTargets]
  apply or_congr_right
  constructor
  · rintro ⟨j, it', hji, hj, rfl⟩
    refine ⟨?_, j, it', hj, rfl⟩
    intro heq
    apply hji
    apply hunique j i
    · rw [hj]
      rfl
    · rw [hi]
      rfl
    · rw [hj, hi]
      exact congrArg some heq
  · rintro ⟨hne, j, it', hj, rfl⟩
    refine ⟨j, it', ?_, hj, rfl⟩
    rintro rfl
    rw [hi, Option.some.injEq] at hj
    exact hne (congrArg B44Item.target hj).symm

/-! ## The victim -/

/-- What the second loop of `store_free_slot` has found so far: the furthest of the items
looked at, with its distance. -/
def VictimOf (s : Store cap) (myid : Id20) (looked : List (Fin cap)) :
    Option (Fin cap × Id20) → Prop
  | none => ∀ i ∈ looked, s i = none
  | some (v, d) =>
      (∃ it, s v = some it ∧ d = distCalc it.target myid) ∧
        ∀ i ∈ looked, ∀ it, s i = some it → idCmp (distCalc it.target myid) d ≤ 0

theorem storeVictim_spec (s : Store cap) (myid : Id20) :
    VictimOf s myid (List.finRange cap) (storeVictim s myid) := by
  unfold storeVictim
  induction List.finRange cap using List.reverseRecOn with
  | nil => exact fun i hi => nomatch hi
  | append_singleton looked i ih =>
      rw [List.foldl_concat]
      generalize looked.foldl _ none = found at ih
      cases hi : s i with
      | none =>
          -- an empty slot changes nothing
          simp only
          cases found with
          | none =>
              intro j hj
              rw [List.mem_append, List.mem_singleton] at hj
              rcases hj with hj | rfl
              · exact ih j hj
              · exact hi
          | some vd =>
              refine ⟨ih.1, ?_⟩
              intro j hj it hit
              rw [List.mem_append, List.mem_singleton] at hj
              rcases hj with hj | rfl
              · exact ih.2 j hj it hit
              · rw [hi] at hit
                cases hit
      | some it =>
          cases found with
          | none =>
              refine ⟨⟨it, hi, rfl⟩, ?_⟩
              intro j hj it' hit'
              rw [List.mem_append, List.mem_singleton] at hj
              rcases hj with hj | rfl
              · rw [ih j hj] at hit'
                cases hit'
              · rw [hi, Option.some.injEq] at hit'
                subst hit'
                exact (idCmp_eq_zero_iff.mpr rfl).le
          | some vd =>
              obtain ⟨v, d⟩ := vd
              obtain ⟨hv, hfurthest⟩ := ih
              simp only
              by_cases hgt : idCmp (distCalc it.target myid) d > 0
              · rw [if_pos hgt]
                refine ⟨⟨it, hi, rfl⟩, ?_⟩
                intro j hj it' hit'
                rw [List.mem_append, List.mem_singleton] at hj
                rcases hj with hj | rfl
                · -- what was no further than the old victim is nearer than the new one
                  have hle := hfurthest j hj it' hit'
                  have hlt : idCmp d (distCalc it.target myid) ≤ 0 := by
                    rw [idCmp_swap]
                    omega
                  exact idCmp_le_trans hle hlt
                · rw [hi, Option.some.injEq] at hit'
                  subst hit'
                  exact (idCmp_eq_zero_iff.mpr rfl).le
              · rw [if_neg hgt]
                refine ⟨hv, ?_⟩
                intro j hj it' hit'
                rw [List.mem_append, List.mem_singleton] at hj
                rcases hj with hj | rfl
                · exact hfurthest j hj it' hit'
                · rw [hi, Option.some.injEq] at hit'
                  subst hit'
                  exact not_lt.mp hgt

/-! ## One put -/

/-- A store with a free slot holds fewer items than it has slots, and one without holds as
many. -/
theorem slotCount_isSome_lt {s : Store cap} {i : Fin cap} (hi : s i = none) :
    slotCount s Option.isSome < cap := by
  have hlt : slotCount s Option.isSome < (Finset.univ : Finset (Fin cap)).card := by
    apply Finset.card_lt_card
    rw [Finset.filter_ssubset]
    exact ⟨i, Finset.mem_univ i, by simp [hi]⟩
  simpa using hlt

theorem slotCount_isSome_full {s : Store cap} (hfull : ∀ i, (s i).isSome = true) :
    slotCount s Option.isSome = cap := by
  unfold slotCount
  rw [Finset.filter_true_of_mem fun i _ => hfull i]
  simp

/-- Making room for a target that is not held, and writing it there. -/
theorem storeFreeSlot_nearest {s : Store cap} {myid : Id20} {seen : Finset Id20} {it : B44Item}
    (hunique : UniqueKey (Option.map B44Item.target) Option.isSome s)
    (h : Nearest (closer myid) cap seen (heldTargets s)) (hnew : it.target ∉ heldTargets s) :
    (∃ s', storeFreeSlot s myid it.target = (s', none) ∧ s' = s ∧
        Nearest (closer myid) cap (insert it.target seen) (heldTargets s)) ∨
      ∃ s' i, storeFreeSlot s myid it.target = (s', some i) ∧
        Nearest (closer myid) cap (insert it.target seen)
          (heldTargets (Function.update s' i (some it))) := by
  have hcard := card_heldTargets hunique
  unfold storeFreeSlot
  cases hfree : firstSlot s Option.isNone with
  | some i =>
      right
      have hi : s i = none := by simpa using firstSlot_spec hfree
      refine ⟨s, i, rfl, ?_⟩
      rw [heldTargets_free hi]
      exact h.add hnew (hcard.symm ▸ slotCount_isSome_lt hi)
  | none =>
      have hall : ∀ i, (s i).isSome = true := by
        intro i
        have := firstSlot_eq_none_iff.mp hfree i
        cases hs : s i <;> simp [hs] at this ⊢
      have hfull : (heldTargets s).card = cap := hcard.trans (slotCount_isSome_full hall)
      have hspec := storeVictim_spec s myid
      cases hv : storeVictim s myid with
      | none =>
          -- only a store with no slot at all has no victim
          left
          rw [hv] at hspec
          refine ⟨s, rfl, rfl, h.decline hfull ?_⟩
          intro a ha
          obtain ⟨i, it', hi, -⟩ := mem_heldTargets.1 ha
          rw [hspec i (List.mem_finRange i)] at hi
          cases hi
      | some vd =>
          obtain ⟨v, d⟩ := vd
          rw [hv] at hspec
          obtain ⟨⟨victim, hvictim, rfl⟩, hfurthest⟩ := hspec
          have hle : ∀ a ∈ heldTargets s,
              idCmp (distCalc a myid) (distCalc victim.target myid) ≤ 0 := by
            intro a ha
            obtain ⟨i, it', hi, rfl⟩ := mem_heldTargets.1 ha
            exact hfurthest i (List.mem_finRange i) it' hi
          simp only
          by_cases hfar : idCmp (distCalc it.target myid) (distCalc victim.target myid) ≥ 0
          · left
            rw [if_pos hfar]
            refine ⟨s, rfl, rfl, h.decline hfull ?_⟩
            intro a ha
            refine closer_total (fun heq => hnew (heq ▸ ha)) ?_
            intro hnear
            -- nearer than one held would be nearer than the furthest
            have hlt : idCmp (distCalc it.target myid) (distCalc victim.target myid) < 0 := by
              by_cases heq : idCmp (distCalc a myid) (distCalc victim.target myid) = 0
              · rw [← idCmp_eq_zero_iff.mp heq]
                exact hnear
              · have hav : idCmp (distCalc a myid) (distCalc victim.target myid) < 0 :=
                  lt_of_le_of_ne (hle a ha) heq
                exact idCmp_lt_trans hnear hav
            omega
          · right
            rw [if_neg hfar]
            refine ⟨_, v, rfl, ?_⟩
            rw [Function.update_idem, heldTargets_evict hunique hvictim]
            refine h.replace hnew hfull (mem_heldTargets.2 ⟨v, victim, hvictim, rfl⟩) ?_
              (not_le.mp hfar)
            intro a ha hne
            refine closer_total (Ne.symm hne) ?_
            intro hnear
            have hge := hle a ha
            have hswap := idCmp_swap (distCalc victim.target myid) (distCalc a myid)
            unfold closer at hnear
            omega

/-- A put that is acknowledged keeps the store at the nearest of what was put, and one that
is not leaves it as it was. -/
theorem putStore_nearest {s : Store cap} {myid : Id20} {seen : Finset Id20} (r : PutReq)
    (env : Env) (hunique : UniqueKey (Option.map B44Item.target) Option.isSome s)
    (h : Nearest (closer myid) cap seen (heldTargets s)) :
    ((putStore myid r env s).2 = .ack →
      Nearest (closer myid) cap (insert r.target seen) (heldTargets (putStore myid r env s).1)) ∧
    ((putStore myid r env s).2 ≠ .ack → (putStore myid r env s).1 = s) := by
  unfold putStore
  cases hat : storeItemAt s r.target with
  | some iit =>
      obtain ⟨i, it⟩ := iit
      obtain ⟨hi, htarget⟩ := storeItemAt_some hat
      have hagain : Nearest (closer myid) cap (insert r.target seen) (heldTargets s) :=
        h.again (mem_heldTargets.2 ⟨i, it, hi, htarget⟩)
      -- whatever is written here is for the target that was held
      have hwrite : ∀ it' : B44Item, it'.target = it.target →
          Nearest (closer myid) cap (insert r.target seen)
            (heldTargets (Function.update s i (some it'))) := by
        intro it' ht
        rw [heldTargets_same hi ht]
        exact hagain
      simp only
      split
      · simp
      split
      · exact ⟨fun _ => hwrite _ rfl, fun hne => absurd rfl hne⟩
      split
      · simp
      split
      · exact ⟨fun _ => hwrite _ rfl, fun hne => absurd rfl hne⟩
      split
      · simp
      split
      · simp
      · refine ⟨fun _ => hwrite _ ?_, fun hne => absurd rfl hne⟩
        rw [r.item_target, htarget]
  | none =>
      simp only
      split
      · simp
      have hnew : (r.item env.now).target ∉ heldTargets s := by
        rw [r.item_target, mem_heldTargets]
        rintro ⟨i, it, hi, ht⟩
        exact storeItemAt_none hat hi ht
      rcases storeFreeSlot_nearest hunique h hnew with ⟨s', heq, rfl, hn⟩ | ⟨s', i, heq, hn⟩
      · rw [r.item_target] at heq hn
        simp only [heq]
        exact ⟨fun _ => hn, fun _ => trivial⟩
      · rw [r.item_target] at heq hn
        simp only [heq]
        exact ⟨fun _ => hn, fun hne => absurd rfl hne⟩

/-! ## Runs -/

/-- The target of a put that is acknowledged. -/
def ackedTarget (C : Crypto) (e : Engine cap) : ServerEvent → Option Id20
  | .input buf addr env =>
      if (bep44Input C e buf addr env).reply e = some .ack then
        (queryArgs buf).bind fun args =>
          (putCheck C e { addr := addr, args := args, want4 := false, want6 := false }).toOption.map
            PutReq.target
      else none
  | _ => none

/-- No item runs out at the event. -/
def NothingExpires (e : Engine cap) : ServerEvent → Prop
  | .input _ _ env => ∀ i, ((e.store i).all fun it => !it.expired env.now) = true
  | .periodic now _ => ∀ i, ((e.store i).all fun it => !it.expired now) = true
  | _ => True

instance (e : Engine cap) : DecidablePred (NothingExpires e)
  | .input _ _ env => inferInstanceAs
      (Decidable (∀ i, ((e.store i).all fun it => !it.expired env.now) = true))
  | .periodic now _ => inferInstanceAs
      (Decidable (∀ i, ((e.store i).all fun it => !it.expired now) = true))
  | .serve _ _ _ => isTrue trivial
  | .ratelimit _ _ => isTrue trivial
  | .learn _ _ => isTrue trivial

theorem storeExpire_self {s : Store cap} {now : Nat}
    (h : ∀ i, ((s i).all fun it => !it.expired now) = true) : storeExpire s now = s := by
  funext i
  have hi := h i
  cases hs : s i with
  | none => simp [storeExpire, hs]
  | some it =>
      have hlive : it.expired now = false := by simpa [hs] using hi
      simp [storeExpire, hs, hlive]

theorem serverStep_myid (C : Crypto) (e : Engine cap) (ev : ServerEvent) :
    (serverStep C e ev).myid = e.myid := by
  cases ev with
  | input buf addr env =>
      simp only [serverStep, bep44Input, queryHandle]
      split
      · split
        · rfl
        · split
          · rfl
          · split
            · rfl
            · split
              · rfl
              · split <;> rfl
      · rfl
  | periodic now fresh =>
      simp only [serverStep, bep44Periodic, tokenRotate]
      split
      · rfl
      · split
        · rfl
        · split <;> rfl
  | serve enable secrets now =>
      simp only [serverStep, bep44Serve]
      split
      · rfl
      · split
        · rfl
        · split <;> rfl
  | ratelimit rate seconds => rfl
  | learn i c => rfl

/-- What a datagram comes to: the store is at most expired and the put, if it was one, was
not acknowledged; or a put that passed its checks acts on the expired store. -/
theorem bep44Input_put (C : Crypto) (e : Engine cap) (buf : Bytes) (addr : Sockaddr) (env : Env) :
    (((bep44Input C e buf addr env).engine.store = e.store ∨
        (bep44Input C e buf addr env).engine.store = storeExpire e.store env.now) ∧
      (bep44Input C e buf addr env).reply e ≠ some .ack) ∨
    ∃ args r, queryArgs buf = some args ∧
      putCheck C e { addr := addr, args := args, want4 := false, want6 := false } = .ok r ∧
      (bep44Input C e buf addr env).engine.store =
        (putStore e.myid r env (storeExpire e.store env.now)).1 ∧
      (bep44Input C e buf addr env).reply e =
        some (putStore e.myid r env (storeExpire e.store env.now)).2 := by
  unfold bep44Input
  by_cases hy : dictStr buf (ascii ['y']) = some (ascii ['q'])
  swap
  · rw [if_neg hy]
    exact Or.inl ⟨Or.inl rfl, by simp [Served.reply]⟩
  rw [if_pos hy]
  unfold Served.reply
  rcases queryHandle_cases C e buf addr env with ⟨hplan, hstore⟩ | ⟨bans, isPut, hplan, hstore⟩
  · rw [hplan, hstore]
    exact Or.inl ⟨Or.inl rfl, by simp⟩
  · rw [hplan, hstore, Option.map_some]
    rcases queryPlan_cases C { e with bans := bans } isPut buf addr env with
      ⟨err, hp⟩ | ⟨reply, hp⟩ | ⟨args, r, hargs, hcheck, hp⟩
    · rw [hp]
      exact Or.inl ⟨Or.inl rfl, by simp [B44Plan.run]⟩
    · rw [hp]
      exact Or.inl ⟨Or.inr rfl, by simp [B44Plan.run]⟩
    · rw [hp]
      exact Or.inr ⟨args, r, hargs, hcheck, rfl, rfl⟩

/-- What an event that lets nothing run out does: the store stays and no put was
acknowledged, or a put acted on it. -/
theorem serverStep_put (C : Crypto) {e : Engine cap} {ev : ServerEvent}
    (hlive : NothingExpires e ev) :
    ((serverStep C e ev).store = e.store ∧ ackedTarget C e ev = none) ∨
      ∃ r env, (serverStep C e ev).store = (putStore e.myid r env e.store).1 ∧
        ackedTarget C e ev =
          if (putStore e.myid r env e.store).2 = .ack then some r.target else none := by
  cases ev with
  | input buf addr env =>
      have hexp := storeExpire_self hlive
      have hput := bep44Input_put C e buf addr env
      rw [hexp] at hput
      unfold serverStep ackedTarget
      rcases hput with ⟨hstore, hreply⟩ | ⟨args, r, hargs, hcheck, hstore, hreply⟩
      · exact Or.inl ⟨hstore.elim id id, if_neg hreply⟩
      · refine Or.inr ⟨r, env, hstore, ?_⟩
        simp only [hreply, hargs, hcheck, Option.some.injEq, Option.bind_some]
        rfl
  | periodic now fresh =>
      left
      refine ⟨?_, rfl⟩
      simp only [serverStep, bep44Periodic]
      split
      · rfl
      · exact storeExpire_self hlive
  | serve enable secrets now =>
      left
      refine ⟨?_, rfl⟩
      simp only [serverStep, bep44Serve]
      split
      · rfl
      · split
        · rfl
        · split <;> rfl
  | ratelimit rate seconds => exact Or.inl ⟨rfl, rfl⟩
  | learn i c => exact Or.inl ⟨rfl, rfl⟩

/-- What is known of a node after the puts acknowledged so far. -/
structure KeepsNearest (C : Crypto) (myid : Id20) (e : Engine cap) (seen : List Id20) : Prop where
  id_eq : e.myid = myid
  inv : StoreInv C e.store
  nearest : Nearest (closer myid) cap seen.toFinset (heldTargets e.store)

theorem keepsNearest_step (C : Crypto) (myid : Id20) (e : Engine cap) (ev : ServerEvent)
    (seen : List Id20) (h : KeepsNearest C myid e seen) (hlive : NothingExpires e ev) :
    KeepsNearest C myid (serverStep C e ev) (seen ++ (ackedTarget C e ev).toList) := by
  obtain ⟨hid, hinv, hnear⟩ := h
  have hinv' : StoreInv C (serverStep C e ev).store := by
    have hchain := event_moves C e ev
    exact inv_of_moves hinv hchain _ (by simp)
  refine ⟨(serverStep_myid C e ev).trans hid, hinv', ?_⟩
  rcases serverStep_put C hlive with ⟨hstore, hacked⟩ | ⟨r, env, hstore, hacked⟩
  · rw [hstore, hacked]
    simpa using hnear
  · rw [hid] at hstore hacked
    obtain ⟨hack, herr⟩ := putStore_nearest r env hinv.unique hnear
    rw [hstore, hacked]
    by_cases hreply : (putStore myid r env e.store).2 = .ack
    · rw [if_pos hreply]
      have hset : (seen ++ [r.target]).toFinset = insert r.target seen.toFinset := by
        ext t
        simp
      rw [Option.toList_some, hset]
      exact hack hreply
    · rw [if_neg hreply, herr hreply]
      simpa using hnear

/-- The `cap` targets nearest to the id, or all of them where there are no more. -/
def closestTargets (cap : Nat) (myid : Id20) (seen : Finset Id20) : Finset Id20 :=
  seen.filter fun t => (seen.filter fun u => closer myid u t).card < cap

/-- Over every run of a node in which no item runs out: the targets held at the end are the
`cap` nearest to its id of all the targets of the puts it acknowledged, or all of them where
these are no more, in whatever order and however often they were put. -/
theorem held_closest (C : Crypto) (myid : Id20) (evs : List ServerEvent)
    (hlive : EveryStep (serverStep C) NothingExpires (bep44Create cap myid) evs) :
    let seen := (observe (serverStep C) (ackedTarget C) (bep44Create cap myid) evs).toFinset
    let held := heldTargets (run (serverStep C) (bep44Create cap myid) evs).store
    held = closestTargets cap myid seen ∧ held.card = min cap seen.card ∧
      (seen.card ≤ cap → held = seen) := by
  have hinit : KeepsNearest C myid (bep44Create cap myid) [] := by
    refine ⟨rfl, ⟨fun i j hi => by simp [bep44Create] at hi, fun i it hi => nomatch hi⟩, ?_⟩
    have hnone : heldTargets (bep44Create cap myid).store = ∅ := by
      ext t
      simp [mem_heldTargets, bep44Create]
    rw [hnone]
    exact .empty _ _
  have hend := observe_invariant (keepsNearest_step C myid) hinit hlive
  rw [List.nil_append] at hend
  obtain ⟨-, -, hnear⟩ := hend
  intro seen held
  refine ⟨?_, hnear.card_eq, ?_⟩
  · ext t
    rw [closestTargets, Finset.mem_filter]
    exact hnear.mem_iff fun a b => closer_asymm
  · intro hfew
    rcases hnear.full with heq | hcard
    · exact heq
    · exact Finset.eq_of_subset_of_card_le hnear.subset (hfew.trans hcard.ge)

/-- A hash that keeps the first 20 bytes, for a node to be run on. -/
def headHash : Crypto where
  sha1 b := Vector.ofFn fun i => b.getD i 0
  ed25519Check _ _ _ := false

/-- A put of one byte as an immutable value. -/
def bytePut (v : Char) : Bytes :=
  ascii ['d', '1', ':', 'a', 'd', '2', ':', 'i', 'd', '2', '0', ':'] ++ List.replicate 20 7 ++
    ascii ['5', ':', 't', 'o', 'k', 'e', 'n', '8', ':'] ++ List.replicate 8 5 ++
    ascii ['1', ':', 'v', '1', ':', v, 'e', '1', ':', 'q', '3', ':', 'p', 'u', 't', '1', ':', 't',
      '1', ':', 'x', '1', ':', 'y', '1', ':', 'q', 'e']

/-- A node with room for one item is put a value and then another, which is nearer. -/
def twoPuts : List ServerEvent :=
  let put := fun v => ServerEvent.input (bytePut v) (.inet (Vector.replicate 4 8) 6881)
    { banNow := 1, now := 1, cacheNow := 1, allocOk := true }
  [.serve true (some (List.replicate 16 5), some (List.replicate 16 6)) 0, put 'b', put 'a']

set_option maxRecDepth 4000

theorem held_closest_twoPuts :
    EveryStep (serverStep headHash) NothingExpires (bep44Create 1 (Vector.replicate 20 0)) twoPuts ∧
      heldTargets
          (run (serverStep headHash) (bep44Create 1 (Vector.replicate 20 0)) twoPuts).store =
        closestTargets 1 (Vector.replicate 20 0)
          {headHash.sha1 (ascii ['1', ':', 'b']), headHash.sha1 (ascii ['1', ':', 'a'])} := by
  have hlive : EveryStep (serverStep headHash) NothingExpires
      (bep44Create 1 (Vector.replicate 20 0)) twoPuts := by
    decide
  have hseen : observe (serverStep headHash) (ackedTarget headHash)
      (bep44Create 1 (Vector.replicate 20 0)) twoPuts =
      [headHash.sha1 (ascii ['1', ':', 'b']), headHash.sha1 (ascii ['1', ':', 'a'])] := by
    with_unfolding_all decide
  refine ⟨hlive, ?_⟩
  have hheld := (held_closest headHash (Vector.replicate 20 0) twoPuts hlive).1
  rw [hseen] at hheld
  simpa using hheld

end Bep44
end Comrade
