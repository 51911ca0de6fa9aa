import Comrade.Lib.Run
import Comrade.Bep44.Put

/-!
# The store over whole runs

The store of a node that answers whatever it is sent.

* `StoreMove` is what can happen to the store between one look at it and the
  next; `serverTrace` lists every store that a run passes through, the one
  between `store_expire` and what follows it among them.
* `serverTrace_inv`: one item for a target, every item valid, and a mutable
  target that stays held never goes back.
-/

namespace Comrade
namespace Bep44

open Lib Bencode

variable {cap : Nat}

/-! ## Moves of the store -/

/-- What can happen to the store between one look at it and the next. -/
inductive StoreMove (C : Crypto) (s s' : Store cap) : Prop
  | drop (hs : ∀ i, s' i = s i ∨ s' i = none)
  | refresh (i : Fin cap) (it : B44Item) (t : Nat) (hi : s i = some it)
      (hs : s' = Function.update s i (some { it with expiresMs := t }))
  | replace (i : Fin cap) (it fresh : B44Item) (hi : s i = some it)
      (htarget : fresh.target = it.target) (hold : it.isMutable = true)
      (hnew : fresh.isMutable = true) (hseq : it.seq < fresh.seq) (hvalid : ItemValid C fresh)
      (hs : s' = Function.update s i (some fresh))
  | insert (i : Fin cap) (fresh : B44Item)
      (hnone : ∀ j it, s j = some it → it.target ≠ fresh.target) (hvalid : ItemValid C fresh)
      (hs : s' = Function.update s i (some fresh))

theorem StoreMove.same {C : Crypto} (s : Store cap) : StoreMove C s s := .drop fun _ => .inl rfl

theorem storeExpire_move (C : Crypto) (s : Store cap) (now : Nat) :
    StoreMove C s (storeExpire s now) := by
  refine .drop fun i => ?_
  cases hi : s i with
  | none => simp [storeExpire, hi]
  | some it =>
      by_cases hexp : it.expired now = true
      · right
        simp [storeExpire, hi, hexp]
      · left
        simp [storeExpire, hi, hexp]

theorem putStore_move {C : Crypto} {args : Bytes} {r : PutReq} (hr : PutOk C args r)
    (myid : Id20) (env : Env) (s : Store cap) : StoreMove C s (putStore myid r env s).1 := by
  rcases putStore_cases myid r env s with h | ⟨i, it, hi, -, -, -, h⟩ |
    ⟨i, it, hi, htarget, hold, hnew, hseq, -, h⟩ | ⟨i, hnone, h⟩
  · rw [h]
    exact .same s
  · exact .refresh i it _ hi (by rw [h])
  · refine .replace i it (r.item env.now) hi ?_ hold ?_ ?_ (hr.valid env.now) (by rw [h])
    · rw [r.item_target, htarget]
    · rw [r.item_isMutable, hnew]
    · rw [r.item_seq hnew]
      exact hseq
  · refine .insert i (r.item env.now) ?_ (hr.valid env.now) (by rw [h])
    rw [r.item_target]
    exact hnone

/-! ## The store invariant -/

/-- At most one item for a target, and every item as it may be held. -/
structure StoreInv (C : Crypto) (s : Store cap) : Prop where
  unique : UniqueKey (Option.map B44Item.target) Option.isSome s
  valid : ∀ i it, s i = some it → ItemValid C it

theorem StoreInv.target_unique {C : Crypto} {s : Store cap} (h : StoreInv C s) {i j : Fin cap}
    {it it' : B44Item} (hi : s i = some it) (hj : s j = some it')
    (htarget : it.target = it'.target) : i = j :=
  h.unique i j (by rw [hi]; rfl) (by rw [hj]; rfl) (by rw [hi, hj]; exact congrArg some htarget)

theorem valid_update {C : Crypto} {s : Store cap} (h : ∀ i it, s i = some it → ItemValid C it)
    {i : Fin cap} {fresh : B44Item} (hfresh : ItemValid C fresh) :
    ∀ j it, Function.update s i (some fresh) j = some it → ItemValid C it := by
  intro j it hj
  by_cases hji : j = i
  · subst hji
    rw [Function.update_self] at hj
    rw [← Option.some.inj hj]
    exact hfresh
  · rw [Function.update_of_ne hji] at hj
    exact h j it hj

theorem StoreInv.move {C : Crypto} {s s' : Store cap} (h : StoreInv C s)
    (hmove : StoreMove C s s') : StoreInv C s' := by
  obtain ⟨hunique, hvalid⟩ := h
  cases hmove with
  | drop hs =>
      have hsome : ∀ i, (s' i).isSome = true → s' i = s i := by
        intro i hi
        rcases hs i with heq | hnone
        · exact heq
        · simp [hnone] at hi
      refine ⟨?_, ?_⟩
      · intro i j hi hj hij
        have hieq := hsome i hi
        have hjeq := hsome j hj
        rw [hieq] at hi hij
        rw [hjeq] at hj hij
        exact hunique i j hi hj hij
      · intro i it hi
        rw [hsome i (by rw [hi]; rfl)] at hi
        exact hvalid i it hi
  | refresh i it t hi hs =>
      rw [hs]
      refine ⟨hunique.update_same (by rw [hi]; rfl) (fun _ => by rw [hi]; rfl), ?_⟩
      exact valid_update hvalid ((hvalid i it hi).refresh t)
  | replace i it fresh hi htarget _ _ _ hfresh hs =>
      rw [hs]
      refine ⟨hunique.update_same ?_ (fun _ => by rw [hi]; rfl), valid_update hvalid hfresh⟩
      rw [hi]
      exact congrArg some htarget
  | insert i fresh hnone hfresh hs =>
      rw [hs]
      refine ⟨hunique.update_fresh ?_, valid_update hvalid hfresh⟩
      intro j hj heq
      obtain ⟨it, hit⟩ := Option.isSome_iff_exists.mp hj
      rw [hit] at heq
      exact hnone j it hit (Option.some.inj heq)

/-! ## A target that stays held -/

/-- The item held for a target. -/
def heldAt (s : Store cap) (target : Id20) : Option B44Item :=
  (storeItemAt s target).map Prod.snd

theorem heldAt_some {s : Store cap} {target : Id20} {it : B44Item}
    (h : heldAt s target = some it) : ∃ i, s i = some it ∧ it.target = target := by
  obtain ⟨⟨i, it'⟩, hat, rfl⟩ := Option.map_eq_some_iff.mp h
  exact ⟨i, storeItemAt_some hat⟩

/-- A mutable item held for the target in the first store is held in the second
too: mutable still, under no smaller a number, and with the same value under
the same number. -/
def Advances (target : Id20) (s s' : Store cap) : Prop :=
  ∀ it, heldAt s target = some it → it.isMutable = true →
    ∃ it', heldAt s' target = some it' ∧ it'.isMutable = true ∧ it.seq ≤ it'.seq ∧
      (it.seq = it'.seq → it.v = it'.v)

instance (target : Id20) : IsTrans (Store cap) (Advances target) where
  trans := by
    intro s₁ s₂ s₃ h₁₂ h₂₃ it hit hm
    obtain ⟨it₂, hit₂, hm₂, hle₂, hv₂⟩ := h₁₂ it hit hm
    obtain ⟨it₃, hit₃, hm₃, hle₃, hv₃⟩ := h₂₃ it₂ hit₂ hm₂
    refine ⟨it₃, hit₃, hm₃, by omega, fun heq => ?_⟩
    exact (hv₂ (by omega)).trans (hv₃ (by omega))

/-- One move takes a target that it leaves held no step back. -/
theorem StoreMove.advances {C : Crypto} {s s' : Store cap} (hinv : StoreInv C s)
    (hmove : StoreMove C s s') {target : Id20} (hheld : (heldAt s' target).isSome = true) :
    Advances target s s' := by
  have hinv' := hinv.move hmove
  intro it hit hm
  obtain ⟨it', hit'⟩ := Option.isSome_iff_exists.mp hheld
  obtain ⟨i, hi, htarget⟩ := heldAt_some hit
  obtain ⟨j, hj, htarget'⟩ := heldAt_some hit'
  refine ⟨it', hit', ?_⟩
  -- an item that was there before is the one that was held
  have hsame : s j = some it' → it'.isMutable = true ∧ it.seq ≤ it'.seq ∧
      (it.seq = it'.seq → it.v = it'.v) := by
    intro hjs
    obtain rfl := hinv.target_unique hi hjs (htarget.trans htarget'.symm)
    rw [hi] at hjs
    obtain rfl := Option.some.inj hjs
    exact ⟨hm, le_rfl, fun _ => rfl⟩
  cases hmove with
  | drop hs =>
      rcases hs j with heq | hnone
      · exact hsame (heq ▸ hj)
      · rw [hnone] at hj
        cases hj
  | refresh k it₀ t hk hs =>
      by_cases hjk : j = k
      · subst hjk
        rw [hs, Function.update_self] at hj
        obtain rfl := Option.some.inj hj
        obtain rfl := hinv.target_unique hi hk (htarget.trans htarget'.symm)
        rw [hi] at hk
        obtain rfl := Option.some.inj hk
        exact ⟨hm, le_rfl, fun _ => rfl⟩
      · rw [hs, Function.update_of_ne hjk] at hj
        exact hsame hj
  | replace k it₀ fresh hk hfresh hold hnew hseq _ hs =>
      by_cases hjk : j = k
      · subst hjk
        rw [hs, Function.update_self] at hj
        obtain rfl := Option.some.inj hj
        obtain rfl := hinv.target_unique hi hk (htarget.trans (htarget'.symm.trans hfresh))
        rw [hi] at hk
        obtain rfl := Option.some.inj hk
        exact ⟨hnew, by omega, fun heq => by omega⟩
      · rw [hs, Function.update_of_ne hjk] at hj
        exact hsame hj
  | insert k fresh hnone _ hs =>
      by_cases hjk : j = k
      · subst hjk
        rw [hs, Function.update_self] at hj
        obtain rfl := Option.some.inj hj
        exact absurd (htarget.trans htarget'.symm) (hnone i it hi)
      · rw [hs, Function.update_of_ne hjk] at hj
        exact hsame hj

/-! ## Runs -/

/-- What a node meets: a datagram, the periodic call, being told to serve or how
to limit, and a node learned for its cache. -/
inductive ServerEvent where
  | input (buf : Bytes) (addr : Sockaddr) (env : Env)
  | periodic (now : Nat) (fresh : Option Bytes)
  | serve (enable : Bool) (secrets : Option Bytes × Option Bytes) (now : Nat)
  | ratelimit (perSourceRate banSeconds : Int)
  | learn (i : Fin b44CacheMax) (c : B44Cnode)

/-- The engine after an event. -/
def serverStep (C : Crypto) (e : Engine cap) : ServerEvent → Engine cap
  | .input buf addr env => (bep44Input C e buf addr env).engine
  | .periodic now fresh => bep44Periodic e now fresh
  | .serve enable secrets now => bep44Serve e enable secrets now
  | .ratelimit rate seconds => bep44Ratelimit e rate seconds
  | .learn i c => { e with cache := Function.update e.cache i c }

/-- The stores that a plan passes through. -/
def B44Plan.stages (p : B44Plan cap) (s : Store cap) : List (Store cap) :=
  match p with
  | .answer _ => []
  | .store now act => [storeExpire s now, (act (storeExpire s now)).1]

/-- The stores between an event and the next. -/
def serverStages (C : Crypto) (e : Engine cap) : ServerEvent → List (Store cap)
  | .input buf addr env => (bep44Input C e buf addr env).plan.elim [] fun p => p.stages e.store
  | _ => []

/-- Every store that a run passes through, from the first on. -/
def serverTrace (C : Crypto) (e : Engine cap) : List ServerEvent → List (Store cap)
  | [] => [e.store]
  | ev :: evs => e.store :: (serverStages C e ev ++ serverTrace C (serverStep C e ev) evs)

theorem serverTrace_eq_cons (C : Crypto) (e : Engine cap) (evs : List ServerEvent) :
    ∃ t, serverTrace C e evs = e.store :: t := by
  cases evs with
  | nil => exact ⟨[], rfl⟩
  | cons ev evs => exact ⟨_, rfl⟩

theorem input_moves (C : Crypto) (e : Engine cap) (buf : Bytes) (addr : Sockaddr) (env : Env) :
    (e.store :: (serverStages C e (.input buf addr env) ++
      [(bep44Input C e buf addr env).engine.store])).IsChain (StoreMove C) := by
  unfold serverStages bep44Input
  by_cases hy : dictStr buf (ascii ['y']) = some (ascii ['q'])
  · simp only [if_pos hy]
    rcases queryHandle_cases C e buf addr env with ⟨hplan, hstore⟩ | ⟨bans, isPut, hplan, hstore⟩
    · rw [hplan, hstore]
      exact List.isChain_pair.mpr (.same _)
    · rw [hplan, hstore]
      dsimp only [Option.elim]
      rcases queryPlan_cases C { e with bans := bans } isPut buf addr env with
        ⟨err, hp⟩ | ⟨reply, hp⟩ | ⟨args, r, hargs, hcheck, hp⟩
      · rw [hp]
        exact List.isChain_pair.mpr (.same _)
      · rw [hp]
        refine .cons_cons (storeExpire_move C _ _) (.cons_cons (.same _) ?_)
        exact List.isChain_pair.mpr (.same _)
      · rw [hp]
        refine .cons_cons (storeExpire_move C _ _)
          (.cons_cons (putStore_move (putCheck_ok hcheck) _ _ _) ?_)
        exact List.isChain_pair.mpr (.same _)
  · simp only [if_neg hy]
    exact List.isChain_pair.mpr (.same _)

theorem event_moves (C : Crypto) (e : Engine cap) (ev : ServerEvent) :
    (e.store :: (serverStages C e ev ++ [(serverStep C e ev).store])).IsChain (StoreMove C) := by
  have hone : ∀ s, StoreMove C e.store s → [e.store, s].IsChain (StoreMove C) :=
    fun s hs => List.isChain_pair.mpr hs
  cases ev with
  | input buf addr env => exact input_moves C e buf addr env
  | periodic now fresh =>
      refine hone _ ?_
      simp only [serverStep, bep44Periodic]
      split_ifs
      · exact .same _
      · exact storeExpire_move C _ _
  | serve enable secrets now =>
      refine hone _ ?_
      have hstore : (bep44Serve e enable secrets now).store = e.store := by
        unfold bep44Serve
        split_ifs
        · rfl
        · rfl
        · split <;> rfl
      rw [serverStep, hstore]
      exact .same _
  | ratelimit rate seconds => exact hone _ (.same _)
  | learn i c => exact hone _ (.same _)

/-- From each store of a run to the next is one move. -/
theorem serverTrace_moves (C : Crypto) (e : Engine cap) (evs : List ServerEvent) :
    (serverTrace C e evs).IsChain (StoreMove C) := by
  induction evs generalizing e with
  | nil => exact List.isChain_singleton _
  | cons ev evs ih =>
      have hevent := event_moves C e ev
      have hrest := ih (serverStep C e ev)
      obtain ⟨t, ht⟩ := serverTrace_eq_cons C (serverStep C e ev) evs
      rw [serverTrace, ht]
      rw [ht] at hrest
      rw [← List.cons_append] at hevent ⊢
      exact List.isChain_split.mpr ⟨hevent, hrest⟩

theorem inv_of_moves {C : Crypto} {s : Store cap} {l : List (Store cap)} (hs : StoreInv C s)
    (h : (s :: l).IsChain (StoreMove C)) : ∀ x ∈ s :: l, StoreInv C x := by
  induction l generalizing s with
  | nil =>
      intro x hx
      rw [List.mem_singleton] at hx
      rw [hx]
      exact hs
  | cons s' l ih =>
      rw [List.isChain_cons_cons] at h
      intro x hx
      rcases List.mem_cons.mp hx with rfl | hx
      · exact hs
      · exact ih (hs.move h.1) h.2 x hx

/-- Whatever a node is sent, at whatever times: every store it passes through
holds one item for a target at most and only valid items, and over any stretch
in which a target stays held, a mutable item held for it stays mutable, its
number never decreases, and under the same number it has the same value. -/
theorem serverTrace_inv (C : Crypto) (myid : Id20) (evs : List ServerEvent) :
    let trace := serverTrace C (bep44Create cap myid) evs
    (∀ s ∈ trace,
      (∀ i j it it', s i = some it → s j = some it' → it.target = it'.target → i = j) ∧
      ∀ i it, s i = some it → ItemValid C it) ∧
    ∀ target pre seg post, trace = pre ++ seg ++ post →
      (∀ s ∈ seg, (heldAt s target).isSome = true) → seg.Pairwise (Advances target) := by
  intro trace
  have hmoves : (serverTrace C (bep44Create cap myid) evs).IsChain (StoreMove C) :=
    serverTrace_moves C _ evs
  have hinv : ∀ s ∈ trace, StoreInv C s := by
    obtain ⟨t, ht⟩ := serverTrace_eq_cons C (bep44Create cap myid) evs
    have hempty : StoreInv C (bep44Create cap myid).store := by
      refine ⟨?_, ?_⟩
      · intro i j hi
        simp [bep44Create] at hi
      · intro i it hi
        simp [bep44Create] at hi
    rw [ht] at hmoves
    have hall := inv_of_moves hempty hmoves
    rw [← ht] at hall
    exact hall
  refine ⟨?_, ?_⟩
  · intro s hs
    exact ⟨fun i j it it' hi hj => (hinv s hs).target_unique hi hj, (hinv s hs).valid⟩
  · intro target pre seg post hsplit hheld
    rw [← List.isChain_iff_pairwise]
    have hseg : seg <:+: trace := ⟨pre, post, hsplit.symm⟩
    have hchain : seg.IsChain (StoreMove C) := List.IsChain.infix hmoves hseg
    refine hchain.imp_of_mem_imp ?_
    intro s s' hs hs' hmove
    exact hmove.advances (hinv s (hseg.subset hs)) (hheld s' hs')

end Bep44
end Comrade
