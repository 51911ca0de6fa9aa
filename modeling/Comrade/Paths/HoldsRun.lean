import Comrade.Paths.Holds

/-!
# Each agent is freed once

The runs of the plane with the agents it holds.  `pathplane_free_agent` is the only
place where an agent is given up, and it is reached from four loops; what keeps the
ledger straight is that a place is emptied before its agent is freed.

* `HoldInv` is what every call keeps up.
* `freeAgent_holdInv` is the step all the loops are made of.
* `routeLosers_spec` says which agents `pathplane_route_dedup` may give up.
* `routeDedup_route` says that of the paths on one route one is left.
-/

namespace Comrade
namespace Paths

open Lib

/-- The agent is in no hold. -/
def NotHeld (s : HoldPlane) (a : Agent) : Prop := ∀ i, (s.holds i).agent ≠ some a

instance decidableNotHeld (s : HoldPlane) (a : Agent) : Decidable (NotHeld s a) :=
  inferInstanceAs (Decidable (∀ _, _))

/-- The plane and the caller agree on who owns what. -/
structure HoldInv (s : HoldPlane) : Prop where
  table : TableInv s.pl.t
  heldOnce : UniqueKey PathplaneHold.agent (fun h => h.agent.isSome) s.holds
  freedOnce : s.freedAgents.Nodup
  heldLive : ∀ a ∈ s.freedAgents, NotHeld s a
  namedLive : ∀ i a, (s.pl.t.p i).used = true → (s.pl.t.p i).agent = some a →
    a ∉ s.freedAgents

/-- Places that hold one agent are one place. -/
theorem held_slot_eq {holds : HoldSlot → PathplaneHold}
    (h : UniqueKey PathplaneHold.agent (fun h => h.agent.isSome) holds) {i j : HoldSlot}
    {a : Agent} (hi : (holds i).agent = some a) (hj : (holds j).agent = some a) : i = j := by
  apply h i j
  · simp [hi]
  · simp [hj]
  · rw [hi, hj]

theorem holdPlaneInit_holdInv : HoldInv holdPlaneInit := by
  constructor
  · exact pathTableInit_tableInv
  · intro i j hi
    cases hi
  · exact List.nodup_nil
  · intro a ha
    cases ha
  · intro i a hused
    cases hused

/-! ## Giving an agent up -/

@[simp] theorem freeAgent_holds (s : HoldPlane) (agent : Option Agent) (ctx : Option Nat) :
    (pathplaneFreeAgent s agent ctx).holds = s.holds := rfl

theorem freeAgent_freedAgents (s : HoldPlane) (agent : Option Agent) (ctx : Option Nat) :
    (pathplaneFreeAgent s agent ctx).freedAgents = s.freedAgents ++ agent.toList := by
  unfold HoldPlane.freedAgents pathplaneFreeAgent
  rw [List.filterMap_append]
  cases agent <;> rfl

/-- A path left after an agent has gone was there before, over another agent. -/
theorem freeAgent_used {s : HoldPlane} {agent : Option Agent} {ctx : Option Nat} {i : Slot}
    (h : ((pathplaneFreeAgent s agent ctx).pl.t.p i).used = true) :
    (pathplaneFreeAgent s agent ctx).pl.t.p i = s.pl.t.p i ∧
      ∀ a, agent = some a → (s.pl.t.p i).agent ≠ some a := by
  cases agent with
  | none => exact ⟨rfl, fun a ha => by cases ha⟩
  | some b =>
      have hdrop : ((pathTableDrop s.pl.t fun p => p.agent == some b).p i).used = true := h
      obtain ⟨hp, hgone⟩ := pathTableDrop_used hdrop
      refine ⟨hp, ?_⟩
      intro a ha hagent
      rw [hagent, ← ha] at hgone
      simp at hgone

/-- An agent that is nowhere held and was not freed before can be freed. -/
theorem freeAgent_holdInv {s : HoldPlane} (h : HoldInv s) {agent : Option Agent}
    (ctx : Option Nat) (hown : ∀ a ∈ agent, a ∉ s.freedAgents ∧ NotHeld s a) :
    HoldInv (pathplaneFreeAgent s agent ctx) := by
  have hfreed := freeAgent_freedAgents s agent ctx
  constructor
  · exact pathTableDropAgent_tableInv h.table agent
  · exact h.heldOnce
  · rw [hfreed, List.nodup_append]
    refine ⟨h.freedOnce, ?_, ?_⟩
    · cases agent <;> simp
    · intro a ha b hb hab
      rw [Option.mem_toList] at hb
      exact (hown b hb).1 (hab ▸ ha)
  · intro a ha
    rw [hfreed, List.mem_append, Option.mem_toList] at ha
    rcases ha with ha | ha
    · exact h.heldLive a ha
    · exact (hown a ha).2
  · intro i a hused hagent
    obtain ⟨hp, hother⟩ := freeAgent_used hused
    rw [hp] at hused hagent
    rw [hfreed, List.mem_append, Option.mem_toList]
    rintro (ha | ha)
    · exact h.namedLive i a hused hagent ha
    · exact hother a ha hagent

/-- Emptying a place gives nothing up. -/
theorem holdInv_empty {s : HoldPlane} (h : HoldInv s) (i : HoldSlot) :
    HoldInv { s with holds := Function.update s.holds i holdNone } := by
  constructor
  · exact h.table
  · exact h.heldOnce.update_unused rfl
  · exact h.freedOnce
  · intro a ha j
    by_cases hj : j = i
    · subst hj
      show (Function.update s.holds j holdNone j).agent ≠ some a
      rw [Function.update_self]
      exact fun hnone => by cases hnone
    · show (Function.update s.holds i holdNone j).agent ≠ some a
      rw [Function.update_of_ne hj]
      exact h.heldLive a ha j
  · exact h.namedLive

/-- The agent of an emptied place is in no other. -/
theorem notHeld_emptied {s : HoldPlane} (h : HoldInv s) {i : HoldSlot} {a : Agent}
    (ha : (s.holds i).agent = some a) :
    NotHeld { s with holds := Function.update s.holds i holdNone } a := by
  intro j hj
  have hji : j ≠ i := by
    rintro rfl
    have hnone : (Function.update s.holds j holdNone j).agent = some a := hj
    rw [Function.update_self] at hnone
    cases hnone
  have hj' : (s.holds j).agent = some a := by
    rw [← hj]
    show _ = (Function.update s.holds i holdNone j).agent
    rw [Function.update_of_ne hji]
  exact hji (held_slot_eq h.heldOnce hj' ha)

theorem holdClear_holdInv {s : HoldPlane} (h : HoldInv s) (i : HoldSlot) :
    HoldInv (holdClear s i) := by
  unfold holdClear
  apply freeAgent_holdInv (holdInv_empty h i)
  intro a ha
  constructor
  · intro hfreed
    exact h.heldLive a hfreed i ha
  · exact notHeld_emptied h ha

theorem holdClear_freedAgents (s : HoldPlane) (i : HoldSlot) :
    (holdClear s i).freedAgents = s.freedAgents ++ (s.holds i).agent.toList :=
  freeAgent_freedAgents _ _ _

theorem foldl_holdInv {ι : Type*} (step : HoldPlane → ι → HoldPlane)
    (hstep : ∀ s i, HoldInv s → HoldInv (step s i)) (l : List ι) {s : HoldPlane}
    (h : HoldInv s) : HoldInv (l.foldl step s) := by
  induction l generalizing s with
  | nil => exact h
  | cons i l ih => exact ih (hstep s i h)

theorem holdsFreeAll_holdInv {s : HoldPlane} (h : HoldInv s) :
    HoldInv (pathplaneHoldsFreeAll s) := by
  unfold pathplaneHoldsFreeAll
  apply foldl_holdInv _ _ _ h
  intro s i h
  split_ifs
  · exact holdClear_holdInv h i
  · exact h

theorem holdAdd_holdInv {s : HoldPlane} (h : HoldInv s) {agent : Option Agent}
    (ctx : Option Nat) (untilMs : Nat)
    (hown : ∀ a ∈ agent, a ∉ s.freedAgents ∧ NotHeld s a) :
    HoldInv (pathplaneHoldAdd s agent ctx untilMs) := by
  unfold pathplaneHoldAdd
  cases hfind : firstSlot s.holds fun h => h.agent.isNone with
  | none => exact freeAgent_holdInv h ctx hown
  | some i =>
      dsimp only
      constructor
      · exact h.table
      · cases agent with
        | none => exact h.heldOnce.update_unused rfl
        | some a =>
            apply h.heldOnce.update_fresh
            intro j _ hkey
            exact (hown a rfl).2 j hkey
      · exact h.freedOnce
      · intro a ha j hj
        by_cases hji : j = i
        · subst hji
          have hnew : (Function.update s.holds j ⟨agent, ctx, untilMs⟩ j).agent = some a := hj
          rw [Function.update_self] at hnew
          exact (hown a hnew).1 ha
        · have hold : (Function.update s.holds i ⟨agent, ctx, untilMs⟩ j).agent = some a := hj
          rw [Function.update_of_ne hji] at hold
          exact h.heldLive a ha j hold
      · exact h.namedLive

theorem holdTake_holdInv {s : HoldPlane} (h : HoldInv s) (i : Option HoldSlot) :
    HoldInv (pathplaneHoldTake s i).1 := by
  cases i with
  | none => exact h
  | some i => exact holdInv_empty h i

theorem holdsSettle_holdInv {s : HoldPlane} (h : HoldInv s) {live : Option Agent}
    (ctx : Option Nat) (hown : ∀ a ∈ live, a ∉ s.freedAgents ∧ NotHeld s a) :
    HoldInv (pathplaneHoldsSettle s live ctx).1 := by
  unfold pathplaneHoldsSettle
  cases pathplaneHoldCarrying s with
  | some hi =>
      dsimp only
      apply freeAgent_holdInv (holdTake_holdInv h (some hi))
      intro a ha
      refine ⟨(hown a ha).1, ?_⟩
      intro j hj
      have hheld : (Function.update s.holds hi holdNone j).agent = some a := hj
      by_cases hji : j = hi
      · subst hji
        rw [Function.update_self] at hheld
        cases hheld
      · rw [Function.update_of_ne hji] at hheld
        exact (hown a ha).2 j hheld
  | none =>
      dsimp only
      split_ifs
      · exact h
      · exact holdsFreeAll_holdInv h

/-! ## Reaping -/

theorem reapStep_holdInv {s : HoldPlane} (h : HoldInv s) (failed : Agent → Bool) (now : Nat)
    (carrying : Option HoldSlot) (i : HoldSlot) : HoldInv (reapStep failed now carrying s i) := by
  unfold reapStep
  split
  · exact h
  · split_ifs
    · exact h
    · exact h
    · exact holdClear_holdInv h i

theorem holdsReap_holdInv {s : HoldPlane} (h : HoldInv s) (failed : Agent → Bool) (now : Nat) :
    HoldInv (pathplaneHoldsReap s failed now) := by
  unfold pathplaneHoldsReap
  exact foldl_holdInv _ (fun s i h => reapStep_holdInv h failed now _ i) _ h

/-- The agent of the selected path. -/
def selAgent (t : PathTable) : Option Agent := t.sel.bind fun i => (t.p i).agent

/-- A held agent that carries is the one in the place that is passed over. -/
theorem holdCarrying_of_sel {s : HoldPlane} (h : HoldInv s) {a : Agent}
    (hsel : selAgent s.pl.t = some a) {i : HoldSlot} (hi : (s.holds i).agent = some a) :
    pathplaneHoldCarrying s = some i := by
  unfold selAgent at hsel
  rw [Option.bind_eq_some_iff] at hsel
  obtain ⟨j, hj, hagent⟩ := hsel
  have hused := h.table.selUsed j hj
  unfold pathplaneHoldCarrying
  rw [hj]
  dsimp only
  rw [if_pos ⟨hused, by rw [hagent]; rfl⟩]
  cases hfind : firstSlot s.holds fun h => h.agent == (s.pl.t.p j).agent with
  | none =>
      have hno := firstSlot_eq_none_iff.mp hfind i
      simp [hi, hagent] at hno
  | some k =>
      have hk : (s.holds k).agent = some a := by
        have hfound := firstSlot_spec hfind
        rw [hagent] at hfound
        simpa using hfound
      rw [held_slot_eq h.heldOnce hk hi]

/-- The loop of `pathplane_holds_reap` frees no agent that is held where it carries
only. -/
theorem foldl_reapStep_keeps (failed : Agent → Bool) (now : Nat) (carrying : Option HoldSlot)
    {a : Agent} (l : List HoldSlot) {s : HoldPlane} (hfreed : a ∉ s.freedAgents)
    (hheld : ∀ i, (s.holds i).agent = some a → carrying = some i) :
    a ∉ (l.foldl (reapStep failed now carrying) s).freedAgents := by
  induction l generalizing s with
  | nil => exact hfreed
  | cons i l ih =>
      rw [List.foldl_cons]
      have hcases : reapStep failed now carrying s i = s ∨
          (carrying ≠ some i ∧ reapStep failed now carrying s i = holdClear s i) := by
        unfold reapStep
        split
        · exact .inl rfl
        · split_ifs with hcarry
          · exact .inl rfl
          · exact .inl rfl
          · exact .inr ⟨hcarry, rfl⟩
      rcases hcases with hsame | ⟨hcarry, hclear⟩
      · rw [hsame]
        exact ih hfreed hheld
      · rw [hclear]
        apply ih
        · rw [holdClear_freedAgents, List.mem_append, Option.mem_toList]
          rintro (ha | ha)
          · exact hfreed ha
          · exact hcarry (hheld i ha)
        · intro j hj
          have hj' : (Function.update s.holds i holdNone j).agent = some a := hj
          by_cases hji : j = i
          · subst hji
            rw [Function.update_self] at hj'
            cases hj'
          · rw [Function.update_of_ne hji] at hj'
            exact hheld j hj'

/-- Reaping leaves the agent of the selected path alone. -/
theorem holdsReap_keeps_sel {s : HoldPlane} (h : HoldInv s) (failed : Agent → Bool) (now : Nat)
    {a : Agent} (hsel : selAgent s.pl.t = some a) :
    a ∉ (pathplaneHoldsReap s failed now).freedAgents := by
  unfold pathplaneHoldsReap
  apply foldl_reapStep_keeps
  · obtain ⟨j, hj, hagent⟩ := Option.bind_eq_some_iff.mp hsel
    exact h.namedLive j a (h.table.selUsed j hj) hagent
  · intro i hi
    exact holdCarrying_of_sel h hsel hi

/-! ## One path a route -/

/-- What the loops of `pathplane_route_dedup` have done so far. -/
structure DedupInv (t : PathTable) (live : Option Agent) (holds : HoldSlot → PathplaneHold)
    (st : DedupState) : Prop where
  kept : ∀ h, st.1 h = holdNone ∨ st.1 h = holds h
  emptied : ∀ l ∈ st.2, ∃ h, (holds h).agent = some l.1 ∧ (st.1 h).agent = none
  cause : ∀ l ∈ st.2, ∃ i j : Slot, i < j ∧ sameRoute t i j = true ∧
    dedupDrop t live i j = some l.1
  once : (st.2.map Prod.fst).Nodup
  count : slotCount st.1 (fun h => h.agent.isSome) + st.2.length =
    slotCount holds fun h => h.agent.isSome

theorem dedupStep_dedupInv {t : PathTable} {live : Option Agent}
    {holds : HoldSlot → PathplaneHold}
    (hunique : UniqueKey PathplaneHold.agent (fun h => h.agent.isSome) holds) {st : DedupState}
    (h : DedupInv t live holds st) {ij : Slot × Slot} (hij : ij.1 < ij.2) :
    DedupInv t live holds (dedupStep t live st ij) := by
  unfold dedupStep
  split_ifs with hroute
  · exact h
  · split
    · exact h
    · rename_i a hdrop
      split
      · exact h
      · rename_i k hfind
        have hk : (st.1 k).agent = some a := by simpa using firstSlot_spec hfind
        have hk' : (holds k).agent = some a := by
          rcases h.kept k with hnone | hold
          · rw [hnone] at hk
            cases hk
          · rw [← hold]
            exact hk
        constructor
        · intro m
          by_cases hm : m = k
          · subst hm
            exact .inl (Function.update_self _ _ _)
          · have hm' : Function.update st.1 k holdNone m = st.1 m := Function.update_of_ne hm _ _
            dsimp only
            rw [hm']
            exact h.kept m
        · intro l hl
          rw [List.mem_append, List.mem_singleton] at hl
          rcases hl with hl | rfl
          · obtain ⟨m, hm, hnone⟩ := h.emptied l hl
            refine ⟨m, hm, ?_⟩
            by_cases hmk : m = k
            · subst hmk
              show (Function.update st.1 m holdNone m).agent = none
              rw [Function.update_self]
              rfl
            · show (Function.update st.1 k holdNone m).agent = none
              rw [Function.update_of_ne hmk]
              exact hnone
          · refine ⟨k, hk', ?_⟩
            show (Function.update st.1 k holdNone k).agent = none
            rw [Function.update_self]
            rfl
        · intro l hl
          rw [List.mem_append, List.mem_singleton] at hl
          rcases hl with hl | rfl
          · exact h.cause l hl
          · exact ⟨ij.1, ij.2, hij, by simpa using hroute, hdrop⟩
        · rw [List.map_append, List.nodup_append]
          refine ⟨h.once, by simp, ?_⟩
          -- an agent that is still held was not given up before
          intro b hb c hc hbc
          obtain rfl : c = a := by simpa using hc
          subst hbc
          obtain ⟨l, hl, rfl⟩ := List.mem_map.mp hb
          obtain ⟨m, hm, hnone⟩ := h.emptied l hl
          rw [held_slot_eq hunique hm hk', hk] at hnone
          cases hnone
        · have hcount := slotCount_update st.1 (fun h => h.agent.isSome) k holdNone
          have hprev := h.count
          rw [hk, if_pos Option.isSome_some, if_neg (by simp [holdNone])] at hcount
          rw [List.length_append, List.length_singleton]
          show slotCount (Function.update st.1 k holdNone) _ + _ = _
          omega

theorem dedupPairs_lt {ij : Slot × Slot} (h : ij ∈ dedupPairs) : ij.1 < ij.2 := by
  unfold dedupPairs at h
  obtain ⟨i, -, hij⟩ := List.mem_flatMap.mp h
  obtain ⟨j, hj, rfl⟩ := List.mem_map.mp hij
  rw [List.mem_filter] at hj
  simpa using hj.2

theorem routeLosers_dedupInv {s : HoldPlane} (h : HoldInv s) (live : Option Agent) :
    DedupInv s.pl.t live s.holds (routeLosers s live) := by
  have hrun : DedupInv s.pl.t live s.holds
      (run (dedupStep s.pl.t live) (s.holds, []) dedupPairs) := by
    apply run_invariant_of_mem (G := fun ij => ij.1 < ij.2)
    · intro st ij hst hij
      exact dedupStep_dedupInv h.heldOnce hst hij
    · constructor
      · exact fun _ => .inr rfl
      · intro l hl
        cases hl
      · intro l hl
        cases hl
      · exact List.nodup_nil
      · rfl
    · intro ij hij
      exact dedupPairs_lt hij
  exact hrun

/-- The loops never write past the end of the list of losers. -/
theorem routeLosers_length {s : HoldPlane} (h : HoldInv s) (live : Option Agent) :
    (routeLosers s live).2.length ≤ pathplaneHoldMax := by
  have hcount := (routeLosers_dedupInv h live).count
  have hle : slotCount s.holds (fun h => h.agent.isSome) ≤ pathplaneHoldMax := by
    unfold slotCount
    calc _ ≤ (Finset.univ : Finset HoldSlot).card := Finset.card_filter_le _ _
      _ = pathplaneHoldMax := by rw [Finset.card_univ, Fintype.card_fin]
  omega

/-- An agent that the loops give up is one end of a pair on one route, not the live
agent's and not over the slot that carries; it is the later end unless that one must
stay. -/
theorem dedupDrop_cases {t : PathTable} {live : Option Agent} {i j : Slot} {a : Agent}
    (h : dedupDrop t live i j = some a) :
    some a ≠ live ∧
      (((t.p j).agent = some a ∧ t.sel ≠ some j) ∨
        ((t.p i).agent = some a ∧ t.sel ≠ some i ∧ ((t.p j).agent = live ∨ t.sel = some j))) := by
  unfold dedupDrop at h
  split_ifs at h with hj hi
  · rw [← h]
    exact ⟨hj.1, .inl ⟨rfl, hj.2⟩⟩
  · rw [← h]
    refine ⟨hi.1, .inr ⟨rfl, hi.2, ?_⟩⟩
    by_cases hlive : (t.p j).agent = live
    · exact .inl hlive
    · right
      by_contra hsel
      exact hj ⟨hlive, hsel⟩

/-- Is the path one that `pathplane_route_dedup` compares with `i`'s? -/
def OnRoute (t : PathTable) (i j : Slot) : Prop :=
  (t.p j).used = true ∧ (t.p j).kind = .ice ∧ (t.p j).haveSelfEp = true ∧
    (t.p j).peerEp.addr = (t.p i).peerEp.addr ∧ (t.p j).selfEp.addr = (t.p i).selfEp.addr

theorem sameRoute_onRoute {t : PathTable} {i j : Slot} (h : sameRoute t i j = true) :
    OnRoute t i i ∧ OnRoute t i j ∧ OnRoute t j i := by
  unfold sameRoute pathEpSameAddr at h
  simp only [Bool.and_eq_true, beq_iff_eq] at h
  obtain ⟨⟨⟨hui, hki⟩, -⟩, ⟨⟨⟨⟨huj, hkj⟩, hpeer⟩, hsi⟩, hsj⟩, hself⟩ := h
  exact ⟨⟨hui, hki, hsi, rfl, rfl⟩, ⟨huj, hkj, hsj, hpeer.symm, hself.symm⟩,
    ⟨hui, hki, hsi, hpeer, hself⟩⟩

theorem OnRoute.trans {t : PathTable} {i j k : Slot} (h : OnRoute t i j) (h' : OnRoute t j k) :
    OnRoute t i k := by
  obtain ⟨-, -, -, hpeer, hself⟩ := h
  obtain ⟨hu, hk, hs, hpeer', hself'⟩ := h'
  exact ⟨hu, hk, hs, hpeer'.trans hpeer, hself'.trans hself⟩

theorem agent_slot_eq {t : PathTable} (h : TableInv t) {i j : Slot} {a : Agent}
    (hi : (t.p i).used = true) (hj : (t.p j).used = true) (hai : (t.p i).agent = some a)
    (haj : (t.p j).agent = some a) : i = j := by
  apply h.agentUnique i j
  · simp [hi, hai]
  · simp [hj, haj]
  · rw [hai, haj]

/-- The agents given up, by the slot of the path: it is not the one that carries, not
the live agent's, and shares its route with another slot that comes before it or that
must stay. -/
theorem routeLosers_spec {s : HoldPlane} (h : HoldInv s) {live : Option Agent}
    {l : Agent × Option Nat} (hl : l ∈ (routeLosers s live).2) {k : Slot}
    (hk : (s.pl.t.p k).used = true) (hagent : (s.pl.t.p k).agent = some l.1) :
    some l.1 ≠ live ∧ s.pl.t.sel ≠ some k ∧ OnRoute s.pl.t k k ∧
      ∃ m, OnRoute s.pl.t k m ∧
        (m < k ∨ (s.pl.t.p m).agent = live ∨ s.pl.t.sel = some m) := by
  obtain ⟨i, j, hij, hroute, hdrop⟩ := (routeLosers_dedupInv h live).cause l hl
  obtain ⟨hii, hijr, hjir⟩ := sameRoute_onRoute hroute
  obtain ⟨hlive, ⟨haj, hsel⟩ | ⟨hai, hsel, hstay⟩⟩ := dedupDrop_cases hdrop
  · obtain rfl := agent_slot_eq h.table hk hijr.1 hagent haj
    exact ⟨hlive, hsel, hjir.trans hijr, i, hjir, .inl hij⟩
  · obtain rfl := agent_slot_eq h.table hk hii.1 hagent hai
    exact ⟨hlive, hsel, hii, j, hijr, .inr hstay⟩

/-- What `pathplane_route_dedup` gives up is neither the live agent nor the one that
carries. -/
theorem routeLosers_stay {s : HoldPlane} (h : HoldInv s) {live : Option Agent}
    {l : Agent × Option Nat} (hl : l ∈ (routeLosers s live).2) :
    some l.1 ≠ live ∧ some l.1 ≠ selAgent s.pl.t := by
  obtain ⟨i, j, -, hroute, hdrop⟩ := (routeLosers_dedupInv h live).cause l hl
  refine ⟨(dedupDrop_cases hdrop).1, ?_⟩
  intro hsel
  obtain ⟨k, hk, hagent⟩ := Option.bind_eq_some_iff.mp hsel.symm
  exact (routeLosers_spec h hl (h.table.selUsed k hk) hagent).2.1 hk

/-- The agents in the list, given up one after the other. -/
def freeList (s : HoldPlane) (l : List (Agent × Option Nat)) : HoldPlane :=
  l.foldl (fun s l => pathplaneFreeAgent s (some l.1) l.2) s

theorem freeList_freedAgents (s : HoldPlane) (l : List (Agent × Option Nat)) :
    (freeList s l).freedAgents = s.freedAgents ++ l.map Prod.fst := by
  induction l generalizing s with
  | nil => exact (List.append_nil _).symm
  | cons x l ih =>
      show (freeList (pathplaneFreeAgent s (some x.1) x.2) l).freedAgents = _
      rw [ih, freeAgent_freedAgents, List.append_assoc]
      rfl

theorem freeList_holdInv {s : HoldPlane} (h : HoldInv s) {l : List (Agent × Option Nat)}
    (hnodup : (l.map Prod.fst).Nodup)
    (hown : ∀ a ∈ l.map Prod.fst, a ∉ s.freedAgents ∧ NotHeld s a) : HoldInv (freeList s l) := by
  induction l generalizing s with
  | nil => exact h
  | cons x l ih =>
      rw [List.map_cons, List.nodup_cons] at hnodup
      rw [List.map_cons, List.forall_mem_cons] at hown
      show HoldInv (freeList (pathplaneFreeAgent s (some x.1) x.2) l)
      apply ih _ hnodup.2
      · intro a ha
        refine ⟨?_, (hown.2 a ha).2⟩
        rw [freeAgent_freedAgents, List.mem_append, Option.mem_toList]
        rintro (hfreed | hx)
        · exact (hown.2 a ha).1 hfreed
        · obtain rfl : x.1 = a := Option.some.inj hx
          exact hnodup.1 ha
      · apply freeAgent_holdInv h
        intro a ha
        obtain rfl : x.1 = a := Option.some.inj ha
        exact hown.1

theorem freeList_path {s : HoldPlane} {l : List (Agent × Option Nat)} {k : Slot}
    (h : ∀ x ∈ l, (s.pl.t.p k).agent ≠ some x.1) : (freeList s l).pl.t.p k = s.pl.t.p k := by
  induction l generalizing s with
  | nil => rfl
  | cons x l ih =>
      rw [List.forall_mem_cons] at h
      have hstep : (pathplaneFreeAgent s (some x.1) x.2).pl.t.p k = s.pl.t.p k := by
        apply if_neg
        rintro ⟨-, hagent⟩
        exact h.1 (by simpa using hagent)
      show (freeList (pathplaneFreeAgent s (some x.1) x.2) l).pl.t.p k = _
      rw [ih (by rw [hstep]; exact h.2), hstep]

theorem routeDedup_eq (s : HoldPlane) (live : Option Agent) :
    pathplaneRouteDedup s live =
      freeList { s with holds := (routeLosers s live).1 } (routeLosers s live).2 := rfl

theorem routeDedup_holdInv {s : HoldPlane} (h : HoldInv s) (live : Option Agent) :
    HoldInv (pathplaneRouteDedup s live) := by
  have hd := routeLosers_dedupInv h live
  have hback : ∀ i, ((routeLosers s live).1 i).agent.isSome = true →
      (routeLosers s live).1 i = s.holds i := by
    intro i hi
    rcases hd.kept i with hnone | hold
    · rw [hnone] at hi
      cases hi
    · exact hold
  rw [routeDedup_eq]
  apply freeList_holdInv _ hd.once
  · intro a ha
    obtain ⟨l, hl, rfl⟩ := List.mem_map.mp ha
    obtain ⟨m, hm, hnone⟩ := hd.emptied l hl
    constructor
    · intro hfreed
      exact h.heldLive l.1 hfreed m hm
    · intro i hi
      have hi' : ((routeLosers s live).1 i).agent = some l.1 := hi
      have hold := hback i (by rw [hi']; rfl)
      have him : i = m := held_slot_eq h.heldOnce (hold ▸ hi') hm
      rw [him, hnone] at hi'
      cases hi'
  · constructor
    · exact h.table
    · apply h.heldOnce.of_back
      intro i hi
      have hold := hback i hi
      refine ⟨?_, congrArg PathplaneHold.agent hold⟩
      rw [← hold]
      exact hi
    · exact h.freedOnce
    · intro a ha i hi
      have hi' : ((routeLosers s live).1 i).agent = some a := hi
      rw [hback i (by rw [hi']; rfl)] at hi'
      exact h.heldLive a ha i hi'
    · exact h.namedLive

/-- Every route that had an agent's path still has one. -/
theorem routeDedup_route {s : HoldPlane} (h : HoldInv s) (live : Option Agent) {i : Slot}
    (hused : (s.pl.t.p i).used = true) (hice : (s.pl.t.p i).kind = .ice) :
    ∃ k, ((pathplaneRouteDedup s live).pl.t.p k).used = true ∧
      (pathplaneRouteDedup s live).pl.t.p k = s.pl.t.p k ∧ (s.pl.t.p k).kind = .ice ∧
      (s.pl.t.p k).haveSelfEp = (s.pl.t.p i).haveSelfEp ∧
      (s.pl.t.p k).selfEp.addr = (s.pl.t.p i).selfEp.addr ∧
      (s.pl.t.p k).peerEp.addr = (s.pl.t.p i).peerEp.addr := by
  -- a path stays where its agent is not given up
  have hstays : ∀ k, (s.pl.t.p k).used = true →
      (∀ l ∈ (routeLosers s live).2, (s.pl.t.p k).agent ≠ some l.1) →
      ((pathplaneRouteDedup s live).pl.t.p k).used = true ∧
        (pathplaneRouteDedup s live).pl.t.p k = s.pl.t.p k := by
    intro k hk hnot
    have hpath : (pathplaneRouteDedup s live).pl.t.p k = s.pl.t.p k := by
      rw [routeDedup_eq]
      exact freeList_path hnot
    exact ⟨hpath ▸ hk, hpath⟩
  by_cases hgone : ∃ l ∈ (routeLosers s live).2, (s.pl.t.p i).agent = some l.1
  · obtain ⟨l, hl, hagent⟩ := hgone
    obtain ⟨-, -, hself, -⟩ := routeLosers_spec h hl hused hagent
    -- the one to look for: a path of the route that must stay, else the first of them
    have hkept : ∃ k, OnRoute s.pl.t i k ∧
        ∀ l ∈ (routeLosers s live).2, (s.pl.t.p k).agent ≠ some l.1 := by
      by_cases hstay : ∃ m, OnRoute s.pl.t i m ∧
          ((s.pl.t.p m).agent = live ∨ s.pl.t.sel = some m)
      · obtain ⟨m, hm, hwhy⟩ := hstay
        refine ⟨m, hm, ?_⟩
        intro l hl hagent
        obtain ⟨hlive, hsel, -⟩ := routeLosers_spec h hl hm.1 hagent
        rcases hwhy with hwhy | hwhy
        · exact hlive (hagent ▸ hwhy)
        · exact hsel hwhy
      · classical
        have hne : (Finset.univ.filter (OnRoute s.pl.t i)).Nonempty := ⟨i, by simpa using hself⟩
        obtain ⟨k, hk, hmin⟩ := Finset.exists_min_image _ id hne
        simp only [Finset.mem_filter, Finset.mem_univ, true_and, id] at hk hmin
        refine ⟨k, hk, ?_⟩
        intro l hl hagent
        obtain ⟨-, -, -, m, hm, hwhy⟩ := routeLosers_spec h hl hk.1 hagent
        have hm' := hk.trans hm
        rcases hwhy with hlt | hwhy
        · exact absurd (hmin m hm') (not_le_of_gt hlt)
        · exact hstay ⟨m, hm', hwhy⟩
    obtain ⟨k, hk, hnot⟩ := hkept
    obtain ⟨hk', hpath⟩ := hstays k hk.1 hnot
    exact ⟨k, hk', hpath, hk.2.1, hk.2.2.1.trans hself.2.2.1.symm, hk.2.2.2.2, hk.2.2.2.1⟩
  · push Not at hgone
    obtain ⟨hi', hpath⟩ := hstays i hused hgone
    exact ⟨i, hi', hpath, hice, rfl, rfl, rfl⟩

/-! ## Whole runs -/

/-- A call into the plane, or one about the agents it holds. -/
inductive HoldEvent where
  | plane (ev : PlaneEvent)
  | holdAdd (agent : Option Agent) (ctx : Option Nat) (untilMs : Nat)
  | holdTake (i : Option HoldSlot)
  | reap (failed : Agent → Bool) (now : Nat)
  | dedup (live : Option Agent)
  | settle (live : Option Agent) (ctx : Option Nat)
  | freeAll

/-- The plane after one call. -/
def holdStep (blake2b : Blake2b) (base : Bytes) (s : HoldPlane) : HoldEvent → HoldPlane
  | .plane ev => { s with pl := planeStep blake2b base s.pl ev }
  | .holdAdd agent ctx untilMs => pathplaneHoldAdd s agent ctx untilMs
  | .holdTake i => (pathplaneHoldTake s i).1
  | .reap failed now => pathplaneHoldsReap s failed now
  | .dedup live => pathplaneRouteDedup s live
  | .settle live ctx => (pathplaneHoldsSettle s live ctx).1
  | .freeAll => pathplaneHoldsFreeAll s

/-- Each agent is handed over once: what the caller passes on to be held or given up
is neither held nor freed yet, and a path is entered for no agent that was freed. -/
def HandedOver (s : HoldPlane) : HoldEvent → Prop
  | .plane ev => ∀ a ∈ ev.entered, a ∉ s.freedAgents
  | .holdAdd agent _ _ => ∀ a ∈ agent, a ∉ s.freedAgents ∧ NotHeld s a
  | .settle live _ => ∀ a ∈ live, a ∉ s.freedAgents ∧ NotHeld s a
  | _ => True

instance decidableHandedOver (s : HoldPlane) : ∀ ev, Decidable (HandedOver s ev)
  | .plane ev => inferInstanceAs (Decidable (∀ a ∈ ev.entered, _))
  | .holdAdd agent _ _ => inferInstanceAs (Decidable (∀ a ∈ agent, _))
  | .settle live _ => inferInstanceAs (Decidable (∀ a ∈ live, _))
  | .holdTake _ => isTrue trivial
  | .reap _ _ => isTrue trivial
  | .dedup _ => isTrue trivial
  | .freeAll => isTrue trivial

theorem holdStep_holdInv (blake2b : Blake2b) (base : Bytes) {s : HoldPlane} (h : HoldInv s)
    {ev : HoldEvent} (hev : HandedOver s ev) : HoldInv (holdStep blake2b base s ev) := by
  cases ev with
  | plane ev =>
      obtain ⟨hinv, hagents⟩ := planeStep_tableStep blake2b base s.pl ev
      constructor
      · exact hinv h.table
      · exact h.heldOnce
      · exact h.freedOnce
      · exact h.heldLive
      · intro i a hused hagent
        rcases hagents i a hused hagent with ⟨j, hj, haj⟩ | hent
        · exact h.namedLive j a hj haj
        · exact hev a hent
  | holdAdd agent ctx untilMs => exact holdAdd_holdInv h ctx untilMs hev
  | holdTake i => exact holdTake_holdInv h i
  | reap failed now => exact holdsReap_holdInv h failed now
  | dedup live => exact routeDedup_holdInv h live
  | settle live ctx => exact holdsSettle_holdInv h ctx hev
  | freeAll => exact holdsFreeAll_holdInv h

/-- Over all calls in which each agent is handed over once: no agent is freed twice, no
path names one that was freed, reaping leaves the agent that carries alone,
`pathplane_route_dedup` gives up neither that one nor the live one, notes no more of
them than it has room for, and leaves every route of an agent's path one such path. -/
theorem agents_freed_once (blake2b : Blake2b) (base : Bytes) (events : List HoldEvent)
    (hev : EveryStep (holdStep blake2b base) HandedOver holdPlaneInit events) :
    let s := run (holdStep blake2b base) holdPlaneInit events
    s.freedAgents.Nodup ∧
      (∀ i a, (s.pl.t.p i).used = true → (s.pl.t.p i).agent = some a → a ∉ s.freedAgents) ∧
      (∀ failed now a, selAgent s.pl.t = some a →
        a ∉ (pathplaneHoldsReap s failed now).freedAgents) ∧
      (∀ live, (pathplaneRouteDedup s live).freedAgents =
          s.freedAgents ++ (routeLosers s live).2.map Prod.fst ∧
        (∀ a ∈ (routeLosers s live).2.map Prod.fst, some a ≠ live ∧ some a ≠ selAgent s.pl.t) ∧
        (routeLosers s live).2.length ≤ pathplaneHoldMax) ∧
      ∀ live i, (s.pl.t.p i).used = true → (s.pl.t.p i).kind = .ice →
        ∃ k, ((pathplaneRouteDedup s live).pl.t.p k).used = true ∧
          ((pathplaneRouteDedup s live).pl.t.p k).kind = .ice ∧
          ((pathplaneRouteDedup s live).pl.t.p k).haveSelfEp = (s.pl.t.p i).haveSelfEp ∧
          ((pathplaneRouteDedup s live).pl.t.p k).selfEp.addr = (s.pl.t.p i).selfEp.addr ∧
          ((pathplaneRouteDedup s live).pl.t.p k).peerEp.addr = (s.pl.t.p i).peerEp.addr := by
  intro s
  have hinv : HoldInv s :=
    run_invariant_of_everyStep (I := HoldInv)
      (fun _ _ h hev => holdStep_holdInv blake2b base h hev) holdPlaneInit_holdInv hev
  refine ⟨hinv.freedOnce, hinv.namedLive, ?_, ?_, ?_⟩
  · intro failed now a hsel
    exact holdsReap_keeps_sel hinv failed now hsel
  · intro live
    refine ⟨freeList_freedAgents _ _, ?_, routeLosers_length hinv live⟩
    intro a ha
    obtain ⟨l, hl, rfl⟩ := List.mem_map.mp ha
    exact routeLosers_stay hinv hl
  · intro live i hused hice
    obtain ⟨k, hk, hpath, hkind, hhave, hself, hpeer⟩ := routeDedup_route hinv live hused hice
    refine ⟨k, hk, ?_⟩
    rw [hpath]
    exact ⟨hkind, hhave, hself, hpeer⟩

/-- Two agents with a path each; the first is set aside, and reaped when its time is
up. -/
def replacedRun : List HoldEvent :=
  [.plane (.addIce (some 1) 0), .plane (.addIce (some 2) 5), .holdAdd (some 1) (some 9) 100,
    .dedup (some 2), .reap (fun _ => false) 50, .reap (fun _ => false) 100,
    .settle (some 2) none]

set_option maxRecDepth 4000

theorem agents_freed_once_replacedRun :
    (run (holdStep (fun _ _ => Vector.replicate 32 0) []) holdPlaneInit replacedRun).freedAgents =
        [1] ∧
      EveryStep (holdStep (fun _ _ => Vector.replicate 32 0) []) HandedOver holdPlaneInit
        replacedRun ∧
      ∀ live, (routeLosers (run (holdStep (fun _ _ => Vector.replicate 32 0) []) holdPlaneInit
        replacedRun) live).2.length ≤ pathplaneHoldMax := by
  have hev : EveryStep (holdStep (fun _ _ => Vector.replicate 32 0) []) HandedOver holdPlaneInit
      replacedRun := by
    decide
  refine ⟨by decide, hev, ?_⟩
  intro live
  exact ((agents_freed_once (fun _ _ => Vector.replicate 32 0) [] replacedRun hev).2.2.2.1
    live).2.2

end Paths
end Comrade
