import Comrade.Paths.Edits

/-!
# What a pin names

The other end states a path by its id, and `pathplane_pin` takes the first path in use
that has it.  An id is computed when an endpoint of the path is learnt; until then it is
all zero, and so is that of every other path that has not been answered.

* `Named` is what every run keeps up of a path's id: it is all zero, or it was computed
  from the two endpoints that the path has now.
* `pin_names_iff`: in every reachable plane a pin that goes through names one path by its
  endpoints exactly when the id stated is not the all-zero one and no other path that has
  an id has the same two endpoints.
-/

namespace Comrade
namespace Paths

open Lib

/-- The id of a path whose endpoints are not known yet. -/
def pathIdUnknown : PathId := Vector.replicate 8 0

/-- The two paths have the same two endpoints, whichever each calls its own. -/
def SamePair (p q : Path) : Prop :=
  (p.selfEp = q.selfEp ∧ p.peerEp = q.peerEp) ∨ (p.selfEp = q.peerEp ∧ p.peerEp = q.selfEp)

instance (p q : Path) : Decidable (SamePair p q) :=
  inferInstanceAs (Decidable (_ ∨ _))

section Names

variable (blake2b : Blake2b) (base : Bytes)

/-- The name of the path's own two endpoints. -/
def ownId (p : Path) : PathId := pathIdCalc blake2b base p.selfEp p.peerEp

/-- The path has no id yet, or the one of its own two endpoints. -/
def Named (p : Path) : Prop := p.id = pathIdUnknown ∨ p.id = ownId blake2b base p

/-- A pin of `id` that goes through has chosen a path whose own endpoints `id` was
computed from and are known, and which is the only one under that id. -/
def PinNames (pl : PathPlane) (k : PlaneSinks) (id : PathId) (now : Nat) : Prop :=
  (pathplanePin pl k id now).2 = .ok →
    ∃ i, (pathplanePin pl k id now).1.t.sel = some i ∧ (pl.t.p i).used = true ∧
      id = ownId blake2b base (pl.t.p i) ∧ id ≠ pathIdUnknown ∧
      ∀ j, j ≠ i → (pl.t.p j).used = true → (pl.t.p j).id ≠ id

/-- The hash tells the endpoint pairs in the table apart. -/
def PairsApart (t : PathTable) : Prop :=
  ∀ i j, (t.p i).used = true → (t.p j).used = true →
    ownId blake2b base (t.p i) = ownId blake2b base (t.p j) → SamePair (t.p i) (t.p j)

variable {blake2b base}

theorem ownId_of_samePair {p q : Path} (h : SamePair p q) :
    ownId blake2b base p = ownId blake2b base q := by
  unfold ownId
  rcases h with ⟨hself, hpeer⟩ | ⟨hself, hpeer⟩
  · rw [hself, hpeer]
  · rw [hself, hpeer, pathIdCalc_comm]

/-! ## Every run keeps the ids -/

theorem Named.of_eq {p p' : Path} (h : Named blake2b base p) (hid : p'.id = p.id)
    (hself : p'.selfEp = p.selfEp) (hpeer : p'.peerEp = p.peerEp) : Named blake2b base p' := by
  unfold Named ownId
  rw [hid, hself, hpeer]
  exact h

theorem pathIdRefresh_named (p : Path) : Named blake2b base (pathIdRefresh blake2b base p) :=
  .inr rfl

/-- One edit of a path: where an endpoint moves the id is computed again, and only a
path that enters its slot loses it. -/
theorem pathEdit_named {p p' : Path} (h : PathEdit blake2b base p p')
    (hp : Named blake2b base p) : Named blake2b base p' := by
  cases h with
  | usable b => exact hp.of_eq rfl rfl rfl
  | expire now =>
      unfold pathProbeExpire
      split_ifs
      · exact hp
      · exact hp.of_eq rfl rfl rfl
  | peerEp ep =>
      unfold pathSetPeerEp
      split_ifs
      · exact hp
      · exact pathIdRefresh_named _
  | selfEp ep =>
      unfold pathSetSelfEp
      split_ifs
      · exact hp
      · exact pathIdRefresh_named _
  | sawInbound ep =>
      unfold pathSawInbound
      split_ifs
      · exact hp
      · exact hp.of_eq rfl rfl rfl
  | peerView srtt loss rtt => exact hp.of_eq rfl rfl rfl
  | sent nonce now => exact hp.of_eq rfl rfl rfl
  | pong nonce now =>
      unfold pathProbePong
      dsimp only
      split_ifs
      · exact hp
      all_goals exact hp.of_eq rfl rfl rfl
  | reset now => exact hp.of_eq rfl rfl rfl
  | cleared => exact .inl rfl
  | entered kind remote agent ep now => exact .inl rfl

/-- Whatever calls were made, the id of every path is all zero or that of its own two
endpoints. -/
theorem run_named (events : List PlaneEvent) (i : Slot) :
    Named blake2b base ((run (planeStep blake2b base) pathplaneInit events).t.p i) :=
  run_edits (.inl rfl) (fun _ _ h hp => pathEdit_named h hp) events i

/-! ## The pin -/

/-- Everything a pin answers: it goes through on the first path under the id where that
can carry. -/
theorem pathplanePin_ok {pl : PathPlane} {k : PlaneSinks} {id : PathId} {now : Nat}
    (h : (pathplanePin pl k id now).2 = .ok) :
    ∃ i, pathById pl.t id = some i ∧ usableNow k (pl.t.p i) = true := by
  unfold pathplanePin at h
  cases hid : pathById pl.t id with
  | none =>
      rw [hid] at h
      cases h
  | some i =>
      rw [hid] at h
      refine ⟨i, rfl, ?_⟩
      by_contra hnot
      rw [Bool.not_eq_true] at hnot
      simp [hnot] at h

theorem pathplanePin_of_usable {pl : PathPlane} {k : PlaneSinks} {id : PathId} {i : Slot}
    (hid : pathById pl.t id = some i) (husable : usableNow k (pl.t.p i) = true) (now : Nat) :
    (pathplanePin pl k id now).2 = .ok ∧ (pathplanePin pl k id now).1.t.sel = some i := by
  unfold pathplanePin
  rw [hid]
  simp [husable]

theorem pathById_spec {t : PathTable} {id : PathId} {i : Slot} (h : pathById t id = some i) :
    (t.p i).used = true ∧ (t.p i).id = id := by
  have hfound := firstSlot_spec h
  simpa only [Bool.and_eq_true, beq_iff_eq] using hfound

/-- In every plane that the calls reach, with a hash that tells the endpoint pairs in the
table apart, and for every id that the other end may state: a pin that goes through names
one path by its own two endpoints, exactly when the path that it finds is not found under
the all-zero id and shares its two endpoints with no other path that has an id. -/
theorem pin_names_iff (events : List PlaneEvent) (k : PlaneSinks) (id : PathId) (now : Nat)
    (hapart : PairsApart blake2b base (run (planeStep blake2b base) pathplaneInit events).t) :
    let pl := run (planeStep blake2b base) pathplaneInit events
    PinNames blake2b base pl k id now ↔
      ∀ i, pathById pl.t id = some i → usableNow k (pl.t.p i) = true →
        id ≠ pathIdUnknown ∧
          ∀ j, j ≠ i → (pl.t.p j).used = true → (pl.t.p j).id ≠ pathIdUnknown →
            ¬SamePair (pl.t.p i) (pl.t.p j) := by
  intro pl
  have hnamed : ∀ i, (pl.t.p i).id ≠ pathIdUnknown →
      (pl.t.p i).id = ownId blake2b base (pl.t.p i) :=
    fun i hknown => (run_named events i).resolve_left hknown
  constructor
  · intro h i hi husable
    obtain ⟨hok, hsel⟩ := pathplanePin_of_usable hi husable now
    obtain ⟨i', hi', -, hown, hknown, honly⟩ := h hok
    obtain rfl : i' = i := Option.some.inj (hi'.symm.trans hsel)
    refine ⟨hknown, ?_⟩
    intro j hj hused hjknown hpair
    apply honly j hj hused
    rw [hnamed j hjknown, hown, ownId_of_samePair hpair]
  · intro h hok
    obtain ⟨i, hi, husable⟩ := pathplanePin_ok hok
    obtain ⟨hused, hid⟩ := pathById_spec hi
    obtain ⟨hknown, hpairs⟩ := h i hi husable
    have hown : id = ownId blake2b base (pl.t.p i) := by
      rw [← hid] at hknown
      exact hid.symm.trans (hnamed i hknown)
    refine ⟨i, (pathplanePin_of_usable hi husable now).2, hused, hown, hknown, ?_⟩
    intro j hj hjused hsame
    have hjknown : (pl.t.p j).id ≠ pathIdUnknown := hsame ▸ hknown
    apply hpairs j hj hjused hjknown
    apply hapart i j hused hjused
    rw [← hown, ← hsame, hnamed j hjknown]

end Names

instance (blake2b : Blake2b) (base : Bytes) (t : PathTable) :
    Decidable (PairsApart blake2b base t) :=
  inferInstanceAs (Decidable (∀ _, _))

set_option maxRecDepth 4000

/-- Two paths answered, and the one to `::3` is stated. -/
theorem pin_names_answered :
    let pl := run (planeStep turnedHash []) pathplaneInit (silentPath 3)
    (pathplanePin pl openSinks (testId 3) 9000).2 = .ok ∧
      PinNames turnedHash [] pl openSinks (testId 3) 9000 := by
  refine ⟨by decide, ?_⟩
  refine (pin_names_iff (silentPath 3) openSinks (testId 3) 9000 (by decide)).mpr ?_
  decide

/-- Two paths of the lanlink, neither of which has been answered. -/
def freshPaths : List PlaneEvent :=
  [.addEp openSinks .routed (testAddr 2) 0, .addEp openSinks .routed (testAddr 3) 0]

/-- The all-zero id of a carry that has no name yet is stated, and the pin goes through on
the first of the two paths that have none here. -/
theorem pin_unknown_freshPaths :
    ¬∀ (blake2b : Blake2b) (base : Bytes) (events : List PlaneEvent) (k : PlaneSinks)
      (id : PathId) (now : Nat),
      PinNames blake2b base (run (planeStep blake2b base) pathplaneInit events) k id now := by
  intro h
  obtain ⟨i, -, -, -, hknown, -⟩ :=
    h turnedHash [] freshPaths openSinks pathIdUnknown 10 (by decide)
  exact hknown rfl

end Paths
end Comrade
