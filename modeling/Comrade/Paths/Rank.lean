import Comrade.Paths.Table

/-!
# The two ends agree

Neither end decides for the other: each ranks the paths it holds by its own
measurements and the ones the other end publishes.  The two tables hold the same
paths in whatever slots, and what is the own measurement at one end is the
peer's at the other.

* `Mirrors` says this of one path, `MirroredTables` of two tables.
* `Mirrors.pathBucket_eq`: the cost is symmetric in the two views.
* `pathBest_agree`: the two ends pick one path, and `path_cmp` is a strict total
  order wherever ids are distinct.
-/

namespace Comrade
namespace Paths

open Lib

/-- One path as its two ends see it, each by its own clock. -/
structure Mirrors (now now' : Nat) (p q : Path) : Prop where
  id_eq : p.id = q.id
  warmth_eq : pathWarmthOf p now = pathWarmthOf q now'
  usable_eq : p.usable = q.usable
  peerSrtt_eq : p.peerSrttMs = pathSrttMs q
  peerLoss_eq : p.peerLossPpt = pathLossPpt q
  srtt_eq_peer : pathSrttMs p = q.peerSrttMs
  loss_eq_peer : pathLossPpt p = q.peerLossPpt

instance (now now' : Nat) (p q : Path) : Decidable (Mirrors now now' p q) :=
  decidable_of_iff
    (p.id = q.id ∧ pathWarmthOf p now = pathWarmthOf q now' ∧ p.usable = q.usable ∧
      p.peerSrttMs = pathSrttMs q ∧ p.peerLossPpt = pathLossPpt q ∧
      pathSrttMs p = q.peerSrttMs ∧ pathLossPpt p = q.peerLossPpt)
    ⟨fun ⟨h₁, h₂, h₃, h₄, h₅, h₆, h₇⟩ => ⟨h₁, h₂, h₃, h₄, h₅, h₆, h₇⟩,
      fun h => ⟨h.1, h.2, h.3, h.4, h.5, h.6, h.7⟩⟩

/-- Two tables that hold the same paths, with distinct ids, none of them fully
lost at either end. -/
structure MirroredTables (now now' : Nat) (t t' : PathTable) : Prop where
  distinct : UniqueKey Path.id Path.used t.p
  distinct' : UniqueKey Path.id Path.used t'.p
  forth : ∀ i, (t.p i).used = true → ∃ j, (t'.p j).used = true ∧ Mirrors now now' (t.p i) (t'.p j)
  back : ∀ j, (t'.p j).used = true → ∃ i, (t.p i).used = true ∧ Mirrors now now' (t.p i) (t'.p j)
  notLost : ∀ i, (t.p i).used = true → fullyLost (t.p i) = false
  notLost' : ∀ j, (t'.p j).used = true → fullyLost (t'.p j) = false

/-- The cost does not depend on whose view is the own one. -/
theorem pathCostOf_comm (srttA lossA srttB lossB : Int) :
    pathCostOf srttA lossA srttB lossB = pathCostOf srttB lossB srttA lossA := by
  have hmax : ∀ x y : Int, (if x > y then x else y) = if y > x then y else x := by
    intro x y
    split_ifs <;> omega
  unfold pathCostOf
  rw [hmax srttA srttB, hmax lossA lossB]

variable {now now' : Nat} {t t' : PathTable}

theorem Mirrors.symm {p q : Path} (h : Mirrors now now' p q) : Mirrors now' now q p where
  id_eq := h.id_eq.symm
  warmth_eq := h.warmth_eq.symm
  usable_eq := h.usable_eq.symm
  peerSrtt_eq := h.srtt_eq_peer.symm
  peerLoss_eq := h.loss_eq_peer.symm
  srtt_eq_peer := h.peerSrtt_eq.symm
  loss_eq_peer := h.peerLoss_eq.symm

theorem Mirrors.pathBucket_eq {p q : Path} (h : Mirrors now now' p q) :
    pathBucket p = pathBucket q := by
  unfold pathBucket pathCost
  rw [h.peerSrtt_eq, h.peerLoss_eq, h.srtt_eq_peer, h.loss_eq_peer, pathCostOf_comm]

/-- The two ends rank two paths alike. -/
theorem Mirrors.pathCmp_eq {p q p' q' : Path} (hp : Mirrors now now' p p')
    (hq : Mirrors now now' q q') : pathCmp p q now = pathCmp p' q' now' := by
  unfold pathCmp
  rw [hp.warmth_eq, hq.warmth_eq, hp.pathBucket_eq, hq.pathBucket_eq, hp.id_eq, hq.id_eq]

theorem MirroredTables.symm (h : MirroredTables now now' t t') :
    MirroredTables now' now t' t where
  distinct := h.distinct'
  distinct' := h.distinct
  forth := by
    intro j hj
    obtain ⟨i, hi, hm⟩ := h.back j hj
    exact ⟨i, hi, hm.symm⟩
  back := by
    intro i hi
    obtain ⟨j, hj, hm⟩ := h.forth i hi
    exact ⟨j, hj, hm.symm⟩
  notLost := h.notLost'
  notLost' := h.notLost

/-- A candidate of one end is a candidate of the other. -/
theorem MirroredTables.candidate_forth (h : MirroredTables now now' t t') {i : Slot}
    (hi : candidate (t.p i) = true) :
    ∃ j, candidate (t'.p j) = true ∧ Mirrors now now' (t.p i) (t'.p j) := by
  simp only [candidate, Bool.and_eq_true] at hi
  obtain ⟨j, hj, hm⟩ := h.forth i hi.1.1
  refine ⟨j, ?_, hm⟩
  simp only [candidate, Bool.and_eq_true]
  exact ⟨⟨hj, hm.usable_eq ▸ hi.1.2⟩, by simp [h.notLost' j hj]⟩

/-- Neither of the two choices ranks ahead of the other, so they are one path. -/
theorem MirroredTables.pathBest_id_eq (h : MirroredTables now now' t t') {b b' : Slot}
    (hb : pathBest t now = some b) (hb' : pathBest t' now' = some b') :
    (t.p b).id = (t'.p b').id := by
  have hspec := pathBest_spec t now
  have hspec' := pathBest_spec t' now'
  rw [hb] at hspec
  rw [hb'] at hspec'
  obtain ⟨hcand, hmin⟩ := hspec
  obtain ⟨hcand', hmin'⟩ := hspec'
  -- each choice has its counterpart in the other table
  obtain ⟨c', hc', hm⟩ := h.candidate_forth hcand
  obtain ⟨c, hc, hm'⟩ := h.symm.candidate_forth hcand'
  have hahead := hmin c hc
  have hahead' := hmin' c' hc'
  rw [← hm'.pathCmp_eq hm.symm] at hahead
  by_contra hne
  have hids : (t'.p b').id ≠ (t'.p c').id := by
    rw [← hm.id_eq]
    exact fun heq => hne heq.symm
  rcases pathCmp_neg_or now' hids with hlt | hlt
  · exact hahead hlt
  · exact hahead' hlt

/-- Two ends that hold the same paths under the same pair of views carry the
session on one path, or both on none; and the order they choose by is a strict
total order on any set of paths with distinct ids. -/
theorem pathBest_agree :
    (∀ (now now' : Nat) (t t' : PathTable), MirroredTables now now' t t' →
      (pathBest t now).map (fun i => (t.p i).id) =
        (pathBest t' now').map fun j => (t'.p j).id) ∧
    (∀ (now : Nat) (S : Set Path), Set.InjOn Path.id S →
      IsStrictTotalOrder S fun a b => pathCmp a b now < 0) := by
  constructor
  · intro now now' t t' h
    have hspec := pathBest_spec t now
    have hspec' := pathBest_spec t' now'
    cases hb : pathBest t now with
    | none =>
        cases hb' : pathBest t' now' with
        | none => rfl
        | some b' =>
            rw [hb] at hspec
            rw [hb'] at hspec'
            obtain ⟨c, hc, -⟩ := h.symm.candidate_forth hspec'.1
            rw [hspec c] at hc
            cases hc
    | some b =>
        cases hb' : pathBest t' now' with
        | none =>
            rw [hb] at hspec
            rw [hb'] at hspec'
            obtain ⟨c, hc, -⟩ := h.candidate_forth hspec.1
            rw [hspec' c] at hc
            cases hc
        | some b' =>
            rw [Option.map_some, Option.map_some, h.pathBest_id_eq hb hb']
  · intro now S hinj
    exact
      { trichotomous := by
          intro a b hab hba
          by_contra hne
          have hid : (a : Path).id ≠ (b : Path).id := by
            intro heq
            exact hne (Subtype.ext (hinj a.2 b.2 heq))
          rcases pathCmp_neg_or now hid with hlt | hlt
          · exact hab hlt
          · exact hba hlt
        irrefl := by
          intro a
          rw [pathCmp_self]
          exact lt_irrefl 0
        trans := by
          intro a b c hab hbc
          exact pathCmp_neg_trans hab hbc }

/-- A path that answered at time 0, with a name and the two views of its round
trip. -/
def measuredPath (name : UInt8) (own peer : Int) : Path :=
  { pathZero with
    used := true
    usable := true
    qualified := true
    id := Vector.replicate 8 name
    srtt8 := own * 8
    peerSrttMs := peer }

/-- A table of two paths. -/
def twoPaths (p q : Path) : PathTable where
  p := fun i => if i.val = 0 then p else if i.val = 1 then q else pathZero
  sel := none

/-- Two paths in opposite slots, with a round trip that looks shorter on a
different one from each end: both ends take the second. -/
theorem pathBest_agree_twoPaths :
    let t := twoPaths (measuredPath 1 10 40) (measuredPath 2 30 20)
    let t' := twoPaths (measuredPath 2 20 30) (measuredPath 1 40 10)
    MirroredTables 1000 2000 t t' ∧
      (pathBest t 1000).map (fun i => (t.p i).id) = some (Vector.replicate 8 2) ∧
      (pathBest t 1000).map (fun i => (t.p i).id) =
        (pathBest t' 2000).map (fun j => (t'.p j).id) ∧
      IsStrictTotalOrder ({measuredPath 1 10 40, measuredPath 2 30 20} : Set Path)
        fun a b => pathCmp a b 1000 < 0 := by
  intro t t'
  have hmirror : MirroredTables 1000 2000 t t' :=
    ⟨by unfold UniqueKey; decide, by unfold UniqueKey; decide,
      by decide, by decide, by decide, by decide⟩
  have hinj : Set.InjOn Path.id {measuredPath 1 10 40, measuredPath 2 30 20} := by
    rintro a (rfl | rfl) b (rfl | rfl) hid
    · rfl
    · exact absurd hid (by decide)
    · exact absurd hid (by decide)
    · rfl
  exact ⟨hmirror, by decide, pathBest_agree.1 1000 2000 t t' hmirror,
    pathBest_agree.2 1000 _ hinj⟩

end Paths
end Comrade
