import Comrade.Lib.Run
import Comrade.Paths.Plane

/-!
# The slots of the path table over whole runs

The table is changed by the calls below, in any order and at any times.  Slots are
recycled by three rules that know nothing of each other: `path_table_spare` asks
whether some dead path could go, `path_table_evict` picks the path that goes, and
`sel` keeps naming a slot by its number.

* `pathTableEvict_spec`: the slot that is given up is never the one in use, and a
  dead path goes before any that is alive.
* `TableInv` is what every call keeps up: the choice names a path, and an agent
  has one path at most.
* `LanlinkUnique` is the same for the endpoints of the shared socket.
-/

namespace Comrade
namespace Paths

open Lib

/-! ## What the table keeps -/

/-- The choice is none or a slot in use. -/
def SelUsed (t : PathTable) : Prop := ∀ i, t.sel = some i → (t.p i).used = true

/-- No two paths in use are over one agent. -/
def AgentUnique (t : PathTable) : Prop :=
  UniqueKey Path.agent (fun p => p.used && p.agent.isSome) t.p

/-- No two paths in use over the shared socket have one kind and one endpoint. -/
def LanlinkUnique (t : PathTable) : Prop :=
  UniqueKey (fun p => (p.kind, p.peerEp)) (fun p => p.used && kindIsLanlink p.kind) t.p

/-- What every call keeps up, whatever its arguments. -/
structure TableInv (t : PathTable) : Prop where
  selUsed : SelUsed t
  agentUnique : AgentUnique t

/-- The call left the table alone, or wrote one slot that passes `ok`. -/
def WritesOnly (ok : Slot → Prop) (t t' : PathTable) : Prop :=
  t' = t ∨ ∃ i p, ok i ∧ t' = t.set i p

/-- Two tables with the same paths in them: what else the slots hold may differ. -/
def SamePaths (t t' : PathTable) : Prop :=
  ∀ i, (t'.p i).used = (t.p i).used ∧ (t'.p i).kind = (t.p i).kind ∧
    (t'.p i).agent = (t.p i).agent ∧
    (kindIsLanlink (t.p i).kind = true → (t'.p i).peerEp = (t.p i).peerEp)

theorem SamePaths.agentUnique {t t' : PathTable} (hsame : SamePaths t t') (h : AgentUnique t) :
    AgentUnique t' := by
  apply UniqueKey.of_back h
  intro i hi
  obtain ⟨hused, -, hagent, -⟩ := hsame i
  rw [hused, hagent] at hi
  exact ⟨hi, hagent⟩

theorem SamePaths.lanlinkUnique {t t' : PathTable} (hsame : SamePaths t t')
    (h : LanlinkUnique t) : LanlinkUnique t' := by
  apply UniqueKey.of_back h
  intro i hi
  obtain ⟨hused, hkind, -, hep⟩ := hsame i
  simp only [hused, hkind, Bool.and_eq_true] at hi ⊢
  rw [hep hi.2]
  exact ⟨hi, rfl⟩

theorem SamePaths.tableInv {t t' : PathTable} (hsame : SamePaths t t') (hsel : t'.sel = t.sel)
    (h : TableInv t) : TableInv t' := by
  constructor
  · intro i hi
    rw [(hsame i).1]
    exact h.selUsed i (hsel ▸ hi)
  · exact hsame.agentUnique h.agentUnique

/-- A rewrite of the slots in use that leaves what names a path alone. -/
theorem samePaths_mapUsed {t : PathTable} {f : Path → Path}
    (hf : ∀ p : Path, (f p).used = p.used ∧ (f p).kind = p.kind ∧ (f p).agent = p.agent ∧
      (kindIsLanlink p.kind = true → (f p).peerEp = p.peerEp)) :
    SamePaths t (t.mapUsed f) := by
  intro i
  by_cases hused : (t.p i).used = true
  · have hp : (t.mapUsed f).p i = f (t.p i) := if_pos hused
    rw [hp]
    exact hf (t.p i)
  · have hp : (t.mapUsed f).p i = t.p i := if_neg hused
    rw [hp]
    exact ⟨rfl, rfl, rfl, fun _ => rfl⟩

/-- A write of one slot that leaves what names its path alone. -/
theorem samePaths_set {t : PathTable} {i : Slot} {p : Path} (hused : p.used = (t.p i).used)
    (hkind : p.kind = (t.p i).kind) (hagent : p.agent = (t.p i).agent)
    (hep : kindIsLanlink (t.p i).kind = true → p.peerEp = (t.p i).peerEp) :
    SamePaths t (t.set i p) := by
  intro j
  by_cases hj : j = i
  · subst hj
    have hp : (t.set j p).p j = p := Function.update_self _ _ _
    rw [hp]
    exact ⟨hused, hkind, hagent, hep⟩
  · have hp : (t.set i p).p j = t.p j := Function.update_of_ne hj _ _
    rw [hp]
    exact ⟨rfl, rfl, rfl, fun _ => rfl⟩

/-! ## Room -/

theorem worseThan_self (t : PathTable) (now : Nat) (i : Slot) : worseThan t now i i = false := by
  simp [worseThan]

theorem worseThan_trans {t : PathTable} {now : Nat} {i j k : Slot}
    (hij : worseThan t now i j = true) (hjk : worseThan t now j k = true) :
    worseThan t now i k = true := by
  simp only [worseThan, Bool.or_eq_true, Bool.and_eq_true, decide_eq_true_eq, beq_iff_eq]
    at hij hjk ⊢
  omega

/-- The slot given up is free, or, where none is, not the one in use and no
warmer than any other that could go. -/
theorem pathTableEvict_spec {t : PathTable} {now : Nat} {i : Slot}
    (h : pathTableEvict t now = some i) :
    (t.p i).used = false ∨
      ((∀ j, (t.p j).used = true) ∧ t.sel ≠ some i ∧
        ∀ j, t.sel ≠ some j →
          (pathWarmthOf (t.p j) now).code ≤ (pathWarmthOf (t.p i) now).code) := by
  unfold pathTableEvict at h
  cases hfree : firstSlot t.p fun p => !p.used with
  | some k =>
      rw [hfree] at h
      obtain rfl : k = i := Option.some.inj h
      have hk := firstSlot_spec hfree
      exact .inl (by simpa using hk)
  | none =>
      rw [hfree] at h
      have hall := firstSlot_eq_none_iff.mp hfree
      have hscan : BestOf (fun j => decide (t.sel ≠ some j)) _ _ _ := bestBy_bestOf
        (worseThan_self t now) (fun _ _ _ => worseThan_trans) (List.finRange pathTableMax)
      dsimp only at h
      rw [h] at hscan
      obtain ⟨-, hok, hmin⟩ := hscan
      refine .inr ⟨fun j => by simpa using hall j, by simpa using hok, ?_⟩
      intro j hj
      have hnot := hmin j (List.mem_finRange j) (by simpa using hj)
      simp only [worseThan, Bool.or_eq_false_iff, decide_eq_false_iff_not] at hnot
      have hle := hnot.1
      omega

/-- Everything `path_table_add` can do: it leaves the table alone, or it enters
the path in the slot that was given up, and then no path was found for it. -/
theorem pathTableAdd_cases (t : PathTable) (kind : PathKind) (remote : Option Sockaddr)
    (agent : Option Agent) (now : Nat) :
    (pathTableAdd t kind remote agent now).1 = t ∨
      ∃ ep slot, addEp remote = some ep ∧ pathTableEvict t now = some slot ∧
        (if agent.isSome = true then pathTableFindAgent t agent
          else pathTableFind t kind ep) = none ∧
        (pathTableAdd t kind remote agent now).1 =
          t.set slot (pathNew kind remote agent ep now) := by
  unfold pathTableAdd
  cases hep : addEp remote with
  | none => exact .inl rfl
  | some ep =>
      dsimp only
      split
      · exact .inl rfl
      · rename_i hfind
        cases hslot : pathTableEvict t now with
        | none => exact .inl rfl
        | some slot => exact .inr ⟨ep, slot, rfl, rfl, hfind, rfl⟩

/-- Everything `path_table_offer` can do. -/
theorem pathTableOffer_cases (t : PathTable) (kind : PathKind) (remote : Option Sockaddr)
    (now : Nat) :
    (pathTableOffer t kind remote now).1 = t ∨
      (pathTableSpare t now = true ∧
        (pathTableOffer t kind remote now).1 = (pathTableAdd t kind remote none now).1) := by
  unfold pathTableOffer
  split
  · exact .inl rfl
  · split
    · exact .inl rfl
    · by_cases hspare : pathTableSpare t now = false
      · rw [if_pos hspare]
        exact .inl rfl
      · rw [if_neg hspare]
        exact .inr ⟨by simpa using hspare, rfl⟩

/-- Where there is room to spare for a guess, the slot given up is free or holds a
dead path. -/
theorem pathTableEvict_of_spare {t : PathTable} {now : Nat} {i : Slot}
    (hspare : pathTableSpare t now = true) (h : pathTableEvict t now = some i) :
    (t.p i).used = false ∨ pathWarmthOf (t.p i) now = .dead := by
  rcases pathTableEvict_spec h with hfree | ⟨hall, -, hworst⟩
  · exact .inl hfree
  · right
    simp only [pathTableSpare, Bool.or_eq_true, List.any_eq_true, Bool.and_eq_true,
      decide_eq_true_eq, beq_iff_eq, Bool.not_eq_true'] at hspare
    rcases hspare with ⟨j, -, hj⟩ | ⟨j, -, hj, hdead⟩
    · rw [hall j] at hj
      cases hj
    · -- the dead path that `spare` saw bounds the one that `evict` picks
      have hle := hworst j hj
      rw [hdead] at hle
      cases hw : pathWarmthOf (t.p i) now with
      | dead => rfl
      | _ => rw [hw] at hle; exact absurd hle (by decide)

/-- A path entered by `path_table_add` never takes the slot in use. -/
theorem pathTableAdd_writesOnly {t : PathTable} (h : SelUsed t) (kind : PathKind)
    (remote : Option Sockaddr) (agent : Option Agent) (now : Nat) :
    WritesOnly (fun i => t.sel ≠ some i) t (pathTableAdd t kind remote agent now).1 := by
  rcases pathTableAdd_cases t kind remote agent now with hsame | ⟨ep, slot, -, hslot, -, hset⟩
  · exact .inl hsame
  · refine .inr ⟨slot, _, ?_, hset⟩
    rcases pathTableEvict_spec hslot with hfree | ⟨-, hsel, -⟩
    · -- a free slot is not the one in use, since that one is in use
      intro hsel
      rw [h slot hsel] at hfree
      cases hfree
    · exact hsel

/-- A path entered by `path_table_offer` takes a free slot or one that a dead path
is holding, never the slot in use. -/
theorem pathTableOffer_writesOnly {t : PathTable} (h : SelUsed t) (kind : PathKind)
    (remote : Option Sockaddr) (now : Nat) :
    WritesOnly (fun i => t.sel ≠ some i ∧
      ((t.p i).used = false ∨ pathWarmthOf (t.p i) now = .dead)) t
      (pathTableOffer t kind remote now).1 := by
  rcases pathTableOffer_cases t kind remote now with hsame | ⟨hspare, hadd⟩
  · exact .inl hsame
  · rw [hadd]
    rcases pathTableAdd_cases t kind remote none now with hsame | ⟨ep, slot, -, hslot, -, hset⟩
    · exact .inl hsame
    · refine .inr ⟨slot, _, ⟨?_, pathTableEvict_of_spare hspare hslot⟩, hset⟩
      intro hsel
      rcases pathTableEvict_spec hslot with hfree | ⟨-, hnot, -⟩
      · rw [h slot hsel] at hfree
        cases hfree
      · exact hnot hsel

/-! ## One call -/

theorem selUsed_of_writesOnly {t t' : PathTable} (h : SelUsed t)
    (hw : WritesOnly (fun i => t.sel ≠ some i) t t') : SelUsed t' := by
  rcases hw with hsame | ⟨i, p, hsel, hset⟩
  · rw [hsame]
    exact h
  · rw [hset]
    intro j hj
    have hne : j ≠ i := by
      intro hji
      exact hsel (hji ▸ hj)
    show (Function.update t.p i p j).used = true
    rw [Function.update_of_ne hne]
    exact h j hj

theorem pathTableAdd_tableInv {t : PathTable} (h : TableInv t) (kind : PathKind)
    (remote : Option Sockaddr) (agent : Option Agent) (now : Nat) :
    TableInv (pathTableAdd t kind remote agent now).1 := by
  constructor
  · exact selUsed_of_writesOnly h.selUsed
      (pathTableAdd_writesOnly h.selUsed kind remote agent now)
  · rcases pathTableAdd_cases t kind remote agent now with hsame | ⟨ep, slot, -, -, hfind, hset⟩
    · rw [hsame]
      exact h.agentUnique
    · rw [hset]
      cases agent with
      | none =>
          -- a path without an agent adds no key
          apply UniqueKey.update_unused h.agentUnique
          simp [pathNew]
      | some a =>
          apply UniqueKey.update_fresh h.agentUnique
          intro j hj hkey
          rw [if_pos Option.isSome_some] at hfind
          have hscan : firstSlot t.p (fun p => p.used && p.agent == some a) = none := hfind
          have hnone := firstSlot_eq_none_iff.mp hscan j
          simp only [Bool.and_eq_true] at hj
          have hagent : (t.p j).agent = some a := hkey
          simp [hj.1, hagent] at hnone

theorem pathTableAdd_lanlinkUnique {t : PathTable} (h : LanlinkUnique t) {kind : PathKind}
    {remote : Option Sockaddr} {agent : Option Agent} {now : Nat}
    (hagent : agent.isSome = true → kind = .ice) :
    LanlinkUnique (pathTableAdd t kind remote agent now).1 := by
  rcases pathTableAdd_cases t kind remote agent now with hsame | ⟨ep, slot, -, -, hfind, hset⟩
  · rw [hsame]
    exact h
  · rw [hset]
    by_cases hkind : kindIsLanlink kind = true
    · -- a path over the shared socket is entered where none has its endpoint
      have hnone : ¬agent.isSome = true := by
        intro hsome
        rw [hagent hsome] at hkind
        exact absurd hkind (by decide)
      rw [if_neg hnone] at hfind
      apply UniqueKey.update_fresh h
      intro j hj hkey
      have hno := firstSlot_eq_none_iff.mp hfind j
      simp only [Bool.and_eq_true] at hj
      have hk : (t.p j).kind = kind := congrArg Prod.fst hkey
      have hp : (t.p j).peerEp = ep := congrArg Prod.snd hkey
      simp [hj.1, hk, hp] at hno
    · apply UniqueKey.update_unused h
      simp [pathNew, hkind]

theorem pathTableOffer_tableInv {t : PathTable} (h : TableInv t) (kind : PathKind)
    (remote : Option Sockaddr) (now : Nat) : TableInv (pathTableOffer t kind remote now).1 := by
  rcases pathTableOffer_cases t kind remote now with hsame | ⟨-, hadd⟩
  · rw [hsame]
    exact h
  · rw [hadd]
    exact pathTableAdd_tableInv h kind remote none now

theorem pathTableOffer_lanlinkUnique {t : PathTable} (h : LanlinkUnique t) (kind : PathKind)
    (remote : Option Sockaddr) (now : Nat) :
    LanlinkUnique (pathTableOffer t kind remote now).1 := by
  rcases pathTableOffer_cases t kind remote now with hsame | ⟨-, hadd⟩
  · rw [hsame]
    exact h
  · rw [hadd]
    apply pathTableAdd_lanlinkUnique h
    intro hsome
    cases hsome

/-- A path still in use after a drop is the one that was there, and was not
named. -/
theorem pathTableDrop_used {t : PathTable} {gone : Path → Bool} {i : Slot}
    (hi : ((pathTableDrop t gone).p i).used = true) :
    (pathTableDrop t gone).p i = t.p i ∧ gone (t.p i) = false := by
  by_cases hgone : (t.p i).used = true ∧ gone (t.p i) = true
  · have hp : (pathTableDrop t gone).p i = pathZero := if_pos hgone
    rw [hp] at hi
    cases hi
  · have hp : (pathTableDrop t gone).p i = t.p i := if_neg hgone
    rw [hp] at hi
    refine ⟨hp, ?_⟩
    by_contra hnot
    exact hgone ⟨hi, by simpa using hnot⟩

theorem pathTableDrop_tableInv {t : PathTable} (h : TableInv t) (gone : Path → Bool) :
    TableInv (pathTableDrop t gone) := by
  constructor
  · intro i hi
    have hsel : t.sel.filter (fun i => !((t.p i).used && gone (t.p i))) = some i := hi
    rw [Option.filter_eq_some_iff] at hsel
    obtain ⟨hsel, hkeep⟩ := hsel
    have hused := h.selUsed i hsel
    have hgone : ¬((t.p i).used = true ∧ gone (t.p i) = true) := by
      intro hboth
      simp [hboth.1, hboth.2] at hkeep
    show (if (t.p i).used = true ∧ gone (t.p i) = true then pathZero else t.p i).used = true
    rw [if_neg hgone]
    exact hused
  · apply UniqueKey.of_back h.agentUnique
    intro i hi
    have hused : ((pathTableDrop t gone).p i).used = true := by
      simp only [Bool.and_eq_true] at hi
      exact hi.1
    rw [(pathTableDrop_used hused).1] at hi ⊢
    exact ⟨hi, rfl⟩

theorem pathTableDrop_lanlinkUnique {t : PathTable} (h : LanlinkUnique t) (gone : Path → Bool) :
    LanlinkUnique (pathTableDrop t gone) := by
  apply UniqueKey.of_back h
  intro i hi
  have hused : ((pathTableDrop t gone).p i).used = true := by
    simp only [Bool.and_eq_true] at hi
    exact hi.1
  rw [(pathTableDrop_used hused).1] at hi ⊢
  exact ⟨hi, rfl⟩

theorem pathTableDropAgent_tableInv {t : PathTable} (h : TableInv t) (agent : Option Agent) :
    TableInv (pathTableDropAgent t agent) := by
  cases agent with
  | none => exact h
  | some a => exact pathTableDrop_tableInv h fun p => p.agent == some a

theorem pathTableDropAgent_lanlinkUnique {t : PathTable} (h : LanlinkUnique t)
    (agent : Option Agent) : LanlinkUnique (pathTableDropAgent t agent) := by
  cases agent with
  | none => exact h
  | some a => exact pathTableDrop_lanlinkUnique h fun p => p.agent == some a

theorem pathTableInit_tableInv : TableInv pathTableInit := by
  constructor
  · intro i hi
    cases hi
  · intro i j hi
    cases hi

theorem pathTableInit_lanlinkUnique : LanlinkUnique pathTableInit := by
  intro i j hi
  cases hi

theorem pathTableResetStats_samePaths (t : PathTable) (now : Nat) :
    SamePaths t (pathTableResetStats t now) := by
  apply samePaths_mapUsed
  intro p
  exact ⟨rfl, rfl, rfl, fun _ => rfl⟩

theorem pathProbeExpire_samePath (p : Path) (now : Nat) :
    (pathProbeExpire p now).used = p.used ∧ (pathProbeExpire p now).kind = p.kind ∧
      (pathProbeExpire p now).agent = p.agent ∧ (pathProbeExpire p now).peerEp = p.peerEp := by
  unfold pathProbeExpire
  split_ifs <;> exact ⟨rfl, rfl, rfl, rfl⟩

theorem pathSelect_samePaths (t : PathTable) (now : Nat) : SamePaths t (pathSelect t now) := by
  have hexpire : SamePaths t (expireProbes t now) := by
    apply samePaths_mapUsed
    intro p
    obtain ⟨hused, hkind, hagent, hep⟩ := pathProbeExpire_samePath p now
    exact ⟨hused, hkind, hagent, fun _ => hep⟩
  unfold pathSelect
  dsimp only
  split
  · exact hexpire
  · split_ifs <;> exact hexpire

/-- Whatever was chosen before, `path_select` leaves the choice on a path. -/
theorem pathSelect_selUsed (t : PathTable) (now : Nat) : SelUsed (pathSelect t now) := by
  have hspec := pathBest_spec (expireProbes t now) now
  unfold pathSelect
  dsimp only
  cases hbest : pathBest (expireProbes t now) now with
  | none =>
      intro i hi
      cases hi
  | some best =>
      rw [hbest] at hspec
      dsimp only
      split_ifs with hkeep
      · intro i hi
        rw [hi] at hkeep
        simp only [keepsSel, Bool.and_eq_true] at hkeep
        exact hkeep.1.1
      · intro i hi
        obtain rfl : best = i := Option.some.inj hi
        have hcand := hspec.1
        simp only [candidate, Bool.and_eq_true] at hcand
        exact hcand.1.1

theorem pathSelect_tableInv {t : PathTable} (h : AgentUnique t) (now : Nat) :
    TableInv (pathSelect t now) := by
  constructor
  · exact pathSelect_selUsed t now
  · exact (pathSelect_samePaths t now).agentUnique h

/-- A pin leaves the paths as they are, and a choice it makes is a path. -/
theorem pathplanePin_t (pl : PathPlane) (k : PlaneSinks) (id : PathId) (now : Nat) :
    SamePaths pl.t (pathplanePin pl k id now).1.t ∧
      ((pathplanePin pl k id now).1.t.sel = pl.t.sel ∨
        ∃ i, (pathplanePin pl k id now).1.t.sel = some i ∧ (pl.t.p i).used = true) := by
  unfold pathplanePin
  cases hid : pathById pl.t id with
  | none => exact ⟨fun _ => ⟨rfl, rfl, rfl, fun _ => rfl⟩, .inl rfl⟩
  | some i =>
      have hfound := firstSlot_spec hid
      simp only [Bool.and_eq_true] at hfound
      have hset : SamePaths pl.t
          (pl.t.set i { pl.t.p i with usable := usableNow k (pl.t.p i) }) :=
        samePaths_set rfl rfl rfl fun _ => rfl
      dsimp only
      split_ifs
      · exact ⟨hset, .inl rfl⟩
      · exact ⟨hset, .inr ⟨i, rfl, hfound.1⟩⟩

theorem pathplanePin_tableInv {pl : PathPlane} (h : TableInv pl.t) (k : PlaneSinks) (id : PathId)
    (now : Nat) : TableInv (pathplanePin pl k id now).1.t := by
  obtain ⟨hsame, hsel⟩ := pathplanePin_t pl k id now
  constructor
  · intro i hi
    rw [(hsame i).1]
    rcases hsel with hsel | ⟨j, hj, hused⟩
    · exact h.selUsed i (hsel ▸ hi)
    · obtain rfl : j = i := Option.some.inj (hj.symm.trans hi)
      exact hused
  · exact hsame.agentUnique h.agentUnique

/-- Everything `apply_ping` can do: it refuses a nonce that this end is waiting on,
or it answers, and then the table changes by an offer of the source at most and by
what the probe leaves on the path it belongs to. -/
theorem applyPing_cases (blake2b : Blake2b) (base : Bytes) (pl : PathPlane) (k : PlaneSinks)
    (pr : PathProbe) (kind : PathKind) (ep : PathEp) (src : Option Sockaddr)
    (agent : Option Agent) (now : Nat) :
    ((noncePath pl pr.nonce).isSome = true ∧
        applyPing blake2b base pl k pr kind ep src agent now = (pl, none)) ∨
      (noncePath pl pr.nonce = none ∧
        ∃ t o, (t = pl.t ∨ ∃ srck, t = (pathTableOffer pl.t srck src now).1) ∧
          o.probe.type = .pong ∧ o.probe.nonce = pr.nonce ∧
          (applyPing blake2b base pl k pr kind ep src agent now = ({ pl with t := t }, some o) ∨
            ∃ i, applyPing blake2b base pl k pr kind ep src agent now =
              ({ pl with t := t.set i (pathHeard blake2b base (t.p i) ep pr) }, some o))) := by
  by_cases hown : (noncePath pl pr.nonce).isSome = true
  · left
    refine ⟨hown, ?_⟩
    unfold applyPing
    dsimp only
    rw [if_pos hown]
  · right
    refine ⟨by simpa using hown, ?_⟩
    unfold applyPing
    dsimp only
    rw [if_neg hown]
    -- the source is looked up, and offered where it has no path
    cases recvPath pl kind ep agent with
    | some i => exact ⟨pl.t, _, .inl rfl, rfl, rfl, .inr ⟨i, rfl⟩⟩
    | none =>
        by_cases hoffer : src.isSome = true ∧ kind ≠ .ice ∧ k.isSelf ep = false
        · simp only [if_pos hoffer]
          generalize hsrck : (if kind = .ice then kind else k.kindOf ep) = srck
          have htable : ∀ t slot, pathTableOffer pl.t srck src now = (t, slot) →
              t = pl.t ∨ ∃ srck, t = (pathTableOffer pl.t srck src now).1 :=
            fun t slot heq => .inr ⟨srck, (congrArg Prod.fst heq).symm⟩
          cases hr : pathTableOffer pl.t srck src now with
          | mk t slot =>
              cases slot with
              | none => exact ⟨t, _, htable t none hr, rfl, rfl, .inl rfl⟩
              | some i => exact ⟨t, _, htable t (some i) hr, rfl, rfl, .inr ⟨i, rfl⟩⟩
        · simp only [if_neg hoffer]
          exact ⟨pl.t, _, .inl rfl, rfl, rfl, .inl rfl⟩

/-! ## Whole runs -/

/-- One call that changes the table, at any time. -/
inductive TableEvent where
  | add (kind : PathKind) (remote : Option Sockaddr) (agent : Option Agent) (now : Nat)
  | offer (kind : PathKind) (remote : Option Sockaddr) (now : Nat)
  | dropAgent (agent : Option Agent)
  | dropKind (kind : PathKind)
  | clear
  | resetStats (now : Nat)
  | select (now : Nat)
  | pin (k : PlaneSinks) (id : PathId) (now : Nat)

/-- The plane after one call that changes its table. -/
def tableStep (pl : PathPlane) : TableEvent → PathPlane
  | .add kind remote agent now => { pl with t := (pathTableAdd pl.t kind remote agent now).1 }
  | .offer kind remote now => { pl with t := (pathTableOffer pl.t kind remote now).1 }
  | .dropAgent agent => { pl with t := pathTableDropAgent pl.t agent }
  | .dropKind kind => { pl with t := pathTableDropKind pl.t kind }
  | .clear => { pl with t := pathTableInit }
  | .resetStats now => { pl with t := pathTableResetStats pl.t now }
  | .select now => { pl with t := pathSelect pl.t now }
  | .pin k id now => (pathplanePin pl k id now).1

/-- An agent is only ever passed for a path of its own kind, as
`pathplane_add_ice`, the one caller that passes any, does. -/
def TableEvent.AgentIsIce : TableEvent → Prop
  | .add kind _ agent _ => agent.isSome = true → kind = .ice
  | _ => True

theorem tableStep_tableInv {pl : PathPlane} (h : TableInv pl.t) (ev : TableEvent) :
    TableInv (tableStep pl ev).t := by
  cases ev with
  | add kind remote agent now => exact pathTableAdd_tableInv h kind remote agent now
  | offer kind remote now => exact pathTableOffer_tableInv h kind remote now
  | dropAgent agent => exact pathTableDropAgent_tableInv h agent
  | dropKind kind => exact pathTableDrop_tableInv h fun p => p.kind == kind
  | clear => exact pathTableInit_tableInv
  | resetStats now => exact (pathTableResetStats_samePaths pl.t now).tableInv rfl h
  | select now => exact pathSelect_tableInv h.agentUnique now
  | pin k id now => exact pathplanePin_tableInv h k id now

theorem tableStep_lanlinkUnique {pl : PathPlane} (h : LanlinkUnique pl.t) (ev : TableEvent)
    (hev : ev.AgentIsIce) : LanlinkUnique (tableStep pl ev).t := by
  cases ev with
  | add kind remote agent now => exact pathTableAdd_lanlinkUnique h hev
  | offer kind remote now => exact pathTableOffer_lanlinkUnique h kind remote now
  | dropAgent agent => exact pathTableDropAgent_lanlinkUnique h agent
  | dropKind kind => exact pathTableDrop_lanlinkUnique h fun p => p.kind == kind
  | clear => exact pathTableInit_lanlinkUnique
  | resetStats now => exact (pathTableResetStats_samePaths pl.t now).lanlinkUnique h
  | select now => exact (pathSelect_samePaths pl.t now).lanlinkUnique h
  | pin k id now => exact (pathplanePin_t pl k id now).1.lanlinkUnique h

/-- In every state that the calls reach: the choice is none or a path, neither way
of entering a path takes the slot in use, a guess takes a free slot or a dead
path's, and no two paths share an agent, or a kind and endpoint of the shared
socket where agents are passed as the plane passes them. -/
theorem table_reachable (events : List TableEvent) :
    let t := (run tableStep pathplaneInit events).t
    SelUsed t ∧
      (∀ kind remote agent now,
        WritesOnly (fun i => t.sel ≠ some i) t (pathTableAdd t kind remote agent now).1) ∧
      (∀ kind remote now,
        WritesOnly (fun i => t.sel ≠ some i ∧
          ((t.p i).used = false ∨ pathWarmthOf (t.p i) now = .dead)) t
          (pathTableOffer t kind remote now).1) ∧
      (∀ i j a, (t.p i).used = true → (t.p j).used = true → (t.p i).agent = some a →
        (t.p j).agent = some a → i = j) ∧
      ((∀ ev ∈ events, ev.AgentIsIce) →
        ∀ i j, (t.p i).used = true → (t.p j).used = true → kindIsLanlink (t.p i).kind = true →
          (t.p i).kind = (t.p j).kind → (t.p i).peerEp = (t.p j).peerEp → i = j) := by
  intro t
  have hinv : TableInv t :=
    run_invariant (I := fun pl : PathPlane => TableInv pl.t) (fun _ ev h => tableStep_tableInv h ev)
      pathTableInit_tableInv events
  refine ⟨hinv.selUsed, pathTableAdd_writesOnly hinv.selUsed,
    pathTableOffer_writesOnly hinv.selUsed, ?_, ?_⟩
  · intro i j a hi hj hai haj
    apply hinv.agentUnique i j
    · simp [hi, hai]
    · simp [hj, haj]
    · rw [hai, haj]
  · intro hice i j hi hj hlan hkind hep
    have hunique : LanlinkUnique t :=
      run_invariant_of_mem (I := fun pl : PathPlane => LanlinkUnique pl.t)
        (fun _ ev h hev => tableStep_lanlinkUnique h ev hev) pathTableInit_lanlinkUnique hice
    apply hunique i j
    · simp [hi, hlan]
    · simp [hj, ← hkind, hlan]
    · simp only [hkind, hep]

end Paths
end Comrade
