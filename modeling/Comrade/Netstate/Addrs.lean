import Comrade.Netstate.Conn

/-!
# Local and translated addresses

A family holds the addresses the kernel reports and, apart from them, the addresses the
world saw it at that no interface has.  An address an exchange named is *proven* while it
is local; `netmon` moves it from one set to the other with its proof.

* `addrsOf_famStep`: only a snapshot and a reflexive observation touch the two sets.
* `netmon_addrs`, `onReflexive_addrs` say what they do to them.
* `addrFacts_run`: over any run whose snapshots fit, the two sets are disjoint and free of
  duplicates, the local set is the last snapshot's, a proof goes back to an observation
  since proofs were last dropped, and inside an epoch none is withdrawn while its address
  is reported.
-/

namespace Comrade
namespace Netstate

open Lib

/-- The two address sets of a family. -/
def addrsOf (f : NetFam) : List NetLocal × List Xlat := (f.locals, f.xlats)

/-- The address is local and an exchange has named it. -/
def Proven (f : NetFam) (a : Bytes) : Prop := ∃ l ∈ f.locals, l.addr = a ∧ l.proven = true

theorem addrsOf_pend : IgnoresPend addrsOf := fun _ _ => rfl

theorem addrsOf_acts : IgnoresActs addrsOf := IgnoresPend.acts addrsOf_pend

theorem addrsOf_source : IgnoresSource addrsOf := fun _ _ _ _ _ _ _ => rfl

theorem addrsOf_probe : IgnoresProbe addrsOf := fun _ _ _ _ _ => rfl

theorem addrsOf_facts : IgnoresFacts addrsOf := fun _ _ _ => rfl

theorem addrsOf_rdv : IgnoresRdv addrsOf := fun _ _ _ _ _ _ _ _ _ _ _ _ => rfl

theorem addrsOf_conn : IgnoresConn addrsOf := fun _ _ _ _ _ => rfl

/-- The snapshot a call brings. -/
def snapshotOf : NetIn → Option (List NetmonAddr)
  | .netmon _ addrs _ => some addrs
  | _ => none

/-- The address a call names for the family in its epoch. -/
def namesAddr (i : Fam) (a : Bytes) (f : NetFam) (e : NetIn) : Prop :=
  e = .reflexive i f.epoch a

theorem addrsOf_onDhtAck (isHost : Bool) (epoch : UInt32) (node : Bytes) (now : UInt64)
    (f : NetFam) : addrsOf (netstateOnDhtAck isHost epoch node now f) = addrsOf f := by
  have hup : addrsOf (dhtAckUp isHost epoch f) = addrsOf f :=
    view_dhtAckUp addrsOf_acts addrsOf_conn addrsOf_facts isHost epoch f
  unfold netstateOnDhtAck
  split
  · rfl
  simp only
  split
  · exact hup
  · rw [view_dhtAckNode addrsOf_acts addrsOf_rdv, hup]

/-- A call that is neither a snapshot nor a reflexive observation leaves both sets. -/
theorem addrsOf_famStep (isHost : Bool) (i : Fam) (f : NetFam) (e : NetIn)
    (hsnap : snapshotOf e = none) (hnames : ∀ epoch a, e ≠ .reflexive i epoch a) :
    addrsOf (famStep isHost i f e) = addrsOf f := by
  cases e with
  | netmon changed addrs now => cases hsnap
  | src family epoch addr scope text now =>
      exact addressed_keeps (view_onSrc addrsOf_acts addrsOf_source addrsOf_conn _ _ _ _ _ _ f)
  | probeStarted family epoch now =>
      exact addressed_keeps (view_onProbeStarted addrsOf_probe epoch now f)
  | probeDeferred family epoch =>
      exact addressed_keeps (view_onProbeDeferred addrsOf_probe epoch f)
  | probeDone family epoch now =>
      exact addressed_keeps (view_onProbeDone addrsOf_pend addrsOf_probe epoch now f)
  | servers family epoch now =>
      exact addressed_keeps (view_onServers addrsOf_pend addrsOf_probe epoch now f)
  | roundtrip family epoch =>
      exact addressed_keeps (view_onRoundtrip addrsOf_acts addrsOf_conn epoch f)
  | dhtAck family epoch node now =>
      exact addressed_keeps (addrsOf_onDhtAck isHost epoch node now f)
  | anchorSeen family now => exact addressed_keeps (view_onAnchorSeen addrsOf_rdv now f)
  | rdvOffered family node now =>
      exact addressed_keeps (view_anchorSet addrsOf_acts addrsOf_rdv node now false 0 f)
  | rdvVouched family node now =>
      exact addressed_keeps (view_onRdvVouched addrsOf_acts addrsOf_rdv isHost node now f)
  | setPicking family on => exact addressed_keeps (view_setPicking addrsOf_rdv on f)
  | reflexive family epoch addr =>
      -- one of the other family
      have hfam : family ≠ i := by
        rintro rfl
        exact hnames epoch addr rfl
      show addrsOf (addressed family i _ f) = _
      unfold addressed
      rw [if_neg hfam]
  | dhtConcluded family concluded =>
      exact addressed_keeps (view_onDhtConcluded addrsOf_acts addrsOf_facts isHost concluded f)
  | tick now => exact view_tick addrsOf_pend addrsOf_source addrsOf_probe addrsOf_rdv isHost now f
  | resync => rfl
  | takeActions => rfl

/-! ## A snapshot -/

theorem addrsOf_syncHasAddr (isHost : Bool) (f : NetFam) :
    addrsOf (syncHasAddr isHost f) = addrsOf f :=
  view_syncHasAddr addrsOf_acts addrsOf_conn isHost f

/-- A move keeps the sets, or drops every proof and translation. -/
theorem addrsOf_famMove (isHost same wasUp : Bool) (now : UInt64) (f : NetFam) :
    addrsOf (famMove isHost same wasUp now f) =
      if same = true then addrsOf f
      else (f.locals.map fun l => { l with proven := false }, []) := by
  unfold famMove
  rw [view_moveRaise addrsOf_pend]
  show addrsOf (moveProofs same wasUp (moveReset same now f)) = _
  unfold moveProofs
  cases same with
  | false => rfl
  | true =>
      simp only [Bool.true_eq_false, if_false, if_true]
      split <;> rfl

/-- What a snapshot does to the two sets. -/
theorem netmon_addrs (isHost : Bool) (i : Fam) (changed : UInt32) (addrs : List NetmonAddr)
    (now : UInt64) (f : NetFam) :
    ∃ new left, Synced f i addrs new left ∧
      ((¬leavesNet isHost i f (.netmon changed addrs now) ∧
          addrsOf (famStep isHost i f (.netmon changed addrs now)) =
            (keptLocals f i addrs ++ new, left)) ∨
        addrsOf (famStep isHost i f (.netmon changed addrs now)) =
          ((keptLocals f i addrs ++ new).map fun l => { l with proven := false }, [])) := by
  obtain ⟨new, left, pend, hsynced, heq⟩ := netstateOnNetmon_eq isHost i changed addrs now f
  refine ⟨new, left, hsynced, ?_⟩
  have hstep : famStep isHost i f (.netmon changed addrs now) =
      netstateOnNetmon isHost i changed addrs now f := rfl
  simp only at heq
  set f1 : NetFam :=
    { f with locals := keptLocals f i addrs ++ new, xlats := left, pend := pend } with hf1
  by_cases hbit : changed &&& netmonCh i = 0
  · left
    refine ⟨?_, ?_⟩
    · rintro ⟨hmoves, _⟩
      simp [moves, hbit] at hmoves
    · rw [hstep, heq, if_pos hbit, addrsOf_syncHasAddr]
      rfl
  · have hkept : addrsOf (syncHasAddr isHost f1) = addrsOf f1 := addrsOf_syncHasAddr isHost f1
    have hlocals : (syncHasAddr isHost f1).locals = f1.locals := congrArg Prod.fst hkept
    rw [if_neg hbit] at heq
    by_cases hone : OneWay (localAddrs f) (localAddrs f1)
    · left
      refine ⟨?_, ?_⟩
      · rintro ⟨_, hleaves⟩
        apply hleaves
        rw [hstep, heq, localAddrs_famMove, localAddrs_syncHasAddr]
        exact hone
      · rw [hstep, heq, addrsOf_famMove, if_pos (by simpa using hone), hkept]
        rfl
    · right
      rw [hstep, heq, addrsOf_famMove, if_neg (by simpa using hone), hlocals]

/-! ## A reflexive observation -/

/-- Marking one entry leaves every address where it was. -/
theorem map_addr_mark (ls : List NetLocal) (k : Nat) :
    (ls.modify k fun l => { l with proven := true }).map NetLocal.addr =
      ls.map NetLocal.addr := by
  apply List.ext_getElem?
  intro j
  rw [List.getElem?_map, List.getElem?_map, List.getElem?_modify]
  cases ls[j]? with
  | none => rfl
  | some l => by_cases hkj : k = j <;> simp [hkj]

/-- Marking the entry of an address proves that one and no other. -/
theorem proven_mark {ls : List NetLocal} {k : Nat} {l : NetLocal} {a : Bytes}
    (hget : ls[k]? = some l) (hname : l.addr = a) (b : Bytes) :
    (∃ l ∈ ls.modify k fun l => { l with proven := true }, l.addr = b ∧ l.proven = true) ↔
      (∃ l ∈ ls, l.addr = b ∧ l.proven = true) ∨ b = a := by
  simp only [List.mem_iff_getElem?, List.getElem?_modify, Option.map_eq_map]
  constructor
  · rintro ⟨l', ⟨j, hj⟩, rfl, hp⟩
    by_cases hkj : k = j
    · subst hkj
      rw [hget] at hj
      simp only [if_true, Option.map_some, Option.some.injEq] at hj
      right
      rw [← hj]
      exact hname
    · simp only [hkj, if_false, Option.map_id'] at hj
      exact Or.inl ⟨l', ⟨j, hj⟩, rfl, hp⟩
  · rintro (⟨l', ⟨j, hj⟩, rfl, hp⟩ | rfl)
    · by_cases hkj : k = j
      · exact ⟨{ l' with proven := true }, ⟨j, by simp [hkj, hj]⟩, rfl, rfl⟩
      · exact ⟨l', ⟨j, by simp [hkj, hj]⟩, rfl, hp⟩
    · exact ⟨{ l with proven := true }, ⟨k, by simp [hget]⟩, hname, rfl⟩

/-- What an observation of the family in its epoch does to the two sets: nothing, or it
proves the local address it names, or it notes a translation. -/
theorem onReflexive_addrs (i : Fam) (epoch : UInt32) (a : Bytes) (f : NetFam) :
    addrsOf (netstateOnReflexive i epoch a f) = addrsOf f ∨
      (epoch = f.epoch ∧
        localAddrs (netstateOnReflexive i epoch a f) = localAddrs f ∧
        (∀ b, Proven (netstateOnReflexive i epoch a f) b ↔ Proven f b ∨ b = a) ∧
        (netstateOnReflexive i epoch a f).xlats = f.xlats) ∨
      (epoch = f.epoch ∧ a ∉ localAddrs f ∧ a ∉ xlatAddrs f ∧
        (netstateOnReflexive i epoch a f).locals = f.locals ∧
        xlatAddrs (netstateOnReflexive i epoch a f) = xlatAddrs f ++ [a]) := by
  unfold netstateOnReflexive
  split
  · exact Or.inl rfl
  rename_i hguard
  push Not at hguard
  split
  · rename_i k hk
    split
    · exact Or.inl rfl
    · -- the entry it names is marked
      right
      left
      refine ⟨hguard.1, map_addr_mark f.locals k, ?_, rfl⟩
      obtain ⟨hlt, haddr, _⟩ := List.findIdx?_eq_some_iff_getElem.mp hk
      have hget : f.locals[k]? = some (f.locals.get ⟨k, hlt⟩) := List.getElem?_eq_getElem hlt
      have hname : (f.locals.get ⟨k, hlt⟩).addr = a := by simpa using haddr
      exact proven_mark hget hname
  · rename_i hnone
    have hlocal : a ∉ localAddrs f := by
      intro hmem
      have := localIdx_isSome.mpr hmem
      rw [hnone] at this
      exact Bool.noConfusion this
    cases hnote : xlatNote f a with
    | none => exact Or.inl rfl
    | some f' =>
        right
        right
        obtain ⟨hnew, rfl⟩ := xlatNote_some hnote
        exact ⟨hguard.1, hlocal, hnew, rfl, by simp [xlatAddrs, raiseAct]⟩

/-! ## Over runs -/

/-- The snapshot last taken. -/
def lastSnapshot (es : List NetIn) : List NetmonAddr :=
  es.foldl (fun last e => (snapshotOf e).getD last) []

/-- An observation named the address since the family last dropped its proofs. -/
def NamedHere (isHost : Bool) (now : UInt64) (es : List NetIn) (i : Fam) (a : Bytes) : Prop :=
  Since netstateStep (fun ns e => namesAddr i a (ns.f i) e)
    (fun ns e => leavesNet ns.isHost i (ns.f i) e) (netstateInit isHost now) es

/-- The two sets of family `i` after the calls. -/
structure AddrInv (i : Fam) (last : List NetmonAddr) (named : Bytes → Prop) (f : NetFam) :
    Prop where
  locals_nodup : (localAddrs f).Nodup
  xlats_nodup : (xlatAddrs f).Nodup
  disjoint : ∀ a ∈ localAddrs f, a ∉ xlatAddrs f
  locals_eq : ∀ a, a ∈ localAddrs f ↔ a ∈ famAddrs i last
  proven : ∀ a, Proven f a → named a
  xlats_named : ∀ a ∈ xlatAddrs f, named a

/-- A step that leaves both sets keeps the invariant. -/
theorem AddrInv.congr {i : Fam} {last : List NetmonAddr} {named named' : Bytes → Prop}
    {f f' : NetFam} (h : AddrInv i last named f) (heq : addrsOf f' = addrsOf f)
    (hnamed : ∀ a, named a → named' a) : AddrInv i last named' f' := by
  have hlocals : f'.locals = f.locals := congrArg Prod.fst heq
  have hxlats : f'.xlats = f.xlats := congrArg Prod.snd heq
  have hl : localAddrs f' = localAddrs f := congrArg (List.map NetLocal.addr) hlocals
  have hx : xlatAddrs f' = xlatAddrs f := congrArg (List.map Xlat.addr) hxlats
  refine ⟨hl ▸ h.locals_nodup, hx ▸ h.xlats_nodup, ?_, ?_, ?_, ?_⟩
  · rw [hl, hx]
    exact h.disjoint
  · rw [hl]
    exact h.locals_eq
  · intro a ha
    apply hnamed
    apply h.proven
    unfold Proven at ha ⊢
    rw [hlocals] at ha
    exact ha
  · rw [hx]
    intro a ha
    exact hnamed a (h.xlats_named a ha)

/-- The local set after a snapshot that fits: the family's addresses in it, each once. -/
theorem synced_locals {i : Fam} {addrs : List NetmonAddr} {f : NetFam} {new : List NetLocal}
    {left : List Xlat} {last : List NetmonAddr} {named : Bytes → Prop}
    (h : AddrInv i last named f) (hfits : addrs.length ≤ netmonMaxAddrs)
    (hsynced : Synced f i addrs new left) :
    ((keptLocals f i addrs ++ new).map NetLocal.addr).Nodup ∧
      ∀ a, a ∈ (keptLocals f i addrs ++ new).map NetLocal.addr ↔ a ∈ famAddrs i addrs := by
  have hadds := hsynced.adds
  have hkept : (keptLocals f i addrs).map NetLocal.addr |>.Nodup :=
    h.locals_nodup.sublist (List.filter_sublist.map NetLocal.addr)
  have hsub : (keptLocals f i addrs).map NetLocal.addr ⊆ famAddrs i addrs := by
    intro a ha
    obtain ⟨hheld, hhas⟩ := mem_kept.mp ha
    exact mem_famAddrs.mpr ⟨(mem_famAddrs.mp ((h.locals_eq a).mp hheld)).1, hhas⟩
  rw [List.map_append]
  refine ⟨?_, ?_⟩
  · rw [List.nodup_append]
    refine ⟨hkept, hadds.nodup, ?_⟩
    rintro a ha b hb rfl
    obtain ⟨l, hl, rfl⟩ := List.mem_map.mp hb
    exact hadds.fresh l hl ha
  · intro a
    constructor
    · intro ha
      rcases List.mem_append.mp ha with ha | ha
      · exact hsub ha
      · obtain ⟨l, hl, rfl⟩ := List.mem_map.mp ha
        exact hadds.inSnap l hl
    · intro ha
      have hcomplete := localAdd_complete hfits addrs (List.Subset.refl _)
        { f with locals := keptLocals f i addrs } hkept hsub ha
      rw [hsynced.result] at hcomplete
      unfold localAddrs at hcomplete
      rw [List.map_append] at hcomplete
      exact hcomplete

/-- A snapshot that fits keeps the invariant, with the snapshot as the last one. -/
theorem AddrInv.netmon {isHost : Bool} {i : Fam} {last : List NetmonAddr}
    {named named' : Bytes → Prop} {f : NetFam} (h : AddrInv i last named f) {changed : UInt32}
    {addrs : List NetmonAddr} {now : UInt64} (hfits : addrs.length ≤ netmonMaxAddrs)
    (hnamed : ¬leavesNet isHost i f (.netmon changed addrs now) → ∀ a, named a → named' a) :
    AddrInv i addrs named' (famStep isHost i f (.netmon changed addrs now)) := by
  obtain ⟨new, left, hsynced, hcase⟩ := netmon_addrs isHost i changed addrs now f
  obtain ⟨hnodup, hmem⟩ := synced_locals h hfits hsynced
  have hadds := hsynced.adds
  generalize famStep isHost i f (.netmon changed addrs now) = f' at hcase
  rcases hcase with ⟨hstays, heq⟩ | heq
  · have hlocals : f'.locals = keptLocals f i addrs ++ new := congrArg Prod.fst heq
    have hxlats : f'.xlats = left := congrArg Prod.snd heq
    have hl : localAddrs f' = (keptLocals f i addrs ++ new).map NetLocal.addr :=
      congrArg (List.map NetLocal.addr) hlocals
    have hsub : left.map Xlat.addr ⊆ xlatAddrs f := (hadds.left_sublist.map Xlat.addr).subset
    refine ⟨hl ▸ hnodup, ?_, ?_, ?_, ?_, ?_⟩
    · unfold xlatAddrs
      rw [hxlats]
      exact h.xlats_nodup.sublist (hadds.left_sublist.map Xlat.addr)
    · -- what was kept was apart from the translations, what is new was taken out of them
      unfold xlatAddrs
      rw [hl, hxlats, List.map_append]
      intro a ha hx
      rcases List.mem_append.mp ha with ha | ha
      · exact h.disjoint a (mem_kept.mp ha).1 (hsub hx)
      · obtain ⟨l, hl, rfl⟩ := List.mem_map.mp ha
        exact hadds.taken h.xlats_nodup l hl hx
    · rw [hl]
      exact hmem
    · rintro a ⟨l, hl, rfl, hp⟩
      apply hnamed hstays
      rw [hlocals, List.mem_append] at hl
      rcases hl with hl | hl
      · exact h.proven l.addr ⟨l, (List.mem_filter.mp hl).1, rfl, hp⟩
      · exact h.xlats_named l.addr (hadds.proof l hl hp)
    · unfold xlatAddrs
      rw [hxlats]
      intro a ha
      exact hnamed hstays a (h.xlats_named a (hsub ha))
  · -- the proofs and the translations are gone
    have hlocals : f'.locals =
        (keptLocals f i addrs ++ new).map fun l => { l with proven := false } :=
      congrArg Prod.fst heq
    have hxlats : f'.xlats = [] := congrArg Prod.snd heq
    have hl : localAddrs f' = (keptLocals f i addrs ++ new).map NetLocal.addr := by
      unfold localAddrs
      rw [hlocals, List.map_map]
      rfl
    have hx : xlatAddrs f' = [] := by
      unfold xlatAddrs
      rw [hxlats]
      rfl
    refine ⟨hl ▸ hnodup, hx ▸ List.nodup_nil, ?_, ?_, ?_, ?_⟩
    · simp [hx]
    · rw [hl]
      exact hmem
    · rintro a ⟨l, hl, rfl, hp⟩
      rw [hlocals] at hl
      obtain ⟨l', _, rfl⟩ := List.mem_map.mp hl
      exact Bool.noConfusion hp
    · simp [hx]

/-- An observation keeps the invariant, what it names being named. -/
theorem AddrInv.reflexive {i : Fam} {last : List NetmonAddr} {named named' : Bytes → Prop}
    {f : NetFam} (h : AddrInv i last named f) {epoch : UInt32} {a : Bytes}
    (hkeep : ∀ b, named b → named' b) (hnames : epoch = f.epoch → named' a) :
    AddrInv i last named' (netstateOnReflexive i epoch a f) := by
  have hcase := onReflexive_addrs i epoch a f
  generalize netstateOnReflexive i epoch a f = f' at hcase
  rcases hcase with heq | ⟨hepoch, hl, hproven, hxlats⟩ | ⟨hepoch, hnew, hnew', hlocals, hx⟩
  · exact h.congr heq hkeep
  · have hx : xlatAddrs f' = xlatAddrs f := congrArg (List.map Xlat.addr) hxlats
    refine ⟨hl ▸ h.locals_nodup, hx ▸ h.xlats_nodup, ?_, ?_, ?_, ?_⟩
    · rw [hl, hx]
      exact h.disjoint
    · rw [hl]
      exact h.locals_eq
    · intro b hb
      rcases (hproven b).mp hb with hb | rfl
      · exact hkeep b (h.proven b hb)
      · exact hnames hepoch
    · rw [hx]
      intro b hb
      exact hkeep b (h.xlats_named b hb)
  · have hl : localAddrs f' = localAddrs f := congrArg (List.map NetLocal.addr) hlocals
    refine ⟨hl ▸ h.locals_nodup, ?_, ?_, ?_, ?_, ?_⟩
    · rw [hx, List.nodup_append]
      refine ⟨h.xlats_nodup, List.nodup_singleton a, ?_⟩
      rintro b hb c hc rfl
      rw [List.mem_singleton] at hc
      exact hnew' (hc ▸ hb)
    · rw [hl, hx]
      intro b hb hmem
      rcases List.mem_append.mp hmem with hmem | hmem
      · exact h.disjoint b hb hmem
      · rw [List.mem_singleton] at hmem
        exact hnew (hmem ▸ hb)
    · rw [hl]
      exact h.locals_eq
    · rintro b ⟨l, hl, rfl, hp⟩
      rw [hlocals] at hl
      exact hkeep l.addr (h.proven l.addr ⟨l, hl, rfl, hp⟩)
    · rw [hx]
      intro b hb
      rcases List.mem_append.mp hb with hb | hb
      · exact hkeep b (h.xlats_named b hb)
      · rw [List.mem_singleton] at hb
        rw [hb]
        exact hnames hepoch

theorem lastSnapshot_concat (es : List NetIn) (e : NetIn) :
    lastSnapshot (es ++ [e]) = (snapshotOf e).getD (lastSnapshot es) :=
  List.foldl_concat _ _ e es

/-- Every snapshot of the calls has at most `NETMON_MAX_ADDRS` records. -/
def SnapshotsFit (es : List NetIn) : Prop :=
  ∀ e ∈ es, ∀ addrs, snapshotOf e = some addrs → addrs.length ≤ netmonMaxAddrs

/-- The two sets of a family after any calls whose snapshots fit. -/
theorem addrInv_run (isHost : Bool) (now : UInt64) (i : Fam) (es : List NetIn)
    (hfits : SnapshotsFit es) :
    AddrInv i (lastSnapshot es) (NamedHere isHost now es i)
      ((run netstateStep (netstateInit isHost now) es).f i) := by
  induction es using List.reverseRecOn with
  | nil =>
      refine ⟨List.nodup_nil, List.nodup_nil, by simp [localAddrs, netstateInit, famInit], ?_,
        ?_, ?_⟩
      · intro a
        simp [localAddrs, netstateInit, famInit, lastSnapshot, famAddrs]
      · rintro a ⟨l, hl, _⟩
        simp [netstateInit, famInit] at hl
      · simp [xlatAddrs, netstateInit, famInit]
  | append_singleton es e ih =>
      have ih := ih fun x hx => hfits x (List.mem_append_left _ hx)
      have hfit := hfits e (by simp)
      rw [run_concat, lastSnapshot_concat]
      generalize hns : run netstateStep (netstateInit isHost now) es = ns at ih ⊢
      show AddrInv i _ _ (famStep ns.isHost i (ns.f i) e)
      -- what is named stays named as long as the call does not drop the proofs
      have hkeep : ¬leavesNet ns.isHost i (ns.f i) e → ∀ a, NamedHere isHost now es i a →
          NamedHere isHost now (es ++ [e]) i a := by
        intro hstays a ha
        refine Since.concat ha ?_
        rw [hns]
        exact hstays
      cases hsnap : snapshotOf e with
      | some addrs =>
          cases e with
          | netmon changed addrs' when =>
              obtain rfl := Option.some.inj hsnap
              exact ih.netmon (hfit _ rfl) hkeep
          | _ => cases hsnap
      | none =>
          have hmove : ¬leavesNet ns.isHost i (ns.f i) e := by
            rintro ⟨hmoves, _⟩
            cases e with
            | netmon => cases hsnap
            | _ => cases hmoves
          by_cases hnames : ∃ epoch a, e = .reflexive i epoch a
          · obtain ⟨epoch, a, rfl⟩ := hnames
            show AddrInv i _ _ (addressed i i _ (ns.f i))
            rw [addressed_self]
            refine ih.reflexive (hkeep hmove) ?_
            rintro rfl
            refine since_last ?_
            rw [hns]
            rfl
          · push Not at hnames
            exact ih.congr (addrsOf_famStep ns.isHost i (ns.f i) e hsnap hnames) (hkeep hmove)

/-- A call inside an epoch of the family that, where it is a snapshot, has the address. -/
def KeepsAddr (i : Fam) (a : Bytes) (e : NetIn) : Prop :=
  moves i e = false ∧ ∀ addrs, snapshotOf e = some addrs → a ∈ famAddrs i addrs

/-- Such a call withdraws no proof of the address. -/
theorem Proven.step {isHost : Bool} {i : Fam} {a : Bytes} {f : NetFam} {e : NetIn}
    (h : Proven f a) (he : KeepsAddr i a e) : Proven (famStep isHost i f e) a := by
  obtain ⟨hmove, hsnap⟩ := he
  have hcongr : ∀ f' : NetFam, addrsOf f' = addrsOf f → Proven f' a := by
    intro f' heq
    have hlocals : f'.locals = f.locals := congrArg Prod.fst heq
    unfold Proven
    rw [hlocals]
    exact h
  cases hs : snapshotOf e with
  | some addrs =>
      cases e with
      | netmon changed addrs' when =>
          obtain rfl := Option.some.inj hs
          obtain ⟨new, left, pend, _, heq⟩ := netstateOnNetmon_eq isHost i changed addrs' when f
          have hbit : changed &&& netmonCh i = 0 := by simpa [moves] using hmove
          simp only [if_pos hbit] at heq
          have hstep : addrsOf (famStep isHost i f (.netmon changed addrs' when)) =
              (keptLocals f i addrs' ++ new, left) := by
            show addrsOf (netstateOnNetmon isHost i changed addrs' when f) = _
            rw [heq, addrsOf_syncHasAddr]
            rfl
          have hlocals : (famStep isHost i f (.netmon changed addrs' when)).locals =
              keptLocals f i addrs' ++ new := congrArg Prod.fst hstep
          obtain ⟨l, hl, rfl, hp⟩ := h
          refine ⟨l, ?_, rfl, hp⟩
          rw [hlocals, List.mem_append]
          left
          unfold keptLocals
          rw [List.mem_filter]
          exact ⟨hl, snapHas_of_mem (hsnap addrs' rfl)⟩
      | _ => cases hs
  | none =>
      by_cases hnames : ∃ epoch b, e = .reflexive i epoch b
      · obtain ⟨epoch, b, rfl⟩ := hnames
        show Proven (addressed i i _ f) a
        rw [addressed_self]
        rcases onReflexive_addrs i epoch b f with heq | ⟨_, _, hproven, _⟩ | ⟨_, _, _, hlocals, _⟩
        · exact hcongr _ heq
        · exact (hproven a).mpr (Or.inl h)
        · unfold Proven
          rw [hlocals]
          exact h
      · push Not at hnames
        exact hcongr _ (addrsOf_famStep isHost i f e hs hnames)

/-- The address sets of family `i` after the calls. -/
structure AddrFacts (isHost : Bool) (now : UInt64) (es : List NetIn) (i : Fam) : Prop where
  locals_nodup : (localAddrs ((run netstateStep (netstateInit isHost now) es).f i)).Nodup
  xlats_nodup : (xlatAddrs ((run netstateStep (netstateInit isHost now) es).f i)).Nodup
  disjoint : ∀ a ∈ localAddrs ((run netstateStep (netstateInit isHost now) es).f i),
    a ∉ xlatAddrs ((run netstateStep (netstateInit isHost now) es).f i)
  /-- The local set is the family's share of the last snapshot. -/
  locals_eq : ∀ a, a ∈ localAddrs ((run netstateStep (netstateInit isHost now) es).f i) ↔
    a ∈ famAddrs i (lastSnapshot es)
  /-- A proven address was named since the family last dropped its proofs. -/
  proven_named : ∀ a, Proven ((run netstateStep (netstateInit isHost now) es).f i) a →
    NamedHere isHost now es i a
  /-- Inside an epoch a proof stands as long as every snapshot has its address. -/
  proof_kept : ∀ a rest, Proven ((run netstateStep (netstateInit isHost now) es).f i) a →
    (∀ e ∈ rest, KeepsAddr i a e) →
    Proven ((run netstateStep (netstateInit isHost now) (es ++ rest)).f i) a

theorem addrFacts_run (isHost : Bool) (now : UInt64) (es : List NetIn) (i : Fam)
    (hfits : SnapshotsFit es) : AddrFacts isHost now es i := by
  have hinv := addrInv_run isHost now i es hfits
  refine ⟨hinv.locals_nodup, hinv.xlats_nodup, hinv.disjoint, hinv.locals_eq, hinv.proven, ?_⟩
  intro a rest ha hrest
  have happend : run netstateStep (netstateInit isHost now) (es ++ rest) =
      run netstateStep (run netstateStep (netstateInit isHost now) es) rest := List.foldl_append
  rw [happend]
  refine run_invariant_of_mem (I := fun ns : NetState => Proven (ns.f i) a)
    (G := KeepsAddr i a) ?_ ha hrest
  intro ns e h he
  exact Proven.step h he

/-- An address is observed before the kernel reports it, and keeps its proof. -/
theorem addrFacts_translated :
    SnapshotsFit [.reflexive .v4 1 [192, 0, 2, 7], .netmon 0
        [{ family := some .v4, addr := [192, 0, 2, 7] }] 0] ∧
      AddrFacts true 0 [.reflexive .v4 1 [192, 0, 2, 7], .netmon 0
        [{ family := some .v4, addr := [192, 0, 2, 7] }] 0] .v4 ∧
      ((run netstateStep (netstateInit true 0) [.reflexive .v4 1 [192, 0, 2, 7], .netmon 0
        [{ family := some .v4, addr := [192, 0, 2, 7] }] 0]).f .v4).locals =
        [{ addr := [192, 0, 2, 7], scope := .global, proven := true }] := by
  have hfits : SnapshotsFit [.reflexive .v4 1 [192, 0, 2, 7], .netmon 0
      [{ family := some .v4, addr := [192, 0, 2, 7] }] 0] := by
    simp [SnapshotsFit, snapshotOf, netmonMaxAddrs]
  exact ⟨hfits, addrFacts_run true 0 _ .v4 hfits, by decide⟩

end Netstate
end Comrade
