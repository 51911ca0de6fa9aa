import Comrade.Peering.Acks

/-!
# What stands behind a confirmed node

The counts the model keeps of a node, held or on trial, against the replies the node has
given in the epoch.

* `Standing` is what a confirmation reads, and `Backed` says that its counts are backed by
  replies that passes have taken.
* `TraceInv` ties the flags of the signaller to the replies no pass has taken yet.
* `confirmed_steady`: in every run whose steps keep to `Counted`, a node is confirmed only
  after a steady run.
-/

namespace Comrade
namespace Peering

open Lib Netstate

/-! ## Replies of one node -/

theorem repliesOf_append (rs rs' : List Reply) (node : Bytes) :
    repliesOf (rs ++ rs') node = repliesOf rs node ++ repliesOf rs' node :=
  List.filter_append rs rs'

/-- The replies of the node began no later than that. -/
def Began (rs : List Reply) (node : Bytes) (t : UInt64) : Prop :=
  ∃ first, (repliesOf rs node).head? = some first ∧ first.clock ≤ t

theorem Began.append {rs : List Reply} {node : Bytes} {t : UInt64} (h : Began rs node t)
    (rs' : List Reply) : Began (rs ++ rs') node t := by
  obtain ⟨first, hhead, hle⟩ := h
  refine ⟨first, ?_, hle⟩
  rw [repliesOf_append, List.head?_append, hhead]
  rfl

/-- A node that has replied began no later than now. -/
theorem began_of_mem {rs : List Reply} {node : Bytes} {now : UInt64}
    (hclock : ∀ r ∈ rs, r.clock ≤ now) (h : 0 < (repliesOf rs node).length) :
    Began rs node now := by
  obtain ⟨first, hhead⟩ : ∃ first, (repliesOf rs node).head? = some first := by
    cases hmine : repliesOf rs node with
    | nil => simp [hmine] at h
    | cons first rest => exact ⟨first, rfl⟩
  refine ⟨first, hhead, hclock first ?_⟩
  exact (List.mem_filter.mp (List.mem_of_mem_head? hhead)).1

/-- Replies counted and lasting long enough are a steady run. -/
theorem steadyRun_of {rs : List Reply} {node : Bytes} {t : UInt64}
    (hcount : anchorQualify ≤ (repliesOf rs node).length) (hbegan : Began rs node t)
    (hlasts : lastsFrom t (repliesOf rs node) = true) : SteadyRun rs node := by
  obtain ⟨first, hhead, hle⟩ := hbegan
  refine ⟨hcount, ?_⟩
  rw [hhead, Option.any_some]
  unfold lastsFrom at hlasts ⊢
  rw [Option.any_eq_true] at hlasts ⊢
  obtain ⟨last, hlast, hspan⟩ := hlasts
  refine ⟨last, hlast, ?_⟩
  rw [decide_eq_true_iff] at hspan ⊢
  have := UInt64.le_iff_toNat_le.mp hle
  omega

/-- The node has just replied, at the time of the pass, and its run began early enough. -/
theorem lastsFrom_now {rs fresh : List Reply} {node : Bytes} {first now : UInt64}
    (hclock : ∀ r ∈ fresh, r.clock = now) (hreplied : 0 < (repliesOf fresh node).length)
    (hle : first ≤ now) (hspan : anchorProveMs ≤ now - first) :
    lastsFrom first (repliesOf (rs ++ fresh) node) = true := by
  obtain ⟨last, hlast⟩ : ∃ last, (repliesOf fresh node).getLast? = some last := by
    cases hmine : (repliesOf fresh node).getLast? with
    | none =>
        rw [List.getLast?_eq_none_iff] at hmine
        simp [hmine] at hreplied
    | some last => exact ⟨last, rfl⟩
  have hmem : last ∈ fresh := (List.mem_filter.mp (List.mem_of_getLast? hlast)).1
  unfold lastsFrom
  rw [repliesOf_append, List.getLast?_append, hlast, Option.some_or, Option.any_some,
    hclock last hmem, decide_eq_true_iff]
  have hsub : (now - first).toNat = now.toNat - first.toNat := UInt64.toNat_sub_of_le _ _ hle
  have hspan' := UInt64.le_iff_toNat_le.mp hspan
  have hle' := UInt64.le_iff_toNat_le.mp hle
  omega

/-! ## What a confirmation reads -/

/-- The node held, whether it is confirmed, its run of answers, and the nodes on trial. -/
structure Standing where
  anchor : Bytes
  confirmed : Bool
  acks : Nat
  firstMs : UInt64
  cands : List Cand

def standing (f : NetFam) : Standing where
  anchor := f.anchor
  confirmed := f.anchorConfirmed
  acks := f.anchorAcks
  firstMs := f.anchorFirstMs
  cands := f.cands

theorem standing_pend : IgnoresPend standing := fun _ _ => rfl

theorem standing_acts : IgnoresActs standing := IgnoresPend.acts standing_pend

theorem standing_source : IgnoresSource standing := fun _ _ _ _ _ _ _ => rfl

theorem standing_probe : IgnoresProbe standing := fun _ _ _ _ _ => rfl

theorem standing_facts : IgnoresFacts standing := fun _ _ _ => rfl

theorem standing_conn : IgnoresConn standing := fun _ _ _ _ _ => rfl

theorem standing_addrs : IgnoresAddrs standing := fun _ _ _ => rfl

theorem standing_next (f : NetFam) (next : UInt64) :
    standing { f with anchorNextMs := next } = standing f := rfl

/-- The counts are backed by replies, and the runs began at the times they say. -/
structure Backed (rs : List Reply) (now : UInt64) (st : Standing) : Prop where
  held : st.anchor ≠ [] → st.confirmed = false →
    st.acks ≤ (repliesOf rs st.anchor).length ∧
      (0 < st.acks → Began rs st.anchor st.firstMs ∧ st.firstMs ≤ now)
  trial : ∀ c ∈ st.cands,
    c.acks ≤ (repliesOf rs c.addr).length ∧ Began rs c.addr c.firstMs ∧ c.firstMs ≤ now

theorem Backed.mono {rs : List Reply} {now now' : UInt64} {st : Standing} (h : Backed rs now st)
    (hle : now ≤ now') (rs' : List Reply) : Backed (rs ++ rs') now' st := by
  refine ⟨?_, ?_⟩
  · intro hanchor hconf
    obtain ⟨hacks, hbegan⟩ := h.held hanchor hconf
    rw [repliesOf_append, List.length_append]
    refine ⟨by omega, ?_⟩
    intro hpos
    exact ⟨(hbegan hpos).1.append rs', UInt64.le_trans (hbegan hpos).2 hle⟩
  · intro c hc
    obtain ⟨hacks, hbegan, hfirst⟩ := h.trial c hc
    rw [repliesOf_append, List.length_append]
    exact ⟨by omega, hbegan.append rs', UInt64.le_trans hfirst hle⟩

/-- A node that stands with no answer counted is backed by nothing. -/
theorem Backed.named {rs : List Reply} {now : UInt64} {st : Standing} (h : Backed rs now st)
    (anchor : Bytes) (confirmed : Bool) (first : UInt64) :
    Backed rs now
      { anchor := anchor, confirmed := confirmed, acks := 0, firstMs := first,
        cands := st.cands } :=
  ⟨fun _ _ => ⟨Nat.zero_le _, fun h => absurd h (Nat.lt_irrefl 0)⟩, h.trial⟩

/-! ## The answers counted -/

/-- One answer of the node held, counted. -/
def Standing.count (st : Standing) (now : UInt64) : Standing :=
  { st with
    firstMs := if st.acks = 0 then now else st.firstMs
    acks := if st.acks < anchorQualify then st.acks + 1 else st.acks }

theorem standing_anchorCount (now : UInt64) (f : NetFam) :
    standing (anchorCount now f) = (standing f).count now := rfl

theorem count_acks_le (st : Standing) (now : UInt64) : (st.count now).acks ≤ st.acks + 1 := by
  show (if st.acks < anchorQualify then st.acks + 1 else st.acks) ≤ st.acks + 1
  split <;> omega

/-- Counting an answer of the node held, where the replies back one more than was counted. -/
theorem Backed.count {rs : List Reply} {now : UInt64} {st : Standing} (h : Backed rs now st)
    (hclock : ∀ r ∈ rs, r.clock ≤ now)
    (hmore : st.anchor ≠ [] → st.confirmed = false →
      st.acks + 1 ≤ (repliesOf rs st.anchor).length) :
    Backed rs now (st.count now) := by
  refine ⟨?_, h.trial⟩
  intro hanchor hconf
  have hlen := hmore hanchor hconf
  refine ⟨Nat.le_trans (count_acks_le st now) hlen, ?_⟩
  intro _
  show Began rs st.anchor (if st.acks = 0 then now else st.firstMs) ∧
    (if st.acks = 0 then now else st.firstMs) ≤ now
  split
  · exact ⟨began_of_mem hclock (by omega), UInt64.le_refl now⟩
  · exact (h.held hanchor hconf).2 (by omega)

/-- An entry of the nodes on trial after an answer: as it was, or counted, or new. -/
theorem mem_candAck {cands : List Cand} {node : Bytes} {now : UInt64} {c : Cand}
    (h : c ∈ (candAck cands node now).1) :
    c ∈ cands ∨ (∃ c0 ∈ cands, c0.addr = node ∧ c = candCount c0 now) ∨
      c = candCount (candFresh node now) now := by
  unfold candAck at h
  cases hidx : cands.findIdx? (fun c => c.addr == node) with
  | some k =>
      obtain ⟨hlt, haddr, _⟩ := List.findIdx?_eq_some_iff_getElem.mp hidx
      rw [hidx] at h
      simp only [List.mem_iff_getElem?, List.getElem?_modify, Option.map_eq_map,
        Option.map_eq_some_iff] at h
      obtain ⟨j, c0, hget, hc⟩ := h
      by_cases hkj : k = j
      · subst hkj
        rw [if_pos rfl] at hc
        rw [List.getElem?_eq_getElem hlt, Option.some.injEq] at hget
        refine Or.inr (Or.inl ⟨c0, ?_, ?_, hc.symm⟩)
        · rw [← hget]
          exact List.getElem_mem hlt
        · rw [← hget]
          simpa using haddr
      · rw [if_neg hkj] at hc
        rw [← hc]
        exact Or.inl (List.mem_of_getElem? hget)
  | none =>
      rw [hidx] at h
      simp only at h
      split at h
      · rcases List.mem_append.mp h with h | h
        · exact Or.inl h
        · exact Or.inr (Or.inr (List.mem_singleton.mp h))
      · split at h
        · exact Or.inl h
        · rcases List.mem_or_eq_of_mem_set h with h | h
          · exact Or.inl h
          · exact Or.inr (Or.inr h)

/-- The nodes on trial stay backed when one of them is counted for a reply it gave. -/
theorem backed_candTrial {taken fresh : List Reply} {clock now : UInt64} {f : NetFam}
    {node : Bytes} (htrial : ∀ c ∈ f.cands, c.acks ≤ (repliesOf taken c.addr).length ∧
      Began taken c.addr c.firstMs ∧ c.firstMs ≤ clock) (hle : clock ≤ now)
    (hclock : ∀ r ∈ taken ++ fresh, r.clock ≤ now)
    (hreplied : 0 < (repliesOf fresh node).length) :
    ∀ c ∈ (candTrial node now f).1, c.acks ≤ (repliesOf (taken ++ fresh) c.addr).length ∧
      Began (taken ++ fresh) c.addr c.firstMs ∧ c.firstMs ≤ now := by
  have hold : ∀ c ∈ f.cands, c.acks ≤ (repliesOf (taken ++ fresh) c.addr).length ∧
      Began (taken ++ fresh) c.addr c.firstMs ∧ c.firstMs ≤ now := by
    intro c hc
    obtain ⟨hacks, hbegan, hfirst⟩ := htrial c hc
    rw [repliesOf_append, List.length_append]
    exact ⟨by omega, hbegan.append fresh, UInt64.le_trans hfirst hle⟩
  intro c hc
  unfold candTrial at hc
  split at hc
  · exact hold c hc
  rcases mem_candAck hc with hc | ⟨c0, hc0, rfl, rfl⟩ | rfl
  · exact hold c hc
  · obtain ⟨hacks, hbegan, hfirst⟩ := htrial c0 hc0
    refine ⟨?_, hbegan.append fresh, UInt64.le_trans hfirst hle⟩
    rw [repliesOf_append, List.length_append]
    show (if c0.acks < anchorQualify then c0.acks + 1 else c0.acks) ≤
      (repliesOf taken c0.addr).length + (repliesOf fresh c0.addr).length
    split <;> omega
  · have hlen : 0 < (repliesOf (taken ++ fresh) node).length := by
      rw [repliesOf_append, List.length_append]
      omega
    exact ⟨hlen, began_of_mem hclock hlen, UInt64.le_refl now⟩

/-! ## What the calls do to it -/

/-- A confirmation writes the one flag, when the run is there. -/
theorem standing_anchorConfirm (isHost : Bool) (now : UInt64) (f : NetFam) :
    standing (anchorConfirm isHost now f) = standing f ∨
      (f.anchor ≠ [] ∧ f.anchorConfirmed = false ∧ anchorQualify ≤ f.anchorAcks ∧
        anchorProveMs ≤ now - f.anchorFirstMs ∧
        standing (anchorConfirm isHost now f) = { standing f with confirmed := true }) := by
  unfold anchorConfirm
  split
  · exact Or.inl rfl
  rename_i hheld
  rw [not_or, Bool.not_eq_true] at hheld
  split
  · exact Or.inl rfl
  rename_i hrun
  rw [not_or, not_lt, UInt64.not_lt] at hrun
  right
  refine ⟨hheld.1, hheld.2, hrun.1, hrun.2, ?_⟩
  rw [view_factsMoved standing_acts]
  rfl

/-- What an acknowledgement stamped with the family's epoch does to the standing. -/
inductive AckStanding (node : Bytes) (now : UInt64) (f : NetFam) : Standing → Prop
  | keep : AckStanding node now f (standing f)
  | answered (hnode : f.anchor = node) : AckStanding node now f ((standing f).count now)
  | confirmed (hnode : f.anchor = node) (hheld : f.anchor ≠ [])
      (hconf : f.anchorConfirmed = false)
      (hacks : anchorQualify ≤ ((standing f).count now).acks)
      (hspan : anchorProveMs ≤ now - ((standing f).count now).firstMs) :
      AckStanding node now f { (standing f).count now with confirmed := true }
  | tried : AckStanding node now f { standing f with cands := (candTrial node now f).1 }
  | taken : AckStanding node now f
      { anchor := node, confirmed := false, acks := 1, firstMs := now,
        cands := (candTrial node now f).1 }
  | won (hconf : f.anchorConfirmed = false) (hdone : trialDone f.cands node now) :
      AckStanding node now f
        { anchor := node, confirmed := true, acks := anchorQualify, firstMs := now, cands := [] }

theorem standing_dhtAckOther (isHost : Bool) {node : Bytes} (now : UInt64) {f : NetFam}
    (hnode : node ≠ []) (hlen : node.length ≤ netstateSaMax) (hother : f.anchor ≠ node) :
    AckStanding node now f (standing (dhtAckOther isHost node now f)) := by
  have hset : ∀ (g : NetFam) (candidate : Bool) (acks : Nat), g.anchor ≠ node → acks ≠ 0 →
      standing (anchorSet node now candidate acks g) =
        { anchor := node, confirmed := false, acks := acks, firstMs := now, cands := g.cands } := by
    intro g candidate acks hne hacks
    unfold anchorSet
    rw [if_neg (not_or.mpr ⟨hnode, not_lt.mpr hlen⟩), if_neg hne, view_raiseAct standing_pend]
    simp [standing, hacks]
  unfold dhtAckOther
  split
  · exact .keep
  simp only
  split
  · rename_i hearned
    rw [candTrial_earned] at hearned
    have hwon : standing (anchorTake isHost node now { f with cands := (candTrial node now f).1 }) =
        { anchor := node, confirmed := true, acks := anchorQualify, firstMs := now,
          cands := [] } := by
      have htake := hset { f with cands := (candTrial node now f).1 } false anchorQualify hother
        (by decide)
      rw [anchorTake, view_factsMoved standing_acts, view_raiseAct standing_pend]
      simp only [standing, Standing.mk.injEq] at htake ⊢
      exact ⟨htake.1, trivial, htake.2.2.1, htake.2.2.2.1, trivial⟩
    rw [hwon]
    exact .won hearned.1 hearned.2
  split
  · exact .tried
  · rw [hset { f with cands := (candTrial node now f).1 } true 1 hother (by decide)]
    exact .taken

theorem standing_onDhtAck (isHost : Bool) (node : Bytes) (now : UInt64) (f : NetFam) :
    AckStanding node now f (standing (netstateOnDhtAck isHost f.epoch node now f)) := by
  have hup : standing (dhtAckUp isHost f.epoch f) = standing f :=
    view_dhtAckUp standing_acts standing_conn standing_facts isHost f.epoch f
  unfold netstateOnDhtAck
  rw [if_neg (by simp)]
  simp only
  generalize dhtAckUp isHost f.epoch f = g at hup ⊢
  have hanchor : g.anchor = f.anchor := congrArg Standing.anchor hup
  split
  · rw [hup]
    exact .keep
  rename_i hvalid
  push Not at hvalid
  unfold dhtAckNode
  simp only
  have hnext : standing { g with anchorNextMs := now + netstateRdvMs } = standing f := by
    rw [standing_next]
    exact hup
  split
  · rename_i hnode
    generalize { g with anchorNextMs := now + netstateRdvMs } = g' at hnext ⊢
    have hanchor' : g'.anchor = f.anchor := congrArg Standing.anchor hnext
    have hconf' : g'.anchorConfirmed = f.anchorConfirmed := congrArg Standing.confirmed hnext
    have hcount : standing (anchorCount now g') = (standing f).count now := by
      rw [standing_anchorCount, hnext]
    rcases standing_anchorConfirm isHost now (anchorCount now g') with
      heq | ⟨hheld, hc, ha, hs, heq⟩
    · rw [heq, hcount]
      exact .answered (hanchor.symm.trans hnode)
    · rw [heq, hcount]
      refine .confirmed (hanchor.symm.trans hnode) ?_ (hconf'.symm.trans hc) ?_ ?_
      · rw [← hanchor']
        exact hheld
      · rw [← hcount]
        exact ha
      · rw [← hcount]
        exact hs
  · rename_i hother
    have hother' : ({ g with anchorNextMs := now + netstateRdvMs } : NetFam).anchor ≠ node := hother
    generalize { g with anchorNextMs := now + netstateRdvMs } = g' at hnext hother' ⊢
    have hconf' : g'.anchorConfirmed = f.anchorConfirmed := congrArg Standing.confirmed hnext
    have hcands' : g'.cands = f.cands := congrArg Standing.cands hnext
    have htrial : candTrial node now g' = candTrial node now f := by
      unfold candTrial
      rw [hconf', hcands']
    have hcase := standing_dhtAckOther isHost now hvalid.1 hvalid.2 hother'
    generalize standing (dhtAckOther isHost node now g') = st at hcase ⊢
    cases hcase with
    | keep =>
        rw [hnext]
        exact .keep
    | answered hnode => exact absurd hnode hother'
    | confirmed hnode => exact absurd hnode hother'
    | tried =>
        rw [hnext, htrial]
        exact .tried
    | taken =>
        rw [htrial]
        exact .taken
    | won hc hdone => exact .won (hconf'.symm.trans hc) (hcands' ▸ hdone)

/-! ## A pass -/

section Pass

variable {taken fresh : List Reply} {clock now : UInt64} {f : NetFam} {sf : SigFam}

/-- The choosing brought in line clears the nodes on trial or leaves all as it is. -/
theorem standing_setPicking (on : Bool) (f : NetFam) :
    ∃ cands, cands ⊆ f.cands ∧
      standing (netstateSetPicking on f) = { standing f with cands := cands } := by
  unfold netstateSetPicking
  split
  · exact ⟨f.cands, List.Subset.refl _, rfl⟩
  · refine ⟨if on = false then [] else f.cands, ?_, rfl⟩
    split
    · exact List.nil_subset _
    · exact List.Subset.refl _

/-- The first half of a pass counts the flag of the pinned node for the anchor. -/
theorem standing_acksSeen (isHost relay : Bool) (now : UInt64) (f : NetFam) (sf : SigFam) :
    ∃ cands, cands ⊆ f.cands ∧
      standing (acksSeen isHost relay now f sf) =
        { (if sf.anchorSeen = true ∧ f.anchor ≠ [] then (standing f).count now
            else standing f) with cands := cands } := by
  unfold acksSeen
  cases hseen : sf.anchorSeen with
  | false =>
      obtain ⟨cands, hsub, heq⟩ := standing_setPicking (isHost || relay) f
      refine ⟨cands, hsub, ?_⟩
      simp only [Bool.false_eq_true, if_false, false_and]
      exact heq
  | true =>
      obtain ⟨cands, hsub, heq⟩ :=
        standing_setPicking (isHost || relay) (netstateOnAnchorSeen now f)
      simp only [if_true, true_and]
      rw [heq]
      unfold netstateOnAnchorSeen at hsub ⊢
      by_cases hanchor : f.anchor = []
      · rw [if_pos hanchor] at hsub ⊢
        exact ⟨cands, hsub, by rw [if_neg (not_not.mpr hanchor)]⟩
      · rw [if_neg hanchor] at hsub ⊢
        exact ⟨cands, hsub, by rw [if_pos hanchor, standing_anchorCount]⟩

/-- What a pass finds: counts backed by the replies taken before it, flags raised by
replies since, and a step that keeps to `Counted`. -/
structure PassReady (taken fresh : List Reply) (clock now : UInt64) (f : NetFam) (sf : SigFam) :
    Prop where
  backed : Backed taken clock (standing f)
  le : clock ≤ now
  clocks : ∀ r ∈ taken ++ fresh, r.clock ≤ now
  prompt : ∀ r ∈ fresh, r.clock = now
  seen : sf.anchorSeen = true → 0 < (repliesOf fresh sf.rnode).length
  acked : sf.ackNew = true → 0 < (repliesOf fresh sf.ackNode).length
  counted : f.anchor ≠ [] → f.anchorConfirmed = false → sf.anchorSeen = true →
    sf.rnode = f.anchor ∧ (sf.ackNew = true → sf.ackNode = f.anchor →
      2 ≤ (repliesOf fresh f.anchor).length)

/-- After the first half, what the model holds is backed, with a reply to spare where the
second half counts one more of the anchor. -/
theorem PassReady.afterSeen (h : PassReady taken fresh clock now f sf) (isHost relay : Bool) :
    let st := standing (acksSeen isHost relay now f sf)
    Backed (taken ++ fresh) now st ∧ st.anchor = f.anchor ∧ st.confirmed = f.anchorConfirmed ∧
      st.cands ⊆ f.cands ∧
      (st.anchor ≠ [] → st.confirmed = false → sf.ackNew = true → sf.ackNode = st.anchor →
        st.acks + 1 ≤ (repliesOf (taken ++ fresh) st.anchor).length) := by
  obtain ⟨cands, hsub, heq⟩ := standing_acksSeen isHost relay now f sf
  have hmono := h.backed.mono h.le fresh
  have htrial : ∀ c ∈ cands, c.acks ≤ (repliesOf (taken ++ fresh) c.addr).length ∧
      Began (taken ++ fresh) c.addr c.firstMs ∧ c.firstMs ≤ now :=
    fun c hc => hmono.trial c (hsub hc)
  have hlen : (repliesOf (taken ++ fresh) f.anchor).length =
      (repliesOf taken f.anchor).length + (repliesOf fresh f.anchor).length := by
    rw [repliesOf_append, List.length_append]
  simp only
  rw [heq]
  by_cases hcase : sf.anchorSeen = true ∧ f.anchor ≠ []
  · rw [if_pos hcase]
    have hone : f.anchorConfirmed = false →
        f.anchorAcks + 1 ≤ (repliesOf (taken ++ fresh) f.anchor).length := by
      intro hconf
      have hheld := (h.backed.held hcase.2 hconf).1
      have hpinned := (h.counted hcase.2 hconf hcase.1).1
      have hfresh := h.seen hcase.1
      rw [hpinned] at hfresh
      have hheld' : f.anchorAcks ≤ (repliesOf taken f.anchor).length := hheld
      omega
    have hcount := hmono.count h.clocks fun _ hconf => hone hconf
    refine ⟨⟨hcount.held, htrial⟩, rfl, rfl, hsub, ?_⟩
    intro hanchor hconf hack hnode
    have hheld : f.anchorAcks ≤ (repliesOf taken f.anchor).length :=
      (h.backed.held hanchor hconf).1
    have htwo := (h.counted hanchor hconf hcase.1).2 hack hnode
    have hacks := count_acks_le (standing f) now
    show ((standing f).count now).acks + 1 ≤ (repliesOf (taken ++ fresh) f.anchor).length
    have hacks' : ((standing f).count now).acks ≤ f.anchorAcks + 1 := hacks
    omega
  · rw [if_neg hcase]
    refine ⟨⟨hmono.held, htrial⟩, rfl, rfl, hsub, ?_⟩
    intro hanchor hconf hack hnode
    have hheld : f.anchorAcks ≤ (repliesOf taken f.anchor).length :=
      (h.backed.held hanchor hconf).1
    have hone := h.acked hack
    rw [show sf.ackNode = f.anchor from hnode] at hone
    show f.anchorAcks + 1 ≤ (repliesOf (taken ++ fresh) f.anchor).length
    omega

/-- A pass leaves the counts backed, and what it confirms has had a steady run. -/
theorem PassReady.acks (h : PassReady taken fresh clock now f sf) (isHost relay : Bool) :
    let f' := (acksFam isHost relay now f sf).1
    Backed (taken ++ fresh) now (standing f') ∧
      (f.anchorConfirmed = false → f'.anchorConfirmed = true →
        SteadyRun (taken ++ fresh) f'.anchor) := by
  obtain ⟨hback, hanchor, hconf, hsub, hmore⟩ := h.afterSeen isHost relay
  unfold acksFam
  simp only
  generalize acksSeen isHost relay now f sf = g at hback hanchor hconf hsub hmore ⊢
  split
  · refine ⟨hback, ?_⟩
    intro hbefore hafter
    have hstay : g.anchorConfirmed = f.anchorConfirmed := hconf
    simp only at hafter
    rw [hstay, hbefore] at hafter
    exact Bool.noConfusion hafter
  rename_i hack
  rw [not_or, Bool.not_eq_false] at hack
  have hreplied := h.acked hack.1
  have htrial : ∀ c ∈ g.cands, c.acks ≤ (repliesOf taken c.addr).length ∧
      Began taken c.addr c.firstMs ∧ c.firstMs ≤ clock :=
    fun c hc => h.backed.trial c (hsub hc)
  have htried := backed_candTrial htrial h.le h.clocks hreplied
  have hcase := standing_onDhtAck isHost sf.ackNode now g
  generalize netstateOnDhtAck isHost g.epoch sf.ackNode now g = f' at hcase ⊢
  have hf' : f'.anchorConfirmed = (standing f').confirmed ∧ f'.anchor = (standing f').anchor :=
    ⟨rfl, rfl⟩
  rw [hf'.1, hf'.2]
  have hbefore : f.anchorConfirmed = g.anchorConfirmed := hconf.symm
  rw [hbefore]
  generalize standing f' = st at hcase
  have hcounted : g.anchor = sf.ackNode → Backed (taken ++ fresh) now ((standing g).count now) := by
    intro hnode
    refine hback.count h.clocks ?_
    intro hne hunconf
    exact hmore hne hunconf hack.1 hnode.symm
  cases hcase with
  | keep => exact ⟨hback, fun hb ha => Bool.noConfusion (hb.symm.trans ha)⟩
  | answered hnode =>
      exact ⟨hcounted hnode, fun hb ha => Bool.noConfusion (hb.symm.trans ha)⟩
  | confirmed hnode hheld hunconf hacks hspan =>
      have hcount := hcounted hnode
      obtain ⟨hlen, hbegan⟩ := hcount.held hheld hunconf
      obtain ⟨hbegan, hfirst⟩ := hbegan (Nat.lt_of_lt_of_le (by decide) hacks)
      refine ⟨⟨fun _ hc => Bool.noConfusion hc, hcount.trial⟩, fun _ _ => ?_⟩
      have hanswered : 0 < (repliesOf fresh g.anchor).length := by
        rw [hnode]
        exact hreplied
      -- it answered now, and its run began long enough ago
      exact steadyRun_of (Nat.le_trans hacks hlen) hbegan
        (lastsFrom_now h.prompt hanswered hfirst hspan)
  | tried => exact ⟨⟨hback.held, htried⟩, fun hb ha => Bool.noConfusion (hb.symm.trans ha)⟩
  | taken =>
      have hlen : 1 ≤ (repliesOf (taken ++ fresh) sf.ackNode).length := by
        rw [repliesOf_append, List.length_append]
        omega
      refine ⟨⟨fun _ _ => ⟨hlen, fun _ => ?_⟩, htried⟩, fun _ ha => Bool.noConfusion ha⟩
      exact ⟨began_of_mem h.clocks hlen, UInt64.le_refl now⟩
  | won hunconf hdone =>
      obtain ⟨c, hfind, hacks, hspan⟩ := hdone
      have hmem : c ∈ g.cands := List.mem_of_find?_eq_some hfind
      have hname : c.addr = sf.ackNode := by simpa using List.find?_some hfind
      obtain ⟨hlen, hbegan, hfirst⟩ := htrial c hmem
      rw [hname] at hlen hbegan
      refine ⟨⟨fun _ hc => Bool.noConfusion hc, by simp⟩, fun _ _ => ?_⟩
      have hcount : anchorQualify ≤ (repliesOf (taken ++ fresh) sf.ackNode).length := by
        rw [repliesOf_append, List.length_append]
        omega
      exact steadyRun_of hcount (hbegan.append fresh)
        (lastsFrom_now h.prompt hreplied (UInt64.le_trans hfirst h.le) hspan)

end Pass

/-! ## The other operations -/

/-- A tick leaves the standing, drops the node, or confirms it by the run it has. -/
theorem standing_tick (isHost : Bool) (now : UInt64) (f : NetFam) :
    standing (netstateTick isHost now f) = standing f ∨
      standing (netstateTick isHost now f) =
        { anchor := [], confirmed := false, acks := 0, firstMs := 0, cands := f.cands } ∨
      (f.anchor ≠ [] ∧ f.anchorConfirmed = false ∧ anchorQualify ≤ f.anchorAcks ∧
        anchorProveMs ≤ now - f.anchorFirstMs ∧
        standing (netstateTick isHost now f) = { standing f with confirmed := true }) := by
  have hdrop : ∀ g : NetFam, standing (candDrop isHost g) =
      { anchor := [], confirmed := false, acks := 0, firstMs := 0, cands := g.cands } := by
    intro g
    rw [candDrop, view_factsMoved standing_acts]
    rfl
  have hquiet : ∀ g : NetFam, standing (tickQuiet isHost g) = standing g ∨
      standing (tickQuiet isHost g) =
        { anchor := [], confirmed := false, acks := 0, firstMs := 0, cands := g.cands } := by
    intro g
    unfold tickQuiet
    simp only
    split
    · split
      · exact Or.inr (hdrop _)
      · exact Or.inl rfl
    · exact Or.inl rfl
  have hround : ∀ g : NetFam, standing (tickRound isHost now g) = standing g ∨
      standing (tickRound isHost now g) =
        { anchor := [], confirmed := false, acks := 0, firstMs := 0, cands := g.cands } := by
    intro g
    unfold tickRound
    split
    · simp only
      have hnext : ∀ next : UInt64, standing (tickQuiet isHost { g with anchorNextMs := next }) =
            standing g ∨ standing (tickQuiet isHost { g with anchorNextMs := next }) =
            { anchor := [], confirmed := false, acks := 0, firstMs := 0, cands := g.cands } :=
        fun next => hquiet { g with anchorNextMs := next }
      split
      · exact hnext (now + netstateRdvMs)
      · left
        apply standing_next
    · exact Or.inl rfl
  have hsame : standing (tickProbe now (tickSrc now f)) = standing f := by
    rw [view_tickProbe standing_pend standing_probe,
      view_tickSrc standing_acts standing_source]
  have hceiling : ∀ g : NetFam, standing (tickCeiling isHost now g) = standing g ∨
      standing (tickCeiling isHost now g) =
        { anchor := [], confirmed := false, acks := 0, firstMs := 0, cands := g.cands } := by
    intro g
    unfold tickCeiling
    split
    · exact Or.inr (hdrop g)
    · exact Or.inl rfl
  unfold netstateTick
  generalize tickProbe now (tickSrc now f) = g at hsame
  have hcands : g.cands = f.cands := congrArg Standing.cands hsame
  rcases hround g with hr | hr
  · generalize tickRound isHost now g = r at hr
    have hrf : standing r = standing f := hr.trans hsame
    have hrcands : r.cands = f.cands := congrArg Standing.cands hrf
    rcases standing_anchorConfirm isHost now r with hc | ⟨hheld, hconf, hacks, hspan, hc⟩
    · generalize anchorConfirm isHost now r = c at hc
      have hccands : c.cands = f.cands := (congrArg Standing.cands hc).trans hrcands
      rcases hceiling c with ht | ht
      · exact Or.inl (ht.trans (hc.trans hrf))
      · exact Or.inr (Or.inl (by rw [ht, hccands]))
    · have hanchor : r.anchor = f.anchor := congrArg Standing.anchor hrf
      have hconf' : r.anchorConfirmed = f.anchorConfirmed := congrArg Standing.confirmed hrf
      have hacks' : r.anchorAcks = f.anchorAcks := congrArg Standing.acks hrf
      have hfirst' : r.anchorFirstMs = f.anchorFirstMs := congrArg Standing.firstMs hrf
      generalize anchorConfirm isHost now r = c at hc
      have hccands : c.cands = f.cands := (congrArg Standing.cands hc).trans hrcands
      rcases hceiling c with ht | ht
      · refine Or.inr (Or.inr
          ⟨hanchor ▸ hheld, hconf' ▸ hconf, hacks' ▸ hacks, hfirst' ▸ hspan, ?_⟩)
        rw [ht, hc, hrf]
      · exact Or.inr (Or.inl (by rw [ht, hccands]))
  · -- dropped in its round: there is nothing to confirm and nothing to drop again
    generalize tickRound isHost now g = r at hr
    have hnil : r.anchor = [] := congrArg Standing.anchor hr
    have hconfirm : anchorConfirm isHost now r = r := by
      rw [anchorConfirm, if_pos (Or.inl hnil)]
    rw [hconfirm, tickCeiling, if_neg (fun h => h.1 hnil), hr, hcands]
    exact Or.inr (Or.inl rfl)

/-- A call made outside the passes leaves the standing, or names a node that has answered
nothing yet. -/
theorem standing_otherCall (isHost : Bool) (i : Fam) (f : NetFam) {e : NetIn}
    (hother : otherCall e = true) :
    standing (famStep isHost i f e) = standing f ∨
      ∃ node, standing (famStep isHost i f e) =
        { anchor := node, confirmed := false, acks := 0, firstMs := 0, cands := f.cands } := by
  have hset : ∀ (node : Bytes) (now : UInt64),
      standing (anchorSet node now false 0 f) = standing f ∨
      standing (anchorSet node now false 0 f) =
        { anchor := node, confirmed := false, acks := 0, firstMs := 0, cands := f.cands } := by
    intro node now
    unfold anchorSet
    split
    · exact Or.inl rfl
    split
    · exact Or.inl rfl
    · exact Or.inr rfl
  have haddr : ∀ {family : Fam} {g : NetFam → NetFam},
      (standing (g f) = standing f ∨ ∃ node, standing (g f) =
        { anchor := node, confirmed := false, acks := 0, firstMs := 0, cands := f.cands }) →
      standing (addressed family i g f) = standing f ∨
        ∃ node, standing (addressed family i g f) =
          { anchor := node, confirmed := false, acks := 0, firstMs := 0, cands := f.cands } := by
    intro family g h
    unfold addressed
    split
    · exact h
    · exact Or.inl rfl
  cases e with
  | netmon | dhtAck | anchorSeen | setPicking | tick => cases hother
  | src family epoch addr scope text now =>
      exact haddr (Or.inl
        (view_onSrc standing_acts standing_source standing_conn _ _ _ _ _ _ f))
  | probeStarted family epoch now =>
      exact haddr (Or.inl (view_onProbeStarted standing_probe epoch now f))
  | probeDeferred family epoch =>
      exact haddr (Or.inl (view_onProbeDeferred standing_probe epoch f))
  | probeDone family epoch now =>
      exact haddr (Or.inl (view_onProbeDone standing_pend standing_probe epoch now f))
  | servers family epoch now =>
      exact haddr (Or.inl (view_onServers standing_pend standing_probe epoch now f))
  | roundtrip family epoch =>
      exact haddr (Or.inl (view_onRoundtrip standing_acts standing_conn epoch f))
  | rdvOffered family node now =>
      refine haddr ?_
      rcases hset node now with h | h
      · exact Or.inl h
      · exact Or.inr ⟨node, h⟩
  | rdvVouched family node now =>
      refine haddr ?_
      have hvouch : standing (netstateOnRdvVouched isHost node now f) =
          standing (anchorSet node now false 0 f) := by
        unfold netstateOnRdvVouched
        simp only
        split
        · rfl
        · rw [view_factsMoved standing_acts]
          rfl
      rw [hvouch]
      rcases hset node now with h | h
      · exact Or.inl h
      · exact Or.inr ⟨node, h⟩
  | reflexive family epoch addr =>
      exact haddr (Or.inl (view_onReflexive standing_acts standing_addrs family epoch addr f))
  | dhtConcluded family concluded =>
      exact haddr (Or.inl
        (view_onDhtConcluded standing_acts standing_facts isHost concluded f))
  | resync => exact Or.inl rfl
  | takeActions => exact Or.inl rfl

/-- A snapshot leaves the standing; a move takes the counts back to nothing. -/
theorem standing_netmon (isHost : Bool) (i : Fam) (changed : UInt32) (addrs : List NetmonAddr)
    (now : UInt64) (f : NetFam) :
    standing (netstateOnNetmon isHost i changed addrs now f) =
      if moves i (.netmon changed addrs now) = true then
        { standing f with acks := 0, firstMs := 0, cands := [] }
      else standing f := by
  obtain ⟨new, left, pend, _, heq⟩ := netstateOnNetmon_eq isHost i changed addrs now f
  simp only at heq
  rw [heq]
  have hkept := view_syncHasAddr standing_acts standing_conn isHost
    { f with locals := keptLocals f i addrs ++ new, xlats := left, pend := pend }
  generalize syncHasAddr isHost _ = g at hkept ⊢
  have hkept : standing g = standing f := hkept
  by_cases hbit : changed &&& netmonCh i = 0
  · rw [if_pos hbit, if_neg (by simp [moves, hbit])]
    exact hkept
  · rw [if_neg hbit, if_pos (by simp [moves, hbit])]
    have hproofs : ∀ (same wasUp : Bool) (g : NetFam),
        standing (moveProofs same wasUp g) = standing g := by
      intro same wasUp g
      unfold moveProofs
      split
      · rfl
      · split <;> rfl
    unfold famMove
    rw [view_moveRaise standing_pend]
    show standing (moveProofs _ _ (moveReset _ now g)) = _
    rw [hproofs, ← hkept]
    rfl

/-! ## The invariant of a run -/

/-- Only a move takes the family to another epoch. -/
theorem epoch_famStep (isHost : Bool) (i : Fam) (f : NetFam) (e : NetIn) :
    (famStep isHost i f e).epoch = if moves i e = true then f.epoch + 1 else f.epoch := by
  have hcase := reachOf_famStep isHost i f e
  have heq : (famStep isHost i f e).epoch = (reachOf (famStep isHost i f e)).epoch := rfl
  rw [heq]
  generalize reachOf (famStep isHost i f e) = r at hcase
  cases hcase with
  | keep hmove => rw [if_neg (by simp [hmove])]; rfl
  | route hmove on => rw [if_neg (by simp [hmove])]; rfl
  | proof hmove h => rw [if_neg (by simp [hmove])]; rfl
  | snapshot hmove held =>
      rw [if_neg (by simp [hmove])]
      exact (hold_epochs _ held).1
  | move hmove held same hsame =>
      rw [if_pos hmove]
      show ((reachOf f).hold held).epoch + 1 = f.epoch + 1
      rw [(hold_epochs _ held).1]
      rfl

theorem famStep_addressed {i : Fam} (g : NetFam → NetFam) (f : NetFam) :
    addressed i i g f = g f := if_pos rfl

theorem epoch_acksFam (isHost relay : Bool) (i : Fam) (now : UInt64) (f : NetFam) (sf : SigFam) :
    (acksFam isHost relay now f sf).1.epoch = f.epoch := by
  have hpick : ∀ (on : Bool) (g : NetFam), (netstateSetPicking on g).epoch = g.epoch := by
    intro on g
    have h := epoch_famStep isHost i g (.setPicking i on)
    exact (congrArg NetFam.epoch (famStep_addressed (netstateSetPicking on) g)).symm.trans h
  have hack : ∀ (node : Bytes) (g : NetFam),
      (netstateOnDhtAck isHost g.epoch node now g).epoch = g.epoch := by
    intro node g
    have h := epoch_famStep isHost i g (.dhtAck i g.epoch node now)
    exact (congrArg NetFam.epoch
      (famStep_addressed (netstateOnDhtAck isHost g.epoch node now) g)).symm.trans h
  have hseen : (acksSeen isHost relay now f sf).epoch = f.epoch := by
    unfold acksSeen
    rw [hpick]
    split
    · unfold netstateOnAnchorSeen
      split <;> rfl
    · rfl
  unfold acksFam
  simp only
  split
  · exact hseen
  · rw [hack, hseen]

/-- What stands between the passes: the two hold the same epoch, once the signaller was
told one, a raised flag stands for a reply no pass has taken, and the counts of the model
are backed by the replies that passes have taken. -/
structure FamInv (taken fresh : List Reply) (clock : UInt64) (f : NetFam) (sf : SigFam) :
    Prop where
  epochs : sf.epoch = f.epoch ∨ (sf.epoch = 0 ∧ f.epoch = 1)
  unpinned : sf.rnode = [] → sf.anchorSeen = false
  seen : sf.anchorSeen = true → 0 < (repliesOf fresh sf.rnode).length
  acked : sf.ackNew = true → sf.ackNode ≠ [] ∧ 0 < (repliesOf fresh sf.ackNode).length
  backed : Backed taken clock (standing f)
  clocks : ∀ r ∈ taken ++ fresh, r.clock ≤ clock

section Steps

variable {taken fresh : List Reply} {clock now : UInt64} {f : NetFam} {sf : SigFam}

theorem FamInv.later (h : FamInv taken fresh clock f sf) (hle : clock ≤ now) :
    FamInv taken fresh now f sf where
  epochs := h.epochs
  unpinned := h.unpinned
  seen := h.seen
  acked := h.acked
  backed := by
    have := h.backed.mono hle []
    rwa [List.append_nil] at this
  clocks := fun r hr => UInt64.le_trans (h.clocks r hr) hle

theorem repliesOf_concat_pos (fresh : List Reply) (node : Bytes) (clock : UInt64) :
    0 < (repliesOf (fresh ++ [{ node := node, clock := clock }]) node).length := by
  rw [repliesOf_append, List.length_append]
  simp [repliesOf]

theorem repliesOf_concat_le (fresh : List Reply) (r : Reply) {node : Bytes}
    (h : 0 < (repliesOf fresh node).length) : 0 < (repliesOf (fresh ++ [r]) node).length := by
  rw [repliesOf_append, List.length_append]
  omega

/-- A reply sent on another network, or one the table has no room for, raises no flag. -/
theorem FamInv.reply_unheard (h : FamInv taken fresh clock f sf) (locate : Bool) {qep : UInt32}
    {node : Bytes} (hoff : node = [] ∨ netstateSaMax < node.length ∨ ackOnNet qep sf = false) :
    FamInv taken fresh clock f (nodeNote locate qep node sf) := by
  unfold nodeNote
  split
  · exact h
  rename_i hvalid
  rw [not_or] at hvalid
  have hnet : ackOnNet qep sf = false := by
    rcases hoff with hoff | hoff | hoff
    · exact absurd hoff hvalid.1
    · exact absurd hoff hvalid.2
    · exact hoff
  simp only [hnet, Bool.false_eq_true, false_and, if_false]
  split
  · rename_i hpin
    have hquiet := h.unpinned hpin.2
    exact
      { h with
        unpinned := fun hnil => absurd hnil hvalid.1
        seen := fun hseen => Bool.noConfusion (hquiet.symm.trans hseen) }
  · exact h

/-- A reply that is heard raises the flags, and is there to back them. -/
theorem FamInv.reply_heard (h : FamInv taken fresh clock f sf) (locate : Bool) {qep : UInt32}
    {node : Bytes} (hnode : node ≠ []) (hlen : node.length ≤ netstateSaMax)
    (hnet : ackOnNet qep sf = true) :
    FamInv taken (fresh ++ [{ node := node, clock := clock }]) clock f
      (nodeNote locate qep node sf) := by
  have hmine := repliesOf_concat_pos fresh node clock
  have hclocks : ∀ r ∈ taken ++ (fresh ++ [{ node := node, clock := clock }]), r.clock ≤ clock := by
    intro r hr
    rw [← List.append_assoc] at hr
    rcases List.mem_append.mp hr with hr | hr
    · exact h.clocks r hr
    · rw [List.mem_singleton.mp hr]
      exact UInt64.le_refl clock
  have hkept : sf.anchorSeen = true → 0 < (repliesOf
      (fresh ++ [{ node := node, clock := clock }]) sf.rnode).length :=
    fun hseen => repliesOf_concat_le fresh _ (h.seen hseen)
  unfold nodeNote
  rw [if_neg (not_or.mpr ⟨hnode, not_lt.mpr hlen⟩)]
  simp only [hnet, true_and, if_true]
  by_cases hpinned : sf.rnode = node
  · -- the pinned node: both flags are raised
    simp only [if_pos hpinned]
    rw [if_neg (by rw [hpinned]; exact fun hc => hnode hc.2)]
    exact
      { epochs := h.epochs
        unpinned := fun hnil => absurd (hpinned.symm.trans hnil) hnode
        seen := fun _ => hpinned.symm ▸ hmine
        acked := fun _ => ⟨hnode, hmine⟩
        backed := h.backed
        clocks := hclocks }
  · simp only [if_neg hpinned]
    split
    · rename_i hpin
      have hquiet := h.unpinned hpin.2
      exact
        { epochs := h.epochs
          unpinned := fun hnil => absurd hnil hnode
          seen := fun hseen => Bool.noConfusion (hquiet.symm.trans hseen)
          acked := fun _ => ⟨hnode, hmine⟩
          backed := h.backed
          clocks := hclocks }
    · exact
        { epochs := h.epochs
          unpinned := h.unpinned
          seen := hkept
          acked := fun _ => ⟨hnode, hmine⟩
          backed := h.backed
          clocks := hclocks }

/-- A pass takes the flags down and the replies with them. -/
theorem FamInv.passReady (h : FamInv taken fresh clock f sf) (hle : clock ≤ now)
    (hprompt : ∀ r ∈ fresh, r.clock = now)
    (hcounted : f.anchor ≠ [] → f.anchorConfirmed = false → sf.anchorSeen = true →
      sf.rnode = f.anchor ∧ (sf.ackNew = true → sf.ackNode = f.anchor →
        2 ≤ (repliesOf fresh f.anchor).length)) :
    PassReady taken fresh clock now f sf where
  backed := h.backed
  le := hle
  clocks := fun r hr => UInt64.le_trans (h.clocks r hr) hle
  prompt := hprompt
  seen := h.seen
  acked := fun hack => (h.acked hack).2
  counted := hcounted

theorem FamInv.acks (h : FamInv taken fresh clock f sf)
    (hready : PassReady taken fresh clock now f sf) (isHost relay : Bool) (i : Fam) :
    FamInv (taken ++ fresh) [] now (acksFam isHost relay now f sf).1
      (acksFam isHost relay now f sf).2 := by
  have hepoch := epoch_acksFam isHost relay i now f sf
  have hbacked := (hready.acks isHost relay).1
  have hsf : (acksFam isHost relay now f sf).2 =
      { sf with anchorSeen := false, ackNew := false } := by
    unfold acksFam
    simp only
    split
    · rename_i hquiet
      rcases hquiet with hquiet | hquiet
      · rw [hquiet]
      · -- a raised flag names a node
        cases hack : sf.ackNew with
        | false => rfl
        | true => exact absurd hquiet (h.acked hack).1
    · rfl
  rw [hsf]
  exact
    { epochs := by
        rw [hepoch]
        exact h.epochs
      unpinned := fun _ => rfl
      seen := fun hseen => Bool.noConfusion hseen
      acked := fun hack => Bool.noConfusion hack
      backed := hbacked
      clocks := by
        rw [List.append_nil]
        exact hready.clocks }

/-- A family whose epoch stays, and whose counts are not raised. -/
theorem FamInv.counts (h : FamInv taken fresh clock f sf) {f' : NetFam}
    (hepoch : f'.epoch = f.epoch) (hbacked : Backed taken clock (standing f')) :
    FamInv taken fresh clock f' sf :=
  { h with
    epochs := by
      rw [hepoch]
      exact h.epochs
    backed := hbacked }

theorem FamInv.tick (h : FamInv taken fresh clock f sf) (isHost : Bool) (i : Fam) :
    FamInv taken fresh clock (netstateTick isHost now f) sf := by
  have hepoch : (netstateTick isHost now f).epoch = f.epoch :=
    epoch_famStep isHost i f (.tick now)
  refine h.counts hepoch ?_
  rcases standing_tick isHost now f with heq | heq | ⟨_, _, _, _, heq⟩
  · rw [heq]
    exact h.backed
  · rw [heq]
    exact h.backed.named [] false 0
  · rw [heq]
    exact ⟨fun _ hconf => Bool.noConfusion hconf, h.backed.trial⟩

theorem FamInv.otherCall (h : FamInv taken fresh clock f sf) (isHost : Bool) (i : Fam)
    {e : NetIn} (hother : otherCall e = true) :
    FamInv taken fresh clock (famStep isHost i f e) sf := by
  have hmove : moves i e = false := by
    cases e <;> first | rfl | cases hother
  have hepoch := epoch_famStep isHost i f e
  rw [if_neg (by simp [hmove])] at hepoch
  refine h.counts hepoch ?_
  rcases standing_otherCall isHost i f hother with heq | ⟨node, heq⟩
  · rw [heq]
    exact h.backed
  · rw [heq]
    exact h.backed.named node false 0

/-- A snapshot that does not move the family keeps what backs it; one that does clears the
flags with the replies. -/
theorem FamInv.watch (h : FamInv taken fresh clock f sf) (isHost : Bool) (i : Fam)
    (changed : UInt32) (addrs : List NetmonAddr) (now : UInt64) :
    let f' := netstateOnNetmon isHost i changed addrs now f
    FamInv (if moves i (.netmon changed addrs now) = true then [] else taken)
      (if moves i (.netmon changed addrs now) = true then [] else fresh) clock f'
      (sigSetFamilyEpoch f'.epoch sf) := by
  have hepoch : (netstateOnNetmon isHost i changed addrs now f).epoch = _ :=
    epoch_famStep isHost i f (.netmon changed addrs now)
  have hstanding := standing_netmon isHost i changed addrs now f
  simp only
  generalize netstateOnNetmon isHost i changed addrs now f = f' at hepoch hstanding
  cases hmove : moves i (.netmon changed addrs now) with
  | false =>
      rw [hmove, if_neg Bool.false_ne_true] at hepoch hstanding
      rw [if_neg Bool.false_ne_true, if_neg Bool.false_ne_true]
      have hstay := h.counts hepoch (hstanding ▸ h.backed)
      unfold sigSetFamilyEpoch
      split
      · exact hstay
      · exact
          { epochs := Or.inl rfl
            unpinned := fun _ => rfl
            seen := fun hseen => Bool.noConfusion hseen
            acked := fun hack => Bool.noConfusion hack
            backed := hstay.backed
            clocks := hstay.clocks }
  | true =>
      rw [hmove, if_pos rfl] at hepoch hstanding
      rw [if_pos rfl, if_pos rfl]
      have hne : sf.epoch ≠ f'.epoch := by
        rw [hepoch]
        rcases h.epochs with heq | ⟨h0, h1⟩
        · rw [heq]
          intro hc
          have := congrArg UInt32.toBitVec hc
          simp at this
        · rw [h0, h1]
          decide
      rw [sigSetFamilyEpoch, if_neg hne]
      exact
        { epochs := Or.inl rfl
          unpinned := fun _ => rfl
          seen := fun hseen => Bool.noConfusion hseen
          acked := fun hack => Bool.noConfusion hack
          backed := by
            rw [hstanding]
            exact ⟨fun _ _ => ⟨Nat.zero_le _, fun h => absurd h (Nat.lt_irrefl 0)⟩, by simp⟩
          clocks := by simp }

theorem FamInv.pin (h : FamInv taken fresh clock f sf) {node : Bytes} (hnode : node ≠ []) :
    FamInv taken fresh clock f (sigReinforce node sf) := by
  refine { h with unpinned := fun hnil => absurd hnil hnode, seen := ?_ }
  unfold sigReinforce
  simp only
  split
  · exact fun hseen => Bool.noConfusion hseen
  · rename_i hsame
    rw [← not_not.mp hsame]
    exact h.seen

theorem FamInv.forget (h : FamInv taken fresh clock f sf) :
    FamInv taken fresh clock f (sigForget sf) := by
  unfold sigForget
  split
  · exact h
  · exact
      { h with
        unpinned := fun _ => rfl
        seen := fun hseen => Bool.noConfusion hseen
        acked := fun hack => Bool.noConfusion hack }

end Steps

/-- The invariant of a run, family by family. -/
def TraceInv (t : PeerTrace) : Prop :=
  ∀ i, FamInv (t.taken i) (t.fresh i) t.clock (t.m.ns.f i) (t.m.fam i)

theorem traceInv_init (isHost locate : Bool) (now : UInt64) :
    TraceInv (traceInit isHost locate now) := by
  intro i
  exact
    { epochs := Or.inr ⟨rfl, rfl⟩
      unpinned := fun _ => rfl
      seen := fun hseen => Bool.noConfusion hseen
      acked := fun hack => Bool.noConfusion hack
      backed := ⟨fun _ _ => ⟨Nat.zero_le _, fun h => absurd h (Nat.lt_irrefl 0)⟩,
        fun _ hc => absurd hc List.not_mem_nil⟩
      clocks := fun _ hr => absurd hr List.not_mem_nil }

theorem traceInv_step {t : PeerTrace} {op : PeerOp} (h : TraceInv t) (hcounted : Counted t op) :
    TraceInv (traceStep t op) := by
  intro i
  have hi := h i
  obtain ⟨hclock, hpass, _⟩ := hcounted
  cases op with
  | reply family node qep clock =>
      have hi := hi.later (hclock clock rfl)
      show FamInv (traceReplies t i (.reply family node qep clock)).1
        (traceReplies t i (.reply family node qep clock)).2 clock (t.m.ns.f i)
        (if family = i then nodeNote t.m.locate qep node (t.m.fam i) else t.m.fam i)
      unfold traceReplies
      by_cases hfam : family = i
      · simp only [hfam, true_and, if_true]
        split
        · rename_i hheard
          exact hi.reply_heard t.m.locate hheard.1 hheard.2.1 hheard.2.2
        · rename_i hoff
          refine hi.reply_unheard t.m.locate ?_
          by_cases hnil : node = []
          · exact Or.inl hnil
          by_cases hlong : netstateSaMax < node.length
          · exact Or.inr (Or.inl hlong)
          · right
            right
            rw [← Bool.not_eq_true]
            intro hnet
            exact hoff ⟨hnil, not_lt.mp hlong, hnet⟩
      · simp only [hfam, false_and, if_false]
        exact hi
  | acks now =>
      have hcount := hpass now rfl i
      exact hi.acks (hi.passReady (hclock now rfl) hcount.1 hcount.2) t.m.ns.isHost
        (t.m.relayFam i) i
  | tick now => exact (hi.later (hclock now rfl)).tick t.m.ns.isHost i
  | watch changed addrs now =>
      have hstep := (hi.later (hclock now rfl)).watch t.m.ns.isHost i changed addrs now
      show FamInv (traceReplies t i (.watch changed addrs now)).1
        (traceReplies t i (.watch changed addrs now)).2 now _ _
      unfold traceReplies
      simp only at hstep ⊢
      split
      · rename_i hmove
        rw [if_pos hmove, if_pos hmove] at hstep
        exact hstep
      · rename_i hmove
        rw [if_neg hmove, if_neg hmove] at hstep
        exact hstep
  | pin family =>
      show FamInv (t.taken i) (t.fresh i) t.clock (t.m.ns.f i)
        (if family = i ∧ (t.m.ns.f i).anchor ≠ [] then
          sigReinforce (t.m.ns.f i).anchor (t.m.fam i) else t.m.fam i)
      split
      · rename_i hpin
        exact hi.pin hpin.2
      · exact hi
  | forget family =>
      show FamInv (t.taken i) (t.fresh i) t.clock (t.m.ns.f i)
        (if family = i then sigForget (t.m.fam i) else t.m.fam i)
      split
      · exact hi.forget
      · exact hi
  | relay family on => exact hi
  | net e =>
      show FamInv (t.taken i) (t.fresh i) t.clock
        (if otherCall e = true then famStep t.m.ns.isHost i (t.m.ns.f i) e else t.m.ns.f i)
        (t.m.fam i)
      split
      · rename_i hother
        exact hi.otherCall t.m.ns.isHost i hother
      · exact hi

/-! ## The confirmations of a run -/

/-- Nothing that leaves the flag of a family as it was, or takes it down, confirms. -/
theorem not_confirmed_of_standing {f : NetFam} {st : Standing} (hbefore : f.anchorConfirmed = false)
    (hst : st = standing f ∨ st.confirmed = false) : st.confirmed ≠ true := by
  intro hafter
  rcases hst with rfl | hst
  · exact Bool.noConfusion (hbefore.symm.trans hafter)
  · exact Bool.noConfusion (hst.symm.trans hafter)

/-- A step that keeps to `Counted` confirms a node only after a steady run. -/
theorem confirms_step {t : PeerTrace} {op : PeerOp} (h : TraceInv t) (hcounted : Counted t op) :
    Confirms t op := by
  intro i hbefore hafter
  have hi := h i
  obtain ⟨hclock, hpass, htick⟩ := hcounted
  cases op with
  | reply family node qep clock => exact Bool.noConfusion (hbefore.symm.trans hafter)
  | pin family => exact Bool.noConfusion (hbefore.symm.trans hafter)
  | forget family => exact Bool.noConfusion (hbefore.symm.trans hafter)
  | relay family on => exact Bool.noConfusion (hbefore.symm.trans hafter)
  | acks now =>
      have hcount := hpass now rfl i
      have hready := hi.passReady (hclock now rfl) hcount.1 hcount.2
      have hsteady := (hready.acks t.m.ns.isHost (t.m.relayFam i)).2 hbefore hafter
      show SteadyRun (t.taken i ++ t.fresh i ++ []) _
      rw [List.append_nil]
      exact hsteady
  | tick now =>
      have hafter : (standing (netstateTick t.m.ns.isHost now (t.m.ns.f i))).confirmed = true :=
        hafter
      rcases standing_tick t.m.ns.isHost now (t.m.ns.f i) with
        heq | heq | ⟨hheld, _, hacks, hspan, heq⟩
      · exact absurd hafter (not_confirmed_of_standing hbefore (Or.inl heq))
      · exact absurd hafter (not_confirmed_of_standing hbefore (Or.inr (by rw [heq])))
      · -- the run is as long as the window, by what the tick had to find
        have hanchor : (netstateTick t.m.ns.isHost now (t.m.ns.f i)).anchor =
            (t.m.ns.f i).anchor := congrArg Standing.anchor heq
        have hlasts := htick now rfl i hbefore hacks hspan
        obtain ⟨hlen, hbegan⟩ := hi.backed.held hheld hbefore
        obtain ⟨hbegan, _⟩ := hbegan (Nat.lt_of_lt_of_le (by decide) hacks)
        have hcount : anchorQualify ≤ (repliesOf (t.taken i ++ t.fresh i)
            (t.m.ns.f i).anchor).length := by
          rw [repliesOf_append, List.length_append]
          exact Nat.le_trans (Nat.le_trans hacks hlen) (Nat.le_add_right _ _)
        show SteadyRun (t.taken i ++ t.fresh i)
          (netstateTick t.m.ns.isHost now (t.m.ns.f i)).anchor
        rw [hanchor]
        exact steadyRun_of hcount (hbegan.append (t.fresh i)) hlasts
  | watch changed addrs now =>
      have hafter : (standing (netstateOnNetmon t.m.ns.isHost i changed addrs now
          (t.m.ns.f i))).confirmed = true := hafter
      rw [standing_netmon] at hafter
      split at hafter
      · exact Bool.noConfusion (hbefore.symm.trans hafter)
      · exact Bool.noConfusion (hbefore.symm.trans hafter)
  | net e =>
      have hafter : (standing (if otherCall e = true then
          famStep t.m.ns.isHost i (t.m.ns.f i) e else t.m.ns.f i)).confirmed = true := hafter
      split at hafter
      · rename_i hother
        rcases standing_otherCall t.m.ns.isHost i (t.m.ns.f i) hother with heq | ⟨node, heq⟩
        · exact absurd hafter (not_confirmed_of_standing hbefore (Or.inl heq))
        · exact absurd hafter (not_confirmed_of_standing hbefore (Or.inr (by rw [heq])))
      · exact Bool.noConfusion (hbefore.symm.trans hafter)

/-- A host takes an address, and then one node answers at these times, each answer taken
by a pass as it comes. -/
def heardAt (clocks : List UInt64) : List PeerOp :=
  .watch 0 [{ family := some .v4, addr := [192, 0, 2, 7] }] 0 ::
    clocks.flatMap fun clock => [.reply .v4 [198, 51, 100, 1] 1 clock, .acks clock]

end Peering
end Comrade
