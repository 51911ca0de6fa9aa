import Comrade.Paths.PlaneRun
import Comrade.Paths.Probeplane
import Comrade.Paths.TableRun

/-!
# Frames reflected at their sender

Every probe this end sends carries its own identity, so a copy of one opens when it
is delivered back, and passes for this connection.  An adversary that can do no
more than that returns any frame of this end's, from any source, in any order,
again and again and at any later time.  One end is run here against it, with all
that it keeps of its probes written down beside it: the frames it put on a carrier,
the nonces it drew, the probes it sent and how each was scored.

* `Quieter` is what every call but a round of probes does to a path: no probe
  becomes outstanding and no path becomes qualified.
* `ProbeBook` is the bookkeeping of the probes, whatever arrives.
* `Harmless` is what holds of every frame this end ever sent: a ping's nonce was
  drawn, and a pong's nonce is not outstanding and never will be again.
-/

namespace Comrade
namespace Paths

open Lib Sig

/-! ## One end and its frames -/

/-- How a probe was scored. -/
inductive Verdict where
  | answered
  | lost
  deriving DecidableEq, Repr

/-- One end of a connection, with the record of what it did. -/
structure ReflectEnd where
  pp : Probeplane
  pl : PathPlane
  sent : List Bytes
  drawn : List UInt64
  probed : List UInt64
  scored : List (UInt64 × Verdict)

/-- One end as it starts. -/
def reflectInit (magic : UInt32) (base : Key) (seq0 : UInt64) : ReflectEnd where
  pp := probeplaneInit magic base seq0
  pl := pathplaneInit
  sent := []
  drawn := []
  probed := []
  scored := []

/-- One thing that happens at an end.  `call` is any call into the path plane but
the two that send or hear a probe: those are `tickSend`, the second half of
`tick_probes` with the nonces that were drawn for it, and `recv`. -/
inductive ReflectEvent where
  | tickSend (k : PlaneSinks) (due : List (Slot × UInt64)) (rands : List (Option SealNonce))
      (now : Nat)
  | recv (k : PlaneSinks) (data : Bytes) (kind : PathKind) (src : Option Sockaddr)
      (agent : Option Agent) (rand : Option SealNonce) (now : Nat)
  | call (ev : PlaneEvent)
  | tellFresh (ufrag : Bytes) (nonce : UInt64) (rand : Option SealNonce)
  | bind (halfOut halfIn : Half)
  | txReady
  | reset

/-- The nonces drawn in an event. -/
def ReflectEvent.nonces : ReflectEvent → List UInt64
  | .tickSend _ due _ _ => due.map Prod.snd
  | _ => []

/-- The end of `tick_probes`: seal and send, up to the first that will not seal. -/
def sealAll (lock : Lock) (mine : Bytes) :
    Probeplane → List ProbeOut → List (Option SealNonce) → Probeplane × List Bytes
  | pp, [], _ => (pp, [])
  | pp, o :: os, rands =>
      if o.drop = true then sealAll lock mine pp os rands
      else
        match probeplaneSeal lock (rands.headD none) pp o.probe mine with
        | (pp, none) => (pp, [])
        | (pp, some frame) =>
            let r := sealAll lock mine pp os rands.tail
            (r.1, frame :: r.2)

/-- `path_probe_expire` scores the outstanding probe as lost. -/
def probeLost (p : Path) (now : Nat) : Bool :=
  p.outstanding && decide (now > p.sentMs) &&
    decide (((now - p.sentMs : Nat) : Int) > lossDeadline p)

/-- The probes that a pass of `path_probe_expire` over the table scores. -/
def lostProbes (t : PathTable) (now : Nat) : List (UInt64 × Verdict) :=
  (List.finRange pathTableMax).filterMap fun i =>
    if (t.p i).used = true ∧ probeLost (t.p i) now = true then some ((t.p i).nonce, .lost)
    else none

/-- The probes that a call scores. -/
def callScores (pl : PathPlane) : PlaneEvent → List (UInt64 × Verdict)
  | .tickScan k now => if k.ident = [] then [] else lostProbes pl.t now
  | .decide _ now => lostProbes pl.t now
  | _ => []

/-- The plane after a call that neither sends nor hears a probe. -/
def quietCall (blake2b : Blake2b) (base : Bytes) (pl : PathPlane) : PlaneEvent → PathPlane
  | .tickSend _ _ => pl
  | .apply .. => pl
  | ev => planeStep blake2b base pl ev

/-- The probe that a pong scores, where it answers one. -/
def pongScores (blake2b : Blake2b) (base : Bytes) (pl : PathPlane) (pr : PathProbe)
    (kind : PathKind) (src : Option Sockaddr) (now : Nat) : List (UInt64 × Verdict) :=
  let ep := (src.bind pathEpFromSockaddr).getD pathEpZero
  match pr.type, noncePath pl pr.nonce with
  | .pong, some i =>
      if kind ≠ .ice ∧ src.isSome = true ∧ pathEpAny ep = false ∧ ep ≠ (pl.t.p i).peerEp then []
      else if (pathProbePong (pathHeard blake2b base (pl.t.p i) ep pr) pr.nonce now).2 = true then
        [(pr.nonce, .answered)]
      else []
  | _, _ => []

/-- The answer of the plane, sealed, unless the test hook drops it. -/
def sealAnswer (lock : Lock) (rand : Option SealNonce) (pp : Probeplane) (mine : Bytes) :
    Option ProbeOut → Probeplane × List Bytes
  | none => (pp, [])
  | some o =>
      if o.drop = true then (pp, [])
      else
        let r := probeplaneSeal lock rand pp o.probe mine
        (r.1, r.2.toList)

section Step

variable (lock : Lock) (unlock : Unlock) (blake2b : Blake2b)

/-- One end after an event. -/
def reflectStep (s : ReflectEnd) : ReflectEvent → ReflectEnd
  | .tickSend k due rands now =>
      let r := tickSend s.pl due now
      let w := sealAll lock k.ident s.pp r.2 rands
      { s with
        pl := r.1
        pp := w.1
        sent := s.sent ++ w.2
        drawn := s.drawn ++ due.map Prod.snd
        probed := s.probed ++ r.2.map fun o => o.probe.nonce }
  | .recv k data kind src agent rand now =>
      let r := pathplaneRecv unlock blake2b s.pp s.pl k data kind src agent now
      let w := sealAnswer lock rand r.1 k.ident r.2.2.1
      { s with
        pl := r.2.1
        pp := w.1
        sent := s.sent ++ w.2
        scored := s.scored ++
          match r.2.2.2 with
          | none => []
          | some pr => pongScores blake2b r.1.base.toList s.pl pr.toPathProbe kind src now }
  | .call ev =>
      { s with
        pl := quietCall blake2b s.pp.base.toList s.pl ev
        scored := s.scored ++ callScores s.pl ev }
  | .tellFresh ufrag nonce rand =>
      let r := probeplaneSeal lock rand s.pp
        { probeBare .fresh nonce with haveTail := true } ufrag
      { s with pp := r.1, sent := s.sent ++ r.2.toList }
  | .bind halfOut halfIn => { s with pp := probeplaneBind blake2b s.pp halfOut halfIn }
  | .txReady => { s with pp := (probeplaneTxReady s.pp).1 }
  | .reset => { s with pp := probeplaneReset s.pp }

end Step

/-- The adversary of the reflection: what arrives is a frame this end sent. -/
def Reflected (s : ReflectEnd) : ReflectEvent → Prop
  | .recv _ data _ _ _ _ _ => data ∈ s.sent
  | _ => True

/-- The probe with this nonce is outstanding on the path of the slot. -/
def Outstanding (pl : PathPlane) (i : Slot) (n : UInt64) : Prop :=
  (pl.t.p i).used = true ∧ (pl.t.p i).outstanding = true ∧ (pl.t.p i).nonce = n

/-! ## What the calls do to a path -/

/-- No probe became outstanding, and the path did not become qualified. -/
def Quieter (p p' : Path) : Prop :=
  (p'.used = true → p'.outstanding = true →
    p.used = true ∧ p.outstanding = true ∧ p'.nonce = p.nonce) ∧
  (p'.qualified = true → p.qualified = true)

/-- Every path of the table is quieter. -/
def TableQuieter (t t' : PathTable) : Prop := ∀ i, Quieter (t.p i) (t'.p i)

theorem Quieter.refl (p : Path) : Quieter p p := ⟨fun h h' => ⟨h, h', rfl⟩, fun h => h⟩

theorem Quieter.trans {p p' p'' : Path} (h : Quieter p p') (h' : Quieter p' p'') :
    Quieter p p'' := by
  constructor
  · intro hused hout
    obtain ⟨hused', hout', hnonce'⟩ := h'.1 hused hout
    obtain ⟨hused'', hout'', hnonce''⟩ := h.1 hused' hout'
    exact ⟨hused'', hout'', hnonce'.trans hnonce''⟩
  · exact fun hq => h.2 (h'.2 hq)

/-- A path whose probing state is the same. -/
theorem Quieter.of_eq {p p' : Path} (hused : p'.used = p.used)
    (hout : p'.outstanding = p.outstanding) (hnonce : p'.nonce = p.nonce)
    (hqual : p'.qualified = p.qualified) : Quieter p p' := by
  constructor
  · intro h h'
    exact ⟨hused ▸ h, hout ▸ h', hnonce⟩
  · exact fun h => hqual ▸ h

/-- A path with nothing outstanding and nothing proven. -/
theorem Quieter.of_idle (p : Path) {p' : Path} (hout : p'.outstanding = false)
    (hqual : p'.qualified = false) : Quieter p p' := by
  constructor
  · intro _ h
    rw [hout] at h
    cases h
  · intro h
    rw [hqual] at h
    cases h

theorem TableQuieter.refl (t : PathTable) : TableQuieter t t := fun i => Quieter.refl (t.p i)

theorem TableQuieter.trans {t t' t'' : PathTable} (h : TableQuieter t t')
    (h' : TableQuieter t' t'') : TableQuieter t t'' := fun i => (h i).trans (h' i)

theorem tableQuieter_set {t : PathTable} {i : Slot} {p : Path} (h : Quieter (t.p i) p) :
    TableQuieter t (t.set i p) := by
  intro j
  by_cases hj : j = i
  · subst hj
    have hp : (t.set j p).p j = p := Function.update_self _ _ _
    rw [hp]
    exact h
  · have hp : (t.set i p).p j = t.p j := Function.update_of_ne hj _ _
    rw [hp]
    exact Quieter.refl _

theorem tableQuieter_mapUsed {t : PathTable} {f : Path → Path} (hf : ∀ p, Quieter p (f p)) :
    TableQuieter t (t.mapUsed f) := by
  intro i
  show Quieter (t.p i) (if (t.p i).used = true then f (t.p i) else t.p i)
  split_ifs
  · exact hf _
  · exact Quieter.refl _

theorem pathTableAdd_quieter (t : PathTable) (kind : PathKind) (remote : Option Sockaddr)
    (agent : Option Agent) (now : Nat) :
    TableQuieter t (pathTableAdd t kind remote agent now).1 := by
  rcases pathTableAdd_cases t kind remote agent now with hsame | ⟨ep, slot, -, -, -, hset⟩
  · rw [hsame]
    exact TableQuieter.refl t
  · rw [hset]
    exact tableQuieter_set (Quieter.of_idle _ rfl rfl)

theorem pathTableOffer_quieter (t : PathTable) (kind : PathKind) (remote : Option Sockaddr)
    (now : Nat) : TableQuieter t (pathTableOffer t kind remote now).1 := by
  rcases pathTableOffer_cases t kind remote now with hsame | ⟨-, hadd⟩
  · rw [hsame]
    exact TableQuieter.refl t
  · rw [hadd]
    exact pathTableAdd_quieter t kind remote none now

theorem pathTableDrop_quieter (t : PathTable) (gone : Path → Bool) :
    TableQuieter t (pathTableDrop t gone) := by
  intro i
  show Quieter (t.p i)
    (if (t.p i).used = true ∧ gone (t.p i) = true then pathZero else t.p i)
  split_ifs
  · exact Quieter.of_idle _ rfl rfl
  · exact Quieter.refl _

theorem pathProbeExpire_eq (p : Path) (now : Nat) :
    pathProbeExpire p now =
      if probeLost p now = true then lossRecord { p with outstanding := false } true else p := by
  unfold pathProbeExpire probeLost
  cases hout : p.outstanding with
  | false => simp
  | true =>
      by_cases hwait : now ≤ p.sentMs ∨ ((now - p.sentMs : Nat) : Int) ≤ lossDeadline p
      · rw [if_pos (.inr hwait), if_neg]
        simp only [Bool.true_and, Bool.and_eq_true, decide_eq_true_eq]
        omega
      · rw [if_neg (by simpa using hwait), if_pos]
        simp only [Bool.true_and, Bool.and_eq_true, decide_eq_true_eq]
        omega

theorem pathProbeExpire_quieter (p : Path) (now : Nat) : Quieter p (pathProbeExpire p now) := by
  rw [pathProbeExpire_eq]
  split_ifs
  · constructor
    · intro _ h
      cases h
    · exact fun h => h
  · exact Quieter.refl p

theorem pathSetPeerEp_quieter (blake2b : Blake2b) (base : Bytes) (p : Path) (ep : PathEp) :
    Quieter p (pathSetPeerEp blake2b base p ep) := by
  unfold pathSetPeerEp
  split_ifs
  · exact Quieter.refl p
  · exact Quieter.of_eq rfl rfl rfl rfl

theorem pathHeard_same (blake2b : Blake2b) (base : Bytes) (p : Path) (src : PathEp)
    (pr : PathProbe) :
    (pathHeard blake2b base p src pr).used = p.used ∧
      (pathHeard blake2b base p src pr).outstanding = p.outstanding ∧
      (pathHeard blake2b base p src pr).nonce = p.nonce ∧
      (pathHeard blake2b base p src pr).qualified = p.qualified := by
  have hsaw : ∀ (p : Path) (ep : PathEp), (pathSawInbound p ep).used = p.used ∧
      (pathSawInbound p ep).outstanding = p.outstanding ∧
      (pathSawInbound p ep).nonce = p.nonce ∧ (pathSawInbound p ep).qualified = p.qualified := by
    intro p ep
    unfold pathSawInbound
    split_ifs <;> exact ⟨rfl, rfl, rfl, rfl⟩
  have hself : ∀ (p : Path) (ep : PathEp), (pathSetSelfEp blake2b base p ep).used = p.used ∧
      (pathSetSelfEp blake2b base p ep).outstanding = p.outstanding ∧
      (pathSetSelfEp blake2b base p ep).nonce = p.nonce ∧
      (pathSetSelfEp blake2b base p ep).qualified = p.qualified := by
    intro p ep
    unfold pathSetSelfEp
    split_ifs <;> exact ⟨rfl, rfl, rfl, rfl⟩
  unfold pathHeard pathApplyTail
  dsimp only
  split_ifs
  all_goals first
    | exact hsaw p _
    | (obtain ⟨h₁, h₂, h₃, h₄⟩ := hsaw p p.peerEp
       obtain ⟨g₁, g₂, g₃, g₄⟩ := hself (pathSawInbound p p.peerEp) pr.echo
       exact ⟨g₁.trans h₁, g₂.trans h₂, g₃.trans h₃, g₄.trans h₄⟩)
    | (obtain ⟨h₁, h₂, h₃, h₄⟩ := hsaw p src
       obtain ⟨g₁, g₂, g₃, g₄⟩ := hself (pathSawInbound p src) pr.echo
       exact ⟨g₁.trans h₁, g₂.trans h₂, g₃.trans h₃, g₄.trans h₄⟩)

theorem pathHeard_quieter (blake2b : Blake2b) (base : Bytes) (p : Path) (src : PathEp)
    (pr : PathProbe) : Quieter p (pathHeard blake2b base p src pr) := by
  obtain ⟨hused, hout, hnonce, hqual⟩ := pathHeard_same blake2b base p src pr
  exact Quieter.of_eq hused hout hnonce hqual

theorem tickPath_quieter (blake2b : Blake2b) (base : Bytes) (k : PlaneSinks)
    (eps : List (Agent × PathEp)) (now : Nat) (p : Path) :
    Quieter p (tickPath blake2b base k eps now p) := by
  have hexpire : Quieter p (pathProbeExpire { p with usable := usableNow k p } now) :=
    (Quieter.of_eq rfl rfl rfl rfl).trans (pathProbeExpire_quieter _ now)
  unfold tickPath
  dsimp only
  split_ifs
  · split
    · exact hexpire
    · exact hexpire.trans (pathSetPeerEp_quieter blake2b base _ _)
  · exact hexpire

theorem pathSelect_quieter (t : PathTable) (now : Nat) : TableQuieter t (pathSelect t now) := by
  intro i
  rw [pathSelect_p]
  exact tableQuieter_mapUsed (fun p => pathProbeExpire_quieter p now) i

theorem refreshUsable_quieter (t : PathTable) (k : PlaneSinks) :
    TableQuieter t (refreshUsable t k) := fun _ => Quieter.of_eq rfl rfl rfl rfl

theorem pathplaneDecide_quieter (pl : PathPlane) (k : PlaneSinks) (now : Nat) :
    TableQuieter pl.t (pathplaneDecide pl k now).1.t := by
  intro i
  obtain ⟨hp, -⟩ := pinCheck_cases { pl with t := pathSelect (refreshUsable pl.t k) now } now
  rw [pathplaneDecide, hp]
  exact ((refreshUsable_quieter pl.t k).trans (pathSelect_quieter _ now)) i

theorem pathplanePin_quieter (pl : PathPlane) (k : PlaneSinks) (id : PathId) (now : Nat) :
    TableQuieter pl.t (pathplanePin pl k id now).1.t := by
  unfold pathplanePin
  split
  · exact TableQuieter.refl _
  · dsimp only
    split_ifs
    · exact tableQuieter_set (Quieter.of_eq rfl rfl rfl rfl)
    · exact tableQuieter_set (Quieter.of_eq rfl rfl rfl rfl)

theorem quietCall_quieter (blake2b : Blake2b) (base : Bytes) (pl : PathPlane) (ev : PlaneEvent) :
    TableQuieter pl.t (quietCall blake2b base pl ev).t := by
  cases ev with
  | tickScan k now =>
      simp only [quietCall, planeStep, tickScan]
      split_ifs
      · exact TableQuieter.refl _
      all_goals exact tableQuieter_mapUsed (tickPath_quieter blake2b base k _ now)
  | tickSend due now => exact TableQuieter.refl _
  | apply k pr kind src agent now => exact TableQuieter.refl _
  | decide k now => exact pathplaneDecide_quieter pl k now
  | pin k id forced now => exact pathplanePin_quieter pl k id now
  | addIce agent now => exact pathTableAdd_quieter pl.t .ice none agent now
  | addEp k kind remote now =>
      simp only [quietCall, planeStep, pathplaneAddEp]
      split
      · exact TableQuieter.refl _
      · split_ifs
        · exact TableQuieter.refl _
        · exact pathTableAdd_quieter pl.t kind (some remote) none now
  | offerPath k remote now =>
      simp only [quietCall, planeStep, pathplaneOfferPath]
      split
      · exact TableQuieter.refl _
      · split_ifs
        all_goals first
          | exact TableQuieter.refl _
          | exact pathTableOffer_quieter pl.t _ (some remote) now
  | dropIce => exact pathTableDrop_quieter pl.t fun p => p.kind == .ice
  | dropAgent agent =>
      cases agent with
      | none => exact TableQuieter.refl _
      | some a => exact pathTableDrop_quieter pl.t fun p => p.agent == some a
  | resetStats now =>
      show TableQuieter pl.t (pathTableResetStats pl.t now)
      apply tableQuieter_mapUsed
      intro p
      exact Quieter.of_idle p rfl rfl
  | clear => exact fun i => Quieter.of_idle _ rfl rfl
  | blackholeArm kind dst => exact TableQuieter.refl _
  | blackholeMute on => exact TableQuieter.refl _
  | blackholeLift => exact TableQuieter.refl _

theorem applyPing_quieter (blake2b : Blake2b) (base : Bytes) (pl : PathPlane) (k : PlaneSinks)
    (pr : PathProbe) (kind : PathKind) (ep : PathEp) (src : Option Sockaddr)
    (agent : Option Agent) (now : Nat) :
    TableQuieter pl.t (applyPing blake2b base pl k pr kind ep src agent now).1.t := by
  rcases applyPing_cases blake2b base pl k pr kind ep src agent now with
    ⟨-, hsame⟩ | ⟨-, t, o, ht, -, -, hdone⟩
  · rw [hsame]
    exact TableQuieter.refl _
  · have hquiet : TableQuieter pl.t t := by
      rcases ht with rfl | ⟨srck, rfl⟩
      · exact TableQuieter.refl _
      · exact pathTableOffer_quieter pl.t srck src now
    rcases hdone with hdone | ⟨i, hdone⟩
    · rw [hdone]
      exact hquiet
    · rw [hdone]
      exact hquiet.trans (tableQuieter_set (pathHeard_quieter blake2b base _ ep pr))

/-- A pong qualifies nothing unless it answers an outstanding probe. -/
theorem applyPong_of_none (blake2b : Blake2b) (base : Bytes) (pl : PathPlane) (pr : PathProbe)
    (kind : PathKind) (ep : PathEp) (src : Option Sockaddr) (now : Nat)
    (h : noncePath pl pr.nonce = none) :
    applyPong blake2b base pl pr kind ep src now = pl := by
  rw [applyPong, h]

theorem noncePath_eq_none_iff {pl : PathPlane} {n : UInt64} :
    noncePath pl n = none ↔ ∀ i, ¬Outstanding pl i n := by
  unfold noncePath
  rw [firstSlot_eq_none_iff]
  constructor
  · rintro h i ⟨hused, hout, hnonce⟩
    have hi := h i
    simp [hused, hout, hnonce] at hi
  · intro h i
    by_contra hne
    simp only [Bool.not_eq_false, Bool.and_eq_true, beq_iff_eq] at hne
    exact h i ⟨hne.1.1, hne.1.2, hne.2⟩

theorem TableQuieter.outstanding {pl pl' : PathPlane} (h : TableQuieter pl.t pl'.t) {i : Slot}
    {n : UInt64} (hout : Outstanding pl' i n) : Outstanding pl i n := by
  obtain ⟨hused, hout, hnonce⟩ := hout
  obtain ⟨hused', hout', hsame⟩ := (h i).1 hused hout
  exact ⟨hused', hout', hsame.symm.trans hnonce⟩

/-! ## A round of probes -/

/-- Everything one slot of a round can do: nothing, or a ping under the nonce drawn
for it, where the path had no probe outstanding. -/
theorem tickSendStep_cases (now : Nat) (st : PathPlane × List ProbeOut) (due : Slot × UInt64) :
    tickSendStep now st due = st ∨
      ∃ o : ProbeOut, (st.1.t.p due.1).outstanding = false ∧ o.probe.type = .ping ∧
        o.probe.nonce = due.2 ∧
        tickSendStep now st due =
          ({ st.1 with t := st.1.t.set due.1 (pathProbeSent (st.1.t.p due.1) due.2 now) },
            st.2 ++ [o]) := by
  unfold tickSendStep
  dsimp only
  split_ifs with hskip
  · exact .inl rfl
  · rw [not_or] at hskip
    have hdue := hskip.2
    simp only [pathProbeDue, Bool.not_eq_false, Bool.and_eq_true, Bool.not_eq_true'] at hdue
    exact .inr ⟨_, hdue.1.2, rfl, rfl, rfl⟩

/-- A ping that is noted makes its own nonce outstanding on its slot, and leaves the
other slots alone. -/
theorem outstanding_sent {pl : PathPlane} {i j : Slot} {n m : UInt64} {now : Nat}
    (h : Outstanding { pl with t := pl.t.set i (pathProbeSent (pl.t.p i) n now) } j m) :
    (j = i ∧ m = n) ∨ (j ≠ i ∧ Outstanding pl j m) := by
  by_cases hj : j = i
  · subst hj
    obtain ⟨-, -, hnonce⟩ := h
    have hp : ({ pl with t := pl.t.set j (pathProbeSent (pl.t.p j) n now) } : PathPlane).t.p j =
        pathProbeSent (pl.t.p j) n now := Function.update_self _ _ _
    rw [hp] at hnonce
    exact .inl ⟨rfl, hnonce.symm⟩
  · have hp : ({ pl with t := pl.t.set i (pathProbeSent (pl.t.p i) n now) } : PathPlane).t.p j =
        pl.t.p j := Function.update_of_ne hj _ _
    unfold Outstanding at h
    rw [hp] at h
    exact .inr ⟨hj, h⟩

/-- No two paths wait on one nonce. -/
def NoncesDistinct (pl : PathPlane) : Prop :=
  ∀ i j n, Outstanding pl i n → Outstanding pl j n → i = j

/-- What a round of probes has done after the slots it went through. -/
structure RoundInv (pl : PathPlane) (rest : List UInt64) (st : PathPlane × List ProbeOut) :
    Prop where
  outs : ∀ o ∈ st.2, o.probe.type = .ping
  grown : ∀ i n, Outstanding st.1 i n →
    Outstanding pl i n ∨ n ∈ st.2.map fun o => o.probe.nonce
  distinct : NoncesDistinct st.1
  ahead : ∀ i n, Outstanding st.1 i n → n ∉ rest
  qual : ∀ i, (st.1.t.p i).qualified = (pl.t.p i).qualified

theorem tickSendStep_roundInv {pl : PathPlane} {now : Nat} {st : PathPlane × List ProbeOut}
    {d : Slot × UInt64} {rest : List UInt64} (hfresh : d.2 ∉ rest)
    (h : RoundInv pl (d.2 :: rest) st) :
    RoundInv pl rest (tickSendStep now st d) := by
  rcases tickSendStep_cases now st d with hsame | ⟨o, -, htype, hnonce, hsent⟩
  · rw [hsame]
    refine ⟨h.outs, h.grown, h.distinct, ?_, h.qual⟩
    intro i n hout hn
    exact h.ahead i n hout (List.mem_cons_of_mem _ hn)
  · rw [hsent]
    constructor
    · intro o' ho'
      rcases List.mem_append.mp ho' with ho' | ho'
      · exact h.outs o' ho'
      · rw [List.mem_singleton.mp ho']
        exact htype
    · intro i n hout
      rcases outstanding_sent hout with ⟨-, hn⟩ | ⟨-, hout⟩
      · right
        simp [hn, hnonce]
      · rcases h.grown i n hout with hold | hmem
        · exact .inl hold
        · right
          simp only [List.map_append, List.mem_append]
          exact .inl hmem
    · intro i j n hi hj
      -- the new nonce was outstanding nowhere
      rcases outstanding_sent hi with ⟨hi, hn⟩ | ⟨-, hi⟩ <;>
        rcases outstanding_sent hj with ⟨hj, hn'⟩ | ⟨-, hj⟩
      · rw [hi, hj]
      · exact absurd (hn ▸ List.mem_cons_self) (h.ahead j n hj)
      · exact absurd (hn' ▸ List.mem_cons_self) (h.ahead i n hi)
      · exact h.distinct i j n hi hj
    · intro i n hout hn
      rcases outstanding_sent hout with ⟨-, rfl⟩ | ⟨-, hout⟩
      · exact hfresh hn
      · exact h.ahead i n hout (List.mem_cons_of_mem _ hn)
    · intro i
      rw [← h.qual i]
      show (Function.update st.1.t.p d.1 _ i).qualified = _
      by_cases hi : i = d.1
      · rw [hi, Function.update_self]
        rfl
      · rw [Function.update_of_ne hi]

theorem tickSend_roundInv {pl : PathPlane} {due : List (Slot × UInt64)} (now : Nat)
    (hdistinct : NoncesDistinct pl) (hfresh : (due.map Prod.snd).Nodup)
    (hnew : ∀ i n, Outstanding pl i n → n ∉ due.map Prod.snd) :
    RoundInv pl [] (tickSend pl due now) := by
  suffices hfold : ∀ st, RoundInv pl (due.map Prod.snd) st →
      RoundInv pl [] (due.foldl (tickSendStep now) st) from
    hfold (pl, []) ⟨fun o ho => absurd ho List.not_mem_nil, fun _ _ hout => .inl hout, hdistinct,
      hnew, fun _ => rfl⟩
  clear hnew
  induction due with
  | nil => exact fun _ h => h
  | cons d due ih =>
      intro st h
      rw [List.map_cons, List.nodup_cons] at hfresh
      exact ih hfresh.2 _ (tickSendStep_roundInv hfresh.1 h)

/-- What a round sends goes out under nonces that were drawn for it. -/
theorem tickSend_nonces (pl : PathPlane) (due : List (Slot × UInt64)) (now : Nat) :
    ∀ o ∈ (tickSend pl due now).2, o.probe.nonce ∈ due.map Prod.snd := by
  suffices hfold : ∀ st : PathPlane × List ProbeOut, ∀ o ∈ (due.foldl (tickSendStep now) st).2,
      o ∈ st.2 ∨ o.probe.nonce ∈ due.map Prod.snd by
    intro o ho
    rcases hfold (pl, []) o ho with hnil | hmem
    · cases hnil
    · exact hmem
  induction due with
  | nil => exact fun _ _ ho => .inl ho
  | cons d due ih =>
      intro st o ho
      rcases ih _ o ho with ho | hmem
      · rcases tickSendStep_cases now st d with hsame | ⟨o', -, -, hnonce, hsent⟩
        · rw [hsame] at ho
          exact .inl ho
        · rw [hsent] at ho
          rcases List.mem_append.mp ho with ho | ho
          · exact .inl ho
          · rw [List.mem_singleton.mp ho, hnonce]
            exact .inr List.mem_cons_self
      · exact .inr (List.mem_cons_of_mem _ hmem)

/-- A round leaves a path alone whose probe is outstanding. -/
theorem tickSend_kept (pl : PathPlane) (due : List (Slot × UInt64)) (now : Nat) {i : Slot}
    (hout : (pl.t.p i).outstanding = true) : (tickSend pl due now).1.t.p i = pl.t.p i := by
  suffices hfold : ∀ st : PathPlane × List ProbeOut, st.1.t.p i = pl.t.p i →
      (due.foldl (tickSendStep now) st).1.t.p i = pl.t.p i from hfold (pl, []) rfl
  induction due with
  | nil => exact fun _ h => h
  | cons d due ih =>
      intro st h
      apply ih
      rcases tickSendStep_cases now st d with hsame | ⟨o, hidle, -, -, hsent⟩
      · rw [hsame]
        exact h
      · rw [hsent, ← h]
        show Function.update st.1.t.p d.1 _ i = _
        apply Function.update_of_ne
        rintro rfl
        rw [h, hout] at hidle
        cases hidle

/-! ## What is scored -/

theorem mem_lostProbes {t : PathTable} {now : Nat} {v : UInt64 × Verdict} :
    v ∈ lostProbes t now ↔ ∃ i, (t.p i).used = true ∧ probeLost (t.p i) now = true ∧
      v = ((t.p i).nonce, .lost) := by
  simp only [lostProbes, List.mem_filterMap, List.mem_finRange, true_and,
    Option.ite_none_right_eq_some, Option.some.injEq, and_assoc]
  exact exists_congr fun i => and_congr_right fun _ => and_congr_right fun _ => eq_comm

theorem outstanding_of_mem_lostProbes {pl : PathPlane} {now : Nat} {v : UInt64 × Verdict}
    (h : v ∈ lostProbes pl.t now) :
    ∃ i, Outstanding pl i v.1 ∧ probeLost (pl.t.p i) now = true := by
  obtain ⟨i, hused, hlost, rfl⟩ := mem_lostProbes.1 h
  have hout := hlost
  simp only [probeLost, Bool.and_eq_true] at hout
  exact ⟨i, ⟨hused, hout.1.1, rfl⟩, hlost⟩

theorem nodup_lostProbes {pl : PathPlane} (h : NoncesDistinct pl) (now : Nat) :
    ((lostProbes pl.t now).map Prod.fst).Nodup := by
  rw [lostProbes, List.map_filterMap]
  refine List.Nodup.filterMap ?_ (List.nodup_finRange _)
  intro i j n hi hj
  have hback : ∀ k, n ∈ Option.map Prod.fst
      (if (pl.t.p k).used = true ∧ probeLost (pl.t.p k) now = true then
        some ((pl.t.p k).nonce, Verdict.lost) else none) → Outstanding pl k n := by
    intro k hk
    split_ifs at hk with hlost
    · have hout := hlost.2
      simp only [probeLost, Bool.and_eq_true] at hout
      exact ⟨hlost.1, hout.1.1, by simpa using hk⟩
    · cases hk
  exact h i j n (hback i hi) (hback j hj)

/-- A probe scored as lost is not outstanding any more. -/
theorem pathProbeExpire_lost {p : Path} {now : Nat} (h : probeLost p now = true) :
    (pathProbeExpire p now).outstanding = false := by
  rw [pathProbeExpire_eq, if_pos h]
  rfl

theorem callScores_done {pl : PathPlane} (blake2b : Blake2b) (base : Bytes) {ev : PlaneEvent}
    {v : UInt64 × Verdict} (hv : v ∈ callScores pl ev) :
    ∃ i, Outstanding pl i v.1 ∧
      ((quietCall blake2b base pl ev).t.p i).outstanding = false := by
  cases ev with
  | tickScan k now =>
      by_cases hident : k.ident = []
      · rw [callScores, if_pos hident] at hv
        cases hv
      · rw [callScores, if_neg hident] at hv
        obtain ⟨i, hout, hlost⟩ := outstanding_of_mem_lostProbes hv
        refine ⟨i, hout, ?_⟩
        have hexpired : (pathProbeExpire { pl.t.p i with usable := usableNow k (pl.t.p i) }
            now).outstanding = false := pathProbeExpire_lost hlost
        have hp : (quietCall blake2b base pl (.tickScan k now)).t.p i =
            tickPath blake2b base k (tickEps pl k now) now (pl.t.p i) := by
          show (tickScan blake2b base pl k now).1.t.p i = _
          rw [tickScan, if_neg hident]
          exact if_pos hout.1
        rw [hp]
        unfold tickPath
        dsimp only
        split_ifs
        · split
          · exact hexpired
          · unfold pathSetPeerEp
            split_ifs <;> exact hexpired
        · exact hexpired
  | decide k now =>
      obtain ⟨i, hout, hlost⟩ := outstanding_of_mem_lostProbes hv
      refine ⟨i, hout, ?_⟩
      obtain ⟨hp, -⟩ := pinCheck_cases { pl with t := pathSelect (refreshUsable pl.t k) now } now
      show ((pathplaneDecide pl k now).1.t.p i).outstanding = false
      rw [pathplaneDecide, hp]
      show ((pathSelect (refreshUsable pl.t k) now).p i).outstanding = false
      rw [pathSelect_p]
      have hp' : (expireProbes (refreshUsable pl.t k) now).p i =
          pathProbeExpire { pl.t.p i with usable := usableNow k (pl.t.p i) } now := if_pos hout.1
      rw [hp']
      exact pathProbeExpire_lost hlost
  | _ => cases hv

theorem nodup_callScores {pl : PathPlane} (h : NoncesDistinct pl) (ev : PlaneEvent) :
    ((callScores pl ev).map Prod.fst).Nodup := by
  cases ev with
  | tickScan k now =>
      simp only [callScores]
      split_ifs
      · exact List.nodup_nil
      · exact nodup_lostProbes h now
  | decide k now => exact nodup_lostProbes h now
  | _ => exact List.nodup_nil

/-- The answer to the outstanding probe is taken. -/
theorem pathProbePong_answers {p : Path} {nonce : UInt64} (hout : p.outstanding = true)
    (hnonce : p.nonce = nonce) (now : Nat) :
    (pathProbePong p nonce now).1.outstanding = false ∧ (pathProbePong p nonce now).2 = true := by
  unfold pathProbePong
  rw [if_neg (by rw [hout, hnonce]; simp)]
  dsimp only
  split_ifs <;> exact ⟨rfl, rfl⟩

/-- Everything `apply_pong` can do: nothing, or it scores the probe that was
outstanding under the nonce. -/
theorem applyPong_cases (blake2b : Blake2b) (base : Bytes) (pl : PathPlane) (pr : PathProbe)
    (kind : PathKind) (src : Option Sockaddr) (now : Nat) (htype : pr.type = .pong) :
    let ep := (src.bind pathEpFromSockaddr).getD pathEpZero
    (applyPong blake2b base pl pr kind ep src now = pl ∧
        pongScores blake2b base pl pr kind src now = []) ∨
      ∃ i p, noncePath pl pr.nonce = some i ∧ p.outstanding = false ∧
        applyPong blake2b base pl pr kind ep src now = { pl with t := pl.t.set i p } ∧
        pongScores blake2b base pl pr kind src now = [(pr.nonce, .answered)] := by
  intro ep
  unfold applyPong pongScores
  dsimp only
  rw [htype]
  cases hpath : noncePath pl pr.nonce with
  | none => exact .inl ⟨rfl, rfl⟩
  | some i =>
      dsimp only
      by_cases haway : kind ≠ .ice ∧ src.isSome = true ∧ pathEpAny ep = false ∧
          ep ≠ (pl.t.p i).peerEp
      · rw [if_pos haway, if_pos haway]
        exact .inl ⟨rfl, rfl⟩
      · rw [if_neg haway, if_neg haway]
        right
        have hfound := firstSlot_spec hpath
        simp only [Bool.and_eq_true, beq_iff_eq] at hfound
        obtain ⟨-, hout, hnonce, -⟩ := pathHeard_same blake2b base (pl.t.p i) ep pr
        have hpong := pathProbePong_answers (hout.trans hfound.1.2) (hnonce.trans hfound.2) now
        refine ⟨i, _, rfl, hpong.1, rfl, ?_⟩
        rw [if_pos hpong.2]

/-! ## The book of the probes -/

/-- What the end's record says of its probes, whatever arrives: each was sent under a
nonce that was drawn for it, and a probe that was scored is not outstanding and was
scored once. -/
structure ProbeBook (s : ReflectEnd) : Prop where
  probedDrawn : ∀ n ∈ s.probed, n ∈ s.drawn
  outProbed : ∀ i n, Outstanding s.pl i n → n ∈ s.probed
  distinct : NoncesDistinct s.pl
  scoredProbed : ∀ v ∈ s.scored, v.1 ∈ s.probed
  scoredDone : ∀ v ∈ s.scored, ∀ i, ¬Outstanding s.pl i v.1
  scoredOnce : (s.scored.map Prod.fst).Nodup

/-- A step that makes nothing outstanding, and scores probes that were. -/
theorem ProbeBook.scores {s : ReflectEnd} (h : ProbeBook s) {pl : PathPlane}
    {new : List (UInt64 × Verdict)}
    (hback : ∀ i n, Outstanding pl i n → Outstanding s.pl i n)
    (hnew : ∀ v ∈ new, ∃ i, Outstanding s.pl i v.1 ∧ (pl.t.p i).outstanding = false)
    (honce : (new.map Prod.fst).Nodup) (pp : Probeplane) (sent : List Bytes) :
    ProbeBook { s with pl := pl, pp := pp, sent := sent, scored := s.scored ++ new } := by
  constructor
  · exact h.probedDrawn
  · exact fun i n hout => h.outProbed i n (hback i n hout)
  · exact fun i j n hi hj => h.distinct i j n (hback i n hi) (hback j n hj)
  · intro v hv
    rcases List.mem_append.mp hv with hv | hv
    · exact h.scoredProbed v hv
    · obtain ⟨i, hout, -⟩ := hnew v hv
      exact h.outProbed i v.1 hout
  · intro v hv j hj
    rcases List.mem_append.mp hv with hv | hv
    · exact h.scoredDone v hv j (hback j v.1 hj)
    · -- the one path that waited on it waits no longer
      obtain ⟨i, hout, hidle⟩ := hnew v hv
      obtain rfl := h.distinct i j v.1 hout (hback j v.1 hj)
      have hwait : (pl.t.p i).outstanding = true := hj.2.1
      rw [hidle] at hwait
      cases hwait
  · show ((s.scored ++ new).map Prod.fst).Nodup
    rw [List.map_append, List.nodup_append]
    refine ⟨h.scoredOnce, honce, ?_⟩
    intro n hn m hm hnm
    subst hnm
    obtain ⟨v, hv, rfl⟩ := List.mem_map.mp hn
    obtain ⟨v', hv', heq⟩ := List.mem_map.mp hm
    obtain ⟨i, hout, -⟩ := hnew v' hv'
    exact h.scoredDone v hv i (heq ▸ hout)

/-- The nonces drawn in an event are new. -/
def FreshNonces (s : ReflectEnd) (ev : ReflectEvent) : Prop :=
  ev.nonces.Nodup ∧ ∀ n ∈ ev.nonces, n ∉ s.drawn

section Runs

variable {lock : Lock} {unlock : Unlock} {blake2b : Blake2b}

theorem reflectStep_drawn (s : ReflectEnd) (ev : ReflectEvent) :
    (reflectStep lock unlock blake2b s ev).drawn = s.drawn ++ ev.nonces := by
  cases ev <;> simp [reflectStep, ReflectEvent.nonces]

/-- Nonces that are never repeated over a run are new at each step of it. -/
theorem everyStep_freshNonces {s : ReflectEnd} {events : List ReflectEvent}
    (h : (s.drawn ++ events.flatMap ReflectEvent.nonces).Nodup) :
    EveryStep (reflectStep lock unlock blake2b) FreshNonces s events := by
  induction events generalizing s with
  | nil => trivial
  | cons ev events ih =>
      rw [List.flatMap_cons, ← List.append_assoc] at h
      constructor
      · obtain ⟨-, hnodup, hdisj⟩ := List.nodup_append.mp (List.nodup_append.mp h).1
        refine ⟨hnodup, ?_⟩
        intro n hn hdrawn
        exact hdisj n hdrawn n hn rfl
      · apply ih
        rw [reflectStep_drawn]
        exact h

/-- The two ways a datagram can go: refused, or acted on as the probe in it. -/
theorem pathplaneRecv_cases (unlock : Unlock) (blake2b : Blake2b) (pp : Probeplane)
    (pl : PathPlane) (k : PlaneSinks) (data : Bytes) (kind : PathKind) (src : Option Sockaddr)
    (agent : Option Agent) (now : Nat) :
    (∃ pp', pathplaneRecv unlock blake2b pp pl k data kind src agent now =
        (pp', pl, none, none)) ∨
      ∃ pp' pr, recvProbe unlock pp k.ident data = (pp', some pr) ∧
        pathplaneRecv unlock blake2b pp pl k data kind src agent now =
          (pp',
            (pathplaneApply blake2b pp'.base.toList pl k pr.toPathProbe kind src agent now).1,
            (pathplaneApply blake2b pp'.base.toList pl k pr.toPathProbe kind src agent now).2,
            some pr) := by
  unfold pathplaneRecv
  rcases hrecv : recvProbe unlock pp k.ident data with ⟨pp', _ | pr⟩
  · exact .inl ⟨pp', rfl⟩
  · exact .inr ⟨pp', pr, rfl, rfl⟩

/-- What acting on a probe does to the book. -/
theorem pathplaneApply_scores {s : ReflectEnd} (h : ProbeBook s) (base : Bytes) (k : PlaneSinks)
    (pr : PathProbe) (kind : PathKind) (src : Option Sockaddr) (agent : Option Agent) (now : Nat)
    (pp : Probeplane) (sent : List Bytes) :
    ProbeBook { s with
      pl := (pathplaneApply blake2b base s.pl k pr kind src agent now).1
      pp := pp
      sent := sent
      scored := s.scored ++ pongScores blake2b base s.pl pr kind src now } := by
  have hnone : pr.type ≠ .pong → pongScores blake2b base s.pl pr kind src now = [] := by
    intro htype
    unfold pongScores
    split
    · exact absurd (by assumption) htype
    · rfl
  cases htype : pr.type with
  | ping =>
      rw [hnone (by rw [htype]; decide)]
      refine h.scores ?_ (fun v hv => absurd hv List.not_mem_nil) List.nodup_nil pp sent
      intro i n hout
      unfold pathplaneApply at hout
      rw [htype] at hout
      exact (applyPing_quieter blake2b base s.pl k pr kind _ src agent now).outstanding hout
  | pong =>
      unfold pathplaneApply
      rw [htype]
      dsimp only
      rcases applyPong_cases blake2b base s.pl pr kind src now htype with
        ⟨hsame, hscores⟩ | ⟨i, p, hpath, hidle, hset, hscores⟩
      · rw [hsame, hscores]
        exact h.scores (fun _ _ hout => hout) (fun v hv => absurd hv List.not_mem_nil)
          List.nodup_nil pp sent
      · rw [hset, hscores]
        have hfound := firstSlot_spec hpath
        simp only [Bool.and_eq_true, beq_iff_eq] at hfound
        refine h.scores ?_ ?_ ?_ pp sent
        · intro j n hout
          by_cases hj : j = i
          · subst hj
            have hwait : ((s.pl.t.set j p).p j).outstanding = true := hout.2.1
            have hp : (s.pl.t.set j p).p j = p := Function.update_self _ _ _
            rw [hp, hidle] at hwait
            cases hwait
          · have hp : (s.pl.t.set i p).p j = s.pl.t.p j := Function.update_of_ne hj _ _
            unfold Outstanding at hout
            rw [hp] at hout
            exact hout
        · intro v hv
          rw [List.mem_singleton.mp hv]
          refine ⟨i, ⟨hfound.1.1, hfound.1.2, hfound.2⟩, ?_⟩
          have hp : (s.pl.t.set i p).p i = p := Function.update_self _ _ _
          show ((s.pl.t.set i p).p i).outstanding = false
          rw [hp]
          exact hidle
        · exact List.nodup_singleton _
  | other code =>
      rw [hnone (by rw [htype]; exact ProbeType.noConfusion)]
      unfold pathplaneApply
      rw [htype]
      exact h.scores (fun _ _ hout => hout) (fun v hv => absurd hv List.not_mem_nil)
        List.nodup_nil pp sent

theorem reflectStep_probeBook {s : ReflectEnd} (h : ProbeBook s) (ev : ReflectEvent)
    (hfresh : FreshNonces s ev) : ProbeBook (reflectStep lock unlock blake2b s ev) := by
  cases ev with
  | tickSend k due rands now =>
      obtain ⟨hnodup, hnew⟩ := hfresh
      have hround := tickSend_roundInv now h.distinct hnodup fun i n hout hn =>
        hnew n hn (h.probedDrawn n (h.outProbed i n hout))
      have hdrawn := tickSend_nonces s.pl due now
      constructor
      · intro n hn
        rcases List.mem_append.mp hn with hn | hn
        · exact List.mem_append_left _ (h.probedDrawn n hn)
        · obtain ⟨o, ho, rfl⟩ := List.mem_map.mp hn
          exact List.mem_append_right _ (hdrawn o ho)
      · intro i n hout
        rcases hround.grown i n hout with hold | hsent
        · exact List.mem_append_left _ (h.outProbed i n hold)
        · exact List.mem_append_right _ hsent
      · exact hround.distinct
      · intro v hv
        exact List.mem_append_left _ (h.scoredProbed v hv)
      · intro v hv i hout
        rcases hround.grown i v.1 hout with hold | hsent
        · exact h.scoredDone v hv i hold
        · -- a nonce that was scored was drawn before
          obtain ⟨o, ho, heq⟩ := List.mem_map.mp hsent
          exact hnew v.1 (heq ▸ hdrawn o ho) (h.probedDrawn _ (h.scoredProbed v hv))
      · exact h.scoredOnce
  | recv k data kind src agent rand now =>
      simp only [reflectStep]
      rcases pathplaneRecv_cases unlock blake2b s.pp s.pl k data kind src agent now with
        ⟨pp', hrecv⟩ | ⟨pp', pr, -, hrecv⟩
      · rw [hrecv]
        exact h.scores (fun _ _ hout => hout) (fun v hv => absurd hv List.not_mem_nil)
          List.nodup_nil _ _
      · rw [hrecv]
        exact pathplaneApply_scores h _ k _ kind src agent now _ _
  | call ev =>
      refine h.scores ?_ ?_ (nodup_callScores h.distinct ev) s.pp s.sent
      · intro i n hout
        exact (quietCall_quieter blake2b s.pp.base.toList s.pl ev).outstanding hout
      · intro v hv
        exact callScores_done blake2b s.pp.base.toList hv
  | tellFresh ufrag nonce rand => exact ⟨h.1, h.2, h.3, h.4, h.5, h.6⟩
  | bind halfOut halfIn => exact ⟨h.1, h.2, h.3, h.4, h.5, h.6⟩
  | txReady => exact ⟨h.1, h.2, h.3, h.4, h.5, h.6⟩
  | reset => exact ⟨h.1, h.2, h.3, h.4, h.5, h.6⟩

/-! ## The frames on the wire -/

/-- What holds of every frame this end ever sent: the nonce of a ping was drawn, and
that of a pong was drawn and is waited on no longer. -/
def Harmless (s : ReflectEnd) (pr : PathProbe) : Prop :=
  match ProbeType.ofCode pr.type.code with
  | .ping => pr.nonce ∈ s.drawn
  | .pong => pr.nonce ∈ s.drawn ∧ ∀ i, ¬Outstanding s.pl i pr.nonce
  | .other _ => True

/-- The frame is the seal of a probe of which `P` holds. -/
def SealOf (lock : Lock) (P : PathProbe → Prop) (frame : Bytes) : Prop :=
  ∃ rand magic key, ∃ pr : WireProbe,
    pathProbeBuild lock rand probeMax magic key pr = some frame ∧ P pr.toPathProbe

theorem SealOf.imp {P Q : PathProbe → Prop} (h : ∀ pr, P pr → Q pr) {frame : Bytes}
    (hseal : SealOf lock P frame) : SealOf lock Q frame := by
  obtain ⟨rand, magic, key, pr, hbuild, hP⟩ := hseal
  exact ⟨rand, magic, key, pr, hbuild, h _ hP⟩

theorem probeplaneSeal_sealOf {P : PathProbe → Prop} {rand : Option SealNonce} {pp : Probeplane}
    {pr : PathProbe} {ufrag frame : Bytes} (hP : P pr)
    (h : frame ∈ (probeplaneSeal lock rand pp pr ufrag).2.toList) : SealOf lock P frame := by
  rw [Option.mem_toList] at h
  exact ⟨rand, pp.magic, pp.tx.toList, _, h, hP⟩

theorem sealAll_sealOf {P : PathProbe → Prop} {mine : Bytes} {outs : List ProbeOut}
    (hP : ∀ o ∈ outs, P o.probe) (pp : Probeplane) (rands : List (Option SealNonce)) :
    ∀ frame ∈ (sealAll lock mine pp outs rands).2, SealOf lock P frame := by
  induction outs generalizing pp rands with
  | nil => exact fun frame h => absurd h List.not_mem_nil
  | cons o os ih =>
      have hos : ∀ o' ∈ os, P o'.probe := fun o' ho' => hP o' (List.mem_cons_of_mem _ ho')
      intro frame h
      unfold sealAll at h
      split_ifs at h
      · exact ih hos pp rands frame h
      · rcases hseal : probeplaneSeal lock (rands.headD none) pp o.probe mine with ⟨pp', _ | made⟩
        · rw [hseal] at h
          cases h
        · rw [hseal] at h
          rcases List.mem_cons.mp h with rfl | h
          · apply probeplaneSeal_sealOf (hP o List.mem_cons_self)
            rw [hseal]
            exact Option.mem_toList.mpr rfl
          · exact ih hos pp' rands.tail frame h

theorem sealAnswer_sealOf {P : PathProbe → Prop} {rand : Option SealNonce} {pp : Probeplane}
    {mine : Bytes} {out : Option ProbeOut} (hP : ∀ o ∈ out, P o.probe) :
    ∀ frame ∈ (sealAnswer lock rand pp mine out).2, SealOf lock P frame := by
  intro frame h
  cases out with
  | none => cases h
  | some o =>
      unfold sealAnswer at h
      dsimp only at h
      split_ifs at h
      · cases h
      · exact probeplaneSeal_sealOf (hP o rfl) h

/-- A copy of a frame that opens is the probe that was sealed in it. -/
theorem recvProbe_sealOf (haead : Aead lock unlock) {P : PathProbe → Prop}
    {pp pp' : Probeplane} {mine data : Bytes} {pr : WireProbe} (hseal : SealOf lock P data)
    (hrecv : recvProbe unlock pp mine data = (pp', some pr)) :
    ∃ sealed : PathProbe, P sealed ∧ pr.type = .ofCode sealed.type.code ∧
      pr.nonce = sealed.nonce := by
  obtain ⟨rand, magic, key, made, hbuild, hP⟩ := hseal
  obtain ⟨pp₁, hopen, -⟩ := recvProbe_eq_some hrecv
  obtain ⟨key', hparse⟩ := probeplaneOpen_eq_some hopen
  have hsame := pathProbeParse_authentic haead hbuild hparse
  refine ⟨made.toPathProbe, hP, ?_, ?_⟩
  · rw [hsame, WireProbe.carried]
    split_ifs <;> rfl
  · rw [hsame, WireProbe.carried]
    split_ifs <;> rfl

/-- What holds of an end that hears nothing but its own frames. -/
structure ReflectOnly (lock : Lock) (s : ReflectEnd) : Prop where
  frames : ∀ frame ∈ s.sent, SealOf lock (Harmless s) frame
  unqualified : ∀ i, (s.pl.t.p i).qualified = false

/-- Frames stay harmless while nothing becomes outstanding that was not. -/
theorem Harmless.mono {s s' : ReflectEnd} (hdrawn : ∀ n ∈ s.drawn, n ∈ s'.drawn)
    (hout : ∀ i n, n ∈ s.drawn → Outstanding s'.pl i n → Outstanding s.pl i n) {pr : PathProbe}
    (h : Harmless s pr) : Harmless s' pr := by
  unfold Harmless at h ⊢
  split
  · rename_i htype
    rw [htype] at h
    exact hdrawn _ h
  · rename_i htype
    rw [htype] at h
    exact ⟨hdrawn _ h.1, fun i hi => h.2 i (hout i _ h.1 hi)⟩
  · trivial

theorem Harmless.of_quieter {s s' : ReflectEnd} {pr : PathProbe} (h : Harmless s pr)
    (hquiet : TableQuieter s.pl.t s'.pl.t) (hdrawn : s'.drawn = s.drawn) : Harmless s' pr := by
  apply h.mono
  · intro n hn
    rw [hdrawn]
    exact hn
  · exact fun i n _ hout => hquiet.outstanding hout

theorem TableQuieter.unqualified {t t' : PathTable} (hquiet : TableQuieter t t')
    (h : ∀ i, (t.p i).qualified = false) (i : Slot) : (t'.p i).qualified = false := by
  by_contra hq
  have hq' := (hquiet i).2 (by simpa using hq)
  rw [h i] at hq'
  cases hq'

theorem reflectStep_reflectOnly (haead : Aead lock unlock) {s : ReflectEnd} (hbook : ProbeBook s)
    (h : ReflectOnly lock s) (ev : ReflectEvent) (hfresh : FreshNonces s ev)
    (hown : Reflected s ev) : ReflectOnly lock (reflectStep lock unlock blake2b s ev) := by
  cases ev with
  | tickSend k due rands now =>
      obtain ⟨hnodup, hnew⟩ := hfresh
      have hround := tickSend_roundInv now hbook.distinct hnodup fun i n hout hn =>
        hnew n hn (hbook.probedDrawn n (hbook.outProbed i n hout))
      have hdrawn := tickSend_nonces s.pl due now
      constructor
      · intro frame hframe
        rcases List.mem_append.mp hframe with hframe | hframe
        · refine (h.frames frame hframe).imp fun pr hpr => hpr.mono ?_ ?_
          · exact fun n hn => List.mem_append_left _ hn
          · intro i n hn hout
            rcases hround.grown i n hout with hold | hsent
            · exact hold
            · obtain ⟨o, ho, rfl⟩ := List.mem_map.mp hsent
              exact absurd hn (hnew _ (hdrawn o ho))
        · refine sealAll_sealOf ?_ s.pp rands frame hframe
          intro o ho
          unfold Harmless
          rw [hround.outs o ho]
          exact List.mem_append_right _ (hdrawn o ho)
      · intro i
        exact (hround.qual i).trans (h.unqualified i)
  | recv k data kind src agent rand now =>
      simp only [reflectStep]
      rcases pathplaneRecv_cases unlock blake2b s.pp s.pl k data kind src agent now with
        ⟨pp', hrecv⟩ | ⟨pp', pr, hprobe, hrecv⟩
      · rw [hrecv]
        constructor
        · intro frame hframe
          rcases List.mem_append.mp hframe with hframe | hframe
          · exact h.frames frame hframe
          · cases hframe
        · exact h.unqualified
      · rw [hrecv]
        obtain ⟨made, hmade, htype, hnonce⟩ := recvProbe_sealOf haead (h.frames data hown) hprobe
        unfold Harmless at hmade
        rw [← htype, ← hnonce] at hmade
        unfold pathplaneApply
        cases hcase : pr.type with
        | ping =>
            rw [hcase] at hmade
            dsimp only at hmade ⊢
            have hquiet := applyPing_quieter blake2b pp'.base.toList s.pl k pr.toPathProbe kind
              ((src.bind pathEpFromSockaddr).getD pathEpZero) src agent now
            constructor
            · intro frame hframe
              rcases List.mem_append.mp hframe with hframe | hframe
              · exact (h.frames frame hframe).imp fun _ hpr => hpr.of_quieter hquiet rfl
              · -- an answer goes out only where nothing waits on the nonce
                refine sealAnswer_sealOf ?_ frame hframe
                intro o ho
                rcases applyPing_cases blake2b pp'.base.toList s.pl k pr.toPathProbe kind
                    ((src.bind pathEpFromSockaddr).getD pathEpZero) src agent now with
                  ⟨-, hsame⟩ | ⟨hnone, t, o', -, htype', hnonce', hdone⟩
                · rw [hsame] at ho
                  cases ho
                · have hoo : o = o' := by
                    rcases hdone with hdone | ⟨i, hdone⟩
                    · rw [hdone] at ho
                      exact (Option.some.inj ho).symm
                    · rw [hdone] at ho
                      exact (Option.some.inj ho).symm
                  subst hoo
                  unfold Harmless
                  rw [htype', hnonce']
                  exact ⟨hmade, fun i hi =>
                    noncePath_eq_none_iff.mp hnone i (hquiet.outstanding hi)⟩
            · exact hquiet.unqualified h.unqualified
        | pong =>
            -- nothing waits on the nonce of a pong of our own
            rw [hcase] at hmade
            dsimp only at hmade ⊢
            have hnone := noncePath_eq_none_iff.mpr hmade.2
            rw [applyPong_of_none _ _ _ _ _ _ _ _ hnone]
            constructor
            · intro frame hframe
              rcases List.mem_append.mp hframe with hframe | hframe
              · exact h.frames frame hframe
              · cases hframe
            · exact h.unqualified
        | other code =>
            constructor
            · intro frame hframe
              rcases List.mem_append.mp hframe with hframe | hframe
              · exact h.frames frame hframe
              · cases hframe
            · exact h.unqualified
  | call ev =>
      have hquiet := quietCall_quieter blake2b s.pp.base.toList s.pl ev
      constructor
      · intro frame hframe
        exact (h.frames frame hframe).imp fun _ hpr => hpr.of_quieter hquiet rfl
      · exact hquiet.unqualified h.unqualified
  | tellFresh ufrag nonce rand =>
      constructor
      · intro frame hframe
        rcases List.mem_append.mp hframe with hframe | hframe
        · exact h.frames frame hframe
        · refine probeplaneSeal_sealOf ?_ hframe
          unfold Harmless
          exact trivial
      · exact h.unqualified
  | bind halfOut halfIn => exact ⟨h.1, h.2⟩
  | txReady => exact ⟨h.1, h.2⟩
  | reset => exact ⟨h.1, h.2⟩

/-- Against whatever arrives, with probe nonces that are never repeated: a path waits
on one probe at most, and gets no other while it does, and every probe sent is scored
once at most.  Where all that arrives are frames of this end's own, no path ever
becomes qualified. -/
theorem reflection_never_qualifies (haead : Aead lock unlock) (magic : UInt32) (base : Key)
    (seq0 : UInt64) (events : List ReflectEvent)
    (hnonces : (events.flatMap ReflectEvent.nonces).Nodup) :
    let step := reflectStep lock unlock blake2b
    let s := run step (reflectInit magic base seq0) events
    (EveryStep step Reflected (reflectInit magic base seq0) events →
      ∀ i, (s.pl.t.p i).qualified = false) ∧
    (∀ i n m, Outstanding s.pl i n → Outstanding s.pl i m → n = m) ∧
    (∀ due now i, (s.pl.t.p i).outstanding = true →
      (tickSend s.pl due now).1.t.p i = s.pl.t.p i) ∧
    (∀ v ∈ s.scored, v.1 ∈ s.probed) ∧ (s.scored.map Prod.fst).Nodup := by
  intro step s
  have hidle : ∀ i n, ¬Outstanding pathplaneInit i n := fun _ _ h => absurd h.1 (by simp
    [pathplaneInit, pathTableInit, pathZero])
  have hinit : ProbeBook (reflectInit magic base seq0) :=
    ⟨fun _ h => absurd h List.not_mem_nil, fun i n h => absurd h (hidle i n),
      fun i _ n h => absurd h (hidle i n), fun _ h => absurd h List.not_mem_nil,
      fun _ h => absurd h List.not_mem_nil, List.nodup_nil⟩
  have hfresh : EveryStep step FreshNonces (reflectInit magic base seq0) events :=
    everyStep_freshNonces hnonces
  have hbook : ProbeBook s :=
    run_invariant_of_everyStep (I := ProbeBook)
      (fun _ ev h hev => reflectStep_probeBook h ev hev) hinit hfresh
  refine ⟨?_, ?_, ?_, hbook.scoredProbed, hbook.scoredOnce⟩
  · intro hown
    have hboth : ProbeBook s ∧ ReflectOnly lock s := by
      refine run_invariant_of_everyStep (I := fun s => ProbeBook s ∧ ReflectOnly lock s)
        (G := fun s ev => FreshNonces s ev ∧ Reflected s ev) ?_ ⟨hinit, ?_⟩ (hfresh.and hown)
      · intro s ev h hev
        exact ⟨reflectStep_probeBook h.1 ev hev.1,
          reflectStep_reflectOnly haead h.1 h.2 ev hev.1 hev.2⟩
      · exact ⟨fun _ h => absurd h List.not_mem_nil, fun _ => rfl⟩
    exact hboth.2.unqualified
  · intro i n m hn hm
    exact hn.2.2.symm.trans hm.2.2
  · intro due now i hout
    exact tickSend_kept s.pl due now hout

end Runs

/-- A probe goes out and is scored as lost; then a copy of it comes back and is
answered, and the answer comes back as well. -/
def reflectedRun : List ReflectEvent :=
  let k := openSinks
  let rand := some (Vector.replicate 24 0)
  let sent := [.call (.addEp k .routed (testAddr 2) 0), .call (.tickScan k 0),
    .tickSend k [(0, 11)] [rand] 0, .call (.tickScan k 2000)]
  let step := reflectStep tagLock tagUnlock turnedHash
  let start := reflectInit 7 (Vector.replicate 32 1) 0
  let ping := (run step start sent).sent.headD []
  let back := sent ++ [.recv k ping .routed (some (testAddr 2)) none rand 2010]
  let pong := (run step start back).sent.getLastD []
  back ++ [.recv k pong .routed (some (testAddr 2)) none rand 2020]

/-- The path to `::2` was answered by nobody but this end, and is not qualified. -/
theorem reflection_never_qualifies_reflectedRun :
    EveryStep (reflectStep tagLock tagUnlock turnedHash) Reflected
        (reflectInit 7 (Vector.replicate 32 1) 0) reflectedRun ∧
      ∀ i, ((run (reflectStep tagLock tagUnlock turnedHash)
        (reflectInit 7 (Vector.replicate 32 1) 0) reflectedRun).pl.t.p i).qualified = false := by
  have hown : EveryStep (reflectStep tagLock tagUnlock turnedHash) Reflected
      (reflectInit 7 (Vector.replicate 32 1) 0) reflectedRun := by
    refine ⟨trivial, trivial, trivial, trivial, ?_, ?_, trivial⟩
    · show _ ∈ ReflectEnd.sent _
      decide
    · show _ ∈ ReflectEnd.sent _
      decide
  exact ⟨hown, (reflection_never_qualifies tagAead 7 (Vector.replicate 32 1) 0 reflectedRun
    (by decide)).1 hown⟩

end Paths
end Comrade
