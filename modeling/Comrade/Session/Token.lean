import Comrade.Netstate.Model

/-!
# The token a host shows

Every second at most, `token_pump` (`session.c`) decides what each family's slot of the
token says, from the facts of the network model (`tokgen.c`) and the node the signaller
holds, and hands the families that changed to `on_token_state`.

* `tokenAdvert` is what a pass computes for one family: a state, an address and a port.
* `tokenPump` is the pass, with the calls it makes.
* `TokView` keeps beside the session what each family was last told.
* `tokenPump_reports_iff`: what was told last is what the pass computed, in every pass of a
  run, exactly where no pass finds another endpoint for a state it has told already.
-/

namespace Comrade
namespace Session

open Lib Netstate

/-! ## The token -/

/-- `enum token_state`. -/
inductive TokenState where
  | pending
  | none
  | rendezvous
  | direct
  deriving DecidableEq, Repr

/-- `enum tok_advert`. -/
inductive TokAdvert where
  | pending
  | endpoint
  | rendezvous
  | none
  deriving DecidableEq, Repr

/-- `struct token`, as far as its two slots are concerned. -/
structure Token where
  flags : UInt8
  ep6Addr : Vector UInt8 16
  ep6Port : UInt16
  ep4Addr : Vector UInt8 4
  ep4Port : UInt16
  deriving DecidableEq

/-- What a slot carries: `TOKEN_EP6_LEN` bytes of address, zero past those of the family,
and a port in host order. -/
structure SlotEp where
  addr : Bytes
  port : UInt16
  deriving DecidableEq, Repr

/-- An empty slot. -/
def slotZero6 : Bytes := List.replicate 16 0

def slotEmpty : SlotEp := { addr := slotZero6, port := 0 }

/-- `TOKEN_EP6_LEN` and `TOKEN_EP4_LEN`. -/
def tokenEpLen : Fam → Nat
  | .v4 => 4
  | .v6 => 16

/-- The address bytes of the family copied over a cleared slot. -/
def slotAddr (fam : Fam) (b : Bytes) : Bytes :=
  b.take (tokenEpLen fam) ++ slotZero6.drop (tokenEpLen fam)

/-- The address of the family's slot. -/
def tokenEpAddr (tok : Token) : Fam → Bytes
  | .v4 => tok.ep4Addr.toList
  | .v6 => tok.ep6Addr.toList

/-- `TOKEN_FLAG_EP4_RDV` and `TOKEN_FLAG_EP6_RDV`. -/
def tokenFlagRdv : Fam → UInt8
  | .v4 => 0x08
  | .v6 => 0x04

/-- `TOKEN_FLAG_EP4_SETTLED` and `TOKEN_FLAG_EP6_SETTLED`. -/
def tokenFlagSettled : Fam → UInt8
  | .v4 => 0x20
  | .v6 => 0x10

/-- `token_family_state`. -/
def tokenFamilyState (tok : Token) (fam : Fam) : TokenState :=
  if (tokenEpAddr tok fam).any (fun b => b != 0) = true then
    if tok.flags &&& tokenFlagRdv fam ≠ 0 then .rendezvous else .direct
  else if tok.flags &&& tokenFlagSettled fam ≠ 0 then .none else .pending

/-- `carried_ep`. -/
def carriedEp (tok : Token) (fam : Fam) : SlotEp where
  addr := slotAddr fam (tokenEpAddr tok fam)
  port :=
    match fam with
    | .v4 => tok.ep4Port
    | .v6 => tok.ep6Port

/-! ## The decision -/

/-- `tokgen_decide`. -/
def tokgenDecide (f : TokgenFacts) : TokAdvert :=
  if f.hasUsableAddr = false then .none
  else if f.publicPortProven = true then .endpoint
  else if f.dhtAcked = true then .rendezvous
  else if f.hasDefaultRoute = false ∨ f.dhtAttemptConcluded = true then .none
  else .pending

/-- `tokgen_decide_host`; true when neither family has an address. -/
def tokgenDecideHost (v4 v6 : TokgenFacts) : (Fam → TokAdvert) × Bool :=
  ((fun fam =>
      match fam with
      | .v4 => tokgenDecide v4
      | .v6 => tokgenDecide v6),
    !v4.hasUsableAddr && !v6.hasUsableAddr)

/-- What a session is told of its surroundings and of its caller. -/
structure TokCfg where
  isHost : Bool
  onTokenState : Bool
  escalate : Bool
  escalateClear : Bool
  tok : Token
  startMs : UInt64

/-- What a pass finds.  The clock is read up to three times, and the description asked for
before the verdict and again for each family.  `concluded` is `dht_attempt_concluded`, and
`located` the node that `sig_located` gives for the family. -/
structure TokIn where
  now : UInt64
  nowSet : UInt64
  nowWarn : UInt64
  sdpReady : Bool
  sdpReadyFor : Fam → Bool
  net : Fam → NetFam
  concluded : Fam → Bool
  located : Fam → Option SlotEp

/-- The fields of `struct sess` that the pass keeps. -/
structure TokSess where
  tokState : Fam → TokenState
  tokTold : Fam → Bool
  nextTokMs : UInt64
  noconnWarned : Bool

/-- A session begins with the states of the token it was handed. -/
def tokInit (cfg : TokCfg) : TokSess where
  tokState := tokenFamilyState cfg.tok
  tokTold := fun _ => false
  nextTokMs := 0
  noconnWarned := false

/-- A family's slot as it is handed over. -/
structure Report where
  state : TokenState
  ep : SlotEp
  deriving DecidableEq, Repr

/-- A call out of the pass. -/
inductive TokCall where
  | tokenState (fam : Fam) (r : Report)
  | escalate (text : String)
  | escalateClear
  deriving DecidableEq

/-- The network model of the family, past `gather_facts`. -/
def gatherFacts (cfg : TokCfg) (e : TokIn) (fam : Fam) : NetFam :=
  netstateOnDhtConcluded cfg.isHost (e.concluded fam) (e.net fam)

/-- The verdicts of the pass: undecided while there are no local candidates. -/
def tokVerdict (cfg : TokCfg) (e : TokIn) : (Fam → TokAdvert) × Bool :=
  if e.sdpReady = true then
    tokgenDecideHost (netstateFacts (gatherFacts cfg e .v4)) (netstateFacts (gatherFacts cfg e .v6))
  else (fun _ => .pending, false)

/-- `netstate_anchor` holds a node for the family. -/
def tokAnchor (cfg : TokCfg) (e : TokIn) (fam : Fam) : Bool :=
  (if e.sdpReady = true then gatherFacts cfg e fam else e.net fam).anchor != []

/-- `advert_state`. -/
def advertState (e : TokIn) (fam : Fam) : TokAdvert → Report
  | .rendezvous =>
      match e.located fam with
      | none => { state := .pending, ep := slotEmpty }
      | some node =>
          { state := .rendezvous, ep := { addr := slotAddr fam node.addr, port := node.port } }
  | .none => { state := .none, ep := slotEmpty }
  | .endpoint => { state := .pending, ep := slotEmpty }
  | .pending => { state := .pending, ep := slotEmpty }

/-- The slot as first worked out: by the verdict, or as the token carries it. -/
def tokenBase (cfg : TokCfg) (s : TokSess) (e : TokIn) (fam : Fam) : Report :=
  if e.sdpReadyFor fam = true then advertState e fam ((tokVerdict cfg e).1 fam)
  else { state := s.tokState fam, ep := carriedEp cfg.tok fam }

/-- What a pass computes for a family.  A rendezvous held is not taken back while it is
proved again. -/
def tokenAdvert (cfg : TokCfg) (s : TokSess) (e : TokIn) (fam : Fam) : Report :=
  if (tokenBase cfg s e fam).state = .pending ∧ s.tokState fam = .rendezvous ∧
      tokAnchor cfg e fam = true then
    advertState e fam .rendezvous
  else tokenBase cfg s e fam

/-- The text of the warning. -/
def noconnText : String :=
  "no usable address on any family -- nothing to host over; check the network"

/-- The operator is warned when no family has an address, and told when one has. -/
def tokWarn (cfg : TokCfg) (s : TokSess) (e : TokIn) : TokSess × List TokCall :=
  if e.sdpReady = false then (s, [])
  else if (tokVerdict cfg e).2 = true then
    if cfg.escalate = true ∧ s.noconnWarned = false ∧ 3000 < e.nowWarn - cfg.startMs then
      ({ s with noconnWarned := true }, [.escalate noconnText])
    else (s, [])
  else if s.noconnWarned = true then
    ({ s with noconnWarned := false }, if cfg.escalateClear = true then [.escalateClear] else [])
  else (s, [])

/-- One turn of the loop of `token_pump`. -/
def tokenFamily (cfg : TokCfg) (e : TokIn) (s : TokSess) (fam : Fam) : TokSess × List TokCall :=
  let r := tokenAdvert cfg s e fam
  if s.tokTold fam = true ∧ r.state = s.tokState fam then (s, [])
  else
    ({ s with
        tokState := Function.update s.tokState fam r.state
        tokTold := Function.update s.tokTold fam true },
      [.tokenState fam r])

/-- The pass is not held back by its cadence. -/
def tokDue (cfg : TokCfg) (s : TokSess) (e : TokIn) : Bool :=
  cfg.isHost && cfg.onTokenState && !decide (e.now < s.nextTokMs)

/-- `token_pump`. -/
def tokenPump (cfg : TokCfg) (s : TokSess) (e : TokIn) : TokSess × List TokCall :=
  if tokDue cfg s e = false then (s, [])
  else
    let w := tokWarn cfg { s with nextTokMs := e.nowSet + 1000 } e
    let f4 := tokenFamily cfg e w.1 .v4
    let f6 := tokenFamily cfg e f4.1 .v6
    (f6.1, w.2 ++ f4.2 ++ f6.2)

/-! ## What was told -/

/-- A session, and what `on_token_state` was last given for each family. -/
structure TokView where
  s : TokSess
  last : Fam → Option Report

/-- What a call leaves told. -/
def toldBy (last : Fam → Option Report) : TokCall → Fam → Option Report
  | .tokenState fam r => Function.update last fam (some r)
  | _ => last

def tokStep (cfg : TokCfg) (v : TokView) (e : TokIn) : TokView where
  s := (tokenPump cfg v.s e).1
  last := (tokenPump cfg v.s e).2.foldl toldBy v.last

/-- What was told last, and the fields that stand for it, agree. -/
def ToldSound (v : TokView) : Prop :=
  ∀ fam, (v.s.tokTold fam = true ↔ (v.last fam).isSome = true) ∧
    ∀ r, v.last fam = some r → r.state = v.s.tokState fam

/-- After a pass that is not held back, each family was last told what the pass computed. -/
def Reports (cfg : TokCfg) (v : TokView) (e : TokIn) : Prop :=
  tokDue cfg v.s e = true →
    ∀ fam, (tokStep cfg v e).last fam = some (tokenAdvert cfg v.s e fam)

/-- The endpoint the family was last told is the one this pass has for the same state: the
token's own while there are no candidates, the node the signaller holds where the pass
would say rendezvous again, and none for a state that carries none. -/
def EndpointKept (cfg : TokCfg) (e : TokIn) (fam : Fam) (r : Report) : Prop :=
  let verdict := (tokVerdict cfg e).1 fam
  if e.sdpReadyFor fam = false then r.ep = carriedEp cfg.tok fam
  else
    match r.state with
    | .rendezvous =>
        verdict = .rendezvous ∨ (verdict ≠ .none ∧ tokAnchor cfg e fam = true) →
          ∀ node, e.located fam = some node →
            r.ep = { addr := slotAddr fam node.addr, port := node.port }
    | .pending =>
        verdict ≠ .none ∧ (verdict = .rendezvous → e.located fam = none) → r.ep = slotEmpty
    | .none => verdict = .none → r.ep = slotEmpty
    | .direct => True

/-- The condition on one pass. -/
def EndpointsKept (cfg : TokCfg) (v : TokView) (e : TokIn) : Prop :=
  tokDue cfg v.s e = true → ∀ fam r, v.last fam = some r → EndpointKept cfg e fam r

/-! ## One pass -/

/-- What a family is given depends on the session by its own state alone. -/
theorem tokenAdvert_congr {cfg : TokCfg} {s s' : TokSess} {e : TokIn} {fam : Fam}
    (h : s'.tokState fam = s.tokState fam) :
    tokenAdvert cfg s' e fam = tokenAdvert cfg s e fam := by
  unfold tokenAdvert tokenBase
  rw [h]

/-- The warning leaves the families and what they were told alone. -/
theorem tokWarn_frame (cfg : TokCfg) (s : TokSess) (e : TokIn) (last : Fam → Option Report) :
    (tokWarn cfg s e).1.tokState = s.tokState ∧ (tokWarn cfg s e).1.tokTold = s.tokTold ∧
      (tokWarn cfg s e).2.foldl toldBy last = last := by
  unfold tokWarn
  split
  · exact ⟨rfl, rfl, rfl⟩
  split
  · split
    · exact ⟨rfl, rfl, rfl⟩
    · exact ⟨rfl, rfl, rfl⟩
  split
  · refine ⟨rfl, rfl, ?_⟩
    split <;> rfl
  · exact ⟨rfl, rfl, rfl⟩

/-- A turn of the loop, for the family whose turn it is. -/
theorem tokenFamily_at (cfg : TokCfg) (e : TokIn) (s : TokSess) (fam : Fam)
    (last : Fam → Option Report) :
    (tokenFamily cfg e s fam).1.tokState fam = (tokenAdvert cfg s e fam).state ∧
      (tokenFamily cfg e s fam).1.tokTold fam = true ∧
      (tokenFamily cfg e s fam).2.foldl toldBy last fam =
        if s.tokTold fam = true ∧ (tokenAdvert cfg s e fam).state = s.tokState fam then last fam
        else some (tokenAdvert cfg s e fam) := by
  unfold tokenFamily
  simp only
  split
  · rename_i hsame
    exact ⟨hsame.2.symm, hsame.1, rfl⟩
  · exact ⟨Function.update_self .., Function.update_self .., Function.update_self ..⟩

/-- The other family is left alone. -/
theorem tokenFamily_other (cfg : TokCfg) (e : TokIn) (s : TokSess) {fam other : Fam}
    (h : other ≠ fam) (last : Fam → Option Report) :
    (tokenFamily cfg e s fam).1.tokState other = s.tokState other ∧
      (tokenFamily cfg e s fam).1.tokTold other = s.tokTold other ∧
      (tokenFamily cfg e s fam).2.foldl toldBy last other = last other := by
  unfold tokenFamily
  simp only
  split
  · exact ⟨rfl, rfl, rfl⟩
  · exact ⟨Function.update_of_ne h .., Function.update_of_ne h .., Function.update_of_ne h ..⟩

/-- A pass that is due leaves each family in the state computed, told. -/
theorem tokStep_due {cfg : TokCfg} {v : TokView} {e : TokIn} (hdue : tokDue cfg v.s e = true)
    (fam : Fam) :
    (tokStep cfg v e).s.tokState fam = (tokenAdvert cfg v.s e fam).state ∧
      (tokStep cfg v e).s.tokTold fam = true ∧
      (tokStep cfg v e).last fam =
        if v.s.tokTold fam = true ∧ (tokenAdvert cfg v.s e fam).state = v.s.tokState fam then
          v.last fam
        else some (tokenAdvert cfg v.s e fam) := by
  -- the session each turn starts from, and what was told before it
  obtain ⟨hstate, htold, hlast⟩ :=
    tokWarn_frame cfg { v.s with nextTokMs := e.nowSet + 1000 } e v.last
  have hadvert : ∀ fam, tokenAdvert cfg
      (tokWarn cfg { v.s with nextTokMs := e.nowSet + 1000 } e).1 e fam =
      tokenAdvert cfg v.s e fam := fun fam => tokenAdvert_congr (congrFun hstate fam)
  unfold tokStep tokenPump
  simp only [hdue, Bool.true_eq_false, if_false, List.foldl_append, hlast]
  generalize tokWarn cfg { v.s with nextTokMs := e.nowSet + 1000 } e = w at *
  obtain ⟨hstate4, htold4, hlast4⟩ := tokenFamily_at cfg e w.1 .v4 v.last
  cases fam with
  | v4 =>
      obtain ⟨hstate6, htold6, hlast6⟩ := tokenFamily_other cfg e (tokenFamily cfg e w.1 .v4).1
        (show Fam.v4 ≠ Fam.v6 by decide)
        ((tokenFamily cfg e w.1 .v4).2.foldl toldBy v.last)
      rw [hstate6, htold6, hlast6, hstate4, htold4, hlast4, hadvert, hstate, htold]
      exact ⟨rfl, rfl, rfl⟩
  | v6 =>
      obtain ⟨hkeep, hkeep', hkeep''⟩ := tokenFamily_other cfg e w.1
        (show Fam.v6 ≠ Fam.v4 by decide) v.last
      obtain ⟨hstate6, htold6, hlast6⟩ := tokenFamily_at cfg e (tokenFamily cfg e w.1 .v4).1 .v6
        ((tokenFamily cfg e w.1 .v4).2.foldl toldBy v.last)
      rw [hstate6, htold6, hlast6, hkeep, hkeep', hkeep'', tokenAdvert_congr hkeep, hadvert,
        hstate, htold]
      exact ⟨rfl, rfl, rfl⟩

theorem tokStep_held {cfg : TokCfg} {v : TokView} {e : TokIn} (hdue : tokDue cfg v.s e = false) :
    tokStep cfg v e = v := by
  unfold tokStep tokenPump
  rw [if_pos hdue]
  rfl

theorem toldSound_step (cfg : TokCfg) (v : TokView) (e : TokIn) (h : ToldSound v) :
    ToldSound (tokStep cfg v e) := by
  cases hdue : tokDue cfg v.s e with
  | false =>
      rw [tokStep_held hdue]
      exact h
  | true =>
      intro fam
      obtain ⟨hstate, htold, hlast⟩ := tokStep_due hdue fam
      obtain ⟨hsome, hr⟩ := h fam
      rw [hstate, htold, hlast]
      by_cases hsame : v.s.tokTold fam = true ∧
          (tokenAdvert cfg v.s e fam).state = v.s.tokState fam
      · rw [if_pos hsame, hsame.2]
        exact ⟨⟨fun _ => hsome.mp hsame.1, fun _ => rfl⟩, hr⟩
      · rw [if_neg hsame]
        refine ⟨by simp, ?_⟩
        intro r hrep
        rw [← Option.some.inj hrep]

/-- The condition says, of a family in that state, that a pass that computes the state
again computes the endpoint again. -/
theorem endpointKept_iff {cfg : TokCfg} {s : TokSess} {e : TokIn} {fam : Fam} {r : Report}
    (h : r.state = s.tokState fam) :
    EndpointKept cfg e fam r ↔
      ((tokenAdvert cfg s e fam).state = r.state → r.ep = (tokenAdvert cfg s e fam).ep) := by
  unfold EndpointKept tokenAdvert tokenBase
  rw [← h]
  cases hready : e.sdpReadyFor fam with
  | false =>
      -- the state is held, so a rendezvous is not pending here
      have hnot : ¬(r.state = .pending ∧ r.state = .rendezvous ∧ tokAnchor cfg e fam = true) := by
        rintro ⟨hpending, hrdv, -⟩
        rw [hpending] at hrdv
        cases hrdv
      simp [hnot]
  | true =>
      simp only [Bool.true_eq_false, if_false, if_true]
      cases hverdict : (tokVerdict cfg e).1 fam <;> cases hlocated : e.located fam <;>
        cases hstate : r.state <;> cases hanchor : tokAnchor cfg e fam <;>
        simp [advertState, hlocated]

/-- Over every run of passes, whatever the network does, each pass that is not held back
leaves every family told what it computed, if and only if every pass finds the endpoint it
told last for a state it tells no second time. -/
theorem tokenPump_reports_iff (cfg : TokCfg) (es : List TokIn) :
    EveryStep (tokStep cfg) (Reports cfg) { s := tokInit cfg, last := fun _ => none } es ↔
      EveryStep (tokStep cfg) (EndpointsKept cfg)
        { s := tokInit cfg, last := fun _ => none } es := by
  apply EveryStep.congr
  refine everyStep_of_invariant (toldSound_step cfg) ?_ ?_ es
  · intro v e h
    unfold Reports EndpointsKept
    apply forall_congr'
    intro hdue
    apply forall_congr'
    intro fam
    rw [(tokStep_due hdue fam).2.2]
    obtain ⟨hsome, hr⟩ := h fam
    cases hlast : v.last fam with
    | none =>
        rw [hlast] at hsome
        have hnot : ¬v.s.tokTold fam = true := fun ht => by simpa using hsome.mp ht
        simp [hnot]
    | some r =>
        have hstate := hr r hlast
        have htold : v.s.tokTold fam = true := hsome.mpr (by rw [hlast]; rfl)
        have hgoal : (∀ r', some r = some r' → EndpointKept cfg e fam r') ↔
            EndpointKept cfg e fam r :=
          ⟨fun hall => hall r rfl, fun hkept r' hr' => Option.some.inj hr' ▸ hkept⟩
        rw [hgoal, endpointKept_iff hstate, ← hstate]
        by_cases hsame : (tokenAdvert cfg v.s e fam).state = r.state
        · rw [if_pos ⟨htold, hsame⟩]
          constructor
          · intro heq _
            rw [← Option.some.inj heq]
          · intro hep
            have hrep : r = tokenAdvert cfg v.s e fam := by
              cases r
              cases hadv : tokenAdvert cfg v.s e _
              rw [hadv] at hsame hep
              simp only at hsame hep
              rw [← hsame, hep hsame]
            rw [← hrep]
        · rw [if_neg fun hboth => hsame hboth.2]
          simp [hsame]
  · intro fam
    exact ⟨by simp [tokInit], fun r hr => nomatch hr⟩

/-- A host with an empty token, heard by its caller. -/
def tokHost : TokCfg where
  isHost := true
  onTokenState := true
  escalate := false
  escalateClear := false
  tok :=
    { flags := 0, ep6Addr := Vector.replicate 16 0, ep6Port := 0,
      ep4Addr := Vector.replicate 4 0, ep4Port := 0 }
  startMs := 0

/-- A pass of it on an IPv4 network, with a proven node of that last byte. -/
def nodePass (now : UInt64) (b : UInt8) : TokIn where
  now := now
  nowSet := now
  nowWarn := now
  sdpReady := true
  sdpReadyFor := fun _ => true
  net := fun fam =>
    if fam = .v4 then
      { famInit true 0 with
        hasAddr := true, routed := true, anchor := [198, 51, 100, b], anchorVouched := true }
    else famInit true 0
  concluded := fun _ => false
  located := fun fam =>
    if fam = .v4 then some { addr := [198, 51, 100, b], port := 6881 } else none

/-- The anchor is replaced by another, and the token goes on naming the first. -/
theorem tokenPump_anchorReplaced :
    ¬EveryStep (tokStep tokHost) (Reports tokHost) { s := tokInit tokHost, last := fun _ => none }
      [nodePass 0 1, nodePass 1000 2] := by
  intro h
  have hlast := h.2.1 (by decide) .v4
  exact absurd hlast (by decide)

end Session
end Comrade
