import Comrade.Netstate.Model

/-!
# What the calls do not touch

The verdict, the addresses and the rendezvous of a family are each kept by a few of the
entry points and left alone by the rest.  A *view* of the family that does not read the
fields an entry point writes is not moved by it, and this module says so once for every
view.

The fields are grouped as the code writes them: the actions owed, the source, the probe
schedule, what is told to the token, and the rendezvous.
-/

namespace Comrade
namespace Netstate

open Lib

section Views

variable {α : Type} {view : NetFam → α}

/-- The view does not read the actions owed. -/
def IgnoresPend (view : NetFam → α) : Prop :=
  ∀ (f : NetFam) (pend : UInt32), view { f with pend := pend } = view f

/-- The view reads no action owed but the kick of a probe. -/
def IgnoresActs (view : NetFam → α) : Prop :=
  ∀ (f : NetFam) (bits : UInt32), bits &&& nsaKickProbe = 0 → view (raiseAct f bits) = view f

/-- The view does not read the source. -/
def IgnoresSource (view : NetFam → α) : Prop :=
  ∀ (f : NetFam) (src text : Bytes) (scope : Scope) (epoch : UInt32) (next : UInt64)
    (tries : Nat),
    view { f with
      src := src, srcText := text, srcScope := scope, srcEpoch := epoch, srcNextMs := next,
      srcTries := tries } = view f

/-- The view does not read the probe schedule. -/
def IgnoresProbe (view : NetFam → α) : Prop :=
  ∀ (f : NetFam) (running wanted : Bool) (next : UInt64) (rounds : Nat),
    view { f with
      probeRunning := running, probeWanted := wanted, probeNextMs := next,
      probeRounds := rounds } = view f

/-- The view does not read `dht_acked` and `concluded`. -/
def IgnoresFacts (view : NetFam → α) : Prop :=
  ∀ (f : NetFam) (acked concluded : Bool),
    view { f with dhtAcked := acked, concluded := concluded } = view f

/-- The view does not read the rendezvous. -/
def IgnoresRdv (view : NetFam → α) : Prop :=
  ∀ (f : NetFam) (anchor : Bytes) (picking confirmed vouched candidate : Bool)
    (cands : List Cand) (acks quiet : Nat) (set first next : UInt64),
    view { f with
      anchor := anchor, picking := picking, anchorConfirmed := confirmed,
      anchorVouched := vouched, anchorCandidate := candidate, cands := cands,
      anchorAcks := acks, anchorQuiet := quiet, anchorSetMs := set, anchorFirstMs := first,
      anchorNextMs := next } = view f

/-- The view does not read the verdict and what it is made of, the epoch apart. -/
def IgnoresConn (view : NetFam → α) : Prop :=
  ∀ (f : NetFam) (conn : Conn) (upEpoch : UInt32) (routed hasAddr : Bool),
    view { f with conn := conn, upEpoch := upEpoch, routed := routed, hasAddr := hasAddr } =
      view f

/-- The view does not read the address sets. -/
def IgnoresAddrs (view : NetFam → α) : Prop :=
  ∀ (f : NetFam) (locals : List NetLocal) (xlats : List Xlat),
    view { f with locals := locals, xlats := xlats } = view f

/-! ## Acts and facts -/

theorem IgnoresPend.acts (hp : IgnoresPend view) : IgnoresActs view :=
  fun f _ _ => hp f _

theorem view_raiseAct (hp : IgnoresPend view) (f : NetFam) (bits : UInt32) :
    view (raiseAct f bits) = view f :=
  hp f _

theorem view_factsMoved (hp : IgnoresActs view) (isHost : Bool) (f : NetFam) :
    view (factsMoved isHost f) = view f := by
  unfold factsMoved
  split
  · exact hp f nsaEmitToken (by decide)
  · rfl

theorem view_syncConn (hp : IgnoresActs view) (hc : IgnoresConn view) (f : NetFam) :
    view (syncConn f) = view f := by
  unfold syncConn
  split
  · rfl
  · rw [hp _ nsaEmitConn (by decide)]
    exact hc f (connOf f) f.upEpoch f.routed f.hasAddr

theorem view_onRoundtrip (hp : IgnoresActs view) (hc : IgnoresConn view) (epoch : UInt32)
    (f : NetFam) : view (netstateOnRoundtrip epoch f) = view f := by
  unfold netstateOnRoundtrip
  split
  · rfl
  · rw [view_syncConn hp hc]
    exact hc f f.conn epoch f.routed f.hasAddr

theorem view_syncHasAddr (hp : IgnoresActs view) (hc : IgnoresConn view) (isHost : Bool)
    (f : NetFam) : view (syncHasAddr isHost f) = view f := by
  unfold syncHasAddr
  split
  · rw [view_factsMoved hp, view_syncConn hp hc]
    exact hc f f.conn f.upEpoch f.routed _
  · rfl

theorem view_moveRaise (hp : IgnoresPend view) (isHost : Bool) (f : NetFam) :
    view (moveRaise isHost f) = view f := by
  unfold moveRaise
  simp only
  rw [view_factsMoved hp.acts]
  split
  · rw [view_raiseAct hp, view_raiseAct hp]
  · rw [view_raiseAct hp]

theorem view_onDhtConcluded (hp : IgnoresActs view) (hf : IgnoresFacts view)
    (isHost concluded : Bool) (f : NetFam) :
    view (netstateOnDhtConcluded isHost concluded f) = view f := by
  unfold netstateOnDhtConcluded
  split
  · rfl
  · rw [view_factsMoved hp]
    exact hf f f.dhtAcked concluded

/-! ## The source -/

theorem view_srcNext (hs : IgnoresSource view) (f : NetFam) (next : UInt64) (tries : Nat) :
    view { f with srcTries := tries, srcNextMs := next } = view f :=
  hs f f.src f.srcText f.srcScope f.srcEpoch next tries

theorem view_srcTake (hs : IgnoresSource view) (addr : Bytes) (scope : Scope) (text : Bytes)
    (f : NetFam) : view (srcTake addr scope text f) = view f := by
  unfold srcTake
  split
  · exact hs f addr (text.take 63) scope f.epoch f.srcNextMs f.srcTries
  · rfl

theorem view_setRouted (hp : IgnoresActs view) (hc : IgnoresConn view) (isHost on : Bool)
    (f : NetFam) : view (setRouted isHost on f) = view f := by
  unfold setRouted
  split
  · rfl
  · rw [view_factsMoved hp, view_syncConn hp hc]
    exact hc f f.conn f.upEpoch on f.hasAddr

theorem view_onSrc (hp : IgnoresActs view) (hs : IgnoresSource view) (hc : IgnoresConn view)
    (isHost : Bool) (epoch : UInt32) (addr : Bytes) (scope : Scope) (text : Bytes)
    (now : UInt64) (f : NetFam) :
    view (netstateOnSrc isHost epoch addr scope text now f) = view f := by
  unfold netstateOnSrc
  split
  · rfl
  split
  · rw [view_setRouted hp hc, view_srcNext hs]
  · rw [view_setRouted hp hc, view_srcTake hs, view_srcNext hs]

theorem view_tickSrc (hp : IgnoresActs view) (hs : IgnoresSource view) (now : UInt64)
    (f : NetFam) : view (tickSrc now f) = view f := by
  unfold tickSrc
  split
  · rw [hp _ nsaSampleSrc (by decide)]
    exact view_srcNext hs f (now + srcGap f.srcTries) f.srcTries
  · rfl

/-! ## Addresses -/

/-- What `xlat_note` does when it notes the address. -/
theorem xlatNote_some {f f' : NetFam} {a : Bytes} (h : xlatNote f a = some f') :
    a ∉ f.xlats.map Xlat.addr ∧
      f' = { f with xlats := f.xlats ++ [{ addr := a, scope := addrScopeRaw a }] } := by
  unfold xlatNote at h
  split at h
  · cases h
  rename_i hheld
  split at h
  · cases h
  obtain rfl := Option.some.inj h
  refine ⟨?_, rfl⟩
  intro hmem
  obtain ⟨x, hx, ha⟩ := List.mem_map.mp hmem
  exact hheld (List.any_eq_true.mpr ⟨x, hx, by simpa using ha⟩)

theorem view_onReflexive (hp : IgnoresActs view) (ha : IgnoresAddrs view) (i : Fam)
    (epoch : UInt32) (addr : Bytes) (f : NetFam) :
    view (netstateOnReflexive i epoch addr f) = view f := by
  unfold netstateOnReflexive
  split
  · rfl
  split
  · split
    · rfl
    · rw [hp _ nsaEmitRows (by decide)]
      exact ha f _ f.xlats
  · cases hnote : xlatNote f addr with
    | none => rfl
    | some f' =>
        obtain ⟨_, rfl⟩ := xlatNote_some hnote
        simp only
        rw [hp _ nsaEmitRows (by decide)]
        exact ha f f.locals _

/-! ## The probe -/

theorem view_onProbeStarted (hb : IgnoresProbe view) (epoch : UInt32) (now : UInt64)
    (f : NetFam) : view (netstateOnProbeStarted epoch now f) = view f := by
  unfold netstateOnProbeStarted
  split
  · rfl
  · exact hb f true false _ _

theorem view_onProbeDeferred (hb : IgnoresProbe view) (epoch : UInt32) (f : NetFam) :
    view (netstateOnProbeDeferred epoch f) = view f := by
  unfold netstateOnProbeDeferred
  split
  · rfl
  · exact hb f f.probeRunning true f.probeNextMs f.probeRounds

theorem view_onProbeDone (hp : IgnoresPend view) (hb : IgnoresProbe view) (epoch : UInt32)
    (now : UInt64) (f : NetFam) : view (netstateOnProbeDone epoch now f) = view f := by
  unfold netstateOnProbeDone
  split
  · rfl
  split
  · rw [view_raiseAct hp]
    exact hb f false false now f.probeRounds
  split
  · exact hb f false f.probeWanted (now + probeGap f) f.probeRounds
  · exact hb f false f.probeWanted f.probeNextMs f.probeRounds

theorem view_onServers (hp : IgnoresPend view) (hb : IgnoresProbe view) (epoch : UInt32)
    (now : UInt64) (f : NetFam) : view (netstateOnServers epoch now f) = view f := by
  unfold netstateOnServers
  split
  · rfl
  · rw [view_raiseAct hp]
    exact hb f f.probeRunning f.probeWanted now f.probeRounds

theorem view_tickProbe (hp : IgnoresPend view) (hb : IgnoresProbe view) (now : UInt64)
    (f : NetFam) : view (tickProbe now f) = view f := by
  unfold tickProbe
  split
  · rw [view_raiseAct hp]
    exact hb f f.probeRunning f.probeWanted (now + probeGap f) f.probeRounds
  · rfl

/-! ## The rendezvous -/

theorem view_anchorSet (hp : IgnoresActs view) (hr : IgnoresRdv view) (node : Bytes)
    (now : UInt64) (candidate : Bool) (acks : Nat) (f : NetFam) :
    view (anchorSet node now candidate acks f) = view f := by
  unfold anchorSet
  split
  · rfl
  split
  · rfl
  · rw [hp _ (nsaRdvPin ||| nsaEmitRdv) (by decide)]
    exact hr f node f.picking false false candidate f.cands acks 0 now _ f.anchorNextMs

theorem view_anchorConfirm (hp : IgnoresActs view) (hr : IgnoresRdv view) (isHost : Bool)
    (now : UInt64) (f : NetFam) : view (anchorConfirm isHost now f) = view f := by
  unfold anchorConfirm
  split
  · rfl
  split
  · rfl
  · rw [view_factsMoved hp, hp _ nsaEmitRdv (by decide)]
    exact hr f f.anchor f.picking true f.anchorVouched false f.cands f.anchorAcks f.anchorQuiet
      f.anchorSetMs f.anchorFirstMs f.anchorNextMs

theorem view_anchorCount (hr : IgnoresRdv view) (now : UInt64) (f : NetFam) :
    view (anchorCount now f) = view f :=
  hr f f.anchor f.picking f.anchorConfirmed f.anchorVouched f.anchorCandidate f.cands _ 0
    f.anchorSetMs _ f.anchorNextMs

theorem view_anchorNext (hr : IgnoresRdv view) (f : NetFam) (next : UInt64) :
    view { f with anchorNextMs := next } = view f :=
  hr f f.anchor f.picking f.anchorConfirmed f.anchorVouched f.anchorCandidate f.cands
    f.anchorAcks f.anchorQuiet f.anchorSetMs f.anchorFirstMs next

theorem view_cands (hr : IgnoresRdv view) (f : NetFam) (cands : List Cand) :
    view { f with cands := cands } = view f :=
  hr f f.anchor f.picking f.anchorConfirmed f.anchorVouched f.anchorCandidate cands
    f.anchorAcks f.anchorQuiet f.anchorSetMs f.anchorFirstMs f.anchorNextMs

theorem view_anchorTake (hp : IgnoresActs view) (hr : IgnoresRdv view) (isHost : Bool)
    (node : Bytes) (now : UInt64) (f : NetFam) :
    view (anchorTake isHost node now f) = view f := by
  rw [anchorTake, view_factsMoved hp, hp _ nsaEmitRdv (by decide),
    ← view_anchorSet hp hr node now false anchorQualify f]
  generalize anchorSet node now false anchorQualify f = g
  exact hr g g.anchor g.picking true g.anchorVouched g.anchorCandidate [] g.anchorAcks
    g.anchorQuiet g.anchorSetMs g.anchorFirstMs g.anchorNextMs

theorem view_dhtAckOther (hp : IgnoresActs view) (hr : IgnoresRdv view) (isHost : Bool)
    (node : Bytes) (now : UInt64) (f : NetFam) :
    view (dhtAckOther isHost node now f) = view f := by
  unfold dhtAckOther
  split
  · rfl
  simp only
  split
  · rw [view_anchorTake hp hr, view_cands hr]
  split
  · exact view_cands hr f _
  · rw [view_anchorSet hp hr, view_cands hr]

theorem view_dhtAckNode (hp : IgnoresActs view) (hr : IgnoresRdv view) (isHost : Bool)
    (node : Bytes) (now : UInt64) (f : NetFam) :
    view (dhtAckNode isHost node now f) = view f := by
  unfold dhtAckNode
  simp only
  split
  · rw [view_anchorConfirm hp hr, view_anchorCount hr, view_anchorNext hr]
  · rw [view_dhtAckOther hp hr, view_anchorNext hr]

theorem view_dhtAckUp (hp : IgnoresActs view) (hc : IgnoresConn view) (hf : IgnoresFacts view)
    (isHost : Bool) (epoch : UInt32) (f : NetFam) :
    view (dhtAckUp isHost epoch f) = view f := by
  have hsync : view (syncConn { f with upEpoch := epoch }) = view f := by
    rw [view_syncConn hp hc]
    exact hc f f.conn epoch f.routed f.hasAddr
  unfold dhtAckUp
  simp only
  generalize syncConn { f with upEpoch := epoch } = g at hsync ⊢
  split
  · rw [view_factsMoved hp, ← hsync]
    exact hf g true g.concluded
  · exact hsync

theorem view_onAnchorSeen (hr : IgnoresRdv view) (now : UInt64) (f : NetFam) :
    view (netstateOnAnchorSeen now f) = view f := by
  unfold netstateOnAnchorSeen
  split
  · rfl
  · exact view_anchorCount hr now f

theorem view_onRdvVouched (hp : IgnoresActs view) (hr : IgnoresRdv view) (isHost : Bool)
    (node : Bytes) (now : UInt64) (f : NetFam) :
    view (netstateOnRdvVouched isHost node now f) = view f := by
  rw [← view_anchorSet hp hr node now false 0 f]
  unfold netstateOnRdvVouched
  simp only
  generalize anchorSet node now false 0 f = g
  split
  · rfl
  · rw [view_factsMoved hp, hp _ nsaEmitRdv (by decide)]
    exact hr g g.anchor g.picking g.anchorConfirmed true false g.cands g.anchorAcks
      g.anchorQuiet g.anchorSetMs g.anchorFirstMs g.anchorNextMs

theorem view_setPicking (hr : IgnoresRdv view) (on : Bool) (f : NetFam) :
    view (netstateSetPicking on f) = view f := by
  unfold netstateSetPicking
  split
  · rfl
  · exact hr f f.anchor on f.anchorConfirmed f.anchorVouched f.anchorCandidate _ f.anchorAcks
      f.anchorQuiet f.anchorSetMs f.anchorFirstMs f.anchorNextMs

/-! ## The tick -/

theorem view_candDrop (hp : IgnoresActs view) (hr : IgnoresRdv view) (isHost : Bool)
    (f : NetFam) : view (candDrop isHost f) = view f := by
  rw [candDrop, view_factsMoved hp, hp _ (nsaEmitRdv ||| nsaRdvDrop) (by decide)]
  exact hr f [] f.picking false f.anchorVouched false f.cands 0 0 f.anchorSetMs 0 f.anchorNextMs

theorem view_tickRound (hp : IgnoresActs view) (hr : IgnoresRdv view) (isHost : Bool)
    (now : UInt64) (f : NetFam) : view (tickRound isHost now f) = view f := by
  have hquiet : ∀ g, view (tickQuiet isHost g) = view g := by
    intro g
    have hcount : view { g with anchorQuiet := g.anchorQuiet + 1 } = view g :=
      hr g g.anchor g.picking g.anchorConfirmed g.anchorVouched g.anchorCandidate g.cands
        g.anchorAcks _ g.anchorSetMs g.anchorFirstMs g.anchorNextMs
    unfold tickQuiet
    simp only
    split
    · split
      · rw [view_candDrop hp hr, hcount]
      · rw [hp _ nsaRdvRelocate (by decide), hcount]
    · exact hcount
  unfold tickRound
  split
  · simp only
    split
    · rw [hquiet, view_anchorNext hr]
    · exact view_anchorNext hr f _
  · rfl

theorem view_tickCeiling (hp : IgnoresActs view) (hr : IgnoresRdv view) (isHost : Bool)
    (now : UInt64) (f : NetFam) : view (tickCeiling isHost now f) = view f := by
  unfold tickCeiling
  split
  · exact view_candDrop hp hr isHost f
  · rfl

theorem view_tick (hp : IgnoresPend view) (hs : IgnoresSource view) (hb : IgnoresProbe view)
    (hr : IgnoresRdv view) (isHost : Bool) (now : UInt64) (f : NetFam) :
    view (netstateTick isHost now f) = view f := by
  rw [netstateTick, view_tickCeiling hp.acts hr, view_anchorConfirm hp.acts hr,
    view_tickRound hp.acts hr, view_tickProbe hp hb, view_tickSrc hp.acts hs]

end Views

end Netstate
end Comrade
