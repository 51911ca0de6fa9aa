import Comrade.Lib.Run
import Comrade.Paths.PlaneRun
import Comrade.Paths.Probeplane

/-!
# The exchange of the pair key

Each end of a connection contributes one half of the pair key and tells the other
when it can open frames under it (`ctlplane.c`).  The halves and the word that a key
is ready travel over the control stream, which is ordered and loses nothing, and
which the base key protects until then.

`KeyLink you me wire` is the invariant of one direction of the stream: what `me` has
seen of `you`, and what is still on the way.  It rests on the order of the stream in
one place only, `ahead`: the half is ahead of the word that the key is ready.
-/

namespace Comrade
namespace Carrier

open Lib Paths Sig

/-! ## One end -/

/-- A message of the control stream: `CTLM_KEY` with a half, `CTLM_KEYOK`, or one that
has nothing to do with the key. -/
inductive KeyMsg where
  | key (half : Half)
  | keyok
  | other (type : UInt8) (pl : Bytes)
  deriving DecidableEq

/-- The part of `struct ctlplane` that the exchange reads and writes, with the key
schedule that it binds. -/
structure KeyEnd where
  pp : Probeplane
  halfOut : Half
  halfIn : Half
  halfSent : Bool
  halfSeen : Bool

/-- `peering_reset`, the part of it that the exchange reads. -/
def peeringReset (e : KeyEnd) : KeyEnd :=
  { e with pp := probeplaneReset e.pp, halfSent := false, halfSeen := false }

section Ends

variable (blake2b : Blake2b)

/-- `key_bind`, and what it sends. -/
def keyBind (e : KeyEnd) : KeyEnd × List KeyMsg :=
  if e.pp.pairReady = true ∨ e.halfSent = false ∨ e.halfSeen = false then (e, [])
  else ({ e with pp := probeplaneBind blake2b e.pp e.halfOut e.halfIn }, [.keyok])

/-- `ctlplane_offer_key`, and what it sends; `ok` says that `random_bytes` drew the
half, and what it left behind where it failed is of no use. -/
def ctlplaneOfferKey (e : KeyEnd) (drawn : Half) (ok : Bool) : KeyEnd × List KeyMsg :=
  if e.halfSent = true then (e, [])
  else if ok = false then ({ e with halfOut := drawn }, [])
  else
    let r := keyBind blake2b { e with halfOut := drawn, halfSent := true }
    (r.1, .key drawn :: r.2)

/-- `ctlplane_on_msg`, the messages of the exchange. -/
def ctlplaneOnMsg (e : KeyEnd) : KeyMsg → KeyEnd × List KeyMsg
  | .key half => keyBind blake2b { e with halfIn := half, halfSeen := true }
  | .keyok => ({ e with pp := (probeplaneTxReady e.pp).1 }, [])
  | .other _ _ => (e, [])

end Ends

/-! ## The pair and the stream -/

/-- Two ends, and what is on the way to each, oldest first. -/
structure KeySystem where
  ends : Bool → KeyEnd
  wire : Bool → List KeyMsg

/-- The pair as a fresh stream finds it. -/
def keyStart (e : Bool → KeyEnd) : KeySystem :=
  { ends := fun c => peeringReset (e c), wire := fun _ => [] }

/-- The end `c` acts: it becomes `e`, leaves `rest` of what was on the way to it, and
sends `out`. -/
def KeySystem.act (s : KeySystem) (c : Bool) (e : KeyEnd) (rest out : List KeyMsg) : KeySystem :=
  { ends := Function.update s.ends c e
    wire := Function.update (Function.update s.wire c rest) (!c) (s.wire (!c) ++ out) }

/-- One thing that happens at an end: a half is offered, the next message of the
stream is read, another message is sent, or a datagram arrives, whoever sent it. -/
inductive KeyEvent where
  | offer (c : Bool) (drawn : Half) (ok : Bool)
  | deliver (c : Bool)
  | say (c : Bool) (type : UInt8) (pl : Bytes)
  | probe (c : Bool) (mine data : Bytes)
  | stream (c : Bool) (data : Bytes)

/-- The pair after an event. -/
def keyStep (unlock : Unlock) (blake2b : Blake2b) (s : KeySystem) : KeyEvent → KeySystem
  | .offer c drawn ok =>
      let r := ctlplaneOfferKey blake2b (s.ends c) drawn ok
      s.act c r.1 (s.wire c) r.2
  | .deliver c =>
      match s.wire c with
      | [] => s
      | m :: rest =>
          let r := ctlplaneOnMsg blake2b (s.ends c) m
          s.act c r.1 rest r.2
  | .say c type pl => s.act c (s.ends c) (s.wire c) [.other type pl]
  | .probe c mine data =>
      let e := s.ends c
      s.act c { e with pp := (recvProbe unlock e.pp mine data).1 } (s.wire c) []
  | .stream c data =>
      let e := s.ends c
      s.act c { e with pp := (probeplaneUnwrap blake2b e.pp data).1 } (s.wire c) []

/-! ## What one direction of the stream keeps -/

/-- The half is on the wire, ahead of any word that the key is ready. -/
def KeyFirst (wire : List KeyMsg) : Prop :=
  ∃ before half after, wire = before ++ .key half :: after ∧ .keyok ∉ before

theorem KeyFirst.append {wire : List KeyMsg} (h : KeyFirst wire) (out : List KeyMsg) :
    KeyFirst (wire ++ out) := by
  obtain ⟨before, half, after, rfl, hno⟩ := h
  exact ⟨before, half, after ++ out, by simp, hno⟩

theorem not_keyFirst_keyok (rest : List KeyMsg) : ¬KeyFirst (.keyok :: rest) := by
  rintro ⟨before, half, after, heq, hno⟩
  cases before with
  | nil => cases heq
  | cons m before =>
      rw [List.cons_append, List.cons.injEq] at heq
      exact hno (heq.1 ▸ List.mem_cons_self)

theorem KeyFirst.tail_other {type : UInt8} {pl : Bytes} {rest : List KeyMsg}
    (h : KeyFirst (.other type pl :: rest)) : KeyFirst rest := by
  obtain ⟨before, half, after, heq, hno⟩ := h
  cases before with
  | nil => cases heq
  | cons m before =>
      rw [List.cons_append, List.cons.injEq] at heq
      exact ⟨before, half, after, heq.2, fun hmem => hno (List.mem_cons_of_mem _ hmem)⟩

/-- What an end keeps to itself: the key is bound as soon as both halves are there,
and only from them. -/
structure KeyOwn (blake2b : Blake2b) (e : KeyEnd) : Prop where
  ready : e.pp.pairReady = true ↔ e.halfSent = true ∧ e.halfSeen = true
  pair : e.pp.pairReady = true → e.pp.pair = keysConnKey blake2b e.pp.base e.halfOut e.halfIn
  tx : e.pp.pairTx = true → e.pp.pairReady = true

/-- What `me` knows of `you`, and what is still on the way to it. -/
structure KeyLink (you me : KeyEnd) (wire : List KeyMsg) : Prop where
  seen : me.halfSeen = true → you.halfSent = true ∧ me.halfIn = you.halfOut
  key : ∀ half, .key half ∈ wire → you.halfSent = true ∧ half = you.halfOut
  keyok : .keyok ∈ wire → you.pp.pairReady = true
  ahead : you.halfSent = true → me.halfSeen = true ∨ KeyFirst wire
  tx : me.pp.pairTx = true → you.pp.pairReady = true

/-- The invariant of the pair. -/
structure KeyInv (blake2b : Blake2b) (s : KeySystem) : Prop where
  base : (s.ends true).pp.base = (s.ends false).pp.base
  own : ∀ c, KeyOwn blake2b (s.ends c)
  link : ∀ c, KeyLink (s.ends (!c)) (s.ends c) (s.wire c)

/-- An end acts, and both directions of the stream with it. -/
theorem KeyInv.act {blake2b : Blake2b} {s : KeySystem} (h : KeyInv blake2b s) {c : Bool}
    {e : KeyEnd} {rest out : List KeyMsg} (hbase : e.pp.base = (s.ends c).pp.base)
    (hown : KeyOwn blake2b e) (hin : KeyLink (s.ends (!c)) e rest)
    (hout : KeyLink e (s.ends (!c)) (s.wire (!c) ++ out)) :
    KeyInv blake2b (s.act c e rest out) := by
  have hme : (s.act c e rest out).ends c = e := Function.update_self _ _ _
  have hyou : (s.act c e rest out).ends (!c) = s.ends (!c) :=
    Function.update_of_ne (Bool.not_ne_self c) _ _
  have hwme : (s.act c e rest out).wire c = rest := by
    show Function.update (Function.update s.wire c rest) (!c) _ c = rest
    rw [Function.update_of_ne (Bool.not_ne_self c).symm, Function.update_self]
  have hwyou : (s.act c e rest out).wire (!c) = s.wire (!c) ++ out := Function.update_self _ _ _
  have hsplit : ∀ c', c' = c ∨ c' = !c := by
    intro c'
    cases c <;> cases c' <;> simp
  constructor
  · have hb := h.base
    cases c with
    | true =>
        have hyou' : (s.act true e rest out).ends false = s.ends false := hyou
        rw [hme, hyou', hbase, hb]
    | false =>
        have hyou' : (s.act false e rest out).ends true = s.ends true := hyou
        rw [hme, hyou', hbase, hb]
  · intro c'
    rcases hsplit c' with rfl | rfl
    · rw [hme]
      exact hown
    · rw [hyou]
      exact h.own (!c)
  · intro c'
    rcases hsplit c' with rfl | rfl
    · rw [hme, hyou, hwme]
      exact hin
    · rw [Bool.not_not, hme, hyou, hwyou]
      exact hout

/-! ## One step -/

section Steps

variable {blake2b : Blake2b} {unlock : Unlock}

/-- What `key_bind` leaves alone. -/
theorem keyBind_frame (blake2b : Blake2b) (e : KeyEnd) :
    (keyBind blake2b e).1.halfOut = e.halfOut ∧ (keyBind blake2b e).1.halfIn = e.halfIn ∧
      (keyBind blake2b e).1.halfSent = e.halfSent ∧ (keyBind blake2b e).1.halfSeen = e.halfSeen ∧
      (keyBind blake2b e).1.pp.base = e.pp.base ∧
      (keyBind blake2b e).1.pp.pairTx = e.pp.pairTx ∧
      (keyBind blake2b e).1.pp.baseOk = e.pp.baseOk := by
  unfold keyBind
  split_ifs <;> exact ⟨rfl, rfl, rfl, rfl, rfl, rfl, rfl⟩

/-- A key once bound stays, and the word that it is ready goes out as it is bound. -/
theorem keyBind_ready (blake2b : Blake2b) (e : KeyEnd) :
    (e.pp.pairReady = true → (keyBind blake2b e).1.pp.pairReady = true) ∧
      ∀ m ∈ (keyBind blake2b e).2, m = .keyok ∧ (keyBind blake2b e).1.pp.pairReady = true := by
  unfold keyBind
  split_ifs
  · exact ⟨fun h => h, fun m hm => absurd hm List.not_mem_nil⟩
  · exact ⟨fun _ => rfl, fun m hm => ⟨List.mem_singleton.mp hm, rfl⟩⟩

theorem keyBind_own {e : KeyEnd}
    (hready : e.pp.pairReady = true → e.halfSent = true ∧ e.halfSeen = true ∧
      e.pp.pair = keysConnKey blake2b e.pp.base e.halfOut e.halfIn)
    (htx : e.pp.pairTx = true → e.pp.pairReady = true) :
    KeyOwn blake2b (keyBind blake2b e).1 := by
  unfold keyBind
  split_ifs with hskip
  · constructor
    · constructor
      · intro h
        exact ⟨(hready h).1, (hready h).2.1⟩
      · rintro ⟨hsent, hseen⟩
        rcases hskip with h | h | h
        · exact h
        · rw [hsent] at h
          cases h
        · rw [hseen] at h
          cases h
    · exact fun h => (hready h).2.2
    · exact htx
  · simp only [not_or, Bool.not_eq_true, Bool.not_eq_false] at hskip
    constructor
    · exact ⟨fun _ => hskip.2, fun _ => rfl⟩
    · exact fun _ => rfl
    · exact fun _ => rfl

/-- An end whose half, if it was out, is the same, and whose key stays bound, keeps
what the other end knows of it. -/
theorem KeyLink.of_you {you you' me : KeyEnd} {wire out : List KeyMsg} (h : KeyLink you me wire)
    (hsent : you'.halfSent = you.halfSent) (hhalf : you'.halfOut = you.halfOut)
    (hready : you.pp.pairReady = true → you'.pp.pairReady = true)
    (hout : ∀ m ∈ out, (∀ half, m ≠ .key half) ∧ (m = .keyok → you'.pp.pairReady = true)) :
    KeyLink you' me (wire ++ out) := by
  constructor
  · intro hseen
    rw [hsent, hhalf]
    exact h.seen hseen
  · intro half hmem
    rw [hsent, hhalf]
    rcases List.mem_append.mp hmem with hmem | hmem
    · exact h.key half hmem
    · exact absurd rfl ((hout _ hmem).1 half)
  · intro hmem
    rcases List.mem_append.mp hmem with hmem | hmem
    · exact hready (h.keyok hmem)
    · exact (hout _ hmem).2 rfl
  · intro hyou
    rw [hsent] at hyou
    rcases h.ahead hyou with hseen | hfirst
    · exact .inl hseen
    · exact .inr (hfirst.append out)
  · exact fun htx => hready (h.tx htx)

theorem keyStep_offer {s : KeySystem} (h : KeyInv blake2b s) (c : Bool) (drawn : Half)
    (ok : Bool) : KeyInv blake2b (keyStep unlock blake2b s (.offer c drawn ok)) := by
  have hown := h.own c
  have hin := h.link c
  have hout := h.link (!c)
  rw [Bool.not_not] at hout
  simp only [keyStep, ctlplaneOfferKey]
  by_cases hsent : (s.ends c).halfSent = true
  · rw [if_pos hsent]
    exact h.act rfl hown hin (by simpa using hout)
  · have hnot : (s.ends c).halfSent = false := by simpa using hsent
    -- with no half out there is no key, and nothing of this end's is on the way
    have hnokey : ¬(s.ends c).pp.pairReady = true := fun hr => hsent (hown.ready.mp hr).1
    have hunseen : ¬(s.ends (!c)).halfSeen = true := fun hs => hsent (hout.seen hs).1
    have hempty : ∀ m ∈ s.wire (!c), (∀ half, m ≠ .key half) ∧ m ≠ .keyok := by
      intro m hm
      constructor
      · rintro half rfl
        exact hsent (hout.key half hm).1
      · rintro rfl
        exact hnokey (hout.keyok hm)
    rw [if_neg hsent]
    by_cases hok : ok = false
    · rw [if_pos hok]
      refine h.act rfl ⟨hown.ready, fun hr => absurd hr hnokey, hown.tx⟩ ⟨hin.seen, hin.key,
        hin.keyok, hin.ahead, hin.tx⟩ ⟨fun hs => absurd hs hunseen, ?_, ?_, ?_, hout.tx⟩
      · intro half hmem
        rw [List.append_nil] at hmem
        exact absurd rfl ((hempty _ hmem).1 half)
      · intro hmem
        rw [List.append_nil] at hmem
        exact absurd rfl (hempty _ hmem).2
      · intro hs
        exact absurd hs hsent
    · rw [if_neg hok]
      let e : KeyEnd := { s.ends c with halfOut := drawn, halfSent := true }
      obtain ⟨hho, hhi, hhs, hhn, hb, htx, -⟩ := keyBind_frame blake2b e
      obtain ⟨-, hbound⟩ := keyBind_ready blake2b e
      refine h.act hb (keyBind_own (fun hr => absurd hr hnokey) hown.tx) ?_ ?_
      · refine ⟨?_, hin.key, hin.keyok, ?_, ?_⟩
        · rw [hhn, hhi]
          exact hin.seen
        · rw [hhn]
          exact hin.ahead
        · rw [htx]
          exact hin.tx
      · refine ⟨fun hs => absurd hs hunseen, ?_, ?_, ?_, fun ht => absurd (hout.tx ht) hnokey⟩
        · intro half hmem
          rw [hhs, hho]
          rcases List.mem_append.mp hmem with hmem | hmem
          · exact absurd rfl ((hempty _ hmem).1 half)
          · rcases List.mem_cons.mp hmem with heq | hmem
            · exact ⟨rfl, KeyMsg.key.inj heq⟩
            · exact absurd (hbound _ hmem).1 (by simp)
        · intro hmem
          rcases List.mem_append.mp hmem with hmem | hmem
          · exact absurd rfl (hempty _ hmem).2
          · rcases List.mem_cons.mp hmem with heq | hmem
            · cases heq
            · exact (hbound _ hmem).2
        · intro _
          exact .inr ⟨s.wire (!c), drawn, _, rfl, fun hmem => (hempty _ hmem).2 rfl⟩

/-- The word that the key is ready finds it ready. -/
theorem KeyInv.ready_of_keyok {s : KeySystem} (h : KeyInv blake2b s) {c : Bool}
    {rest : List KeyMsg} (hwire : s.wire c = .keyok :: rest) :
    (s.ends c).pp.pairReady = true := by
  have hin := h.link c
  have hout := h.link (!c)
  rw [Bool.not_not] at hout
  rw [hwire] at hin
  obtain ⟨hsent, hseen⟩ := (h.own (!c)).ready.mp (hin.keyok List.mem_cons_self)
  refine (h.own c).ready.mpr ⟨(hout.seen hseen).1, ?_⟩
  rcases hin.ahead hsent with hs | hfirst
  · exact hs
  · exact absurd hfirst (not_keyFirst_keyok rest)

theorem keyStep_deliver {s : KeySystem} (h : KeyInv blake2b s) (c : Bool) :
    KeyInv blake2b (keyStep unlock blake2b s (.deliver c)) := by
  have hown := h.own c
  have hin := h.link c
  have hout := h.link (!c)
  rw [Bool.not_not] at hout
  simp only [keyStep]
  cases hwire : s.wire c with
  | nil => exact h
  | cons m rest =>
      rw [hwire] at hin
      have hkey : ∀ half, .key half ∈ rest →
          (s.ends (!c)).halfSent = true ∧ half = (s.ends (!c)).halfOut :=
        fun half hmem => hin.key half (List.mem_cons_of_mem _ hmem)
      have hkeyok : KeyMsg.keyok ∈ rest → (s.ends (!c)).pp.pairReady = true :=
        fun hmem => hin.keyok (List.mem_cons_of_mem _ hmem)
      cases m with
      | key half =>
          obtain ⟨hsent, hhalf⟩ := hin.key half List.mem_cons_self
          let e : KeyEnd := { s.ends c with halfIn := half, halfSeen := true }
          obtain ⟨hho, hhi, hhs, hhn, hb, htx, -⟩ := keyBind_frame blake2b e
          obtain ⟨hstays, hbound⟩ := keyBind_ready blake2b e
          show KeyInv blake2b (s.act c (keyBind blake2b e).1 rest (keyBind blake2b e).2)
          refine h.act hb (keyBind_own ?_ hown.tx) ?_ ?_
          · -- a key that is bound already was bound from this very half
            intro hr
            obtain ⟨hs, hn⟩ := hown.ready.mp hr
            refine ⟨hs, rfl, ?_⟩
            rw [hown.pair hr, (hin.seen hn).2, ← hhalf]
          · refine ⟨?_, hkey, hkeyok, ?_, ?_⟩
            · intro _
              rw [hhi]
              exact ⟨hsent, hhalf⟩
            · intro _
              rw [hhn]
              exact .inl rfl
            · rw [htx]
              exact hin.tx
          · refine hout.of_you hhs hho hstays ?_
            intro m hm
            obtain ⟨rfl, hr⟩ := hbound m hm
            exact ⟨fun half => by simp, fun _ => hr⟩
      | keyok =>
          have hready := h.ready_of_keyok hwire
          have htxr : (probeplaneTxReady (s.ends c).pp).1 =
              { (s.ends c).pp with pairTx := true } := by
            unfold probeplaneTxReady
            split_ifs with hmove
            · rfl
            · have htx : (s.ends c).pp.pairTx = true := by
                by_contra hnot
                exact hmove ⟨hready, by simpa using hnot⟩
              rw [← htx]
          simp only [ctlplaneOnMsg, htxr]
          refine h.act rfl ⟨hown.ready, hown.pair, fun _ => hready⟩ ?_ ?_
          · refine ⟨hin.seen, hkey, hkeyok, ?_, fun _ => hin.keyok List.mem_cons_self⟩
            intro hsent
            rcases hin.ahead hsent with hs | hfirst
            · exact .inl hs
            · exact absurd hfirst (not_keyFirst_keyok rest)
          · exact hout.of_you rfl rfl (fun hr => hr) fun m hm => absurd hm List.not_mem_nil
      | other type pl =>
          simp only [ctlplaneOnMsg]
          refine h.act rfl hown ?_ ?_
          · refine ⟨hin.seen, hkey, hkeyok, ?_, hin.tx⟩
            intro hsent
            rcases hin.ahead hsent with hs | hfirst
            · exact .inl hs
            · exact .inr hfirst.tail_other
          · exact hout.of_you rfl rfl (fun hr => hr) fun m hm => absurd hm List.not_mem_nil

/-- A datagram leaves the exchange alone, whoever sent it. -/
theorem KeyInv.act_pp {s : KeySystem} (h : KeyInv blake2b s) (c : Bool) {pp : Probeplane}
    (hbase : pp.base = (s.ends c).pp.base) (hpair : pp.pair = (s.ends c).pp.pair)
    (hready : pp.pairReady = (s.ends c).pp.pairReady) (htx : pp.pairTx = (s.ends c).pp.pairTx) :
    KeyInv blake2b (s.act c { s.ends c with pp := pp } (s.wire c) []) := by
  have hown := h.own c
  have hin := h.link c
  have hout := h.link (!c)
  rw [Bool.not_not] at hout
  refine h.act hbase ⟨?_, ?_, ?_⟩ ⟨hin.seen, hin.key, hin.keyok, hin.ahead, ?_⟩ ?_
  · show pp.pairReady = true ↔ _
    rw [hready]
    exact hown.ready
  · show pp.pairReady = true → pp.pair = keysConnKey blake2b pp.base _ _
    rw [hready, hpair, hbase]
    exact hown.pair
  · show pp.pairTx = true → pp.pairReady = true
    rw [htx, hready]
    exact hown.tx
  · show pp.pairTx = true → _
    rw [htx]
    exact hin.tx
  · refine hout.of_you rfl rfl ?_ fun m hm => absurd hm List.not_mem_nil
    show _ → pp.pairReady = true
    rw [hready]
    exact fun hr => hr

theorem keyStep_keyInv {s : KeySystem} (h : KeyInv blake2b s) (ev : KeyEvent) :
    KeyInv blake2b (keyStep unlock blake2b s ev) := by
  cases ev with
  | offer c drawn ok => exact keyStep_offer h c drawn ok
  | deliver c => exact keyStep_deliver h c
  | say c type pl =>
      have hout := h.link (!c)
      rw [Bool.not_not] at hout
      refine h.act rfl (h.own c) (h.link c) (hout.of_you rfl rfl (fun hr => hr) ?_)
      intro m hm
      rw [List.mem_singleton.mp hm]
      exact ⟨fun half => by simp, fun heq => by cases heq⟩
  | probe c mine data =>
      obtain ⟨w, ok, hframe, -⟩ := recvProbe_frame unlock (s.ends c).pp mine data
      simp only [keyStep, hframe]
      exact h.act_pp c rfl rfl rfl rfl
  | stream c data =>
      obtain ⟨w, ok, hframe, -⟩ := probeplaneUnwrap_frame blake2b (s.ends c).pp data
      simp only [keyStep, hframe]
      exact h.act_pp c rfl rfl rfl rfl

theorem keyStart_keyInv {e : Bool → KeyEnd} (hbase : (e true).pp.base = (e false).pp.base) :
    KeyInv blake2b (keyStart e) := by
  constructor
  · exact hbase
  · intro c
    exact ⟨⟨fun h => absurd h (by simp [keyStart, peeringReset, probeplaneReset]),
      fun h => absurd h.1 (by simp [keyStart, peeringReset])⟩,
      fun h => absurd h (by simp [keyStart, peeringReset, probeplaneReset]),
      fun h => absurd h (by simp [keyStart, peeringReset, probeplaneReset])⟩
  · intro c
    exact ⟨fun h => absurd h (by simp [keyStart, peeringReset]),
      fun _ h => absurd h List.not_mem_nil, fun h => absurd h List.not_mem_nil,
      fun h => absurd h (by simp [keyStart, peeringReset]),
      fun h => absurd h (by simp [keyStart, peeringReset, probeplaneReset])⟩

/-! ## The spent base key -/

/-- The base key, once spent, stays spent until the next reset. -/
theorem keyStep_baseOk {s : KeySystem} {c : Bool} (h : (s.ends c).pp.baseOk = false)
    (ev : KeyEvent) : ((keyStep unlock blake2b s ev).ends c).pp.baseOk = false := by
  have hact : ∀ {c' : Bool} {e : KeyEnd} {rest out : List KeyMsg},
      (e.pp.baseOk = (s.ends c').pp.baseOk ∨ e.pp.baseOk = false) →
      ((s.act c' e rest out).ends c).pp.baseOk = false := by
    intro c' e rest out he
    show (Function.update s.ends c' e c).pp.baseOk = false
    by_cases hc : c = c'
    · subst hc
      rw [Function.update_self]
      rcases he with he | he
      · rw [he, h]
      · exact he
    · rw [Function.update_of_ne hc, h]
  cases ev with
  | offer c' drawn ok =>
      refine hact (.inl ?_)
      unfold ctlplaneOfferKey
      split_ifs
      · rfl
      · rfl
      · exact (keyBind_frame blake2b _).2.2.2.2.2.2
  | deliver c' =>
      simp only [keyStep]
      cases s.wire c' with
      | nil => exact h
      | cons m rest =>
          refine hact (.inl ?_)
          cases m with
          | key half => exact (keyBind_frame blake2b _).2.2.2.2.2.2
          | keyok =>
              simp only [ctlplaneOnMsg, probeplaneTxReady]
              split_ifs <;> rfl
          | other type pl => rfl
  | say c' type pl => exact hact (.inl rfl)
  | probe c' mine data =>
      obtain ⟨w, ok, hframe, hok⟩ := recvProbe_frame unlock (s.ends c').pp mine data
      simp only [keyStep, hframe]
      exact hact hok
  | stream c' data =>
      obtain ⟨w, ok, hframe, hok⟩ := probeplaneUnwrap_frame blake2b (s.ends c').pp data
      simp only [keyStep, hframe]
      exact hact hok

/-- The event opens a frame under the pair key at the end `c`. -/
def OpensPair (unlock : Unlock) (blake2b : Blake2b) (c : Bool) (s : KeySystem) : KeyEvent → Prop
  | .probe c' _ data => c' = c ∧ (openPair unlock (s.ends c).pp data).isSome = true
  | .stream c' data => c' = c ∧ (unwrapPair blake2b (s.ends c).pp data).isSome = true
  | _ => False

theorem keyStep_opensPair {s : KeySystem} {c : Bool} {ev : KeyEvent}
    (h : OpensPair unlock blake2b c s ev) :
    ((keyStep unlock blake2b s ev).ends c).pp.baseOk = false := by
  cases ev with
  | probe c' mine data =>
      obtain ⟨rfl, hsome⟩ := h
      obtain ⟨pr, hpair⟩ := Option.isSome_iff_exists.mp hsome
      show (Function.update s.ends c' _ c').pp.baseOk = false
      rw [Function.update_self]
      show (recvProbe unlock (s.ends c').pp mine data).1.baseOk = false
      unfold recvProbe probeplaneOpen
      rw [hpair]
      dsimp only
      split_ifs
      · rfl
      · split <;> rename_i heq <;> rw [← congrArg Prod.fst heq] <;> rfl
  | stream c' data =>
      obtain ⟨rfl, hsome⟩ := h
      obtain ⟨opened, hpair⟩ := Option.isSome_iff_exists.mp hsome
      show (Function.update s.ends c' _ c').pp.baseOk = false
      rw [Function.update_self]
      show (probeplaneUnwrap blake2b (s.ends c').pp data).1.baseOk = false
      unfold probeplaneUnwrap
      rw [hpair]
      rfl
  | offer c' drawn ok => exact h.elim
  | deliver c' => exact h.elim
  | say c' type pl => exact h.elim

/-- With the base key spent, a probe that is acted on opened under the pair key or is
the one notice. -/
theorem recvProbe_spent {pp : Probeplane} (hspent : pp.baseOk = false) {mine data : Bytes}
    {pr : WireProbe} (h : (recvProbe unlock pp mine data).2 = some pr) :
    openPair unlock pp data = some pr ∨ pr.type = .fresh := by
  have hrecv : recvProbe unlock pp mine data = ((recvProbe unlock pp mine data).1, some pr) :=
    Prod.ext rfl h
  obtain ⟨pp₁, hopen, -⟩ := recvProbe_eq_some hrecv
  rcases probeplaneOpen_cases unlock pp data with
    ⟨pr', hpair, hopen'⟩ | ⟨-, ⟨pr', -, hwhich, hopen'⟩ | ⟨-, hopen'⟩⟩
  · rw [hopen'] at hopen
    obtain rfl : pr' = pr := Option.some.inj (congrArg Prod.snd hopen)
    exact .inl hpair
  · rw [hopen'] at hopen
    obtain rfl : pr' = pr := Option.some.inj (congrArg Prod.snd hopen)
    rcases hwhich with hok | hfresh
    · rw [hspent] at hok
      cases hok
    · exact .inr hfresh
  · rw [hopen'] at hopen
    cases hopen

/-- With the base key spent, a datagram of the stream that is taken opened under the
pair key. -/
theorem probeplaneUnwrap_spent {pp : Probeplane} (hspent : pp.baseOk = false) {data body : Bytes}
    (h : (probeplaneUnwrap blake2b pp data).2 = some body) :
    (unwrapPair blake2b pp data).isSome = true := by
  unfold probeplaneUnwrap at h
  cases hpair : unwrapPair blake2b pp data with
  | some opened => rfl
  | none =>
      rw [hpair] at h
      dsimp only at h
      rw [if_pos hspent] at h
      cases h

/-! ## Whole runs -/

/-- The pair key does not depend on whose half is whose. -/
theorem keysConnKey_comm (blake2b : Blake2b) (base : Key) (a b : Half) :
    keysConnKey blake2b base a b = keysConnKey blake2b base b a := by
  have hlen : a.toList.length = b.toList.length := by simp
  have hsame := memcmp_ordered_comm hlen fun lo hi => connKeyInfo ++ lo ++ hi
  have hmsg : ∀ x y : Half, keysConnKey blake2b base x y = blake2b base.toList
      (if memcmp x.toList y.toList ≤ 0 then connKeyInfo ++ x.toList ++ y.toList
        else connKeyInfo ++ y.toList ++ x.toList) := by
    intro x y
    unfold keysConnKey
    split_ifs <;> rfl
  rw [hmsg, hmsg, hsame]

/-- Over every interleaving of offers, deliveries and datagrams from anywhere: an end
that seals under the pair key is opened by the other under the same key, the word that
the key is ready finds it ready, and once a frame opened under the pair key at an end,
what that end accepts there until the next reset opened under the pair key, or is the
one notice. -/
theorem key_exchange (e : Bool → KeyEnd) (hbase : (e true).pp.base = (e false).pp.base)
    (events : List KeyEvent) :
    let step := keyStep unlock blake2b
    let s := run step (keyStart e) events
    (∀ c, (s.ends c).pp.pairTx = true →
      (s.ends (!c)).pp.pairReady = true ∧ (s.ends (!c)).pp.pair = (s.ends c).pp.pair) ∧
    (∀ c rest, s.wire c = .keyok :: rest → (s.ends c).pp.pairReady = true) ∧
    ∀ c before ev after, events = before ++ ev :: after →
      OpensPair unlock blake2b c (run step (keyStart e) before) ev →
      (∀ mine data pr, (recvProbe unlock (s.ends c).pp mine data).2 = some pr →
        openPair unlock (s.ends c).pp data = some pr ∨ pr.type = .fresh) ∧
      ∀ data body, (probeplaneUnwrap blake2b (s.ends c).pp data).2 = some body →
        (unwrapPair blake2b (s.ends c).pp data).isSome = true := by
  intro step s
  have hinv : KeyInv blake2b s :=
    run_invariant (I := KeyInv blake2b) (fun _ ev h => keyStep_keyInv h ev)
      (keyStart_keyInv hbase) events
  refine ⟨?_, fun c rest hwire => hinv.ready_of_keyok hwire, ?_⟩
  · intro c htx
    have hyou := (hinv.link c).tx htx
    have hme := (hinv.own c).tx htx
    have hout := hinv.link (!c)
    rw [Bool.not_not] at hout
    have hbases : (s.ends (!c)).pp.base = (s.ends c).pp.base := by
      cases c with
      | true => exact hinv.base.symm
      | false => exact hinv.base
    refine ⟨hyou, ?_⟩
    rw [(hinv.own (!c)).pair hyou, (hinv.own c).pair hme,
      (hout.seen ((hinv.own (!c)).ready.mp hyou).2).2,
      ((hinv.link c).seen ((hinv.own c).ready.mp hme).2).2, hbases, keysConnKey_comm]
  · intro c before ev after hevents hopens
    have hspent : (s.ends c).pp.baseOk = false := by
      show ((run step (keyStart e) events).ends c).pp.baseOk = false
      rw [hevents, run, List.foldl_append, List.foldl_cons]
      exact run_invariant (I := fun s : KeySystem => (s.ends c).pp.baseOk = false)
        (fun _ ev h => keyStep_baseOk h ev) (keyStep_opensPair hopens) after
    exact ⟨fun mine data pr h => recvProbe_spent hspent h,
      fun data body h => probeplaneUnwrap_spent hspent h⟩

end Steps

/-- Two ends on one base key. -/
def testEnds : Bool → KeyEnd := fun _ =>
  { pp := probeplaneInit 7 (Vector.replicate 32 1) 0, halfOut := Vector.replicate 32 0,
    halfIn := Vector.replicate 32 0, halfSent := false, halfSeen := false }

/-- Both halves cross on the stream, and both words that the key is ready. -/
def testExchange : List KeyEvent :=
  [.offer true (Vector.replicate 32 2) true, .offer false (Vector.replicate 32 3) true,
   .deliver true, .deliver false, .deliver true, .deliver false]

/-- Both ends seal under the pair key in the end, and the other can open it. -/
theorem key_exchange_testExchange :
    let s := run (keyStep tagUnlock turnedHash) (keyStart testEnds) testExchange
    ((s.ends true).pp.pairTx = true ∧ (s.ends false).pp.pairTx = true) ∧
      ((s.ends false).pp.pairReady = true ∧ (s.ends false).pp.pair = (s.ends true).pp.pair) := by
  intro s
  have htx : (s.ends true).pp.pairTx = true ∧ (s.ends false).pp.pairTx = true := by
    decide
  exact ⟨htx, (key_exchange testEnds rfl testExchange).1 true htx.1⟩

end Carrier
end Comrade
