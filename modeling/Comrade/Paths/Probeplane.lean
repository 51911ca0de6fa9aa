import Comrade.Paths.Probe

/-!
# The key schedule of the path plane

A connection starts on the base key, which every holder of the invitation has, and
moves to a key of the pair's own once both ends have traded a half
(`probeplane.c`).  Each frame is counted by its sender and acted on once: the
counts that were seen are kept in a sliding window (`replay.c`), one for the
probes and one for the stream's datagrams (`dataauth.c`).

`pathplaneRecv` is the way of a probe from a carrier to the path plane.
-/

namespace Comrade
namespace Paths

open Lib Sig

/-! ## The replay window -/

/-- `REPLAY_WINDOW`. -/
def replayWindow : UInt64 := 64

/-- `struct replay_win`. -/
structure ReplayWin where
  hi : UInt64
  seen : UInt64
  deriving DecidableEq, Repr

/-- `replay_ok`; the flag says that the count is new, and then it is recorded. -/
def replayOk (w : ReplayWin) (seq : UInt64) : ReplayWin × Bool :=
  if seq = 0 then (w, false)
  else if seq > w.hi then
    let step := seq - w.hi
    ({ hi := seq
       seen := if step ≥ replayWindow then 0
         else (w.seen <<< step) ||| (if w.hi ≠ 0 then 1 <<< (step - 1) else 0) }, true)
  else
    let back := w.hi - seq
    if back ≥ replayWindow then (w, false)
    else if back = 0 then (w, false)
    else if w.seen &&& (1 <<< (back - 1)) ≠ 0 then (w, false)
    else ({ w with seen := w.seen ||| (1 <<< (back - 1)) }, true)

/-! ## The stream's datagrams -/

/-- A key. -/
abbrev Key := Vector UInt8 32

/-- `DATAAUTH_CTR_LEN`. -/
def dataauthCtrLen : Nat := 8

/-- `DATAAUTH_TAG_LEN`. -/
def dataauthTagLen : Nat := 16

/-- `DATAAUTH_OVERHEAD`. -/
def dataauthOverhead : Nat := dataauthCtrLen + dataauthTagLen

/-- `tag_of`: the first half of the hash. -/
def tagOf (blake2b : Blake2b) (key : Key) (body : Bytes) : Bytes :=
  (blake2b key.toList body).toList.take dataauthTagLen

/-- `dataauth_wrap` into a buffer of `outMax` bytes. -/
def dataauthWrap (blake2b : Blake2b) (outMax : Nat) (key : Key) (data : Bytes) (seq : UInt64) :
    Option Bytes :=
  if data.length + dataauthOverhead > outMax then none
  else
    let out := data ++ bePut dataauthCtrLen seq.toNat
    some (out ++ tagOf blake2b key out)

/-- `dataauth_open`: the body and the count. -/
def dataauthOpen (blake2b : Blake2b) (key : Key) (data : Bytes) : Option (Bytes × UInt64) :=
  if data.length < dataauthOverhead then none
  else
    let n := data.length - dataauthTagLen
    if tagOf blake2b key (data.take n) ≠ data.drop n then none
    else
      some (data.take (n - dataauthCtrLen),
        UInt64.ofNat (beGet ((data.take n).drop (n - dataauthCtrLen))))

/-! ## The keys -/

/-- `KEYS_HALF_LEN` bytes that one end contributes to the pair key. -/
abbrev Half := Vector UInt8 32

/-- The label of the pair key. -/
def connKeyInfo : Bytes := ascii "comrade1 conn key".toList

/-- `keys_conn_key`: the two halves in the order of their bytes. -/
def keysConnKey (blake2b : Blake2b) (base : Key) (a b : Half) : Key :=
  let lo := if memcmp a.toList b.toList ≤ 0 then a else b
  let hi := if memcmp a.toList b.toList ≤ 0 then b else a
  blake2b base.toList (connKeyInfo ++ lo.toList ++ hi.toList)

/-- `struct probeplane`. -/
structure Probeplane where
  magic : UInt32
  base : Key
  pair : Key
  pairReady : Bool
  pairTx : Bool
  baseOk : Bool
  seq : UInt64
  rx : ReplayWin
  dataSeq : UInt64
  dataRx : ReplayWin
  deriving DecidableEq, Repr

/-- `probeplane_init`. -/
def probeplaneInit (magic : UInt32) (base : Key) (seq0 : UInt64) : Probeplane where
  magic := magic
  base := base
  pair := Vector.replicate 32 0
  pairReady := false
  pairTx := false
  baseOk := true
  seq := seq0
  rx := { hi := 0, seen := 0 }
  dataSeq := seq0
  dataRx := { hi := 0, seen := 0 }

/-- `probeplane_reset`. -/
def probeplaneReset (pp : Probeplane) : Probeplane :=
  { pp with pairReady := false, pairTx := false, baseOk := true }

/-- `probeplane_bind`. -/
def probeplaneBind (blake2b : Blake2b) (pp : Probeplane) (halfOut halfIn : Half) : Probeplane :=
  { pp with pair := keysConnKey blake2b pp.base halfOut halfIn, pairReady := true }

/-- `probeplane_tx_ready`; the flag says that the key in force moved. -/
def probeplaneTxReady (pp : Probeplane) : Probeplane × Bool :=
  if pp.pairReady = true ∧ pp.pairTx = false then ({ pp with pairTx := true }, true)
  else (pp, false)

/-- The key that frames are sealed with. -/
def Probeplane.tx (pp : Probeplane) : Key := if pp.pairTx = true then pp.pair else pp.base

/-- `saw_pair`. -/
def sawPair (pp : Probeplane) : Probeplane := { pp with baseOk := false }

/-- `probeplane_seal`. -/
def probeplaneSeal (lock : Lock) (rand : Option SealNonce) (pp : Probeplane) (pr : PathProbe)
    (ufrag : Bytes) : Probeplane × Option Bytes :=
  let seq := pp.seq + 1
  ({ pp with seq := seq },
    pathProbeBuild lock rand probeMax pp.magic pp.tx.toList
      { pr with seq := seq, ufrag := (cString ufrag).take probeUfragMax })

/-- The probe in a datagram under the pair key, where there is one. -/
def openPair (unlock : Unlock) (pp : Probeplane) (data : Bytes) : Option WireProbe :=
  if pp.pairReady = true then pathProbeParse unlock pp.magic pp.pair.toList data else none

/-- `probeplane_open`. -/
def probeplaneOpen (unlock : Unlock) (pp : Probeplane) (data : Bytes) :
    Probeplane × Option WireProbe :=
  match openPair unlock pp data with
  | some pr => (sawPair pp, some pr)
  | none =>
      match pathProbeParse unlock pp.magic pp.base.toList data with
      | none => (pp, none)
      | some pr =>
          if pp.baseOk = true then (pp, some pr)
          else if pr.type = .fresh then (pp, some pr)
          else (pp, none)

/-- `probeplane_wrap` into a buffer of `outMax` bytes. -/
def probeplaneWrap (blake2b : Blake2b) (outMax : Nat) (pp : Probeplane) (data : Bytes) :
    Probeplane × Option Bytes :=
  let seq := pp.dataSeq + 1
  ({ pp with dataSeq := seq }, dataauthWrap blake2b outMax pp.tx data seq)

/-- The stream's datagram under the pair key, where there is one. -/
def unwrapPair (blake2b : Blake2b) (pp : Probeplane) (data : Bytes) : Option (Bytes × UInt64) :=
  if pp.pairReady = true then dataauthOpen blake2b pp.pair data else none

/-- The end of `probeplane_unwrap`: an opened datagram is taken once. -/
def unwrapFresh (pp : Probeplane) (opened : Bytes × UInt64) : Probeplane × Option Bytes :=
  let r := replayOk pp.dataRx opened.2
  ({ pp with dataRx := r.1 }, if r.2 = true then some opened.1 else none)

/-- `probeplane_unwrap`: the body of a datagram that is taken. -/
def probeplaneUnwrap (blake2b : Blake2b) (pp : Probeplane) (data : Bytes) :
    Probeplane × Option Bytes :=
  match unwrapPair blake2b pp data with
  | some opened => unwrapFresh (sawPair pp) opened
  | none =>
      if pp.baseOk = false then (pp, none)
      else
        match dataauthOpen blake2b pp.base data with
        | none => (pp, none)
        | some opened => unwrapFresh pp opened

/-- `probeplane_fresh`. -/
def probeplaneFresh (pp : Probeplane) (pr : WireProbe) : Probeplane × Bool :=
  let r := replayOk pp.rx pr.seq
  ({ pp with rx := r.1 }, r.2)

/-! ## A probe from a carrier -/

/-- The first half of `pathplane_recv`: the probe in a datagram, where it opens,
names this end's identity and has not been acted on. -/
def recvProbe (unlock : Unlock) (pp : Probeplane) (mine data : Bytes) :
    Probeplane × Option WireProbe :=
  match probeplaneOpen unlock pp data with
  | (pp, none) => (pp, none)
  | (pp, some pr) =>
      if cString pr.ufrag ≠ cString mine then (pp, none)
      else
        match probeplaneFresh pp pr with
        | (pp, false) => (pp, none)
        | (pp, true) => (pp, some pr)

/-- `pathplane_recv`; what the plane answers is returned as the probe to be sealed,
and with it the probe that was acted on. -/
def pathplaneRecv (unlock : Unlock) (blake2b : Blake2b) (pp : Probeplane) (pl : PathPlane)
    (k : PlaneSinks) (data : Bytes) (kind : PathKind) (src : Option Sockaddr)
    (agent : Option Agent) (now : Nat) :
    Probeplane × PathPlane × Option ProbeOut × Option WireProbe :=
  match recvProbe unlock pp k.ident data with
  | (pp, none) => (pp, pl, none, none)
  | (pp, some pr) =>
      let r := pathplaneApply blake2b pp.base.toList pl k pr.toPathProbe kind src agent now
      (pp, r.1, r.2, some pr)

/-! ## What opens -/

/-- Everything `probeplane_open` can do: the probe opens under the pair key, which
spends the base key; it opens under the base key while that still opens frames, or
as the one notice that it opens ever after; or it is refused. -/
theorem probeplaneOpen_cases (unlock : Unlock) (pp : Probeplane) (data : Bytes) :
    (∃ pr, openPair unlock pp data = some pr ∧
        probeplaneOpen unlock pp data = (sawPair pp, some pr)) ∨
      (openPair unlock pp data = none ∧
        ((∃ pr, pathProbeParse unlock pp.magic pp.base.toList data = some pr ∧
            (pp.baseOk = true ∨ pr.type = .fresh) ∧
            probeplaneOpen unlock pp data = (pp, some pr)) ∨
          ((∀ pr, pathProbeParse unlock pp.magic pp.base.toList data = some pr →
              pp.baseOk = false ∧ pr.type ≠ .fresh) ∧
            probeplaneOpen unlock pp data = (pp, none)))) := by
  unfold probeplaneOpen
  cases hpair : openPair unlock pp data with
  | some pr => exact .inl ⟨pr, rfl, rfl⟩
  | none =>
      refine .inr ⟨rfl, ?_⟩
      dsimp only
      cases hbase : pathProbeParse unlock pp.magic pp.base.toList data with
      | none => exact .inr ⟨fun _ h => absurd h (by simp), rfl⟩
      | some pr =>
          dsimp only
          split_ifs with hok hfresh
          · exact .inl ⟨pr, rfl, .inl hok, rfl⟩
          · exact .inl ⟨pr, rfl, .inr hfresh, rfl⟩
          · refine .inr ⟨?_, rfl⟩
            intro pr' h
            obtain rfl : pr = pr' := Option.some.inj h
            exact ⟨by simpa using hok, hfresh⟩

/-- A probe that opened was read out of the datagram, under one key or the other. -/
theorem probeplaneOpen_eq_some {unlock : Unlock} {pp pp' : Probeplane} {data : Bytes}
    {pr : WireProbe} (h : probeplaneOpen unlock pp data = (pp', some pr)) :
    ∃ key, pathProbeParse unlock pp.magic key data = some pr := by
  rcases probeplaneOpen_cases unlock pp data with
    ⟨pr', hpair, hopen⟩ | ⟨-, ⟨pr', hbase, -, hopen⟩ | ⟨-, hopen⟩⟩
  · rw [hopen] at h
    obtain rfl : pr' = pr := Option.some.inj (congrArg Prod.snd h)
    unfold openPair at hpair
    split_ifs at hpair
    exact ⟨_, hpair⟩
  · rw [hopen] at h
    obtain rfl : pr' = pr := Option.some.inj (congrArg Prod.snd h)
    exact ⟨_, hbase⟩
  · rw [hopen] at h
    cases h

/-- A probe that is acted on opened, names this end, and is new to the window. -/
theorem recvProbe_eq_some {unlock : Unlock} {pp pp' : Probeplane} {mine data : Bytes}
    {pr : WireProbe} (h : recvProbe unlock pp mine data = (pp', some pr)) :
    ∃ pp₁, probeplaneOpen unlock pp data = (pp₁, some pr) ∧ cString pr.ufrag = cString mine ∧
      probeplaneFresh pp₁ pr = (pp', true) := by
  unfold recvProbe at h
  rcases hopen : probeplaneOpen unlock pp data with ⟨pp₁, _ | pr₁⟩
  · rw [hopen] at h
    cases h
  · rw [hopen] at h
    dsimp only at h
    by_cases hmine : cString pr₁.ufrag = cString mine
    · rw [if_neg (not_not.mpr hmine)] at h
      rcases hnew : probeplaneFresh pp₁ pr₁ with ⟨pp₂, _ | _⟩
      · rw [hnew] at h
        cases h
      · rw [hnew] at h
        obtain rfl : pp₂ = pp' := congrArg Prod.fst h
        obtain rfl : pr₁ = pr := Option.some.inj (congrArg Prod.snd h)
        exact ⟨pp₁, rfl, hmine, hnew⟩
    · rw [if_pos hmine] at h
      cases h

/-- All that a probe can change in the schedule: the window of the probes, and that the
base key is spent. -/
theorem recvProbe_frame (unlock : Unlock) (pp : Probeplane) (mine data : Bytes) :
    ∃ w ok, (recvProbe unlock pp mine data).1 = { pp with rx := w, baseOk := ok } ∧
      (ok = pp.baseOk ∨ ok = false) := by
  have hopen : ∃ ok, (probeplaneOpen unlock pp data).1 = { pp with baseOk := ok } ∧
      (ok = pp.baseOk ∨ ok = false) := by
    rcases probeplaneOpen_cases unlock pp data with ⟨pr, -, h⟩ | ⟨-, ⟨pr, -, -, h⟩ | ⟨-, h⟩⟩
    · rw [h]
      exact ⟨false, rfl, .inr rfl⟩
    · rw [h]
      exact ⟨pp.baseOk, rfl, .inl rfl⟩
    · rw [h]
      exact ⟨pp.baseOk, rfl, .inl rfl⟩
  obtain ⟨ok, hok, hwhich⟩ := hopen
  unfold recvProbe
  rcases hres : probeplaneOpen unlock pp data with ⟨pp₁, _ | pr⟩
  · rw [hres] at hok
    exact ⟨pp.rx, ok, hok, hwhich⟩
  · rw [hres] at hok
    have hpp₁ : pp₁ = { pp with baseOk := ok } := hok
    dsimp only
    split_ifs
    · exact ⟨pp.rx, ok, hok, hwhich⟩
    · have hnew : (probeplaneFresh pp₁ pr).1 =
          { pp with rx := (replayOk pp₁.rx pr.seq).1, baseOk := ok } := by
        rw [hpp₁]
        rfl
      rcases hres' : probeplaneFresh pp₁ pr with ⟨pp₂, _ | _⟩
      · rw [hres'] at hnew
        exact ⟨_, ok, hnew, hwhich⟩
      · rw [hres'] at hnew
        exact ⟨_, ok, hnew, hwhich⟩

/-- The same for a datagram of the stream. -/
theorem probeplaneUnwrap_frame (blake2b : Blake2b) (pp : Probeplane) (data : Bytes) :
    ∃ w ok, (probeplaneUnwrap blake2b pp data).1 = { pp with dataRx := w, baseOk := ok } ∧
      (ok = pp.baseOk ∨ ok = false) := by
  unfold probeplaneUnwrap
  split
  · exact ⟨_, false, rfl, .inr rfl⟩
  · split_ifs
    · exact ⟨pp.dataRx, pp.baseOk, rfl, .inl rfl⟩
    · split
      · exact ⟨pp.dataRx, pp.baseOk, rfl, .inl rfl⟩
      · exact ⟨_, pp.baseOk, rfl, .inl rfl⟩

end Paths
end Comrade
