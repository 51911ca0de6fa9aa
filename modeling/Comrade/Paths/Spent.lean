import Comrade.Paths.PlaneRun
import Comrade.Paths.Replay

/-!
# After the base key is spent

The first frame that opens under the pair key spends the base key: from then on a
holder of the invitation can have one thing opened, the notice that the session is
gone.  Here two runs of one key schedule are compared, one that hears datagrams
which open only under the spent base key and one that never hears them, by what each
accepts under the pair key afterwards.

* `arrive_quiet`: a base-key datagram that moves nothing.
* `spent_base_moves_nothing_iff`: the two runs agree exactly where every notice among
  the base-key datagrams is one that the window of the probes refuses already.  A
  notice that the window takes moves it, and with it the fate of the pair's own
  probes.
-/

namespace Comrade
namespace Paths

open Lib Sig

/-! ## Two runs -/

/-- A datagram from a carrier: a probe, handed to `pathplane_recv` of a plane that
serves the identity `mine`, or one of the stream's own, handed to
`probeplane_unwrap`. -/
inductive Datagram where
  | probe (mine data : Bytes)
  | stream (data : Bytes)

section TwoRuns

variable (unlock : Unlock) (blake2b : Blake2b)

/-- The key schedule after a datagram. -/
def arrive (pp : Probeplane) : Datagram → Probeplane
  | .probe mine data => (recvProbe unlock pp mine data).1
  | .stream data => (probeplaneUnwrap blake2b pp data).1

/-- What is accepted of a datagram that opens under the pair key. -/
def acceptedPair (pp : Probeplane) : Datagram → Option (WireProbe ⊕ Bytes)
  | .probe mine data =>
      if (openPair unlock pp data).isSome = true then
        (recvProbe unlock pp mine data).2.map Sum.inl
      else none
  | .stream data =>
      if (unwrapPair blake2b pp data).isSome = true then
        (probeplaneUnwrap blake2b pp data).2.map Sum.inr
      else none

/-- The datagram opens under the base key and not under the pair key. -/
def BaseOnly (pp : Probeplane) : Datagram → Prop
  | .probe _ data => openPair unlock pp data = none ∧
      (pathProbeParse unlock pp.magic pp.base.toList data).isSome = true
  | .stream data => unwrapPair blake2b pp data = none ∧
      (dataauthOpen blake2b pp.base data).isSome = true

/-- A notice under the base key that names this end carries a count which the window
of the probes refuses: none, one that was taken, or one from before the window. -/
def Quiet (pp : Probeplane) : Datagram → Prop
  | .probe mine data => ∀ pr, pathProbeParse unlock pp.magic pp.base.toList data = some pr →
      pr.type = .fresh → cString pr.ufrag = cString mine → replayRefuses pp.rx pr.seq
  | .stream _ => True

variable {unlock blake2b}

theorem replayOk_of_refuses {w : ReplayWin} {seq : UInt64} (h : replayRefuses w seq) :
    replayOk w seq = (w, false) := by
  rcases replayOk_cases w seq with ⟨-, hsame⟩ | ⟨hnot, -⟩
  · exact Prod.ext hsame h
  · exact absurd h hnot

/-- What the spent base key can still do: nothing, or a notice that names this end
is put to the window of the probes. -/
theorem arrive_baseOnly {pp : Probeplane} (hspent : pp.baseOk = false) {d : Datagram}
    (hd : BaseOnly unlock blake2b pp d) :
    (Quiet unlock pp d ∧ arrive unlock blake2b pp d = pp) ∨
      ∃ mine data pr, d = .probe mine data ∧
        pathProbeParse unlock pp.magic pp.base.toList data = some pr ∧ pr.type = .fresh ∧
        cString pr.ufrag = cString mine ∧ ¬replayRefuses pp.rx pr.seq ∧
        arrive unlock blake2b pp d = { pp with rx := (replayOk pp.rx pr.seq).1 } := by
  cases d with
  | stream data =>
      left
      refine ⟨trivial, ?_⟩
      show (probeplaneUnwrap blake2b pp data).1 = pp
      rw [probeplaneUnwrap, hd.1]
      dsimp only
      rw [if_pos hspent]
  | probe mine data =>
      show (_ ∧ (recvProbe unlock pp mine data).1 = pp) ∨ _
      rcases probeplaneOpen_cases unlock pp data with
        ⟨pr, hpair, -⟩ | ⟨-, ⟨pr, hbase, hwhich, hopen⟩ | ⟨hnone, hopen⟩⟩
      · rw [hd.1] at hpair
        cases hpair
      · have hfresh : pr.type = .fresh := by
          rcases hwhich with hok | hfresh
          · rw [hspent] at hok
            cases hok
          · exact hfresh
        by_cases hmine : cString pr.ufrag = cString mine
        · by_cases hrefuse : replayRefuses pp.rx pr.seq
          · left
            constructor
            · intro pr' hpr' _ _
              rw [hbase] at hpr'
              obtain rfl := Option.some.inj hpr'
              exact hrefuse
            · rw [recvProbe, hopen]
              dsimp only
              rw [if_neg (not_not.mpr hmine), probeplaneFresh, replayOk_of_refuses hrefuse]
          · right
            refine ⟨mine, data, pr, rfl, hbase, hfresh, hmine, hrefuse, ?_⟩
            show (recvProbe unlock pp mine data).1 = _
            have htaken : (replayOk pp.rx pr.seq).2 = true := by
              unfold replayRefuses at hrefuse
              simpa using hrefuse
            rw [recvProbe, hopen]
            dsimp only
            rw [if_neg (not_not.mpr hmine), probeplaneFresh, htaken]
        · left
          constructor
          · intro pr' hpr' _ hmine'
            rw [hbase] at hpr'
            obtain rfl := Option.some.inj hpr'
            exact absurd hmine' hmine
          · rw [recvProbe, hopen]
            dsimp only
            rw [if_pos hmine]
      · left
        constructor
        · intro pr hpr hfresh _
          exact absurd hfresh (hnone pr hpr).2
        · rw [recvProbe, hopen]

/-- The other key of a schedule and its window do not matter to what opens. -/
theorem baseOnly_rx {pp : Probeplane} (w : ReplayWin) (d : Datagram) :
    BaseOnly unlock blake2b { pp with rx := w } d ↔ BaseOnly unlock blake2b pp d := by
  cases d <;> exact Iff.rfl

/-- Base-key datagrams change the window of the probes and nothing else, and what it
refused it still refuses. -/
theorem run_baseOnly {pp : Probeplane} (hspent : pp.baseOk = false) {ds : List Datagram}
    (hds : ∀ d ∈ ds, BaseOnly unlock blake2b pp d) :
    ∃ w, run (arrive unlock blake2b) pp ds = { pp with rx := w } ∧
      ∀ seq, replayRefuses pp.rx seq → replayRefuses w seq := by
  induction ds generalizing pp with
  | nil => exact ⟨pp.rx, rfl, fun _ h => h⟩
  | cons d ds ih =>
      rw [List.forall_mem_cons] at hds
      rw [run_cons]
      rcases arrive_baseOnly hspent hds.1 with ⟨-, hsame⟩ | ⟨_, _, pr, -, -, -, -, -, hmoved⟩
      · rw [hsame]
        exact ih hspent hds.2
      · rw [hmoved]
        have hspent' : ({ pp with rx := (replayOk pp.rx pr.seq).1 } : Probeplane).baseOk = false :=
          hspent
        obtain ⟨w, hw, hkeep⟩ := ih hspent' fun d hd => (baseOnly_rx _ d).mpr (hds.2 d hd)
        refine ⟨w, hw, ?_⟩
        intro seq hseq
        exact hkeep seq (replayOk_refused_forever hseq pr.seq)

/-- Where every notice is refused nothing moves. -/
theorem run_quiet {pp : Probeplane} (hspent : pp.baseOk = false) {ds : List Datagram}
    (hds : ∀ d ∈ ds, BaseOnly unlock blake2b pp d) (hquiet : ∀ d ∈ ds, Quiet unlock pp d) :
    run (arrive unlock blake2b) pp ds = pp := by
  induction ds with
  | nil => rfl
  | cons d ds ih =>
      rw [List.forall_mem_cons] at hds hquiet
      rw [run_cons]
      rcases arrive_baseOnly hspent hds.1 with
        ⟨-, hsame⟩ | ⟨mine, data, pr, rfl, hparse, hfresh, hmine, htaken, -⟩
      · rw [hsame]
        exact ih hds.2 hquiet.2
      · exact absurd (hquiet.1 pr hparse hfresh hmine) htaken

/-- Either every notice is refused, or one is taken, and the window refuses its count
from then on. -/
theorem run_baseOnly_cases {pp : Probeplane} (hspent : pp.baseOk = false) {ds : List Datagram}
    (hds : ∀ d ∈ ds, BaseOnly unlock blake2b pp d) :
    (∀ d ∈ ds, Quiet unlock pp d) ∨
      ∃ data pr w, pathProbeParse unlock pp.magic pp.base.toList data = some pr ∧
        ¬replayRefuses pp.rx pr.seq ∧ replayRefuses w pr.seq ∧
        run (arrive unlock blake2b) pp ds = { pp with rx := w } := by
  induction ds with
  | nil => exact .inl fun _ h => absurd h List.not_mem_nil
  | cons d ds ih =>
      rw [List.forall_mem_cons] at hds
      rw [run_cons]
      rcases arrive_baseOnly hspent hds.1 with
        ⟨hquiet, hsame⟩ | ⟨_, data, pr, -, hparse, -, -, htaken, hmoved⟩
      · rw [hsame]
        rcases ih hds.2 with hall | hsome
        · exact .inl (List.forall_mem_cons.mpr ⟨hquiet, hall⟩)
        · exact .inr hsome
      · rw [hmoved]
        have hspent' : ({ pp with rx := (replayOk pp.rx pr.seq).1 } : Probeplane).baseOk = false :=
          hspent
        obtain ⟨w, hw, hkeep⟩ := run_baseOnly hspent' fun d hd =>
          (baseOnly_rx _ d).mpr (hds.2 d hd)
        exact .inr ⟨data, pr, w, hparse, htaken,
          hkeep pr.seq (replayOk_refuses_taken pp.rx pr.seq), hw⟩

theorem arrive_pairReady (pp : Probeplane) (d : Datagram) :
    (arrive unlock blake2b pp d).pairReady = pp.pairReady := by
  cases d with
  | probe mine data =>
      obtain ⟨w, ok, hframe, -⟩ := recvProbe_frame unlock pp mine data
      show (recvProbe unlock pp mine data).1.pairReady = pp.pairReady
      rw [hframe]
  | stream data =>
      obtain ⟨w, ok, hframe, -⟩ := probeplaneUnwrap_frame blake2b pp data
      show (probeplaneUnwrap blake2b pp data).1.pairReady = pp.pairReady
      rw [hframe]

/-- Without a pair key nothing is accepted under one. -/
theorem observe_acceptedPair_of_not_ready {pp : Probeplane} (h : pp.pairReady = false)
    (later : List Datagram) :
    observe (arrive unlock blake2b) (acceptedPair unlock blake2b) pp later = [] := by
  induction later generalizing pp with
  | nil => rfl
  | cons d later ih =>
      have hnone : acceptedPair unlock blake2b pp d = none := by
        cases d <;> simp [acceptedPair, openPair, unwrapPair, h]
      have hready : (arrive unlock blake2b pp d).pairReady = false := by
        rw [← h]
        exact arrive_pairReady pp d
      rw [observe_cons, hnone, ih hready]
      rfl

/-- A probe under the pair key that names this end is accepted where the window takes
its count. -/
theorem acceptedPair_probe {pp : Probeplane} {mine data : Bytes} {pr : WireProbe}
    (hpair : openPair unlock pp data = some pr) (hmine : cString pr.ufrag = cString mine) :
    (replayRefuses pp.rx pr.seq → acceptedPair unlock blake2b pp (.probe mine data) = none) ∧
      (¬replayRefuses pp.rx pr.seq →
        acceptedPair unlock blake2b pp (.probe mine data) = some (.inl pr)) := by
  have hrecv : (recvProbe unlock pp mine data).2 =
      if (replayOk pp.rx pr.seq).2 = true then some pr else none := by
    rw [recvProbe, probeplaneOpen, hpair]
    dsimp only
    rw [if_neg (not_not.mpr hmine)]
    have hfresh : probeplaneFresh (sawPair pp) pr =
        ({ sawPair pp with rx := (replayOk pp.rx pr.seq).1 }, (replayOk pp.rx pr.seq).2) := rfl
    rw [hfresh]
    cases (replayOk pp.rx pr.seq).2 with
    | false => rfl
    | true => rfl
  unfold replayRefuses
  simp only [acceptedPair, hpair, hrecv, Option.isSome_some]
  cases (replayOk pp.rx pr.seq).2 <;> simp

/-- A pair-key probe with any count, for the identity of a probe that was read. -/
theorem exists_pair_probe {lock : Lock} (haead : Aead lock unlock)
    (hlock : ∀ key plain, ∃ nonce : SealNonce, (lock key nonce.toList plain).isSome = true)
    {pp : Probeplane} (hready : pp.pairReady = true) {ufrag : Bytes}
    (hu : ufrag.length ≤ probeUfragMax) (seq : UInt64) :
    ∃ data pr, openPair unlock pp data = some pr ∧ pr.seq = seq ∧
      cString pr.ufrag = cString ufrag := by
  let made : WireProbe := { probeBare .ping 0 with seq := seq, ufrag := cString ufrag }
  have hlen : made.ufrag.length ≤ probeUfragMax :=
    (List.takeWhile_prefix _).length_le.trans hu
  obtain ⟨nonce, hsome⟩ := hlock pp.pair.toList (probePlain made)
  obtain ⟨⟨mac, cipher⟩, hmade⟩ := Option.isSome_iff_exists.mp hsome
  have hself : ({ made with ufrag := cString made.ufrag } : WireProbe) = made := by
    show ({ made with ufrag := cString (cString ufrag) } : WireProbe) = made
    rw [cString_cString]
  have hbuild : pathProbeBuild lock (some nonce) probeMax pp.magic pp.pair.toList made =
      some (bePut 4 pp.magic.toNat ++ (nonce.toList ++ mac ++ cipher)) := by
    have hroom := length_probePlain_le hlen
    have hcut : (cString made.ufrag).length ≤ probeUfragMax :=
      (List.takeWhile_prefix _).length_le.trans hlen
    have hseal : msgSeal lock (some nonce) (probeMax - 4) pp.pair.toList (probePlain made) =
        some (nonce.toList ++ mac ++ cipher) := by
      unfold msgSeal
      rw [if_neg (by rw [probeMax]; omega)]
      dsimp only
      rw [hmade]
    unfold pathProbeBuild
    dsimp only
    rw [if_neg (by omega), hself, hseal]
    rfl
  have hparse := pathProbeParse_build haead hbuild
  rw [hself] at hparse
  refine ⟨bePut 4 pp.magic.toNat ++ (nonce.toList ++ mac ++ cipher), made.carried, ?_, ?_, ?_⟩
  · rw [openPair, if_pos hready]
    exact hparse
  · rfl
  · show cString (cString ufrag) = cString ufrag
    exact cString_cString ufrag

/-- A spent base key moves nothing, that is, what is accepted under the pair key after
any datagrams which open only under the base key is what it would have been without
them, exactly where the window of the probes refuses every notice among them (or there
is no pair key to accept anything under). -/
theorem spent_base_moves_nothing_iff {lock : Lock} (haead : Aead lock unlock)
    (hlock : ∀ key plain, ∃ nonce : SealNonce, (lock key nonce.toList plain).isSome = true)
    (pp : Probeplane) (hspent : pp.baseOk = false) (ds : List Datagram)
    (hds : ∀ d ∈ ds, BaseOnly unlock blake2b pp d) :
    (∀ later : List Datagram,
      observe (arrive unlock blake2b) (acceptedPair unlock blake2b)
          (run (arrive unlock blake2b) pp ds) later =
        observe (arrive unlock blake2b) (acceptedPair unlock blake2b) pp later) ↔
      (pp.pairReady = true → ∀ d ∈ ds, Quiet unlock pp d) := by
  constructor
  · intro hsame hready
    rcases run_baseOnly_cases hspent hds with
      hquiet | ⟨data, pr, w, hparse, htaken, hrefused, hrun⟩
    · exact hquiet
    · -- the pair's own probe with the count of the notice tells the two runs apart
      exfalso
      obtain ⟨data', pr', hpair, hseq, hufrag⟩ :=
        exists_pair_probe haead hlock hready (pathProbeParse_ufrag_le hparse) pr.seq
      have hwith : openPair unlock { pp with rx := w } data' = some pr' := hpair
      have hafter := hsame [.probe pr.ufrag data']
      rw [hrun] at hafter
      simp only [observe_cons, observe_nil, List.append_nil] at hafter
      rw [← hseq] at htaken hrefused
      rw [(acceptedPair_probe hpair hufrag).2 htaken,
        (acceptedPair_probe hwith hufrag).1 hrefused] at hafter
      cases hafter
  · intro hquiet later
    by_cases hready : pp.pairReady = true
    · rw [run_quiet hspent hds (hquiet hready)]
    · have hready' : pp.pairReady = false := by simpa using hready
      obtain ⟨w, hw, -⟩ := run_baseOnly hspent hds
      rw [hw, observe_acceptedPair_of_not_ready hready',
        observe_acceptedPair_of_not_ready (show ({ pp with rx := w } : Probeplane).pairReady = false
          from hready')]

end TwoRuns

/-! ## A notice that moves the window -/

/-- A connection that bound a pair key and saw the first frame under it. -/
def spentPlane : Probeplane :=
  sawPair (probeplaneBind turnedHash (probeplaneInit 7 (Vector.replicate 32 1) 0)
    (Vector.replicate 32 2) (Vector.replicate 32 3))

/-- A probe to the identity `a` under a key, with a count. -/
def testProbe (key : Key) (type : ProbeType) (seq : UInt64) : Bytes :=
  (pathProbeBuild tagLock (some (Vector.replicate 24 0)) probeMax 7 key.toList
    { probeBare type 0 with seq := seq, ufrag := [ch 'a'] }).getD []

/-- The notice that the session is gone, under the base key. -/
def testNotice (seq : UInt64) : Datagram :=
  .probe [ch 'a'] (testProbe spentPlane.base .fresh seq)

/-- A notice without a count moves nothing. -/
theorem spent_base_moves_nothing_zero :
    BaseOnly tagUnlock turnedHash spentPlane (testNotice 0) ∧ ∀ later : List Datagram,
      observe (arrive tagUnlock turnedHash) (acceptedPair tagUnlock turnedHash)
          (run (arrive tagUnlock turnedHash) spentPlane [testNotice 0]) later =
        observe (arrive tagUnlock turnedHash) (acceptedPair tagUnlock turnedHash) spentPlane
          later := by
  have hbase : BaseOnly tagUnlock turnedHash spentPlane (testNotice 0) :=
    ⟨Option.isNone_iff_eq_none.mp (by decide), by decide⟩
  refine ⟨hbase, (spent_base_moves_nothing_iff tagAead
    (fun _ _ => ⟨Vector.replicate 24 0, rfl⟩) spentPlane rfl [testNotice 0] ?_).mpr ?_⟩
  · intro d hd
    rw [List.mem_singleton.mp hd]
    exact hbase
  · intro _ d hd
    rw [List.mem_singleton.mp hd]
    intro pr hpr _ _
    have hseq : (pathProbeParse tagUnlock spentPlane.magic spentPlane.base.toList
        (testProbe spentPlane.base .fresh 0)).map WireProbe.seq = some 0 := by decide
    rw [hpr] at hseq
    rw [replayRefuses, Option.some.inj hseq]
    decide

set_option maxRecDepth 4000

/-- A notice with the highest count of all, from anyone with the invitation: the pair's
own ping, count 5, is not accepted any more. -/
theorem spent_base_moves_window :
    ¬∀ (lock : Lock) (unlock : Unlock) (blake2b : Blake2b), Aead lock unlock →
      ∀ (pp : Probeplane) (ds later : List Datagram), pp.baseOk = false →
        (∀ d ∈ ds, BaseOnly unlock blake2b pp d) →
        observe (arrive unlock blake2b) (acceptedPair unlock blake2b)
            (run (arrive unlock blake2b) pp ds) later =
          observe (arrive unlock blake2b) (acceptedPair unlock blake2b) pp later := by
  intro h
  have hsame := h tagLock tagUnlock turnedHash tagAead spentPlane [testNotice (2 ^ 64 - 1)]
    [.probe [ch 'a'] (testProbe spentPlane.pair .ping 5)] rfl (by
      intro d hd
      rw [List.mem_singleton.mp hd]
      exact ⟨Option.isNone_iff_eq_none.mp (by decide), by decide⟩)
  have hlen := congrArg List.length hsame
  exact absurd hlen (by decide)

end Paths
end Comrade
