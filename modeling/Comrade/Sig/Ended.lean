import Comrade.Sig.Cell

/-!
# The end of a session, as a client sees it

A client reads the host place of the cell from any replica, in any order.  A
tombstone there is believed once it has stood for `SIG_TOMB_SETTLE_MS` with no
host info read since (`sig_peer_ended`).  The code does not keep the order of
the reads: it keeps the time of the first tombstone and of the last host info,
and compares the two.

* `hostSlotRead` is one read of the host place.
* `hostHeard` is the statement that a read brings and `rdv_client_host_slot`
  does not answer with `-1`; a lagging copy brings none.
* `tombSeenMs_eq` and `infoSeenMs_eq` say what the two clocks hold after any reads.
* `sigPeerEnded_iff` turns the comparison of clocks back into the order of reads.
-/

namespace Comrade
namespace Sig

open Lib Rdv

/-- `SIG_TOMB_SETTLE_MS`. -/
def sigTombSettleMs : UInt64 := 4000

/-- The part of `struct sig` that a read of the host place touches; `seeded`
lists the payloads handed to `host_nodes_seed`, which pins the nodes they name. -/
structure SigReader where
  isHost : Bool
  sigKey : Bytes
  rc : Option RdvClient
  hval : Bytes
  hStale : Bool
  mineStored : Bool
  hcopy : Bytes
  hcopySeq : Int
  hSeq : Int
  getsOk : Nat
  lastGetMs : UInt64
  tombSeenMs : UInt64
  infoSeenMs : UInt64
  nextPutMs : UInt64
  seeded : List Bytes

/-- A client's signalling as it is opened. -/
def sigReaderInit (sigKey : Bytes) (rc : Option RdvClient) : SigReader where
  isHost := false
  sigKey := sigKey
  rc := rc
  hval := []
  hStale := false
  mineStored := false
  hcopy := []
  hcopySeq := -1
  hSeq := -1
  getsOk := 0
  lastGetMs := 0
  tombSeenMs := 0
  infoSeenMs := 0
  nextPutMs := 0
  seeded := []

/-- `sig_tomb_settled`; zero stands for "none seen". -/
def sigTombSettled (tombMs infoMs now : UInt64) : Bool :=
  if tombMs = 0 then false
  -- host info since the tombstone is a host still serving
  else if tombMs ≤ infoMs then false
  else decide (sigTombSettleMs ≤ now - tombMs)

/-- `sig_peer_ended`, where `now` is what `now_ms` reads. -/
def sigPeerEnded (s : SigReader) (now : UInt64) : Bool :=
  if s.isHost = true then false else sigTombSettled s.tombSeenMs s.infoSeenMs now

/-- The rest of `host_slot_read` for a client, once `rdv_client_host_slot` has
acted on the statement; `moved` is what it returned. -/
def hostSlotTake (s : SigReader) (m : RdvMsg) (seq : Int) (moved : Int) : SigReader :=
  let s := if seq > s.hSeq then { s with hSeq := seq } else s
  if m.kind = .tomb then
    if s.tombSeenMs = 0 then { s with tombSeenMs := s.lastGetMs } else s
  else
    { s with
      infoSeenMs := s.lastGetMs
      tombSeenMs := 0
      seeded := s.seeded ++ [m.payload]
      nextPutMs := if moved ≠ 0 then 0 else s.nextPutMs }

/-- `host_slot_read` at time `now`.  It returns 1 for a place that does not hold
a statement of a host, else 0. -/
def hostSlotRead (unlock : Unlock) (s : SigReader) (now : UInt64) (v : Bytes) (seq : Int) :
    SigReader × Int :=
  if v = [] then (s, 1)
  else
    match rdvOpen unlock s.sigKey v with
    | none => (s, 1)
    | some m =>
        if m.kind ≠ .hostinfo ∧ m.kind ≠ .tomb then (s, 1)
        else
          let s := { s with getsOk := s.getsOk + 1, lastGetMs := now }
          if s.isHost = true then
            let s := if v ≠ s.hval then { s with hStale := true } else { s with mineStored := true }
            (if seq > s.hSeq then { s with hSeq := seq } else s, 0)
          else
            match s.rc with
            | none => (s, 0)
            | some rc =>
                let s := if seq ≥ s.hcopySeq then { s with hcopy := v, hcopySeq := seq } else s
                let took := rdvClientHostSlot rc m seq
                let s := { s with rc := some took.1 }
                if took.2 < 0 then (s, 0) else (hostSlotTake s m seq took.2, 0)

/-! ## Reads of the cell -/

/-- A statement of a host, with the time of its read. -/
inductive HostHeard where
  | info (ms : UInt64)
  | tomb (ms : UInt64)
  deriving DecidableEq, Repr

/-- What happens to a client's signalling: a read of the host place, or
anything else that is done to its rendezvous. -/
inductive SigEvent where
  | read (v : Bytes) (seq : Int) (now : UInt64)
  | client (rc : Option RdvClient)

/-- The signalling after one event. -/
def sigStep (unlock : Unlock) (s : SigReader) : SigEvent → SigReader
  | .read v seq now => (hostSlotRead unlock s now v seq).1
  | .client rc => { s with rc := rc }

/-- What `rdv_client_host_slot` answers to a read, if it is asked. -/
def hostSlotAnswer (unlock : Unlock) (s : SigReader) (v : Bytes) (seq : Int) :
    Option (RdvMsg × Int) :=
  match rdvOpen unlock s.sigKey v, s.rc with
  | some m, some rc =>
      if v ≠ [] ∧ (m.kind = .hostinfo ∨ m.kind = .tomb)
        then some (m, (rdvClientHostSlot rc m seq).2) else none
  | _, _ => none

/-- The statement that an event brings, unless it was answered with `-1`. -/
def hostHeard (unlock : Unlock) (s : SigReader) : SigEvent → Option HostHeard
  | .read v seq now =>
      match hostSlotAnswer unlock s v seq with
      | none => none
      | some (m, moved) =>
          if moved = -1 then none
          else some (if m.kind = .tomb then .tomb now else .info now)
  | .client _ => none

/-- The statements heard over a run, oldest first. -/
def heard (unlock : Unlock) (s : SigReader) (events : List SigEvent) : List HostHeard :=
  observe (sigStep unlock) (hostHeard unlock) s events

/-- The times of the tombstones heard since the last host info, oldest first. -/
def tombsSince (said : List HostHeard) : List UInt64 :=
  said.foldl (fun tombs w => match w with
    | .info _ => []
    | .tomb ms => tombs ++ [ms]) []

/-- The time of the last host info heard. -/
def lastInfo (said : List HostHeard) : Option UInt64 :=
  said.foldl (fun last w => match w with
    | .info ms => some ms
    | .tomb _ => last) none

/-- The session has ended by the order of what was heard: a tombstone last, and
the first one since any host info has stood long enough. -/
def EndedInOrder (said : List HostHeard) (t : UInt64) : Prop :=
  (∃ ms, said.getLast? = some (.tomb ms)) ∧
    ∃ first, (tombsSince said).head? = some first ∧
      first.toNat + sigTombSettleMs.toNat ≤ t.toNat

/-- The same, where a tombstone read at time zero does not count, and one that
was read in the millisecond of the last host info never does. -/
def EndedByClocks (said : List HostHeard) (t : UInt64) : Prop :=
  (∃ ms, said.getLast? = some (.tomb ms)) ∧
    ∃ first, (tombsSince said).find? (· ≠ 0) = some first ∧
      (∀ info, lastInfo said = some info → info < first) ∧
      first.toNat + sigTombSettleMs.toNat ≤ t.toNat

/-! ## What one event does to the clocks -/

/-- The two clocks after a statement is heard. -/
def clocksAfter (clocks : UInt64 × UInt64) : Option HostHeard → UInt64 × UInt64
  | none => clocks
  | some (.tomb ms) => (if clocks.1 = 0 then ms else clocks.1, clocks.2)
  | some (.info ms) => (0, ms)

/-- The clocks of a client's signalling. -/
def SigReader.clocks (s : SigReader) : UInt64 × UInt64 := (s.tombSeenMs, s.infoSeenMs)

theorem hostSlotTake_clocks (s : SigReader) (m : RdvMsg) (seq moved : Int) :
    (hostSlotTake s m seq moved).clocks =
        clocksAfter s.clocks (some (if m.kind = .tomb then .tomb s.lastGetMs
          else .info s.lastGetMs)) ∧
      (hostSlotTake s m seq moved).isHost = s.isHost ∧
      (hostSlotTake s m seq moved).rc = s.rc := by
  unfold hostSlotTake SigReader.clocks
  by_cases hseq : seq > s.hSeq
  · rw [if_pos hseq]
    by_cases htomb : m.kind = .tomb
    · rw [if_pos htomb, if_pos htomb]
      dsimp only [clocksAfter]
      split_ifs <;> exact ⟨rfl, rfl, rfl⟩
    · rw [if_neg htomb, if_neg htomb]
      exact ⟨rfl, rfl, rfl⟩
  · rw [if_neg hseq]
    by_cases htomb : m.kind = .tomb
    · rw [if_pos htomb, if_pos htomb]
      dsimp only [clocksAfter]
      split_ifs <;> exact ⟨rfl, rfl, rfl⟩
    · rw [if_neg htomb, if_neg htomb]
      exact ⟨rfl, rfl, rfl⟩

/-- `rdv_client_host_slot` answers `-1` and leaves the rendezvous as it is, or
answers 0 or 1. -/
theorem rdvClientHostSlot_ret (c : RdvClient) (m : RdvMsg) (seq : Int) :
    rdvClientHostSlot c m seq = (c, -1) ∨ 0 ≤ (rdvClientHostSlot c m seq).2 := by
  have hcopy : (clientCopyActs c m seq).2 = false → (clientCopyActs c m seq).1 = c := by
    unfold clientCopyActs
    split_ifs <;> simp
  unfold rdvClientHostSlot
  by_cases hkind : m.kind ≠ .tomb ∧ m.kind ≠ .hostinfo
  · rw [if_pos hkind]
    exact .inr le_rfl
  · rw [if_neg hkind]
    by_cases hfrm : m.frm = rdvZero
    · rw [if_pos hfrm]
      exact .inr le_rfl
    · rw [if_neg hfrm]
      generalize clientCopyActs c m seq = copy at hcopy ⊢
      obtain ⟨c', acts⟩ := copy
      cases acts with
      | false =>
          obtain rfl : c' = c := hcopy rfl
          exact .inl rfl
      | true =>
          right
          dsimp only
          split_ifs <;> norm_num

/-- A read of the host place moves the clocks as what is heard says. -/
theorem sigStep_clocks (unlock : Unlock) {s : SigReader} (hclient : s.isHost = false)
    (e : SigEvent) :
    (sigStep unlock s e).clocks = clocksAfter s.clocks (hostHeard unlock s e) ∧
      (sigStep unlock s e).isHost = false := by
  cases e with
  | client rc => exact ⟨rfl, hclient⟩
  | read v seq now =>
      simp only [sigStep, hostHeard, hostSlotAnswer, hostSlotRead]
      by_cases hv : v = []
      · rw [if_pos hv]
        cases rdvOpen unlock s.sigKey v <;> cases s.rc <;> simp [hv, clocksAfter, hclient]
      · rw [if_neg hv]
        cases hopen : rdvOpen unlock s.sigKey v with
        | none => exact ⟨rfl, hclient⟩
        | some m =>
            dsimp only
            by_cases hkind : m.kind ≠ .hostinfo ∧ m.kind ≠ .tomb
            · rw [if_pos hkind]
              cases s.rc with
              | none => exact ⟨rfl, hclient⟩
              | some rc =>
                  dsimp only
                  rw [if_neg (by rintro ⟨-, hk⟩; exact hk.elim hkind.1 hkind.2)]
                  exact ⟨rfl, hclient⟩
            · have hplace : v ≠ [] ∧ (m.kind = .hostinfo ∨ m.kind = .tomb) := by
                refine ⟨hv, ?_⟩
                by_contra hnot
                exact hkind (not_or.mp hnot)
              rw [if_neg hkind, if_neg (by simp [hclient])]
              cases hrc : s.rc with
              | none => exact ⟨rfl, hclient⟩
              | some rc =>
                  dsimp only
                  rw [if_pos hplace]
                  dsimp only
                  rcases rdvClientHostSlot_ret rc m seq with hlag | hacts
                  · rw [hlag, if_pos (by norm_num), if_pos rfl]
                    split_ifs <;> exact ⟨rfl, hclient⟩
                  · have htaken : ¬(rdvClientHostSlot rc m seq).2 < 0 := by omega
                    have hanswer : (rdvClientHostSlot rc m seq).2 ≠ -1 := by omega
                    rw [if_neg htaken, if_neg hanswer]
                    by_cases hcopy : seq ≥ s.hcopySeq
                    · rw [if_pos hcopy]
                      obtain ⟨hclocks, hhost, -⟩ := hostSlotTake_clocks _ m seq _
                      exact ⟨hclocks, hhost.trans hclient⟩
                    · rw [if_neg hcopy]
                      obtain ⟨hclocks, hhost, -⟩ := hostSlotTake_clocks _ m seq _
                      exact ⟨hclocks, hhost.trans hclient⟩

/-! ## What the clocks hold after any reads -/

theorem tombsSince_append (said : List HostHeard) (w : HostHeard) :
    tombsSince (said ++ [w]) = match w with
      | .info _ => []
      | .tomb ms => tombsSince said ++ [ms] := by
  simp [tombsSince]

theorem lastInfo_append (said : List HostHeard) (w : HostHeard) :
    lastInfo (said ++ [w]) = match w with
      | .info ms => some ms
      | .tomb _ => lastInfo said := by
  simp [lastInfo]

/-- The clocks after what was heard: the first tombstone since the last host
info that was not read at time zero, and the last host info. -/
structure ClocksOf (s : SigReader) (said : List HostHeard) : Prop where
  client : s.isHost = false
  tomb : s.tombSeenMs = ((tombsSince said).find? (· ≠ 0)).getD 0
  info : s.infoSeenMs = (lastInfo said).getD 0

theorem ClocksOf.step (unlock : Unlock) {s : SigReader} {said : List HostHeard}
    (h : ClocksOf s said) (e : SigEvent) :
    ClocksOf (sigStep unlock s e) (said ++ (hostHeard unlock s e).toList) := by
  obtain ⟨hclocks, hhost⟩ := sigStep_clocks unlock h.client e
  obtain ⟨htomb, hinfo⟩ := Prod.mk.inj hclocks
  cases hheard : hostHeard unlock s e with
  | none =>
      rw [hheard] at htomb hinfo
      rw [Option.toList_none, List.append_nil]
      exact ⟨hhost, htomb.trans h.tomb, hinfo.trans h.info⟩
  | some w =>
      rw [hheard] at htomb hinfo
      rw [Option.toList_some]
      refine ⟨hhost, ?_, ?_⟩
      · rw [htomb, tombsSince_append]
        cases w with
        | info ms => rfl
        | tomb ms =>
            show (if s.tombSeenMs = 0 then ms else s.tombSeenMs) = _
            dsimp only
            rw [List.find?_append, h.tomb]
            -- the first one seen stays; a reading of zero leaves the place open
            cases hfirst : (tombsSince said).find? (· ≠ 0) with
            | none =>
                by_cases hms : ms = 0 <;> simp [hms]
            | some first =>
                have hne : first ≠ 0 := by simpa using List.find?_some hfirst
                simp [hne]
      · rw [hinfo, lastInfo_append]
        cases w with
        | info ms => rfl
        | tomb ms => exact h.info

theorem run_clocksOf (unlock : Unlock) (sigKey : Bytes) (rc : Option RdvClient)
    (events : List SigEvent) :
    ClocksOf (run (sigStep unlock) (sigReaderInit sigKey rc) events)
      (heard unlock (sigReaderInit sigKey rc) events) := by
  have hinit : ClocksOf (sigReaderInit sigKey rc) [] := ⟨rfl, rfl, rfl⟩
  have hrun := observe_invariant (I := ClocksOf) (G := fun _ _ => True)
    (fun s e said h _ => h.step unlock e) hinit
    (everyStep_of_mem (fun (_ : SigEvent) (_ : _ ∈ events) _ => trivial) _)
  rwa [List.nil_append] at hrun

/-- Everything heard was heard at the time of a read. -/
theorem mem_heard_read {unlock : Unlock} {s : SigReader} {events : List SigEvent}
    {w : HostHeard} (hw : w ∈ heard unlock s events) :
    ∃ v seq now, SigEvent.read v seq now ∈ events ∧ (w = .tomb now ∨ w = .info now) := by
  induction events generalizing s with
  | nil => cases hw
  | cons e events ih =>
      unfold heard at hw
      rw [observe_cons, List.mem_append] at hw
      rcases hw with hw | hw
      · cases e with
        | client rc => cases hw
        | read v seq now =>
            refine ⟨v, seq, now, List.mem_cons_self, ?_⟩
            rw [Option.mem_toList] at hw
            simp only [hostHeard] at hw
            split at hw
            · cases hw
            · split_ifs at hw
              · exact .inl (Option.some.inj hw).symm
              · exact .inr (Option.some.inj hw).symm
      · obtain ⟨v, seq, now, hmem, hsaid⟩ := ih hw
        exact ⟨v, seq, now, List.mem_cons_of_mem e hmem, hsaid⟩

/-- A tombstone that counts was heard. -/
theorem tomb_mem_of_tombsSince {said : List HostHeard} {ms : UInt64}
    (h : ms ∈ tombsSince said) : HostHeard.tomb ms ∈ said := by
  induction said using List.reverseRecOn with
  | nil => cases h
  | append_singleton said w ih =>
      rw [tombsSince_append] at h
      rw [List.mem_append, List.mem_singleton]
      cases w with
      | info _ => cases h
      | tomb t =>
          rcases List.mem_append.mp h with h | h
          · exact .inl (ih h)
          · exact .inr (by rw [List.mem_singleton.mp h])

/-- Where a tombstone counts, a tombstone was heard last. -/
theorem getLast_of_tombsSince {said : List HostHeard} {ms : UInt64}
    (h : ms ∈ tombsSince said) : ∃ t, said.getLast? = some (.tomb t) := by
  cases hlast : said.getLast? with
  | none =>
      rw [List.getLast?_eq_none_iff] at hlast
      rw [hlast] at h
      cases h
  | some w =>
      obtain ⟨init, rfl⟩ := List.getLast?_eq_some_iff.mp hlast
      rw [tombsSince_append] at h
      cases w with
      | info _ => cases h
      | tomb t => exact ⟨t, rfl⟩

/-! ## The verdict -/

/-- A tombstone settles by its own time, its own age and the last host info. -/
theorem sigTombSettled_iff {tomb info now : UInt64} (hle : tomb ≤ now) :
    sigTombSettled tomb info now = true ↔
      tomb ≠ 0 ∧ info < tomb ∧ tomb.toNat + sigTombSettleMs.toNat ≤ now.toNat := by
  unfold sigTombSettled
  have hsub : (now - tomb).toNat = now.toNat - tomb.toNat := UInt64.toNat_sub_of_le _ _ hle
  have hle' : tomb.toNat ≤ now.toNat := UInt64.le_iff_toNat_le.mp hle
  by_cases hzero : tomb = 0
  · rw [if_pos hzero]
    simp [hzero]
  · rw [if_neg hzero]
    by_cases hinfo : tomb ≤ info
    · rw [if_pos hinfo]
      simp [UInt64.not_lt.mpr hinfo]
    · rw [if_neg hinfo, decide_eq_true_iff, UInt64.le_iff_toNat_le, hsub]
      constructor
      · intro h
        exact ⟨hzero, UInt64.not_le.mp hinfo, by omega⟩
      · rintro ⟨-, -, h⟩
        omega

/-- A copy answered with `-1` leaves the rendezvous as it is. -/
theorem hostSlotRead_lagging_rc {unlock : Unlock} {s : SigReader} {v : Bytes} {seq : Int}
    {m : RdvMsg} (hclient : s.isHost = false)
    (h : hostSlotAnswer unlock s v seq = some (m, -1)) (now : UInt64) :
    (hostSlotRead unlock s now v seq).1.rc = s.rc := by
  unfold hostSlotAnswer at h
  cases hopen : rdvOpen unlock s.sigKey v with
  | none =>
      rw [hopen] at h
      cases h
  | some m' =>
      cases hrc : s.rc with
      | none =>
          rw [hopen, hrc] at h
          cases h
      | some rc =>
          rw [hopen, hrc] at h
          dsimp only at h
          split_ifs at h with hplace
          obtain ⟨rfl, hlag⟩ := Prod.mk.inj (Option.some.inj h)
          have hkind : ¬(m'.kind ≠ .hostinfo ∧ m'.kind ≠ .tomb) := by
            rintro ⟨hinfo, htomb⟩
            exact hplace.2.elim hinfo htomb
          rcases rdvClientHostSlot_ret rc m' seq with hret | hret
          · unfold hostSlotRead
            rw [if_neg hplace.1, hopen]
            dsimp only
            rw [if_neg hkind, if_neg (by simp [hclient]), hrc]
            dsimp only
            rw [hret, if_pos (by norm_num)]
          · omega

/-- After any reads by a client, and whatever else is done to its rendezvous in
between, `sig_peer_ended` holds at `t` exactly when a tombstone was heard last
and the first one since the last host info was read in a later millisecond than
that host info and has stood for `SIG_TOMB_SETTLE_MS`; and a copy answered with
`-1` moves neither the rendezvous nor a clock nor the verdict.  The clock does
not go back: no read is later than `t`. -/
theorem sigPeerEnded_iff (unlock : Unlock) (sigKey : Bytes) (rc : Option RdvClient)
    (events : List SigEvent) (t : UInt64)
    (hclock : ∀ v seq now, SigEvent.read v seq now ∈ events → now ≤ t) :
    let s := run (sigStep unlock) (sigReaderInit sigKey rc) events
    (sigPeerEnded s t = true ↔
      EndedByClocks (heard unlock (sigReaderInit sigKey rc) events) t) ∧
    ∀ v seq now m, hostSlotAnswer unlock s v seq = some (m, -1) →
      (sigStep unlock s (.read v seq now)).rc = s.rc ∧
      (sigStep unlock s (.read v seq now)).clocks = s.clocks ∧
      ∀ t', sigPeerEnded (sigStep unlock s (.read v seq now)) t' = sigPeerEnded s t' := by
  intro s
  have hclocks : ClocksOf s _ := run_clocksOf unlock sigKey rc events
  refine ⟨?_, ?_⟩
  · have hread : ∀ ms, ms ∈ tombsSince (heard unlock (sigReaderInit sigKey rc) events) →
        ms ≤ t := by
      intro ms hms
      obtain ⟨v, seq, now, hmem, hsaid⟩ := mem_heard_read (tomb_mem_of_tombsSince hms)
      rcases hsaid with hsaid | hsaid
      · rw [HostHeard.tomb.inj hsaid]
        exact hclock v seq now hmem
      · cases hsaid
    generalize heard unlock (sigReaderInit sigKey rc) events = said at hclocks hread
    unfold sigPeerEnded EndedByClocks
    rw [if_neg (by simp [hclocks.client]), hclocks.tomb, hclocks.info]
    cases hfirst : (tombsSince said).find? (· ≠ 0) with
    | none =>
        refine iff_of_false (by simp [sigTombSettled]) ?_
        rintro ⟨-, first, hnone, -⟩
        cases hnone
    | some first =>
        have hmem := List.mem_of_find?_eq_some hfirst
        have hne : first ≠ 0 := by simpa using List.find?_some hfirst
        rw [Option.getD_some, sigTombSettled_iff (hread first hmem)]
        constructor
        · rintro ⟨-, hinfo, hage⟩
          refine ⟨getLast_of_tombsSince hmem, first, rfl, ?_, hage⟩
          intro info hlast
          rwa [hlast, Option.getD_some] at hinfo
        · rintro ⟨-, first', hfirst', hinfo, hage⟩
          obtain rfl := Option.some.inj hfirst'
          refine ⟨hne, ?_, hage⟩
          cases hlast : lastInfo said with
          | none => exact UInt64.pos_iff_ne_zero.mpr hne
          | some info => exact hinfo info hlast
  · intro v seq now m hlag
    have hheard : hostHeard unlock s (.read v seq now) = none := by
      simp only [hostHeard, hlag, if_true]
    obtain ⟨hsame, hhost⟩ := sigStep_clocks unlock hclocks.client (.read v seq now)
    rw [hheard] at hsame
    obtain ⟨htomb, hinfo⟩ := Prod.mk.inj hsame
    refine ⟨hostSlotRead_lagging_rc hclocks.client hlag now, hsame, ?_⟩
    intro t'
    unfold sigPeerEnded
    rw [hhost, hclocks.client, htomb, hinfo]

/-- A statement of the host `2, 2, ..` sealed under the key of `clearUnlock`. -/
def sealedPlace (kind : RdvKind) : Bytes :=
  List.replicate 24 0 ++ List.replicate 16 1 ++
    (rdvEncode (testMsg kind (Vector.replicate 8 2) rdvZero 1 0) rdvMaxMsg).getD []

/-- A client that reads host info, and a tombstone `gap` milliseconds later, and
then a replica that fell behind. -/
def tombAfter (gap : UInt64) : List SigEvent :=
  [.read (sealedPlace .hostinfo) 1 10000, .read (sealedPlace .tomb) 2 (10000 + gap),
   .read (sealedPlace .hostinfo) 1 12000]

/-- The client of these reads, with its id. -/
def tombReader : SigReader :=
  sigReaderInit (List.replicate 16 1) (some (rdvClientInit (Vector.replicate 8 1)))

theorem sigPeerEnded_tombAfter :
    sigPeerEnded (run (sigStep clearUnlock) tombReader (tombAfter 1)) 14001 = true ∧
    EndedByClocks (heard clearUnlock tombReader (tombAfter 1)) 14001 := by
  have hended : sigPeerEnded (run (sigStep clearUnlock) tombReader (tombAfter 1)) 14001 = true := by
    decide
  refine ⟨hended, (sigPeerEnded_iff clearUnlock _ _ (tombAfter 1) 14001 ?_).1.mp hended⟩
  intro v seq now hmem
  simp only [tombAfter, List.mem_cons, SigEvent.read.injEq, List.not_mem_nil, or_false] at hmem
  rcases hmem with ⟨-, -, rfl⟩ | ⟨-, -, rfl⟩ | ⟨-, -, rfl⟩ <;> decide

/-- Host info and a tombstone in one millisecond: the tombstone was read last,
but it never settles. -/
theorem sigPeerEnded_sameMs :
    ¬(sigPeerEnded (run (sigStep clearUnlock) tombReader (tombAfter 0)) 60000 = true ↔
      EndedInOrder (heard clearUnlock tombReader (tombAfter 0)) 60000) := by
  have hheard : heard clearUnlock tombReader (tombAfter 0) = [.info 10000, .tomb 10000] := by
    decide
  have hverdict :
      sigPeerEnded (run (sigStep clearUnlock) tombReader (tombAfter 0)) 60000 = false := by
    decide
  rw [hheard, hverdict]
  intro h
  have hended : EndedInOrder [.info 10000, .tomb 10000] 60000 :=
    ⟨⟨10000, rfl⟩, 10000, rfl, by decide⟩
  exact absurd (h.mpr hended) (by decide)

end Sig
end Comrade
