import Comrade.Bep44.BanCall
import Comrade.Lib.Run

/-!
# When a storing node fails closed

`ban_ok` shuts everybody out for a while when it finds no entry for a new source.  It looks
for one among the free entries, the bans that have run out and, of the trackers, those of the
source's own family.

* `RoomInv` is what the scan has found of these.
* `Shut` is the state of the table in which a query shuts everybody out
  (`banOk_blocks_iff`).
* `failsClosed_iff`: the node fails closed only with a table full of active bans exactly
  where no query finds the table shut to its family with a tracker of the other in it.
-/

namespace Comrade
namespace Bep44

open Lib

/-! ## What the scan finds -/

/-- The entry is a ban that has run out. -/
def ranOut (now : Nat) (b : B44Ban) : Bool :=
  decide (b.bannedUntil ≠ 0) && decide (b.bannedUntil ≤ now)

/-- The entry is free, or a ban that has run out. -/
def reusable (now : Nat) (b : B44Ban) : Bool := b.family == none || ranOut now b

/-- The entry counts a source of the family. -/
def tracker (f : Family) (b : B44Ban) : Bool := b.family == some f && b.bannedUntil == 0

/-- What the scan has found once it has passed the entries in `seen`, if it goes on. -/
structure RoomInv (ban : Fin b44BanMax → B44Ban) (f : Family) (now : Nat)
    (seen : List (Fin b44BanMax)) (s : BanScan) : Prop where
  unread : ∀ j, j ∉ seen → s.ban j = ban j
  kept : (∀ i ∈ seen, ranOut now (ban i) = false) → s.ban = ban
  slot : s.hit = false → s.slot = seen.find? fun i => reusable now (ban i)
  lru : s.hit = false → (s.lru = none ↔ ∀ i ∈ seen, tracker f (ban i) = false)

section Scan

variable {ban : Fin b44BanMax → B44Ban} {f : Family} {ab base : Bytes} {now : Nat}
  {seen : List (Fin b44BanMax)} {s : BanScan} {i : Fin b44BanMax}

theorem RoomInv.kept_more (h : RoomInv ban f now seen s)
    (hnone : ∀ j ∈ seen ++ [i], ranOut now (ban j) = false) : s.ban = ban :=
  h.kept fun j hj => hnone j (List.mem_append_left _ hj)

/-- An entry that is of no use to the source. -/
theorem RoomInv.pass (h : RoomInv ban f now seen s) (hr : reusable now (ban i) = false)
    (ht : tracker f (ban i) = false) : RoomInv ban f now (seen ++ [i]) s := by
  refine ⟨?_, h.kept_more, ?_, ?_⟩
  · intro j hj
    exact h.unread j fun hmem => hj (List.mem_append_left _ hmem)
  · intro hhit
    rw [h.slot hhit, List.find?_append]
    simp [hr]
  · intro hhit
    rw [h.lru hhit]
    simp [List.mem_append, or_imp, forall_and, ht]

/-- An entry that can be used again: it is the first, or one was found before. -/
theorem RoomInv.found (h : RoomInv ban f now seen s) (hr : reusable now (ban i) = true)
    (ht : tracker f (ban i) = false) {table : Fin b44BanMax → B44Ban}
    (htable : ∀ j, j ≠ i → table j = s.ban j)
    (hsame : ranOut now (ban i) = false → table = s.ban) :
    RoomInv ban f now (seen ++ [i])
      { s with ban := table, slot := s.slot.or (some i) } := by
  refine ⟨?_, ?_, ?_, ?_⟩
  · intro j hj
    rw [List.mem_append, List.mem_singleton, not_or] at hj
    exact (htable j hj.2).trans (h.unread j hj.1)
  · intro hnone
    exact (hsame (hnone i (List.mem_append_right _ (List.mem_singleton_self i)))).trans
      (h.kept_more hnone)
  · intro hhit
    show s.slot.or (some i) = _
    rw [h.slot hhit, List.find?_append]
    simp [hr]
  · intro hhit
    show s.lru = none ↔ _
    rw [h.lru hhit]
    simp [List.mem_append, or_imp, forall_and, ht]

theorem banScanStep_roomInv (h : RoomInv ban f now seen s) (hi : i ∉ seen) :
    RoomInv ban f now (seen ++ [i]) (banScanStep f ab base now s i) := by
  unfold banScanStep
  have hread := h.unread i hi
  simp only [hread]
  by_cases hhit : s.hit = true
  · rw [if_pos hhit]
    refine ⟨fun j hj => h.unread j fun hmem => hj (List.mem_append_left _ hmem), h.kept_more,
      ?_, ?_⟩
    · intro hno
      rw [hhit] at hno
      cases hno
    · intro hno
      rw [hhit] at hno
      cases hno
  rw [if_neg hhit]
  by_cases hfree : (ban i).family = none
  · rw [if_pos hfree]
    exact h.found (by simp [reusable, hfree]) (by simp [tracker, hfree]) (fun _ _ => rfl)
      fun _ => rfl
  rw [if_neg hfree]
  by_cases hexp : (ban i).bannedUntil ≠ 0 ∧ (ban i).bannedUntil ≤ now
  · rw [if_pos hexp]
    have hran : ranOut now (ban i) = true := by simpa [ranOut] using hexp
    refine h.found (by simp [reusable, hran]) (by simp [tracker, hexp.1]) ?_ ?_
    · intro j hj
      exact Function.update_of_ne hj ..
    · intro hnot
      rw [hran] at hnot
      cases hnot
  rw [if_neg hexp]
  have hr : reusable now (ban i) = false := by
    unfold reusable ranOut
    simp only [Bool.or_eq_false_iff, beq_eq_false_iff_ne, Bool.and_eq_false_iff,
      decide_eq_false_iff_not]
    exact ⟨hfree, by tauto⟩
  by_cases hfam : (ban i).family ≠ some f
  · rw [if_pos hfam]
    exact h.pass hr (by simp [tracker, hfam])
  rw [if_neg hfam]
  by_cases hin : (ban i).bannedUntil > now ∧ netContains f (ban i) ab = true
  · rw [if_pos hin]
    refine ⟨fun j hj => h.unread j fun hmem => hj (List.mem_append_left _ hmem), h.kept_more,
      ?_, ?_⟩
    · intro hno
      cases hno
    · intro hno
      cases hno
  rw [if_neg hin]
  by_cases hzero : (ban i).bannedUntil = 0
  · -- a tracker of the family: there is one to reuse from here on
    rw [if_pos hzero]
    have ht : tracker f (ban i) = true := by
      simp [tracker, hzero, not_not.mp hfam]
    refine ⟨fun j hj => h.unread j fun hmem => hj (List.mem_append_left _ hmem), h.kept_more,
      ?_, ?_⟩
    · intro hno
      show s.slot = _
      rw [h.slot hno, List.find?_append]
      simp [hr]
    · intro _
      constructor
      · intro hnone
        exfalso
        revert hnone
        simp only
        split
        · exact Option.some_ne_none i
        · split
          · exact Option.some_ne_none i
          · exact Option.some_ne_none _
      · intro hall
        have := hall i (List.mem_append_right _ (List.mem_singleton_self i))
        rw [ht] at this
        cases this
  · rw [if_neg hzero]
    exact h.pass hr (by simp [tracker, hzero])

end Scan

/-- The whole scan. -/
theorem banScan_roomInv (l : BanList) (f : Family) (ab : Bytes) (now : Nat) :
    RoomInv l.ban f now (List.finRange b44BanMax) (banScan l f ab now) := by
  have hfold : ∀ (rest seen : List (Fin b44BanMax)) (s : BanScan), (seen ++ rest).Nodup →
      RoomInv l.ban f now seen s →
      RoomInv l.ban f now (seen ++ rest)
        (rest.foldl (banScanStep f ab (netMask f ab (banBaseBits f)) now) s) := by
    intro rest
    induction rest with
    | nil =>
        intro seen s _ h
        rw [List.append_nil]
        exact h
    | cons i rest ih =>
        intro seen s hnodup h
        have hi : i ∉ seen := by
          intro hmem
          exact (List.nodup_append.mp hnodup).2.2 i hmem i (List.mem_cons_self ..) rfl
        rw [List.append_cons] at hnodup ⊢
        exact ih _ _ hnodup (banScanStep_roomInv h hi)
  apply hfold (List.finRange b44BanMax) [] _ (List.nodup_finRange _)
  exact ⟨fun _ _ => rfl, fun _ => rfl, fun _ => rfl, fun _ => by simp⟩

/-- Where nothing can be used again the scan has changed nothing. -/
theorem RoomInv.untouched {ban : Fin b44BanMax → B44Ban} {f : Family} {now : Nat} {s : BanScan}
    (h : RoomInv ban f now (List.finRange b44BanMax) s) (hno : s.hit = false)
    (hslot : s.slot = none) : s.ban = ban := by
  rw [h.slot hno, List.find?_eq_none] at hslot
  apply h.kept
  intro i hi
  have hr := hslot i hi
  unfold reusable at hr
  rw [Bool.or_eq_true, not_or, Bool.not_eq_true, Bool.not_eq_true] at hr
  exact hr.2

/-! ## Shutting everybody out -/

/-- The entry is a ban in force, of either family. -/
def banInForce (now : Nat) (b : B44Ban) : Prop := b.family ≠ none ∧ now < b.bannedUntil

/-- The table is shut to the source: the limit is on and the node is not closed already, no
ban in force covers the source, and no entry is free, a ban that has run out, or a tracker of
the source's family. -/
def Shut (l : BanList) (addr : Sockaddr) (now : Nat) : Prop :=
  l.rlBanMs ≠ 0 ∧ l.blockAllUntil ≤ now ∧ ∃ f ab, addrBytes addr = some (f, ab) ∧
    ∀ i, reusable now (l.ban i) = false ∧ tracker f (l.ban i) = false ∧
      (banActive f now (l.ban i) = true → netContains f (l.ban i) ab = false)

theorem banEscalate_blockAllUntil (l : BanList) (seed : Fin b44BanMax) (f : Family) (now : Nat) :
    (banEscalate l seed f now).blockAllUntil = l.blockAllUntil := by
  unfold banEscalate
  induction (b44Ladder f).zipIdx.drop 1 generalizing l with
  | nil => rfl
  | cons level levels ih =>
      rw [List.foldl_cons, ih]
      unfold banWiden
      simp only
      split
      · rfl
      · split <;> rfl

theorem banCount_blockAllUntil (l : BanList) (f : Family) (now : Nat) (t : Fin b44BanMax) :
    (banCount l f now t).1.blockAllUntil = l.blockAllUntil := by
  rw [banCount_eq]
  split
  · rfl
  · exact banEscalate_blockAllUntil ..

/-- A call sets the end of the closed time exactly where the table is shut to its source,
and leaves the table as it is then. -/
theorem banOk_blocks_iff (l : BanList) (addr : Sockaddr) (now : Nat) :
    ((banOk l addr now).1.blockAllUntil ≠ l.blockAllUntil ↔ Shut l addr now) ∧
      (Shut l addr now → (banOk l addr now).1.ban = l.ban) := by
  unfold Shut
  by_cases hms : l.rlBanMs = 0
  · simp [banOk, hms]
  by_cases hall : l.blockAllUntil > now
  · simp [banOk, hms, hall]
  cases hsrc : addrBytes addr with
  | none => simp [banOk, hms, hall, hsrc]
  | some src =>
      obtain ⟨f, ab⟩ := src
      rw [banOk_eq_banAnswer hms hall hsrc]
      have hscan := banScan_scanInv l f ab now
      have hroom := banScan_roomInv l f ab now
      generalize banScan l f ab now = s at hscan hroom
      -- the end is set on the one path with nothing found
      have hset : ((banAnswer l f ab now s).1.blockAllUntil ≠ l.blockAllUntil ↔
          s.hit = false ∧ s.slot = none ∧ s.lru = none) ∧
          (s.hit = false ∧ s.slot = none ∧ s.lru = none →
            (banAnswer l f ab now s).1.ban = s.ban) := by
        have hlater : now + b44FailclosedMs ≠ l.blockAllUntil := by
          unfold b44FailclosedMs
          omega
        unfold banAnswer
        by_cases hhit : s.hit = true
        · simp [hhit]
        rw [if_neg hhit]
        cases htrack : s.track with
        | some t =>
            have hlru : s.hit = false ∧ s.slot = none ∧ s.lru = none → False := by
              rintro ⟨hno, hslot, hlru⟩
              obtain ⟨hfam, hzero, -⟩ := hscan.track t htrack
              rw [hroom.untouched hno hslot] at hfam hzero
              have := (hroom.lru hno).mp hlru t (List.mem_finRange t)
              simp [tracker, hfam, hzero] at this
            simp only [banCount_blockAllUntil, ne_eq, not_true_eq_false, false_iff]
            exact ⟨hlru, fun h => (hlru h).elim⟩
        | none =>
            cases hslot : s.slot with
            | some t => simp
            | none =>
                cases hlru : s.lru with
                | some t => simp
                | none => simpa [hhit] using hlater
      have hshut : (s.hit = false ∧ s.slot = none ∧ s.lru = none) ↔
          ∀ i, reusable now (l.ban i) = false ∧ tracker f (l.ban i) = false ∧
            (banActive f now (l.ban i) = true → netContains f (l.ban i) ab = false) := by
        constructor
        · rintro ⟨hno, hslot, hlru⟩ i
          refine ⟨?_, (hroom.lru hno).mp hlru i (List.mem_finRange i),
            hscan.missed hno i (List.mem_finRange i)⟩
          rw [hroom.slot hno, List.find?_eq_none] at hslot
          simpa using hslot i (List.mem_finRange i)
        · intro hnone
          have hno : s.hit = false := by
            rw [← Bool.not_eq_true]
            intro hhit
            obtain ⟨i, hact, hcont⟩ := hscan.hit hhit
            rw [(hnone i).2.2 hact] at hcont
            cases hcont
          refine ⟨hno, ?_, (hroom.lru hno).mpr fun i _ => (hnone i).2.1⟩
          rw [hroom.slot hno, List.find?_eq_none]
          intro i _
          simp [(hnone i).1]
      have hexists : (l.rlBanMs ≠ 0 ∧ l.blockAllUntil ≤ now ∧
          ∃ g bytes, some (f, ab) = some (g, bytes) ∧
            ∀ i, reusable now (l.ban i) = false ∧ tracker g (l.ban i) = false ∧
              (banActive g now (l.ban i) = true → netContains g (l.ban i) bytes = false)) ↔
          ∀ i, reusable now (l.ban i) = false ∧ tracker f (l.ban i) = false ∧
            (banActive f now (l.ban i) = true → netContains f (l.ban i) ab = false) := by
        constructor
        · rintro ⟨-, -, g, bytes, heq, h⟩
          cases heq
          exact h
        · intro h
          exact ⟨hms, not_lt.mp hall, f, ab, rfl, h⟩
      rw [hexists, ← hshut]
      refine ⟨hset.1, ?_⟩
      intro h
      rw [hset.2 h]
      exact hroom.untouched h.1 h.2.1

/-- A table that is shut to a source has only bans in force, and trackers of the other
family. -/
theorem Shut.entry {l : BanList} {addr : Sockaddr} {now : Nat} (h : Shut l addr now)
    (i : Fin b44BanMax) : banInForce now (l.ban i) ↔ (l.ban i).bannedUntil ≠ 0 := by
  obtain ⟨-, -, f, ab, -, hentry⟩ := h
  have hr := (hentry i).1
  unfold reusable ranOut at hr
  rw [Bool.or_eq_false_iff, Bool.and_eq_false_iff, beq_eq_false_iff_ne] at hr
  unfold banInForce
  constructor
  · rintro ⟨-, hlt⟩
    omega
  · intro hne
    refine ⟨hr.1, ?_⟩
    rcases hr.2 with h0 | hle
    · exact absurd hne (by simpa using h0)
    · simpa using hle

/-- A call with its time. -/
def banFeed (l : BanList) (q : Sockaddr × Nat) : BanList := (banOk l q.1 q.2).1

/-- The end of the closed time is set only with a table full of bans in force. -/
def FailsClosedFull (l : BanList) (q : Sockaddr × Nat) : Prop :=
  (banFeed l q).blockAllUntil ≠ l.blockAllUntil → ∀ i, banInForce q.2 ((banFeed l q).ban i)

/-- Where the table is shut to the source, no entry is a tracker of the other family. -/
def ShutByBans (l : BanList) (q : Sockaddr × Nat) : Prop :=
  Shut l q.1 q.2 → ∀ i, (l.ban i).bannedUntil ≠ 0

theorem failsClosedFull_iff (l : BanList) (q : Sockaddr × Nat) :
    FailsClosedFull l q ↔ ShutByBans l q := by
  obtain ⟨hset, hban⟩ := banOk_blocks_iff l q.1 q.2
  unfold FailsClosedFull ShutByBans banFeed
  rw [hset]
  apply forall_congr'
  intro hshut
  apply forall_congr'
  intro i
  rw [hban hshut]
  exact hshut.entry i

/-- A ban list as it starts. -/
def banStart (rlRate : Int) (rlBanMs : Nat) : BanList where
  ban := fun _ => banZero
  blockAllUntil := 0
  rlRate := rlRate
  rlBanMs := rlBanMs

/-- Over every sequence of sources of both families and of times, the node fails closed only
with a table full of bans in force, if and only if no query finds the table shut to its
family while an entry counts a source of the other. -/
theorem failsClosed_iff (rlRate : Int) (rlBanMs : Nat) (queries : List (Sockaddr × Nat)) :
    EveryStep banFeed FailsClosedFull (banStart rlRate rlBanMs) queries ↔
      EveryStep banFeed ShutByBans (banStart rlRate rlBanMs) queries :=
  EveryStep.congr
    (everyStep_of_mem (fun q _ l => failsClosedFull_iff l q) (banStart rlRate rlBanMs))

/-! ## A table full of trackers -/

/-- The address of the `k`-th source of IPv6. -/
def sixAddr (k : Nat) : Vector UInt8 16 :=
  Vector.ofFn fun i => if i.val = 15 then UInt8.ofNat k else 0x20

/-- The entry that counts it after one query at the beginning. -/
def sixTracker (k : Nat) : B44Ban where
  net := netStored (netMask .inet6 (sixAddr k).toList (banBaseBits .inet6))
  family := some .inet6
  bits := banBaseBits .inet6
  weight := 0
  count := 1
  windowMs := 0 + b44BanWindowMs
  bannedUntil := 0

/-- The list after the first `k` sources have asked once. -/
def sixFilled (k : Nat) : BanList :=
  { banStart 40 300000 with ban := fun j => if j.val < k then sixTracker j.val else banZero }

theorem sixAddr_take (k : Nat) :
    (sixAddr k).toList.take (famLen .inet6) = (sixAddr k).toList :=
  List.take_of_length_le (by simp [famLen])

theorem sixTracker_net (k : Nat) :
    (sixTracker k).net.take (famLen .inet6) = (sixAddr k).toList := by
  show (netStored (netMask .inet6 (sixAddr k).toList (banBaseBits .inet6))).take
    (famLen .inet6) = _
  rw [netMask_base, sixAddr_take, netStored, List.take_append_of_le_length (by simp [famLen]),
    sixAddr_take]

theorem sixAddr_injective {j k : Nat} (hj : j < b44BanMax) (hk : k < b44BanMax)
    (h : (sixAddr j).toList = (sixAddr k).toList) : j = k := by
  have hvec := Vector.toList_inj.mp h
  have hlast := congrArg (fun v : Vector UInt8 16 => v[15].toNat) hvec
  unfold b44BanMax at hj hk
  simp only [sixAddr, Vector.getElem_ofFn, if_true, UInt8.toNat_ofNat'] at hlast
  omega

/-- The next source is counted in the next entry. -/
theorem banFeed_sixFilled {k : Nat} (hk : k < b44BanMax) :
    banFeed (sixFilled k) (.inet6 (sixAddr k) 6881, 0) = sixFilled (k + 1) := by
  have hbanned : ∀ j, ((sixFilled k).ban j).bannedUntil = 0 := by
    intro j
    show (if j.val < k then sixTracker j.val else banZero).bannedUntil = 0
    split <;> rfl
  have hok : banFeed (sixFilled k) (.inet6 (sixAddr k) 6881, 0) =
      (banAnswer (sixFilled k) .inet6 (sixAddr k).toList 0
        (banScan (sixFilled k) .inet6 (sixAddr k).toList 0)).1 :=
    congrArg Prod.fst (banOk_eq_banAnswer (Nat.succ_ne_zero 299999) (Nat.lt_irrefl 0) rfl)
  rw [hok]
  have hscan := banScan_scanInv (sixFilled k) .inet6 (sixAddr k).toList 0
  have hroom := banScan_roomInv (sixFilled k) .inet6 (sixAddr k).toList 0
  generalize banScan (sixFilled k) .inet6 (sixAddr k).toList 0 = s at hscan hroom
  -- no ban is in force and none has run out; the first free entry is the `k`-th
  have hhit : s.hit = false := by
    rw [← Bool.not_eq_true]
    intro hhit
    obtain ⟨i, hact, -⟩ := hscan.hit hhit
    have := (banActive_iff.mp hact).2
    rw [hbanned i] at this
    omega
  have hkept : s.ban = (sixFilled k).ban := hroom.kept fun i _ => by simp [ranOut, hbanned i]
  have hslot : s.slot = some ⟨k, hk⟩ := by
    rw [hroom.slot hhit]
    show (List.finRange b44BanMax).find? (fun i => reusable 0 ((sixFilled k).ban i)) = _
    rw [← Fin.find?_eq_find?_finRange, Fin.find?_eq_some_iff]
    constructor
    · simp [reusable, sixFilled, banZero]
    · intro j hj
      have hjk : j.val < k := hj
      simp [reusable, ranOut, sixFilled, hjk, sixTracker]
  have htrack : s.track = none := by
    rw [Option.eq_none_iff_forall_ne_some]
    intro i hi
    obtain ⟨hfam, -, -, hnet⟩ := hscan.track i hi
    rw [hkept] at hfam hnet
    by_cases hik : i.val < k
    · have hentry : (sixFilled k).ban i = sixTracker i.val := if_pos hik
      rw [hentry, sixTracker_net, netMask_base, sixAddr_take] at hnet
      have heq := sixAddr_injective i.isLt hk hnet
      omega
    · have hentry : (sixFilled k).ban i = banZero := if_neg hik
      rw [hentry] at hfam
      cases hfam
  have hnext : Function.update (sixFilled k).ban ⟨k, hk⟩ (sixTracker k) =
      (sixFilled (k + 1)).ban := by
    funext j
    by_cases hj : j = ⟨k, hk⟩
    · subst hj
      rw [Function.update_self]
      exact (if_pos (Nat.lt_succ_self k)).symm
    · rw [Function.update_of_ne hj]
      have hne : j.val ≠ k := fun heq => hj (Fin.ext heq)
      have hiff : j.val < k ↔ j.val < k + 1 := by omega
      simp only [sixFilled, hiff]
  unfold banAnswer
  simp only [hhit, htrack, hslot, hkept, Bool.false_eq_true, if_false, Option.some_or]
  show { sixFilled k with ban := Function.update (sixFilled k).ban ⟨k, hk⟩ (sixTracker k) } = _
  rw [hnext]
  rfl

/-- As many sources of IPv6 as the table has entries, each asking once. -/
def sixQueries : List (Sockaddr × Nat) :=
  (List.range b44BanMax).map fun k => (.inet6 (sixAddr k) 6881, 0)

theorem run_sixQueries : run banFeed (banStart 40 300000) sixQueries = sixFilled b44BanMax := by
  have hprefix : ∀ n, n ≤ b44BanMax → run banFeed (banStart 40 300000)
      ((List.range n).map fun k => (.inet6 (sixAddr k) 6881, 0)) = sixFilled n := by
    intro n
    induction n with
    | zero =>
        intro _
        unfold sixFilled
        simp [banStart]
    | succ n ih =>
        intro hn
        rw [List.range_succ, List.map_append, List.map_singleton, run_concat,
          ih (Nat.le_of_succ_le hn)]
        exact banFeed_sixFilled hn
  exact hprefix b44BanMax le_rfl

/-- A query of IPv4 then shuts everybody out, and nobody is banned. -/
theorem failsClosed_sixQueries :
    ¬EveryStep banFeed FailsClosedFull (banStart 40 300000)
      (sixQueries ++ [(.inet (Vector.replicate 4 8) 6881, 0)]) := by
  intro h
  have hlast := h.last
  rw [run_sixQueries, failsClosedFull_iff] at hlast
  have hentry : ∀ i, (sixFilled b44BanMax).ban i = sixTracker i.val := fun i => if_pos i.isLt
  have hshut : Shut (sixFilled b44BanMax) (.inet (Vector.replicate 4 8) 6881) 0 := by
    refine ⟨by decide, by decide, .inet, _, rfl, ?_⟩
    intro i
    rw [hentry i]
    exact ⟨rfl, rfl, fun hact => nomatch hact⟩
  have hfirst := hlast hshut ⟨0, by decide⟩
  rw [hentry] at hfirst
  exact hfirst rfl

end Bep44
end Comrade
