import Comrade.Bep44.BanWiden

/-!
# One call of `ban_ok`

Most calls leave the bans as they are and only reclaim expired entries or count a
source; the others make one base ban and widen it.

* `banScan_scanInv` is the scan over the entries.
* `Idle` is what a call of the first kind may do, `BaseBan` what one of the second does
  before it widens.
* `banOk_cases` says that there is no third.
-/

namespace Comrade
namespace Bep44

open Lib

/-! ## The scan -/

/-- The scan of `ban_ok`. -/
def banScan (l : BanList) (f : Family) (ab : Bytes) (now : Nat) : BanScan :=
  (List.finRange b44BanMax).foldl (banScanStep f ab (netMask f ab (banBaseBits f)) now)
    { ban := l.ban, track := none, slot := none, lru := none, hit := false }

/-- The entry counts the source `base` of the family. -/
def Tracks (f : Family) (base : Bytes) (b : B44Ban) : Prop :=
  b.family = some f ∧ b.bannedUntil = 0 ∧ b.bits = banBaseBits f ∧ b.net.take (famLen f) = base

/-- What the scan knows once it has passed the entries in `seen`. -/
structure ScanInv (ban : Fin b44BanMax → B44Ban) (f : Family) (ab base : Bytes) (now : Nat)
    (seen : List (Fin b44BanMax)) (s : BanScan) : Prop where
  bans : ∀ i, s.ban i = ban i ∨ (s.ban i = banZero ∧ (ban i).bannedUntil ≤ now)
  hit : s.hit = true → ∃ i, banActive f now (ban i) = true ∧ netContains f (ban i) ab = true
  missed : s.hit = false → ∀ i ∈ seen, banActive f now (ban i) = true →
    netContains f (ban i) ab = false
  track : ∀ i, s.track = some i → Tracks f base (s.ban i)
  slot : ∀ i, s.slot = some i → (s.ban i).family = none
  lru : ∀ i, s.lru = some i → (s.ban i).bannedUntil = 0

theorem slot_or {o : Option (Fin b44BanMax)} {i j : Fin b44BanMax}
    (h : o.or (some i) = some j) : o = some j ∨ j = i := by
  cases o with
  | none => exact .inr (Option.some.inj h).symm
  | some k => exact .inl h

section Scan

variable {ban : Fin b44BanMax → B44Ban} {f : Family} {ab base : Bytes} {now : Nat}
  {seen : List (Fin b44BanMax)} {s : BanScan} {i : Fin b44BanMax}

/-- An entry that is no ban in force around the address can be passed over. -/
theorem ScanInv.pass (h : ScanInv ban f ab base now seen s)
    (hi : banActive f now (ban i) = true → netContains f (ban i) ab = false)
    (hhit : s.hit = false) : ∀ j ∈ seen ++ [i], banActive f now (ban j) = true →
      netContains f (ban j) ab = false := by
  intro j hj hact
  rw [List.mem_append, List.mem_singleton] at hj
  rcases hj with hj | rfl
  · exact h.missed hhit j hj hact
  · exact hi hact

/-- A ban in force is not reclaimed. -/
theorem ScanInv.same (h : ScanInv ban f ab base now seen s) {g : Family}
    (hact : banActive g now (ban i) = true) : s.ban i = ban i := by
  rcases h.bans i with hsame | ⟨-, hexp⟩
  · exact hsame
  · have hlt := (banActive_iff.mp hact).2
    omega

/-- An expired entry is cleared, and free from there on. -/
theorem ScanInv.reclaim (h : ScanInv ban f ab base now seen s)
    (hexp : (s.ban i).bannedUntil ≠ 0 ∧ (s.ban i).bannedUntil ≤ now) :
    ScanInv ban f ab base now (seen ++ [i])
      { s with ban := Function.update s.ban i banZero, slot := s.slot.or (some i) } := by
  have hother : ∀ j, j ≠ i → Function.update s.ban i banZero j = s.ban j :=
    fun j hj => Function.update_of_ne hj _ _
  have hself : Function.update s.ban i banZero i = banZero := Function.update_self _ _ _
  constructor <;> dsimp only
  · intro j
    by_cases hj : j = i
    · subst hj
      refine .inr ⟨hself, ?_⟩
      rcases h.bans j with hsame | ⟨-, hold⟩
      · exact hsame ▸ hexp.2
      · exact hold
    · rw [hother j hj]
      exact h.bans j
  · exact h.hit
  · intro hhit
    apply h.pass _ hhit
    intro hact
    rw [h.same hact] at hexp
    have hlt := (banActive_iff.mp hact).2
    omega
  · intro j hj
    have hjt := h.track j hj
    have hji : j ≠ i := by
      rintro rfl
      exact hexp.1 hjt.2.1
    rw [hother j hji]
    exact hjt
  · intro j hj
    by_cases hji : j = i
    · rw [hji, hself]
      rfl
    · rw [hother j hji]
      exact h.slot j ((slot_or hj).resolve_right hji)
  · intro j hj
    by_cases hji : j = i
    · rw [hji, hself]
      rfl
    · rw [hother j hji]
      exact h.lru j hj

theorem banScanStep_scanInv (h : ScanInv ban f ab base now seen s) (i : Fin b44BanMax) :
    ScanInv ban f ab base now (seen ++ [i]) (banScanStep f ab base now s i) := by
  unfold banScanStep
  dsimp only
  by_cases hhit : s.hit = true
  · rw [if_pos hhit]
    refine ⟨h.bans, h.hit, ?_, h.track, h.slot, h.lru⟩
    intro hno
    rw [hhit] at hno
    cases hno
  by_cases hfree : (s.ban i).family = none
  · rw [if_neg hhit, if_pos hfree]
    refine ⟨h.bans, h.hit, h.pass ?_, h.track, ?_, h.lru⟩
    · intro hact
      rw [h.same hact, (banActive_iff.mp hact).1] at hfree
      cases hfree
    · intro j hj
      rcases slot_or hj with hslot | rfl
      · exact h.slot j hslot
      · exact hfree
  by_cases hexp : (s.ban i).bannedUntil ≠ 0 ∧ (s.ban i).bannedUntil ≤ now
  · rw [if_neg hhit, if_neg hfree, if_pos hexp]
    exact h.reclaim hexp
  by_cases hfam : (s.ban i).family ≠ some f
  · rw [if_neg hhit, if_neg hfree, if_neg hexp, if_pos hfam]
    refine ⟨h.bans, h.hit, h.pass ?_, h.track, h.slot, h.lru⟩
    intro hact
    rw [h.same hact] at hfam
    exact absurd (banActive_iff.mp hact).1 hfam
  by_cases hin : (s.ban i).bannedUntil > now ∧ netContains f (s.ban i) ab = true
  · rw [if_neg hhit, if_neg hfree, if_neg hexp, if_neg hfam, if_pos hin]
    refine ⟨h.bans, ?_, (fun hno => by cases hno), h.track, h.slot, h.lru⟩
    intro _
    have hact : banActive f now (s.ban i) = true := banActive_iff.mpr ⟨not_not.mp hfam, hin.1⟩
    rcases h.bans i with hsame | ⟨hzero, -⟩
    · rw [hsame] at hin hact
      exact ⟨i, hact, hin.2⟩
    · rw [hzero] at hact
      cases hact
  -- what is left is not around the address
  have hout : banActive f now (ban i) = true → netContains f (ban i) ab = false := by
    intro hact
    rw [h.same hact] at hin
    by_contra hcont
    exact hin ⟨(banActive_iff.mp hact).2, by simpa using hcont⟩
  by_cases hzero : (s.ban i).bannedUntil = 0
  · rw [if_neg hhit, if_neg hfree, if_neg hexp, if_neg hfam, if_neg hin, if_pos hzero]
    refine ⟨h.bans, h.hit, h.pass hout, ?_, h.slot, ?_⟩
    · intro j hj
      dsimp only at hj ⊢
      split_ifs at hj with hbase
      · obtain rfl : i = j := Option.some.inj hj
        exact ⟨not_not.mp hfam, hzero, hbase.1, hbase.2⟩
      · exact h.track j hj
    · intro j hj
      dsimp only at hj ⊢
      cases hlru : s.lru with
      | none =>
          rw [hlru] at hj
          obtain rfl : i = j := Option.some.inj hj
          exact hzero
      | some k =>
          rw [hlru] at hj
          dsimp only at hj
          split_ifs at hj
          · obtain rfl : i = j := Option.some.inj hj
            exact hzero
          · obtain rfl : k = j := Option.some.inj hj
            exact h.lru k hlru
  · rw [if_neg hhit, if_neg hfree, if_neg hexp, if_neg hfam, if_neg hin, if_neg hzero]
    exact ⟨h.bans, h.hit, h.pass hout, h.track, h.slot, h.lru⟩

end Scan

/-- The whole scan. -/
theorem banScan_scanInv (l : BanList) (f : Family) (ab : Bytes) (now : Nat) :
    ScanInv l.ban f ab (netMask f ab (banBaseBits f)) now (List.finRange b44BanMax)
      (banScan l f ab now) := by
  have hfold : ∀ (rest seen : List (Fin b44BanMax)) (s : BanScan),
      ScanInv l.ban f ab (netMask f ab (banBaseBits f)) now seen s →
      ScanInv l.ban f ab (netMask f ab (banBaseBits f)) now (seen ++ rest)
        (rest.foldl (banScanStep f ab (netMask f ab (banBaseBits f)) now) s) := by
    intro rest
    induction rest with
    | nil =>
        intro seen s h
        rw [List.append_nil]
        exact h
    | cons i rest ih =>
        intro seen s h
        rw [List.append_cons]
        exact ih _ _ (banScanStep_scanInv h i)
  apply hfold (List.finRange b44BanMax) []
  refine ⟨fun i => .inl rfl, ?_, ?_, ?_, ?_, ?_⟩
  · intro hno
    cases hno
  · intro _ i hi
    cases hi
  · intro i hi
    cases hi
  · intro i hi
    cases hi
  · intro i hi
    cases hi

/-! ## Calls that ban nobody -/

/-- The bans in force stay as they are; an entry that changes is no ban. -/
structure Idle (now : Nat) (l l' : BanList) : Prop where
  keep : ∀ g i, banActive g now (l.ban i) = true ∨ banActive g now (l'.ban i) = true →
    l'.ban i = l.ban i
  shape : ∀ i, l'.ban i = l.ban i ∨ ((l'.ban i).net.length = 16 ∧ (l'.ban i).bannedUntil = 0 ∧
    ∀ g, (l'.ban i).family = some g → (l'.ban i).bits ∈ b44Ladder g ∧
      netMask g (l'.ban i).net (l'.ban i).bits = (l'.ban i).net.take (famLen g))
  limits : l'.rlBanMs = l.rlBanMs ∧ l'.rlRate = l.rlRate

theorem Idle.refl (now : Nat) (l : BanList) : Idle now l l :=
  ⟨fun _ _ _ => rfl, fun _ => .inl rfl, rfl, rfl⟩

theorem Idle.trans {now : Nat} {l l' l'' : BanList} (h : Idle now l l') (h' : Idle now l' l'') :
    Idle now l l'' := by
  constructor
  · intro g i hact
    rcases hact with hact | hact
    · have hsame := h.keep g i (.inl hact)
      have hsame' := h'.keep g i (.inl (hsame ▸ hact))
      exact hsame'.trans hsame
    · have hsame' := h'.keep g i (.inr hact)
      rw [hsame'] at hact ⊢
      exact h.keep g i (.inr hact)
  · intro i
    rcases h'.shape i with hsame' | hnew
    · rw [hsame']
      exact h.shape i
    · exact .inr hnew
  · exact ⟨h'.limits.1.trans h.limits.1, h'.limits.2.trans h.limits.2⟩

section IdleCalls

variable {l l' : BanList} {now : Nat} {origins : Fin b44BanMax → List Nat}
  {bases : List (Family × Bytes)} {f : Family}

theorem Idle.active (h : Idle now l l') {g : Family} {i : Fin b44BanMax}
    (hact : banActive g now (l'.ban i) = true) :
    l'.ban i = l.ban i ∧ banActive g now (l.ban i) = true := by
  have hsame := h.keep g i (.inr hact)
  exact ⟨hsame, hsame ▸ hact⟩

theorem Idle.banInv (hi : Idle now l l') (h : BanInv l now origins bases) :
    BanInv l' now origins bases := by
  constructor
  case netLen =>
    intro i
    rcases hi.shape i with hsame | hnew
    · rw [hsame]
      exact h.netLen i
    · exact hnew.1
  case fits =>
    intro i g hfam
    rcases hi.shape i with hsame | hnew
    · rw [hsame] at hfam ⊢
      exact h.fits i g hfam
    · exact hnew.2.2 g hfam
  case till =>
    intro i
    rw [hi.limits.1]
    rcases hi.shape i with hsame | hnew
    · rw [hsame]
      exact h.till i
    · rw [hnew.2.1]
      exact Nat.zero_le _
  case apart =>
    intro g i j hai haj hij a
    obtain ⟨hsi, hai⟩ := hi.active hai
    obtain ⟨hsj, haj⟩ := hi.active haj
    rw [hsi, hsj]
    exact h.apart g i j hai haj hij a
  case weight =>
    intro g i k hai hk
    obtain ⟨hsi, hai⟩ := hi.active hai
    rw [hsi] at hk ⊢
    exact h.weight g i k hai hk
  case counted =>
    intro g i hai
    obtain ⟨hsi, hai⟩ := hi.active hai
    rw [hsi]
    exact h.counted g i hai
  case once => exact fun g i hai => h.once g i (hi.active hai).2
  case shared =>
    exact fun g g' i j hai haj => h.shared g g' i j (hi.active hai).2 (hi.active haj).2
  case inside =>
    intro g i hai m hm
    obtain ⟨hsi, hai⟩ := hi.active hai
    rw [hsi]
    exact h.inside g i hai m hm

theorem Idle.crowd (hi : Idle now l l') (h : Crowd f l now) : Crowd f l' now := by
  intro k p pnet hk hp
  apply le_trans _ (h k p pnet hk hp)
  apply slotCount_mono
  intro i hin
  obtain ⟨hsame, -⟩ := hi.active (banInside_iff.mp hin).1
  exact hsame ▸ hin

theorem Idle.covers (hi : Idle now l l') : Covers now l l' := by
  intro g j a hj ha
  have hsame := hi.keep g j (.inl hj)
  exact ⟨j, hsame ▸ hj, hsame ▸ ha, by rw [hsame]⟩

/-- The times go on: fewer bans are in force. -/
theorem banActive_mono {now' : Nat} (hle : now ≤ now') {b : B44Ban}
    (h : banActive f now' b = true) : banActive f now b = true := by
  rw [banActive_iff] at h ⊢
  exact ⟨h.1, lt_of_le_of_lt hle h.2⟩

theorem BanInv.later (h : BanInv l now origins bases) {now' : Nat} (hle : now ≤ now') :
    BanInv l now' origins bases := by
  constructor
  · exact h.netLen
  · exact h.fits
  · intro i
    exact (h.till i).trans (by omega)
  · exact fun g i j hi hj => h.apart g i j (banActive_mono hle hi) (banActive_mono hle hj)
  · exact fun g i k hi => h.weight g i k (banActive_mono hle hi)
  · exact fun g i hi => h.counted g i (banActive_mono hle hi)
  · exact fun g i hi => h.once g i (banActive_mono hle hi)
  · exact fun g g' i j hi hj => h.shared g g' i j (banActive_mono hle hi) (banActive_mono hle hj)
  · exact fun g i hi => h.inside g i (banActive_mono hle hi)

theorem Crowd.later (h : Crowd f l now) {now' : Nat} (hle : now ≤ now') : Crowd f l now' := by
  intro k p pnet hk hp
  apply le_trans _ (h k p pnet hk hp)
  apply slotCount_mono
  intro i hin
  rw [banInside_iff] at hin ⊢
  exact ⟨banActive_mono hle hin.1, hin.2⟩

/-- An entry that is no ban in force may be turned into one that tracks a source. -/
theorem idle_write {t : Fin b44BanMax} {b : B44Ban} (hold : ∀ g, banActive g now (l.ban t) = false)
    (hlen : b.net.length = 16) (hzero : b.bannedUntil = 0) (hfam : b.family = some f)
    (hbits : b.bits = banBaseBits f) : Idle now l { l with ban := Function.update l.ban t b } := by
  have hidle : ∀ g, banActive g now b = false := by
    intro g
    unfold banActive
    simp [hzero]
  constructor
  · intro g i hact
    by_cases hit : i = t
    · subst hit
      have hself : Function.update l.ban i b i = b := Function.update_self _ _ _
      dsimp only at hact
      rw [hself, hold g, hidle g] at hact
      simp at hact
    · exact Function.update_of_ne hit _ _
  · intro i
    by_cases hit : i = t
    · subst hit
      have hself : Function.update l.ban i b i = b := Function.update_self _ _ _
      right
      dsimp only
      rw [hself]
      refine ⟨hlen, hzero, ?_⟩
      intro g hg
      obtain rfl : f = g := Option.some.inj (hfam.symm.trans hg)
      rw [hbits, netMask_base]
      have hmem : banBaseBits f ∈ b44Ladder f := by
        cases f <;> decide
      exact ⟨hmem, rfl⟩
    · exact .inl (Function.update_of_ne hit _ _)
  · exact ⟨rfl, rfl⟩

/-- The scan reclaims what has expired. -/
theorem ScanInv.idle {ab base : Bytes} {seen : List (Fin b44BanMax)} {s : BanScan}
    (hscan : ScanInv l.ban f ab base now seen s) : Idle now l { l with ban := s.ban } := by
  constructor
  · intro g i hact
    rcases hscan.bans i with hsame | ⟨hzero, hexp⟩
    · exact hsame
    · rcases hact with hact | hact
      · exact hscan.same hact
      · have hact : banActive g now (s.ban i) = true := hact
        rw [hzero] at hact
        cases hact
  · intro i
    rcases hscan.bans i with hsame | ⟨hzero, -⟩
    · exact .inl hsame
    · right
      dsimp only
      rw [hzero]
      exact ⟨rfl, rfl, fun g hg => by cases hg⟩
  · exact ⟨rfl, rfl⟩

end IdleCalls

/-! ## One call -/

theorem addrBytes_length {addr : Sockaddr} {f : Family} {ab : Bytes}
    (h : addrBytes addr = some (f, ab)) : ab.length = famLen f := by
  cases addr with
  | inet a port =>
      obtain ⟨rfl, rfl⟩ := Prod.mk.inj (Option.some.inj h)
      exact a.length_toList
  | inet6 a port =>
      obtain ⟨rfl, rfl⟩ := Prod.mk.inj (Option.some.inj h)
      exact a.length_toList
  | other => cases h

/-- A source is counted: in the window that is running, or as the first of a new one. -/
def trackTick (now : Nat) (t : B44Ban) : B44Ban :=
  let t := if now ≥ t.windowMs then { t with count := 0, windowMs := now + b44BanWindowMs } else t
  { t with count := t.count + 1 }

/-- The entry of a source turned into its ban. -/
def baseBan (l : BanList) (now : Nat) (t : B44Ban) : B44Ban :=
  { trackTick now t with bannedUntil := now + l.rlBanMs, weight := 1, count := 0 }

/-- The list right after a base ban. -/
def baseBanned (l : BanList) (now : Nat) (t : Fin b44BanMax) : BanList :=
  { l with ban := Function.update l.ban t (baseBan l now (l.ban t)) }

/-- The rest of `ban_ok`, after the scan. -/
def banAnswer (l : BanList) (f : Family) (ab : Bytes) (now : Nat) (s : BanScan) :
    BanList × Bool :=
  if s.hit = true then ({ l with ban := s.ban }, false)
  else
    match s.track with
    | some t => banCount { l with ban := s.ban } f now t
    | none =>
        match s.slot.or s.lru with
        | none => ({ l with ban := s.ban, blockAllUntil := now + b44FailclosedMs }, false)
        | some t =>
            ({ l with
               ban := Function.update s.ban t
                 { net := netStored (netMask f ab (banBaseBits f)), family := some f,
                   bits := banBaseBits f, weight := 0, count := 1,
                   windowMs := now + b44BanWindowMs, bannedUntil := 0 } }, true)

/-- The base ban that the rest makes, if it makes one: the list that is then widened,
and the entry. -/
def answerMade (l : BanList) (now : Nat) (s : BanScan) : Option (BanList × Fin b44BanMax) :=
  if s.hit = true then none
  else
    match s.track with
    | none => none
    | some t =>
        if (trackTick now (s.ban t)).count < l.rlRate * 10 then none
        else some (baseBanned { l with ban := s.ban } now t, t)

/-- The base ban that a call makes, with its source. -/
def banMade (l : BanList) (addr : Sockaddr) (now : Nat) :
    Option ((BanList × Fin b44BanMax) × Family × Bytes) :=
  if l.rlBanMs = 0 then none
  else if l.blockAllUntil > now then none
  else
    match addrBytes addr with
    | none => none
    | some (f, ab) => (answerMade l now (banScan l f ab now)).map fun r => (r, f, ab)

/-- What a call may change of the entries that count sources: that of its own source,
which is counted in its window or starts a new one. -/
def Counts (now : Nat) (addr : Sockaddr) (l l' : BanList) : Prop :=
  ∀ j g, (l'.ban j).family = some g → (l'.ban j).bannedUntil = 0 →
    l'.ban j = l.ban j ∨
      ∃ ab, addrBytes addr = some (g, ab) ∧ (l'.ban j).net.take (famLen g) = ab ∧
        (((l'.ban j).count = 1 ∧ (l'.ban j).windowMs = now + b44BanWindowMs) ∨
          (now < (l.ban j).windowMs ∧ Tracks g ab (l.ban j) ∧
            l'.ban j = { l.ban j with count := (l.ban j).count + 1 }))

/-- A base ban at an address that no ban in force covers, by an entry that counted it
past the limit. -/
structure BaseBan (now : Nat) (addr : Sockaddr) (l l' : BanList) (t : Fin b44BanMax)
    (f : Family) (ab : Bytes) (mid : BanList) : Prop where
  source : addrBytes addr = some (f, ab)
  idle : Idle now l mid
  same : mid.ban t = l.ban t
  trackers : ∀ j, (mid.ban j).family ≠ none → mid.ban j = l.ban j
  tracks : Tracks f ab (l.ban t)
  clear : ∀ i, banActive f now (l.ban i) = true → netContains f (l.ban i) ab = false
  limit : 0 < l.rlBanMs
  past : l.rlRate * 10 ≤ (trackTick now (l.ban t)).count
  made : l' = baseBanned mid now t

/-- The scan leaves whatever it does not clear. -/
theorem ScanInv.kept {l : BanList} {f : Family} {ab base : Bytes} {now : Nat}
    {seen : List (Fin b44BanMax)} {s : BanScan} (h : ScanInv l.ban f ab base now seen s)
    {j : Fin b44BanMax} (hfam : (s.ban j).family ≠ none) : s.ban j = l.ban j := by
  rcases h.bans j with hsame | ⟨hzero, -⟩
  · exact hsame
  · rw [hzero] at hfam
    exact absurd rfl hfam

/-- Writing the entry of a call's source is all the counting there is. -/
theorem counts_write {l l' : BanList} {ban : Fin b44BanMax → B44Ban} {addr : Sockaddr}
    {now : Nat} {f : Family} {ab : Bytes} {t : Fin b44BanMax} {b : B44Ban}
    (hban : l'.ban = Function.update ban t b) (hsrc : addrBytes addr = some (f, ab))
    (hkept : ∀ j, (ban j).family ≠ none → ban j = l.ban j) (hfam : b.family = some f)
    (hnet : b.net.take (famLen f) = ab)
    (hcount : (b.count = 1 ∧ b.windowMs = now + b44BanWindowMs) ∨
      (now < (l.ban t).windowMs ∧ Tracks f ab (l.ban t) ∧
        b = { l.ban t with count := (l.ban t).count + 1 })) :
    Counts now addr l l' := by
  intro j g hg _
  rw [hban] at hg ⊢
  by_cases hj : j = t
  · subst hj
    rw [Function.update_self] at hg ⊢
    obtain rfl : f = g := Option.some.inj (hfam.symm.trans hg)
    exact .inr ⟨ab, hsrc, hnet, hcount⟩
  · rw [Function.update_of_ne hj] at hg ⊢
    left
    apply hkept
    rw [hg]
    exact Option.some_ne_none g

/-- A counted source starts a new window, or counts in the one that is running. -/
theorem trackTick_cases (now : Nat) (b : B44Ban) :
    ((trackTick now b).count = 1 ∧ (trackTick now b).windowMs = now + b44BanWindowMs ∧
        b.windowMs ≤ now) ∨
      (now < b.windowMs ∧ trackTick now b = { b with count := b.count + 1 }) := by
  unfold trackTick
  dsimp only
  by_cases hwin : now ≥ b.windowMs
  · rw [if_pos hwin]
    exact .inl ⟨rfl, rfl, hwin⟩
  · rw [if_neg hwin]
    exact .inr ⟨by omega, rfl⟩

theorem trackTick_same (now : Nat) (b : B44Ban) :
    (trackTick now b).net = b.net ∧ (trackTick now b).family = b.family ∧
      (trackTick now b).bits = b.bits ∧ (trackTick now b).bannedUntil = b.bannedUntil := by
  unfold trackTick
  dsimp only
  split_ifs <;> exact ⟨rfl, rfl, rfl, rfl⟩

theorem banCount_eq (l : BanList) (f : Family) (now : Nat) (t : Fin b44BanMax) :
    banCount l f now t =
      if (trackTick now (l.ban t)).count < l.rlRate * 10 then
        ({ l with ban := Function.update l.ban t (trackTick now (l.ban t)) }, true)
      else (banEscalate (baseBanned l now t) t f now, false) := rfl

/-- A call without a base ban, with the reason where it refuses. -/
structure IdleCall (now : Nat) (addr : Sockaddr) (l : BanList) (r : BanList × Bool) : Prop where
  idle : Idle now l r.1
  counts : Counts now addr l r.1
  refused : r.2 = false → now < r.1.blockAllUntil ∨
    ∃ f ab i, addrBytes addr = some (f, ab) ∧ banActive f now (l.ban i) = true ∧
      netContains f (l.ban i) ab = true

/-- What the rest of `ban_ok` can do. -/
theorem banAnswer_cases {l : BanList} {addr : Sockaddr} {f : Family} {ab : Bytes} {now : Nat}
    {s : BanScan} (hlen : ∀ i, (l.ban i).net.length = 16) (hms : ¬l.rlBanMs = 0)
    (hsrc : addrBytes addr = some (f, ab))
    (hscan : ScanInv l.ban f ab (netMask f ab (banBaseBits f)) now (List.finRange b44BanMax) s) :
    (answerMade l now s = none ∧ IdleCall now addr l (banAnswer l f ab now s)) ∨
      ∃ l' t mid, answerMade l now s = some (l', t) ∧
        banAnswer l f ab now s = (banEscalate l' t f now, false) ∧
        BaseBan now addr l l' t f ab mid := by
  have hbase : netMask f ab (banBaseBits f) = ab := by
    rw [netMask_base, List.take_of_length_le (addrBytes_length hsrc).le]
  have hidle := hscan.idle
  have hkept : ∀ j, (s.ban j).family ≠ none → s.ban j = l.ban j := fun _ hfam => hscan.kept hfam
  have hcounts : ∀ j g, (s.ban j).family = some g → (s.ban j).bannedUntil = 0 →
      s.ban j = l.ban j := by
    intro j g hg _
    apply hkept
    rw [hg]
    exact Option.some_ne_none g
  unfold banAnswer answerMade
  by_cases hhit : s.hit = true
  · left
    rw [if_pos hhit, if_pos hhit]
    refine ⟨rfl, hidle, fun j g hg hz => .inl (hcounts j g hg hz), ?_⟩
    intro _
    obtain ⟨i, hact, hcont⟩ := hscan.hit hhit
    exact .inr ⟨f, ab, i, hsrc, hact, hcont⟩
  rw [if_neg hhit, if_neg hhit]
  cases htrack : s.track with
  | some t =>
      have ht := hscan.track t htrack
      rw [hbase] at ht
      have hsame : s.ban t = l.ban t := hkept t (by rw [ht.1]; exact Option.some_ne_none f)
      obtain ⟨hnet, hfam, hbits, htill⟩ := trackTick_same now (s.ban t)
      dsimp only
      rw [banCount_eq]
      dsimp only
      by_cases hlim : (trackTick now (s.ban t)).count < l.rlRate * 10
      · left
        rw [if_pos hlim, if_pos hlim]
        refine ⟨rfl, ?_, ?_, fun hno => by cases hno⟩
        · apply hidle.trans
          apply idle_write (f := f)
          · intro g
            rw [Bool.eq_false_iff]
            intro hact
            have hact : banActive g now (s.ban t) = true := hact
            rw [banActive_iff, ht.2.1] at hact
            exact Nat.not_lt_zero _ hact.2
          · rw [hnet, hsame]
            exact hlen t
          · rw [htill, ht.2.1]
          · rw [hfam, ht.1]
          · rw [hbits, ht.2.2.1]
        · apply counts_write rfl hsrc hkept
          · rw [hfam, ht.1]
          · rw [hnet, ht.2.2.2]
          · rw [hsame] at ht ⊢
            rcases trackTick_cases now (l.ban t) with ⟨hone, hwin, -⟩ | ⟨hlt, heq⟩
            · exact .inl ⟨hone, hwin⟩
            · exact .inr ⟨hlt, ht, heq⟩
      · right
        rw [if_neg hlim, if_neg hlim]
        refine ⟨_, t, { l with ban := s.ban }, rfl, rfl, ?_⟩
        constructor
        · exact hsrc
        · exact hidle
        · exact hsame
        · exact hkept
        · exact hsame ▸ ht
        · intro i hact
          exact hscan.missed (by simpa using hhit) i (List.mem_finRange i) hact
        · exact Nat.pos_of_ne_zero hms
        · rw [← hsame]
          exact not_lt.mp hlim
        · rfl
  | none =>
      left
      refine ⟨rfl, ?_⟩
      dsimp only
      cases hslot : s.slot.or s.lru with
      | none =>
          refine ⟨⟨hidle.keep, hidle.shape, hidle.limits⟩,
            fun j g hg hz => .inl (hcounts j g hg hz), fun _ => .inl ?_⟩
          show now < now + b44FailclosedMs
          unfold b44FailclosedMs
          omega
      | some t =>
          have hnet : IsNet f (banBaseBits f) (netMask f ab (banBaseBits f)) := by
            constructor
            · rw [hbase, addrBytes_length hsrc]
            · exact (netMask_mask f).cut ab le_rfl
          refine ⟨?_, ?_, fun hno => by cases hno⟩
          · apply hidle.trans
            apply idle_write (f := f)
            · -- the entry is free, or only counts
              intro g
              rw [Bool.eq_false_iff]
              intro hact
              have hact : banActive g now (s.ban t) = true := hact
              rw [banActive_iff] at hact
              rcases Option.or_eq_some_iff.mp hslot with hfree | ⟨-, hlru⟩
              · rw [hscan.slot t hfree] at hact
                cases hact.1
              · rw [hscan.lru t hlru] at hact
                exact Nat.not_lt_zero _ hact.2
            · exact netStored_length hnet
            · rfl
            · rfl
            · rfl
          · apply counts_write rfl hsrc hkept rfl
            · show (netStored (netMask f ab (banBaseBits f))).take (famLen f) = ab
              rw [netStored_take hnet, hbase]
            · exact .inl ⟨rfl, rfl⟩

/-- Past its first tests a call is the scan and the rest. -/
theorem banOk_eq_banAnswer {l : BanList} {addr : Sockaddr} {now : Nat} {f : Family} {ab : Bytes}
    (hms : ¬l.rlBanMs = 0) (hall : ¬l.blockAllUntil > now) (hsrc : addrBytes addr = some (f, ab)) :
    banOk l addr now = banAnswer l f ab now (banScan l f ab now) := by
  have hscan : (List.finRange b44BanMax).foldl
      (banScanStep f ab (netMask f ab (banBaseBits f)) now)
      { ban := l.ban, track := none, slot := none, lru := none, hit := false } =
      banScan l f ab now := rfl
  unfold banOk
  simp only [if_neg hms, if_neg hall, hsrc, hscan]
  generalize banScan l f ab now = s
  rfl

/-- Everything a call can do. -/
theorem banOk_cases (l : BanList) (addr : Sockaddr) (now : Nat)
    (hlen : ∀ i, (l.ban i).net.length = 16) :
    (banMade l addr now = none ∧ IdleCall now addr l (banOk l addr now)) ∨
      ∃ l' t f ab mid, banMade l addr now = some ((l', t), f, ab) ∧
        banOk l addr now = (banEscalate l' t f now, false) ∧
        BaseBan now addr l l' t f ab mid := by
  have hsame : Counts now addr l l := fun _ _ _ _ => .inl rfl
  unfold banMade
  by_cases hms : l.rlBanMs = 0
  · left
    unfold banOk
    rw [if_pos hms, if_pos hms]
    exact ⟨rfl, Idle.refl now l, hsame, fun hno => by cases hno⟩
  by_cases hall : l.blockAllUntil > now
  · left
    unfold banOk
    rw [if_neg hms, if_pos hall, if_neg hms, if_pos hall]
    exact ⟨rfl, Idle.refl now l, hsame, fun _ => .inl hall⟩
  rw [if_neg hms, if_neg hall]
  cases hsrc : addrBytes addr with
  | none =>
      left
      unfold banOk
      rw [if_neg hms, if_neg hall, hsrc]
      exact ⟨rfl, Idle.refl now l, hsame, fun hno => by cases hno⟩
  | some src =>
      obtain ⟨f, ab⟩ := src
      rw [banOk_eq_banAnswer hms hall hsrc]
      dsimp only
      rcases banAnswer_cases hlen hms hsrc (banScan_scanInv l f ab now) with
        ⟨hnone, hcall⟩ | ⟨l', t, mid, hmade, hans, hbase⟩
      · rw [hnone]
        exact .inl ⟨rfl, hcall⟩
      · rw [hmade, hans]
        exact .inr ⟨l', t, f, ab, mid, rfl, rfl, hbase⟩

/-! ## A base ban -/

section Base

variable {now : Nat} {addr : Sockaddr} {l l' mid : BanList} {t : Fin b44BanMax} {f : Family}
  {ab : Bytes} {origins : Fin b44BanMax → List Nat} {bases : List (Family × Bytes)}

theorem baseBanned_self : (baseBanned mid now t).ban t = baseBan mid now (mid.ban t) := by
  unfold baseBanned
  dsimp only
  rw [Function.update_self]

theorem baseBanned_other {j : Fin b44BanMax} (hj : j ≠ t) :
    (baseBanned mid now t).ban j = mid.ban j := by
  unfold baseBanned
  dsimp only
  rw [Function.update_of_ne hj]

/-- The entry of the base ban. -/
theorem BaseBan.entry (h : BaseBan now addr l l' t f ab mid) :
    (baseBan mid now (mid.ban t)).family = some f ∧
      (baseBan mid now (mid.ban t)).bits = banBaseBits f ∧
      (baseBan mid now (mid.ban t)).net = (l.ban t).net ∧
      (baseBan mid now (mid.ban t)).net.take (famLen f) = ab ∧
      banActive f now (baseBan mid now (mid.ban t)) = true := by
  obtain ⟨hnet, hfam, hbits, -⟩ := trackTick_same now (mid.ban t)
  obtain ⟨htf, -, htb, htn⟩ := h.tracks
  rw [h.same] at hnet hfam hbits
  unfold baseBan
  rw [h.same]
  dsimp only
  have hlimit := h.limit
  rw [banActive_iff]
  refine ⟨hfam.trans htf, hbits.trans htb, hnet, ?_, hfam.trans htf, ?_⟩
  · rw [hnet, htn]
  · show now < now + mid.rlBanMs
    rw [h.idle.limits.1]
    omega

theorem BaseBan.free (h : BaseBan now addr l l' t f ab mid) (g : Family) :
    ¬banActive g now (mid.ban t) = true := by
  intro hact
  rw [h.same, banActive_iff, h.tracks.2.1] at hact
  exact Nat.not_lt_zero _ hact.2

/-- The bans in force after a base ban: it, and those before. -/
theorem BaseBan.active (h : BaseBan now addr l l' t f ab mid) {g : Family} {j : Fin b44BanMax}
    (hact : banActive g now ((baseBanned mid now t).ban j) = true) :
    (j = t ∧ g = f) ∨
      (j ≠ t ∧ (baseBanned mid now t).ban j = mid.ban j ∧ banActive g now (mid.ban j) = true) := by
  by_cases hj : j = t
  · subst hj
    rw [baseBanned_self, banActive_iff, h.entry.1] at hact
    exact .inl ⟨rfl, (Option.some.inj hact.1).symm⟩
  · rw [baseBanned_other hj] at hact
    exact .inr ⟨hj, baseBanned_other hj, hact⟩

theorem BaseBan.contains_iff (h : BaseBan now addr l l' t f ab mid) {a : Bytes} :
    netContains f ((baseBanned mid now t).ban t) a = true ↔ a.take (famLen f) = ab := by
  obtain ⟨-, hbits, -, hnet, -⟩ := h.entry
  rw [baseBanned_self, netContains_iff, hbits, hnet, netMask_base]

/-- No ban in force has an address in common with the base ban. -/
theorem BaseBan.apart (h : BaseBan now addr l l' t f ab mid) {j : Fin b44BanMax}
    (hact : banActive f now (mid.ban j) = true) {a : Bytes} (ha : a.take (famLen f) = ab) :
    ¬netContains f (mid.ban j) a = true := by
  intro hcont
  obtain ⟨hsame, hold⟩ := h.idle.active hact
  have hclear := h.clear j hold
  rw [hsame, netContains_iff, ← netMask_take, ha, ← netContains_iff, hclear] at hcont
  cases hcont

theorem b44Ladder_base (f : Family) : (b44Ladder f)[0]? = some (banBaseBits f) := by
  cases f <;> rfl

theorem baseBanned_banInv (h : BaseBan now addr l l' t f ab mid)
    (hinv : BanInv mid now origins bases) :
    BanInv (baseBanned mid now t) now (Function.update origins t [bases.length])
      (bases ++ [(f, ab)]) := by
  obtain ⟨hfam, hbits, hnet, htake, -⟩ := h.entry
  have horig : Function.update origins t [bases.length] t = [bases.length] :=
    Function.update_self _ _ _
  have hother : ∀ j, j ≠ t → Function.update origins t [bases.length] j = origins j :=
    fun j hj => Function.update_of_ne hj _ _
  have hnumber : ∀ g j, banActive g now (mid.ban j) = true → bases.length ∉ origins j := by
    intro g j hact hmem
    obtain ⟨a, ha, -⟩ := hinv.inside g j hact _ hmem
    rw [List.getElem?_eq_none le_rfl] at ha
    cases ha
  constructor
  case netLen =>
    intro j
    by_cases hj : j = t
    · subst hj
      rw [baseBanned_self, hnet, ← h.same]
      exact hinv.netLen j
    · rw [baseBanned_other hj]
      exact hinv.netLen j
  case fits =>
    intro j g hg
    by_cases hj : j = t
    · subst hj
      rw [baseBanned_self] at hg ⊢
      obtain rfl : f = g := Option.some.inj (hfam.symm.trans hg)
      rw [hbits, netMask_base]
      exact ⟨List.mem_of_getElem? (b44Ladder_base f), rfl⟩
    · rw [baseBanned_other hj] at hg ⊢
      exact hinv.fits j g hg
  case till =>
    intro j
    by_cases hj : j = t
    · subst hj
      rw [baseBanned_self]
      exact le_rfl
    · rw [baseBanned_other hj]
      exact hinv.till j
  case apart =>
    intro g j k hj hk hjk a
    rcases h.active hj with ⟨rfl, rfl⟩ | ⟨-, hjban, hjact⟩ <;>
    rcases h.active hk with ⟨rfl, hg⟩ | ⟨-, hkban, hkact⟩
    · exact absurd rfl hjk
    · rw [h.contains_iff, hkban]
      rintro ⟨ha, hka⟩
      exact h.apart hkact ha hka
    · subst hg
      rw [h.contains_iff, hjban]
      rintro ⟨hja, ha⟩
      exact h.apart hjact ha hja
    · rw [hjban, hkban]
      exact hinv.apart g j k hjact hkact hjk a
  case weight =>
    intro g j k hj hk
    rcases h.active hj with ⟨rfl, rfl⟩ | ⟨-, hjban, hjact⟩
    · rw [baseBanned_self, hbits] at hk
      have hzero : k = 0 :=
        Nat.le_zero.mp ((b44Ladder_le_iff (b44Ladder_base g) hk).mp le_rfl)
      rw [baseBanned_self, hzero]
      exact ⟨le_rfl, le_rfl⟩
    · rw [hjban] at hk ⊢
      exact hinv.weight g j k hjact hk
  case counted =>
    intro g j hj
    rcases h.active hj with ⟨rfl, rfl⟩ | ⟨hne, hjban, hjact⟩
    · rw [baseBanned_self, horig]
      rfl
    · rw [hjban, hother j hne]
      exact hinv.counted g j hjact
  case once =>
    intro g j hj
    rcases h.active hj with ⟨rfl, rfl⟩ | ⟨hne, -, hjact⟩
    · rw [horig]
      exact List.nodup_singleton _
    · rw [hother j hne]
      exact hinv.once g j hjact
  case shared =>
    intro g g' j k hj hk hjk
    rcases h.active hj with ⟨rfl, rfl⟩ | ⟨hjne, -, hjact⟩ <;>
    rcases h.active hk with ⟨rfl, hg⟩ | ⟨hkne, -, hkact⟩
    · exact absurd rfl hjk
    · rw [horig, hother k hkne, List.singleton_disjoint]
      exact hnumber g' k hkact
    · rw [horig, hother j hjne, List.disjoint_singleton]
      exact hnumber g j hjact
    · rw [hother j hjne, hother k hkne]
      exact hinv.shared g g' j k hjact hkact hjk
  case inside =>
    intro g j hj m hm
    rcases h.active hj with ⟨rfl, rfl⟩ | ⟨hne, hjban, hjact⟩
    · rw [horig, List.mem_singleton] at hm
      subst hm
      refine ⟨ab, List.getElem?_concat_length, ?_⟩
      rw [h.contains_iff]
      exact List.take_of_length_le (addrBytes_length h.source).le
    · rw [hother j hne] at hm
      rw [hjban]
      obtain ⟨a, ha, hcont⟩ := hinv.inside g j hjact m hm
      refine ⟨a, ?_, hcont⟩
      rw [List.getElem?_append_left (List.getElem?_eq_some_iff.mp ha).1]
      exact ha

theorem baseBanned_covers (h : BaseBan now addr l l' t f ab mid) :
    Covers now mid (baseBanned mid now t) := by
  intro g j a hj ha
  have hne : j ≠ t := by
    rintro rfl
    exact h.free g hj
  have hsame : (baseBanned mid now t).ban j = mid.ban j := baseBanned_other hne
  exact ⟨j, hsame ▸ hj, hsame ▸ ha, by rw [hsame]⟩

/-- A base ban adds one to the prefixes around it. -/
theorem baseBanned_crowd (h : BaseBan now addr l l' t f ab mid) (g : Family) (p : Nat)
    (pnet : Bytes) :
    slotCount (baseBanned mid now t).ban (banInside g now p pnet) ≤
        slotCount mid.ban (banInside g now p pnet) ∨
      (g = f ∧ netMask f ab p = pnet ∧
        slotCount (baseBanned mid now t).ban (banInside g now p pnet) ≤
          slotCount mid.ban (banInside g now p pnet) + 1) := by
  have hcount := slotCount_update mid.ban (banInside g now p pnet) t
    (baseBan mid now (mid.ban t))
  have hfree : ¬banInside g now p pnet (mid.ban t) = true :=
    fun hin => h.free g (banInside_iff.mp hin).1
  rw [if_neg hfree] at hcount
  have hban : (baseBanned mid now t).ban =
      Function.update mid.ban t (baseBan mid now (mid.ban t)) := rfl
  rw [hban]
  by_cases hin : banInside g now p pnet (baseBan mid now (mid.ban t)) = true
  · right
    rw [if_pos hin] at hcount
    obtain ⟨hact, -, hnet⟩ := banInside_iff.mp hin
    obtain rfl : f = g := Option.some.inj (h.entry.1.symm.trans (banActive_iff.mp hact).1)
    refine ⟨rfl, ?_, by omega⟩
    rw [← hnet, ← netMask_take f (baseBan mid now (mid.ban t)).net, h.entry.2.2.2.1]
  · left
    rw [if_neg hin] at hcount
    omega

/-- The ladder starts with one ban too many at most, around the base ban. -/
theorem baseBanned_widening (h : BaseBan now addr l l' t f ab mid)
    (hcrowd : ∀ g, Crowd g mid now) : Widening f now t ab 1 (baseBanned mid now t) := by
  obtain ⟨-, hbits, -, hnet, hact⟩ := h.entry
  right
  rw [baseBanned_self]
  refine ⟨hact, hbits, hnet, rfl, ?_⟩
  intro k p pnet hk hp
  have hmid := hcrowd f k p pnet hk hp
  rcases baseBanned_crowd h f p pnet with hle | ⟨-, hab, hle⟩
  · exact .inl (hle.trans hmid)
  · exact .inr ⟨hk, hab, by omega⟩

end Base

end Bep44
end Comrade
