import Comrade.Bep44.BanCall
import Comrade.Lib.Run

/-!
# The ban list over whole runs

`ban_ok` is asked about one source after the other, at times that never go back.  The
log beside the list is what the claims about it are made of: which base bans are behind
an entry, and who asked when.

* `BanLogInv` is what every query keeps up.
* `ban_reachable` is what holds after any queries.
-/

namespace Comrade
namespace Bep44

open Lib

/-- A query, some time after the one before. -/
structure BanQuery where
  wait : Nat
  addr : Sockaddr

/-- A ban list with its history: the base bans behind each entry and all of them, the
queries, and the time. -/
structure BanLog where
  l : BanList
  origins : Fin b44BanMax → List Nat
  bases : List (Family × Bytes)
  asked : List ((Family × Bytes) × Nat)
  now : Nat

/-- An engine as it starts, with its limits. -/
def banLogInit (rlRate : Int) (rlBanMs : Nat) : BanLog where
  l := { ban := fun _ => banZero, blockAllUntil := 0, rlRate := rlRate, rlBanMs := rlBanMs }
  origins := fun _ => []
  bases := []
  asked := []
  now := 0

/-- One query. -/
def banStep (s : BanLog) (q : BanQuery) : BanLog :=
  let now := s.now + q.wait
  let asked := s.asked ++ (addrBytes q.addr).toList.map fun src => (src, now)
  match banMade s.l q.addr now with
  | none => { s with l := (banOk s.l q.addr now).1, asked := asked, now := now }
  | some ((l', t), src) =>
      { l := (banOk s.l q.addr now).1
        origins := (escalateLog l' (Function.update s.origins t [s.bases.length]) t src.1 now).2
        bases := s.bases ++ [src]
        asked := asked
        now := now }

/-- The queries of a source since a time, as far as they count. -/
def askedSince (asked : List ((Family × Bytes) × Nat)) (src : Family × Bytes) (since : Nat) :
    Nat :=
  asked.countP fun q => q.1 == src && decide (since ≤ q.2 + b44BanWindowMs)

/-- Every entry that counts a source counts queries that were made. -/
def WindowOk (s : BanLog) : Prop :=
  ∀ j f, (s.l.ban j).family = some f → (s.l.ban j).bannedUntil = 0 →
    (s.l.ban j).windowMs ≤ s.now + b44BanWindowMs ∧
      (s.l.ban j).count ≤
        askedSince s.asked (f, (s.l.ban j).net.take (famLen f)) (s.l.ban j).windowMs

/-- What holds after any queries. -/
structure BanLogInv (s : BanLog) : Prop where
  inv : BanInv s.l s.now s.origins s.bases
  crowd : ∀ f, Crowd f s.l s.now
  window : WindowOk s

theorem askedSince_le {asked more : List ((Family × Bytes) × Nat)} {src : Family × Bytes}
    {since since' : Nat} (hle : since' ≤ since) :
    askedSince asked src since ≤ askedSince (asked ++ more) src since' := by
  unfold askedSince
  rw [List.countP_append]
  apply le_add_right
  apply List.countP_mono_left
  intro q _ hq
  rw [Bool.and_eq_true, decide_eq_true_eq] at hq ⊢
  exact ⟨hq.1, hle.trans hq.2⟩

/-- A query counts for its source. -/
theorem askedSince_query (asked : List ((Family × Bytes) × Nat)) (since : Nat)
    {src : Family × Bytes} {addr : Sockaddr} {now since' : Nat} (hsrc : addrBytes addr = some src)
    (hle : since' ≤ since) (hnow : since' ≤ now + b44BanWindowMs) :
    askedSince asked src since + 1 ≤
      askedSince (asked ++ (addrBytes addr).toList.map fun src => (src, now)) src since' := by
  have hone : askedSince [(src, now)] src since' = 1 := by
    unfold askedSince
    simp [hnow]
  have hsplit : askedSince (asked ++ [(src, now)]) src since' =
      askedSince asked src since' + askedSince [(src, now)] src since' :=
    List.countP_append
  have hold : askedSince asked src since ≤ askedSince (asked ++ []) src since' :=
    askedSince_le hle
  rw [List.append_nil] at hold
  rw [hsrc]
  show _ ≤ askedSince (asked ++ [(src, now)]) src since'
  omega

/-- The list after a query is the one that `ban_ok` leaves. -/
theorem banStep_l (s : BanLog) (q : BanQuery) :
    (banStep s q).l = (banOk s.l q.addr (s.now + q.wait)).1 ∧
      (banStep s q).now = s.now + q.wait ∧
      (banStep s q).asked =
        s.asked ++ (addrBytes q.addr).toList.map fun src => (src, s.now + q.wait) := by
  unfold banStep
  dsimp only
  split <;> exact ⟨rfl, rfl, rfl⟩

theorem windowOk_of_counts {s s' : BanLog} {addr : Sockaddr} (h : WindowOk s)
    (hnow : s.now ≤ s'.now)
    (hasked : s'.asked = s.asked ++ (addrBytes addr).toList.map fun src => (src, s'.now))
    (hcounts : Counts s'.now addr s.l s'.l) : WindowOk s' := by
  intro j f hfam hzero
  rcases hcounts j f hfam hzero with hsame | ⟨ab, hsrc, hnet, hcount⟩
  · rw [hsame] at hfam hzero ⊢
    obtain ⟨hwin, hcount⟩ := h j f hfam hzero
    refine ⟨by omega, ?_⟩
    rw [hasked]
    exact hcount.trans (Int.ofNat_le.mpr (askedSince_le le_rfl))
  · rw [hnet, hasked]
    rcases hcount with ⟨hone, hwin⟩ | ⟨hlt, htracks, heq⟩
    · -- the first query of its window
      rw [hone, hwin]
      refine ⟨le_rfl, ?_⟩
      have hquery := askedSince_query s.asked (s'.now + b44BanWindowMs) hsrc le_rfl le_rfl
      omega
    · rw [heq]
      obtain ⟨hwin, hcount⟩ := h j f htracks.1 htracks.2.1
      rw [htracks.2.2.2] at hcount
      have hquery := askedSince_query s.asked (s.l.ban j).windowMs hsrc le_rfl
        (by omega : (s.l.ban j).windowMs ≤ s'.now + b44BanWindowMs)
      refine ⟨by dsimp only; omega, ?_⟩
      dsimp only
      omega

/-- What a query leaves of what holds, and of who is banned. -/
theorem banStep_spec {s : BanLog} (h : BanLogInv s) (q : BanQuery) :
    BanLogInv (banStep s q) ∧ Covers (banStep s q).now s.l (banStep s q).l := by
  have hinv := h.inv.later (Nat.le_add_right s.now q.wait)
  have hcrowd := fun f => (h.crowd f).later (Nat.le_add_right s.now q.wait)
  obtain ⟨-, hnow, hasked⟩ := banStep_l s q
  rw [← hnow] at hinv hcrowd hasked
  have hlater : s.now ≤ (banStep s q).now := by
    rw [hnow]
    exact Nat.le_add_right _ _
  rcases banOk_cases s.l q.addr (s.now + q.wait) hinv.netLen with
    ⟨hnone, hidle, hcounts, -⟩ | ⟨l', t, f, ab, mid, hmade, hok, hbase⟩
  · have hstep : (banStep s q).l = (banOk s.l q.addr (s.now + q.wait)).1 ∧
        (banStep s q).origins = s.origins ∧ (banStep s q).bases = s.bases := by
      unfold banStep
      dsimp only
      rw [hnone]
      exact ⟨rfl, rfl, rfl⟩
    obtain ⟨hl, horigins, hbases⟩ := hstep
    rw [← hl, ← hnow] at hidle hcounts
    refine ⟨⟨?_, ?_, ?_⟩, hidle.covers⟩
    · rw [horigins, hbases]
      exact hidle.banInv hinv
    · intro f
      exact hidle.crowd (hcrowd f)
    · exact windowOk_of_counts h.window hlater hasked hcounts
  · have hstep : (banStep s q).l = (escalateLog l'
          (Function.update s.origins t [s.bases.length]) t f (s.now + q.wait)).1 ∧
        (banStep s q).origins = (escalateLog l'
          (Function.update s.origins t [s.bases.length]) t f (s.now + q.wait)).2 ∧
        (banStep s q).bases = s.bases ++ [(f, ab)] := by
      rw [escalateLog_fst]
      unfold banStep
      dsimp only
      rw [hmade]
      exact ⟨by rw [hok], rfl, rfl⟩
    obtain ⟨hl, horigins, hbases⟩ := hstep
    rw [← hnow] at hl horigins hbase
    have hmid := hbase.idle.banInv hinv
    have hmidCrowd := fun g => hbase.idle.crowd (hcrowd g)
    obtain ⟨hdone, hdoneCrowd⟩ := banEscalate_spec (baseBanned_banInv hbase hmid)
      (baseBanned_widening hbase hmidCrowd)
    rw [hbase.made] at hl horigins
    rw [← hl] at hdoneCrowd
    refine ⟨⟨?_, ?_, ?_⟩, ?_⟩
    · rw [hl, horigins, hbases]
      exact hdone.inv
    · intro g
      by_cases hg : g = f
      · rw [hg]
        exact hdoneCrowd
      · rw [hl]
        apply hdone.others g hg
        intro k p pnet hk hp
        rcases baseBanned_crowd hbase g p pnet with hle | ⟨hgf, -⟩
        · exact hle.trans (hmidCrowd g k p pnet hk hp)
        · exact absurd hgf hg
    · -- an entry that still counts was there before, since nothing else is written
      apply windowOk_of_counts h.window hlater hasked
      intro j g hfam hzero
      rw [hl] at hfam hzero ⊢
      have hsame := hdone.trackers j (by rw [hfam]; exact Option.some_ne_none g) hzero
      rw [hsame] at hfam hzero ⊢
      have hne : j ≠ t := by
        rintro rfl
        rw [baseBanned_self] at hzero
        have hact := (banActive_iff.mp hbase.entry.2.2.2.2).2
        omega
      rw [baseBanned_other hne] at hfam ⊢
      exact .inl (hbase.trackers j (by rw [hfam]; exact Option.some_ne_none g))
    · rw [hl]
      exact hbase.idle.covers.trans ((baseBanned_covers hbase).trans hdone.covers)

/-- Why a query may be refused: the engine fails closed, a ban in force covers the
source, or the source alone asked too often. -/
theorem banOk_refused {s : BanLog} (h : BanLogInv s) (q : BanQuery)
    (hno : (banOk s.l q.addr (s.now + q.wait)).2 = false) :
    (banStep s q).now < (banStep s q).l.blockAllUntil ∨
      ∃ f ab, addrBytes q.addr = some (f, ab) ∧
        ((∃ i, banActive f (banStep s q).now (s.l.ban i) = true ∧
            netContains f (s.l.ban i) ab = true) ∨
          s.l.rlRate * 10 ≤
            askedSince (banStep s q).asked (f, ab) ((banStep s q).now + 1)) := by
  obtain ⟨hl, hnow, hasked⟩ := banStep_l s q
  rcases banOk_cases s.l q.addr (s.now + q.wait) h.inv.netLen with
    ⟨-, -, -, hrefused⟩ | ⟨l', t, f, ab, mid, -, -, hbase⟩
  · rw [hl, hnow]
    rcases hrefused hno with hblock | ⟨f, ab, i, hsrc, hact, hcont⟩
    · exact .inl hblock
    · exact .inr ⟨f, ab, hsrc, .inl ⟨i, hact, hcont⟩⟩
  · right
    refine ⟨f, ab, hbase.source, .inr ?_⟩
    rw [hasked, hnow]
    apply hbase.past.trans
    have hwin := h.window t f hbase.tracks.1 hbase.tracks.2.1
    rw [hbase.tracks.2.2.2] at hwin
    have hquery : ∀ since, s.now + q.wait + 1 ≤ since →
        askedSince s.asked (f, ab) since + 1 ≤
          askedSince (s.asked ++ (addrBytes q.addr).toList.map fun src => (src, s.now + q.wait))
            (f, ab) (s.now + q.wait + 1) := by
      intro since hle
      apply askedSince_query s.asked since hbase.source hle
      unfold b44BanWindowMs
      omega
    rcases trackTick_cases (s.now + q.wait) (s.l.ban t) with ⟨hone, -, -⟩ | ⟨hlt, heq⟩
    · have hfirst := hquery _ le_rfl
      omega
    · have hnext := hquery _ hlt
      rw [heq]
      dsimp only
      omega

theorem banLogInit_banLogInv (rlRate : Int) (rlBanMs : Nat) :
    BanLogInv (banLogInit rlRate rlBanMs) := by
  constructor
  · constructor
    case netLen => exact fun _ => rfl
    case till => exact fun _ => Nat.zero_le _
    case fits =>
      intro i f hfam
      cases hfam
    all_goals
      intro f i
      intros
      contradiction
  · intro f k p pnet hk hp
    have hzero : slotCount (banLogInit rlRate rlBanMs).l.ban (banInside f 0 p pnet) = 0 := by
      unfold slotCount
      rw [Finset.card_eq_zero, Finset.filter_eq_empty_iff]
      intro i _ hin
      cases hin
    exact hzero.le.trans (Nat.zero_le k)
  · intro j f hfam
    cases hfam

/-- After any queries at times that do not go back: the bans in force of a family do
not overlap, none is wider than the ladder goes, a ban weighs more than its level and
as much as the base bans merged into it, which are different ones under its prefix; a
further query unbans nobody and shortens no ban; and it is refused, the engine failing
closed aside, only where a ban in force covers its source or the source itself asked
ten times the rate within the last window. -/
theorem ban_reachable (rlRate : Int) (rlBanMs : Nat) (queries : List BanQuery) :
    let s := run banStep (banLogInit rlRate rlBanMs) queries
    (∀ f i j, banActive f s.now (s.l.ban i) = true → banActive f s.now (s.l.ban j) = true →
        i ≠ j → ∀ a, ¬(netContains f (s.l.ban i) a = true ∧ netContains f (s.l.ban j) a = true)) ∧
      (∀ f i, banActive f s.now (s.l.ban i) = true →
        widestBits f ≤ (s.l.ban i).bits ∧
          (∃ k : Nat, (b44Ladder f)[k]? = some (s.l.ban i).bits ∧ k + 1 ≤ (s.l.ban i).weight) ∧
          (s.l.ban i).weight = (s.origins i).length ∧ (s.origins i).Nodup ∧
          ∀ m ∈ s.origins i, ∃ a, s.bases[m]? = some (f, a) ∧ netContains f (s.l.ban i) a = true) ∧
      (∀ q, Covers (banStep s q).now s.l (banStep s q).l) ∧
      ∀ q, (banOk s.l q.addr (s.now + q.wait)).2 = false →
        (banStep s q).now < (banStep s q).l.blockAllUntil ∨
          ∃ f ab, addrBytes q.addr = some (f, ab) ∧
            ((∃ i, banActive f (banStep s q).now (s.l.ban i) = true ∧
                netContains f (s.l.ban i) ab = true) ∨
              s.l.rlRate * 10 ≤
                askedSince (banStep s q).asked (f, ab) ((banStep s q).now + 1)) := by
  intro s
  have h : BanLogInv s :=
    run_invariant (I := BanLogInv) (fun _ q h => (banStep_spec h q).1)
      (banLogInit_banLogInv rlRate rlBanMs) queries
  refine ⟨h.inv.apart, ?_, fun q => (banStep_spec h q).2, fun q hno => banOk_refused h q hno⟩
  intro f i hact
  obtain ⟨k, hk⟩ := h.inv.level hact
  refine ⟨?_, ⟨k, hk, (h.inv.weight f i k hact hk).1⟩, h.inv.counted f i hact,
    h.inv.once f i hact, h.inv.inside f i hact⟩
  exact widestBits_le (h.inv.fits i f (banActive_iff.mp hact).1).1


end Bep44
end Comrade
