import Comrade.Bep44.Ban
import Comrade.Lib.Prefix
import Comrade.Lib.Table

/-!
# Widening the bans

`ban_escalate` merges the bans under one prefix into a ban of that prefix, level by
level.  What holds it together is that the bans of a family never overlap, and that a
prefix of the ladder never has more bans under it than its level, since one more
would have been merged.

The seed of the widening is read through a pointer into the entry that was just
banned, so once a level has merged that entry into another the levels after it work on
a cleared seed.  None of what follows rests on which prefix a level looks at.

* `BanInv` is what every level keeps up.
* `banWiden_banInv`, `banWiden_covers` and `banWiden_crowd_le` are one level.
* `banEscalate_spec` is the whole ladder.
-/

namespace Comrade
namespace Bep44

open Lib

/-! ## Prefixes of an address -/

theorem maskByte_maskByte (a : UInt8) (j k : Int) :
    maskByte (maskByte a k) j = maskByte a (min j k) := by
  have hzero : maskByte 0 j = 0 := by
    unfold maskByte
    split_ifs
    · rfl
    · rfl
    · exact UInt8.zero_and
  by_cases hk8 : 8 ≤ k
  · have hfull : maskByte a k = a := if_pos hk8
    rw [hfull]
    by_cases hj8 : 8 ≤ j
    · have hmin : 8 ≤ min j k := le_min hj8 hk8
      unfold maskByte
      rw [if_pos hj8, if_pos hmin]
    · rw [min_eq_left (by omega)]
  · by_cases hk0 : k ≤ 0
    · have hnone : ∀ m : Int, m ≤ 0 → maskByte a m = 0 := by
        intro m hm
        unfold maskByte
        rw [if_neg (by omega), if_pos hm]
      rw [hnone k hk0, hzero, hnone _ (le_trans (min_le_right j k) hk0)]
    · by_cases hj8 : 8 ≤ j
      · rw [min_eq_right (by omega)]
        exact if_pos hj8
      · by_cases hj0 : j ≤ 0
        · rw [min_eq_left (by omega)]
          unfold maskByte
          simp only [if_neg hj8, if_pos hj0, ge_iff_le]
        · -- both cut inside the byte
          have hcut : ∀ m : Int, 0 < m → m < 8 → ∀ b : UInt8,
              maskByte b m = b &&& UInt8.ofNat (0xff <<< (8 - m.toNat)) := by
            intro m hm hm' b
            unfold maskByte
            rw [if_neg (by omega), if_neg (by omega)]
          rw [hcut k (by omega) (by omega), hcut j (by omega) (by omega),
            hcut (min j k) (by omega) (by omega), UInt8.and_assoc]
          congr 1
          interval_cases j <;> interval_cases k <;> decide

theorem netMask_length (f : Family) (a : Bytes) (p : Nat) :
    (netMask f a p).length = min (famLen f) a.length := by
  unfold netMask
  rw [List.length_mapIdx, List.length_take]

theorem netMask_mask (f : Family) : Mask (netMask f) := by
  intro a p q
  have hlen : (netMask f a q).length ≤ famLen f := by
    rw [netMask_length]
    exact min_le_left _ _
  have htake : (netMask f a q).take (famLen f) = netMask f a q := List.take_of_length_le hlen
  rw [netMask, htake, netMask, netMask]
  apply List.ext_getElem
  · simp
  · intro i hi hi'
    rw [List.getElem_mapIdx, List.getElem_mapIdx, List.getElem_mapIdx, maskByte_maskByte]
    congr 1
    omega

/-- Bytes past the family's length do not matter. -/
theorem netMask_take (f : Family) (a : Bytes) (p : Nat) :
    netMask f (a.take (famLen f)) p = netMask f a p := by
  unfold netMask
  rw [List.take_take, min_self]

/-- An address cut at its full length is its bytes. -/
theorem netMask_base (f : Family) (a : Bytes) :
    netMask f a (banBaseBits f) = a.take (famLen f) := by
  unfold netMask
  apply List.ext_getElem
  · simp
  · intro i hi hi'
    rw [List.getElem_mapIdx]
    have hfull : (banBaseBits f : Int) - i * 8 ≥ 8 := by
      rw [List.length_take] at hi'
      cases f <;> simp only [banBaseBits, famLen] at hi' ⊢ <;> omega
    exact if_pos hfull

/-! ## The ladders -/

theorem b44Ladder_length (f : Family) {k p : Nat} (h : (b44Ladder f)[k]? = some p) : k < 6 := by
  obtain ⟨hk, -⟩ := List.getElem?_eq_some_iff.mp h
  cases f <;> simp only [b44Ladder, List.length_cons, List.length_nil] at hk <;> omega

/-- The further up the ladder, the shorter the prefix. -/
theorem b44Ladder_le_iff {f : Family} {i k p q : Nat} (hi : (b44Ladder f)[i]? = some p)
    (hk : (b44Ladder f)[k]? = some q) : p ≤ q ↔ k ≤ i := by
  have hanti : ∀ f : Family, ∀ i < 6, ∀ k < 6, ∀ p ∈ (b44Ladder f)[i]?, ∀ q ∈ (b44Ladder f)[k]?,
      (p ≤ q ↔ k ≤ i) := by
    intro f
    cases f <;> decide
  exact hanti f i (b44Ladder_length f hi) k (b44Ladder_length f hk) p hi q hk

/-- The widest prefix that is ever banned. -/
def widestBits : Family → Nat
  | .inet6 => 32
  | .inet => 24

theorem widestBits_le {f : Family} {p : Nat} (h : p ∈ b44Ladder f) : widestBits f ≤ p := by
  have hall : ∀ p ∈ b44Ladder f, widestBits f ≤ p := by
    cases f <;> decide
  exact hall p h

/-! ## Active bans -/

/-- Is the entry a ban of the family that is in force? -/
def banActive (f : Family) (now : Nat) (b : B44Ban) : Bool :=
  b.family == some f && decide (now < b.bannedUntil)

theorem banActive_iff {f : Family} {now : Nat} {b : B44Ban} :
    banActive f now b = true ↔ b.family = some f ∧ now < b.bannedUntil := by
  unfold banActive
  simp

theorem banInside_iff {f : Family} {now p : Nat} {pnet : Bytes} {b : B44Ban} :
    banInside f now p pnet b = true ↔
      banActive f now b = true ∧ p ≤ b.bits ∧ netMask f b.net p = pnet := by
  unfold banInside banActive
  simp [and_assoc]

theorem netContains_iff {f : Family} {b : B44Ban} {a : Bytes} :
    netContains f b a = true ↔ netMask f a b.bits = b.net.take (famLen f) := by
  unfold netContains
  simp

@[simp] theorem banActive_banZero (f : Family) (now : Nat) : banActive f now banZero = false := rfl

@[simp] theorem banInside_banZero (f : Family) (now p : Nat) (pnet : Bytes) :
    banInside f now p pnet banZero = false := rfl

/-- What the ban list keeps up.  `bases` are the base bans made so far, `origins` the
numbers of those merged into each entry. -/
structure BanInv (l : BanList) (now : Nat) (origins : Fin b44BanMax → List Nat)
    (bases : List (Family × Bytes)) : Prop where
  netLen : ∀ i, (l.ban i).net.length = 16
  fits : ∀ i f, (l.ban i).family = some f → (l.ban i).bits ∈ b44Ladder f ∧
    netMask f (l.ban i).net (l.ban i).bits = (l.ban i).net.take (famLen f)
  till : ∀ i, (l.ban i).bannedUntil ≤ now + l.rlBanMs
  apart : ∀ f i j, banActive f now (l.ban i) = true → banActive f now (l.ban j) = true → i ≠ j →
    ∀ a, ¬(netContains f (l.ban i) a = true ∧ netContains f (l.ban j) a = true)
  weight : ∀ f i k, banActive f now (l.ban i) = true →
    (b44Ladder f)[k]? = some (l.ban i).bits →
    k + 1 ≤ (l.ban i).weight ∧ (l.ban i).weight ≤ (k + 1).factorial
  counted : ∀ f i, banActive f now (l.ban i) = true → (l.ban i).weight = (origins i).length
  once : ∀ f i, banActive f now (l.ban i) = true → (origins i).Nodup
  shared : ∀ f g i j, banActive f now (l.ban i) = true → banActive g now (l.ban j) = true →
    i ≠ j → (origins i).Disjoint (origins j)
  inside : ∀ f i, banActive f now (l.ban i) = true → ∀ m ∈ origins i,
    ∃ a, bases[m]? = some (f, a) ∧ netContains f (l.ban i) a = true

/-- Every prefix of the ladder has at most as many bans under it as its level. -/
def Crowd (f : Family) (l : BanList) (now : Nat) : Prop :=
  ∀ k p pnet, 1 ≤ k → (b44Ladder f)[k]? = some p →
    slotCount l.ban (banInside f now p pnet) ≤ k

section Level

variable {l : BanList} {now : Nat} {origins : Fin b44BanMax → List Nat}
  {bases : List (Family × Bytes)} {f : Family} {i p : Nat} {pnet : Bytes}
  {first : Fin b44BanMax}

/-- A ban in force of a family has a level. -/
theorem BanInv.level (h : BanInv l now origins bases) {j : Fin b44BanMax}
    (hj : banActive f now (l.ban j) = true) :
    ∃ k : Nat, (b44Ladder f)[k]? = some (l.ban j).bits := by
  obtain ⟨hbits, -⟩ := h.fits j f (banActive_iff.1 hj).1
  exact List.mem_iff_getElem?.mp hbits

/-- A ban lies under a prefix no longer than its own once they have an address in
common. -/
theorem inside_of_common {b : B44Ban} (hb : banActive f now b = true) (hle : p ≤ b.bits)
    {a : Bytes} (ha : netContains f b a = true) (hp : netMask f a p = pnet) :
    banInside f now p pnet b = true := by
  rw [banInside_iff]
  refine ⟨hb, hle, ?_⟩
  rw [← netMask_take]
  exact (netMask_mask f).inside hp (netContains_iff.1 ha) hle

/-- A prefix covers what the bans under it cover. -/
theorem covers_of_inside {b : B44Ban} (hb : banInside f now p pnet b = true) {a : Bytes}
    (ha : netContains f b a = true) : netMask f a p = pnet := by
  obtain ⟨-, hle, hnet⟩ := banInside_iff.1 hb
  rw [← netMask_take] at hnet
  exact (netMask_mask f).covers hnet (netContains_iff.1 ha) hle

/-! ## One level -/

/-- The entries of the bans under a prefix, in the order of the table. -/
def insideSlots (l : BanList) (f : Family) (now p : Nat) (pnet : Bytes) : List (Fin b44BanMax) :=
  (List.finRange b44BanMax).filter fun j => banInside f now p pnet (l.ban j)

/-- What the bans under a prefix weigh together. -/
def insideWeight (l : BanList) (f : Family) (now p : Nat) (pnet : Bytes) : Nat :=
  ((insideSlots l f now p pnet).map fun j => (l.ban j).weight).sum

/-- The entry that a level merges the bans under its prefix into, where they weigh
enough. -/
def widenInto (l : BanList) (f : Family) (now i p : Nat) (pnet : Bytes) :
    Option (Fin b44BanMax) :=
  (insideSlots l f now p pnet).head?.filter fun _ => decide (i + 1 ≤ insideWeight l f now p pnet)

/-- The ban of the whole prefix. -/
def widenedBan (l : BanList) (f : Family) (now p : Nat) (pnet : Bytes) : B44Ban :=
  { net := netStored pnet, family := some f, bits := p,
    weight := insideWeight l f now p pnet % 2 ^ 16, count := 0, windowMs := 0,
    bannedUntil := now + l.rlBanMs }

/-- The list after a merge. -/
def banMerged (l : BanList) (f : Family) (now p : Nat) (pnet : Bytes) (first : Fin b44BanMax) :
    BanList :=
  { l with
    ban := mergeSlots l.ban (banInside f now p pnet) banZero first (widenedBan l f now p pnet) }

/-- The base bans behind each entry after a merge. -/
def originsMerged (l : BanList) (origins : Fin b44BanMax → List Nat) (f : Family) (now p : Nat)
    (pnet : Bytes) (first : Fin b44BanMax) : Fin b44BanMax → List Nat :=
  Function.update (fun j => if banInside f now p pnet (l.ban j) = true then [] else origins j)
    first ((insideSlots l f now p pnet).flatMap origins)

theorem banWiden_eq (l : BanList) (seed : Fin b44BanMax) (f : Family) (now i p : Nat) :
    banWiden l seed f now i p =
      match widenInto l f now i p (netMask f (l.ban seed).net p) with
      | none => l
      | some first => banMerged l f now p (netMask f (l.ban seed).net p) first := by
  unfold banWiden widenInto insideWeight insideSlots
  dsimp only
  cases hhead : ((List.finRange b44BanMax).filter fun j =>
      banInside f now p (netMask f (l.ban seed).net p) (l.ban j)).head? with
  | none => rfl
  | some first =>
      dsimp only
      split_ifs with hlt
      · rw [Option.filter_some, decide_eq_false (by omega)]
        rfl
      · rw [Option.filter_some, decide_eq_true (by omega)]
        rfl

theorem mem_insideSlots {j : Fin b44BanMax} :
    j ∈ insideSlots l f now p pnet ↔ banInside f now p pnet (l.ban j) = true := by
  unfold insideSlots
  simp

theorem insideSlots_length :
    (insideSlots l f now p pnet).length = slotCount l.ban (banInside f now p pnet) :=
  length_filter_finRange l.ban _

theorem widenInto_some (h : widenInto l f now i p pnet = some first) :
    banInside f now p pnet (l.ban first) = true ∧ i + 1 ≤ insideWeight l f now p pnet := by
  unfold widenInto at h
  rw [Option.filter_eq_some_iff] at h
  obtain ⟨hhead, hweight⟩ := h
  exact ⟨mem_insideSlots.1 (List.mem_of_mem_head? hhead), by simpa using hweight⟩

theorem widenInto_none (h : widenInto l f now i p pnet = none) :
    insideWeight l f now p pnet < i + 1 := by
  by_contra hnot
  unfold widenInto at h
  rw [Option.filter_eq_none_iff] at h
  cases hslots : insideSlots l f now p pnet with
  | nil =>
      unfold insideWeight at hnot
      rw [hslots] at hnot
      exact hnot (Nat.succ_pos i)
  | cons j rest =>
      apply h j
      · rw [hslots]
        rfl
      · simpa using hnot

/-- Every ban counts once at least. -/
theorem slotCount_le_insideWeight (h : BanInv l now origins bases) :
    slotCount l.ban (banInside f now p pnet) ≤ insideWeight l f now p pnet := by
  rw [← insideSlots_length]
  unfold insideWeight
  have hone : ∀ w ∈ (insideSlots l f now p pnet).map fun j => (l.ban j).weight, 1 ≤ w := by
    intro w hw
    obtain ⟨j, hj, rfl⟩ := List.mem_map.mp hw
    have hactive := (banInside_iff.1 (mem_insideSlots.1 hj)).1
    obtain ⟨k, hk⟩ := h.level hactive
    have hweight := (h.weight f j k hactive hk).1
    omega
  have hsum := List.length_le_sum_of_one_le _ hone
  rwa [List.length_map] at hsum

/-- A ban covers its own prefix. -/
theorem BanInv.contains_net (h : BanInv l now origins bases) {j : Fin b44BanMax}
    (hj : banActive f now (l.ban j) = true) : netContains f (l.ban j) (l.ban j).net = true :=
  netContains_iff.2 (h.fits j f (banActive_iff.1 hj).1).2

/-- A ban of a prefix leaves no other under it. -/
theorem BanInv.alone (h : BanInv l now origins bases) {j k : Fin b44BanMax}
    (hj : banInside f now p pnet (l.ban j) = true) (hbits : (l.ban j).bits = p)
    (hk : banInside f now p pnet (l.ban k) = true) : k = j := by
  obtain ⟨hj, -, hjnet⟩ := banInside_iff.1 hj
  obtain ⟨hk, -, hknet⟩ := banInside_iff.1 hk
  by_contra hne
  apply h.apart f k j hk hj hne (l.ban k).net
  refine ⟨h.contains_net hk, ?_⟩
  rw [netContains_iff, ← (h.fits j f (banActive_iff.1 hj).1).2, hbits, hknet, hjnet]

/-- What a level merges never weighs more than the uses of its prefix allow, far less
than the entry's counter holds. -/
theorem insideWeight_le (h : BanInv l now origins bases) (hi : (b44Ladder f)[i]? = some p)
    (hcrowd : slotCount l.ban (banInside f now p pnet) ≤ i + 1) :
    insideWeight l f now p pnet ≤ (i + 1).factorial := by
  rw [← insideSlots_length] at hcrowd
  by_cases hsame : ∃ j, banInside f now p pnet (l.ban j) = true ∧ (l.ban j).bits = p
  · obtain ⟨j, hj, hbits⟩ := hsame
    have honly : insideSlots l f now p pnet = [j] := by
      have hnodup : (insideSlots l f now p pnet).Nodup := (List.nodup_finRange _).filter _
      apply List.perm_singleton.mp
      rw [List.perm_ext_iff_of_nodup hnodup (List.nodup_singleton j)]
      intro k
      rw [mem_insideSlots, List.mem_singleton]
      constructor
      · exact h.alone hj hbits
      · rintro rfl
        exact hj
    have hweight := (h.weight f j i (banInside_iff.1 hj).1 (by rw [hbits]; exact hi)).2
    unfold insideWeight
    rw [honly]
    simpa using hweight
  · have hle : ∀ w ∈ (insideSlots l f now p pnet).map fun j => (l.ban j).weight,
        w ≤ i.factorial := by
      intro w hw
      obtain ⟨j, hj, rfl⟩ := List.mem_map.mp hw
      have hj := mem_insideSlots.1 hj
      obtain ⟨hactive, hpj, -⟩ := banInside_iff.1 hj
      obtain ⟨k, hk⟩ := h.level hactive
      have hki : k ≤ i := (b44Ladder_le_iff hi hk).mp hpj
      have hne : k ≠ i := by
        rintro rfl
        exact hsame ⟨j, hj, Option.some.inj (hk.symm.trans hi)⟩
      exact le_trans (h.weight f j k hactive hk).2 (Nat.factorial_le (by omega))
    have hsum := List.sum_le_card_nsmul _ _ hle
    rw [List.length_map, smul_eq_mul] at hsum
    calc insideWeight l f now p pnet ≤ (insideSlots l f now p pnet).length * i.factorial := hsum
      _ ≤ (i + 1) * i.factorial := Nat.mul_le_mul_right _ hcrowd
      _ = (i + 1).factorial := (Nat.factorial_succ i).symm

theorem banMerged_first : (banMerged l f now p pnet first).ban first = widenedBan l f now p pnet :=
  mergeSlots_self _ _ _ _ _

theorem banMerged_other {j : Fin b44BanMax} (hj : j ≠ first) :
    (banMerged l f now p pnet first).ban j =
      if banInside f now p pnet (l.ban j) = true then banZero else l.ban j :=
  mergeSlots_of_ne _ _ _ hj _

theorem originsMerged_other {j : Fin b44BanMax} (hj : j ≠ first) :
    originsMerged l origins f now p pnet first j =
      if banInside f now p pnet (l.ban j) = true then [] else origins j :=
  Function.update_of_ne hj _ _

variable (origins) in
/-- The bans in force after a merge: the new one, and those not under its prefix. -/
theorem banMerged_active {g : Family} {j : Fin b44BanMax}
    (h : banActive g now ((banMerged l f now p pnet first).ban j) = true) :
    (j = first ∧ g = f) ∨
      (j ≠ first ∧ banInside f now p pnet (l.ban j) = false ∧
        (banMerged l f now p pnet first).ban j = l.ban j ∧
        originsMerged l origins f now p pnet first j = origins j ∧
        banActive g now (l.ban j) = true) := by
  by_cases hj : j = first
  · subst hj
    rw [banMerged_first] at h
    obtain ⟨hfam, -⟩ := banActive_iff.mp h
    exact .inl ⟨rfl, (Option.some.inj hfam).symm⟩
  · right
    rw [banMerged_other hj] at h
    by_cases hin : banInside f now p pnet (l.ban j) = true
    · rw [if_pos hin] at h
      cases h
    · rw [if_neg hin] at h
      refine ⟨hj, by simpa using hin, ?_, ?_, h⟩
      · rw [banMerged_other hj, if_neg hin]
      · rw [originsMerged_other hj, if_neg hin]

/-- The prefix that a level looks at is cut to its length. -/
structure IsNet (f : Family) (p : Nat) (pnet : Bytes) : Prop where
  len : pnet.length = famLen f
  cut : netMask f pnet p = pnet

theorem isNet_netMask (f : Family) (p : Nat) {net : Bytes} (h : net.length = 16) :
    IsNet f p (netMask f net p) := by
  constructor
  · rw [netMask_length, h]
    cases f <;> rfl
  · exact (netMask_mask f).cut net le_rfl

theorem netStored_length {net : Bytes} (hnet : IsNet f p net) : (netStored net).length = 16 := by
  unfold netStored
  rw [List.length_append, List.length_replicate, hnet.len]
  cases f <;> rfl

theorem netStored_take {net : Bytes} (hnet : IsNet f p net) :
    (netStored net).take (famLen f) = net := by
  unfold netStored
  rw [← hnet.len, List.take_left]

theorem netMask_netStored {net : Bytes} (hnet : IsNet f p net) (q : Nat) :
    netMask f (netStored net) q = netMask f net q := by
  rw [← netMask_take, netStored_take hnet]

theorem widenedBan_contains (hnet : IsNet f p pnet) {a : Bytes} :
    netContains f (widenedBan l f now p pnet) a = true ↔ netMask f a p = pnet := by
  rw [netContains_iff]
  show netMask f a p = (netStored pnet).take (famLen f) ↔ _
  rw [netStored_take hnet]

theorem insideWeight_mod (h : BanInv l now origins bases) (hi : (b44Ladder f)[i]? = some p)
    (hcrowd : slotCount l.ban (banInside f now p pnet) ≤ i + 1) :
    (widenedBan l f now p pnet).weight = insideWeight l f now p pnet := by
  apply Nat.mod_eq_of_lt
  have hbound := insideWeight_le h hi hcrowd
  have hi6 := b44Ladder_length f hi
  have hfact : (i + 1).factorial ≤ Nat.factorial 6 := Nat.factorial_le (by omega)
  have hsix : Nat.factorial 6 = 720 := by decide
  omega

/-- A ban that is left has nothing in common with the prefix: it is not under it, and a
ban around it would cover the one that is merged. -/
theorem BanInv.left_apart (h : BanInv l now origins bases)
    (hfirst : banInside f now p pnet (l.ban first) = true) {j : Fin b44BanMax}
    (hout : banInside f now p pnet (l.ban j) = false)
    (hactive : banActive f now (l.ban j) = true) {a : Bytes} (ha : netMask f a p = pnet) :
    ¬netContains f (l.ban j) a = true := by
  intro hja
  by_cases hle : p ≤ (l.ban j).bits
  · rw [inside_of_common hactive hle hja ha] at hout
    cases hout
  · obtain ⟨hfa, -, hfnet⟩ := banInside_iff.mp hfirst
    have hne : first ≠ j := by
      rintro rfl
      rw [hout] at hfirst
      cases hfirst
    apply h.apart f first j hfa hactive hne (l.ban first).net
    refine ⟨h.contains_net hfa, ?_⟩
    rw [netContains_iff] at hja ⊢
    have hcut : netMask f (l.ban first).net (l.ban j).bits = netMask f a (l.ban j).bits := by
      have h1 := netMask_mask f (l.ban first).net (l.ban j).bits p
      have h2 := netMask_mask f a (l.ban j).bits p
      rw [min_eq_left (by omega)] at h1 h2
      rw [← h1, ← h2, hfnet, ha]
    rw [hcut, hja]

theorem banMerged_apart (h : BanInv l now origins bases) (hnet : IsNet f p pnet)
    (hfirst : banInside f now p pnet (l.ban first) = true) {g : Family} {j k : Fin b44BanMax}
    (hj : banActive g now ((banMerged l f now p pnet first).ban j) = true)
    (hk : banActive g now ((banMerged l f now p pnet first).ban k) = true) (hjk : j ≠ k)
    (a : Bytes) :
    ¬(netContains g ((banMerged l f now p pnet first).ban j) a = true ∧
      netContains g ((banMerged l f now p pnet first).ban k) a = true) := by
  rcases banMerged_active origins hj with
    ⟨rfl, rfl⟩ | ⟨-, hjout, hjban, -, hjact⟩ <;>
  rcases banMerged_active origins hk with
    ⟨rfl, hg⟩ | ⟨-, hkout, hkban, -, hkact⟩
  · exact absurd rfl hjk
  · rw [banMerged_first, hkban, widenedBan_contains hnet]
    rintro ⟨ha, hka⟩
    exact h.left_apart hfirst hkout hkact ha hka
  · subst hg
    rw [banMerged_first, hjban, widenedBan_contains hnet]
    rintro ⟨hja, ha⟩
    exact h.left_apart hfirst hjout hjact ha hja
  · rw [hjban, hkban]
    exact h.apart g j k hjact hkact hjk a

/-- The base bans behind the prefix are behind no ban that is left. -/
theorem BanInv.merged_shared (h : BanInv l now origins bases) {g : Family} {j : Fin b44BanMax}
    (hout : banInside f now p pnet (l.ban j) = false)
    (hact : banActive g now (l.ban j) = true) :
    ((insideSlots l f now p pnet).flatMap origins).Disjoint (origins j) := by
  intro x hx hxj
  obtain ⟨m, hm, hxm⟩ := List.mem_flatMap.mp hx
  have hm := mem_insideSlots.1 hm
  have hmj : m ≠ j := by
    rintro rfl
    rw [hout] at hm
    cases hm
  exact h.shared f g m j (banInside_iff.mp hm).1 hact hmj hxm hxj

theorem BanInv.merged_once (h : BanInv l now origins bases) :
    ((insideSlots l f now p pnet).flatMap origins).Nodup := by
  rw [List.nodup_flatMap]
  constructor
  · intro m hm
    exact h.once f m (banInside_iff.mp (mem_insideSlots.1 hm)).1
  · apply List.Nodup.pairwise_of_forall_ne ((List.nodup_finRange _).filter _)
    intro m hm k hk hmk
    exact h.shared f f m k (banInside_iff.mp (mem_insideSlots.1 hm)).1
      (banInside_iff.mp (mem_insideSlots.1 hk)).1 hmk

theorem originsMerged_first : originsMerged l origins f now p pnet first first =
    (insideSlots l f now p pnet).flatMap origins :=
  Function.update_self _ _ _

/-- A merge keeps the list in order. -/
theorem banMerged_banInv (h : BanInv l now origins bases) (hi : (b44Ladder f)[i]? = some p)
    (hnet : IsNet f p pnet) (hinto : widenInto l f now i p pnet = some first)
    (hcrowd : slotCount l.ban (banInside f now p pnet) ≤ i + 1) :
    BanInv (banMerged l f now p pnet first) now (originsMerged l origins f now p pnet first)
      bases := by
  obtain ⟨hfirst, hweight⟩ := widenInto_some hinto
  have hsmall := insideWeight_mod h hi hcrowd
  constructor
  case netLen =>
    intro j
    by_cases hj : j = first
    · subst hj
      rw [banMerged_first]
      exact netStored_length hnet
    · rw [banMerged_other hj]
      split_ifs
      · rfl
      · exact h.netLen j
  case fits =>
    intro j g hfam
    by_cases hj : j = first
    · subst hj
      rw [banMerged_first] at hfam ⊢
      obtain rfl : f = g := Option.some.inj hfam
      refine ⟨List.mem_of_getElem? hi, ?_⟩
      show netMask f (netStored pnet) p = (netStored pnet).take (famLen f)
      rw [netMask_netStored hnet, netStored_take hnet, hnet.cut]
    · rw [banMerged_other hj] at hfam ⊢
      split_ifs at hfam ⊢
      · cases hfam
      · exact h.fits j g hfam
  case till =>
    intro j
    by_cases hj : j = first
    · subst hj
      rw [banMerged_first]
      exact le_rfl
    · rw [banMerged_other hj]
      split_ifs
      · exact Nat.zero_le _
      · exact h.till j
  case apart => exact fun _ _ _ hj hk hjk a => banMerged_apart h hnet hfirst hj hk hjk a
  case weight =>
    intro g j k hj hk
    rcases banMerged_active origins hj with ⟨rfl, rfl⟩ | ⟨-, -, hjban, -, hjact⟩
    · rw [banMerged_first] at hk ⊢
      have hki : k = i := by
        have h1 := (b44Ladder_le_iff hi hk).mp le_rfl
        have h2 := (b44Ladder_le_iff hk hi).mp le_rfl
        omega
      subst hki
      rw [hsmall]
      exact ⟨hweight, insideWeight_le h hi hcrowd⟩
    · rw [hjban] at hk ⊢
      exact h.weight g j k hjact hk
  case counted =>
    intro g j hj
    rcases banMerged_active origins hj with
      ⟨rfl, rfl⟩ | ⟨-, -, hjban, hjorig, hjact⟩
    · rw [banMerged_first, originsMerged_first, hsmall, List.length_flatMap]
      unfold insideWeight
      congr 1
      apply List.map_congr_left
      intro m hm
      exact h.counted g m (banInside_iff.mp (mem_insideSlots.1 hm)).1
    · rw [hjban, hjorig]
      exact h.counted g j hjact
  case once =>
    intro g j hj
    rcases banMerged_active origins hj with ⟨rfl, rfl⟩ | ⟨-, -, -, hjorig, hjact⟩
    · rw [originsMerged_first]
      exact h.merged_once
    · rw [hjorig]
      exact h.once g j hjact
  case shared =>
    intro g g' j k hj hk hjk
    rcases banMerged_active origins hj with
      ⟨rfl, rfl⟩ | ⟨-, hjout, -, hjorig, hjact⟩ <;>
    rcases banMerged_active origins hk with
      ⟨rfl, hg⟩ | ⟨-, hkout, -, hkorig, hkact⟩
    · exact absurd rfl hjk
    · rw [hkorig, originsMerged_first]
      exact h.merged_shared hkout hkact
    · rw [hjorig, originsMerged_first]
      exact (h.merged_shared hjout hjact).symm
    · rw [hjorig, hkorig]
      exact h.shared g g' j k hjact hkact hjk
  case inside =>
    intro g j hj m hm
    rcases banMerged_active origins hj with
      ⟨rfl, rfl⟩ | ⟨-, -, hjban, hjorig, hjact⟩
    · rw [originsMerged_first] at hm
      obtain ⟨k, hk, hmk⟩ := List.mem_flatMap.mp hm
      have hk := mem_insideSlots.1 hk
      obtain ⟨a, hbase, ha⟩ := h.inside g k (banInside_iff.mp hk).1 m hmk
      refine ⟨a, hbase, ?_⟩
      rw [banMerged_first, widenedBan_contains hnet]
      exact covers_of_inside hk ha
    · rw [hjorig] at hm
      rw [hjban]
      exact h.inside g j hjact m hm

/-- Whoever was banned still is, for as long at least. -/
def Covers (now : Nat) (l l' : BanList) : Prop :=
  ∀ g j a, banActive g now (l.ban j) = true → netContains g (l.ban j) a = true →
    ∃ k, banActive g now (l'.ban k) = true ∧ netContains g (l'.ban k) a = true ∧
      (l.ban j).bannedUntil ≤ (l'.ban k).bannedUntil

theorem Covers.refl (now : Nat) (l : BanList) : Covers now l l :=
  fun _ j _ hj ha => ⟨j, hj, ha, le_rfl⟩

theorem Covers.trans {l' l'' : BanList} (h : Covers now l l') (h' : Covers now l' l'') :
    Covers now l l'' := by
  intro g j a hj ha
  obtain ⟨k, hk, hka, hle⟩ := h g j a hj ha
  obtain ⟨m, hm, hma, hle'⟩ := h' g k a hk hka
  exact ⟨m, hm, hma, hle.trans hle'⟩

theorem banMerged_covers (h : BanInv l now origins bases) (hnet : IsNet f p pnet)
    (hfirst : banInside f now p pnet (l.ban first) = true) :
    Covers now l (banMerged l f now p pnet first) := by
  intro g j a hj ha
  by_cases hin : banInside f now p pnet (l.ban j) = true
  · -- merged: the wider ban runs from now on
    have hfam := (banActive_iff.mp (banInside_iff.mp hin).1).1
    have hgf : g = f := Option.some.inj ((banActive_iff.mp hj).1.symm.trans hfam)
    subst hgf
    have hlong : (l.ban j).bannedUntil ≤ now + l.rlBanMs := h.till j
    refine ⟨first, ?_, ?_, ?_⟩
    · rw [banMerged_first, banActive_iff]
      exact ⟨rfl, lt_of_lt_of_le (banActive_iff.mp hj).2 hlong⟩
    · rw [banMerged_first, widenedBan_contains hnet]
      exact covers_of_inside hin ha
    · rw [banMerged_first]
      exact hlong
  · have hne : j ≠ first := by
      rintro rfl
      exact hin hfirst
    refine ⟨j, ?_, ?_, ?_⟩ <;> rw [banMerged_other hne, if_neg hin]
    · exact hj
    · exact ha

/-- A merge leaves an entry that only tracks its source as it is. -/
theorem banMerged_trackers (h : BanInv l now origins bases)
    (hfirst : banInside f now p pnet (l.ban first) = true) {j : Fin b44BanMax}
    (hfam : ((banMerged l f now p pnet first).ban j).family ≠ none)
    (hzero : ((banMerged l f now p pnet first).ban j).bannedUntil = 0) :
    (banMerged l f now p pnet first).ban j = l.ban j := by
  by_cases hj : j = first
  · subst hj
    rw [banMerged_first] at hzero
    have htill : now + l.rlBanMs = 0 := hzero
    have hact := (banActive_iff.mp (banInside_iff.mp hfirst).1).2
    have hlong := h.till j
    omega
  · rw [banMerged_other hj] at hfam ⊢
    split_ifs at hfam ⊢
    · exact absurd rfl hfam
    · rfl

/-- A wider prefix loses the bans that were merged and gains one. -/
theorem banMerged_crowd (h : BanInv l now origins bases) (hnet : IsNet f p pnet)
    (hfirst : banInside f now p pnet (l.ban first) = true) {q : Nat} {qnet : Bytes}
    (hqp : q ≤ p) (hq : netMask f pnet q = qnet) :
    slotCount (banMerged l f now p pnet first).ban (banInside f now q qnet) +
        slotCount l.ban (banInside f now p pnet) =
      slotCount l.ban (banInside f now q qnet) + 1 := by
  have hnew : banInside f now q qnet (widenedBan l f now p pnet) = true := by
    rw [banInside_iff, banActive_iff]
    refine ⟨⟨rfl, ?_⟩, hqp, ?_⟩
    · have hact := (banActive_iff.mp (banInside_iff.mp hfirst).1).2
      exact lt_of_lt_of_le hact (h.till first)
    · show netMask f (netStored pnet) q = qnet
      rw [netMask_netStored hnet, hq]
  have hsub : ∀ b, banInside f now p pnet b = true → banInside f now q qnet b = true := by
    intro b hb
    obtain ⟨hact, hle, hbnet⟩ := banInside_iff.mp hb
    rw [banInside_iff]
    refine ⟨hact, hqp.trans hle, ?_⟩
    have hcut := netMask_mask f b.net q p
    rw [min_eq_left hqp] at hcut
    rw [← hcut, hbnet, hq]
  have hboth : slotCount l.ban (fun b => banInside f now q qnet b && banInside f now p pnet b) =
      slotCount l.ban (banInside f now p pnet) := by
    apply slotCount_congr
    intro j
    by_cases hj : banInside f now p pnet (l.ban j) = true
    · rw [hj, hsub _ hj]
      rfl
    · simp [hj]
  have hsplit := slotCount_split l.ban (banInside f now q qnet) (banInside f now p pnet)
  have hmerge := slotCount_merge (x := widenedBan l f now p pnet) hfirst
    (banInside_banZero f now q qnet)
  rw [hnew, if_pos rfl] at hmerge
  show slotCount (mergeSlots _ _ _ _ _) _ + _ = _
  omega

/-- No prefix gets more crowded by a merge. -/
theorem banMerged_crowd_le (h : BanInv l now origins bases) (hnet : IsNet f p pnet)
    (hfirst : banInside f now p pnet (l.ban first) = true) (g : Family) (q : Nat)
    (qnet : Bytes) :
    slotCount (banMerged l f now p pnet first).ban (banInside g now q qnet) ≤
      slotCount l.ban (banInside g now q qnet) := by
  by_cases hnew : banInside g now q qnet (widenedBan l f now p pnet) = true
  · obtain ⟨hact, hle, hqnet⟩ := banInside_iff.mp hnew
    obtain rfl : f = g := Option.some.inj (banActive_iff.mp hact).1
    have hqp : q ≤ p := hle
    have hq : netMask f pnet q = qnet := by
      rw [← netMask_netStored hnet]
      exact hqnet
    have hcount := banMerged_crowd h hnet hfirst hqp hq
    have hpos := slotCount_pos hfirst
    omega
  · have hmerge := slotCount_merge (x := widenedBan l f now p pnet) hfirst
      (banInside_banZero g now q qnet)
    rw [if_neg hnew] at hmerge
    show slotCount (mergeSlots _ _ _ _ _) _ ≤ _
    rw [hmerge, Nat.add_zero]
    apply slotCount_mono
    intro j hj
    simp only [Bool.and_eq_true] at hj
    exact hj.1

/-! ## The whole ladder -/

/-- One level, with the base bans behind each entry. -/
def widenLog (seed : Fin b44BanMax) (f : Family) (now : Nat)
    (s : BanList × (Fin b44BanMax → List Nat)) (level : Nat × Nat) :
    BanList × (Fin b44BanMax → List Nat) :=
  let pnet := netMask f (s.1.ban seed).net level.1
  (banWiden s.1 seed f now level.2 level.1,
    match widenInto s.1 f now level.2 level.1 pnet with
    | none => s.2
    | some first => originsMerged s.1 s.2 f now level.1 pnet first)

/-- `ban_escalate`, with the base bans behind each entry. -/
def escalateLog (l : BanList) (origins : Fin b44BanMax → List Nat) (seed : Fin b44BanMax)
    (f : Family) (now : Nat) : BanList × (Fin b44BanMax → List Nat) :=
  ((b44Ladder f).zipIdx.drop 1).foldl (widenLog seed f now) (l, origins)

theorem escalateLog_fst (l : BanList) (origins : Fin b44BanMax → List Nat)
    (seed : Fin b44BanMax) (f : Family) (now : Nat) :
    (escalateLog l origins seed f now).1 = banEscalate l seed f now := by
  unfold escalateLog banEscalate
  induction (b44Ladder f).zipIdx.drop 1 generalizing l origins with
  | nil => rfl
  | cons level rest ih =>
      rw [List.foldl_cons, List.foldl_cons]
      exact ih _ _

/-- The ladder up to level `i` after a base ban at `x`: either nothing was merged yet,
and only the prefixes of `x` further up may have one ban too many, or no prefix has. -/
def Widening (f : Family) (now : Nat) (seed : Fin b44BanMax) (x : Bytes) (i : Nat)
    (l : BanList) : Prop :=
  Crowd f l now ∨
    (banActive f now (l.ban seed) = true ∧ (l.ban seed).bits = banBaseBits f ∧
      (l.ban seed).net.take (famLen f) = x ∧ (l.ban seed).weight = 1 ∧
      ∀ k p pnet, 1 ≤ k → (b44Ladder f)[k]? = some p →
        slotCount l.ban (banInside f now p pnet) ≤ k ∨
          (i ≤ k ∧ netMask f x p = pnet ∧ slotCount l.ban (banInside f now p pnet) ≤ k + 1))

/-- No prefix has more than one ban too many. -/
theorem Widening.crowd {seed : Fin b44BanMax} {x : Bytes} {m : Nat}
    (h : Widening f now seed x m l) (hpos : 1 ≤ i) (hi : (b44Ladder f)[i]? = some p) :
    slotCount l.ban (banInside f now p pnet) ≤ i + 1 := by
  rcases h with hcrowd | ⟨-, -, -, -, hcrowd⟩
  · exact (hcrowd i p pnet hpos hi).trans (Nat.le_succ i)
  · rcases hcrowd i p pnet hpos hi with hle | ⟨-, -, hle⟩
    · exact hle.trans (Nat.le_succ i)
    · exact hle

/-- The base ban lies under each prefix of its address. -/
theorem seed_inside {seed : Fin b44BanMax} (hact : banActive f now (l.ban seed) = true)
    (hbits : (l.ban seed).bits = banBaseBits f) (hi : (b44Ladder f)[i]? = some p) :
    banInside f now p (netMask f (l.ban seed).net p) (l.ban seed) = true := by
  rw [banInside_iff, hbits]
  refine ⟨hact, ?_, rfl⟩
  have hzero : (b44Ladder f)[0]? = some (banBaseBits f) := by
    cases f <;> rfl
  exact (b44Ladder_le_iff hi hzero).mpr (Nat.zero_le i)

/-- A level that merges leaves no prefix with a ban too many. -/
theorem banMerged_widening (h : BanInv l now origins bases) {seed : Fin b44BanMax} {x : Bytes}
    (hw : Widening f now seed x i l) (hpos : 1 ≤ i) (hi : (b44Ladder f)[i]? = some p)
    (hinto : widenInto l f now i p (netMask f (l.ban seed).net p) = some first) :
    Crowd f (banMerged l f now p (netMask f (l.ban seed).net p) first) now := by
  obtain ⟨hfirst, hweight⟩ := widenInto_some hinto
  have hnet := isNet_netMask f p (h.netLen seed)
  intro k q qnet hk hq
  have hle := banMerged_crowd_le h hnet hfirst f q qnet
  rcases hw with hcrowd | ⟨hact, hbits, hx, hone, hcrowd⟩
  · exact hle.trans (hcrowd k q qnet hk hq)
  · rcases hcrowd k q qnet hk hq with hfew | ⟨hik, hxq, hmany⟩
    · exact hle.trans hfew
    · -- a prefix around the base ban: at least one more ban was merged with it
      have hqp : q ≤ p := (b44Ladder_le_iff hq hi).mpr hik
      have hqnet : netMask f (netMask f (l.ban seed).net p) q = qnet := by
        rw [netMask_mask f, min_eq_left hqp, ← netMask_take, hx, hxq]
      have hcount := banMerged_crowd h hnet hfirst hqp hqnet
      have htwo : 2 ≤ slotCount l.ban (banInside f now p (netMask f (l.ban seed).net p)) := by
        by_contra hless
        rw [← insideSlots_length] at hless
        have hseed := mem_insideSlots.mpr (seed_inside hact hbits hi)
        have hlen := List.length_pos_of_mem hseed
        have hlen1 : (insideSlots l f now p (netMask f (l.ban seed).net p)).length = 1 := by
          omega
        obtain ⟨j, hj⟩ := List.length_eq_one_iff.mp hlen1
        rw [hj, List.mem_singleton] at hseed
        unfold insideWeight at hweight
        rw [hj, ← hseed] at hweight
        simp only [List.map_cons, List.map_nil, List.sum_cons, List.sum_nil, hone] at hweight
        omega
      omega

/-- A level that merges nothing had no ban too many. -/
theorem Widening.next (h : BanInv l now origins bases) {seed : Fin b44BanMax} {x : Bytes}
    (hw : Widening f now seed x i l) (hi : (b44Ladder f)[i]? = some p)
    (hinto : widenInto l f now i p (netMask f (l.ban seed).net p) = none) :
    Widening f now seed x (i + 1) l := by
  rcases hw with hcrowd | ⟨hact, hbits, hx, hone, hcrowd⟩
  · exact .inl hcrowd
  · right
    refine ⟨hact, hbits, hx, hone, ?_⟩
    intro k q qnet hk hq
    rcases hcrowd k q qnet hk hq with hfew | ⟨hik, hxq, hmany⟩
    · exact .inl hfew
    · by_cases hki : k = i
      · left
        subst hki
        obtain rfl : p = q := Option.some.inj (hi.symm.trans hq)
        have hlight := widenInto_none hinto
        rw [← netMask_take, hx, hxq] at hlight
        have hcount : slotCount l.ban (banInside f now p qnet) ≤ insideWeight l f now p qnet :=
          slotCount_le_insideWeight h
        omega
      · exact .inr ⟨by omega, hxq, hmany⟩

/-- What one level leaves. -/
structure LevelDone (f : Family) (now : Nat) (bases : List (Family × Bytes)) (l : BanList)
    (s : BanList × (Fin b44BanMax → List Nat)) : Prop where
  inv : BanInv s.1 now s.2 bases
  covers : Covers now l s.1
  others : ∀ g, g ≠ f → Crowd g l now → Crowd g s.1 now
  trackers : ∀ j, (s.1.ban j).family ≠ none → (s.1.ban j).bannedUntil = 0 → s.1.ban j = l.ban j
  limits : s.1.rlBanMs = l.rlBanMs ∧ s.1.rlRate = l.rlRate

theorem LevelDone.trans {l : BanList} {s s' : BanList × (Fin b44BanMax → List Nat)}
    (h : LevelDone f now bases l s) (h' : LevelDone f now bases s.1 s') :
    LevelDone f now bases l s' := by
  constructor
  · exact h'.inv
  · exact h.covers.trans h'.covers
  · intro g hg hcrowd
    exact h'.others g hg (h.others g hg hcrowd)
  · intro j hfam hzero
    have hsame := h'.trackers j hfam hzero
    rw [hsame] at hfam hzero ⊢
    exact h.trackers j hfam hzero
  · exact ⟨h'.limits.1.trans h.limits.1, h'.limits.2.trans h.limits.2⟩

theorem widenLog_done (h : BanInv l now origins bases) {seed : Fin b44BanMax} {x : Bytes}
    (hw : Widening f now seed x i l) (hpos : 1 ≤ i) (hi : (b44Ladder f)[i]? = some p) :
    LevelDone f now bases l (widenLog seed f now (l, origins) (p, i)) ∧
      Widening f now seed x (i + 1) (widenLog seed f now (l, origins) (p, i)).1 := by
  have hnet := isNet_netMask f p (h.netLen seed)
  unfold widenLog
  dsimp only
  rw [banWiden_eq]
  cases hinto : widenInto l f now i p (netMask f (l.ban seed).net p) with
  | none =>
      refine ⟨⟨h, Covers.refl now l, fun _ _ hcrowd => hcrowd, fun _ _ _ => rfl, rfl, rfl⟩, ?_⟩
      exact hw.next h hi hinto
  | some first =>
      have hfirst := (widenInto_some hinto).1
      refine ⟨⟨?_, ?_, ?_, ?_, rfl, rfl⟩, .inl (banMerged_widening h hw hpos hi hinto)⟩
      · exact banMerged_banInv h hi hnet hinto (hw.crowd hpos hi)
      · exact banMerged_covers h hnet hfirst
      · intro g _ hcrowd k q qnet hk hq
        exact (banMerged_crowd_le h hnet hfirst g q qnet).trans (hcrowd k q qnet hk hq)
      · exact fun j hfam hzero => banMerged_trackers h hfirst hfam hzero

/-- The whole ladder keeps the list in order, unbans nobody, and leaves no prefix with
a ban too many. -/
theorem banEscalate_spec (h : BanInv l now origins bases) {seed : Fin b44BanMax} {x : Bytes}
    (hw : Widening f now seed x 1 l) :
    LevelDone f now bases l (escalateLog l origins seed f now) ∧
      Crowd f (escalateLog l origins seed f now).1 now := by
  -- from level `i` up, by induction on the levels that are left
  have hrest : ∀ (rest : List (Nat × Nat)) (i : Nat) (s : BanList × (Fin b44BanMax → List Nat)),
      (b44Ladder f).zipIdx.drop i = rest → 1 ≤ i → BanInv s.1 now s.2 bases →
      Widening f now seed x i s.1 →
      LevelDone f now bases s.1 (rest.foldl (widenLog seed f now) s) ∧
        ∃ m, (b44Ladder f).length ≤ m ∧
          Widening f now seed x m (rest.foldl (widenLog seed f now) s).1 := by
    intro rest
    induction rest with
    | nil =>
        intro i s hdrop _ hinv hwid
        refine ⟨⟨hinv, Covers.refl now _, fun _ _ hcrowd => hcrowd, fun _ _ _ => rfl, rfl, rfl⟩,
          i, ?_, hwid⟩
        have hlen := List.drop_eq_nil_iff.mp hdrop
        rwa [List.length_zipIdx] at hlen
    | cons level rest ih =>
        intro i s hdrop hpos hinv hwid
        have hlevel : (b44Ladder f).zipIdx[i]? = some level := by
          rw [← List.head?_drop, hdrop]
          rfl
        rw [List.getElem?_zipIdx, Option.map_eq_some_iff] at hlevel
        obtain ⟨p, hi, rfl⟩ := hlevel
        rw [Nat.zero_add] at hdrop ⊢
        obtain ⟨hdone, hnext⟩ := widenLog_done hinv hwid hpos hi
        have htail : (b44Ladder f).zipIdx.drop (i + 1) = rest := by
          rw [← List.tail_drop, hdrop]
          rfl
        obtain ⟨hdone', m, hm, hlast⟩ := ih (i + 1) _ htail (by omega) hdone.inv hnext
        exact ⟨hdone.trans hdone', m, hm, hlast⟩
  obtain ⟨hdone, m, hm, hlast⟩ := hrest _ 1 (l, origins) rfl le_rfl h hw
  refine ⟨hdone, ?_⟩
  rcases hlast with hcrowd | ⟨-, -, -, -, hcrowd⟩
  · exact hcrowd
  · intro k p pnet hk hp
    rcases hcrowd k p pnet hk hp with hfew | ⟨hmk, -⟩
    · exact hfew
    · have hlt := (List.getElem?_eq_some_iff.mp hp).1
      omega

end Level

end Bep44
end Comrade
