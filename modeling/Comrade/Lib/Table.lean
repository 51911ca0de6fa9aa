import Mathlib

/-!
# Fixed tables of slots

A C array of records scanned by index is a function `Fin n → α`.  A scan that
returns the first slot passing a test is `firstSlot`, a write to one slot is
`Function.update`, and a counter kept beside the table is right when it equals
`slotCount`.

* `firstSlot_eq_some_iff`, `firstSlot_eq_none_iff` specify the scan.
* `slotCount_update` is the change of a counter under one write.
* `UniqueKey` says that the slots in use carry distinct keys.
* `exists_unused_slot` is the pigeonhole for such a table.
-/

namespace Comrade
namespace Lib

variable {n : Nat} {α κ : Type*}

/-- The first slot whose record passes the test. -/
def firstSlot (t : Fin n → α) (p : α → Bool) : Option (Fin n) :=
  Fin.find? fun i => p (t i)

theorem firstSlot_eq_some_iff {t : Fin n → α} {p : α → Bool} {i : Fin n} :
    firstSlot t p = some i ↔ p (t i) = true ∧ ∀ j < i, p (t j) = false := by
  unfold firstSlot
  rw [Fin.find?_eq_some_iff]

theorem firstSlot_eq_none_iff {t : Fin n → α} {p : α → Bool} :
    firstSlot t p = none ↔ ∀ i, p (t i) = false := by
  unfold firstSlot
  rw [Fin.find?_eq_none_iff]

/-- The record found passes the test. -/
theorem firstSlot_spec {t : Fin n → α} {p : α → Bool} {i : Fin n}
    (h : firstSlot t p = some i) : p (t i) = true :=
  (firstSlot_eq_some_iff.1 h).1

/-- The number of slots whose record passes the test. -/
def slotCount (t : Fin n → α) (p : α → Bool) : Nat :=
  (Finset.univ.filter fun i => p (t i) = true).card

theorem slotCount_pos {t : Fin n → α} {p : α → Bool} {i : Fin n} (h : p (t i) = true) :
    0 < slotCount t p :=
  Finset.card_pos.mpr ⟨i, by simpa using h⟩

/-- One write moves the count by the difference of the two records. -/
theorem slotCount_update (t : Fin n → α) (p : α → Bool) (i : Fin n) (x : α) :
    slotCount (Function.update t i x) p + (if p (t i) = true then 1 else 0) =
      slotCount t p + (if p x = true then 1 else 0) := by
  -- split off slot `i` on both sides: the other slots contribute alike
  unfold slotCount
  rw [Finset.card_filter, Finset.card_filter,
    ← Finset.add_sum_erase _ _ (Finset.mem_univ i),
    ← Finset.add_sum_erase (Finset.univ) (fun j => if p (t j) = true then 1 else 0)
      (Finset.mem_univ i)]
  have hrest : ∑ j ∈ Finset.univ.erase i, (if p (Function.update t i x j) = true then 1 else 0) =
      ∑ j ∈ Finset.univ.erase i, (if p (t j) = true then 1 else 0) := by
    refine Finset.sum_congr rfl ?_
    intro j hj
    rw [Function.update_of_ne (Finset.ne_of_mem_erase hj)]
  rw [hrest, Function.update_self]
  omega

theorem slotCount_mono {t t' : Fin n → α} {p q : α → Bool}
    (h : ∀ i, p (t i) = true → q (t' i) = true) : slotCount t p ≤ slotCount t' q := by
  apply Finset.card_le_card
  intro i hi
  rw [Finset.mem_filter] at hi ⊢
  exact ⟨hi.1, h i hi.2⟩

theorem slotCount_congr {t t' : Fin n → α} {p q : α → Bool} (h : ∀ i, p (t i) = q (t' i)) :
    slotCount t p = slotCount t' q := by
  unfold slotCount
  simp only [h]

/-- The slots that pass one test split by any other. -/
theorem slotCount_split (t : Fin n → α) (p q : α → Bool) :
    slotCount t (fun x => p x && q x) + slotCount t (fun x => p x && !q x) = slotCount t p := by
  unfold slotCount
  rw [← Finset.card_filter_add_card_filter_not (s := Finset.univ.filter fun i => p (t i) = true)
    (fun i => q (t i) = true), Finset.filter_filter, Finset.filter_filter]
  simp only [Bool.and_eq_true, Bool.not_eq_true', Bool.not_eq_true]

/-- The number of slots that pass is the length of the list of them. -/
theorem length_filter_finRange (t : Fin n → α) (p : α → Bool) :
    ((List.finRange n).filter fun i => p (t i)).length = slotCount t p := by
  rw [← List.toFinset_card_of_nodup ((List.nodup_finRange n).filter _)]
  unfold slotCount
  congr 1
  ext i
  simp

/-- The slots that pass `gone` are cleared and one of them takes a new record. -/
def mergeSlots (t : Fin n → α) (gone : α → Bool) (zero : α) (i : Fin n) (x : α) : Fin n → α :=
  Function.update (fun j => if gone (t j) = true then zero else t j) i x

theorem mergeSlots_self (t : Fin n → α) (gone : α → Bool) (zero : α) (i : Fin n) (x : α) :
    mergeSlots t gone zero i x i = x := by
  unfold mergeSlots
  rw [Function.update_self]

theorem mergeSlots_of_ne (t : Fin n → α) (gone : α → Bool) (zero : α) {i j : Fin n} (hj : j ≠ i)
    (x : α) : mergeSlots t gone zero i x j = if gone (t j) = true then zero else t j := by
  unfold mergeSlots
  rw [Function.update_of_ne hj]

/-- What passes a test after a merge passed it before in a slot that was left, or is
the new record. -/
theorem slotCount_merge {t : Fin n → α} {gone p : α → Bool} {zero x : α} {i : Fin n}
    (hi : gone (t i) = true) (hzero : p zero = false) :
    slotCount (mergeSlots t gone zero i x) p =
      slotCount t (fun y => p y && !gone y) + (if p x = true then 1 else 0) := by
  have hupdate := slotCount_update (fun j => if gone (t j) = true then zero else t j) p i x
  have hrest : slotCount (fun j => if gone (t j) = true then zero else t j) p =
      slotCount t fun y => p y && !gone y := by
    apply slotCount_congr
    intro j
    by_cases hj : gone (t j) = true
    · simp [hj, hzero]
    · simp [hj]
  simp only [hi, if_pos, hzero] at hupdate
  rw [hrest] at hupdate
  unfold mergeSlots
  simpa using hupdate

/-- The slots in use carry distinct keys. -/
def UniqueKey (key : α → κ) (used : α → Bool) (t : Fin n → α) : Prop :=
  ∀ i j, used (t i) = true → used (t j) = true → key (t i) = key (t j) → i = j

/-- Keys stay distinct where every slot in use was in use under the same key. -/
theorem UniqueKey.of_back {key : α → κ} {used : α → Bool} {t t' : Fin n → α}
    (h : UniqueKey key used t)
    (hback : ∀ j, used (t' j) = true → used (t j) = true ∧ key (t' j) = key (t j)) :
    UniqueKey key used t' := by
  intro j k hj hk hjk
  obtain ⟨hj, hjkey⟩ := hback j hj
  obtain ⟨hk, hkkey⟩ := hback k hk
  exact h j k hj hk (by rw [← hjkey, ← hkkey, hjk])

/-- Writing a record under the slot's own key keeps the keys distinct. -/
theorem UniqueKey.update_same {key : α → κ} {used : α → Bool} {t : Fin n → α}
    (h : UniqueKey key used t) {i : Fin n} {x : α} (hkey : key x = key (t i))
    (hused : used x = true → used (t i) = true) :
    UniqueKey key used (Function.update t i x) := by
  apply h.of_back
  intro j hj
  by_cases hji : j = i
  · subst hji
    rw [Function.update_self] at hj ⊢
    exact ⟨hused hj, hkey⟩
  · rw [Function.update_of_ne hji] at hj ⊢
    exact ⟨hj, rfl⟩

/-- Writing a record that is not in use keeps the keys distinct. -/
theorem UniqueKey.update_unused {key : α → κ} {used : α → Bool} {t : Fin n → α}
    (h : UniqueKey key used t) {i : Fin n} {x : α} (hused : used x = false) :
    UniqueKey key used (Function.update t i x) := by
  apply h.of_back
  intro j hj
  have hji : j ≠ i := by
    rintro rfl
    rw [Function.update_self, hused] at hj
    cases hj
  rw [Function.update_of_ne hji] at hj ⊢
  exact ⟨hj, rfl⟩

/-- Writing a record under a key that no slot in use carries keeps the keys
distinct, whatever the slot held. -/
theorem UniqueKey.update_fresh {key : α → κ} {used : α → Bool} {t : Fin n → α}
    (h : UniqueKey key used t) {i : Fin n} {x : α}
    (hfresh : ∀ j, used (t j) = true → key (t j) ≠ key x) :
    UniqueKey key used (Function.update t i x) := by
  intro j k hj hk hjk
  by_cases hji : j = i <;> by_cases hki : k = i
  · rw [hji, hki]
  · subst hji
    rw [Function.update_self, Function.update_of_ne hki] at hjk
    rw [Function.update_of_ne hki] at hk
    exact absurd hjk.symm (hfresh k hk)
  · subst hki
    rw [Function.update_self, Function.update_of_ne hji] at hjk
    rw [Function.update_of_ne hji] at hj
    exact absurd hjk (hfresh j hj)
  · rw [Function.update_of_ne hji] at hj hjk
    rw [Function.update_of_ne hki] at hk hjk
    exact h j k hj hk hjk

/-- A table whose keys in use all lie in `K`, with one key of `K` not in use,
has an unused slot as long as `K` is no larger than the table. -/
theorem exists_unused_slot [DecidableEq κ] {key : α → κ} {used : α → Bool} {t : Fin n → α}
    (h : UniqueKey key used t) {K : Finset κ} (hcard : K.card ≤ n)
    (hmem : ∀ i, used (t i) = true → key (t i) ∈ K) {k : κ} (hk : k ∈ K)
    (hnew : ∀ i, used (t i) = true → key (t i) ≠ k) : ∃ i, used (t i) = false := by
  -- with every slot in use the keys fill `K` less `k`, which is too small
  by_contra hnone
  have hall : ∀ i, used (t i) = true := by
    intro i
    by_contra hi
    exact hnone ⟨i, by simpa using hi⟩
  have hsub : Finset.univ.image (fun i => key (t i)) ⊆ K.erase k := by
    intro x hx
    obtain ⟨i, -, rfl⟩ := Finset.mem_image.mp hx
    exact Finset.mem_erase.mpr ⟨hnew i (hall i), hmem i (hall i)⟩
  have hinj : Function.Injective fun i => key (t i) :=
    fun i j hij => h i j (hall i) (hall j) hij
  have hle := Finset.card_le_card hsub
  rw [Finset.card_image_of_injective _ hinj, Finset.card_univ, Fintype.card_fin,
    Finset.card_erase_of_mem hk] at hle
  have hpos : 0 < K.card := Finset.card_pos.mpr ⟨k, hk⟩
  omega

end Lib
end Comrade
