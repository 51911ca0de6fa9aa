import Mathlib

/-!
# The first few of a sequence

The values of a sequence are put in order as they come, each behind those of the same rank,
and only the first `k` are kept at any time.

* `sortIn` puts all of them in order, and `keepFirst` keeps the first `k`.
* `keepFirst_eq_take`: nothing that was let go on the way would have been kept in the end.
* `keepFirst_le` and what stands around it say what is kept in terms of the sequence alone.
* `getElem?_insertFirst` is the value at each place after one more value came, as an array
  that is shifted by one from the place of the new value on would have it.
-/

namespace Comrade
namespace Lib

variable {α κ : Type*} [LinearOrder κ] {key : α → κ} {k : Nat}

/-- One more value, before the first of a higher rank. -/
def insertKey (key : α → κ) (l : List α) (x : α) : List α :=
  l.orderedInsert (fun a b => key a < key b) x

/-- The values in order. -/
def sortIn (key : α → κ) (xs : List α) : List α := xs.foldl (insertKey key) []

/-- One more value, and the first `k` are kept. -/
def insertFirst (key : α → κ) (k : Nat) (l : List α) (x : α) : List α :=
  (insertKey key l x).take k

/-- The first `k` values in order. -/
def keepFirst (key : α → κ) (k : Nat) (xs : List α) : List α := xs.foldl (insertFirst key k) []

/-! ## All of them -/

theorem sortIn_concat (xs : List α) (x : α) :
    sortIn key (xs ++ [x]) = insertKey key (sortIn key xs) x :=
  List.foldl_concat _ _ _ _

theorem perm_sortIn (xs : List α) : (sortIn key xs).Perm xs := by
  induction xs using List.reverseRecOn with
  | nil => exact .refl []
  | append_singleton xs x ih =>
      rw [sortIn_concat]
      have hinsert : (insertKey key (sortIn key xs) x).Perm (x :: sortIn key xs) :=
        List.perm_orderedInsert _ _ _
      exact hinsert.trans ((ih.cons x).trans (List.perm_append_singleton x xs).symm)

theorem pairwise_insertKey {l : List α} (hl : l.Pairwise fun a b => key a ≤ key b) (x : α) :
    (insertKey key l x).Pairwise fun a b => key a ≤ key b := by
  unfold insertKey
  induction l with
  | nil => simp
  | cons b l ih =>
      rw [List.pairwise_cons] at hl
      rw [List.orderedInsert_cons]
      split_ifs with hxb
      · rw [List.pairwise_cons, List.forall_mem_cons]
        exact ⟨⟨hxb.le, fun c hc => hxb.le.trans (hl.1 c hc)⟩, List.pairwise_cons.mpr hl⟩
      · rw [List.pairwise_cons]
        refine ⟨?_, ih hl.2⟩
        intro c hc
        rcases (List.mem_orderedInsert _).mp hc with rfl | hc
        · exact not_lt.mp hxb
        · exact hl.1 c hc

theorem pairwise_sortIn (xs : List α) : (sortIn key xs).Pairwise fun a b => key a ≤ key b := by
  induction xs using List.reverseRecOn with
  | nil => exact .nil
  | append_singleton xs x ih =>
      rw [sortIn_concat]
      exact pairwise_insertKey ih x

/-! ## The first of them -/

/-- What is let go before a value comes would be let go after it too. -/
theorem insertFirst_take (k : Nat) (l : List α) (x : α) :
    insertFirst key k (l.take k) x = insertFirst key k l x := by
  unfold insertFirst insertKey
  induction l generalizing k with
  | nil => simp
  | cons b l ih =>
      cases k with
      | zero => simp
      | succ k =>
          rw [List.take_succ_cons, List.orderedInsert_cons, List.orderedInsert_cons]
          split_ifs with hxb
          · cases k with
            | zero => simp
            | succ k => simp [List.take_take]
          · rw [List.take_succ_cons, List.take_succ_cons, ih]

theorem keepFirst_eq_take (k : Nat) (xs : List α) :
    keepFirst key k xs = (sortIn key xs).take k := by
  induction xs using List.reverseRecOn with
  | nil => simp [keepFirst, sortIn]
  | append_singleton xs x ih =>
      rw [sortIn_concat, keepFirst, List.foldl_concat]
      change insertFirst key k (keepFirst key k xs) x = _
      rw [ih, insertFirst_take]
      rfl

theorem length_keepFirst (k : Nat) (xs : List α) :
    (keepFirst key k xs).length = min k xs.length := by
  rw [keepFirst_eq_take, List.length_take, (perm_sortIn xs).length_eq]

theorem mem_of_mem_keepFirst {xs : List α} {a : α} (h : a ∈ keepFirst key k xs) : a ∈ xs := by
  rw [keepFirst_eq_take] at h
  exact (perm_sortIn xs).mem_iff.mp (List.mem_of_mem_take h)

theorem nodup_keepFirst {xs : List α} (h : xs.Nodup) : (keepFirst key k xs).Nodup := by
  rw [keepFirst_eq_take]
  exact ((perm_sortIn xs).nodup_iff.mpr h).sublist (List.take_sublist _ _)

theorem pairwise_keepFirst (k : Nat) (xs : List α) :
    (keepFirst key k xs).Pairwise fun a b => key a ≤ key b := by
  rw [keepFirst_eq_take]
  exact (pairwise_sortIn xs).sublist (List.take_sublist _ _)

/-- What is kept ranks no higher than what is not. -/
theorem keepFirst_le {xs : List α} {a b : α} (ha : a ∈ keepFirst key k xs) (hb : b ∈ xs)
    (hnot : b ∉ keepFirst key k xs) : key a ≤ key b := by
  rw [keepFirst_eq_take] at ha hnot
  have hsorted : (sortIn key xs).Pairwise fun a b => key a ≤ key b := pairwise_sortIn xs
  rw [← List.take_append_drop k (sortIn key xs), List.pairwise_append] at hsorted
  apply hsorted.2.2 a ha
  have hmem : b ∈ (sortIn key xs).take k ++ (sortIn key xs).drop k := by
    rw [List.take_append_drop]
    exact (perm_sortIn xs).mem_iff.mpr hb
  exact (List.mem_append.mp hmem).resolve_left hnot

/-! ## The places -/

/-- Where a value goes: before the first of a higher rank. -/
def placeOf (key : α → κ) (l : List α) (x : α) : Nat := l.findIdx fun b => decide (key x < key b)

theorem placeOf_le (l : List α) (x : α) : placeOf key l x ≤ l.length := List.findIdx_le_length

theorem insertKey_eq_insertIdx (l : List α) (x : α) :
    insertKey key l x = l.insertIdx (placeOf key l x) x := by
  unfold insertKey placeOf
  induction l with
  | nil => rfl
  | cons b l ih =>
      rw [List.orderedInsert_cons, List.findIdx_cons]
      by_cases hxb : key x < key b
      · simp [hxb]
      · simp [hxb, ih]

/-- The values at and behind the place of the new one move up by one, as far as they are
kept. -/
theorem getElem?_insertFirst (l : List α) (x : α) (i : Nat) :
    (insertFirst key k l x)[i]? =
      if k ≤ i then none
      else if i < placeOf key l x then l[i]?
      else if i = placeOf key l x then some x
      else l[i - 1]? := by
  rw [insertFirst, List.getElem?_take, insertKey_eq_insertIdx]
  by_cases hk : k ≤ i
  · rw [if_neg (by omega), if_pos hk]
  · rw [if_pos (by omega), if_neg hk]
    have hle : placeOf key l x ≤ l.length := placeOf_le l x
    split_ifs with hlt heq
    · exact List.getElem?_insertIdx_of_lt hlt
    · rw [heq, List.getElem?_insertIdx_self, if_pos hle]
    · exact List.getElem?_insertIdx_of_gt (by omega)

end Lib
end Comrade
