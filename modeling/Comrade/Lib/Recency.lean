import Mathlib

/-!
# The values given last, and the values let in last

Two stores of bounded size that are given one value after the other.

* `recent w xs` are the `w` distinct values given last, the latest first: to be given again
  makes a value recent again.
* `admitted w xs` are the values let in, the latest first, by a store that holds the last `w`
  of them: a value that is held when it is given again stays where it is.

`Later xs a b` says that `b` was given after `a` was given for the last time.  The two stores
hold the same values for as long as whatever is pushed out of the second is what the first
would forget (`mem_admit_iff_mem_recent`).
-/

namespace Comrade
namespace Lib

variable {α : Type*} [DecidableEq α] {w : Nat}

/-! ## Given last -/

/-- `b` was given after the last time that `a` was. -/
def Later (xs : List α) (a b : α) : Prop := ∃ u v, xs = u ++ v ∧ a ∉ v ∧ b ∈ v

omit [DecidableEq α] in
theorem Later.asymm {xs : List α} {a b : α} (h : Later xs a b) : ¬Later xs b a := by
  rintro ⟨u', v', hxs', hb', ha'⟩
  obtain ⟨u, v, hxs, ha, hb⟩ := h
  -- both are ends of the same list, so one is an end of the other
  have hv : v <:+ xs := ⟨u, hxs.symm⟩
  have hv' : v' <:+ xs := ⟨u', hxs'.symm⟩
  rcases List.suffix_or_suffix_of_suffix hv hv' with hsub | hsub
  · exact hb' (hsub.mem hb)
  · exact ha (hsub.mem ha')

omit [DecidableEq α] in
theorem later_concat_self {xs : List α} {a x : α} (hax : a ≠ x) : Later (xs ++ [x]) a x :=
  ⟨xs, [x], rfl, by simpa using hax, List.mem_singleton_self x⟩

omit [DecidableEq α] in
theorem Later.concat {xs : List α} {a b x : α} (h : Later xs a b) (hax : a ≠ x) :
    Later (xs ++ [x]) a b := by
  obtain ⟨u, v, rfl, ha, hb⟩ := h
  refine ⟨u, v ++ [x], by simp, ?_, List.mem_append_left [x] hb⟩
  simp [ha, hax]

/-- The `w` distinct values given last, the latest first. -/
def recent (w : Nat) (xs : List α) : List α := xs.dedup.reverse.take w

theorem dedup_concat (xs : List α) (x : α) :
    (xs ++ [x]).dedup = xs.dedup.filter (fun y => y != x) ++ [x] := by
  induction xs with
  | nil => simp
  | cons a xs ih =>
      rw [List.cons_append]
      by_cases hmem : a ∈ xs
      · rw [List.dedup_cons_of_mem (List.mem_append_left [x] hmem), ih,
          List.dedup_cons_of_mem hmem]
      · rw [List.dedup_cons_of_notMem hmem]
        by_cases hax : a = x
        · rw [List.dedup_cons_of_mem (by simp [hax]), ih, List.filter_cons_of_neg (by simp [hax])]
        · rw [List.dedup_cons_of_notMem (by simp [hmem, hax]), ih,
            List.filter_cons_of_pos (by simp [hax])]
          rfl

/-- The order of the distinct values is the order of the last times they were given. -/
theorem pairwise_later_dedup (xs : List α) : xs.dedup.Pairwise (Later xs) := by
  induction xs using List.reverseRecOn with
  | nil => simp
  | append_singleton xs x ih =>
      rw [dedup_concat, List.pairwise_append]
      refine ⟨?_, List.pairwise_singleton _ _, ?_⟩
      · refine (ih.filter _).imp_of_mem ?_
        intro a b ha _ hab
        exact hab.concat (by simpa using (List.mem_filter.mp ha).2)
      · intro a ha b hb
        rw [List.mem_singleton] at hb
        subst hb
        exact later_concat_self (by simpa using (List.mem_filter.mp ha).2)

theorem nodup_recent (w : Nat) (xs : List α) : (recent w xs).Nodup :=
  (List.nodup_reverse.mpr (List.nodup_dedup xs)).sublist (List.take_sublist _ _)

/-- Of two recent values the one further on was given last before the other. -/
theorem pairwise_recent (w : Nat) (xs : List α) :
    (recent w xs).Pairwise fun b a => Later xs a b :=
  (List.pairwise_reverse.mpr (pairwise_later_dedup xs)).sublist (List.take_sublist _ _)

/-- One more value comes first, and the rest is what was recent without it. -/
theorem recent_concat (w : Nat) (xs : List α) (x : α) :
    recent (w + 1) (xs ++ [x]) = x :: (xs.dedup.reverse.erase x).take w := by
  have hnodup := List.nodup_reverse.mpr (List.nodup_dedup xs)
  rw [recent, dedup_concat, List.reverse_append, hnodup.erase_eq_filter, List.filter_reverse]
  rfl

theorem take_erase_of_mem {l : List α} {x : α} (hx : x ∈ l.take (w + 1)) :
    (l.erase x).take w = (l.take (w + 1)).erase x := by
  induction l generalizing w with
  | nil => simp at hx
  | cons a l ih =>
      rw [List.take_succ_cons] at hx ⊢
      by_cases hax : a = x
      · rw [hax, List.erase_cons_head, List.erase_cons_head]
      · have hxl : x ∈ l.take w := (List.mem_cons.mp hx).resolve_left (Ne.symm hax)
        rw [List.erase_cons_tail (by simpa using hax), List.erase_cons_tail (by simpa using hax)]
        cases w with
        | zero => simp at hxl
        | succ w => rw [List.take_succ_cons, ih hxl]

theorem take_erase_of_notMem {l : List α} {x : α} (hx : x ∉ l.take (w + 1)) :
    (l.erase x).take w = l.take w := by
  induction l generalizing w with
  | nil => simp
  | cons a l ih =>
      rw [List.take_succ_cons, List.mem_cons, not_or] at hx
      rw [List.erase_cons_tail (by simpa using Ne.symm hx.1)]
      cases w with
      | zero => rfl
      | succ w => rw [List.take_succ_cons, List.take_succ_cons, ih hx.2]

/-- A value that is recent already moves to the front. -/
theorem recent_concat_of_mem {xs : List α} {x : α} (hx : x ∈ recent w xs) :
    recent w (xs ++ [x]) = x :: (recent w xs).erase x := by
  cases w with
  | zero => simp [recent] at hx
  | succ w => rw [recent_concat, take_erase_of_mem hx, recent]

/-- A value that is not recent pushes out the last. -/
theorem recent_concat_of_notMem {xs : List α} {x : α} (hx : x ∉ recent (w + 1) xs) :
    recent (w + 1) (xs ++ [x]) = x :: (recent (w + 1) xs).take w := by
  rw [recent_concat, take_erase_of_notMem hx, recent, List.take_take,
    Nat.min_eq_left (Nat.le_succ w)]

/-! ## Let in last -/

/-- A value is let in unless it is held. -/
def admitNext (w : Nat) (adm : List α) (x : α) : List α :=
  if x ∈ adm.take w then adm else x :: adm

/-- The values let in, the latest first. -/
def admitted (w : Nat) (xs : List α) : List α := xs.foldl (admitNext w) []

theorem admitted_concat (w : Nat) (xs : List α) (x : α) :
    admitted w (xs ++ [x]) = admitNext w (admitted w xs) x :=
  List.foldl_concat _ _ _ _

/-- What is held is held once. -/
theorem nodup_take_admitted (w : Nat) (xs : List α) : ((admitted w xs).take w).Nodup := by
  induction xs using List.reverseRecOn with
  | nil => simp [admitted]
  | append_singleton xs x ih =>
      rw [admitted_concat, admitNext]
      split_ifs with hx
      · exact ih
      · cases w with
        | zero => simp
        | succ w =>
            rw [List.take_succ_cons, List.nodup_cons]
            have hsub : ((admitted (w + 1) xs).take w).Sublist
                ((admitted (w + 1) xs).take (w + 1)) :=
              List.take_sublist_take_left (Nat.le_succ w)
            exact ⟨fun hmem => hx (hsub.mem hmem), ih.sublist hsub⟩

/-- One more value: the two stores go on holding the same unless the one that lets in pushes
out a value that was given later than another that it keeps. -/
theorem mem_admit_iff_mem_recent {adm xs : List α} {x : α} (hw : 0 < w)
    (hnodup : (adm.take w).Nodup) (hsame : ∀ y, y ∈ adm.take w ↔ y ∈ recent w xs) :
    (∀ y, y ∈ (admitNext w adm x).take w ↔ y ∈ recent w (xs ++ [x])) ↔
      (x ∉ adm.take w → ∀ a, adm[w - 1]? = some a → ∀ b ∈ adm.take w, b ≠ a → Later xs a b) := by
  obtain ⟨w, rfl⟩ : ∃ n, w = n + 1 := Nat.exists_eq_succ_of_ne_zero hw.ne'
  rw [Nat.add_sub_cancel]
  have hperm : (adm.take (w + 1)).Perm (recent (w + 1) xs) :=
    (List.perm_ext_iff_of_nodup hnodup (nodup_recent _ _)).mpr hsame
  by_cases hx : x ∈ adm.take (w + 1)
  · refine iff_of_true ?_ fun hnot => absurd hx hnot
    intro y
    have hxr := (hsame x).mp hx
    rw [admitNext, if_pos hx, recent_concat_of_mem hxr, hsame, List.mem_cons,
      (nodup_recent _ _).mem_erase_iff]
    by_cases hyx : y = x
    · simp [hyx, hxr]
    · simp [hyx]
  · have hxr : x ∉ recent (w + 1) xs := fun h => hx ((hsame x).mpr h)
    rw [admitNext, if_neg hx, List.take_succ_cons, recent_concat_of_notMem hxr]
    simp only [hx, not_false_eq_true, true_imp_iff]
    cases ha : adm[w]? with
    | none =>
        -- there is room, and nothing is pushed out
        have hlen : adm.length ≤ w := List.getElem?_eq_none_iff.mp ha
        refine iff_of_true ?_ (by simp)
        intro y
        have hshort : (recent (w + 1) xs).length ≤ w := by
          rw [← hperm.length_eq, List.length_take]
          omega
        rw [List.take_of_length_le hshort, List.mem_cons, List.mem_cons, ← hsame,
          List.take_of_length_le hlen, List.take_of_length_le (by omega)]
    | some a =>
        have hlt : w < adm.length := (List.getElem?_eq_some_iff.mp ha).1
        have hheld : adm.take (w + 1) = adm.take w ++ [a] := by
          rw [List.take_add_one, ha]
          rfl
        have hlen : (recent (w + 1) xs).length = w + 1 := by
          rw [← hperm.length_eq, List.length_take]
          omega
        obtain ⟨l, hl⟩ : ∃ l, (recent (w + 1) xs)[w]? = some l :=
          ⟨_, List.getElem?_eq_getElem (by omega)⟩
        have hrec : recent (w + 1) xs = (recent (w + 1) xs).take w ++ [l] := by
          conv_lhs => rw [← List.take_of_length_le hlen.le, List.take_add_one, hl]
          rfl
        generalize (recent (w + 1) xs).take w = r at hrec ⊢
        generalize adm.take w = h at hheld ⊢
        have hlast : ∀ b ∈ r, Later xs l b := by
          have hpair := pairwise_recent (w + 1) xs
          rw [hrec, List.pairwise_append] at hpair
          exact fun b hb => hpair.2.2 b hb l (List.mem_singleton_self l)
        have hnr := nodup_recent (w + 1) xs
        rw [hheld] at hnodup hsame hx ⊢
        rw [hrec] at hnr hsame
        obtain ⟨-, -, hah⟩ := List.nodup_append.mp hnodup
        obtain ⟨-, -, hlr⟩ := List.nodup_append.mp hnr
        simp only [List.mem_append, List.mem_cons, List.not_mem_nil, or_false] at hsame hx hah hlr ⊢
        push Not at hx
        constructor
        · -- what is pushed out was not forgotten only if it is the last of the recent
          rintro h' _ ⟨⟩ b hb hba
          have hbh : b ∈ h := hb.resolve_right hba
          have hbx : b ≠ x := fun hbx => hx.1 (hbx ▸ hbh)
          have hbr : b ∈ r := ((h' b).mp (Or.inr hbh)).resolve_left hbx
          have hal : a = l := by
            refine ((hsame a).mp (Or.inr rfl)).resolve_left fun har => ?_
            rcases (h' a).mpr (Or.inr har) with hax | hmem
            · exact hx.2 hax.symm
            · exact hah a hmem a rfl rfl
          rw [hal]
          exact hlast b hbr
        · intro hlater
          have hal : a = l := by
            by_contra hne
            have har : a ∈ r := ((hsame a).mp (Or.inr rfl)).resolve_right hne
            have hlh : l ∈ h ∨ l = a := (hsame l).mpr (Or.inr rfl)
            exact (hlater a rfl l hlh (Ne.symm hne)).asymm (hlast a har)
          subst hal
          intro y
          refine or_congr_right ?_
          constructor
          · intro hy
            exact ((hsame y).mp (Or.inl hy)).resolve_right fun hya => hah y hy a rfl hya
          · intro hy
            exact ((hsame y).mpr (Or.inl hy)).resolve_right fun hya => hlr y hy a rfl hya

end Lib
end Comrade
