import Comrade.Lib.Scanf

/-!
# Scanning past the end of a string

What a scan of `s ++ e` has to do with a scan of `s` alone, where white space stands between
the two (`Parted`): a directive reads something of `s` and stays in it, or finds nothing but
white space in `s` and reads `e` (`Cross`).  A scan of several directives crosses over at one
of them at most (`bind_cross`).

What was read of `s` alone is read of `s ++ e` too: `Local` says so for a scan that leaves
something of `s`, and `KeepsAtEnd` for one that reads it to its end.
-/

namespace Comrade
namespace Lib

/-- Nothing but white space. -/
def AllSpace (s : Bytes) : Prop := ∀ c ∈ s, isSpace c = true

theorem allSpace_nil : AllSpace [] := by simp [AllSpace]

/-- White space stands between the two strings. -/
def Parted (s e : Bytes) : Prop :=
  (∀ c ∈ s.getLast?, isSpace c = true) ∨ ∀ c ∈ e.head?, isSpace c = true

/-- What is left of a string ends as it does. -/
theorem Parted.of_append {x t e : Bytes} (h : Parted (x ++ t) e) : Parted t e := by
  refine h.imp_left ?_
  intro hlast c hc
  apply hlast
  rw [List.getLast?_append]
  simp [Option.mem_def.mp hc]

/-- A word does not reach over the white space between two strings. -/
theorem Parted.word {s e sp w u : Bytes} (h : Parted s e) (heq : s ++ e = sp ++ (w ++ u))
    (hsp : AllSpace sp) (hw : ∀ c ∈ w, isSpace c = false) (hne : w ≠ []) :
    (∃ t, s = sp ++ (w ++ t) ∧ u = t ++ e) ∨
      ∃ sp', AllSpace s ∧ AllSpace sp' ∧ e = sp' ++ (w ++ u) := by
  rcases List.append_eq_append_iff.mp heq with ⟨sp', rfl, rfl⟩ | ⟨v, rfl, hv⟩
  · -- the word stands in the second string
    rw [AllSpace, List.forall_mem_append] at hsp
    exact Or.inr ⟨sp', hsp.1, hsp.2, rfl⟩
  · rcases List.append_eq_append_iff.mp hv with ⟨t, rfl, rfl⟩ | ⟨w₂, rfl, rfl⟩
    · exact Or.inl ⟨t, rfl, rfl⟩
    · -- it starts in the first and ends in the second
      by_cases hw₂ : w₂ = []
      · subst hw₂
        exact Or.inl ⟨[], by simp, by simp⟩
      · cases v with
        | nil =>
            rw [List.append_nil]
            exact Or.inr ⟨[], hsp, allSpace_nil, rfl⟩
        | cons d v =>
            exfalso
            rcases h with hlast | hhead
            · have hmem : (d :: v).getLast (by simp) ∈ d :: v := List.getLast_mem _
              have hspace := hlast ((d :: v).getLast (by simp)) (by
                rw [List.getLast?_append, List.getLast?_eq_some_getLast (by simp)]
                rfl)
              rw [hw _ (List.mem_append_left _ hmem)] at hspace
              cases hspace
            · obtain ⟨d₂, w₂, rfl⟩ := List.exists_cons_of_ne_nil hw₂
              have hspace := hhead d₂ rfl
              rw [hw d₂ (by simp)] at hspace
              cases hspace

/-- A scan stays in the first string or starts in the second. -/
def Cross {α : Type} (p : Scan α) : Prop :=
  ∀ s e a u, Parted s e → p (s ++ e) = some (a, u) →
    (∃ t, p s = some (a, t) ∧ u = t ++ e) ∨ (AllSpace s ∧ p e = some (a, u))

theorem Stops.of_append {p : UInt8 → Bool} {t e : Bytes} (h : Stops p (t ++ e)) : Stops p t := by
  cases t with
  | nil => simp
  | cons c t => exact stops_cons.mpr (stops_cons.mp h)

theorem cross_scanSpace : Cross scanSpace := by
  intro s e a u _ h
  obtain ⟨sp, heq, hsp, hu⟩ := scanSpace_iff.mp h
  rcases List.append_eq_append_iff.mp heq with ⟨sp', rfl, rfl⟩ | ⟨t, rfl, rfl⟩
  · rw [List.forall_mem_append] at hsp
    exact Or.inr ⟨hsp.1, scanSpace_iff.mpr ⟨sp', rfl, hsp.2, hu⟩⟩
  · exact Or.inl ⟨t, scanSpace_iff.mpr ⟨sp, rfl, hsp, hu.of_append⟩, rfl⟩

theorem cross_scanText {x : Bytes} (hx : ∀ c ∈ x, isSpace c = false) (hne : x ≠ []) :
    Cross (scanText x) := by
  intro s e a u hparted h
  have heq := scanText_iff.mp h
  have hfront : s ++ e = [] ++ (x ++ u) := heq
  rcases hparted.word hfront allSpace_nil hx hne with ⟨t, hs, rfl⟩ | ⟨sp', hs, -, -⟩
  · exact Or.inl ⟨t, scanText_iff.mpr hs, rfl⟩
  · cases s with
    | nil => exact Or.inr ⟨allSpace_nil, h⟩
    | cons c s =>
        -- the text starts where the white space does
        exfalso
        obtain ⟨d, x, rfl⟩ := List.exists_cons_of_ne_nil hne
        rw [List.cons_append, List.cons_append, List.cons.injEq] at heq
        have hspace := hs c List.mem_cons_self
        rw [heq.1, hx d List.mem_cons_self] at hspace
        cases hspace

theorem cross_scanWord {n : Nat} (hn : n ≠ 0) : Cross (scanWord n) := by
  intro s e w u hparted h
  obtain ⟨sp, heq, hsp, hw, hne, hle, hstop⟩ := (scanWord_iff hn).mp h
  rcases hparted.word heq hsp hw hne with ⟨t, rfl, rfl⟩ | ⟨sp', hs, hsp', rfl⟩
  · exact Or.inl ⟨t, (scanWord_iff hn).mpr
      ⟨sp, rfl, hsp, hw, hne, hle, fun hlt => (hstop hlt).of_append⟩, rfl⟩
  · exact Or.inr ⟨hs, (scanWord_iff hn).mpr ⟨sp', rfl, hsp', hw, hne, hle, hstop⟩⟩

theorem cross_scanSkip : Cross scanSkip := by
  intro s e a u hparted h
  obtain ⟨sp, w, heq, hsp, hw, hne, hstop⟩ := scanSkip_iff.mp h
  rcases hparted.word heq hsp hw hne with ⟨t, rfl, rfl⟩ | ⟨sp', hs, hsp', rfl⟩
  · exact Or.inl ⟨t, scanSkip_iff.mpr ⟨sp, w, rfl, hsp, hw, hne, hstop.of_append⟩, rfl⟩
  · exact Or.inr ⟨hs, scanSkip_iff.mpr ⟨sp', w, rfl, hsp', hw, hne, hstop⟩⟩

theorem IsSign.not_space {sg : Bytes} {neg : Bool} (h : IsSign sg neg) :
    ∀ c ∈ sg, isSpace c = false := by
  rcases h with ⟨rfl, -⟩ | ⟨rfl, -⟩ | ⟨rfl, -⟩
  · simp
  · simp only [List.mem_singleton, forall_eq]
    decide
  · simp only [List.mem_singleton, forall_eq]
    decide

theorem cross_scanSigned : Cross scanSigned := by
  rintro s e ⟨neg, m⟩ u hparted h
  obtain ⟨sp, sg, ds, heq, hsp, hsg, hds, hne, hm, hstop⟩ := scanSigned_iff.mp h
  have hw : ∀ c ∈ sg ++ ds, isSpace c = false := by
    rw [List.forall_mem_append]
    exact ⟨hsg.not_space, fun c hc => isSpace_of_isDigit (hds c hc)⟩
  rw [← List.append_assoc sg] at heq
  rcases hparted.word heq hsp hw (by simp [hne]) with ⟨t, rfl, rfl⟩ | ⟨sp', hs, hsp', rfl⟩
  · exact Or.inl ⟨t, scanSigned_iff.mpr
      ⟨sp, sg, ds, by simp, hsp, hsg, hds, hne, hm, hstop.of_append⟩, rfl⟩
  · exact Or.inr ⟨hs, scanSigned_iff.mpr
      ⟨sp', sg, ds, by simp, hsp', hsg, hds, hne, hm, hstop⟩⟩

theorem Cross.map {α β : Type} {p : Scan α} (hp : Cross p) (f : α → β) :
    Cross (p >>= fun a => pure (f a)) := by
  intro s e b u hparted h
  obtain ⟨a, t, hpa, hpure⟩ := scan_bind_iff.mp h
  obtain ⟨rfl, rfl⟩ := Prod.mk.inj (Option.some.inj hpure)
  rcases hp s e a t hparted hpa with ⟨t', ht', rfl⟩ | ⟨hs, he⟩
  · exact Or.inl ⟨t', scan_bind_iff.mpr ⟨a, t', ht', rfl⟩, rfl⟩
  · exact Or.inr ⟨hs, scan_bind_iff.mpr ⟨a, t, he, rfl⟩⟩

theorem cross_scanInt : Cross scanInt := .map cross_scanSigned _

theorem cross_scanUnsigned : Cross scanUnsigned := .map cross_scanSigned _

/-- Two scans one after the other: the first stays in the first string and the second goes on
from there, or there was nothing to read in the first string. -/
theorem bind_cross {α β : Type} {p : Scan α} {q : α → Scan β} {s e u : Bytes} {b : β}
    (hp : Cross p) (hlocal : Local p) (hparted : Parted s e)
    (h : (p >>= q) (s ++ e) = some (b, u)) :
    (∃ a t, p s = some (a, t) ∧ Parted t e ∧ q a (t ++ e) = some (b, u)) ∨
      (AllSpace s ∧ (p >>= q) e = some (b, u)) := by
  obtain ⟨a, t, hpa, hqb⟩ := scan_bind_iff.mp h
  rcases hp s e a t hparted hpa with ⟨t', ht', rfl⟩ | ⟨hs, he⟩
  · obtain ⟨x, rfl, -⟩ := hlocal s a t' ht'
    exact Or.inl ⟨a, t', ht', hparted.of_append, hqb⟩
  · exact Or.inr ⟨hs, scan_bind_iff.mpr ⟨a, t, he, hqb⟩⟩

/-- Where the second string gives no such result, the scan stays in the first if what comes
behind its first directive does. -/
theorem bind_stay {α β : Type} {p : Scan α} {q : α → Scan β} {s e u : Bytes} {b : β}
    (hp : Cross p) (hlocal : Local p) (hparted : Parted s e)
    (h : (p >>= q) (s ++ e) = some (b, u)) (hforeign : (p >>= q) e ≠ some (b, u))
    (hq : ∀ a t, Parted t e → q a (t ++ e) = some (b, u) → ∃ v, q a t = some (b, v)) :
    ∃ v, (p >>= q) s = some (b, v) := by
  rcases bind_cross hp hlocal hparted h with ⟨a, t, hpa, ht, hqb⟩ | ⟨-, he⟩
  · obtain ⟨v, hv⟩ := hq a t ht hqb
    exact ⟨v, scan_bind_iff.mpr ⟨a, t, hpa, hv⟩⟩
  · exact absurd he hforeign

/-! ## White space in front -/

theorem dropWhile_dropWhile (p : UInt8 → Bool) (s : Bytes) :
    (s.dropWhile p).dropWhile p = s.dropWhile p := by
  simpa using dropWhile_append_of_stops (x := []) (by simp) (stops_dropWhile p s)

theorem word_dropWhile (s : Bytes) : word (s.dropWhile isSpace) = word s := by
  rw [word, dropWhile_dropWhile, word]

theorem scanWord_dropWhile (n : Nat) (s : Bytes) :
    scanWord n (s.dropWhile isSpace) = scanWord n s := by
  rw [scanWord, word_dropWhile, dropWhile_dropWhile, scanWord]

theorem scanSkip_dropWhile (s : Bytes) : scanSkip (s.dropWhile isSpace) = scanSkip s := by
  rw [scanSkip, word_dropWhile, dropWhile_dropWhile, scanSkip]

theorem scanSigned_dropWhile (s : Bytes) : scanSigned (s.dropWhile isSpace) = scanSigned s := by
  rw [scanSigned, dropWhile_dropWhile, scanSigned]

/-! ## What was read stays read -/

/-- A scan that reads a string to its end ends in a word, and reads the same in front of white
space. -/
structure KeepsAtEnd {α : Type} (p : Scan α) : Prop where
  word : EndsInWord p
  keeps : ∀ s a, p s = some (a, []) → ∀ d y, isSpace d = true → p (s ++ d :: y) = some (a, d :: y)

theorem keepsAtEnd_scanWord {n : Nat} (hn : n ≠ 0) : KeepsAtEnd (scanWord n) where
  word := endsInWord_scanWord hn
  keeps := by
    intro s w h d y hd
    obtain ⟨sp, rfl, hsp, hw, hne, hle, -⟩ := (scanWord_iff hn).mp h
    refine (scanWord_iff hn).mpr ⟨sp, by simp, hsp, hw, hne, hle, fun _ => ?_⟩
    simp [hd]

theorem KeepsAtEnd.map {α β : Type} {p : Scan α} (hp : KeepsAtEnd p) (f : α → β) :
    KeepsAtEnd (p >>= fun a => pure (f a)) where
  word := hp.word.map f
  keeps := by
    intro s b h d y hd
    obtain ⟨a, t, hpa, hpure⟩ := scan_bind_iff.mp h
    obtain ⟨rfl, rfl⟩ := Prod.mk.inj (Option.some.inj hpure)
    exact scan_bind_iff.mpr ⟨a, _, hp.keeps s a hpa d y hd, rfl⟩

theorem KeepsAtEnd.bind {α β : Type} {p : Scan α} {q : α → Scan β} (hp : Local p)
    (hq : ∀ a, KeepsAtEnd (q a)) : KeepsAtEnd (p >>= q) where
  word := .bind hp fun a => (hq a).word
  keeps := by
    intro s b h d y hd
    obtain ⟨a, t, hpa, hqb⟩ := scan_bind_iff.mp h
    obtain ⟨x, rfl, hx⟩ := hp s a t hpa
    obtain ⟨z, c, hz, -⟩ := (hq a).word t b hqb
    refine scan_bind_iff.mpr ⟨a, t ++ d :: y, ?_, (hq a).keeps t b hqb d y hd⟩
    have hne : t ≠ [] := by simp [hz]
    obtain ⟨c, t, rfl⟩ := List.exists_cons_of_ne_nil hne
    rw [List.append_assoc, List.cons_append]
    exact hx c t rfl _

/-- What a scan that ends in a word reads of a string it reads in front of another. -/
theorem KeepsAtEnd.scan_append {α : Type} {p : Scan α} (hend : KeepsAtEnd p) (hlocal : Local p)
    {s e t : Bytes} {a : α} (hparted : Parted s e) (h : p s = some (a, t)) :
    p (s ++ e) = some (a, t ++ e) := by
  cases t with
  | cons c t =>
      obtain ⟨x, rfl, hx⟩ := hlocal s a _ h
      rw [List.append_assoc, List.cons_append]
      exact hx c t rfl _
  | nil =>
      cases e with
      | nil => simpa using h
      | cons d y =>
          obtain ⟨b, c, rfl, hc⟩ := hend.word s a h
          rcases hparted with hlast | hhead
          · -- the string ends in a word, and so not in white space
            have hspace := hlast c (by simp)
            rw [hc] at hspace
            cases hspace
          · exact hend.keeps _ a h d y (hhead d rfl)

end Lib
end Comrade
