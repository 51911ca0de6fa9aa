import Comrade.Lib.Bytes

/-!
# The lines of a text

A text is cut behind each newline; what stands behind the last one, if anything, is a line
without one.

* `textLines` cuts a text, and `IsText` says which lists of lines it gives.
* `textLines_flatten` and `flatten_textLines`: cutting and joining are inverse.
-/

namespace Comrade
namespace Lib

/-- The newline. -/
def nl : UInt8 := ch '\n'

/-- The lines of a text, each with its newline. -/
def textLines : Bytes → List Bytes
  | [] => []
  | c :: s =>
      if c = nl then [c] :: textLines s
      else
        match textLines s with
        | [] => [[c]]
        | l :: ls => (c :: l) :: ls

theorem textLines_cons (c : UInt8) (s : Bytes) :
    textLines (c :: s) =
      if c = nl then [c] :: textLines s
      else
        match textLines s with
        | [] => [[c]]
        | l :: ls => (c :: l) :: ls := rfl

/-- A line with its newline. -/
def Terminated (l : Bytes) : Prop := ∃ b, l = b ++ [nl] ∧ nl ∉ b

/-- A line without one. -/
def Unterminated (l : Bytes) : Prop := l ≠ [] ∧ nl ∉ l

/-- The lines of some text: only the last may be without a newline. -/
def IsText : List Bytes → Prop
  | [] => True
  | l :: ls => (Terminated l ∨ (ls = [] ∧ Unterminated l)) ∧ IsText ls

/-- The newline of a line stands at its end. -/
theorem terminated_append_iff {x y : Bytes} (hy : y ≠ []) :
    Terminated (x ++ y) ↔ nl ∉ x ∧ Terminated y := by
  constructor
  · rintro ⟨b, hb, hnl⟩
    rw [← List.dropLast_append_getLast hy, ← List.append_assoc] at hb
    obtain ⟨rfl, hlast⟩ := List.append_inj' hb rfl
    rw [List.mem_append, not_or] at hnl
    refine ⟨hnl.1, y.dropLast, ?_, hnl.2⟩
    rw [← hlast, List.dropLast_append_getLast]
  · rintro ⟨hx, b, rfl, hnl⟩
    refine ⟨x ++ b, (List.append_assoc ..).symm, ?_⟩
    rw [List.mem_append, not_or]
    exact ⟨hx, hnl⟩

/-- Lines that all end with a newline are the lines of a text. -/
theorem isText_of_terminated {ls : List Bytes} (h : ∀ l ∈ ls, Terminated l) : IsText ls := by
  induction ls with
  | nil => trivial
  | cons l ls ih =>
      obtain ⟨hl, hls⟩ := List.forall_mem_cons.mp h
      exact ⟨Or.inl hl, ih hls⟩

/-- All but the last of the lines of a text end with a newline. -/
theorem IsText.of_append {ls : List Bytes} {x : Bytes} (h : IsText (ls ++ [x])) :
    (∀ l ∈ ls, Terminated l) ∧ (Terminated x ∨ Unterminated x) := by
  induction ls with
  | nil => exact ⟨by simp, h.1.imp_right And.right⟩
  | cons l ls ih =>
      obtain ⟨hall, hx⟩ := ih h.2
      rw [List.forall_mem_cons]
      exact ⟨⟨h.1.resolve_right (by simp), hall⟩, hx⟩

theorem textLines_terminated {b : Bytes} (hb : nl ∉ b) (s : Bytes) :
    textLines (b ++ nl :: s) = (b ++ [nl]) :: textLines s := by
  induction b with
  | nil => rw [List.nil_append, textLines_cons, if_pos rfl]; rfl
  | cons c b ih =>
      rw [List.mem_cons, not_or] at hb
      rw [List.cons_append, textLines_cons, if_neg (Ne.symm hb.1), ih hb.2]
      rfl

theorem textLines_unterminated {l : Bytes} (h : Unterminated l) : textLines l = [l] := by
  obtain ⟨hne, hnl⟩ := h
  induction l with
  | nil => exact absurd rfl hne
  | cons c l ih =>
      rw [List.mem_cons, not_or] at hnl
      rw [textLines_cons, if_neg (Ne.symm hnl.1)]
      cases l with
      | nil => rfl
      | cons d l => rw [ih (by simp) hnl.2]

theorem flatten_textLines (s : Bytes) : (textLines s).flatten = s := by
  induction s with
  | nil => rfl
  | cons c s ih =>
      rw [textLines_cons]
      split
      · rw [List.flatten_cons, ih]
        rfl
      · cases hs : textLines s with
        | nil =>
            rw [hs] at ih
            rw [← ih]
            rfl
        | cons l ls =>
            rw [hs, List.flatten_cons] at ih
            rw [List.flatten_cons, List.cons_append, ih]

theorem textLines_flatten {ls : List Bytes} (h : IsText ls) : textLines ls.flatten = ls := by
  induction ls with
  | nil => rfl
  | cons l ls ih =>
      obtain ⟨hl, hls⟩ := h
      rw [List.flatten_cons]
      rcases hl with ⟨b, rfl, hb⟩ | ⟨rfl, hl⟩
      · rw [List.append_assoc, List.singleton_append, textLines_terminated hb, ih hls]
      · rw [List.flatten_nil, List.append_nil, textLines_unterminated hl]

theorem isText_textLines (s : Bytes) : IsText (textLines s) := by
  induction s with
  | nil => trivial
  | cons c s ih =>
      rw [textLines_cons]
      split
      · rename_i hc
        exact ⟨Or.inl ⟨[], by rw [hc]; rfl, by simp⟩, ih⟩
      · rename_i hc
        cases hs : textLines s with
        | nil => exact ⟨Or.inr ⟨rfl, by simp, by simpa using Ne.symm hc⟩, trivial⟩
        | cons l ls =>
            rw [hs] at ih
            refine ⟨?_, ih.2⟩
            rcases ih.1 with ⟨b, rfl, hb⟩ | ⟨rfl, hne, hnl⟩
            · exact Or.inl ⟨c :: b, rfl, by simpa using ⟨Ne.symm hc, hb⟩⟩
            · exact Or.inr ⟨rfl, by simp, by simpa using ⟨Ne.symm hc, hnl⟩⟩

/-- Some of the lines of a text are the lines of a text. -/
theorem IsText.filter {ls : List Bytes} (h : IsText ls) (p : Bytes → Bool) :
    IsText (ls.filter p) := by
  induction ls with
  | nil => trivial
  | cons l ls ih =>
      rw [List.filter_cons]
      split
      · refine ⟨h.1.imp id ?_, ih h.2⟩
        rintro ⟨rfl, hl⟩
        exact ⟨rfl, hl⟩
      · exact ih h.2

/-- One more line can follow those that end with a newline, and only those. -/
theorem isText_append_iff {ls : List Bytes} {l : Bytes} (h : IsText ls) (hl : Terminated l) :
    IsText (ls ++ [l]) ↔ ∀ x, ls.getLast? = some x → Terminated x := by
  induction ls with
  | nil => simp [IsText, hl]
  | cons x ls ih =>
      have htail : IsText (x :: ls ++ [l]) ↔ Terminated x ∧ IsText (ls ++ [l]) := by
        rw [List.cons_append, IsText]
        simp
      rw [htail, ih h.2]
      cases ls with
      | nil => simp
      | cons y ls =>
          have hx : Terminated x := by simpa using h.1
          simp [hx]

end Lib
end Comrade
