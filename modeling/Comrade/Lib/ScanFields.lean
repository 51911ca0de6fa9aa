import Comrade.Lib.ScanPrinted

/-!
# Fields of a line

Lines of numbers with a blank in front of each, and then perhaps a text, as `printf` writes
them and `sscanf` reads them back.  Between the conversions of a format stands a blank, which
passes over any white space.

* `scanNumbers_print`: numbers that fit their conversions are read back, whatever follows
  them that is not a digit.
* `scanLine_print`: of the text that follows, the reader gets what stands behind the white
  space in front of it, cut to its width.
-/

namespace Comrade
namespace Lib

/-- What `%d` and `%lld` print. -/
def signed (x : Int) : Bytes :=
  if x < 0 then ch '-' :: decimal x.natAbs else decimal x.natAbs

/-- `%lld`: read as `strtoll` does. -/
def scanLong : Scan Int := do
  let (neg, m) ← scanSigned
  return if neg then max (-2 ^ 63) (-m) else min (2 ^ 63 - 1) m

/-- `%<n>[^\n]`: white space is not passed over. -/
def scanLine (n : Nat) : Scan Bytes := fun s =>
  let w := (s.takeWhile fun c => c != ch '\n').take n
  if w = [] then none else some (w, s.drop w.length)

/-- A conversion of a signed number. -/
inductive NumConv where
  | d
  | lld
  deriving DecidableEq

/-- The numbers of the type that is converted to. -/
def NumConv.Fits : NumConv → Int → Prop
  | .d, x => -2 ^ 31 ≤ x ∧ x < 2 ^ 31
  | .lld, x => -2 ^ 63 ≤ x ∧ x < 2 ^ 63

def NumConv.scan : NumConv → Scan Int
  | .d => scanInt
  | .lld => scanLong

/-- Conversions with a blank between them. -/
def scanNumbers : List NumConv → Scan (List Int)
  | [] => pure []
  | c :: cs => do
      scanSpace
      let x ← c.scan
      let xs ← scanNumbers cs
      return x :: xs

/-- Numbers with a blank in front of each. -/
def printNumbers (xs : List Int) : Bytes := xs.flatMap fun x => ch ' ' :: signed x

/-! ## Numbers -/

theorem not_space_signed (x : Int) : ∀ c ∈ signed x, isSpace c = false := by
  intro c hc
  rw [signed] at hc
  split_ifs at hc
  · rcases List.mem_cons.mp hc with rfl | hc
    · rfl
    · exact not_space_decimal _ c hc
  · exact not_space_decimal _ c hc

theorem signed_ne_nil (x : Int) : signed x ≠ [] := by
  rw [signed]
  split_ifs
  · simp
  · exact decimal_ne_nil _

theorem scanSigned_signed (x : Int) {t : Bytes} (ht : Stops isDigit t) :
    scanSigned (signed x ++ t) = some ((decide (x < 0), x.natAbs), t) := by
  have hdigits : ∀ c ∈ decimal x.natAbs, isDigit c = true := fun c => isDigit_of_mem_decimal
  have hvalue := (digitsValue_decimal x.natAbs).symm
  rw [scanSigned_iff]
  by_cases hx : x < 0
  · refine ⟨[], [ch '-'], decimal x.natAbs, ?_, by simp, ?_, hdigits, decimal_ne_nil _, hvalue, ht⟩
    · simp [signed, hx]
    · exact Or.inr (Or.inr ⟨rfl, by simpa using hx⟩)
  · refine ⟨[], [], decimal x.natAbs, ?_, by simp, ?_, hdigits, decimal_ne_nil _, hvalue, ht⟩
    · simp [signed, hx]
    · exact Or.inl ⟨rfl, by simpa using hx⟩

/-- The number that was printed, from its sign and its digits. -/
theorem signed_value (x : Int) :
    (if decide (x < 0) = true then -(x.natAbs : Int) else x.natAbs) = x := by
  split_ifs with hx
  · have := of_decide_eq_true hx
    omega
  · have : ¬x < 0 := by simpa using hx
    omega

theorem scanLong_signed {x : Int} (hx : NumConv.lld.Fits x) {t : Bytes} (ht : Stops isDigit t) :
    scanLong (signed x ++ t) = some (x, t) := by
  have hlow : -2 ^ 63 ≤ x := hx.1
  have hhigh : x < 2 ^ 63 := hx.2
  rw [scanLong, bind_of_read (scanSigned_signed x ht)]
  change some (if decide (x < 0) = true then max (-2 ^ 63) (-(x.natAbs : Int))
    else min (2 ^ 63 - 1) (x.natAbs : Int), t) = _
  congr 2
  conv_rhs => rw [← signed_value x]
  split_ifs with hneg
  · have := of_decide_eq_true hneg
    exact max_eq_right (by omega)
  · have : ¬x < 0 := by simpa using hneg
    exact min_eq_right (by omega)

theorem scanInt_signed {x : Int} (hx : NumConv.d.Fits x) {t : Bytes} (ht : Stops isDigit t) :
    scanInt (signed x ++ t) = some (x, t) := by
  have hlow : -2 ^ 31 ≤ x := hx.1
  have hhigh : x < 2 ^ 31 := hx.2
  have hcut : Int.bmod x (2 ^ 32) = x := Int.bmod_eq_of_le (by omega) (by omega)
  rw [scanInt, bind_of_read (scanSigned_signed x ht)]
  change some (Int.bmod (if decide (x < 0) = true then max (-2 ^ 63) (-(x.natAbs : Int))
    else min (2 ^ 63 - 1) (x.natAbs : Int)) (2 ^ 32), t) = _
  congr 2
  conv_rhs => rw [← hcut, ← signed_value x]
  congr 1
  split_ifs with hneg
  · have := of_decide_eq_true hneg
    exact max_eq_right (by omega)
  · exact min_eq_right (by omega)

theorem NumConv.scan_signed {c : NumConv} {x : Int} (hx : c.Fits x) {t : Bytes}
    (ht : Stops isDigit t) : c.scan (signed x ++ t) = some (x, t) := by
  cases c with
  | d => exact scanInt_signed hx ht
  | lld => exact scanLong_signed hx ht

/-- A blank, or the end, in front of numbers and what follows them. -/
theorem stops_printNumbers (xs : List Int) {t : Bytes} (ht : Stops isDigit t) :
    Stops isDigit (printNumbers xs ++ t) := by
  cases xs with
  | nil => exact ht
  | cons x xs => exact stops_cons.mpr rfl

theorem scanNumbers_print {cs : List NumConv} {xs : List Int}
    (h : List.Forall₂ NumConv.Fits cs xs) {t : Bytes} (ht : Stops isDigit t) :
    scanNumbers cs (printNumbers xs ++ t) = some (xs, t) := by
  induction h with
  | nil => rfl
  | @cons c x cs xs hx _ ih =>
      have hprint : printNumbers (x :: xs) ++ t =
          ch ' ' :: (signed x ++ (printNumbers xs ++ t)) := by
        simp [printNumbers]
      rw [hprint, scanNumbers, bind_of_read (scanSpace_of_word (not_space_signed x)
        (signed_ne_nil x)), bind_of_read (c.scan_signed hx (stops_printNumbers xs ht)),
        bind_of_read ih]
      rfl

/-! ## The text behind them -/

/-- The text as the reader gets it: past the white space in front of it, and cut. -/
def lineText (n : Nat) (t : Bytes) : Bytes := (t.dropWhile isSpace).take n

theorem scanSpace_blank (t : Bytes) :
    scanSpace (ch ' ' :: t) = some ((), t.dropWhile isSpace) := by
  rw [scanSpace, List.dropWhile_cons_of_pos (by rfl)]

theorem scanLine_print {n : Nat} {t : Bytes} (hnl : ch '\n' ∉ t) :
    (do scanSpace; scanLine n) (ch ' ' :: t) =
      if lineText n t = [] then none
      else some (lineText n t, (t.dropWhile isSpace).drop (lineText n t).length) := by
  have hall : (t.dropWhile isSpace).takeWhile (fun c => c != ch '\n') = t.dropWhile isSpace := by
    rw [List.takeWhile_eq_self_iff]
    intro c hc
    have hmem : c ∈ t := (List.dropWhile_suffix _).subset hc
    simp only [bne_iff_ne, ne_eq]
    rintro rfl
    exact hnl hmem
  rw [bind_of_read (scanSpace_blank t), scanLine, hall, lineText]

/-- A text that does not start with white space and is not too long is read as it is. -/
theorem lineText_of_plain {n : Nat} {t : Bytes} (ht : Stops isSpace t) (hn : t.length ≤ n) :
    lineText n t = t := by
  have hdrop := dropWhile_append_of_stops (x := []) (p := isSpace) (by simp) ht
  rw [List.nil_append] at hdrop
  rw [lineText, hdrop, List.take_of_length_le hn]

/-- `%<n>s`, as the reader gets it. -/
def wordText (n : Nat) (t : Bytes) : Bytes := (word t).take n

theorem scanWord_print (n : Nat) (t : Bytes) :
    scanWord n (ch ' ' :: t) =
      if wordText n t = [] then none
      else some (wordText n t, (t.dropWhile isSpace).drop (wordText n t).length) := by
  have hword : word (ch ' ' :: t) = word t := by
    rw [word, word, List.dropWhile_cons_of_pos (by rfl)]
  rw [scanWord, hword, List.dropWhile_cons_of_pos (by rfl), wordText]

end Lib
end Comrade
