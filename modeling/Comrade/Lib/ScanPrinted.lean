import Comrade.Lib.Scanf

/-!
# Reading what was printed

The words and numbers of a line that `printf` has put together with one blank between them, as
`sscanf` reads them back.
-/

namespace Comrade
namespace Lib

/-! ## One after the other -/

theorem bind_of_read {α β : Type} {p : Scan α} {q : α → Scan β} {s t : Bytes} {a : α}
    (h : p s = some (a, t)) : (p >>= q) s = q a t := by
  change (p s).bind _ = _
  rw [h]
  rfl

theorem bind_of_none {α β : Type} {p : Scan α} {q : α → Scan β} {s : Bytes} (h : p s = none) :
    (p >>= q) s = none := by
  change (p s).bind _ = _
  rw [h]
  rfl

/-! ## Words and numbers in front of a blank -/

theorem not_space_ascii {cs : List Char} (h : (cs.all fun c => !isSpace (ch c)) = true) :
    ∀ c ∈ ascii cs, isSpace c = false := by
  simpa [ascii] using h

theorem not_mem_ascii {b : UInt8} {cs : List Char} (h : (cs.all fun c => b != ch c) = true) :
    b ∉ ascii cs := by
  simp only [ascii, List.mem_map]
  rintro ⟨c, hc, rfl⟩
  have hne := List.all_eq_true.mp h c hc
  simp at hne

theorem scanSpace_of_word {w t : Bytes} (hw : ∀ c ∈ w, isSpace c = false) (hne : w ≠ []) :
    scanSpace (ch ' ' :: (w ++ t)) = some ((), w ++ t) := by
  obtain ⟨c, w, rfl⟩ := List.exists_cons_of_ne_nil hne
  refine scanSpace_iff.mpr ⟨[ch ' '], rfl, ?_, stops_cons.mpr (hw c List.mem_cons_self)⟩
  simp only [List.mem_singleton, forall_eq]
  decide

theorem scanSkip_of_word {w t : Bytes} (hw : ∀ c ∈ w, isSpace c = false) (hne : w ≠ []) :
    scanSkip (w ++ ch ' ' :: t) = some ((), ch ' ' :: t) :=
  scanSkip_iff.mpr ⟨[], w, rfl, by simp, hw, hne, stops_cons.mpr (by decide)⟩

theorem scanWord_of_word {n : Nat} (hn : n ≠ 0) {w t : Bytes} (hw : ∀ c ∈ w, isSpace c = false)
    (hne : w ≠ []) (hle : w.length ≤ n) :
    scanWord n (w ++ ch ' ' :: t) = some (w, ch ' ' :: t) :=
  (scanWord_iff hn).mpr ⟨[], rfl, by simp, hw, hne, hle, fun _ => stops_cons.mpr (by decide)⟩

theorem scanSigned_decimal (n : Nat) (t : Bytes) :
    scanSigned (decimal n ++ ch ' ' :: t) = some ((false, n), ch ' ' :: t) := by
  have hstop : ∀ c ∈ (ch ' ' :: t).head?, isDigit c = false := by
    intro c hc
    cases hc
    decide
  rw [scanSigned_digits (decimal_ne_nil n) (fun c hc => isDigit_of_mem_decimal hc) hstop,
    digitsValue_decimal]

theorem scanUnsigned_decimal (n : UInt32) (t : Bytes) :
    scanUnsigned (decimal n.toNat ++ ch ' ' :: t) = some (n, ch ' ' :: t) := by
  have hlt : ¬2 ^ 64 ≤ n.toNat := by
    have := n.toNat_lt
    omega
  rw [scanUnsigned, bind_of_read (scanSigned_decimal n.toNat t)]
  change some (UInt32.ofNat (if 2 ^ 64 ≤ n.toNat then 2 ^ 64 - 1 else n.toNat), _) = _
  rw [if_neg hlt, UInt32.ofNat_toNat]

theorem scanInt_decimal {n : Nat} (hn : n < 2 ^ 31) (t : Bytes) :
    scanInt (decimal n ++ ch ' ' :: t) = some ((n : Int), ch ' ' :: t) := by
  rw [scanInt, bind_of_read (scanSigned_decimal n t)]
  change some (Int.bmod (min (2 ^ 63 - 1) (n : Int)) (2 ^ 32), _) = _
  rw [min_eq_right (by omega), Int.bmod_eq_of_le (by omega) (by omega)]

theorem not_space_decimal (n : Nat) : ∀ c ∈ decimal n, isSpace c = false :=
  fun _ hc => isSpace_of_isDigit (isDigit_of_mem_decimal hc)

/-! ## What any number is -/

/-- What `%d` converts is an `int`. -/
theorem scanInt_lt {s t : Bytes} {x : Int} (h : scanInt s = some (x, t)) : x < 2 ^ 31 := by
  obtain ⟨⟨neg, m⟩, u, -, hpure⟩ := scan_bind_iff.mp h
  obtain ⟨rfl, -⟩ := Prod.mk.inj (Option.some.inj hpure)
  have := Int.bmod_lt (x := if neg = true then max (-2 ^ 63) (-(m : Int)) else min (2 ^ 63 - 1) m)
    (m := 2 ^ 32) (by norm_num)
  simpa using this

end Lib
end Comrade
