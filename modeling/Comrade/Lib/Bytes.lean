import Mathlib

/-!
# Byte strings

Raw byte strings, the byte comparison of the C library, and decimal numerals
written in bytes.  Nothing here belongs to one format: the numerals are the
ones `printf` writes, and the comparison is the one `memcmp` makes.

A decimal numeral is *plain* when it has no leading zero.  `decimal` writes the
plain numeral of a number, `digitsValue` reads a string of digits, and the two
are inverse on plain strings (`digitsValue_decimal`, `decimal_digitsValue`).
-/

namespace Comrade
namespace Lib

/-- A byte string. -/
abbrev Bytes := List UInt8

/-- The byte of an ASCII character. -/
def ch (c : Char) : UInt8 := UInt8.ofNat c.toNat

/-- The bytes of an ASCII text. -/
def ascii (cs : List Char) : Bytes := cs.map ch

/-! ## Byte comparison -/

/-- `memcmp` over two buffers of one length: the difference of the first two
bytes that differ, 0 when none does. -/
def memcmp : Bytes → Bytes → Int
  | a :: as, b :: bs =>
      if a = b then memcmp as bs else (a.toNat : Int) - b.toNat
  | _, _ => 0

theorem toNat_ne_of_ne {a b : UInt8} (h : a ≠ b) : a.toNat ≠ b.toNat :=
  fun heq => h (UInt8.toNat_inj.mp heq)

theorem memcmp_nil (b : Bytes) : memcmp [] b = 0 := by
  cases b <;> rfl

theorem memcmp_nil_right (a : Bytes) : memcmp a [] = 0 := by
  cases a <;> rfl

theorem memcmp_cons (x y : UInt8) (xs ys : Bytes) :
    memcmp (x :: xs) (y :: ys) = if x = y then memcmp xs ys else (x.toNat : Int) - y.toNat :=
  rfl

theorem memcmp_self (a : Bytes) : memcmp a a = 0 := by
  induction a with
  | nil => rfl
  | cons x xs ih => rw [memcmp_cons, if_pos rfl, ih]

theorem memcmp_swap (a b : Bytes) : memcmp b a = -memcmp a b := by
  induction a generalizing b with
  | nil => rw [memcmp_nil, memcmp_nil_right, neg_zero]
  | cons x xs ih =>
      cases b with
      | nil => rw [memcmp_nil, memcmp_nil_right, neg_zero]
      | cons y ys =>
          rw [memcmp_cons, memcmp_cons]
          by_cases hxy : x = y
          · rw [if_pos hxy, if_pos hxy.symm]
            exact ih ys
          · rw [if_neg hxy, if_neg (Ne.symm hxy)]
            omega

theorem memcmp_eq_zero_iff {a b : Bytes} (hlen : a.length = b.length) :
    memcmp a b = 0 ↔ a = b := by
  constructor
  · intro h
    induction a generalizing b with
    | nil => exact (List.length_eq_zero_iff.mp hlen.symm).symm
    | cons x xs ih =>
        cases b with
        | nil => cases hlen
        | cons y ys =>
            rw [memcmp_cons] at h
            by_cases hxy : x = y
            · rw [if_pos hxy] at h
              rw [hxy, ih (Nat.succ.inj hlen) h]
            · have hne := toNat_ne_of_ne hxy
              rw [if_neg hxy] at h
              omega
  · rintro rfl
    exact memcmp_self a

theorem memcmp_neg_trans {a b c : Bytes} (hab : a.length = b.length)
    (hbc : b.length = c.length) (h₁ : memcmp a b < 0) (h₂ : memcmp b c < 0) :
    memcmp a c < 0 := by
  induction a generalizing b c with
  | nil =>
      rw [memcmp_nil] at h₁
      omega
  | cons x xs ih =>
      cases b with
      | nil => cases hab
      | cons y ys =>
          cases c with
          | nil => cases hbc
          | cons z zs =>
              rw [memcmp_cons] at h₁ h₂ ⊢
              by_cases hxy : x = y
              · subst hxy
                rw [if_pos rfl] at h₁
                by_cases hxz : x = z
                · subst hxz
                  rw [if_pos rfl] at h₂ ⊢
                  exact ih (Nat.succ.inj hab) (Nat.succ.inj hbc) h₁ h₂
                · rw [if_neg hxz] at h₂ ⊢
                  exact h₂
              · rw [if_neg hxy] at h₁
                by_cases hyz : y = z
                · subst hyz
                  rw [if_neg hxy]
                  exact h₁
                · rw [if_neg hyz] at h₂
                  have hxz : ¬x = z := by
                    intro heq
                    subst heq
                    omega
                  rw [if_neg hxz]
                  omega

/-- What is made of two strings in the order of their bytes does not depend on which
is named first. -/
theorem memcmp_ordered_comm {β : Type*} {a b : Bytes} (hlen : a.length = b.length)
    (f : Bytes → Bytes → β) :
    (if memcmp a b ≤ 0 then f a b else f b a) = if memcmp b a ≤ 0 then f b a else f a b := by
  rw [memcmp_swap a b]
  by_cases hzero : memcmp a b = 0
  · rw [(memcmp_eq_zero_iff hlen).mp hzero, ite_self, ite_self]
  · by_cases hle : memcmp a b ≤ 0
    · rw [if_pos hle, if_neg (by omega)]
    · rw [if_neg hle, if_pos (by omega)]

/-! ## Decimal numerals -/

/-- Is this the byte of a decimal digit? -/
def isDigit (c : UInt8) : Bool := ch '0' ≤ c && c ≤ ch '9'

/-- The value of a digit byte. -/
def digitVal (c : UInt8) : Nat := c.toNat - 48

/-- The byte of a digit. -/
def digitByte (d : Nat) : UInt8 := UInt8.ofNat (48 + d)

/-- The number a string of digits continues `v` to. -/
def digitsValue (v : Nat) (ds : Bytes) : Nat :=
  ds.foldl (fun v c => v * 10 + digitVal c) v

/-- The plain decimal numeral of a number, as `printf` writes it. -/
def decimal (n : Nat) : Bytes :=
  if n = 0 then [ch '0'] else (Nat.digits 10 n).reverse.map digitByte

theorem isDigit_iff (c : UInt8) : isDigit c = true ↔ 48 ≤ c.toNat ∧ c.toNat ≤ 57 := by
  simp only [isDigit, Bool.and_eq_true, decide_eq_true_eq, UInt8.le_iff_toNat_le]
  exact Iff.rfl

theorem digitByte_toNat {d : Nat} (hd : d < 10) : (digitByte d).toNat = 48 + d := by
  simp only [digitByte, UInt8.toNat_ofNat']
  omega

theorem isDigit_digitByte {d : Nat} (hd : d < 10) : isDigit (digitByte d) = true := by
  rw [isDigit_iff, digitByte_toNat hd]
  omega

theorem digitVal_digitByte {d : Nat} (hd : d < 10) : digitVal (digitByte d) = d := by
  rw [digitVal, digitByte_toNat hd]
  omega

theorem digitByte_digitVal {c : UInt8} (hc : isDigit c = true) :
    digitByte (digitVal c) = c := by
  rw [isDigit_iff] at hc
  apply UInt8.toNat_inj.mp
  rw [digitByte_toNat (by rw [digitVal]; omega), digitVal]
  omega

theorem digitVal_lt {c : UInt8} (hc : isDigit c = true) : digitVal c < 10 := by
  rw [isDigit_iff] at hc
  rw [digitVal]
  omega

theorem digitVal_eq_zero_iff {c : UInt8} (hc : isDigit c = true) :
    digitVal c = 0 ↔ c = ch '0' := by
  constructor
  · intro h
    rw [← digitByte_digitVal hc, h]
    rfl
  · rintro rfl
    rfl

@[simp] theorem digitsValue_nil (v : Nat) : digitsValue v [] = v := rfl

theorem digitsValue_cons (v : Nat) (c : UInt8) (ds : Bytes) :
    digitsValue v (c :: ds) = digitsValue (v * 10 + digitVal c) ds := by
  simp only [digitsValue, List.foldl_cons]

/-- A prefix of the digits never exceeds the whole numeral. -/
theorem le_digitsValue (v : Nat) (ds : Bytes) : v ≤ digitsValue v ds := by
  induction ds generalizing v with
  | nil => exact le_rfl
  | cons c ds ih =>
      have hstep : v ≤ v * 10 + digitVal c := by omega
      rw [digitsValue_cons]
      exact le_trans hstep (ih (v * 10 + digitVal c))

theorem digitsValue_eq_ofDigits (ds : Bytes) :
    digitsValue 0 ds = Nat.ofDigits 10 (ds.map digitVal).reverse := by
  rw [Nat.ofDigits_eq_foldr, List.foldr_reverse, List.foldl_map, digitsValue]
  congr 1
  funext v c
  simp only [Nat.cast_id]
  ring

theorem digitsValue_decimal (n : Nat) : digitsValue 0 (decimal n) = n := by
  by_cases hn : n = 0
  · subst hn
    rfl
  · rw [digitsValue_eq_ofDigits, decimal, if_neg hn, List.map_map,
      ← List.map_reverse, List.reverse_reverse]
    have hmap : (Nat.digits 10 n).map (digitVal ∘ digitByte) = Nat.digits 10 n := by
      conv_rhs => rw [← List.map_id (Nat.digits 10 n)]
      apply List.map_congr_left
      intro d hd
      exact digitVal_digitByte (Nat.digits_lt_base (by norm_num) hd)
    rw [hmap, Nat.ofDigits_digits]

theorem isDigit_of_mem_decimal {n : Nat} {c : UInt8} (hc : c ∈ decimal n) :
    isDigit c = true := by
  rw [decimal] at hc
  split at hc
  · rw [List.mem_singleton] at hc
    subst hc
    rfl
  · obtain ⟨d, hd, rfl⟩ := List.mem_map.mp hc
    exact isDigit_digitByte (Nat.digits_lt_base (by norm_num) (List.mem_reverse.mp hd))

theorem length_decimal_le {n k : Nat} (hk : 0 < k) (h : n < 10 ^ k) : (decimal n).length ≤ k := by
  rw [decimal]
  split_ifs with hn
  · simp only [List.length_singleton]
    exact hk
  · rw [List.length_map, List.length_reverse]
    exact (Nat.digits_length_le_iff (by norm_num) n).mpr h

theorem decimal_ne_nil (n : Nat) : decimal n ≠ [] := by
  rw [decimal]
  split
  · simp
  · rename_i hn
    simpa [Nat.digits_ne_nil_iff_ne_zero] using hn

/-- A digit string without a leading zero is the numeral of its value. -/
theorem decimal_digitsValue {c : UInt8} {ds : Bytes} (hc : c ≠ ch '0')
    (hdigits : ∀ d ∈ c :: ds, isDigit d = true) :
    decimal (digitsValue 0 (c :: ds)) = c :: ds := by
  have hcdigit : isDigit c = true := hdigits c List.mem_cons_self
  have hcpos : digitVal c ≠ 0 := fun h => hc ((digitVal_eq_zero_iff hcdigit).mp h)
  have hpos : digitsValue 0 (c :: ds) ≠ 0 := by
    have hle := le_digitsValue (0 * 10 + digitVal c) ds
    rw [digitsValue_cons]
    omega
  have hlt : ∀ d ∈ ((c :: ds).map digitVal).reverse, d < 10 := by
    intro d hd
    obtain ⟨x, hx, rfl⟩ := List.mem_map.mp (List.mem_reverse.mp hd)
    exact digitVal_lt (hdigits x hx)
  have hlast : ∀ h : ((c :: ds).map digitVal).reverse ≠ [],
      ((c :: ds).map digitVal).reverse.getLast h ≠ 0 := by
    intro h
    rw [List.getLast_reverse]
    simpa using hcpos
  rw [decimal, if_neg hpos, digitsValue_eq_ofDigits,
    Nat.digits_ofDigits 10 (by norm_num) _ hlt hlast, List.reverse_reverse,
    List.map_map]
  conv_rhs => rw [← List.map_id (c :: ds)]
  apply List.map_congr_left
  intro d hd
  exact digitByte_digitVal (hdigits d hd)

/-- Only zero's numeral starts with a zero. -/
theorem decimal_head_zero {n : Nat} {ds : Bytes} (h : decimal n = ch '0' :: ds) :
    n = 0 ∧ ds = [] := by
  by_cases hn : n = 0
  · subst hn
    exact ⟨rfl, by simpa [decimal] using h.symm⟩
  · exfalso
    rw [decimal, if_neg hn] at h
    have hne : Nat.digits 10 n ≠ [] := Nat.digits_ne_nil_iff_ne_zero.mpr hn
    have hlast : digitByte ((Nat.digits 10 n).getLast hne) = ch '0' := by
      have hhead := congrArg List.head? h
      rw [List.head?_map, List.head?_reverse, List.getLast?_eq_getLast_of_ne_nil hne] at hhead
      simpa using hhead
    have hlt : (Nat.digits 10 n).getLast hne < 10 :=
      Nat.digits_lt_base (by norm_num) (List.getLast_mem hne)
    have hzero : (Nat.digits 10 n).getLast hne = 0 := by
      rw [← digitVal_digitByte hlt, hlast]
      rfl
    exact Nat.getLast_digit_ne_zero 10 hn hzero

end Lib
end Comrade
