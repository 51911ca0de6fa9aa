import Mathlib

/-!
# Numbers spelled in a fixed number of digits

A number is kept in a buffer of digits, the most significant first, and another digit of
the spelling it is read from is taken in by one pass over the buffer: each digit is
multiplied up and what it overflows by is carried to the one before it.  `convert` takes in a
whole spelling that way, and is a change of base wherever the buffer holds the number
(`radixValue_convert`).

Two spellings of one length and one number are the same (`radixValue_inj`), so a fixed width
leaves a number no second spelling.
-/

namespace Comrade
namespace Lib

/-- The number that the digits spell in base `b`, the most significant first. -/
def radixValue (b : ℕ) (ds : List ℕ) : ℕ := Nat.ofDigits b ds.reverse

@[simp] theorem radixValue_nil (b : ℕ) : radixValue b [] = 0 := rfl

theorem radixValue_append (b : ℕ) (xs ys : List ℕ) :
    radixValue b (xs ++ ys) = radixValue b xs * b ^ ys.length + radixValue b ys := by
  rw [radixValue, List.reverse_append, Nat.ofDigits_append, List.length_reverse, radixValue,
    radixValue]
  ring

@[simp] theorem radixValue_singleton (b d : ℕ) : radixValue b [d] = d := by
  simp [radixValue]

theorem radixValue_cons (b d : ℕ) (ds : List ℕ) :
    radixValue b (d :: ds) = d * b ^ ds.length + radixValue b ds := by
  rw [← List.singleton_append, radixValue_append, radixValue_singleton]

@[simp] theorem radixValue_replicate_zero (b n : ℕ) (ds : List ℕ) :
    radixValue b (List.replicate n 0 ++ ds) = radixValue b ds := by
  induction n with
  | zero => rfl
  | succ n ih => rw [List.replicate_succ, List.cons_append, radixValue_cons, ih, Nat.zero_mul,
      Nat.zero_add]

/-- The digits are digits of the base. -/
def Digits (b : ℕ) (ds : List ℕ) : Prop := ∀ d ∈ ds, d < b

theorem Digits.cons {b d : ℕ} {ds : List ℕ} (hd : d < b) (hds : Digits b ds) :
    Digits b (d :: ds) :=
  List.forall_mem_cons.mpr ⟨hd, hds⟩

theorem Digits.append {b : ℕ} {xs ys : List ℕ} (hxs : Digits b xs) (hys : Digits b ys) :
    Digits b (xs ++ ys) :=
  List.forall_mem_append.mpr ⟨hxs, hys⟩

theorem digits_zeros {b : ℕ} (hb : 0 < b) (n : ℕ) : Digits b (List.replicate n 0) := by
  intro d hd
  rw [List.eq_of_mem_replicate hd]
  exact hb

theorem radixValue_lt {b : ℕ} (hb : 1 < b) {ds : List ℕ} (hds : Digits b ds) :
    radixValue b ds < b ^ ds.length := by
  have h := Nat.ofDigits_lt_base_pow_length hb (l := ds.reverse) fun d hd =>
    hds d (List.mem_reverse.mp hd)
  rwa [List.length_reverse] at h

/-- A number has one spelling of a length. -/
theorem radixValue_inj {b : ℕ} (hb : 1 < b) {xs ys : List ℕ} (hlen : xs.length = ys.length)
    (hxs : Digits b xs) (hys : Digits b ys) (h : radixValue b xs = radixValue b ys) : xs = ys := by
  apply List.reverse_injective
  apply Nat.ofDigits_inj_of_len_eq hb (by rw [List.length_reverse, List.length_reverse, hlen])
  · exact fun d hd => hxs d (List.mem_reverse.mp hd)
  · exact fun d hd => hys d (List.mem_reverse.mp hd)
  · exact h

/-- Numbers of one length are in the order of their spellings. -/
theorem radixValue_lt_iff {b : ℕ} (hb : 1 < b) {xs ys : List ℕ} (hlen : xs.length = ys.length)
    (hxs : Digits b xs) (hys : Digits b ys) : radixValue b xs < radixValue b ys ↔ xs < ys := by
  induction xs generalizing ys with
  | nil =>
      obtain rfl := List.length_eq_zero_iff.mp hlen.symm
      simp
  | cons x xs ih =>
      cases ys with
      | nil => simp at hlen
      | cons y ys =>
          rw [List.length_cons, List.length_cons, Nat.succ_inj] at hlen
          have hxs' := (List.forall_mem_cons.mp hxs).2
          have hys' := (List.forall_mem_cons.mp hys).2
          have hltx := radixValue_lt hb hxs'
          have hlty := radixValue_lt hb hys'
          rw [hlen] at hltx
          rw [radixValue_cons, radixValue_cons, List.cons_lt_cons_iff, hlen,
            ← ih hlen hxs' hys']
          -- the first digits decide, and what is left is less than one of their units
          rcases lt_trichotomy x y with hxy | rfl | hxy
          · have hmul := Nat.mul_le_mul_right (b ^ ys.length) (Nat.succ_le_of_lt hxy)
            rw [Nat.succ_mul] at hmul
            exact iff_of_true (by omega) (Or.inl hxy)
          · simp
          · have hmul := Nat.mul_le_mul_right (b ^ ys.length) (Nat.succ_le_of_lt hxy)
            rw [Nat.succ_mul] at hmul
            exact iff_of_false (by omega) (by omega)

/-! ## Taking in a digit -/

/-- One pass over the buffer, from its last digit to its first: `m` times what it holds and
the carry more. -/
def mulAdd (m b : ℕ) (buf : List ℕ) (carry : ℕ) : List ℕ × ℕ :=
  buf.foldr (fun d acc => ((acc.2 + m * d) % b :: acc.1, (acc.2 + m * d) / b)) ([], carry)

@[simp] theorem mulAdd_nil (m b carry : ℕ) : mulAdd m b [] carry = ([], carry) := rfl

theorem mulAdd_cons (m b d : ℕ) (buf : List ℕ) (carry : ℕ) :
    mulAdd m b (d :: buf) carry =
      (((mulAdd m b buf carry).2 + m * d) % b :: (mulAdd m b buf carry).1,
        ((mulAdd m b buf carry).2 + m * d) / b) := rfl

@[simp] theorem length_mulAdd (m b : ℕ) (buf : List ℕ) (carry : ℕ) :
    (mulAdd m b buf carry).1.length = buf.length := by
  induction buf with
  | nil => rfl
  | cons d buf ih => rw [mulAdd_cons, List.length_cons, ih, List.length_cons]

theorem digits_mulAdd {b : ℕ} (hb : 0 < b) (m : ℕ) (buf : List ℕ) (carry : ℕ) :
    Digits b (mulAdd m b buf carry).1 := by
  induction buf with
  | nil => simp [Digits]
  | cons d buf ih => exact ih.cons (Nat.mod_lt _ hb)

/-- The pass computes, with what is carried out of the buffer. -/
theorem radixValue_mulAdd (m b : ℕ) (buf : List ℕ) (carry : ℕ) :
    (mulAdd m b buf carry).2 * b ^ buf.length + radixValue b (mulAdd m b buf carry).1 =
      m * radixValue b buf + carry := by
  induction buf with
  | nil => simp
  | cons d buf ih =>
      rw [mulAdd_cons, radixValue_cons, length_mulAdd, radixValue_cons, List.length_cons, pow_succ]
      generalize mulAdd m b buf carry = r at ih ⊢
      have hdiv : r.2 + m * d = b * ((r.2 + m * d) / b) + (r.2 + m * d) % b :=
        (Nat.div_add_mod _ _).symm
      calc (r.2 + m * d) / b * (b ^ buf.length * b) +
            ((r.2 + m * d) % b * b ^ buf.length + radixValue b r.1)
          = (b * ((r.2 + m * d) / b) + (r.2 + m * d) % b) * b ^ buf.length +
              radixValue b r.1 := by ring
        _ = (r.2 + m * d) * b ^ buf.length + radixValue b r.1 := by rw [← hdiv]
        _ = m * (d * b ^ buf.length) + (r.2 * b ^ buf.length + radixValue b r.1) := by ring
        _ = m * (d * b ^ buf.length + radixValue b buf) + carry := by rw [ih]; ring

/-- Nothing is carried out of a buffer with room for the number. -/
theorem radixValue_mulAdd_of_lt {m b : ℕ} {buf : List ℕ} {carry : ℕ}
    (hroom : m * radixValue b buf + carry < b ^ buf.length) :
    radixValue b (mulAdd m b buf carry).1 = m * radixValue b buf + carry := by
  have h := radixValue_mulAdd m b buf carry
  have hzero : (mulAdd m b buf carry).2 = 0 := by
    by_contra hne
    have hle : b ^ buf.length ≤ (mulAdd m b buf carry).2 * b ^ buf.length :=
      Nat.le_mul_of_pos_left _ (Nat.pos_of_ne_zero hne)
    omega
  rw [hzero, Nat.zero_mul, Nat.zero_add] at h
  exact h

/-! ## A change of base -/

/-- The digits of a spelling in base `m`, taken in one by one by a buffer of `n` digits. -/
def convert (m b n : ℕ) (src : List ℕ) : List ℕ :=
  src.foldl (fun buf d => (mulAdd m b buf d).1) (List.replicate n 0)

theorem convert_concat (m b n : ℕ) (src : List ℕ) (d : ℕ) :
    convert m b n (src ++ [d]) = (mulAdd m b (convert m b n src) d).1 := by
  rw [convert, List.foldl_concat]
  rfl

@[simp] theorem length_convert (m b n : ℕ) (src : List ℕ) : (convert m b n src).length = n := by
  induction src using List.reverseRecOn with
  | nil => exact List.length_replicate
  | append_singleton src d ih => rw [convert_concat, length_mulAdd, ih]

theorem digits_convert {b : ℕ} (hb : 0 < b) (m n : ℕ) (src : List ℕ) :
    Digits b (convert m b n src) := by
  cases src using List.reverseRecOn with
  | nil => exact digits_zeros hb n
  | append_singleton src d =>
      rw [convert_concat]
      exact digits_mulAdd hb m _ d

/-- A buffer with room for the number ends with its digits. -/
theorem radixValue_convert {m b n : ℕ} (hm : 1 < m) {src : List ℕ}
    (hroom : radixValue m src < b ^ n) : radixValue b (convert m b n src) = radixValue m src := by
  induction src using List.reverseRecOn with
  | nil => simpa [convert] using radixValue_replicate_zero b n []
  | append_singleton src d ih =>
      have hvalue : radixValue m (src ++ [d]) = m * radixValue m src + d := by
        rw [radixValue_append, radixValue_singleton, List.length_singleton, pow_one, Nat.mul_comm]
      have hle : radixValue m src ≤ m * radixValue m src := Nat.le_mul_of_pos_left _ (by omega)
      have hsrc := ih (by omega)
      rw [convert_concat, radixValue_mulAdd_of_lt, hsrc, hvalue]
      rwa [length_convert, hsrc, ← hvalue]

/-! ## Leading zeros -/

/-- The digits after the leading zeros. -/
def significant (ds : List ℕ) : List ℕ := ds.dropWhile (· == 0)

/-- What is left of a buffer past its leading zeros. -/
theorem drop_zeros (ds : List ℕ) :
    ds.drop (ds.takeWhile (· == 0)).length = significant ds ∧
      ds.length - (ds.takeWhile (· == 0)).length = (significant ds).length := by
  have hsplit : ds.takeWhile (· == 0) ++ significant ds = ds := List.takeWhile_append_dropWhile
  have hdrop : (ds.takeWhile (· == 0) ++ significant ds).drop (ds.takeWhile (· == 0)).length =
      significant ds := List.drop_left
  rw [hsplit] at hdrop
  exact ⟨hdrop, by rw [← hdrop, List.length_drop]⟩

theorem zeros_append_significant (ds : List ℕ) :
    List.replicate (ds.length - (significant ds).length) 0 ++ significant ds = ds := by
  induction ds with
  | nil => rfl
  | cons d ds ih =>
      by_cases hd : d = 0
      · have hstep : significant (d :: ds) = significant ds := by
          rw [significant, List.dropWhile_cons_of_pos (by simpa using hd), significant]
        have hle : (significant ds).length ≤ ds.length := (List.dropWhile_sublist _).length_le
        rw [hstep, List.length_cons, Nat.succ_sub hle, List.replicate_succ, List.cons_append, ih,
          hd]
      · have hstep : significant (d :: ds) = d :: ds := by
          rw [significant, List.dropWhile_cons_of_neg (by simpa using hd)]
        rw [hstep, Nat.sub_self]
        rfl

theorem radixValue_significant (b : ℕ) (ds : List ℕ) :
    radixValue b (significant ds) = radixValue b ds := by
  conv_rhs => rw [← zeros_append_significant ds]
  rw [radixValue_replicate_zero]

theorem Digits.significant {b : ℕ} {ds : List ℕ} (h : Digits b ds) :
    Digits b (significant ds) :=
  fun d hd => h d ((List.dropWhile_sublist _).subset hd)

/-- As many digits are significant as the number needs. -/
theorem length_significant_le_iff {b : ℕ} (hb : 1 < b) {ds : List ℕ} (hds : Digits b ds) (n : ℕ) :
    (significant ds).length ≤ n ↔ radixValue b ds < b ^ n := by
  have hlt := radixValue_lt hb hds.significant
  rw [radixValue_significant] at hlt
  constructor
  · intro hle
    exact hlt.trans_le (Nat.pow_le_pow_right (by omega) hle)
  · intro hvalue
    by_contra hlong
    cases hsig : significant ds with
    | nil => simp [hsig] at hlong
    | cons d rest =>
        -- the leading digit alone is too much
        have hd : d ≠ 0 := by
          have hhead := List.head?_dropWhile_not (fun x : ℕ => x == 0) ds
          rw [show ds.dropWhile (fun x => x == 0) = d :: rest from hsig] at hhead
          simpa using hhead
        rw [hsig, List.length_cons] at hlong
        have hrest : b ^ n ≤ b ^ rest.length := Nat.pow_le_pow_right (by omega) (by omega)
        have hone : b ^ rest.length ≤ d * b ^ rest.length :=
          Nat.le_mul_of_pos_left _ (Nat.pos_of_ne_zero hd)
        have hcons : radixValue b ds = d * b ^ rest.length + radixValue b rest := by
          rw [← radixValue_significant, hsig, radixValue_cons]
        omega

end Lib
end Comrade
