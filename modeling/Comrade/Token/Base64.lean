import Comrade.Lib.Bytes

/-!
# Base64url

`base64.c`: three bytes are written as four characters of six bits each, and one or two bytes
at the end as two or three.  The secrets of a session are passwords in this form.

* `base64urlBody` is the text of a byte string, and `decodeLoop` the loop that reads one; its
  32-bit word is shifted on and on, and only its low bits are looked at.
* `base64url_exact`: what the reader accepts are the texts of byte strings and nothing else, and
  it gives back the bytes.
-/

namespace Comrade
namespace Token

open Lib

/-! ## The code -/

/-- `b64url_alphabet`. -/
def b64urlAlphabet : Bytes :=
  ascii ['A', 'B', 'C', 'D', 'E', 'F', 'G', 'H', 'I', 'J', 'K', 'L', 'M', 'N', 'O', 'P', 'Q',
    'R', 'S', 'T', 'U', 'V', 'W', 'X', 'Y', 'Z', 'a', 'b', 'c', 'd', 'e', 'f', 'g', 'h', 'i',
    'j', 'k', 'l', 'm', 'n', 'o', 'p', 'q', 'r', 's', 't', 'u', 'v', 'w', 'x', 'y', 'z', '0',
    '1', '2', '3', '4', '5', '6', '7', '8', '9', '-', '_']

/-- The character of six bits. -/
def b64urlChar (d : Nat) : UInt8 := b64urlAlphabet.getD d 0

/-- What `base64url_encode` writes up to the terminator. -/
def base64urlBody : Bytes → Bytes
  | a :: b :: c :: src =>
      let v := a.toNat * 2 ^ 16 + b.toNat * 2 ^ 8 + c.toNat
      b64urlChar (v / 2 ^ 18) :: b64urlChar (v / 2 ^ 12 % 64) :: b64urlChar (v / 2 ^ 6 % 64) ::
        b64urlChar (v % 64) :: base64urlBody src
  | [a, b] =>
      let v := a.toNat * 2 ^ 16 + b.toNat * 2 ^ 8
      [b64urlChar (v / 2 ^ 18), b64urlChar (v / 2 ^ 12 % 64), b64urlChar (v / 2 ^ 6 % 64)]
  | [a] =>
      let v := a.toNat * 2 ^ 16
      [b64urlChar (v / 2 ^ 18), b64urlChar (v / 2 ^ 12 % 64)]
  | [] => []

theorem base64urlBody_triple (a b c : UInt8) (src : Bytes) :
    base64urlBody (a :: b :: c :: src) =
      b64urlChar ((a.toNat * 2 ^ 16 + b.toNat * 2 ^ 8 + c.toNat) / 2 ^ 18) ::
        b64urlChar ((a.toNat * 2 ^ 16 + b.toNat * 2 ^ 8 + c.toNat) / 2 ^ 12 % 64) ::
        b64urlChar ((a.toNat * 2 ^ 16 + b.toNat * 2 ^ 8 + c.toNat) / 2 ^ 6 % 64) ::
        b64urlChar ((a.toNat * 2 ^ 16 + b.toNat * 2 ^ 8 + c.toNat) % 64) :: base64urlBody src :=
  rfl

theorem base64urlBody_pair (a b : UInt8) :
    base64urlBody [a, b] =
      [b64urlChar ((a.toNat * 2 ^ 16 + b.toNat * 2 ^ 8) / 2 ^ 18),
        b64urlChar ((a.toNat * 2 ^ 16 + b.toNat * 2 ^ 8) / 2 ^ 12 % 64),
        b64urlChar ((a.toNat * 2 ^ 16 + b.toNat * 2 ^ 8) / 2 ^ 6 % 64)] :=
  rfl

theorem base64urlBody_single (a : UInt8) :
    base64urlBody [a] =
      [b64urlChar (a.toNat * 2 ^ 16 / 2 ^ 18), b64urlChar (a.toNat * 2 ^ 16 / 2 ^ 12 % 64)] :=
  rfl

/-- `base64url_encode` into a buffer of `destLen` bytes; nothing where it finds no room. -/
def base64urlEncode (src : Bytes) (destLen : Nat) : Option Bytes :=
  let rem := src.length % 3
  let need := src.length / 3 * 4 + (if rem = 0 then 0 else rem + 1) + 1
  if destLen < need then none else some (base64urlBody src)

/-- `b64url_value`. -/
def b64urlValue (c : UInt8) : Option Nat :=
  if ch 'A' ≤ c ∧ c ≤ ch 'Z' then some (c.toNat - (ch 'A').toNat)
  else if ch 'a' ≤ c ∧ c ≤ ch 'z' then some (c.toNat - (ch 'a').toNat + 26)
  else if ch '0' ≤ c ∧ c ≤ ch '9' then some (c.toNat - (ch '0').toNat + 52)
  else if c = ch '-' then some 62
  else if c = ch '_' then some 63
  else none

/-- The loop of `base64url_decode` and the test behind it: the word `v`, of which the last `bits`
bits wait, and what has been written. -/
def decodeLoop (destLen : Nat) : Nat → Nat → Bytes → Bytes → Option Bytes
  | v, bits, out, [] => if v % 2 ^ bits ≠ 0 then none else some out
  | v, bits, out, c :: src =>
      match b64urlValue c with
      | none => none
      | some d =>
          let v := (v * 2 ^ 6 + d) % 2 ^ 32
          if bits + 6 < 8 then decodeLoop destLen v (bits + 6) out src
          else if destLen ≤ out.length then none
          else
            decodeLoop destLen v (bits + 6 - 8) (out ++ [UInt8.ofNat (v / 2 ^ (bits + 6 - 8))]) src

/-- `base64url_decode`. -/
def base64urlDecode (src : Bytes) (destLen : Nat) : Option Bytes :=
  if src.length % 4 = 1 then none else decodeLoop destLen 0 0 [] src

/-! ## The alphabet -/

theorem b64urlValue_b64urlChar {d : Nat} (hd : d < 64) : b64urlValue (b64urlChar d) = some d := by
  have hall : ∀ d : Fin 64, b64urlValue (b64urlChar d) = some d.val := by decide
  exact hall ⟨d, hd⟩

theorem b64urlChar_of_b64urlValue {c : UInt8} {d : Nat} (h : b64urlValue c = some d) :
    d < 64 ∧ b64urlChar d = c := by
  have hupper : ∀ k : Fin 26, b64urlChar k.val = UInt8.ofNat (65 + k.val) := by decide
  have hlower : ∀ k : Fin 26, b64urlChar (k.val + 26) = UInt8.ofNat (97 + k.val) := by decide
  have hdigit : ∀ k : Fin 10, b64urlChar (k.val + 52) = UInt8.ofNat (48 + k.val) := by decide
  have hback : ∀ n, c.toNat = n → UInt8.ofNat n = c := by
    rintro n rfl
    exact UInt8.ofNat_toNat
  have hval : (ch 'A').toNat = 65 ∧ (ch 'Z').toNat = 90 ∧ (ch 'a').toNat = 97 ∧
      (ch 'z').toNat = 122 ∧ (ch '0').toNat = 48 ∧ (ch '9').toNat = 57 := by decide
  obtain ⟨hA, hZ, ha, hz, h0, h9⟩ := hval
  unfold b64urlValue at h
  simp only [UInt8.le_iff_toNat_le, hA, hZ, ha, hz, h0, h9] at h
  split_ifs at h with h1 h2 h3 h4 h5
  · obtain rfl := Option.some.inj h
    refine ⟨by omega, ?_⟩
    rw [hupper ⟨c.toNat - 65, by omega⟩]
    exact hback _ (by simp only []; omega)
  · obtain rfl := Option.some.inj h
    refine ⟨by omega, ?_⟩
    rw [hlower ⟨c.toNat - 97, by omega⟩]
    exact hback _ (by simp only []; omega)
  · obtain rfl := Option.some.inj h
    refine ⟨by omega, ?_⟩
    rw [hdigit ⟨c.toNat - 48, by omega⟩]
    exact hback _ (by simp only []; omega)
  · obtain rfl := Option.some.inj h
    exact ⟨by omega, h4.symm⟩
  · obtain rfl := Option.some.inj h
    exact ⟨by omega, h5.symm⟩

/-! ## Reading -/

variable {n v : Nat} {out : Bytes}

theorem decodeLoop_nil (bits : Nat) :
    decodeLoop n v bits out [] = if v % 2 ^ bits ≠ 0 then none else some out :=
  rfl

theorem decodeLoop_char {d : Nat} (hd : d < 64) (bits : Nat) (src : Bytes) :
    decodeLoop n v bits out (b64urlChar d :: src) =
      if bits + 6 < 8 then decodeLoop n ((v * 2 ^ 6 + d) % 2 ^ 32) (bits + 6) out src
      else if n ≤ out.length then none
      else
        decodeLoop n ((v * 2 ^ 6 + d) % 2 ^ 32) (bits + 6 - 8)
          (out ++ [UInt8.ofNat ((v * 2 ^ 6 + d) % 2 ^ 32 / 2 ^ (bits + 6 - 8))]) src := by
  rw [decodeLoop, b64urlValue_b64urlChar hd]

/-- The first character of four. -/
theorem decodeLoop_first {d : Nat} (hd : d < 64) (src : Bytes) :
    decodeLoop n v 0 out (b64urlChar d :: src) =
      decodeLoop n ((v * 2 ^ 6 + d) % 2 ^ 32) 6 out src := by
  rw [decodeLoop_char hd]
  rfl

/-- Another one, which completes a byte. -/
theorem decodeLoop_next {d : Nat} (hd : d < 64) (k : Nat) (src : Bytes) :
    decodeLoop n v (k + 2) out (b64urlChar d :: src) =
      if n ≤ out.length then none
      else decodeLoop n ((v * 2 ^ 6 + d) % 2 ^ 32) k
        (out ++ [UInt8.ofNat ((v * 2 ^ 6 + d) % 2 ^ 32 / 2 ^ k)]) src := by
  have hbits : k + 2 + 6 - 8 = k := by omega
  rw [decodeLoop_char hd, if_neg (by omega), hbits]

/-- Bytes with the same number are one. -/
theorem ofNat_eq_of_mod {x : Nat} {a : UInt8} (h : x % 256 = a.toNat) : UInt8.ofNat x = a := by
  apply UInt8.toNat_inj.mp
  rw [UInt8.toNat_ofNat', ← h]

/-- The first byte of four characters; what the word held before is shifted out of it. -/
theorem first_byte (v d e : Nat) :
    UInt8.ofNat (((v * 2 ^ 6 + d) % 2 ^ 32 * 2 ^ 6 + e) % 2 ^ 32 / 2 ^ 4) =
      UInt8.ofNat (d * 4 + e / 16) := by
  apply ofNat_eq_of_mod
  rw [UInt8.toNat_ofNat']
  omega

theorem second_byte (v e f : Nat) :
    UInt8.ofNat (((v * 2 ^ 6 + e) % 2 ^ 32 * 2 ^ 6 + f) % 2 ^ 32 / 2 ^ 2) =
      UInt8.ofNat (e % 16 * 16 + f / 4) := by
  apply ofNat_eq_of_mod
  rw [UInt8.toNat_ofNat']
  omega

theorem third_byte (v f g : Nat) :
    UInt8.ofNat (((v * 2 ^ 6 + f) % 2 ^ 32 * 2 ^ 6 + g) % 2 ^ 32 / 2 ^ 0) =
      UInt8.ofNat (f % 4 * 64 + g) := by
  apply ofNat_eq_of_mod
  rw [UInt8.toNat_ofNat']
  omega

/-- Two characters: a byte, and four bits that must be zero. -/
theorem decodeLoop_two {d e : Nat} (hd : d < 64) (he : e < 64) :
    decodeLoop n v 0 out [b64urlChar d, b64urlChar e] =
      if n ≤ out.length ∨ e % 16 ≠ 0 then none
      else some (out ++ [UInt8.ofNat (d * 4 + e / 16)]) := by
  have hrest : ((v * 2 ^ 6 + d) % 2 ^ 32 * 2 ^ 6 + e) % 2 ^ 32 % 2 ^ 4 = e % 16 := by omega
  rw [decodeLoop_first hd, decodeLoop_next he 4, decodeLoop_nil, first_byte, hrest]
  by_cases hroom : n ≤ out.length
  · rw [if_pos hroom, if_pos (Or.inl hroom)]
  · by_cases hzero : e % 16 ≠ 0
    · rw [if_neg hroom, if_pos hzero, if_pos (Or.inr hzero)]
    · rw [if_neg hroom, if_neg hzero, if_neg (by tauto)]

/-- Three characters: two bytes, and two bits that must be zero. -/
theorem decodeLoop_three {d e f : Nat} (hd : d < 64) (he : e < 64) (hf : f < 64) :
    decodeLoop n v 0 out [b64urlChar d, b64urlChar e, b64urlChar f] =
      if n ≤ out.length + 1 ∨ f % 4 ≠ 0 then none
      else some (out ++ [UInt8.ofNat (d * 4 + e / 16), UInt8.ofNat (e % 16 * 16 + f / 4)]) := by
  have hrest : (((v * 2 ^ 6 + d) % 2 ^ 32 * 2 ^ 6 + e) % 2 ^ 32 * 2 ^ 6 + f) % 2 ^ 32 % 2 ^ 2 =
      f % 4 := by omega
  rw [decodeLoop_first hd, decodeLoop_next he 4, decodeLoop_next hf 2, decodeLoop_nil,
    first_byte, second_byte, hrest, List.length_append, List.length_singleton,
    List.append_assoc, List.singleton_append]
  split_ifs <;> first | rfl | omega

/-- Four characters: three bytes, and nothing waits. -/
theorem decodeLoop_four {d e f g : Nat} (hd : d < 64) (he : e < 64) (hf : f < 64) (hg : g < 64)
    (v : Nat) (out src : Bytes) :
    ∃ v', decodeLoop n v 0 out
        (b64urlChar d :: b64urlChar e :: b64urlChar f :: b64urlChar g :: src) =
      if n ≤ out.length + 2 then none
      else decodeLoop n v' 0 (out ++ [UInt8.ofNat (d * 4 + e / 16),
        UInt8.ofNat (e % 16 * 16 + f / 4), UInt8.ofNat (f % 4 * 64 + g)]) src := by
  refine ⟨((((v * 2 ^ 6 + d) % 2 ^ 32 * 2 ^ 6 + e) % 2 ^ 32 * 2 ^ 6 + f) % 2 ^ 32 * 2 ^ 6 + g) %
    2 ^ 32, ?_⟩
  rw [decodeLoop_first hd, decodeLoop_next he 4, decodeLoop_next hf 2, decodeLoop_next hg 0,
    first_byte, second_byte, third_byte]
  simp only [List.length_append, List.length_cons, List.length_nil, List.append_assoc,
    List.cons_append, List.nil_append]
  split_ifs <;> first | rfl | omega

/-- The text of a byte string is read back, if there is room for the bytes. -/
theorem decodeLoop_body (b : Bytes) (v : Nat) {out : Bytes} (hout : out.length ≤ n) :
    decodeLoop n v 0 out (base64urlBody b) =
      if out.length + b.length ≤ n then some (out ++ b) else none := by
  induction b using base64urlBody.induct generalizing v out with
  | case1 a b c src ih =>
      have ha := a.toNat_lt
      have hb := b.toNat_lt
      have hc := c.toNat_lt
      rw [base64urlBody_triple]
      generalize hw : a.toNat * 2 ^ 16 + b.toNat * 2 ^ 8 + c.toNat = w
      obtain ⟨v', hfour⟩ := @decodeLoop_four n (w / 2 ^ 18) (w / 2 ^ 12 % 64) (w / 2 ^ 6 % 64)
        (w % 64) (by omega) (by omega) (by omega) (by omega) v out (base64urlBody src)
      have hfirst : UInt8.ofNat (w / 2 ^ 18 * 4 + w / 2 ^ 12 % 64 / 16) = a :=
        ofNat_eq_of_mod (by omega)
      have hsecond : UInt8.ofNat (w / 2 ^ 12 % 64 % 16 * 16 + w / 2 ^ 6 % 64 / 4) = b :=
        ofNat_eq_of_mod (by omega)
      have hthird : UInt8.ofNat (w / 2 ^ 6 % 64 % 4 * 64 + w % 64) = c :=
        ofNat_eq_of_mod (by omega)
      rw [hfirst, hsecond, hthird] at hfour
      refine hfour.trans ?_
      have hlen : (a :: b :: c :: src).length = src.length + 3 := rfl
      rw [hlen]
      by_cases hroom : n ≤ out.length + 2
      · rw [if_pos hroom, if_neg (by omega)]
      · have hnow : (out ++ [a, b, c]).length = out.length + 3 := List.length_append ..
        rw [if_neg hroom, ih v' (by omega), hnow, List.append_assoc]
        have hsame : out.length + 3 + src.length = out.length + (src.length + 3) := by omega
        rw [hsame]
        rfl
  | case2 a b =>
      have ha := a.toNat_lt
      have hb := b.toNat_lt
      rw [base64urlBody_pair]
      generalize hw : a.toNat * 2 ^ 16 + b.toNat * 2 ^ 8 = w
      have hfirst : UInt8.ofNat (w / 2 ^ 18 * 4 + w / 2 ^ 12 % 64 / 16) = a :=
        ofNat_eq_of_mod (by omega)
      have hsecond : UInt8.ofNat (w / 2 ^ 12 % 64 % 16 * 16 + w / 2 ^ 6 % 64 / 4) = b :=
        ofNat_eq_of_mod (by omega)
      have hzero : w / 2 ^ 6 % 64 % 4 = 0 := by omega
      have hthree := @decodeLoop_three n v out (w / 2 ^ 18) (w / 2 ^ 12 % 64) (w / 2 ^ 6 % 64)
        (by omega) (by omega) (by omega)
      rw [hfirst, hsecond, hzero] at hthree
      refine hthree.trans ?_
      have hlen : [a, b].length = 2 := rfl
      rw [hlen]
      split_ifs <;> first | rfl | omega
  | case3 a =>
      have ha := a.toNat_lt
      rw [base64urlBody_single]
      generalize hw : a.toNat * 2 ^ 16 = w
      have hfirst : UInt8.ofNat (w / 2 ^ 18 * 4 + w / 2 ^ 12 % 64 / 16) = a :=
        ofNat_eq_of_mod (by omega)
      have hzero : w / 2 ^ 12 % 64 % 16 = 0 := by omega
      have htwo := @decodeLoop_two n v out (w / 2 ^ 18) (w / 2 ^ 12 % 64) (by omega) (by omega)
      rw [hfirst, hzero] at htwo
      refine htwo.trans ?_
      have hlen : [a].length = 1 := rfl
      rw [hlen]
      split_ifs <;> first | rfl | omega
  | case4 =>
      rw [base64urlBody, decodeLoop_nil, if_neg (by omega), List.append_nil, List.length_nil,
        Nat.add_zero, if_pos hout]

/-! ## What is accepted -/

/-- Every character that is read is one of the alphabet. -/
theorem chars_of_decodeLoop {s r : Bytes} {bits : Nat}
    (h : decodeLoop n v bits out s = some r) : ∀ c ∈ s, ∃ d < 64, b64urlChar d = c := by
  induction s generalizing v bits out with
  | nil => simp
  | cons c s ih =>
      rw [decodeLoop] at h
      cases hd : b64urlValue c with
      | none => simp [hd] at h
      | some d =>
          simp only [hd] at h
          refine List.forall_mem_cons.mpr ⟨⟨d, b64urlChar_of_b64urlValue hd⟩, ?_⟩
          split_ifs at h
          · exact ih h
          · exact ih h

/-- A text that is read is the text of some bytes. -/
theorem exists_body (s : Bytes) {v : Nat} {out r : Bytes} (h : decodeLoop n v 0 out s = some r)
    (hlen : s.length % 4 ≠ 1) : ∃ b, base64urlBody b = s := by
  induction hk : s.length using Nat.strong_induction_on generalizing s v out with
  | _ k ih =>
    have hchars := chars_of_decodeLoop h
    match s, h, hlen, hk, hchars with
    | [], _, _, _, _ => exact ⟨[], rfl⟩
    | [c], _, hlen, _, _ => exact absurd rfl hlen
    | [c₁, c₂], h, _, _, hchars =>
        obtain ⟨d, hd, rfl⟩ := hchars c₁ (by simp)
        obtain ⟨e, he, rfl⟩ := hchars c₂ (by simp)
        rw [decodeLoop_two hd he] at h
        split_ifs at h with hbad
        refine ⟨[UInt8.ofNat (d * 4 + e / 16)], ?_⟩
        rw [base64urlBody_single, UInt8.toNat_ofNat']
        congr 2
        · omega
        · congr 1
          omega
    | [c₁, c₂, c₃], h, _, _, hchars =>
        obtain ⟨d, hd, rfl⟩ := hchars c₁ (by simp)
        obtain ⟨e, he, rfl⟩ := hchars c₂ (by simp)
        obtain ⟨f, hf, rfl⟩ := hchars c₃ (by simp)
        rw [decodeLoop_three hd he hf] at h
        split_ifs at h with hbad
        refine ⟨[UInt8.ofNat (d * 4 + e / 16), UInt8.ofNat (e % 16 * 16 + f / 4)], ?_⟩
        rw [base64urlBody_pair, UInt8.toNat_ofNat', UInt8.toNat_ofNat']
        congr 2
        · omega
        · congr 1
          omega
        · congr 2
          omega
    | c₁ :: c₂ :: c₃ :: c₄ :: s, h, hlen, hk, hchars =>
        obtain ⟨d, hd, rfl⟩ := hchars c₁ (by simp)
        obtain ⟨e, he, rfl⟩ := hchars c₂ (by simp)
        obtain ⟨f, hf, rfl⟩ := hchars c₃ (by simp)
        obtain ⟨g, hg, rfl⟩ := hchars c₄ (by simp)
        obtain ⟨v', hfour⟩ := @decodeLoop_four n d e f g hd he hf hg v out s
        rw [hfour] at h
        split_ifs at h
        simp only [List.length_cons] at hlen hk
        obtain ⟨b, rfl⟩ := ih s.length (by omega) s h (by omega) rfl
        refine ⟨UInt8.ofNat (d * 4 + e / 16) :: UInt8.ofNat (e % 16 * 16 + f / 4) ::
          UInt8.ofNat (f % 4 * 64 + g) :: b, ?_⟩
        rw [base64urlBody_triple, UInt8.toNat_ofNat', UInt8.toNat_ofNat', UInt8.toNat_ofNat']
        congr 2
        · omega
        · congr 1
          omega
        · congr 2
          · omega
          · congr 2
            omega

theorem length_base64urlBody (b : Bytes) :
    (base64urlBody b).length =
      b.length / 3 * 4 + (if b.length % 3 = 0 then 0 else b.length % 3 + 1) := by
  induction b using base64urlBody.induct with
  | case1 a b c src ih =>
      simp only [base64urlBody_triple, List.length_cons, ih]
      split_ifs <;> omega
  | case2 a b => simp [base64urlBody_pair]
  | case3 a => simp [base64urlBody_single]
  | case4 => rfl

/-- `base64url_decode` accepts the texts that `base64url_encode` writes and no others, and gives
back the bytes, with room for the text on the one side and for the bytes on the other. -/
theorem base64url_exact (n m : Nat) (s b : Bytes) :
    base64urlDecode s n = some b ∧ s.length < m ↔
      base64urlEncode b m = some s ∧ b.length ≤ n := by
  have hwritten : base64urlEncode b m = some s ↔ s.length < m ∧ base64urlBody b = s := by
    have hlen := length_base64urlBody b
    rw [base64urlEncode]
    simp only [← hlen]
    constructor
    · intro h
      split_ifs at h with hroom
      obtain rfl := Option.some.inj h
      exact ⟨by omega, rfl⟩
    · rintro ⟨hroom, rfl⟩
      rw [if_neg (by omega)]
  have hread : base64urlDecode s n = some b ↔ base64urlBody b = s ∧ b.length ≤ n := by
    rw [base64urlDecode]
    constructor
    · intro h
      split_ifs at h with hone
      obtain ⟨b', rfl⟩ := exists_body s h hone
      rw [decodeLoop_body b' 0 (Nat.zero_le n)] at h
      split_ifs at h with hroom
      obtain rfl := Option.some.inj h
      exact ⟨rfl, by simpa using hroom⟩
    · rintro ⟨rfl, hroom⟩
      have hlen := length_base64urlBody b
      have hone : ¬(base64urlBody b).length % 4 = 1 := by
        rw [hlen]
        split_ifs <;> omega
      rw [if_neg hone, decodeLoop_body b 0 (Nat.zero_le n), if_pos (by simpa using hroom)]
      rfl
  rw [hread, hwritten]
  tauto

end Token
end Comrade
