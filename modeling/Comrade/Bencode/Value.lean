import Comrade.Bencode.Codec

/-!
# Bencode values

What a bencode text stands for, apart from how it is read: a `Benc` value, its
canonical encoding, and when a value is well formed.

* `Benc.encode` is the one canonical text of a value.
* `Benc.WellFormed`: integers and lengths that 64 bits hold, dictionary keys in
  strictly ascending byte order.
* `Benc.nesting`: how far below the outermost value the deepest value stands.
* `Benc.encode_append_inj`: a text has one reading, also with more text after it.
-/

namespace Comrade
namespace Bencode

open Lib

/-- A bencode value. -/
inductive Benc where
  | int (n : Int)
  | str (s : Bytes)
  | list (vs : List Benc)
  | dict (kvs : List (Bytes × Benc))

/-- The encoding of a byte string. -/
def strEncode (s : Bytes) : Bytes := decimal s.length ++ ch ':' :: s

mutual

/-- The canonical encoding of a value. -/
def Benc.encode : Benc → Bytes
  | .int n => ch 'i' :: (decimalInt n ++ [ch 'e'])
  | .str s => strEncode s
  | .list vs => ch 'l' :: (encodeList vs ++ [ch 'e'])
  | .dict kvs => ch 'd' :: (encodeEntries kvs ++ [ch 'e'])

def encodeList : List Benc → Bytes
  | [] => []
  | v :: vs => v.encode ++ encodeList vs

def encodeEntries : List (Bytes × Benc) → Bytes
  | [] => []
  | (k, v) :: kvs => (strEncode k ++ v.encode) ++ encodeEntries kvs

end

mutual

/-- Integers strictly between -2^63 and 2^63, string lengths that a signed
64-bit integer holds, and dictionary keys in strictly ascending order. -/
def Benc.WellFormed : Benc → Prop
  | .int n => -2 ^ 63 < n ∧ n < 2 ^ 63
  | .str s => s.length < 2 ^ 63
  | .list vs => wellFormedList vs
  | .dict kvs => (kvs.map Prod.fst).Pairwise (· < ·) ∧ wellFormedEntries kvs

def wellFormedList : List Benc → Prop
  | [] => True
  | v :: vs => v.WellFormed ∧ wellFormedList vs

def wellFormedEntries : List (Bytes × Benc) → Prop
  | [] => True
  | (k, v) :: kvs => k.length < 2 ^ 63 ∧ v.WellFormed ∧ wellFormedEntries kvs

end

mutual

/-- The depth of the deepest value, the outermost one standing at depth 0. -/
def Benc.nesting : Benc → Nat
  | .int _ => 0
  | .str _ => 0
  | .list vs => nestingList vs
  | .dict kvs => nestingEntries kvs

def nestingList : List Benc → Nat
  | [] => 0
  | v :: vs => max (v.nesting + 1) (nestingList vs)

def nestingEntries : List (Bytes × Benc) → Nat
  | [] => 0
  | (_, v) :: kvs => max (v.nesting + 1) (nestingEntries kvs)

end

/-- The encoding of a dictionary entry. -/
def entryEncode (kv : Bytes × Benc) : Bytes := strEncode kv.1 ++ kv.2.encode

theorem encodeList_eq (vs : List Benc) : encodeList vs = vs.flatMap Benc.encode := by
  induction vs with
  | nil => rw [encodeList]; rfl
  | cons v vs ih => rw [encodeList, ih]; rfl

theorem encodeEntries_eq (kvs : List (Bytes × Benc)) :
    encodeEntries kvs = kvs.flatMap entryEncode := by
  induction kvs with
  | nil => rw [encodeEntries]; rfl
  | cons kv kvs ih => rw [encodeEntries, ih]; rfl

theorem wellFormedList_iff (vs : List Benc) :
    wellFormedList vs ↔ ∀ v ∈ vs, v.WellFormed := by
  induction vs with
  | nil => simp [wellFormedList]
  | cons v vs ih => simp [wellFormedList, ih]

theorem wellFormedEntries_iff (kvs : List (Bytes × Benc)) :
    wellFormedEntries kvs ↔ ∀ kv ∈ kvs, kv.1.length < 2 ^ 63 ∧ kv.2.WellFormed := by
  induction kvs with
  | nil => simp [wellFormedEntries]
  | cons kv kvs ih => rw [wellFormedEntries, ih, List.forall_mem_cons, and_assoc]

theorem nestingList_le_iff (vs : List Benc) (n : Nat) :
    nestingList vs ≤ n ↔ ∀ v ∈ vs, v.nesting + 1 ≤ n := by
  induction vs with
  | nil => simp [nestingList]
  | cons v vs ih => rw [nestingList, max_le_iff, ih, List.forall_mem_cons]

theorem nestingEntries_le_iff (kvs : List (Bytes × Benc)) (n : Nat) :
    nestingEntries kvs ≤ n ↔ ∀ kv ∈ kvs, kv.2.nesting + 1 ≤ n := by
  induction kvs with
  | nil => simp [nestingEntries]
  | cons kv kvs ih => rw [nestingEntries, max_le_iff, ih, List.forall_mem_cons]

/-! ## One reading -/

/-- A run of digits ends where the digits end. -/
theorem digits_append_inj {ds ds' r r' : Bytes} {c c' : UInt8}
    (hds : ∀ d ∈ ds, isDigit d = true) (hds' : ∀ d ∈ ds', isDigit d = true)
    (hc : isDigit c = false) (hc' : isDigit c' = false)
    (h : ds ++ c :: r = ds' ++ c' :: r') : ds = ds' ∧ c = c' ∧ r = r' := by
  -- the digits can be read back off the front of the text
  have htake : ∀ {ds r : Bytes} {c : UInt8}, (∀ d ∈ ds, isDigit d = true) → isDigit c = false →
      (ds ++ c :: r).takeWhile isDigit = ds := by
    intro ds r c hds hc
    rw [List.takeWhile_append_of_pos hds, List.takeWhile_cons_of_neg (by simp [hc]),
      List.append_nil]
  have hdseq : ds = ds' := by
    rw [← htake hds hc, h, htake hds' hc']
  subst hdseq
  have htail := List.append_cancel_left h
  exact ⟨rfl, List.cons.inj htail⟩

theorem decimal_append_inj {n n' : Nat} {r r' : Bytes} {c c' : UInt8} (hc : isDigit c = false)
    (hc' : isDigit c' = false) (h : decimal n ++ c :: r = decimal n' ++ c' :: r') :
    n = n' ∧ c = c' ∧ r = r' := by
  obtain ⟨hn, hrest⟩ := digits_append_inj (fun _ => isDigit_of_mem_decimal)
    (fun _ => isDigit_of_mem_decimal) hc hc' h
  refine ⟨?_, hrest⟩
  rw [← digitsValue_decimal n, hn, digitsValue_decimal]

theorem decimal_head (n : Nat) : ∃ c t, decimal n = c :: t ∧ isDigit c = true := by
  cases h : decimal n with
  | nil => exact absurd h (decimal_ne_nil n)
  | cons c t => exact ⟨c, t, rfl, isDigit_of_mem_decimal (h ▸ List.mem_cons_self)⟩

theorem strEncode_head (s : Bytes) : ∃ c t, strEncode s = c :: t ∧ isDigit c = true := by
  obtain ⟨c, t, h, hc⟩ := decimal_head s.length
  exact ⟨c, t ++ ch ':' :: s, by rw [strEncode, h]; rfl, hc⟩

theorem strEncode_append_inj {s s' r r' : Bytes} (h : strEncode s ++ r = strEncode s' ++ r') :
    s = s' ∧ r = r' := by
  simp only [strEncode, List.append_assoc, List.cons_append] at h
  obtain ⟨hlen, -, hrest⟩ := decimal_append_inj (by decide) (by decide) h
  exact List.append_inj hrest hlen

theorem decimalInt_append_inj {n n' : Int} {r r' : Bytes}
    (h : decimalInt n ++ ch 'e' :: r = decimalInt n' ++ ch 'e' :: r') : n = n' ∧ r = r' := by
  -- a sign is no digit, so numbers of different sign differ at the first byte
  have hminus : ∀ {m : Nat} {t t' : Bytes}, ch '-' :: t ≠ decimal m ++ t' := by
    intro m t t' heq
    obtain ⟨c, u, hm, hc⟩ := decimal_head m
    rw [hm, List.cons_append] at heq
    rw [← (List.cons.inj heq).1] at hc
    exact absurd hc (by decide)
  unfold decimalInt at h
  by_cases hn : n < 0 <;> by_cases hn' : n' < 0
  · rw [if_pos hn, if_pos hn', List.cons_append, List.cons_append] at h
    obtain ⟨hnat, -, hr⟩ := decimal_append_inj (by decide) (by decide) (List.cons.inj h).2
    exact ⟨by omega, hr⟩
  · rw [if_pos hn, if_neg hn', List.cons_append] at h
    exact absurd h hminus
  · rw [if_neg hn, if_pos hn', List.cons_append] at h
    exact absurd h.symm hminus
  · rw [if_neg hn, if_neg hn'] at h
    obtain ⟨hnat, -, hr⟩ := decimal_append_inj (by decide) (by decide) h
    exact ⟨by omega, hr⟩

/-- What a value's encoding starts with: a letter of its own, or a digit. -/
theorem Benc.encode_head (v : Benc) :
    ∃ c t, v.encode = c :: t ∧ (c = ch 'i' ∨ c = ch 'l' ∨ c = ch 'd' ∨ isDigit c = true) := by
  cases v with
  | int n => exact ⟨ch 'i', _, by rw [Benc.encode], .inl rfl⟩
  | str s =>
      obtain ⟨c, t, h, hc⟩ := strEncode_head s
      exact ⟨c, t, by rw [Benc.encode, h], .inr (.inr (.inr hc))⟩
  | list vs => exact ⟨ch 'l', _, by rw [Benc.encode], .inr (.inl rfl)⟩
  | dict kvs => exact ⟨ch 'd', _, by rw [Benc.encode], .inr (.inr (.inl rfl))⟩

theorem Benc.encode_head_ne_end (v : Benc) : ∃ c t, v.encode = c :: t ∧ c ≠ ch 'e' := by
  obtain ⟨c, t, h, hc⟩ := v.encode_head
  refine ⟨c, t, h, ?_⟩
  rintro rfl
  exact absurd hc (by decide)

theorem entryEncode_head_ne_end (kv : Bytes × Benc) :
    ∃ c t, entryEncode kv = c :: t ∧ c ≠ ch 'e' := by
  obtain ⟨c, t, h, hc⟩ := strEncode_head kv.1
  refine ⟨c, t ++ kv.2.encode, by rw [entryEncode, h]; rfl, ?_⟩
  rintro rfl
  exact absurd hc (by decide)

/-- A string's encoding starts with none of the other values' letters. -/
theorem strEncode_ne_cons {s r t : Bytes} {c : UInt8} (hc : isDigit c = false) :
    strEncode s ++ r ≠ c :: t := by
  intro h
  obtain ⟨d, u, hs, hd⟩ := strEncode_head s
  rw [hs, List.cons_append] at h
  rw [(List.cons.inj h).1, hc] at hd
  cases hd

mutual

/-- An encoding has one reading, whatever follows it. -/
theorem Benc.encode_append_inj : ∀ (v w : Benc) {r r' : Bytes},
    v.encode ++ r = w.encode ++ r' → v = w ∧ r = r'
  | .int n, w, r, r', h => by
      cases w with
      | int m =>
          simp only [Benc.encode, List.cons_append, List.append_assoc, List.nil_append,
            List.cons.injEq, true_and] at h
          obtain ⟨rfl, hr⟩ := decimalInt_append_inj h
          exact ⟨rfl, hr⟩
      | str s =>
          simp only [Benc.encode, List.cons_append] at h
          exact absurd h.symm (strEncode_ne_cons (by decide))
      | list ws => simp [Benc.encode, ch] at h
      | dict kvs => simp [Benc.encode, ch] at h
  | .str s, w, r, r', h => by
      cases w with
      | str s' =>
          simp only [Benc.encode] at h
          obtain ⟨rfl, hr⟩ := strEncode_append_inj h
          exact ⟨rfl, hr⟩
      | int m =>
          simp only [Benc.encode, List.cons_append] at h
          exact absurd h (strEncode_ne_cons (by decide))
      | list ws =>
          simp only [Benc.encode, List.cons_append] at h
          exact absurd h (strEncode_ne_cons (by decide))
      | dict kvs =>
          simp only [Benc.encode, List.cons_append] at h
          exact absurd h (strEncode_ne_cons (by decide))
  | .list vs, w, r, r', h => by
      cases w with
      | list ws =>
          simp only [Benc.encode, List.cons_append, List.append_assoc, List.nil_append,
            List.cons.injEq, true_and] at h
          obtain ⟨rfl, hr⟩ := encodeList_append_inj vs ws h
          exact ⟨rfl, hr⟩
      | str s =>
          simp only [Benc.encode, List.cons_append] at h
          exact absurd h.symm (strEncode_ne_cons (by decide))
      | int m => simp [Benc.encode, ch] at h
      | dict kvs => simp [Benc.encode, ch] at h
  | .dict kvs, w, r, r', h => by
      cases w with
      | dict kvs' =>
          simp only [Benc.encode, List.cons_append, List.append_assoc, List.nil_append,
            List.cons.injEq, true_and] at h
          obtain ⟨rfl, hr⟩ := encodeEntries_append_inj kvs kvs' h
          exact ⟨rfl, hr⟩
      | str s =>
          simp only [Benc.encode, List.cons_append] at h
          exact absurd h.symm (strEncode_ne_cons (by decide))
      | int m => simp [Benc.encode, ch] at h
      | list ws => simp [Benc.encode, ch] at h

theorem encodeList_append_inj : ∀ (vs ws : List Benc) {r r' : Bytes},
    encodeList vs ++ ch 'e' :: r = encodeList ws ++ ch 'e' :: r' → vs = ws ∧ r = r'
  | [], [], r, r', h => by
      simp only [encodeList, List.nil_append, List.cons.injEq, true_and] at h
      exact ⟨rfl, h⟩
  | [], w :: ws, r, r', h => by
      -- the closing byte on one side would have to open a value on the other
      obtain ⟨c, t, hw, hc⟩ := w.encode_head_ne_end
      simp only [encodeList, hw, List.nil_append, List.cons_append, List.cons.injEq] at h
      exact absurd h.1.symm hc
  | v :: vs, [], r, r', h => by
      obtain ⟨c, t, hv, hc⟩ := v.encode_head_ne_end
      simp only [encodeList, hv, List.nil_append, List.cons_append, List.cons.injEq] at h
      exact absurd h.1 hc
  | v :: vs, w :: ws, r, r', h => by
      simp only [encodeList, List.append_assoc] at h
      obtain ⟨rfl, hrest⟩ := Benc.encode_append_inj v w h
      obtain ⟨rfl, hr⟩ := encodeList_append_inj vs ws hrest
      exact ⟨rfl, hr⟩

theorem encodeEntries_append_inj : ∀ (kvs kvs' : List (Bytes × Benc)) {r r' : Bytes},
    encodeEntries kvs ++ ch 'e' :: r = encodeEntries kvs' ++ ch 'e' :: r' → kvs = kvs' ∧ r = r'
  | [], [], r, r', h => by
      simp only [encodeEntries, List.nil_append, List.cons.injEq, true_and] at h
      exact ⟨rfl, h⟩
  | [], (k, v) :: kvs', r, r', h => by
      obtain ⟨c, t, hk, hc⟩ := entryEncode_head_ne_end (k, v)
      simp only [entryEncode] at hk
      simp only [encodeEntries, hk, List.nil_append, List.cons_append, List.cons.injEq] at h
      exact absurd h.1.symm hc
  | (k, v) :: kvs, [], r, r', h => by
      obtain ⟨c, t, hk, hc⟩ := entryEncode_head_ne_end (k, v)
      simp only [entryEncode] at hk
      simp only [encodeEntries, hk, List.nil_append, List.cons_append, List.cons.injEq] at h
      exact absurd h.1 hc
  | (k, v) :: kvs, (k', v') :: kvs', r, r', h => by
      simp only [encodeEntries, List.append_assoc] at h
      obtain ⟨rfl, hvalue⟩ := strEncode_append_inj h
      obtain ⟨rfl, hrest⟩ := Benc.encode_append_inj v v' hvalue
      obtain ⟨rfl, hr⟩ := encodeEntries_append_inj kvs kvs' hrest
      exact ⟨rfl, hr⟩

end

/-- Two values never share an encoding. -/
theorem Benc.encode_injective {v w : Benc} (h : v.encode = w.encode) : v = w :=
  (Benc.encode_append_inj v w (congrArg (· ++ []) h)).1

end Bencode
end Comrade
