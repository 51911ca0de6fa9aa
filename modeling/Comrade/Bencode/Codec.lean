import Comrade.Lib.Scan

/-!
# The bencode reader and writer

`bencode.c` as it stands.  A C cursor into a buffer is what is left of the
buffer from there on, so a reader takes the rest and returns the rest after the
value; `none` is the `-1` of the source.

The two recursive readers, `benc_skip_depth` and `benc_canon`, count the depth
upwards and refuse above `BENC_MAX_DEPTH`.  Here they recurse on the number of
levels still admitted, `BENC_MAX_DEPTH + 1 - depth`.
-/

namespace Comrade
namespace Bencode

open Lib

/-- `BENC_MAX_DEPTH`. -/
def bencMaxDepth : Nat := 16

/-- `INT64_MAX`. -/
def int64Max : Nat := 2 ^ 63 - 1

/-! ## Writing -/

/-- `struct benc_buf`; `buf` stands for the bytes written so far. -/
structure BencBuf where
  buf : Bytes
  cap : Nat
  err : Bool
  deriving DecidableEq, Repr

/-- `benc_buf_init`. -/
def bencBufInit (cap : Nat) : BencBuf := { buf := [], cap := cap, err := false }

/-- `benc_raw_add`. -/
def bencRawAdd (b : BencBuf) (data : Bytes) : BencBuf :=
  if b.err = true ∨ b.cap - b.buf.length < data.length then { b with err := true }
  else { b with buf := b.buf ++ data }

/-- `benc_str_add`. -/
def bencStrAdd (b : BencBuf) (data : Bytes) : BencBuf :=
  bencRawAdd (bencRawAdd b (decimal data.length ++ [ch ':'])) data

/-- `%lld`. -/
def decimalInt (n : Int) : Bytes :=
  if n < 0 then ch '-' :: decimal n.natAbs else decimal n.natAbs

/-- `benc_int_add`. -/
def bencIntAdd (b : BencBuf) (val : Int) : BencBuf :=
  bencRawAdd b (ch 'i' :: decimalInt val ++ [ch 'e'])

/-- `benc_key_add`. -/
def bencKeyAdd (b : BencBuf) (key : Bytes) : BencBuf := bencStrAdd b key

/-- A write that left no error appended its data to a buffer without one. -/
theorem bencRawAdd_ok {b : BencBuf} {data : Bytes} (h : (bencRawAdd b data).err = false) :
    b.err = false ∧ (bencRawAdd b data).buf = b.buf ++ data := by
  unfold bencRawAdd at h ⊢
  split_ifs at h ⊢ with hbad
  rw [not_or] at hbad
  exact ⟨by simpa using hbad.1, rfl⟩

theorem bencStrAdd_ok {b : BencBuf} {data : Bytes} (h : (bencStrAdd b data).err = false) :
    b.err = false ∧
      (bencStrAdd b data).buf = b.buf ++ (decimal data.length ++ ch ':' :: data) := by
  obtain ⟨h, hbuf⟩ := bencRawAdd_ok h
  obtain ⟨h, hbuf'⟩ := bencRawAdd_ok h
  refine ⟨h, ?_⟩
  rw [bencStrAdd, hbuf, hbuf']
  simp

theorem bencRawAdd_fits {b : BencBuf} {data : Bytes} (herr : b.err = false)
    (hfits : b.buf.length + data.length ≤ b.cap) :
    bencRawAdd b data = { b with buf := b.buf ++ data } := by
  unfold bencRawAdd
  rw [if_neg]
  rw [herr]
  simp only [Bool.false_eq_true, false_or]
  omega

theorem bencRawAdd_foldl_err {b : BencBuf} (herr : b.err = true) (ds : List Bytes) :
    (ds.foldl bencRawAdd b).err = true := by
  induction ds generalizing b with
  | nil => exact herr
  | cons d ds ih =>
      refine ih ?_
      unfold bencRawAdd
      rw [if_pos (.inl herr)]

/-- Writes that fit leave all their data, and no error. -/
theorem bencRawAdd_foldl_fits {b : BencBuf} (herr : b.err = false) {ds : List Bytes}
    (hfits : b.buf.length + ds.flatten.length ≤ b.cap) :
    ds.foldl bencRawAdd b = { b with buf := b.buf ++ ds.flatten } := by
  induction ds generalizing b with
  | nil => simp
  | cons d ds ih =>
      rw [List.flatten_cons, List.length_append] at hfits
      have hrest : (b.buf ++ d).length + ds.flatten.length ≤ b.cap := by
        rw [List.length_append]
        omega
      rw [List.foldl_cons, bencRawAdd_fits herr (by omega),
        ih (b := { b with buf := b.buf ++ d }) herr hrest]
      simp

/-- Writes that do not fit leave an error. -/
theorem bencRawAdd_foldl_full {b : BencBuf} (hcap : b.buf.length ≤ b.cap) {ds : List Bytes}
    (hfull : b.cap < b.buf.length + ds.flatten.length) : (ds.foldl bencRawAdd b).err = true := by
  induction ds generalizing b with
  | nil =>
      simp at hfull
      omega
  | cons d ds ih =>
      rw [List.flatten_cons, List.length_append] at hfull
      rw [List.foldl_cons]
      by_cases hbad : b.err = true ∨ b.cap - b.buf.length < d.length
      · refine bencRawAdd_foldl_err ?_ ds
        unfold bencRawAdd
        rw [if_pos hbad]
      · have hadd : bencRawAdd b d = { b with buf := b.buf ++ d } := by
          unfold bencRawAdd
          rw [if_neg hbad]
        rw [hadd]
        rw [not_or] at hbad
        refine ih ?_ ?_
        · simp only [List.length_append]
          omega
        · simp only [List.length_append]
          omega

/-! ## Reading -/

/-- The loop of `benc_digits`: `val` so far, from `digits` digits.  A value past
`INT64_MAX` is refused before it is computed. -/
def bencDigitsLoop (val digits : Nat) : Bytes → Option (Nat × Bytes)
  | [] => if digits = 0 then none else some (val, [])
  | c :: p =>
      if isDigit c = true then
        -- tested on what the value was, so that the product cannot overflow
        if val > (int64Max - digitVal c) / 10 then none
        else bencDigitsLoop (val * 10 + digitVal c) (digits + 1) p
      else if digits = 0 then none
      else some (val, c :: p)

theorem bencDigitsLoop_nil (val digits : Nat) :
    bencDigitsLoop val digits [] = if digits = 0 then none else some (val, []) :=
  rfl

theorem bencDigitsLoop_cons (val digits : Nat) (c : UInt8) (p : Bytes) :
    bencDigitsLoop val digits (c :: p) =
      if isDigit c = true then
        if val > (int64Max - digitVal c) / 10 then none
        else bencDigitsLoop (val * 10 + digitVal c) (digits + 1) p
      else if digits = 0 then none
      else some (val, c :: p) :=
  rfl

/-- `benc_digits`. -/
def bencDigits (p : Bytes) : Option (Nat × Bytes) := bencDigitsLoop 0 0 p

/-- What follows the digits of a string: the colon and `num` bytes. -/
def bencStrBody (num : Nat) : Bytes → Option (Bytes × Bytes)
  | [] => none
  | c :: p =>
      if c ≠ ch ':' ∨ p.length < num then none
      else some (p.take num, p.drop num)

theorem bencStrBody_cons (num : Nat) (c : UInt8) (p : Bytes) :
    bencStrBody num (c :: p) =
      if c ≠ ch ':' ∨ p.length < num then none else some (p.take num, p.drop num) :=
  rfl

/-- `benc_str_get` with what is left after the string. -/
def bencStrRead (p : Bytes) : Option (Bytes × Bytes) :=
  match bencDigits p with
  | none => none
  | some (num, p) => bencStrBody num p

/-- `benc_str_get`. -/
def bencStrGet (val : Bytes) : Option Bytes := (bencStrRead val).map Prod.fst

/-- What follows the `i` of an integer: its sign. -/
def bencSign : Bytes → Bool × Bytes
  | [] => (false, [])
  | c :: p => if c = ch '-' then (true, p) else (false, c :: p)

theorem bencSign_cons (c : UInt8) (p : Bytes) :
    bencSign (c :: p) = if c = ch '-' then (true, p) else (false, c :: p) :=
  rfl

/-- What follows the sign of an integer: its digits and the closing `e`. -/
def bencIntBody (p : Bytes) : Option (Nat × Bytes) :=
  match bencDigits p with
  | none => none
  | some (_, []) => none
  | some (num, c :: p) => if c ≠ ch 'e' then none else some (num, p)

/-- `benc_int_get`. -/
def bencIntGet : Bytes → Option Int
  | [] => none
  | c :: p =>
      if c ≠ ch 'i' then none
      else
        match bencIntBody (bencSign p).2 with
        | none => none
        | some (num, _) => some (if (bencSign p).1 = true then -(num : Int) else num)

/-- `benc_skip_depth`, with `left` levels still admitted. -/
def bencSkipDepth : Nat → Bytes → Option Bytes
  | 0, _ => none
  | _ + 1, [] => none
  | left + 1, c :: p =>
      if c = ch 'i' then (bencIntBody (bencSign p).2).map Prod.snd
      else if c = ch 'l' ∨ c = ch 'd' then
        untilByte (ch 'e') (fun (_ : Unit) q => (bencSkipDepth left q).map fun q => ((), q))
          p.length () p
      else (bencStrRead (c :: p)).map Prod.snd

theorem bencSkipDepth_cons (left : Nat) (c : UInt8) (p : Bytes) :
    bencSkipDepth (left + 1) (c :: p) =
      if c = ch 'i' then (bencIntBody (bencSign p).2).map Prod.snd
      else if c = ch 'l' ∨ c = ch 'd' then
        untilByte (ch 'e') (fun (_ : Unit) q => (bencSkipDepth left q).map fun q => ((), q))
          p.length () p
      else (bencStrRead (c :: p)).map Prod.snd :=
  rfl

/-- `benc_skip`. -/
def bencSkip (p : Bytes) : Option Bytes := bencSkipDepth (bencMaxDepth + 1) p

/-- The bytes between two cursors. -/
def between (p q : Bytes) : Bytes := p.take (p.length - q.length)

/-- The loop of `benc_dict_find`, over at most `n` entries. -/
def bencDictFindLoop (key : Bytes) : Nat → Bytes → Option Bytes
  | 0, _ => none
  | _ + 1, [] => none
  | n + 1, c :: p =>
      if c = ch 'e' then none
      else
        match bencSkip (c :: p) with
        | none => none
        | some v =>
            match bencStrGet (between (c :: p) v) with
            | none => none
            | some k =>
                match bencSkip v with
                | none => none
                | some p' =>
                    -- the first entry under the key is the one found
                    if k = key then some (between v p')
                    else bencDictFindLoop key n p'

/-- `benc_dict_find`: the bytes of the value under `key`. -/
def bencDictFind (dict key : Bytes) : Option Bytes :=
  match dict with
  | [] => none
  | c :: p => if c ≠ ch 'd' then none else bencDictFindLoop key p.length p

/-! ## The canonical form -/

/-- `benc_key_cmp`. -/
def bencKeyCmp (a b : Bytes) : Int :=
  let n := min a.length b.length
  let rc := memcmp (a.take n) (b.take n)
  if rc ≠ 0 then rc
  else if a.length < b.length then -1
  else if b.length < a.length then 1
  else 0

/-- A zero with another digit after it. -/
def leadingZero : Bytes → Bool
  | c :: d :: _ => c == ch '0' && isDigit d
  | _ => false

/-- `benc_canon_str`: the string and what is left after it. -/
def bencCanonStr : Bytes → Option (Bytes × Bytes)
  | [] => none
  | c :: p =>
      if isDigit c = false then none
      else if leadingZero (c :: p) = true then none
      else bencStrRead (c :: p)

theorem bencCanonStr_cons (c : UInt8) (p : Bytes) :
    bencCanonStr (c :: p) =
      if isDigit c = false then none
      else if leadingZero (c :: p) = true then none
      else bencStrRead (c :: p) :=
  rfl

/-- The integer case of `benc_canon`, past the `i`: no `-0`, no leading zero. -/
def bencCanonInt (p : Bytes) : Option Bytes :=
  -- past a sign any leading zero is refused, a lone one too: there is no `-0`
  if (bencSign p).1 = true ∧ (bencSign p).2.head? = some (ch '0') then none
  else if (bencSign p).1 = false ∧ leadingZero p = true then none
  else (bencIntBody (bencSign p).2).map Prod.snd

/-- One entry of a dictionary in `benc_canon`: a key above the one before, and
a value read by `value`. -/
def bencCanonEntry (value : Bytes → Option Bytes) (prev : Option Bytes) (q : Bytes) :
    Option (Option Bytes × Bytes) :=
  match bencCanonStr q with
  | none => none
  | some (data, q) =>
      if (prev.elim false fun prev => decide (0 ≤ bencKeyCmp prev data)) = true then none
      else (value q).map fun q => (some data, q)

/-- `benc_canon`, with `left` levels still admitted. -/
def bencCanon : Nat → Bytes → Option Bytes
  | 0, _ => none
  | _ + 1, [] => none
  | left + 1, c :: q =>
      if c = ch 'i' then bencCanonInt q
      else if c = ch 'l' then
        untilByte (ch 'e') (fun (_ : Unit) q => (bencCanon left q).map fun q => ((), q))
          q.length () q
      else if c = ch 'd' then
        untilByte (ch 'e') (bencCanonEntry (bencCanon left)) q.length none q
      else (bencCanonStr (c :: q)).map Prod.snd

theorem bencCanon_cons (left : Nat) (c : UInt8) (q : Bytes) :
    bencCanon (left + 1) (c :: q) =
      if c = ch 'i' then bencCanonInt q
      else if c = ch 'l' then
        untilByte (ch 'e') (fun (_ : Unit) q => (bencCanon left q).map fun q => ((), q))
          q.length () q
      else if c = ch 'd' then
        untilByte (ch 'e') (bencCanonEntry (bencCanon left)) q.length none q
      else (bencCanonStr (c :: q)).map Prod.snd :=
  rfl

/-- `benc_canonical`. -/
def bencCanonical (buf : Bytes) : Bool :=
  bencCanon (bencMaxDepth + 1) buf == some []

end Bencode
end Comrade
