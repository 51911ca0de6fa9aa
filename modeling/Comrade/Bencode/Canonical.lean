import Comrade.Bencode.Value

/-!
# The canonical form

`benc_canonical` accepts exactly the canonical encodings of well-formed values
nested no deeper than `BENC_MAX_DEPTH`, with nothing after them.

Each reader gets a sound and a complete half: what it accepts was written by the
encoder, and what the encoder writes it accepts.  The list and the dictionary
cases go through the loop rules of `Lib.Scan`; a dictionary's state is the key
before.
-/

namespace Comrade
namespace Bencode

open Lib

/-! ## Digits -/

/-- Does what follows end a run of digits? -/
def EndsDigits (p : Bytes) : Prop := ∀ c ∈ p.head?, isDigit c = false

theorem endsDigits_cons {c : UInt8} {p : Bytes} (hc : isDigit c = false) :
    EndsDigits (c :: p) := by
  intro d hd
  rw [List.head?_cons, Option.mem_some_iff] at hd
  rw [← hd, hc]

theorem bencDigitsLoop_sound {val digits n : Nat} {p rest : Bytes} (hval : val ≤ int64Max)
    (h : bencDigitsLoop val digits p = some (n, rest)) :
    ∃ ds, p = ds ++ rest ∧ (∀ d ∈ ds, isDigit d = true) ∧ (digits = 0 → ds ≠ []) ∧
      n = digitsValue val ds ∧ n ≤ int64Max ∧ EndsDigits rest := by
  induction p generalizing val digits with
  | nil =>
      rw [bencDigitsLoop_nil] at h
      split_ifs at h with hz
      cases h
      exact ⟨[], rfl, by simp, fun hz' => absurd hz' hz, rfl, hval, by simp [EndsDigits]⟩
  | cons c p ih =>
      rw [bencDigitsLoop_cons] at h
      split_ifs at h with hc hover hz
      · have hnext : val * 10 + digitVal c ≤ int64Max := by
          have hd := digitVal_lt hc
          rw [int64Max] at hover ⊢
          omega
        obtain ⟨ds, rfl, hds, -, hn, hmax, hend⟩ := ih hnext h
        refine ⟨c :: ds, rfl, ?_, by simp, by rw [digitsValue_cons, hn], hmax, hend⟩
        intro d hd
        rcases List.mem_cons.mp hd with rfl | hd
        · exact hc
        · exact hds d hd
      · cases h
        exact ⟨[], rfl, by simp, fun hz' => absurd hz' hz, rfl, hval,
          endsDigits_cons (by simpa using hc)⟩

theorem bencDigitsLoop_complete {val digits : Nat} {ds rest : Bytes}
    (hds : ∀ d ∈ ds, isDigit d = true) (hsome : digits = 0 → ds ≠ [])
    (hmax : digitsValue val ds ≤ int64Max) (hend : EndsDigits rest) :
    bencDigitsLoop val digits (ds ++ rest) = some (digitsValue val ds, rest) := by
  induction ds generalizing val digits with
  | nil =>
      have hz : digits ≠ 0 := fun hz => hsome hz rfl
      cases rest with
      | nil => rw [List.nil_append, bencDigitsLoop_nil, if_neg hz]; rfl
      | cons c rest =>
          have hc : isDigit c = false := hend c rfl
          rw [List.nil_append, bencDigitsLoop_cons, if_neg (by simp [hc]), if_neg hz]
          rfl
  | cons c ds ih =>
      have hc : isDigit c = true := hds c List.mem_cons_self
      rw [digitsValue_cons] at hmax
      have hfits : ¬val > (int64Max - digitVal c) / 10 := by
        have hle := le_digitsValue (val * 10 + digitVal c) ds
        omega
      rw [List.cons_append, bencDigitsLoop_cons, if_pos hc, if_neg hfits, digitsValue_cons]
      exact ih (fun d hd => hds d (List.mem_cons_of_mem _ hd)) (by simp) hmax

theorem bencDigits_sound {n : Nat} {p rest : Bytes} (h : bencDigits p = some (n, rest)) :
    ∃ ds, p = ds ++ rest ∧ (∀ d ∈ ds, isDigit d = true) ∧ ds ≠ [] ∧ n = digitsValue 0 ds ∧
      n < 2 ^ 63 ∧ EndsDigits rest := by
  obtain ⟨ds, hp, hds, hne, hn, hmax, hend⟩ := bencDigitsLoop_sound (Nat.zero_le _) h
  refine ⟨ds, hp, hds, hne rfl, hn, ?_, hend⟩
  rw [int64Max] at hmax
  omega

theorem bencDigits_complete {n : Nat} {rest : Bytes} (hn : n < 2 ^ 63) (hend : EndsDigits rest) :
    bencDigits (decimal n ++ rest) = some (n, rest) := by
  have hmax : digitsValue 0 (decimal n) ≤ int64Max := by
    rw [digitsValue_decimal, int64Max]
    omega
  rw [bencDigits, bencDigitsLoop_complete (fun _ => isDigit_of_mem_decimal)
    (fun _ => decimal_ne_nil n) hmax hend, digitsValue_decimal]

/-- Digits without a leading zero are a plain numeral. -/
theorem decimal_of_leadingZero {ds rest : Bytes} (hds : ∀ d ∈ ds, isDigit d = true)
    (hne : ds ≠ []) (hzero : leadingZero (ds ++ rest) = false) :
    decimal (digitsValue 0 ds) = ds := by
  cases ds with
  | nil => exact absurd rfl hne
  | cons c ds =>
      by_cases hc : c = ch '0'
      · cases ds with
        | nil => rw [hc]; rfl
        | cons d ds =>
            have hd := hds d (by simp)
            simp [leadingZero, hc, hd] at hzero
      · exact decimal_digitsValue hc hds

theorem leadingZero_decimal (n : Nat) {rest : Bytes} (hend : EndsDigits rest) :
    leadingZero (decimal n ++ rest) = false := by
  cases hdec : decimal n with
  | nil => exact absurd hdec (decimal_ne_nil n)
  | cons c ds =>
      by_cases hc : c = ch '0'
      · subst hc
        obtain ⟨-, rfl⟩ := decimal_head_zero hdec
        cases rest with
        | nil => rfl
        | cons d rest => simp [leadingZero, hend d rfl]
      · cases hds : ds ++ rest with
        | nil => rw [List.cons_append, hds]; rfl
        | cons d t => simp [hds, leadingZero, hc]

/-! ## Strings -/

theorem bencStrBody_sound {num : Nat} {p s rest : Bytes}
    (h : bencStrBody num p = some (s, rest)) : p = ch ':' :: (s ++ rest) ∧ s.length = num := by
  cases p with
  | nil => simp [bencStrBody] at h
  | cons c p =>
      rw [bencStrBody_cons] at h
      split_ifs at h with hbad
      rw [not_or, not_not, Nat.not_lt] at hbad
      cases h
      refine ⟨by rw [hbad.1, List.take_append_drop], ?_⟩
      rw [List.length_take]
      omega

theorem bencStrBody_complete (s rest : Bytes) :
    bencStrBody s.length (ch ':' :: (s ++ rest)) = some (s, rest) := by
  rw [bencStrBody_cons, if_neg (by simp)]
  simp

theorem bencStrRead_complete {s : Bytes} (rest : Bytes) (hs : s.length < 2 ^ 63) :
    bencStrRead (strEncode s ++ rest) = some (s, rest) := by
  rw [strEncode, List.append_assoc, List.cons_append, bencStrRead,
    bencDigits_complete hs (endsDigits_cons (by decide))]
  exact bencStrBody_complete s rest

theorem bencCanonStr_sound {p s rest : Bytes} (h : bencCanonStr p = some (s, rest)) :
    p = strEncode s ++ rest ∧ s.length < 2 ^ 63 := by
  cases p with
  | nil => simp [bencCanonStr] at h
  | cons c p =>
      rw [bencCanonStr_cons] at h
      split_ifs at h with hdigit hzero
      rw [bencStrRead] at h
      cases hd : bencDigits (c :: p) with
      | none => simp [hd] at h
      | some nq =>
          obtain ⟨num, q⟩ := nq
          simp only [hd] at h
          obtain ⟨ds, hp, hds, hne, rfl, hlt, -⟩ := bencDigits_sound hd
          obtain ⟨rfl, hlen⟩ := bencStrBody_sound h
          rw [hp] at hzero
          have hplain := decimal_of_leadingZero hds hne (by simpa using hzero)
          refine ⟨?_, by omega⟩
          rw [hp, strEncode, hlen, hplain]
          simp

theorem bencCanonStr_complete {s : Bytes} (rest : Bytes) (hs : s.length < 2 ^ 63) :
    bencCanonStr (strEncode s ++ rest) = some (s, rest) := by
  have hread := bencStrRead_complete rest hs
  have hzero : leadingZero (strEncode s ++ rest) = false := by
    rw [strEncode, List.append_assoc]
    exact leadingZero_decimal _ (endsDigits_cons (by decide))
  obtain ⟨c, t, henc, hc⟩ := strEncode_head s
  rw [henc, List.cons_append] at hread hzero ⊢
  rw [bencCanonStr_cons, if_neg (by simp [hc]), if_neg (by simp [hzero]), hread]

/-! ## Integers -/

theorem bencIntBody_sound {num : Nat} {p rest : Bytes} (h : bencIntBody p = some (num, rest)) :
    bencDigits p = some (num, ch 'e' :: rest) := by
  rw [bencIntBody] at h
  cases hd : bencDigits p with
  | none => simp [hd] at h
  | some nq =>
      obtain ⟨n, q⟩ := nq
      cases q with
      | nil => simp [hd] at h
      | cons c q =>
          simp only [hd] at h
          split_ifs at h with hc
          rw [not_not] at hc
          cases h
          rw [hc]

theorem bencIntBody_complete {n : Nat} (rest : Bytes) (hn : n < 2 ^ 63) :
    bencIntBody (decimal n ++ ch 'e' :: rest) = some (n, rest) := by
  rw [bencIntBody, bencDigits_complete hn (endsDigits_cons (by decide))]
  simp

/-- A numeral has no sign to read. -/
theorem bencSign_decimal (n : Nat) (rest : Bytes) :
    bencSign (decimal n ++ rest) = (false, decimal n ++ rest) := by
  obtain ⟨c, t, hdec, hc⟩ := decimal_head n
  rw [hdec, List.cons_append, bencSign_cons, if_neg]
  rintro rfl
  exact absurd hc (by decide)

theorem bencCanonInt_sound {p rest : Bytes} (h : bencCanonInt p = some rest) :
    ∃ n : Int, -2 ^ 63 < n ∧ n < 2 ^ 63 ∧ p = decimalInt n ++ ch 'e' :: rest := by
  rw [bencCanonInt] at h
  split_ifs at h with hminus hzero
  cases hb : bencIntBody (bencSign p).2 with
  | none => simp [hb] at h
  | some nq =>
      obtain ⟨num, q⟩ := nq
      simp only [hb, Option.map_some, Option.some.injEq] at h
      subst h
      obtain ⟨ds, hp, hds, hne, rfl, hlt, -⟩ := bencDigits_sound (bencIntBody_sound hb)
      -- the sign decides which of the two numerals the digits have to be
      by_cases hneg : (bencSign p).1 = true
      · have hpq : p = ch '-' :: (bencSign p).2 := by
          cases p with
          | nil => simp [bencSign] at hneg
          | cons c p =>
              by_cases hc : c = ch '-'
              · simp [bencSign, hc]
              · simp [bencSign, hc] at hneg
        cases ds with
        | nil => exact absurd rfl hne
        | cons c ds =>
            have hc : c ≠ ch '0' := by
              rintro rfl
              exact hminus ⟨hneg, by rw [hp]; rfl⟩
            have hplain := decimal_digitsValue hc hds
            have hpos : digitsValue 0 (c :: ds) ≠ 0 := by
              intro hz
              rw [hz] at hplain
              exact hc (List.cons.inj hplain).1.symm
            refine ⟨-(digitsValue 0 (c :: ds) : Int), by omega, by omega, ?_⟩
            rw [hpq, hp, decimalInt, if_pos (by omega), Int.natAbs_neg, Int.natAbs_natCast,
              hplain]
            rfl
      · have hpq : (bencSign p).2 = p := by
          cases p with
          | nil => rfl
          | cons c p =>
              by_cases hc : c = ch '-'
              · simp [bencSign, hc] at hneg
              · simp [bencSign, hc]
        rw [hpq] at hp
        have hlead : leadingZero (ds ++ ch 'e' :: q) = false := by
          rw [← hp]
          by_contra hlead
          exact hzero ⟨by simpa using hneg, by simpa using hlead⟩
        have hplain := decimal_of_leadingZero hds hne hlead
        refine ⟨digitsValue 0 ds, by omega, by omega, ?_⟩
        rw [hp, decimalInt, if_neg (by omega), Int.natAbs_natCast, hplain]

theorem bencCanonInt_complete {n : Int} (rest : Bytes) (hlow : -2 ^ 63 < n) (hhigh : n < 2 ^ 63) :
    bencCanonInt (decimalInt n ++ ch 'e' :: rest) = some rest := by
  have habs : n.natAbs < 2 ^ 63 := by omega
  have hend : EndsDigits (ch 'e' :: rest) := endsDigits_cons (by decide)
  by_cases hn : n < 0
  · have hsign : bencSign (decimalInt n ++ ch 'e' :: rest) =
        (true, decimal n.natAbs ++ ch 'e' :: rest) := by
      rw [decimalInt, if_pos hn, List.cons_append, bencSign_cons, if_pos rfl]
    have hhead : (decimal n.natAbs ++ ch 'e' :: rest).head? ≠ some (ch '0') := by
      intro hhead
      cases hdec : decimal n.natAbs with
      | nil => exact absurd hdec (decimal_ne_nil _)
      | cons c t =>
          rw [hdec, List.cons_append, List.head?_cons, Option.some.injEq] at hhead
          rw [hhead] at hdec
          have := (decimal_head_zero hdec).1
          omega
    rw [bencCanonInt, hsign, if_neg (fun h => hhead h.2), if_neg (by simp),
      bencIntBody_complete rest habs]
    rfl
  · have hdec : decimalInt n = decimal n.natAbs := by rw [decimalInt, if_neg hn]
    rw [hdec, bencCanonInt, bencSign_decimal, if_neg (by simp),
      if_neg (by simp [leadingZero_decimal _ hend]), bencIntBody_complete rest habs]
    rfl

/-! ## Keys -/

/-- `benc_key_cmp` compares in the order of byte strings. -/
theorem bencKeyCmp_neg_iff (a b : Bytes) : bencKeyCmp a b < 0 ↔ a < b := by
  induction a generalizing b with
  | nil =>
      cases b with
      | nil => simp [bencKeyCmp, memcmp]
      | cons y ys => simp [bencKeyCmp, memcmp]
  | cons x xs ih =>
      cases b with
      | nil => simp [bencKeyCmp, memcmp]
      | cons y ys =>
          rw [List.cons_lt_cons_iff, ← ih ys]
          by_cases hxy : x = y
          · subst hxy
            simp [bencKeyCmp, memcmp, UInt8.lt_irrefl, Nat.add_min_add_right]
          · have hne := toNat_ne_of_ne hxy
            simp [bencKeyCmp, memcmp, hxy, Nat.add_min_add_right, UInt8.lt_iff_toNat_lt]
            omega

/-! ## Values -/

/-- A list item that the reader admits with `left` levels for the list. -/
def ItemOk (left : Nat) (_ : Unit) (v : Benc) (_ : Unit) : Prop :=
  v.WellFormed ∧ v.nesting + 1 ≤ left

/-- A dictionary entry that the reader admits after the key `prev`. -/
def EntryOk (left : Nat) (prev : Option Bytes) (kv : Bytes × Benc) (next : Option Bytes) : Prop :=
  (∀ k ∈ prev, k < kv.1) ∧ kv.1.length < 2 ^ 63 ∧ kv.2.WellFormed ∧
    kv.2.nesting + 1 ≤ left ∧ next = some kv.1

theorem chain_itemOk_iff (left : Nat) (u : Unit) (vs : List Benc) :
    Chain (ItemOk left) u vs ↔ wellFormedList vs ∧ nestingList vs ≤ left := by
  rw [wellFormedList_iff, nestingList_le_iff, ← forall₂_and]
  constructor
  · intro h
    induction h with
    | nil => simp
    | cons hx _ ih => exact List.forall_mem_cons.mpr ⟨hx, ih⟩
  · intro h
    induction vs with
    | nil => exact .nil
    | cons v vs ih =>
        rw [List.forall_mem_cons] at h
        exact .cons h.1 (ih h.2)

theorem chain_entryOk_iff (left : Nat) (prev : Option Bytes) (kvs : List (Bytes × Benc)) :
    Chain (EntryOk left) prev kvs ↔
      (prev.toList ++ kvs.map Prod.fst).Pairwise (· < ·) ∧ wellFormedEntries kvs ∧
        nestingEntries kvs ≤ left := by
  -- key order is transitive, so the ascent from each key to the next is enough
  rw [← List.isChain_iff_pairwise]
  constructor
  · intro h
    induction h with
    | @nil prev => cases prev <;> simp [wellFormedEntries, nestingEntries]
    | @cons prev next kv kvs hkv _ ih =>
        obtain ⟨hlt, hlen, hwf, hnest, rfl⟩ := hkv
        obtain ⟨hchain, hwfs, hnests⟩ := ih
        refine ⟨?_, ?_, ?_⟩
        · cases prev with
          | none => exact hchain
          | some k =>
              rw [Option.toList_some, List.map_cons, List.singleton_append,
                List.isChain_cons_cons]
              exact ⟨hlt k rfl, hchain⟩
        · rw [wellFormedEntries]
          exact ⟨hlen, hwf, hwfs⟩
        · rw [nestingEntries]
          exact max_le hnest hnests
  · rintro ⟨hchain, hwfs, hnests⟩
    induction kvs generalizing prev with
    | nil => exact .nil
    | cons kv kvs ih =>
        rw [wellFormedEntries] at hwfs
        rw [nestingEntries, max_le_iff] at hnests
        have hlt : ∀ k ∈ prev, k < kv.1 := by
          rintro k rfl
          rw [Option.toList_some, List.map_cons, List.singleton_append,
            List.isChain_cons_cons] at hchain
          exact hchain.1
        refine .cons ⟨hlt, hwfs.1, hwfs.2.1, hnests.1, rfl⟩ (ih (some kv.1) ?_ hwfs.2.2 hnests.2)
        cases prev with
        | none => exact hchain
        | some k =>
            rw [Option.toList_some, List.map_cons, List.singleton_append,
              List.isChain_cons_cons] at hchain
            exact hchain.2

theorem bencCanonEntry_sound {left : Nat} {prev next : Option Bytes} {q rest : Bytes}
    (hvalue : ∀ q rest, bencCanon left q = some rest →
      ∃ v : Benc, v.WellFormed ∧ v.nesting + 1 ≤ left ∧ q = v.encode ++ rest)
    (h : bencCanonEntry (bencCanon left) prev q = some (next, rest)) :
    ∃ kv, EntryOk left prev kv next ∧ q = entryEncode kv ++ rest := by
  rw [bencCanonEntry] at h
  cases hs : bencCanonStr q with
  | none => simp [hs] at h
  | some kq =>
      obtain ⟨k, q'⟩ := kq
      simp only [hs] at h
      split_ifs at h with horder
      cases hv : bencCanon left q' with
      | none => simp [hv] at h
      | some r =>
          simp only [hv, Option.map_some, Option.some.injEq, Prod.mk.injEq] at h
          obtain ⟨rfl, rfl⟩ := h
          obtain ⟨hq, hlen⟩ := bencCanonStr_sound hs
          obtain ⟨v, hwf, hnest, rfl⟩ := hvalue q' r hv
          refine ⟨(k, v), ⟨?_, hlen, hwf, hnest, rfl⟩, by rw [hq, entryEncode, List.append_assoc]⟩
          rintro p rfl
          rw [← bencKeyCmp_neg_iff]
          simpa using horder

theorem bencCanonEntry_complete {left : Nat} {prev next : Option Bytes} {kv : Bytes × Benc}
    (rest : Bytes)
    (hvalue : ∀ (v : Benc) rest, v.WellFormed → v.nesting + 1 ≤ left →
      bencCanon left (v.encode ++ rest) = some rest)
    (h : EntryOk left prev kv next) :
    bencCanonEntry (bencCanon left) prev (entryEncode kv ++ rest) = some (next, rest) := by
  obtain ⟨hlt, hlen, hwf, hnest, rfl⟩ := h
  have horder : ¬(prev.elim false fun p => decide (0 ≤ bencKeyCmp p kv.1)) = true := by
    cases prev with
    | none => simp
    | some p =>
        have := (bencKeyCmp_neg_iff p kv.1).mpr (hlt p rfl)
        simpa using this
  rw [bencCanonEntry, entryEncode, List.append_assoc, bencCanonStr_complete _ hlen]
  dsimp only
  rw [if_neg horder, hvalue kv.2 rest hwf hnest]
  rfl

/-- What `benc_canon` accepts is the encoding of a well-formed value. -/
theorem bencCanon_sound {left : Nat} {p rest : Bytes} (h : bencCanon left p = some rest) :
    ∃ v : Benc, v.WellFormed ∧ v.nesting + 1 ≤ left ∧ p = v.encode ++ rest := by
  induction left generalizing p rest with
  | zero => simp [bencCanon] at h
  | succ left ih =>
      cases p with
      | nil => simp [bencCanon] at h
      | cons c q =>
          rw [bencCanon_cons] at h
          split_ifs at h with hint hlist hdict
          · obtain ⟨n, hlow, hhigh, rfl⟩ := bencCanonInt_sound h
            refine ⟨.int n, by rw [Benc.WellFormed]; exact ⟨hlow, hhigh⟩, ?_, ?_⟩
            · rw [Benc.nesting]
              omega
            · rw [hint, Benc.encode]
              simp
          · have hbody : ∀ (s : Unit) q s' q',
                (bencCanon left q).map (fun q => ((), q)) = some (s', q') →
                ∃ v, ItemOk left s v s' ∧ q = Benc.encode v ++ q' := by
              intro s q s' q' hbody
              cases hv : bencCanon left q with
              | none => simp [hv] at hbody
              | some r =>
                  simp only [hv, Option.map_some, Option.some.injEq, Prod.mk.injEq] at hbody
                  obtain ⟨v, hwf, hnest, hq⟩ := ih hv
                  exact ⟨v, ⟨hwf, hnest⟩, by rw [hq, hbody.2]⟩
            obtain ⟨vs, hchain, rfl⟩ := untilByte_sound hbody h
            obtain ⟨hwf, hnest⟩ := (chain_itemOk_iff left () vs).mp hchain
            refine ⟨.list vs, by rw [Benc.WellFormed]; exact hwf, ?_, ?_⟩
            · rw [Benc.nesting]
              omega
            · rw [hlist, Benc.encode, encodeList_eq]
              simp
          · have hbody : ∀ s q s' q', bencCanonEntry (bencCanon left) s q = some (s', q') →
                ∃ kv, EntryOk left s kv s' ∧ q = entryEncode kv ++ q' :=
              fun s q s' q' h => bencCanonEntry_sound (fun _ _ => ih) h
            obtain ⟨kvs, hchain, rfl⟩ := untilByte_sound hbody h
            obtain ⟨hkeys, hwf, hnest⟩ := (chain_entryOk_iff left none kvs).mp hchain
            refine ⟨.dict kvs, by rw [Benc.WellFormed]; exact ⟨hkeys, hwf⟩, ?_, ?_⟩
            · rw [Benc.nesting]
              omega
            · rw [hdict, Benc.encode, encodeEntries_eq]
              simp
          · cases hs : bencCanonStr (c :: q) with
            | none => simp [hs] at h
            | some sq =>
                obtain ⟨s, r⟩ := sq
                simp only [hs, Option.map_some, Option.some.injEq] at h
                subst h
                obtain ⟨hp, hlen⟩ := bencCanonStr_sound hs
                refine ⟨.str s, by rw [Benc.WellFormed]; exact hlen, ?_, ?_⟩
                · rw [Benc.nesting]
                  omega
                · rw [hp, Benc.encode]

/-- The encoding of a well-formed value is accepted, whatever follows it. -/
theorem bencCanon_complete {left : Nat} {v : Benc} (rest : Bytes) (hwf : v.WellFormed)
    (hnest : v.nesting + 1 ≤ left) : bencCanon left (v.encode ++ rest) = some rest := by
  induction left generalizing v rest with
  | zero => omega
  | succ left ih =>
      cases v with
      | int n =>
          rw [Benc.WellFormed] at hwf
          rw [Benc.encode, List.cons_append, bencCanon_cons, if_pos rfl, List.append_assoc,
            List.singleton_append]
          exact bencCanonInt_complete rest hwf.1 hwf.2
      | str s =>
          rw [Benc.WellFormed] at hwf
          have hread := bencCanonStr_complete rest hwf
          obtain ⟨c, t, henc, hc⟩ := strEncode_head s
          rw [henc, List.cons_append] at hread
          have hletter : ∀ x : UInt8, isDigit x = false → c ≠ x := by
            rintro x hx rfl
            rw [hx] at hc
            cases hc
          rw [Benc.encode, henc, List.cons_append, bencCanon_cons,
            if_neg (hletter _ (by decide)), if_neg (hletter _ (by decide)),
            if_neg (hletter _ (by decide)), hread]
          rfl
      | list vs =>
          rw [Benc.WellFormed] at hwf
          rw [Benc.nesting] at hnest
          rw [Benc.encode, List.cons_append, bencCanon_cons, if_neg (by decide), if_pos rfl,
            List.append_assoc, List.singleton_append, encodeList_eq]
          refine untilByte_complete (R := ItemOk left) ?_ ?_
            ((chain_itemOk_iff left () vs).mpr ⟨hwf, by omega⟩) le_rfl
          · intro s v s' q hv
            rw [ih q hv.1 hv.2]
            rfl
          · intro s v s' _
            exact v.encode_head_ne_end
      | dict kvs =>
          rw [Benc.WellFormed] at hwf
          rw [Benc.nesting] at hnest
          rw [Benc.encode, List.cons_append, bencCanon_cons, if_neg (by decide), if_neg (by decide),
            if_pos rfl, List.append_assoc, List.singleton_append, encodeEntries_eq]
          refine untilByte_complete (R := EntryOk left) ?_ ?_
            ((chain_entryOk_iff left none kvs).mpr ⟨hwf.1, hwf.2, by omega⟩) le_rfl
          · intro s kv s' q hkv
            exact bencCanonEntry_complete q (fun v rest hwf hnest => ih rest hwf hnest) hkv
          · intro s kv s' _
            exact entryEncode_head_ne_end kv

/-- The canonical texts are the encodings of well-formed values nested no
deeper than the reader admits. -/
theorem bencCanonical_iff (buf : Bytes) :
    bencCanonical buf = true ↔
      ∃ v : Benc, v.WellFormed ∧ v.nesting ≤ bencMaxDepth ∧ v.encode = buf := by
  rw [bencCanonical, beq_iff_eq]
  constructor
  · intro h
    obtain ⟨v, hwf, hnest, hbuf⟩ := bencCanon_sound h
    exact ⟨v, hwf, by omega, by rw [hbuf, List.append_nil]⟩
  · rintro ⟨v, hwf, hnest, rfl⟩
    have h : bencCanon (bencMaxDepth + 1) (v.encode ++ []) = some [] :=
      bencCanon_complete [] hwf (by omega)
    rwa [List.append_nil] at h

/-- `benc_canonical` accepts a byte string exactly when it is the canonical
encoding of one value and of no other, with nothing after it. -/
theorem bencCanonical_iff_existsUnique (buf : Bytes) :
    bencCanonical buf = true ↔
      ∃! v : Benc, v.WellFormed ∧ v.nesting ≤ bencMaxDepth ∧ v.encode = buf := by
  rw [bencCanonical_iff]
  constructor
  · rintro ⟨v, hv⟩
    refine ⟨v, hv, ?_⟩
    rintro w ⟨-, -, hw⟩
    exact Benc.encode_injective (hw.trans hv.2.2.symm)
  · rintro ⟨v, hv, -⟩
    exact ⟨v, hv⟩

end Bencode
end Comrade
