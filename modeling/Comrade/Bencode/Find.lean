import Comrade.Bencode.Canonical

/-!
# Looking things up in canonical bencode

`benc_skip` and `benc_dict_find` walk a text without checking its form.  On the
canonical encoding of a well-formed value they do what the value says: skipping
passes over it exactly, and a lookup finds what stands under the key and only
that (`bencDictFind_encode`).  `bencReaders_canonical` says so of the readers on
the texts that `benc_canonical` admits, and that they read back what the writers
write.
-/

namespace Comrade
namespace Bencode

open Lib

/-! ## What a skip consumes -/

theorem bencDigits_length {n : Nat} {p rest : Bytes} (h : bencDigits p = some (n, rest)) :
    rest.length < p.length := by
  obtain ⟨ds, rfl, -, hne, -, -, -⟩ := bencDigits_sound h
  have hpos := List.length_pos_iff.mpr hne
  rw [List.length_append]
  omega

theorem bencStrRead_length {p s rest : Bytes} (h : bencStrRead p = some (s, rest)) :
    rest.length < p.length := by
  rw [bencStrRead] at h
  cases hd : bencDigits p with
  | none => simp [hd] at h
  | some nq =>
      obtain ⟨num, q⟩ := nq
      simp only [hd] at h
      have hlt := bencDigits_length hd
      obtain ⟨rfl, -⟩ := bencStrBody_sound h
      simp only [List.length_cons, List.length_append] at hlt
      omega

theorem bencSign_length (p : Bytes) : (bencSign p).2.length ≤ p.length := by
  cases p with
  | nil => exact le_rfl
  | cons c p =>
      rw [bencSign_cons]
      split_ifs <;> simp

/-- A skip that succeeds moves on, so the loops that call it end. -/
theorem bencSkipDepth_length {left : Nat} {p rest : Bytes}
    (h : bencSkipDepth left p = some rest) : rest.length < p.length := by
  induction left generalizing p rest with
  | zero => simp [bencSkipDepth] at h
  | succ left ih =>
      cases p with
      | nil => simp [bencSkipDepth] at h
      | cons c p =>
          rw [bencSkipDepth_cons] at h
          split_ifs at h with hint hseq
          · obtain ⟨⟨num, q⟩, hb, rfl⟩ := Option.map_eq_some_iff.mp h
            have hlt := bencDigits_length (bencIntBody_sound hb)
            have hle := bencSign_length p
            simp only [List.length_cons] at hlt ⊢
            omega
          · have hlt := untilByte_length (by
              intro s q s' q' hbody
              obtain ⟨r, hr, heq⟩ := Option.map_eq_some_iff.mp hbody
              rw [← (Prod.mk.inj heq).2]
              exact ih hr) h
            rw [List.length_cons]
            omega
          · obtain ⟨⟨s, q⟩, hs, rfl⟩ := Option.map_eq_some_iff.mp h
            exact bencStrRead_length hs

/-- The bound on the loop of `benc_skip_depth` never decides: any larger one
gives the same result. -/
theorem bencSkipDepth_bound {left n : Nat} {p : Bytes} (hn : p.length ≤ n) :
    untilByte (ch 'e') (fun (_ : Unit) q => (bencSkipDepth left q).map fun q => ((), q)) n () p =
      untilByte (ch 'e') (fun (_ : Unit) q => (bencSkipDepth left q).map fun q => ((), q))
        p.length () p := by
  refine untilByte_mono ?_ hn le_rfl
  intro s q s' q' hbody
  obtain ⟨r, hr, heq⟩ := Option.map_eq_some_iff.mp hbody
  rw [← (Prod.mk.inj heq).2]
  exact bencSkipDepth_length hr

/-! ## Skipping a value -/

/-- A dictionary's text is that of its keys and values in turn. -/
theorem encodeEntries_eq_flatMap (kvs : List (Bytes × Benc)) :
    encodeEntries kvs = (kvs.flatMap fun kv => [Benc.str kv.1, kv.2]).flatMap Benc.encode := by
  induction kvs with
  | nil => rw [encodeEntries]; rfl
  | cons kv kvs ih =>
      rw [encodeEntries, ih, List.flatMap_cons, List.flatMap_append]
      simp [Benc.encode]

theorem chain_itemOk_entries {left : Nat} {kvs : List (Bytes × Benc)}
    (hwf : wellFormedEntries kvs) (hnest : nestingEntries kvs ≤ left) :
    Chain (ItemOk left) () (kvs.flatMap fun kv => [Benc.str kv.1, kv.2]) := by
  rw [wellFormedEntries_iff] at hwf
  rw [nestingEntries_le_iff] at hnest
  rw [chain_itemOk_iff, wellFormedList_iff, nestingList_le_iff, ← forall₂_and]
  intro v hv
  obtain ⟨kv, hkv, hv⟩ := List.mem_flatMap.mp hv
  obtain ⟨hlen, hval⟩ := hwf kv hkv
  have hle := hnest kv hkv
  rcases List.mem_pair.mp hv with rfl | rfl
  · refine ⟨by rw [Benc.WellFormed]; exact hlen, ?_⟩
    rw [Benc.nesting]
    omega
  · exact ⟨hval, hle⟩

/-- A well-formed value is skipped exactly, whatever follows it. -/
theorem bencSkipDepth_encode {left : Nat} {v : Benc} (rest : Bytes) (hwf : v.WellFormed)
    (hnest : v.nesting + 1 ≤ left) : bencSkipDepth left (v.encode ++ rest) = some rest := by
  induction left generalizing v rest with
  | zero => omega
  | succ left ih =>
      -- lists and dictionaries are one loop here, over whatever values they hold
      have hloop : ∀ vs, Chain (ItemOk left) () vs →
          untilByte (ch 'e') (fun (_ : Unit) q => (bencSkipDepth left q).map fun q => ((), q))
            (vs.flatMap Benc.encode ++ ch 'e' :: rest).length ()
            (vs.flatMap Benc.encode ++ ch 'e' :: rest) = some rest := by
        intro vs hvs
        refine untilByte_complete (R := ItemOk left) ?_ ?_ hvs le_rfl
        · intro s v s' q hv
          rw [ih q hv.1 hv.2]
          rfl
        · intro s v s' _
          exact v.encode_head_ne_end
      cases v with
      | int n =>
          rw [Benc.WellFormed] at hwf
          have habs : n.natAbs < 2 ^ 63 := by omega
          have hsign : (bencSign (decimalInt n ++ ch 'e' :: rest)).2 =
              decimal n.natAbs ++ ch 'e' :: rest := by
            rw [decimalInt]
            split_ifs
            · rw [List.cons_append, bencSign_cons, if_pos rfl]
            · rw [bencSign_decimal]
          rw [Benc.encode, List.cons_append, bencSkipDepth_cons, if_pos rfl, List.append_assoc,
            List.singleton_append, hsign, bencIntBody_complete rest habs]
          rfl
      | str s =>
          rw [Benc.WellFormed] at hwf
          have hread := bencStrRead_complete rest hwf
          obtain ⟨c, t, henc, hc⟩ := strEncode_head s
          rw [henc, List.cons_append] at hread
          have hletter : ∀ x : UInt8, isDigit x = false → c ≠ x := by
            rintro x hx rfl
            rw [hx] at hc
            cases hc
          rw [Benc.encode, henc, List.cons_append, bencSkipDepth_cons,
            if_neg (hletter _ (by decide)),
            if_neg (not_or.mpr ⟨hletter _ (by decide), hletter _ (by decide)⟩), hread]
          rfl
      | list vs =>
          rw [Benc.WellFormed] at hwf
          rw [Benc.nesting] at hnest
          rw [Benc.encode, List.cons_append, bencSkipDepth_cons, if_neg (by decide),
            if_pos (.inl rfl), List.append_assoc, List.singleton_append, encodeList_eq]
          exact hloop vs ((chain_itemOk_iff left () vs).mpr ⟨hwf, by omega⟩)
      | dict kvs =>
          rw [Benc.WellFormed] at hwf
          rw [Benc.nesting] at hnest
          rw [Benc.encode, List.cons_append, bencSkipDepth_cons, if_neg (by decide),
            if_pos (.inr rfl), List.append_assoc, List.singleton_append,
            encodeEntries_eq_flatMap]
          exact hloop _ (chain_itemOk_entries hwf.2 (by omega))

theorem bencSkip_encode {v : Benc} (rest : Bytes) (hwf : v.WellFormed)
    (hnest : v.nesting ≤ bencMaxDepth) : bencSkip (v.encode ++ rest) = some rest :=
  bencSkipDepth_encode rest hwf (by omega)

theorem bencSkip_strEncode {s : Bytes} (rest : Bytes) (hs : s.length < 2 ^ 63) :
    bencSkip (strEncode s ++ rest) = some rest := by
  have hwf : (Benc.str s).WellFormed := by
    rw [Benc.WellFormed]
    exact hs
  have hnest : (Benc.str s).nesting ≤ bencMaxDepth := by
    rw [Benc.nesting]
    exact Nat.zero_le _
  have h := bencSkip_encode rest hwf hnest
  rwa [Benc.encode] at h

/-! ## Looking up a key -/

theorem between_append (p q : Bytes) : between (p ++ q) q = p := by
  rw [between, List.length_append, Nat.add_sub_cancel, List.take_left]

theorem bencStrGet_append {s : Bytes} (rest : Bytes) (hs : s.length < 2 ^ 63) :
    bencStrGet (strEncode s ++ rest) = some s := by
  rw [bencStrGet, bencStrRead_complete rest hs]
  rfl

theorem bencStrGet_strEncode {s : Bytes} (hs : s.length < 2 ^ 63) :
    bencStrGet (strEncode s) = some s := by
  have h := bencStrGet_append [] hs
  rwa [List.append_nil] at h

/-- The bytes of the first value under a key. -/
def entryFind (kvs : List (Bytes × Benc)) (key : Bytes) : Option Bytes :=
  (kvs.find? fun kv => kv.1 == key).map fun kv => kv.2.encode

theorem bencDictFindLoop_entries {kvs : List (Bytes × Benc)} (hwf : wellFormedEntries kvs)
    (hnest : nestingEntries kvs ≤ bencMaxDepth) (key rest : Bytes) {n : Nat}
    (hn : (encodeEntries kvs ++ ch 'e' :: rest).length ≤ n) :
    bencDictFindLoop key n (encodeEntries kvs ++ ch 'e' :: rest) = entryFind kvs key := by
  induction kvs generalizing n with
  | nil =>
      cases n with
      | zero => simp at hn
      | succ n =>
          rw [encodeEntries, List.nil_append, bencDictFindLoop, if_pos rfl]
          rfl
  | cons kv kvs ih =>
      obtain ⟨k, v⟩ := kv
      rw [wellFormedEntries] at hwf
      rw [nestingEntries, max_le_iff] at hnest
      cases n with
      | zero => simp at hn
      | succ n =>
          obtain ⟨c, t, henc, hc⟩ := entryEncode_head_ne_end (k, v)
          have hskipKey := bencSkip_strEncode
            (v.encode ++ (encodeEntries kvs ++ ch 'e' :: rest)) hwf.1
          have hskipVal := bencSkip_encode (encodeEntries kvs ++ ch 'e' :: rest) hwf.2.1
            (Nat.le_of_succ_le hnest.1)
          have htext : encodeEntries ((k, v) :: kvs) ++ ch 'e' :: rest =
              strEncode k ++ (v.encode ++ (encodeEntries kvs ++ ch 'e' :: rest)) := by
            rw [encodeEntries]
            simp only [List.append_assoc]
          have hhead : strEncode k ++ (v.encode ++ (encodeEntries kvs ++ ch 'e' :: rest)) =
              c :: (t ++ (encodeEntries kvs ++ ch 'e' :: rest)) := by
            rw [← List.append_assoc, ← List.cons_append, ← henc]
            rfl
          rw [htext] at hn ⊢
          rw [hhead, bencDictFindLoop, if_neg hc, ← hhead, hskipKey]
          dsimp only
          rw [between_append, bencStrGet_strEncode hwf.1]
          dsimp only
          rw [hskipVal]
          dsimp only
          rw [between_append]
          by_cases hk : k = key
          · rw [if_pos hk]
            simp [entryFind, hk]
          · rw [if_neg hk, ih hwf.2.2 hnest.2]
            · simp [entryFind, hk]
            · rw [hhead] at hn
              simp only [List.length_cons, List.length_append] at hn ⊢
              omega

/-- On a canonical dictionary, `benc_dict_find` finds the value under the key. -/
theorem bencDictFind_encode {kvs : List (Bytes × Benc)} (hwf : (Benc.dict kvs).WellFormed)
    (hnest : (Benc.dict kvs).nesting ≤ bencMaxDepth) (key : Bytes) :
    bencDictFind (Benc.dict kvs).encode key = entryFind kvs key := by
  rw [Benc.WellFormed] at hwf
  rw [Benc.nesting] at hnest
  rw [Benc.encode, bencDictFind, if_neg (by simp)]
  exact bencDictFindLoop_entries hwf.2 hnest key [] le_rfl

/-- A canonical text that starts as a dictionary is one. -/
theorem exists_dict_of_canonical {buf : Bytes} (hcanon : bencCanonical buf = true)
    (hd : buf.head? = some (ch 'd')) :
    ∃ kvs, (Benc.dict kvs).WellFormed ∧ (Benc.dict kvs).nesting ≤ bencMaxDepth ∧
      (Benc.dict kvs).encode = buf := by
  obtain ⟨v, hwf, hnest, rfl⟩ := (bencCanonical_iff buf).mp hcanon
  cases v with
  | int n =>
      rw [Benc.encode, List.head?_cons] at hd
      exact absurd hd (by decide)
  | str s =>
      obtain ⟨c, t, henc, hc⟩ := strEncode_head s
      rw [Benc.encode, henc, List.head?_cons, Option.some.injEq] at hd
      rw [hd] at hc
      exact absurd hc (by decide)
  | list vs =>
      rw [Benc.encode, List.head?_cons] at hd
      exact absurd hd (by decide)
  | dict kvs => exact ⟨kvs, hwf, hnest, rfl⟩

/-- A key that the lookup does not find is not in the dictionary. -/
theorem not_mem_keys_of_find_none {kvs : List (Bytes × Benc)} {key : Bytes}
    (h : entryFind kvs key = none) : key ∉ kvs.map Prod.fst := by
  intro hmem
  obtain ⟨kv, hkv, rfl⟩ := List.mem_map.mp hmem
  rw [entryFind, Option.map_eq_none_iff, List.find?_eq_none] at h
  exact h kv hkv (beq_self_eq_true _)

theorem entryFind_isSome_iff (kvs : List (Bytes × Benc)) (key : Bytes) :
    (entryFind kvs key).isSome = true ↔ key ∈ kvs.map Prod.fst := by
  constructor
  · intro h
    obtain ⟨kv, hfind, -⟩ := Option.map_eq_some_iff.mp (Option.some_get h).symm
    have hkey : kv.1 = key := by simpa using List.find?_some hfind
    exact List.mem_map.mpr ⟨kv, List.mem_of_find?_eq_some hfind, hkey⟩
  · intro hmem
    by_contra h
    rw [Bool.not_eq_true, Option.isSome_eq_false_iff, Option.isNone_iff_eq_none] at h
    exact not_mem_keys_of_find_none h hmem

/-- Keys in ascending order are distinct: the value found is the one value under
the key. -/
theorem entryFind_of_mem {kvs : List (Bytes × Benc)} {key : Bytes} {v : Benc}
    (hkeys : (kvs.map Prod.fst).Pairwise (· < ·)) (hmem : (key, v) ∈ kvs) :
    entryFind kvs key = some v.encode := by
  induction kvs with
  | nil => cases hmem
  | cons kv kvs ih =>
      rw [List.map_cons, List.pairwise_cons] at hkeys
      rcases List.mem_cons.mp hmem with rfl | hmem
      · simp [entryFind]
      · have hlt := hkeys.1 key (List.mem_map_of_mem hmem)
        have hne : (kv.1 == key) = false := by
          rw [beq_eq_false_iff_ne]
          rintro rfl
          exact List.lt_irrefl _ hlt
        rw [entryFind, List.find?_cons, hne]
        exact ih hkeys.2 hmem

/-! ## Reading back what was written -/

theorem bencStrAdd_get {b : BencBuf} {s : Bytes} (rest : Bytes) (hs : s.length < 2 ^ 63)
    (h : (bencStrAdd b s).err = false) :
    bencStrGet ((bencStrAdd b s).buf.drop b.buf.length ++ rest) = some s := by
  obtain ⟨-, hbuf⟩ := bencStrAdd_ok h
  rw [hbuf, List.drop_left]
  exact bencStrGet_append rest hs

theorem bencIntGet_decimalInt {n : Int} (rest : Bytes) (hlow : -2 ^ 63 < n) (hhigh : n < 2 ^ 63) :
    bencIntGet (ch 'i' :: decimalInt n ++ ch 'e' :: rest) = some n := by
  have habs : n.natAbs < 2 ^ 63 := by omega
  rw [List.cons_append, bencIntGet, if_neg (by simp)]
  by_cases hn : n < 0
  · have hsign : bencSign (decimalInt n ++ ch 'e' :: rest) =
        (true, decimal n.natAbs ++ ch 'e' :: rest) := by
      rw [decimalInt, if_pos hn, List.cons_append, bencSign_cons, if_pos rfl]
    rw [hsign, bencIntBody_complete rest habs]
    simp only [if_true, Option.some.injEq]
    omega
  · rw [decimalInt, if_neg hn, bencSign_decimal, bencIntBody_complete rest habs]
    simp only [Bool.false_eq_true, if_false, Option.some.injEq]
    omega

theorem bencIntAdd_get {b : BencBuf} {n : Int} (rest : Bytes) (hlow : -2 ^ 63 < n)
    (hhigh : n < 2 ^ 63) (h : (bencIntAdd b n).err = false) :
    bencIntGet ((bencIntAdd b n).buf.drop b.buf.length ++ rest) = some n := by
  obtain ⟨-, hbuf⟩ := bencRawAdd_ok h
  rw [bencIntAdd, hbuf, List.drop_left, List.append_assoc, List.singleton_append]
  exact bencIntGet_decimalInt rest hlow hhigh

/-- The lax readers on what the strict one admits.  A lookup in a canonical
dictionary succeeds for the keys of the dictionary and no others, and returns the
bytes of the value; a skip passes over a canonical value exactly; and the getters
invert the writers, for every string an object of C can hold and every integer
above `INT64_MIN`. -/
theorem bencReaders_canonical :
    (∀ args, bencCanonical args = true → args.head? = some (ch 'd') →
      ∃ kvs, (Benc.dict kvs).WellFormed ∧ (Benc.dict kvs).encode = args ∧
        (∀ key, (bencDictFind args key).isSome = true ↔ key ∈ kvs.map Prod.fst) ∧
        ∀ key v, (key, v) ∈ kvs → bencDictFind args key = some v.encode) ∧
    (∀ val rest, bencCanonical val = true → bencSkip (val ++ rest) = some rest) ∧
    (∀ b s rest, s.length < 2 ^ 63 → (bencStrAdd b s).err = false →
      bencStrGet ((bencStrAdd b s).buf.drop b.buf.length ++ rest) = some s) ∧
    ∀ b n rest, -2 ^ 63 < n → n < 2 ^ 63 → (bencIntAdd b n).err = false →
      bencIntGet ((bencIntAdd b n).buf.drop b.buf.length ++ rest) = some n := by
  refine ⟨?_, ?_, fun b s rest hs => bencStrAdd_get rest hs,
    fun b n rest hlow hhigh => bencIntAdd_get rest hlow hhigh⟩
  · intro args hcanon hd
    obtain ⟨kvs, hwf, hnest, rfl⟩ := exists_dict_of_canonical hcanon hd
    have hkeys := hwf
    rw [Benc.WellFormed] at hkeys
    refine ⟨kvs, hwf, rfl, ?_, ?_⟩
    · intro key
      rw [bencDictFind_encode hwf hnest, entryFind_isSome_iff]
    · intro key v hmem
      rw [bencDictFind_encode hwf hnest, entryFind_of_mem hkeys.1 hmem]
  · intro val rest hcanon
    obtain ⟨v, hwf, hnest, rfl⟩ := (bencCanonical_iff val).mp hcanon
    exact bencSkip_encode rest hwf hnest

/-- A put's compare-and-swap field beside its sequence number, and a string and
a negative integer written after each other. -/
theorem bencReaders_canonical_cas :
    (∃ kvs, (Benc.dict kvs).WellFormed ∧
      (Benc.dict kvs).encode = ascii ['d', '3', ':', 'c', 'a', 's', 'i', '7', 'e', 'e'] ∧
      ((bencDictFind (ascii ['d', '3', ':', 'c', 'a', 's', 'i', '7', 'e', 'e'])
        (ascii ['c', 'a', 's'])).isSome = true ↔ ascii ['c', 'a', 's'] ∈ kvs.map Prod.fst)) ∧
    bencSkip (ascii ['i', '7', 'e'] ++ [ch 'e']) = some [ch 'e'] ∧
    bencStrGet ((bencStrAdd (bencBufInit 8) (ascii ['c', 'a'])).buf.drop 0 ++ []) =
      some (ascii ['c', 'a']) ∧
    bencIntGet ((bencIntAdd (bencBufInit 8) (-7)).buf.drop 0 ++ [ch 'e']) = some (-7) := by
  obtain ⟨hfind, hskip, hstr, hint⟩ := bencReaders_canonical
  refine ⟨?_, hskip _ _ (by decide), hstr (bencBufInit 8) _ [] (by decide) (by decide),
    hint (bencBufInit 8) _ _ (by decide) (by decide) (by decide)⟩
  obtain ⟨kvs, hwf, henc, hsome, -⟩ :=
    hfind (ascii ['d', '3', ':', 'c', 'a', 's', 'i', '7', 'e', 'e']) (by decide) (by decide)
  exact ⟨kvs, hwf, henc, hsome _⟩

end Bencode
end Comrade
