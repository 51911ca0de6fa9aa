import Comrade.Lib.Bytes

/-!
# `sscanf`

The conversions of the C library's `sscanf`, in the C locale and on 64-bit words.  A `Scan`
takes what is left of a string and gives what it converts with what is left after it, and
nothing where the input does not match.
-/

namespace Comrade
namespace Lib

/-- `isspace`. -/
def isSpace (c : UInt8) : Bool := c == 32 || (9 ≤ c && c ≤ 13)

/-- The first word of a string: past the white space in front of it, up to the next. -/
def word (s : Bytes) : Bytes := (s.dropWhile isSpace).takeWhile fun c => !isSpace c

theorem mem_of_mem_word {c : UInt8} {s : Bytes} (h : c ∈ word s) : c ∈ s :=
  (List.dropWhile_suffix _).subset ((List.takeWhile_prefix _).subset h)

theorem not_space_of_mem_word {c : UInt8} {s : Bytes} (h : c ∈ word s) : isSpace c = false := by
  simpa using List.mem_takeWhile_imp h

/-- What a directive does with the string it is run on. -/
abbrev Scan (α : Type) := StateT Bytes Option α

/-- White space in a format. -/
def scanSpace : Scan Unit := fun s => some ((), s.dropWhile isSpace)

/-- The text `t` in a format. -/
def scanText (t : Bytes) : Scan Unit := fun s =>
  if t.isPrefixOf s then some ((), s.drop t.length) else none

/-- `%<n>s`. -/
def scanWord (n : Nat) : Scan Bytes := fun s =>
  let w := (word s).take n
  if w = [] then none else some (w, (s.dropWhile isSpace).drop w.length)

/-- `%*s`: a word of any length, passed over. -/
def scanSkip : Scan Unit := fun s =>
  let w := word s
  if w = [] then none else some ((), (s.dropWhile isSpace).drop w.length)

/-- A decimal number and whether a minus sign stands in front of it. -/
def scanSigned : Scan (Bool × Nat) := fun s =>
  let s := s.dropWhile isSpace
  let neg := s.head? == some (ch '-')
  let s := if neg || s.head? == some (ch '+') then s.drop 1 else s
  let ds := s.takeWhile isDigit
  if ds = [] then none else some ((neg, digitsValue 0 ds), s.drop ds.length)

/-- `%d`: read as `strtol` does, which stops at the ends of its range, and cut to 32 bits. -/
def scanInt : Scan Int := do
  let (neg, m) ← scanSigned
  let long : Int := if neg then max (-2 ^ 63) (-m) else min (2 ^ 63 - 1) m
  return long.bmod (2 ^ 32)

/-- `%<n>d` for a width at which every number fits an `int`: the sign counts towards the
width. -/
def scanIntWide (n : Nat) : Scan Int := fun s =>
  let s := s.dropWhile isSpace
  let neg := s.head? == some (ch '-')
  let sign := if neg || s.head? == some (ch '+') then 1 else 0
  let ds := ((s.drop sign).take (n - sign)).takeWhile isDigit
  if ds = [] then none
  else some (if neg then -(digitsValue 0 ds : Int) else digitsValue 0 ds,
    s.drop (sign + ds.length))

/-- `%u`: read as `strtoul` does, and cut to 32 bits. -/
def scanUnsigned : Scan UInt32 := do
  let (neg, m) ← scanSigned
  let long : Nat := if 2 ^ 64 ≤ m then 2 ^ 64 - 1 else if neg then 2 ^ 64 - m else m
  return UInt32.ofNat long

/-- `strtol` in base ten: the number, stopped at the ends of its range, and what is left behind
it, which is the whole string where no number stands. -/
def strtol (s : Bytes) : Int × Bytes :=
  match scanSigned s with
  | some ((neg, m), rest) => (if neg then max (-2 ^ 63) (-m) else min (2 ^ 63 - 1) m, rest)
  | none => (0, s)

/-! ## Plain digit strings -/

theorem isSpace_of_isDigit {c : UInt8} (h : isDigit c = true) : isSpace c = false := by
  rw [isDigit_iff] at h
  have hthirty : (32 : UInt8).toNat = 32 := rfl
  have hthirteen : (13 : UInt8).toNat = 13 := rfl
  simp only [isSpace, Bool.or_eq_false_iff, Bool.and_eq_false_iff, beq_eq_false_iff_ne,
    decide_eq_false_iff_not, ne_eq, ← UInt8.toNat_inj, UInt8.le_iff_toNat_le]
  omega

theorem ne_sign_of_isDigit {c : UInt8} (h : isDigit c = true) : c ≠ ch '-' ∧ c ≠ ch '+' := by
  constructor <;> rintro rfl <;> exact absurd h (by decide)

theorem scanSigned_digits {ds rest : Bytes} (hne : ds ≠ []) (hds : ∀ c ∈ ds, isDigit c = true)
    (hrest : ∀ c ∈ rest.head?, isDigit c = false) :
    scanSigned (ds ++ rest) = some ((false, digitsValue 0 ds), rest) := by
  obtain ⟨c, ds, rfl⟩ := List.exists_cons_of_ne_nil hne
  have hc : isDigit c = true := hds c List.mem_cons_self
  have hspace : ((c :: ds) ++ rest).dropWhile isSpace = (c :: ds) ++ rest := by
    rw [List.cons_append, List.dropWhile_cons_of_neg (by simp [isSpace_of_isDigit hc])]
  have htake : ((c :: ds) ++ rest).takeWhile isDigit = c :: ds := by
    rw [List.takeWhile_append_of_pos hds]
    cases rest with
    | nil => simp
    | cons r rest => simp [hrest r rfl]
  have hminus : (c == ch '-') = false := beq_eq_false_iff_ne.mpr (ne_sign_of_isDigit hc).1
  have hplus : (c == ch '+') = false := beq_eq_false_iff_ne.mpr (ne_sign_of_isDigit hc).2
  unfold scanSigned
  simp only [hspace]
  rw [show ((c :: ds ++ rest).head? == some (ch '-')) = false by simpa using hminus,
    show ((c :: ds ++ rest).head? == some (ch '+')) = false by simpa using hplus]
  simp only [Bool.false_or, Bool.false_eq_true, if_false, htake, List.drop_left,
    reduceCtorEq]

theorem strtol_digits {ds : Bytes} (hne : ds ≠ []) (hds : ∀ c ∈ ds, isDigit c = true) :
    strtol ds = (min (2 ^ 63 - 1) (digitsValue 0 ds : Int), []) := by
  have hscan : scanSigned ds = some ((false, digitsValue 0 ds), []) := by
    have hrest : ∀ c ∈ ([] : Bytes).head?, isDigit c = false := by simp
    simpa using scanSigned_digits hne hds hrest
  simp [strtol, hscan]

/-! ## What a directive reads

Each of them reads white space and then something, and stops by what comes next.
-/

/-- Nothing in front of `t` passes the test. -/
def Stops (p : UInt8 → Bool) (t : Bytes) : Prop := ∀ c ∈ t.head?, p c = false

@[simp] theorem stops_nil (p : UInt8 → Bool) : Stops p [] := by simp [Stops]

@[simp] theorem stops_cons {p : UInt8 → Bool} {c : UInt8} {t : Bytes} :
    Stops p (c :: t) ↔ p c = false := by
  simp [Stops]

theorem stops_dropWhile (p : UInt8 → Bool) (s : Bytes) : Stops p (s.dropWhile p) := by
  intro c hc
  have hnil : s.dropWhile p ≠ [] := by
    rintro h
    simp [h] at hc
  have hhead := List.head_dropWhile_not p hnil
  rw [List.head?_eq_some_head hnil, Option.mem_def, Option.some.injEq] at hc
  rw [← hc]
  exact hhead

theorem drop_takeWhile (p : UInt8 → Bool) (s : Bytes) :
    s.drop (s.takeWhile p).length = s.dropWhile p := by
  calc s.drop (s.takeWhile p).length
      = (s.takeWhile p ++ s.dropWhile p).drop (s.takeWhile p).length := by
        rw [List.takeWhile_append_dropWhile]
    _ = s.dropWhile p := List.drop_left

theorem dropWhile_append_of_stops {p : UInt8 → Bool} {x t : Bytes} (hx : ∀ c ∈ x, p c = true)
    (ht : Stops p t) : (x ++ t).dropWhile p = t := by
  rw [List.dropWhile_append_of_pos hx]
  cases t with
  | nil => rfl
  | cons c t => rw [List.dropWhile_cons_of_neg (by simpa using ht)]

theorem takeWhile_append_of_stops {p : UInt8 → Bool} {x t : Bytes} (hx : ∀ c ∈ x, p c = true)
    (ht : Stops p t) : (x ++ t).takeWhile p = x := by
  rw [List.takeWhile_append_of_pos hx]
  cases t with
  | nil => simp
  | cons c t => simp [stops_cons.1 ht]

theorem scanSpace_iff {s t : Bytes} : scanSpace s = some ((), t) ↔
    ∃ sp, s = sp ++ t ∧ (∀ c ∈ sp, isSpace c = true) ∧ Stops isSpace t := by
  unfold scanSpace
  rw [Option.some.injEq, Prod.mk.injEq]
  constructor
  · rintro ⟨-, rfl⟩
    exact ⟨s.takeWhile isSpace, List.takeWhile_append_dropWhile.symm,
      fun c hc => List.mem_takeWhile_imp hc, stops_dropWhile isSpace s⟩
  · rintro ⟨sp, rfl, hsp, ht⟩
    exact ⟨rfl, dropWhile_append_of_stops hsp ht⟩

theorem scanText_iff {x s t : Bytes} : scanText x s = some ((), t) ↔ s = x ++ t := by
  unfold scanText
  constructor
  · intro h
    split at h
    · rename_i hpre
      obtain ⟨rest, rfl⟩ := List.isPrefixOf_iff_prefix.mp hpre
      simpa using h
    · cases h
  · rintro rfl
    rw [if_pos (List.isPrefixOf_iff_prefix.mpr (List.prefix_append _ _))]
    simp

/-- White space, and what a word starts with. -/
theorem word_append {sp w t : Bytes} (hsp : ∀ c ∈ sp, isSpace c = true)
    (hw : ∀ c ∈ w, isSpace c = false) (hne : w ≠ []) :
    (sp ++ (w ++ t)).dropWhile isSpace = w ++ t ∧
      word (sp ++ (w ++ t)) = w ++ t.takeWhile fun c => !isSpace c := by
  have hstops : Stops isSpace (w ++ t) := by
    cases w with
    | nil => exact absurd rfl hne
    | cons c w => exact stops_cons.2 (hw c List.mem_cons_self)
  refine ⟨dropWhile_append_of_stops hsp hstops, ?_⟩
  rw [word, dropWhile_append_of_stops hsp hstops, List.takeWhile_append_of_pos]
  simpa using hw

theorem word_split (s : Bytes) :
    s = s.takeWhile isSpace ++ (word s ++ (s.dropWhile isSpace).drop (word s).length) := by
  have hword : (s.dropWhile isSpace).takeWhile (fun c => !isSpace c) = word s := rfl
  have hpre : word s <+: s.dropWhile isSpace := List.takeWhile_prefix _
  rw [List.prefix_iff_eq_append.mp hpre, List.takeWhile_append_dropWhile]

theorem scanWord_iff {n : Nat} {s w t : Bytes} (hn : n ≠ 0) : scanWord n s = some (w, t) ↔
    ∃ sp, s = sp ++ (w ++ t) ∧ (∀ c ∈ sp, isSpace c = true) ∧ (∀ c ∈ w, isSpace c = false) ∧
      w ≠ [] ∧ w.length ≤ n ∧ (w.length < n → Stops (fun c => !isSpace c) t) := by
  constructor
  · intro h
    unfold scanWord at h
    simp only at h
    split at h
    · cases h
    rename_i hne
    rw [Option.some.injEq, Prod.mk.injEq] at h
    obtain ⟨rfl, rfl⟩ := h
    have hpre : (word s).take n <+: s.dropWhile isSpace :=
      (List.take_prefix _ _).trans (List.takeWhile_prefix _)
    refine ⟨s.takeWhile isSpace, ?_, fun c hc => List.mem_takeWhile_imp hc,
      fun c hc => not_space_of_mem_word (List.mem_of_mem_take hc), hne, by simp, ?_⟩
    · rw [List.prefix_iff_eq_append.mp hpre, List.takeWhile_append_dropWhile]
    · intro hlt
      -- the width did not stop it
      have hall : (word s).take n = word s := by
        rw [List.length_take] at hlt
        exact List.take_of_length_le (by omega)
      rw [hall, word, drop_takeWhile]
      exact stops_dropWhile _ _
  · rintro ⟨sp, rfl, hsp, hw, hne, hle, hstop⟩
    obtain ⟨hdrop, hword⟩ := word_append hsp hw hne (t := t)
    have htake : (word (sp ++ (w ++ t))).take n = w := by
      rw [hword]
      rcases Nat.lt_or_eq_of_le hle with hlt | rfl
      · have hnil : t.takeWhile (fun c => !isSpace c) = [] := by
          cases t with
          | nil => rfl
          | cons c t => simp [stops_cons.1 (hstop hlt)]
        rw [hnil, List.append_nil, List.take_of_length_le hle]
      · exact List.take_left
    simp only [scanWord, htake, hne, if_false, hdrop, List.drop_left]

theorem scanSkip_iff {s t : Bytes} : scanSkip s = some ((), t) ↔
    ∃ sp w, s = sp ++ (w ++ t) ∧ (∀ c ∈ sp, isSpace c = true) ∧ (∀ c ∈ w, isSpace c = false) ∧
      w ≠ [] ∧ Stops (fun c => !isSpace c) t := by
  constructor
  · intro h
    unfold scanSkip at h
    simp only at h
    split at h
    · cases h
    rename_i hne
    rw [Option.some.injEq, Prod.mk.injEq] at h
    obtain ⟨-, rfl⟩ := h
    refine ⟨s.takeWhile isSpace, word s, word_split s, fun c hc => List.mem_takeWhile_imp hc,
      fun c hc => not_space_of_mem_word hc, hne, ?_⟩
    rw [word, drop_takeWhile]
    exact stops_dropWhile _ _
  · rintro ⟨sp, w, rfl, hsp, hw, hne, hstop⟩
    obtain ⟨hdrop, hword⟩ := word_append hsp hw hne (t := t)
    have hnil : t.takeWhile (fun c => !isSpace c) = [] := by
      cases t with
      | nil => rfl
      | cons c t => simp [stops_cons.1 hstop]
    rw [hnil, List.append_nil] at hword
    simp only [scanSkip, hword, hne, if_false, hdrop, List.drop_left]

/-- A sign, and whether it is a minus. -/
def IsSign (sg : Bytes) (neg : Bool) : Prop :=
  (sg = [] ∧ neg = false) ∨ (sg = [ch '+'] ∧ neg = false) ∨ (sg = [ch '-'] ∧ neg = true)

theorem scanSigned_iff {s t : Bytes} {neg : Bool} {m : Nat} :
    scanSigned s = some ((neg, m), t) ↔
      ∃ sp sg ds, s = sp ++ (sg ++ (ds ++ t)) ∧ (∀ c ∈ sp, isSpace c = true) ∧ IsSign sg neg ∧
        (∀ c ∈ ds, isDigit c = true) ∧ ds ≠ [] ∧ m = digitsValue 0 ds ∧ Stops isDigit t := by
  constructor
  · intro h
    unfold scanSigned at h
    simp only at h
    set u := s.dropWhile isSpace with hu
    have hs : s = s.takeWhile isSpace ++ u := List.takeWhile_append_dropWhile.symm
    set v := if (u.head? == some (ch '-') || u.head? == some (ch '+')) = true then u.drop 1 else u
      with hv
    split at h
    · cases h
    rename_i hne
    simp only [Option.some.injEq, Prod.mk.injEq] at h
    obtain ⟨⟨rfl, rfl⟩, rfl⟩ := h
    have hsplit : v = v.takeWhile isDigit ++ v.drop (v.takeWhile isDigit).length := by
      rw [drop_takeWhile, List.takeWhile_append_dropWhile]
    have hstops : Stops isDigit (v.drop (v.takeWhile isDigit).length) := by
      rw [drop_takeWhile]
      exact stops_dropWhile _ _
    have hsign : ∃ sg, u = sg ++ v ∧ IsSign sg (u.head? == some (ch '-')) := by
      cases hu' : u with
      | nil => exact ⟨[], by simp [hv, hu'], Or.inl ⟨rfl, rfl⟩⟩
      | cons c u' =>
          by_cases hminus : c = ch '-'
          · subst hminus
            exact ⟨[ch '-'], by simp [hv, hu'], Or.inr (Or.inr ⟨rfl, by simp⟩)⟩
          by_cases hplus : c = ch '+'
          · subst hplus
            exact ⟨[ch '+'], by simp [hv, hu'], Or.inr (Or.inl ⟨rfl, by simpa using hminus⟩)⟩
          · exact ⟨[], by simp [hv, hu', hminus, hplus], Or.inl ⟨rfl, by simpa using hminus⟩⟩
    obtain ⟨sg, husplit, hsg⟩ := hsign
    refine ⟨s.takeWhile isSpace, sg, v.takeWhile isDigit, ?_,
      fun c hc => List.mem_takeWhile_imp hc, hsg, fun c hc => List.mem_takeWhile_imp hc, hne, rfl,
      hstops⟩
    rw [← hsplit, ← husplit]
    exact hs
  · rintro ⟨sp, sg, ds, rfl, hsp, hsg, hds, hne, rfl, hstop⟩
    have htake : (ds ++ t).takeWhile isDigit = ds := takeWhile_append_of_stops hds hstop
    have hread : ∀ neg : Bool, (if (ds ++ t).takeWhile isDigit = [] then none
        else some ((neg, digitsValue 0 ((ds ++ t).takeWhile isDigit)),
          (ds ++ t).drop ((ds ++ t).takeWhile isDigit).length)) =
        some ((neg, digitsValue 0 ds), t) := by
      intro neg
      rw [htake, if_neg hne, List.drop_left]
    unfold scanSigned
    rcases hsg with ⟨rfl, rfl⟩ | ⟨rfl, rfl⟩ | ⟨rfl, rfl⟩
    · obtain ⟨d, ds', rfl⟩ := List.exists_cons_of_ne_nil hne
      have hd : isDigit d = true := hds d List.mem_cons_self
      have hsign := ne_sign_of_isDigit hd
      rw [List.nil_append, dropWhile_append_of_stops hsp (by simpa using isSpace_of_isDigit hd)]
      have hminus : (d :: ds' ++ t).head? = some d := rfl
      simp only [hminus, Option.some_beq_some, beq_eq_false_iff_ne.mpr hsign.1,
        beq_eq_false_iff_ne.mpr hsign.2, Bool.or_self, Bool.false_eq_true, if_false]
      exact hread false
    · rw [dropWhile_append_of_stops hsp (by simp; decide)]
      exact hread false
    · rw [dropWhile_append_of_stops hsp (by simp; decide)]
      exact hread true

/-! ## What a scan looks at

A scan reads a front of the string, and of what is behind it it looks at one character: from
the same front and the same next character it reads the same.
-/

/-- The scan reads a front of the string and sees the next character. -/
def Local {α : Type} (p : Scan α) : Prop :=
  ∀ s a t, p s = some (a, t) →
    ∃ x, s = x ++ t ∧ ∀ c y, t = c :: y → ∀ y', p (x ++ c :: y') = some (a, c :: y')

theorem local_pure {α : Type} (a : α) : Local (pure a : Scan α) := by
  intro s b t h
  obtain ⟨rfl, rfl⟩ := Prod.mk.inj (Option.some.inj h)
  exact ⟨[], rfl, fun c y _ y' => rfl⟩

/-- Two scans one after the other: the first one's next character is read by the second, or
is the second one's too. -/
theorem Local.bind {α β : Type} {p : Scan α} {q : α → Scan β} (hp : Local p)
    (hq : ∀ a, Local (q a)) : Local (p >>= q) := by
  intro s b u h
  have hrun : ∀ s, (p >>= q) s = (p s).bind fun r => q r.1 r.2 := fun _ => rfl
  rw [hrun, Option.bind_eq_some_iff] at h
  obtain ⟨⟨a, t⟩, hpa, hqb⟩ := h
  obtain ⟨x, rfl, hx⟩ := hp s a t hpa
  obtain ⟨z, rfl, hz⟩ := hq a t b u hqb
  refine ⟨x ++ z, (List.append_assoc ..).symm, ?_⟩
  rintro c y rfl y'
  rw [hrun, List.append_assoc]
  have hfirst : p (x ++ (z ++ c :: y')) = some (a, z ++ c :: y') := by
    cases z with
    | nil => exact hx c y rfl y'
    | cons d z => exact hx d (z ++ c :: y) rfl (z ++ c :: y')
  rw [hfirst]
  exact hz c y rfl y'

/-- Two scans one after the other, taken apart. -/
theorem scan_bind_iff {α β : Type} {p : Scan α} {q : α → Scan β} {s u : Bytes} {b : β} :
    (p >>= q) s = some (b, u) ↔ ∃ a t, p s = some (a, t) ∧ q a t = some (b, u) := by
  have hrun : (p >>= q) s = (p s).bind fun r => q r.1 r.2 := rfl
  rw [hrun, Option.bind_eq_some_iff]
  exact ⟨fun ⟨⟨a, t⟩, hp, hq⟩ => ⟨a, t, hp, hq⟩, fun ⟨a, t, hp, hq⟩ => ⟨(a, t), hp, hq⟩⟩

theorem local_scanSpace : Local scanSpace := by
  intro s a t h
  obtain ⟨sp, rfl, hsp, ht⟩ := scanSpace_iff.1 h
  refine ⟨sp, rfl, ?_⟩
  rintro c y rfl y'
  exact scanSpace_iff.2 ⟨sp, rfl, hsp, stops_cons.2 (stops_cons.1 ht)⟩

theorem local_scanText (x : Bytes) : Local (scanText x) := by
  intro s a t h
  obtain rfl := scanText_iff.1 h
  exact ⟨x, rfl, fun c y _ y' => scanText_iff.2 rfl⟩

theorem local_scanWord {n : Nat} (hn : n ≠ 0) : Local (scanWord n) := by
  intro s w t h
  obtain ⟨sp, rfl, hsp, hw, hne, hle, hstop⟩ := (scanWord_iff hn).mp h
  refine ⟨sp ++ w, (List.append_assoc ..).symm, ?_⟩
  rintro c y rfl y'
  rw [List.append_assoc]
  exact (scanWord_iff hn).mpr ⟨sp, rfl, hsp, hw, hne, hle,
    fun hlt => stops_cons.2 (stops_cons.1 (hstop hlt))⟩

theorem local_scanSkip : Local scanSkip := by
  intro s a t h
  obtain ⟨sp, w, rfl, hsp, hw, hne, hstop⟩ := scanSkip_iff.1 h
  refine ⟨sp ++ w, (List.append_assoc ..).symm, ?_⟩
  rintro c y rfl y'
  rw [List.append_assoc]
  exact scanSkip_iff.2 ⟨sp, w, rfl, hsp, hw, hne, stops_cons.2 (stops_cons.1 hstop)⟩

theorem local_scanSigned : Local scanSigned := by
  rintro s ⟨neg, m⟩ t h
  obtain ⟨sp, sg, ds, rfl, hsp, hsg, hds, hne, rfl, hstop⟩ := scanSigned_iff.1 h
  refine ⟨sp ++ (sg ++ ds), by simp, ?_⟩
  rintro c y rfl y'
  rw [List.append_assoc, List.append_assoc]
  exact scanSigned_iff.2 ⟨sp, sg, ds, rfl, hsp, hsg, hds, hne, rfl,
    stops_cons.2 (stops_cons.1 hstop)⟩

theorem local_scanInt : Local scanInt := .bind local_scanSigned fun _ => local_pure _

theorem local_scanUnsigned : Local scanUnsigned := .bind local_scanSigned fun _ => local_pure _

/-- A scan that reads a string to its end ends in a word. -/
def EndsInWord {α : Type} (p : Scan α) : Prop :=
  ∀ s a, p s = some (a, []) → ∃ b d, s = b ++ [d] ∧ isSpace d = false

theorem endsInWord_scanWord {n : Nat} (hn : n ≠ 0) : EndsInWord (scanWord n) := by
  intro s w h
  obtain ⟨sp, rfl, -, hw, hne, -, -⟩ := (scanWord_iff hn).mp h
  refine ⟨sp ++ w.dropLast, w.getLast hne, ?_, hw _ (List.getLast_mem hne)⟩
  rw [List.append_assoc, List.dropLast_append_getLast, List.append_nil]

theorem EndsInWord.bind {α β : Type} {p : Scan α} {q : α → Scan β} (hp : Local p)
    (hq : ∀ a, EndsInWord (q a)) : EndsInWord (p >>= q) := by
  intro s b h
  obtain ⟨a, t, hpa, hqb⟩ := scan_bind_iff.1 h
  obtain ⟨x, rfl, -⟩ := hp s a t hpa
  obtain ⟨b, d, rfl, hd⟩ := hq a t b hqb
  exact ⟨x ++ b, d, (List.append_assoc ..).symm, hd⟩

theorem EndsInWord.map {α β : Type} {p : Scan α} (hp : EndsInWord p) (f : α → β) :
    EndsInWord (p >>= fun a => pure (f a)) := by
  intro s b h
  obtain ⟨a, t, hpa, hpure⟩ := scan_bind_iff.1 h
  obtain ⟨-, rfl⟩ := Prod.mk.inj (Option.some.inj hpure)
  exact hp s a hpa

/-- A scan that ends in a word leaves something of a string that does not. -/
theorem EndsInWord.left_ne_nil {α : Type} {p : Scan α} (hp : EndsInWord p) {b t : Bytes}
    {c : UInt8} {a : α} (h : p (b ++ [c]) = some (a, t)) (hc : isSpace c = true) : t ≠ [] := by
  rintro rfl
  obtain ⟨b', d, heq, hd⟩ := hp _ a h
  obtain ⟨-, hcd⟩ := List.append_inj' heq rfl
  rw [List.cons.injEq] at hcd
  rw [hcd.1, hd] at hc
  exact Bool.noConfusion hc

example : scanInt (ascii " -12 x".toList) = some (-12, ascii " x".toList) := by decide

end Lib
end Comrade
