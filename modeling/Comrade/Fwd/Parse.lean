import Comrade.Fwd.Spec

/-!
# What the forward parser accepts

`splitLoop_eq_some_iff` reads the loop of `split` as the joining of raw fields, and
`fwdspecParse_eq_some_iff` the whole parser as the loose form of the grammar.  The fields of a
text are unique (`Fields.text_inj`), so the parser and the grammar agree on a string exactly
when it is not lax.
-/

namespace Comrade
namespace Fwd

open Lib

/-! ## The split -/

/-- A raw field of the split and its token. -/
def FieldReads (tlen : Nat) (raw x : Bytes) : Prop :=
  strip false [] raw = some x ∧ x.length < tlen

theorem joined_cons (x y : Bytes) (xs : List Bytes) :
    joined x (y :: xs) = x ++ ch ':' :: joined y xs := by
  simp [joined]

@[simp] theorem joined_nil (x : Bytes) : joined x [] = x := by
  simp [joined]

/-- The loop at a colon outside brackets. -/
theorem splitLoop_colon {maxtok tlen : Nat} (u : Bytes) (done : List Bytes) (x : Bytes) :
    splitLoop maxtok tlen (ch ':' :: u) done false x =
      if maxtok ≤ done.length then none
      else splitLoop maxtok tlen u (done ++ [x]) false [] := by
  rw [splitLoop_cons, if_neg (by simp [show ch ':' ≠ ch '[' by decide]), if_neg (by simp),
    if_pos (by simp)]

/-- One raw field carries the loop from the start of a token to its end. -/
theorem splitLoop_field {maxtok tlen : Nat} {r rest tok x : Bytes} {done : List Bytes}
    {depth : Bool} (h : strip depth tok r = some x) (hlen : x.length < tlen)
    (hdone : done.length < maxtok) :
    splitLoop maxtok tlen (r ++ rest) done depth tok =
      splitLoop maxtok tlen rest done false x := by
  induction r generalizing depth tok with
  | nil =>
      cases depth with
      | true => cases h
      | false =>
          obtain rfl : tok = x := by simpa [strip_nil] using h
          rfl
  | cons c r ih =>
      rw [strip_cons] at h
      rw [List.cons_append, splitLoop_cons]
      split at h
      · rw [if_pos ‹_›, ih h]
      · rw [if_neg ‹_›]
        split at h
        · rw [if_pos ‹_›, ih h]
        · rw [if_neg ‹_›]
          split at h
          · simp at h
          · have hle := length_le_of_strip h
            rw [List.length_append, List.length_singleton] at hle
            rw [if_neg ‹_›, if_neg (by omega), ih h]

/-- A loop that succeeds reads a raw field first. -/
theorem splitLoop_cut {maxtok tlen : Nat} {s tok : Bytes} {done toks : List Bytes} {depth : Bool}
    (h : splitLoop maxtok tlen s done depth tok = some toks) (htok : tok.length < tlen) :
    ∃ r rest x, s = r ++ rest ∧ FieldEnd rest ∧ strip depth tok r = some x ∧ x.length < tlen ∧
      splitLoop maxtok tlen rest done false x = some toks := by
  induction s generalizing depth tok with
  | nil =>
      cases depth with
      | true => simp [splitLoop_nil] at h
      | false => exact ⟨[], [], tok, rfl, .inl rfl, rfl, htok, h⟩
  | cons c s ih =>
      have hstep : ∀ {depth' tok'}, (fun r => strip depth tok (c :: r)) = strip depth' tok' →
          splitLoop maxtok tlen s done depth' tok' = some toks → tok'.length < tlen →
          ∃ r rest x, c :: s = r ++ rest ∧ FieldEnd rest ∧ strip depth tok r = some x ∧
            x.length < tlen ∧ splitLoop maxtok tlen rest done false x = some toks := by
        intro depth' tok' hstrip hloop hlen
        obtain ⟨r, rest, x, rfl, hrest, hx, hfits, hgo⟩ := ih hloop hlen
        exact ⟨c :: r, rest, x, rfl, hrest, (congrFun hstrip r).trans hx, hfits, hgo⟩
      by_cases hopen : c = ch '[' ∧ depth = false ∧ tok = []
      · rw [splitLoop_cons, if_pos hopen] at h
        exact hstep (by funext r; rw [strip_cons, if_pos hopen]) h htok
      · by_cases hclose : c = ch ']' ∧ depth = true
        · rw [splitLoop_cons, if_neg hopen, if_pos hclose] at h
          exact hstep (by funext r; rw [strip_cons, if_neg hopen, if_pos hclose]) h htok
        · by_cases hcolon : c = ch ':' ∧ depth = false
          · obtain ⟨rfl, rfl⟩ := hcolon
            exact ⟨[], ch ':' :: s, tok, rfl, .inr ⟨s, rfl⟩, rfl, htok, h⟩
          · rw [splitLoop_cons, if_neg hopen, if_neg hclose, if_neg hcolon] at h
            split at h
            · simp at h
            · have hstrip : (fun r => strip depth tok (c :: r)) = strip depth (tok ++ [c]) := by
                funext r
                rw [strip_cons, if_neg hopen, if_neg hclose, if_neg hcolon]
              refine hstep hstrip h ?_
              rw [List.length_append, List.length_singleton]
              omega

/-- The loop succeeds exactly on fields joined by colons, as many as there is room for. -/
theorem splitLoop_eq_some_iff {maxtok tlen : Nat} (htlen : 0 < tlen) {s : Bytes}
    {done toks : List Bytes} :
    splitLoop maxtok tlen s done false [] = some toks ↔
      ∃ x xs ts, s = joined x xs ∧ toks = done ++ ts ∧
        List.Forall₂ (FieldReads tlen) (x :: xs) ts ∧ done.length + ts.length ≤ maxtok := by
  constructor
  · induction hn : s.length using Nat.strong_induction_on generalizing s done with
    | _ n ih =>
        intro h
        obtain ⟨r, rest, t, rfl, hrest, hstrip, hfits, hgo⟩ := splitLoop_cut h htlen
        obtain rfl | ⟨u, rfl⟩ := hrest
        · rw [splitLoop_nil] at hgo
          split at hgo
          · simp at hgo
          · refine ⟨r, [], [t], by simp, ?_, .cons ⟨hstrip, hfits⟩ .nil, ?_⟩
            · simpa using hgo.symm
            · rw [List.length_singleton]
              omega
        · rw [splitLoop_colon] at hgo
          split at hgo
          · simp at hgo
          · have hshort : u.length < n := by
              rw [← hn, List.length_append, List.length_cons]
              omega
            obtain ⟨y, ys, ts, rfl, rfl, hall, hroom⟩ := ih u.length hshort rfl hgo
            refine ⟨r, y :: ys, t :: ts, (joined_cons r y ys).symm, by simp,
              .cons ⟨hstrip, hfits⟩ hall, ?_⟩
            rw [List.length_append, List.length_singleton] at hroom
            rw [List.length_cons]
            omega
  · rintro ⟨x, xs, ts, rfl, rfl, hall, hroom⟩
    induction xs generalizing x ts done with
    | nil =>
        obtain _ | ⟨hx, hnil⟩ := hall
        obtain rfl := List.forall₂_nil_left_iff.mp hnil
        rename_i t
        rw [List.length_singleton] at hroom
        have hfield : splitLoop maxtok tlen (x ++ []) done false [] =
            splitLoop maxtok tlen [] done false t := splitLoop_field hx.1 hx.2 (by omega)
        rw [List.append_nil] at hfield
        rw [joined_nil, hfield, splitLoop_nil, if_neg (by omega), if_neg (by simp)]
    | cons y ys ih =>
        obtain _ | ⟨hx, hall⟩ := hall
        rename_i t ts
        rw [List.length_cons] at hroom
        have hmore : (done ++ [t]).length + ts.length ≤ maxtok := by
          rw [List.length_append, List.length_singleton]
          omega
        rw [joined_cons, splitLoop_field hx.1 hx.2 (by omega), splitLoop_colon,
          if_neg (by omega), ih y ts hall hmore, List.append_assoc, List.singleton_append]

/-! ## Fields -/

theorem looseName_fieldReads {raw x : Bytes} :
    FieldReads tokSize raw x ↔ LooseName raw x ∧ x.length < tokSize :=
  and_congr_left' looseName_iff.symm

theorem split_eq_some_iff {arg : Bytes} {toks : List Bytes} :
    split arg 4 tokSize = some toks ↔ ∃ x xs, cString arg = joined x xs ∧
      List.Forall₂ (FieldReads tokSize) (x :: xs) toks ∧ toks.length ≤ 4 := by
  rw [split, splitLoop_eq_some_iff (by decide)]
  constructor
  · rintro ⟨x, xs, ts, hs, rfl, hall, hroom⟩
    exact ⟨x, xs, hs, hall, by simpa using hroom⟩
  · rintro ⟨x, xs, hs, hall, hroom⟩
    exact ⟨x, xs, toks, hs, rfl, hall, by simpa using hroom⟩

theorem fwdspecRest_eq_some_iff {bind port host hostport : Bytes} {sp : Fwdspec} :
    fwdspecRest bind port host hostport = some sp ↔
      bind = sp.bind ∧ parsePort port true = some sp.bindPort ∧ host = sp.host ∧ host ≠ [] ∧
        host.length < hostSize ∧ parsePort hostport false = some sp.port := by
  obtain ⟨spBind, spBindPort, spHost, spPort⟩ := sp
  unfold fwdspecRest
  cases parsePort port true with
  | none => simp
  | some p =>
      by_cases hhost : host = [] ∨ hostSize ≤ host.length
      · have hbad : host ≠ [] → ¬host.length < hostSize := by
          intro hne
          exact not_lt.mpr (hhost.resolve_left hne)
        simp [hhost]
        tauto
      · rw [not_or, not_le] at hhost
        cases parsePort hostport false with
        | none => simp [hhost]
        | some q => simp [hhost]

theorem fwdspecParse_of_split {arg : Bytes} {sp : Fwdspec} :
    fwdspecParse arg = some sp ↔
      (∃ port host hostport, split arg 4 tokSize = some [port, host, hostport] ∧
        fwdspecRest [] port host hostport = some sp) ∨
      ∃ bind port host hostport, split arg 4 tokSize = some [bind, port, host, hostport] ∧
        bind.length < bindSize ∧ fwdspecRest bind port host hostport = some sp := by
  unfold fwdspecParse
  cases split arg 4 tokSize with
  | none => simp
  | some toks =>
      match toks with
      | [] | [_] | [_, _] | _ :: _ :: _ :: _ :: _ :: _ => simp
      | [port, host, hostport] => simp
      | [bind, port, host, hostport] =>
          by_cases hfits : bindSize ≤ bind.length
          · simp [hfits]
          · simp [hfits, not_le.mp hfits]

/-- The parser accepts exactly the loose form of the grammar. -/
theorem fwdspecParse_eq_some_iff {arg : Bytes} {sp : Fwdspec} :
    fwdspecParse arg = some sp ↔
      ∃ f : Fields, f.text = cString arg ∧ f.Reads LooseName LoosePort sp := by
  rw [fwdspecParse_of_split]
  simp only [split_eq_some_iff, fwdspecRest_eq_some_iff]
  constructor
  · rintro (⟨port, host, hostport, ⟨x, xs, hs, hall, -⟩, hbind, hport, rfl, hhost, hfits, hlast⟩ |
      ⟨bind, port, host, hostport, ⟨x, xs, hs, hall, -⟩, hroom, rfl, hport, rfl, hhost, hfits,
        hlast⟩)
    · obtain _ | ⟨hx, _ | ⟨hy, _ | ⟨hz, hnil⟩⟩⟩ := hall
      obtain rfl := List.forall₂_nil_right_iff.mp hnil
      simp only [looseName_fieldReads] at hx hy hz
      exact ⟨⟨none, _, _, _⟩, hs.symm, hbind.symm, ⟨_, hx.1, hx.2, hport⟩, hy.1, hhost, hfits,
        ⟨_, hz.1, hz.2, hlast⟩⟩
    · obtain _ | ⟨hw, _ | ⟨hx, _ | ⟨hy, _ | ⟨hz, hnil⟩⟩⟩⟩ := hall
      obtain rfl := List.forall₂_nil_right_iff.mp hnil
      simp only [looseName_fieldReads] at hw hx hy hz
      exact ⟨⟨some _, _, _, _⟩, hs.symm, ⟨hw.1, hroom⟩, ⟨_, hx.1, hx.2, hport⟩, hy.1, hhost, hfits,
        ⟨_, hz.1, hz.2, hlast⟩⟩
  · rintro ⟨⟨_ | bind, port, host, hostport⟩, hs, hbind, ⟨p, hp, hpl, hport⟩, hhost, hne, hfits,
      ⟨q, hq, hql, hlast⟩⟩
    · refine .inl ⟨p, sp.host, q, ⟨port, [host, hostport], hs.symm, ?_, by simp⟩, hbind.symm,
        hport, rfl, hne, hfits, hlast⟩
      simp only [List.forall₂_cons, looseName_fieldReads, List.forall₂_nil_right_iff]
      exact ⟨⟨hp, hpl⟩, ⟨hhost, hfits⟩, ⟨hq, hql⟩, trivial⟩
    · refine .inr ⟨sp.bind, p, sp.host, q, ⟨bind, [port, host, hostport], hs.symm, ?_, by simp⟩,
        hbind.2, rfl, hport, rfl, hne, hfits, hlast⟩
      have hbindtok : sp.bind.length < tokSize := lt_trans hbind.2 (by decide)
      simp only [List.forall₂_cons, looseName_fieldReads, List.forall₂_nil_right_iff]
      exact ⟨⟨hbind.1, hbindtok⟩, ⟨hp, hpl⟩, ⟨hhost, hfits⟩, ⟨hq, hql⟩, trivial⟩

/-! ## The loose grammar and the grammar -/

theorem StrictName.loose {raw x : Bytes} (h : StrictName raw x) : LooseName raw x := by
  cases h with
  | plain hcolon hhead => exact .plain hcolon hhead
  | bracketed hx =>
      by_cases hempty : x = []
      · subst hempty
        exact .skipped (.plain (by simp) (by simp))
      · simpa using LooseName.merged hempty hx (y := []) (by simp)

/-- A whole name is taken as the grammar has it. -/
theorem LooseName.strict {raw x : Bytes} (h : LooseName raw x) (hwhole : WholeName raw) :
    StrictName raw x := by
  obtain hhead | ⟨y, hy, rfl⟩ := hwhole
  · cases h with
    | plain hcolon hx => exact .plain hcolon hx
    | merged => simp at hhead
    | skipped => simp at hhead
  · have hown : StrictName (ch '[' :: (y ++ [ch ']'])) y := .bracketed hy
    obtain rfl : x = y := by
      have heq := (looseName_iff.mp h).symm.trans (looseName_iff.mp hown.loose)
      simpa using heq
    exact hown

theorem StrictName.whole {raw x : Bytes} (h : StrictName raw x) : WholeName raw := by
  cases h with
  | plain _ hhead => exact .inl hhead
  | bracketed hx => exact .inr ⟨x, hx, rfl⟩

/-- Digits stand for themselves. -/
theorem digits_looseName {raw : Bytes} (hdigits : ∀ c ∈ raw, isDigit c = true) :
    LooseName raw raw := by
  refine .plain (fun hmem => absurd (hdigits _ hmem) (by decide)) ?_
  intro hhead
  exact absurd (hdigits _ (List.mem_of_mem_head? hhead)) (by decide)

/-- On digits `parse_port` is the plain reading of a number in range. -/
theorem parsePort_digits {raw : Bytes} {zero : Bool} {p : UInt16} (hne : raw ≠ [])
    (hdigits : ∀ c ∈ raw, isDigit c = true) :
    parsePort raw zero = some p ↔ digitsValue 0 raw = p.toNat ∧ (p = 0 → zero = true) := by
  unfold parsePort
  rw [if_neg hne]
  simp only [strtol_digits hne hdigits, ne_eq, not_true_eq_false, false_or]
  generalize digitsValue 0 raw = v
  have hp : p.toNat < 2 ^ 16 := p.toNat_lt
  by_cases hbig : 65535 < v
  · rw [if_pos (.inr (.inl (by omega)))]
    simp only [reduceCtorEq, false_iff, not_and]
    intro heq
    omega
  · have hmin : min (2 ^ 63 - 1) (v : Int) = v := by omega
    rw [hmin]
    have hof : UInt16.ofNat (v : Int).toNat = p ↔ v = p.toNat := by
      rw [← UInt16.toNat_inj, UInt16.toNat_ofNat', Int.toNat_natCast,
        Nat.mod_eq_of_lt (by omega)]
    by_cases hzero : v = 0 ∧ zero = false
    · rw [if_pos (.inr (.inr ⟨by exact_mod_cast hzero.1, hzero.2⟩))]
      simp only [reduceCtorEq, false_iff, not_and]
      rintro heq hok
      have hpzero : p = 0 := by
        rw [← UInt16.toNat_inj, ← heq, hzero.1]
        rfl
      simp [hok hpzero] at hzero
    · have hin : ¬((v : Int) < 0 ∨ 65535 < (v : Int) ∨ (v : Int) = 0 ∧ zero = false) := by
        rintro (h | h | ⟨h, hz⟩)
        · omega
        · omega
        · exact hzero ⟨by omega, hz⟩
      rw [if_neg hin, Option.some_inj, hof]
      refine (and_iff_left_of_imp ?_).symm
      rintro rfl rfl
      simpa using hzero

theorem LoosePort.strict {raw : Bytes} {zero : Bool} {p : UInt16} (h : LoosePort zero raw p)
    (hdigits : ∀ c ∈ raw, isDigit c = true) : StrictPort zero raw p := by
  obtain ⟨x, hx, hfits, hport⟩ := h
  obtain rfl : x = raw := by
    have heq := (looseName_iff.mp hx).symm.trans (looseName_iff.mp (digits_looseName hdigits))
    simpa using heq
  have hne : x ≠ [] := by
    rintro rfl
    simp [parsePort] at hport
  obtain ⟨hvalue, hok⟩ := (parsePort_digits hne hdigits).mp hport
  exact ⟨hne, hdigits, hfits, hvalue, hok⟩

theorem StrictPort.loose {raw : Bytes} {zero : Bool} {p : UInt16} (h : StrictPort zero raw p) :
    LoosePort zero raw p :=
  ⟨raw, digits_looseName h.digits, h.fits,
    (parsePort_digits h.ne_nil h.digits).mpr ⟨h.value, h.zero_ok⟩⟩

/-- Fields that keep to the grammar are read alike by both readings. -/
theorem Fields.Strict.reads_iff {f : Fields} (hf : f.Strict) {sp : Fwdspec} :
    f.Reads StrictName StrictPort sp ↔ f.Reads LooseName LoosePort sp := by
  obtain ⟨bind, port, host, hostport⟩ := f
  constructor
  · rintro ⟨hbind, hport, hhost, hne, hfits, hlast⟩
    refine ⟨?_, hport.loose, hhost.loose, hne, hfits, hlast.loose⟩
    cases bind with
    | none => exact hbind
    | some raw => exact ⟨hbind.1.loose, hbind.2⟩
  · rintro ⟨hbind, hport, hhost, hne, hfits, hlast⟩
    refine ⟨?_, hport.strict hf.port, hhost.strict hf.host, hne, hfits, hlast.strict hf.hostport⟩
    cases bind with
    | none => exact hbind
    | some raw => exact ⟨hbind.1.strict (hf.bind raw rfl), hbind.2⟩

theorem Fields.Reads.strict {f : Fields} {sp : Fwdspec} (h : f.Reads StrictName StrictPort sp) :
    f.Strict := by
  refine ⟨?_, h.bindPort.digits, h.host.whole, h.port.digits⟩
  intro raw hraw
  have hbind := h.bind
  rw [Option.mem_def.mp hraw] at hbind
  exact hbind.1.whole

/-! ## The fields of a text -/

/-- A raw field that is read to its end. -/
def Closed (raw : Bytes) : Prop := ∃ x, LooseName raw x

theorem closed_unique {x y rest rest' : Bytes} (hx : Closed x) (hy : Closed y)
    (hrest : FieldEnd rest) (hrest' : FieldEnd rest') (heq : x ++ rest = y ++ rest') : x = y := by
  obtain ⟨a, ha⟩ := hx
  obtain ⟨b, hb⟩ := hy
  exact strip_unique (looseName_iff.mp ha) (looseName_iff.mp hb) hrest hrest' heq

/-- Joined fields come apart in one way only. -/
theorem joined_inj {x y : Bytes} {xs ys : List Bytes} (hx : ∀ r ∈ x :: xs, Closed r)
    (hy : ∀ r ∈ y :: ys, Closed r) (heq : joined x xs = joined y ys) : x :: xs = y :: ys := by
  have hend : ∀ z zs, FieldEnd (ch ':' :: joined z zs) := fun z zs => .inr ⟨_, rfl⟩
  have hnil : FieldEnd [] := .inl rfl
  induction xs generalizing x y ys with
  | nil =>
      cases ys with
      | nil => simpa using heq
      | cons z ys =>
          exfalso
          rw [joined_cons, joined_nil] at heq
          have hxy := closed_unique (hx x (by simp)) (hy y (by simp)) hnil (hend z ys)
            (by simpa using heq)
          simp [hxy] at heq
  | cons w xs ih =>
      cases ys with
      | nil =>
          exfalso
          rw [joined_cons, joined_nil] at heq
          have hxy := closed_unique (hx x (by simp)) (hy y (by simp)) (hend w xs) hnil
            (by simpa using heq)
          simp [hxy] at heq
      | cons z ys =>
          rw [joined_cons, joined_cons] at heq
          obtain rfl := closed_unique (hx x (by simp)) (hy y (by simp)) (hend w xs) (hend z ys) heq
          have htail : joined w xs = joined z ys := by simpa using heq
          rw [ih (fun r hr => hx r (.tail _ hr)) (fun r hr => hy r (.tail _ hr)) htail]

/-- The raw fields in the order of the text. -/
def Fields.raws (f : Fields) : List Bytes :=
  f.bind.toList ++ [f.port, f.host, f.hostport]

theorem Fields.Reads.closed {f : Fields} {sp : Fwdspec} (h : f.Reads LooseName LoosePort sp) :
    ∀ r ∈ f.raws, Closed r := by
  obtain ⟨bind, port, host, hostport⟩ := f
  obtain ⟨p, hp, -⟩ := h.bindPort
  obtain ⟨q, hq, -⟩ := h.port
  have hbind := h.bind
  intro r hr
  simp only [Fields.raws, List.mem_append, Option.mem_toList, List.mem_cons, List.not_mem_nil,
    or_false] at hr
  obtain rfl | rfl | rfl | rfl := hr
  · exact ⟨sp.bind, hbind.1⟩
  · exact ⟨p, hp⟩
  · exact ⟨sp.host, h.host⟩
  · exact ⟨q, hq⟩

/-- A text has one set of fields that can be made sense of. -/
theorem Fields.text_inj {f g : Fields} {sp sp' : Fwdspec} (hf : f.Reads LooseName LoosePort sp)
    (hg : g.Reads LooseName LoosePort sp') (heq : f.text = g.text) : f = g := by
  have hfc := hf.closed
  have hgc := hg.closed
  obtain ⟨_ | bind, port, host, hostport⟩ := f <;>
    obtain ⟨_ | bind', port', host', hostport'⟩ := g <;>
    simpa using joined_inj hfc hgc heq

/-! ## The grammar and the code -/

/-- The parser accepts exactly what the grammar has, and reads it as the grammar says, on the
strings that are not lax. -/
theorem fwdspecParse_grammar_iff (arg : Bytes) :
    (∀ sp, fwdspecParse arg = some sp ↔ Grammar (cString arg) sp) ↔ ¬Lax (cString arg) := by
  simp only [fwdspecParse_eq_some_iff]
  constructor
  · rintro h ⟨f, sp, hs, hreads, hlax⟩
    obtain ⟨g, hgs, hg⟩ := (h sp).mp ⟨f, hs, hreads⟩
    have hfg := Fields.text_inj hreads (hg.strict.reads_iff.mp hg) (hs.trans hgs.symm)
    exact hlax (hfg ▸ hg.strict)
  · intro hlax sp
    constructor
    · rintro ⟨f, hs, hreads⟩
      by_cases hstrict : f.Strict
      · exact ⟨f, hs, hstrict.reads_iff.mpr hreads⟩
      · exact absurd ⟨f, sp, hs, hreads, hstrict⟩ hlax
    · rintro ⟨f, hs, hreads⟩
      exact ⟨f, hs, hreads.strict.reads_iff.mp hreads⟩

/-- The sign in front of the port is read as part of it. -/
theorem fwdspecParse_signed :
    ¬∀ sp, fwdspecParse (ascii "+80:h:22".toList) = some sp ↔
      Grammar (cString (ascii "+80:h:22".toList)) sp := by
  intro h
  have hparse : fwdspecParse (ascii "+80:h:22".toList) = some ⟨[], 80, [ch 'h'], 22⟩ := by
    decide
  have hstr : cString (ascii "+80:h:22".toList) = ascii "+80:h:22".toList := by decide
  obtain ⟨⟨_ | bind, port, host, hostport⟩, hs, hreads⟩ := (h _).mp hparse
  all_goals rw [hstr] at hs
  · have hhead := congrArg List.head? hs
    obtain ⟨c, port, rfl⟩ := List.exists_cons_of_ne_nil hreads.bindPort.ne_nil
    obtain rfl : c = ch '+' := by simpa [Fields.text, joined, ascii] using hhead
    exact absurd (hreads.bindPort.digits _ List.mem_cons_self) (by decide)
  · have hcount := congrArg (List.count (ch ':')) hs
    have htwo : (ascii "+80:h:22".toList).count (ch ':') = 2 := by decide
    rw [htwo] at hcount
    simp [Fields.text, joined, List.count_append] at hcount
    omega

end Fwd
end Comrade
