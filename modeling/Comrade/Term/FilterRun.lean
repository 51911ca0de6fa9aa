import Comrade.Term.Filter

/-!
# What the terminal filter makes of its input

`filtered pend s` is what the filter writes for `s` with what it holds at the end.  The proof
follows the filter byte by byte (`filtered_rewritten_iff`), with what is held as a sequence in
which no answer begins (`NoneInside`).  A byte that is not clean shows in the output:
`report_ne_rewritten` and `printAnswer_ne` say where the two streams differ.
-/

namespace Comrade
namespace Term

open Lib

/-! ## Digit strings -/

/-- Digits end at the first byte that is none. -/
theorem digits_append_inj {a b u v : Bytes} {x y : UInt8} (ha : ∀ c ∈ a, isDigit c = true)
    (hb : ∀ c ∈ b, isDigit c = true) (hx : isDigit x = false) (hy : isDigit y = false)
    (h : a ++ x :: u = b ++ y :: v) : a = b ∧ x = y ∧ u = v := by
  have hcut : ∀ {d w : Bytes} {z : UInt8}, (∀ c ∈ d, isDigit c = true) → isDigit z = false →
      (d ++ z :: w).takeWhile isDigit = d := by
    intro d w z hd hz
    rw [List.takeWhile_append_of_pos hd, List.takeWhile_cons_of_neg (by simp [hz]),
      List.append_nil]
  have hab : a = b := by rw [← hcut ha hx, h, hcut hb hy]
  subst hab
  simpa using h

theorem digits_decimal (n : Nat) : ∀ c ∈ decimal n, isDigit c = true :=
  fun _ => isDigit_of_mem_decimal

theorem ne_esc_of_isDigit {c : UInt8} (h : isDigit c = true) : c ≠ esc := by
  rintro rfl
  exact absurd h (by decide)

theorem not_final_of_isDigit {c : UInt8} (h : isDigit c = true) : isFinal c = false := by
  rw [isDigit_iff] at h
  have hat : (0x40 : UInt8).toNat = 64 := rfl
  simp only [isFinal, Bool.and_eq_false_iff, decide_eq_false_iff_not, UInt8.le_iff_toNat_le]
  omega

/-! ## Answers -/

theorem report_append (r c s : Bytes) :
    report r c ++ s =
      esc :: ch '[' :: ch '8' :: ch ';' :: (r ++ ch ';' :: (c ++ ch 't' :: s)) := by
  simp [report, ascii]

/-- The parameters of an answer: what stands between `ESC [` and the final byte. -/
def params (r c : Bytes) : Bytes := ch '8' :: ch ';' :: (r ++ ch ';' :: c)

theorem report_append_params (r c s : Bytes) :
    report r c ++ s = esc :: ch '[' :: (params r c ++ ch 't' :: s) := by
  simp [report, params, ascii]

theorem mem_params {r c : Bytes} {x : UInt8} (hr : Number r) (hc : Number c)
    (h : x ∈ params r c) : isDigit x = true ∨ x = ch ';' := by
  simp only [params, List.mem_cons, List.mem_append] at h
  obtain rfl | rfl | h | rfl | h := h
  · exact .inl (by decide)
  · exact .inr rfl
  · exact .inl (hr.digits x h)
  · exact .inr rfl
  · exact .inl (hc.digits x h)

theorem not_final_of_mem_params {r c : Bytes} {x : UInt8} (hr : Number r) (hc : Number c)
    (h : x ∈ params r c) : isFinal x = false := by
  obtain hx | rfl := mem_params hr hc h
  · exact not_final_of_isDigit hx
  · decide

theorem length_params_le {r c : Bytes} (hr : Number r) (hc : Number c) :
    (params r c).length ≤ 13 := by
  have hrs := hr.short
  have hcs := hc.short
  simp only [params, List.length_cons, List.length_append]
  omega

theorem report_append_inj {r c r' c' s s' : Bytes} (hr : ∀ x ∈ r, isDigit x = true)
    (hc : ∀ x ∈ c, isDigit x = true) (hr' : ∀ x ∈ r', isDigit x = true)
    (hc' : ∀ x ∈ c', isDigit x = true) (h : report r c ++ s = report r' c' ++ s') :
    r = r' ∧ c = c' ∧ s = s' := by
  rw [report_append, report_append] at h
  simp only [List.cons.injEq, true_and] at h
  obtain ⟨hrr, -, hrest⟩ := digits_append_inj hr hr' (by decide) (by decide) h
  obtain ⟨hcc, -, hs⟩ := digits_append_inj hc hc' (by decide) (by decide) hrest
  exact ⟨hrr, hcc, hs⟩

theorem not_reportAt_of_ne_esc {reserve : Nat} {x : UInt8} {s : Bytes} (h : x ≠ esc) :
    ¬ReportAt reserve (x :: s) := by
  rintro ⟨r, c, u, -, hs⟩
  rw [report_append] at hs
  exact h (List.cons.inj hs).1

theorem not_reportAt_nil {reserve : Nat} : ¬ReportAt reserve [] := by
  rintro ⟨r, c, u, -, hs⟩
  rw [report_append] at hs
  simp at hs

/-- An answer left as it is and the same answer rewritten differ in their rows. -/
theorem report_ne_rewritten {reserve : Nat} {r c s t : Bytes} (h : Rewritable reserve r c) :
    report r c ++ s ≠ report (decimal (digitsValue 0 r - reserve)) c ++ t := by
  intro heq
  obtain ⟨hr, -, -⟩ := report_append_inj h.rows.digits h.cols.digits (digits_decimal _)
    h.cols.digits heq
  have hval := congrArg (digitsValue 0) hr
  rw [digitsValue_decimal] at hval
  have hpos := h.reserved
  have hmore := h.more
  omega

/-! ## The relation -/

theorem rewritten_cons_iff {reserve : Nat} {x : UInt8} {s t : Bytes}
    (hnone : ¬ReportAt reserve (x :: s)) :
    Rewritten reserve (x :: s) t ↔ ∃ t', t = x :: t' ∧ Rewritten reserve s t' := by
  constructor
  · intro h
    generalize hs : x :: s = w at h
    cases h with
    | nil => simp at hs
    | report hr _ => exact absurd ⟨_, _, _, hr, hs⟩ hnone
    | @other y s' t' _ hrest =>
        obtain ⟨rfl, rfl⟩ := List.cons.inj hs
        exact ⟨t', rfl, hrest⟩
  · rintro ⟨t', rfl, hrest⟩
    exact .other hnone hrest

theorem rewritten_report_iff {reserve : Nat} {r c s t : Bytes} (hr : Rewritable reserve r c) :
    Rewritten reserve (report r c ++ s) t ↔
      ∃ t', t = report (decimal (digitsValue 0 r - reserve)) c ++ t' ∧
        Rewritten reserve s t' := by
  constructor
  · intro h
    generalize hs : report r c ++ s = w at h
    cases h with
    | nil =>
        rw [report_append] at hs
        simp at hs
    | @report r' c' s' t' hr' hrest =>
        obtain ⟨rfl, rfl, rfl⟩ := report_append_inj hr.rows.digits hr.cols.digits
          hr'.rows.digits hr'.cols.digits hs
        exact ⟨t', rfl, hrest⟩
    | other hnone _ => exact absurd ⟨r, c, s, hr, hs.symm⟩ hnone
  · rintro ⟨t', rfl, hrest⟩
    exact .report hr hrest

/-- Bytes at which no answer begins are kept. -/
theorem rewritten_append_iff {reserve : Nat} {p s t : Bytes}
    (hnone : ∀ u v, p = u ++ v → v ≠ [] → ¬ReportAt reserve (v ++ s)) :
    Rewritten reserve (p ++ s) t ↔ ∃ t', t = p ++ t' ∧ Rewritten reserve s t' := by
  induction p generalizing t with
  | nil => simp
  | cons x p ih =>
      have htail : ∀ u v, p = u ++ v → v ≠ [] → ¬ReportAt reserve (v ++ s) := by
        rintro u v rfl hv
        exact hnone (x :: u) v rfl hv
      have hhead : ¬ReportAt reserve (x :: (p ++ s)) := hnone [] (x :: p) rfl (by simp)
      rw [List.cons_append, rewritten_cons_iff hhead]
      simp only [ih htail]
      constructor
      · rintro ⟨-, rfl, t', rfl, hrest⟩
        exact ⟨t', rfl, hrest⟩
      · rintro ⟨t', rfl, hrest⟩
        exact ⟨p ++ t', rfl, t', rfl, hrest⟩

/-! ## The scan -/

/-- A number read at the head of a string. -/
theorem scanIntWide_number {n : Nat} {d u : Bytes} {x : UInt8} (hne : d ≠ [])
    (hshort : d.length ≤ n) (hd : ∀ c ∈ d, isDigit c = true) (hx : isDigit x = false) :
    scanIntWide n (d ++ x :: u) = some ((digitsValue 0 d : Int), x :: u) := by
  obtain ⟨a, d, rfl⟩ := List.exists_cons_of_ne_nil hne
  have ha : isDigit a = true := hd a List.mem_cons_self
  have hspace : ((a :: d) ++ x :: u).dropWhile isSpace = (a :: d) ++ x :: u := by
    rw [List.cons_append, List.dropWhile_cons_of_neg (by simp [isSpace_of_isDigit ha])]
  have htake : (((a :: d) ++ x :: u).take n).takeWhile isDigit = a :: d := by
    rw [List.take_append, List.take_of_length_le hshort, List.takeWhile_append_of_pos hd]
    cases n - (a :: d).length with
    | zero => simp
    | succ k => simp [hx]
  have hminus : (((a :: d) ++ x :: u).head? == some (ch '-')) = false := by
    simpa using (ne_sign_of_isDigit ha).1
  have hplus : (((a :: d) ++ x :: u).head? == some (ch '+')) = false := by
    simpa using (ne_sign_of_isDigit ha).2
  unfold scanIntWide
  simp only [hspace, hminus, hplus, Bool.or_self, Bool.false_eq_true, if_false, List.drop_zero,
    Nat.sub_zero, htake, reduceCtorEq, Nat.zero_add, List.drop_left]

/-- A positive number was read from digits, unless blanks or a sign stand in front. -/
theorem scanIntWide_pos {n : Nat} {s rest : Bytes} {v : Int}
    (h : scanIntWide n s = some (v, rest)) :
    (∃ x u, s = x :: u ∧ isDigit x = false) ∨
      ∃ ds, s = ds ++ rest ∧ (∀ c ∈ ds, isDigit c = true) ∧ v = digitsValue 0 ds := by
  cases s with
  | nil => simp [scanIntWide] at h
  | cons x u =>
      by_cases hx : isDigit x = true
      · refine .inr ?_
        have hspace : (x :: u).dropWhile isSpace = x :: u :=
          List.dropWhile_cons_of_neg (by simp [isSpace_of_isDigit hx])
        have hminus : ((x :: u).head? == some (ch '-')) = false := by
          simpa using (ne_sign_of_isDigit hx).1
        have hplus : ((x :: u).head? == some (ch '+')) = false := by
          simpa using (ne_sign_of_isDigit hx).2
        unfold scanIntWide at h
        simp only [hspace, hminus, hplus, Bool.or_self, Bool.false_eq_true, if_false,
          List.drop_zero, Nat.sub_zero, Nat.zero_add] at h
        split at h
        · simp at h
        · simp only [Option.some.injEq, Prod.mk.injEq] at h
          obtain ⟨rfl, rfl⟩ := h
          refine ⟨((x :: u).take n).takeWhile isDigit, ?_, fun c => List.mem_takeWhile_imp, rfl⟩
          have hpre : ((x :: u).take n).takeWhile isDigit <+: x :: u :=
            (List.takeWhile_prefix _).trans (List.take_prefix _ _)
          conv_lhs => rw [← List.take_append_drop
            (((x :: u).take n).takeWhile isDigit).length (x :: u)]
          rw [← List.prefix_iff_eq_take.mp hpre]
      · exact .inl ⟨x, u, rfl, by simpa using hx⟩

/-- What a text in a format takes. -/
theorem scanText_append (t s : Bytes) : scanText t (t ++ s) = some ((), s) := by
  rw [scanText, if_pos (by simp), List.drop_left]

theorem eq_append_of_scanText {t s rest : Bytes} {a : Unit} (h : scanText t s = some (a, rest)) :
    s = t ++ rest := by
  unfold scanText at h
  split at h
  · rename_i hpre
    obtain ⟨w, rfl⟩ := List.isPrefixOf_iff_prefix.mp hpre
    simp only [List.drop_left, Option.some.injEq, Prod.mk.injEq, true_and] at h
    rw [h]
  · simp at h

theorem bind_scan {α β : Type} {p : Scan α} {f : α → Scan β} {s rest : Bytes} {a : α}
    (h : p s = some (a, rest)) : (p >>= f) s = f a rest := by
  change (p s >>= fun x => f x.1 x.2) = f a rest
  rw [h]
  rfl

theorem bind_scan_eq_some {α β : Type} {p : Scan α} {f : α → Scan β} {s rest : Bytes} {b : β}
    (h : (p >>= f) s = some (b, rest)) :
    ∃ a mid, p s = some (a, mid) ∧ f a mid = some (b, rest) := by
  cases hp : p s with
  | none =>
      have hnone : (p s >>= fun x => f x.1 x.2) = some (b, rest) := h
      rw [hp] at hnone
      cases hnone
  | some x =>
      obtain ⟨a, mid⟩ := x
      rw [bind_scan hp] at h
      exact ⟨a, mid, rfl, h⟩

/-- The scan of an answer. -/
theorem sizeAnswer_report {reserve : Nat} {r c : Bytes} (h : Rewritable reserve r c) :
    sizeAnswer reserve (report r c) =
      some ((digitsValue 0 r : Int), (digitsValue 0 c : Int)) := by
  have hall := report_append r c []
  rw [List.append_nil] at hall
  have hlast : (report r c).getLast? = some (ch 't') := by
    rw [report, show ascii "t".toList = [ch 't'] from rfl, List.getLast?_concat]
  have hzero : (0 : UInt8) ∉ report r c := by
    have hnum : ∀ {d : Bytes}, (∀ x ∈ d, isDigit x = true) → (0 : UInt8) ∉ d :=
      fun hd hmem => absurd (hd 0 hmem) (by decide)
    rw [hall]
    simp only [List.mem_cons, List.mem_append, not_or, List.not_mem_nil, not_false_eq_true,
      and_true]
    exact ⟨by decide, by decide, by decide, by decide, hnum h.rows.digits, by decide,
      hnum h.cols.digits, by decide⟩
  have hscan : scanSize (report r c) =
      some (((digitsValue 0 r : Int), (digitsValue 0 c : Int)), [ch 't']) := by
    have hsemi : ∀ u, scanText (ascii ";".toList) (ch ';' :: u) = some ((), u) :=
      scanText_append (ascii ";".toList)
    have htext : report r c = (esc :: ascii "[8;".toList) ++
        (r ++ ch ';' :: (c ++ [ch 't'])) := by
      rw [hall]
      rfl
    rw [scanSize, htext, bind_scan (scanText_append _ _),
      bind_scan (scanIntWide_number h.rows.ne_nil h.rows.short h.rows.digits (by decide)),
      bind_scan (hsemi _),
      bind_scan (scanIntWide_number h.cols.ne_nil h.cols.short h.cols.digits (by decide))]
    rfl
  have hmore : (reserve : Int) < digitsValue 0 r := by exact_mod_cast h.more
  rw [sizeAnswer, if_pos ⟨hlast, h.reserved⟩, cString_of_not_mem hzero, hscan]
  exact if_pos hmore

theorem printInt_ofNat (n : Nat) : printInt n = decimal n := by
  rw [printInt, if_neg (by omega), Int.natAbs_natCast]

/-- What is printed for a sequence that passes for an answer differs from it in the rows. -/
theorem printAnswer_ne {reserve : Nat} {seq s t : Bytes} {rows cols : Int}
    (h : sizeAnswer reserve seq = some (rows, cols)) :
    printAnswer (rows - reserve) cols ++ s ≠ seq ++ t := by
  unfold sizeAnswer at h
  split at h
  · rename_i hlast
    cases hscan : scanSize (cString seq) with
    | none => simp [hscan] at h
    | some x =>
        obtain ⟨⟨rows', cols'⟩, rest⟩ := x
        rw [hscan] at h
        dsimp only at h
        split at h
        · rename_i hmore
          simp only [Option.some.injEq, Prod.mk.injEq] at h
          obtain ⟨rfl, rfl⟩ := h
          obtain ⟨_, s₁, htext, hrest₁⟩ := bind_scan_eq_some hscan
          obtain ⟨v, s₂, hrows, hrest₂⟩ := bind_scan_eq_some hrest₁
          obtain ⟨_, s₃, hsemi, hrest₃⟩ := bind_scan_eq_some hrest₂
          obtain ⟨w, s₄, -, hpure⟩ := bind_scan_eq_some hrest₃
          obtain rfl : v = rows' := congrArg (fun x => x.1.1) (Option.some.inj hpure)
          have hseq : seq = esc :: ascii "[8;".toList ++
              (s₁ ++ seq.dropWhile fun c => c != 0) := by
            rw [← List.append_assoc, ← eq_append_of_scanText htext, cString,
              List.takeWhile_append_dropWhile]
          obtain ⟨n, hn⟩ := Int.eq_ofNat_of_zero_le (show 0 ≤ v - reserve by omega)
          intro heq
          rw [hseq, printAnswer, hn, printInt_ofNat] at heq
          simp only [List.append_assoc, List.cons_append, List.cons.injEq, true_and,
            List.append_cancel_left_eq] at heq
          obtain ⟨x, u, rfl, hx⟩ | ⟨ds, rfl, hds, hval⟩ := scanIntWide_pos hrows
          · obtain ⟨y, ds, hy⟩ := List.exists_cons_of_ne_nil (decimal_ne_nil n)
            have hdigit : isDigit y = true := digits_decimal n y (by rw [hy]; simp)
            rw [hy, List.cons_append, List.cons_append] at heq
            rw [(List.cons.inj heq).1, hx] at hdigit
            cases hdigit
          · rw [eq_append_of_scanText hsemi, List.append_assoc, List.append_assoc] at heq
            obtain ⟨rfl, -, -⟩ := digits_append_inj (digits_decimal n) hds (x := ch ';')
              (y := ch ';') (by decide) (by decide) heq
            rw [digitsValue_decimal] at hval
            have hpos := hlast.2
            omega
        · simp at h
  · simp at h

/-- An answer as the filter prints it. -/
theorem emitSeq_report {reserve : Nat} {r c : Bytes} (h : Rewritable reserve r c) :
    emitSeq reserve (report r c) =
      report (decimal (digitsValue 0 r - reserve)) (decimal (digitsValue 0 c)) := by
  have hsub : (digitsValue 0 r : Int) - reserve = ((digitsValue 0 r - reserve : Nat) : Int) := by
    have hmore := h.more
    omega
  rw [emitSeq, sizeAnswer_report h]
  simp only [printAnswer, hsub, printInt_ofNat, report]

/-! ## What is held -/

/-- What the filter can hold: nothing, an `ESC`, or the head of a control sequence. -/
def Held (p : Bytes) : Prop :=
  p = [] ∨ p = [esc] ∨
    ∃ q, p = esc :: ch '[' :: q ∧ (∀ c ∈ q, isFinal c = false) ∧ q.length + 2 ≤ pendSize - 1

/-- No answer begins inside the sequence `p` with `s` behind it. -/
def NoneInside (reserve : Nat) (p s : Bytes) : Prop :=
  ∀ u v, p = u ++ v → u ≠ [] → v ≠ [] → ¬ReportAt reserve (v ++ s)

theorem noneInside_nil {reserve : Nat} {s : Bytes} : NoneInside reserve [] s := by
  intro u v h hu
  exact absurd (List.append_eq_nil_iff.mp h.symm).1 hu

theorem noneInside_singleton {reserve : Nat} {c : UInt8} {s : Bytes} :
    NoneInside reserve [c] s := by
  intro u v h hu hv
  have hlen := congrArg List.length h
  rw [List.length_append, List.length_singleton] at hlen
  have hul := List.length_pos_iff.mpr hu
  have hvl := List.length_pos_iff.mpr hv
  omega

theorem NoneInside.snoc {reserve : Nat} {p s : Bytes} {c : UInt8}
    (h : NoneInside reserve p (c :: s)) (hc : ¬ReportAt reserve (c :: s)) :
    NoneInside reserve (p ++ [c]) s := by
  intro u v heq hu hv
  obtain rfl | ⟨w, x, rfl⟩ := List.eq_nil_or_concat' v
  · exact absurd rfl hv
  · rw [← List.append_assoc] at heq
    obtain ⟨rfl, hx⟩ := List.append_inj' heq rfl
    obtain rfl : c = x := by simpa using hx
    rw [List.append_assoc, List.singleton_append]
    by_cases hw : w = []
    · rwa [hw, List.nil_append]
    · exact h u w rfl hu hw

/-- With none at its head either, no answer begins in `p` at all. -/
theorem NoneInside.all {reserve : Nat} {p s : Bytes} (h : NoneInside reserve p s)
    (hhead : ¬ReportAt reserve (p ++ s)) :
    ∀ u v, p = u ++ v → v ≠ [] → ¬ReportAt reserve (v ++ s) := by
  intro u v heq hv
  by_cases hu : u = []
  · rw [hu, List.nil_append] at heq
    rwa [← heq]
  · exact h u v heq hu hv

/-- An answer at the head of a sequence that has no final byte yet goes on behind it. -/
theorem reportAt_open {reserve : Nat} {q t : Bytes} (hq : ∀ c ∈ q, isFinal c = false)
    (h : ReportAt reserve (esc :: ch '[' :: (q ++ t))) :
    ∃ r c w u, Rewritable reserve r c ∧ params r c = q ++ w ∧ t = w ++ ch 't' :: u := by
  obtain ⟨r, c, u, hr, heq⟩ := h
  rw [report_append_params] at heq
  simp only [List.cons.injEq, true_and] at heq
  obtain ⟨w, hw, ht⟩ | ⟨w, hw, ht⟩ := List.append_eq_append_iff.mp heq
  · exact ⟨r, c, w, u, hr, hw, ht⟩
  · cases w with
    | nil => exact ⟨r, c, [], u, hr, by simpa using hw.symm, by simpa using ht.symm⟩
    | cons x w =>
        exfalso
        obtain ⟨rfl, -⟩ := List.cons.inj ht
        exact absurd (hq (ch 't') (by simp [hw])) (by decide)

/-! ## The run -/

/-- What the filter writes for `s` with `p` held, and what it holds at the end. -/
def filtered (reserve : Nat) (p s : Bytes) : Bytes :=
  (termfilterRun reserve p s).2 ++ (termfilterRun reserve p s).1

@[simp] theorem filtered_nil (reserve : Nat) (p : Bytes) : filtered reserve p [] = p := rfl

theorem filtered_cons (reserve : Nat) (p : Bytes) (c : UInt8) (s : Bytes) :
    filtered reserve p (c :: s) =
      (step reserve p c).2 ++ filtered reserve (step reserve p c).1 s := by
  simp only [filtered, termfilterRun_cons, List.append_assoc]

theorem cleanFrom_nil (reserve : Nat) (p : Bytes) : CleanFrom reserve p [] := by
  intro a c b h
  simp at h

theorem cleanFrom_cons {reserve : Nat} {p s : Bytes} {c : UInt8} :
    CleanFrom reserve p (c :: s) ↔
      CleanByte reserve p c s ∧ CleanFrom reserve (step reserve p c).1 s := by
  constructor
  · intro h
    exact ⟨h [] c s rfl, fun a d b hs => h (c :: a) d b (by rw [hs]; rfl)⟩
  · rintro ⟨hfirst, hrest⟩ a d b hs
    cases a with
    | nil =>
        obtain ⟨rfl, rfl⟩ := List.cons.inj hs
        exact hfirst
    | cons x a =>
        obtain ⟨rfl, htail⟩ := List.cons.inj hs
        exact hrest a d b htail

/-- Outside sequences, a byte is clean. -/
theorem cleanByte_of_not_inSequence {reserve : Nat} {p s : Bytes} {c : UInt8}
    (h : ¬InSequence p) : CleanByte reserve p c s :=
  ⟨fun hin => absurd hin h, fun hin => absurd hin h⟩

/-- Outside sequences, text without an `ESC` is written as it comes. -/
theorem filtered_text {reserve : Nat} {a s : Bytes} (h : ∀ c ∈ a, c ≠ esc) :
    filtered reserve [] (a ++ s) = a ++ filtered reserve [] s := by
  induction a with
  | nil => rfl
  | cons c a ih =>
      have hc : c ≠ esc := h c List.mem_cons_self
      have hstep : step reserve [] c = ([], [c]) := by simp [step, outside, hc]
      rw [List.cons_append, filtered_cons, hstep, ih fun d hd => h d (.tail _ hd)]
      rfl

section

variable {reserve : Nat} {s : Bytes}

/-- The filter meets the relation on `s` from every sequence it can hold, if `s` is clean. -/
def Meets (reserve : Nat) (s : Bytes) : Prop :=
  ∀ p, Held p → NoneInside reserve p s →
    (Rewritten reserve (p ++ s) (filtered reserve p s) ↔ CleanFrom reserve p s)

theorem Meets.nothing (h : Meets reserve s) :
    Rewritten reserve s (filtered reserve [] s) ↔ CleanFrom reserve [] s :=
  h [] (.inl rfl) noneInside_nil

/-- A byte that is read as outside sequences. -/
theorem Meets.outside (h : Meets reserve s) (c : UInt8) :
    Rewritten reserve (c :: s)
        ((outside c).2 ++ filtered reserve (outside c).1 s) ↔
      CleanFrom reserve (outside c).1 s := by
  by_cases hc : c = esc
  · subst hc
    exact h [esc] (.inr (.inl rfl)) noneInside_singleton
  · rw [Term.outside, if_neg hc, rewritten_cons_iff (not_reportAt_of_ne_esc hc), ← h.nothing]
    simp

/-- The byte behind an `ESC`. -/
theorem Meets.second (h : Meets reserve s) (c : UInt8) :
    Rewritten reserve (esc :: c :: s) (filtered reserve [esc] (c :: s)) ↔
      CleanFrom reserve [esc] (c :: s) := by
  have hclean : CleanByte reserve [esc] c s :=
    cleanByte_of_not_inSequence fun hin => absurd hin.1 (by simp)
  rw [cleanFrom_cons, and_iff_right hclean, filtered_cons]
  by_cases hc : c = ch '['
  · subst hc
    have hstep : step reserve [esc] (ch '[') = ([esc, ch '['], []) := rfl
    have hnone : NoneInside reserve [esc, ch '['] s :=
      noneInside_singleton.snoc (not_reportAt_of_ne_esc (by decide))
    rw [hstep, ← h [esc, ch '['] (.inr (.inr ⟨[], rfl, by simp, by decide⟩)) hnone]
    rfl
  · have hstep : step reserve [esc] c = ((Term.outside c).1, esc :: (Term.outside c).2) := by
      simp [step, hc]
    have hnone : ¬ReportAt reserve (esc :: c :: s) := by
      rintro ⟨r, d, u, -, heq⟩
      rw [report_append] at heq
      simp only [List.cons.injEq, true_and] at heq
      exact hc heq.1
    rw [hstep, rewritten_cons_iff hnone, ← h.outside c]
    simp

/-- A sequence too long to be an answer. -/
theorem Meets.overflow (h : Meets reserve s) {q : Bytes} {c : UInt8}
    (hq : ∀ x ∈ q, isFinal x = false) (hlong : pendSize - 1 ≤ q.length + 2)
    (hnone : NoneInside reserve (esc :: ch '[' :: q) (c :: s)) :
    Rewritten reserve (esc :: ch '[' :: q ++ c :: s)
        (filtered reserve (esc :: ch '[' :: q) (c :: s)) ↔
      CleanFrom reserve (esc :: ch '[' :: q) (c :: s) := by
  have hclean : CleanByte reserve (esc :: ch '[' :: q) c s :=
    cleanByte_of_not_inSequence fun hin => by
      have hlt := hin.2
      simp only [List.length_cons] at hlt
      omega
  have hstep : step reserve (esc :: ch '[' :: q) c =
      ((Term.outside c).1, esc :: ch '[' :: q ++ (Term.outside c).2) := by
    rw [step, if_neg (by simp), if_neg (by simp), if_pos (by simpa using hlong)]
  have hhead : ¬ReportAt reserve (esc :: ch '[' :: q ++ c :: s) := by
    intro hrep
    obtain ⟨r, d, w, u, hr, hparams, -⟩ := reportAt_open hq hrep
    have hle := length_params_le hr.rows hr.cols
    rw [hparams, List.length_append] at hle
    simp only [pendSize] at hlong
    omega
  rw [cleanFrom_cons, and_iff_right hclean, filtered_cons, hstep,
    rewritten_append_iff (hnone.all hhead), ← h.outside c]
  simp

/-- A `[` ends whatever sequence it stands in. -/
theorem step_bracket {p : Bytes} (h : 2 ≤ p.length) :
    step reserve p (ch '[') = ([], p ++ [ch '[']) := by
  rw [step, if_neg (by omega), if_neg (by omega)]
  split
  · rfl
  · have hlast : ¬((p ++ [ch '[']).getLast? = some (ch 't') ∧ 0 < reserve) := by
      rw [List.getLast?_concat]
      exact fun hand => absurd hand.1 (by decide)
    rw [if_pos (by decide), emitSeq, sizeAnswer, if_neg hlast]

/-- An answer that begins inside another sequence is written as it is. -/
theorem filtered_inside {p r c u : Bytes} (hr : Number r) (hc : Number c) (hp : InSequence p) :
    filtered reserve p (report r c ++ u) = p ++ (report r c ++ filtered reserve [] u) := by
  have hstart : step reserve p esc = (p ++ [esc], []) := by
    have htwo := hp.1
    have hlt := hp.2
    rw [step, if_neg (by omega), if_neg (by omega), if_neg (by omega), if_neg (by decide)]
  have htext : ∀ x ∈ params r c ++ [ch 't'], x ≠ esc := by
    intro x hx
    obtain hx | hx := List.mem_append.mp hx
    · obtain hd | rfl := mem_params hr hc hx
      · exact ne_esc_of_isDigit hd
      · decide
    · obtain rfl := List.mem_singleton.mp hx
      decide
  have hrest : filtered reserve [] (params r c ++ ch 't' :: u) =
      params r c ++ ch 't' :: filtered reserve [] u := by
    have hall : filtered reserve [] ((params r c ++ [ch 't']) ++ u) =
        (params r c ++ [ch 't']) ++ filtered reserve [] u := filtered_text htext
    simpa using hall
  have hlen : 2 ≤ (p ++ [esc]).length := by
    rw [List.length_append]
    exact hp.1.trans (Nat.le_add_right _ _)
  rw [report_append_params, report_append_params, filtered_cons, hstart, filtered_cons,
    step_bracket hlen, hrest]
  simp

/-- A byte that goes on with a sequence. -/
theorem Meets.parameter (h : Meets reserve s) {q : Bytes} {c : UInt8}
    (hq : ∀ x ∈ q, isFinal x = false) (hshort : q.length + 2 < pendSize - 1)
    (hnone : NoneInside reserve (esc :: ch '[' :: q) (c :: s)) (hc : isFinal c = false) :
    Rewritten reserve (esc :: ch '[' :: q ++ c :: s)
        (filtered reserve (esc :: ch '[' :: q) (c :: s)) ↔
      CleanFrom reserve (esc :: ch '[' :: q) (c :: s) := by
  have hin : InSequence (esc :: ch '[' :: q) := ⟨by simp, hshort⟩
  by_cases hrep : ReportAt reserve (c :: s)
  · -- the answer that begins here is lost, and the one around it is none
    refine iff_of_false ?_ fun hclean => (cleanFrom_cons.1 hclean).1.starts hin hrep
    have hhead : ¬ReportAt reserve (esc :: ch '[' :: q ++ c :: s) := by
      intro hfirst
      obtain rfl : c = esc := by
        by_contra hne
        exact not_reportAt_of_ne_esc hne hrep
      obtain ⟨r, d, w, u, hr, hparams, hrest⟩ := reportAt_open hq hfirst
      cases w with
      | nil => exact absurd (List.cons.inj hrest).1 (by decide)
      | cons x w =>
          obtain ⟨rfl, -⟩ := List.cons.inj hrest
          obtain hd | hsemi := mem_params hr.rows hr.cols (x := esc) (by simp [hparams])
          · exact absurd hd (by decide)
          · exact absurd hsemi (by decide)
    intro hrew
    obtain ⟨t, heq, ht⟩ := (rewritten_append_iff (hnone.all hhead)).mp hrew
    obtain ⟨r, d, u, hr, hs⟩ := hrep
    rw [hs, filtered_inside hr.rows hr.cols hin] at heq
    rw [hs] at ht
    obtain rfl : report r d ++ filtered reserve [] u = t := by simpa using heq
    obtain ⟨t', hmatch, -⟩ := (rewritten_report_iff hr).mp ht
    exact report_ne_rewritten hr hmatch
  · have hclean : CleanByte reserve (esc :: ch '[' :: q) c s :=
      ⟨fun _ => hrep, fun _ hfinal => absurd hfinal (by simp [hc])⟩
    have hstep : step reserve (esc :: ch '[' :: q) c = (esc :: ch '[' :: (q ++ [c]), []) := by
      rw [step, if_neg (by simp), if_neg (by simp), if_neg (not_le.mpr hin.2),
        if_neg (by simp [hc])]
      rfl
    have hheld : Held (esc :: ch '[' :: (q ++ [c])) := by
      refine .inr (.inr ⟨q ++ [c], rfl, ?_, ?_⟩)
      · intro x hx
        obtain hx | hx := List.mem_append.mp hx
        · exact hq x hx
        · rwa [List.mem_singleton.mp hx]
      · rw [List.length_append, List.length_singleton]
        omega
    have hmore := h _ hheld (hnone.snoc hrep)
    rw [cleanFrom_cons, and_iff_right hclean, filtered_cons, hstep, ← hmore]
    simp

/-- The final byte of a sequence. -/
theorem Meets.final (h : Meets reserve s) {q : Bytes} {c : UInt8}
    (hq : ∀ x ∈ q, isFinal x = false) (hshort : q.length + 2 < pendSize - 1)
    (hnone : NoneInside reserve (esc :: ch '[' :: q) (c :: s)) (hc : isFinal c = true) :
    Rewritten reserve (esc :: ch '[' :: q ++ c :: s)
        (filtered reserve (esc :: ch '[' :: q) (c :: s)) ↔
      CleanFrom reserve (esc :: ch '[' :: q) (c :: s) := by
  have hin : InSequence (esc :: ch '[' :: q) := ⟨by simp, hshort⟩
  have hne : c ≠ esc := by
    rintro rfl
    exact absurd hc (by decide)
  have hrep : ¬ReportAt reserve (c :: s) := not_reportAt_of_ne_esc hne
  have hstep : step reserve (esc :: ch '[' :: q) c =
      ([], emitSeq reserve (esc :: ch '[' :: q ++ [c])) := by
    rw [step, if_neg (by simp), if_neg (by simp), if_neg (not_le.mpr hin.2), if_pos hc]
  have hsplit : esc :: ch '[' :: q ++ c :: s = (esc :: ch '[' :: q ++ [c]) ++ s := by simp
  -- an answer at the head ends with this byte
  have hwhole : ReportAt reserve ((esc :: ch '[' :: q ++ [c]) ++ s) →
      ∃ r d, Rewritable reserve r d ∧ esc :: ch '[' :: q ++ [c] = report r d := by
    rw [← hsplit]
    intro hfirst
    obtain ⟨r, d, w, u, hr, hparams, hrest⟩ := reportAt_open hq hfirst
    cases w with
    | nil =>
        obtain ⟨rfl, -⟩ := List.cons.inj hrest
        have htext := report_append_params r d []
        rw [List.append_nil] at htext hparams
        exact ⟨r, d, hr, by rw [htext, hparams]; rfl⟩
    | cons x w =>
        obtain ⟨rfl, -⟩ := List.cons.inj hrest
        have hfinal := not_final_of_mem_params hr.rows hr.cols (x := c) (by simp [hparams])
        rw [hc] at hfinal
        cases hfinal
  rw [cleanFrom_cons, filtered_cons, hstep, hsplit]
  by_cases hexact : ∃ r d, Rewritable reserve r d ∧ esc :: ch '[' :: q ++ [c] = report r d
  · obtain ⟨r, d, hr, hseq⟩ := hexact
    have hplain : CleanByte reserve (esc :: ch '[' :: q) c s ↔
        decimal (digitsValue 0 d) = d := by
      constructor
      · intro hclean
        obtain ⟨r', d', hr', hseq', hcols⟩ :=
          hclean.closes hin hc (by rw [hseq, sizeAnswer_report hr]; simp)
        have hsame : report r d ++ [] = report r' d' ++ [] := by rw [← hseq, hseq']
        obtain ⟨-, rfl, -⟩ := report_append_inj hr.rows.digits hr.cols.digits hr'.rows.digits
          hr'.cols.digits hsame
        exact hcols
      · intro hcols
        exact ⟨fun _ => hrep, fun _ _ _ => ⟨r, d, hr, hseq, hcols⟩⟩
    rw [hseq, emitSeq_report hr, rewritten_report_iff hr, hplain, ← h.nothing]
    constructor
    · rintro ⟨t, heq, ht⟩
      obtain ⟨-, hcols, rfl⟩ := report_append_inj (digits_decimal _) (digits_decimal _)
        (digits_decimal _) hr.cols.digits heq
      exact ⟨hcols, ht⟩
    · rintro ⟨hcols, ht⟩
      rw [hcols]
      exact ⟨_, rfl, ht⟩
  · have hhead : ¬ReportAt reserve (esc :: ch '[' :: q ++ c :: s) := by
      rw [hsplit]
      exact fun hfirst => hexact (hwhole hfirst)
    have hall : ∀ u v, esc :: ch '[' :: q ++ [c] = u ++ v → v ≠ [] →
        ¬ReportAt reserve (v ++ s) :=
      (hnone.snoc hrep).all (by rwa [← hsplit])
    rw [rewritten_append_iff hall]
    cases hanswer : sizeAnswer reserve (esc :: ch '[' :: q ++ [c]) with
    | none =>
        have hclean : CleanByte reserve (esc :: ch '[' :: q) c s :=
          ⟨fun _ => hrep, fun _ _ htaken => absurd hanswer htaken⟩
        have hemit : emitSeq reserve (esc :: ch '[' :: q ++ [c]) = esc :: ch '[' :: q ++ [c] := by
          rw [emitSeq, hanswer]
        rw [and_iff_right hclean, hemit, ← h.nothing]
        simp
    | some x =>
        obtain ⟨rows, cols⟩ := x
        refine iff_of_false ?_ ?_
        · rintro ⟨t, heq, -⟩
          rw [emitSeq, hanswer] at heq
          exact printAnswer_ne hanswer heq
        · rintro ⟨hclean, -⟩
          obtain ⟨r, d, hr, hseq, -⟩ := hclean.closes hin hc (by rw [hanswer]; simp)
          exact hexact ⟨r, d, hr, hseq⟩

end

theorem meets (reserve : Nat) (s : Bytes) : Meets reserve s := by
  induction s with
  | nil =>
      intro p hp hnone
      refine iff_of_true ?_ (cleanFrom_nil reserve p)
      have hhead : ¬ReportAt reserve (p ++ []) := by
        intro hrep
        obtain rfl | rfl | ⟨q, rfl, hq, -⟩ := hp
        · exact not_reportAt_nil hrep
        · obtain ⟨r, c, u, -, heq⟩ := hrep
          rw [report_append] at heq
          simp at heq
        · obtain ⟨r, c, w, u, -, -, hend⟩ := reportAt_open hq hrep
          simp at hend
      exact (rewritten_append_iff (hnone.all hhead)).mpr ⟨[], by simp, .nil⟩
  | cons c s ih =>
      intro p hp hnone
      obtain rfl | rfl | ⟨q, rfl, hq, hlen⟩ := hp
      · have hclean : CleanByte reserve [] c s :=
          cleanByte_of_not_inSequence fun hin => absurd hin.1 (by simp)
        rw [cleanFrom_cons, and_iff_right hclean, filtered_cons]
        exact ih.outside c
      · exact ih.second c
      · obtain hlong | hshort := le_or_gt (pendSize - 1) (q.length + 2)
        · exact ih.overflow hq hlong hnone
        · cases hc : isFinal c with
          | false => exact ih.parameter hq hshort hnone hc
          | true => exact ih.final hq hshort hnone hc

/-- Over any calls, the filter's output with what it still holds is the input with exactly its
size answers rewritten, if and only if the input is clean. -/
theorem filterCalls_rewritten_iff (reserve : Nat) (calls : List Bytes) :
    Rewritten reserve calls.flatten
        ((filterCalls reserve [] calls).2 ++ (filterCalls reserve [] calls).1) ↔
      Clean reserve calls.flatten := by
  rw [filterCalls_eq]
  exact (meets reserve calls.flatten).nothing

/-- An answer behind an interrupted sequence, in two calls. -/
def interrupted : List Bytes :=
  [esc :: ascii "[1".toList, report (ascii "24".toList) (ascii "80".toList)]

set_option maxRecDepth 4000

/-- It reaches tmux with all its rows. -/
theorem filterCalls_interrupted :
    ¬Rewritten 1 interrupted.flatten
      ((filterCalls 1 [] interrupted).2 ++ (filterCalls 1 [] interrupted).1) := by
  have hr : Rewritable 1 (ascii "24".toList) (ascii "80".toList) :=
    ⟨⟨by decide, by decide, by decide⟩, ⟨by decide, by decide, by decide⟩,
      by decide, by decide⟩
  have hout : (filterCalls 1 [] interrupted).2 ++ (filterCalls 1 [] interrupted).1 =
      interrupted.flatten := by decide
  have hsplit : interrupted.flatten =
      (esc :: ascii "[1".toList) ++ (report (ascii "24".toList) (ascii "80".toList) ++ []) := by
    decide
  have hnone : ∀ u v, esc :: ascii "[1".toList = u ++ v → v ≠ [] →
      ¬ReportAt 1 (v ++ (report (ascii "24".toList) (ascii "80".toList) ++ [])) := by
    refine NoneInside.all ?_ ?_
    · exact (noneInside_singleton.snoc (not_reportAt_of_ne_esc (by decide))).snoc
        (not_reportAt_of_ne_esc (by decide))
    · rintro ⟨r, c, u, -, heq⟩
      rw [report_append r c u] at heq
      have hthird : ch '1' = ch '8' := congrArg (fun s => s.getD 2 0) heq
      exact absurd hthird (by decide)
  rw [hout, hsplit, rewritten_append_iff hnone]
  rintro ⟨t, heq, ht⟩
  obtain rfl := List.append_cancel_left heq
  obtain ⟨t', hmatch, -⟩ := (rewritten_report_iff hr).mp ht
  exact report_ne_rewritten hr hmatch

end Term
end Comrade
