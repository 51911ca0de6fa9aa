import Comrade.Sdp.FanRead

/-!
# What fanning puts in

A line is put in behind the last one, and `sscanf` does not stop at the end of a line: what
is put in can be read as the rest of a candidate that was there.

* `reflexes_endLines`: it is so only where a bare key hangs at the end of the description
  (`hangs`), which the first line put in then completes.
* `reflexes_fanLines` reads the lines put in, `fanLoop_eq` and `fanScan_eq` are the two loops
  over them, with room.
-/

namespace Comrade
namespace Sdp

open Lib Candpack

/-! ## The search for a candidate -/

theorem osMemmem_eq_some {x s p : Bytes} (h : osMemmem x s = some p) :
    ∃ u q, s = u ++ p ∧ p = x ++ q := by
  induction s with
  | nil =>
      rw [osMemmem_nil] at h
      split_ifs at h with hx
      cases h
      exact ⟨[], [], rfl, by simp [hx]⟩
  | cons c s ih =>
      rw [osMemmem_cons] at h
      split_ifs at h with hpre
      · cases h
        obtain ⟨q, hq⟩ := List.isPrefixOf_iff_prefix.mp hpre
        exact ⟨[], q, rfl, hq.symm⟩
      · obtain ⟨u, q, rfl, hq⟩ := ih h
        exact ⟨c :: u, q, rfl, hq⟩

/-- A newline behind a line does not help to find a text without one. -/
theorem osMemmem_concat {x : Bytes} (hx : nl ∉ x) (hne : x ≠ []) (s : Bytes) :
    osMemmem x (s ++ [nl]) = (osMemmem x s).map (· ++ [nl]) := by
  have hpre : ∀ s, x <+: s ++ [nl] → x <+: s := by
    intro s h
    rcases List.prefix_concat_iff.mp h with rfl | h
    · simp at hx
    · exact h
  induction s with
  | nil =>
      have hnot : ¬x.isPrefixOf [nl] = true := by
        rw [List.isPrefixOf_iff_prefix]
        exact fun h => hne (List.prefix_nil.mp (hpre [] h))
      rw [List.nil_append, osMemmem_cons, if_neg hnot, osMemmem_nil, if_neg hne]
      rfl
  | cons c s ih =>
      have hsame : x.isPrefixOf (c :: (s ++ [nl])) = x.isPrefixOf (c :: s) := by
        rw [Bool.eq_iff_iff, List.isPrefixOf_iff_prefix, List.isPrefixOf_iff_prefix]
        exact ⟨hpre (c :: s), fun h => h.trans (List.prefix_append (c :: s) [nl])⟩
      rw [List.cons_append, osMemmem_cons, osMemmem_cons, hsame]
      split_ifs
      · rfl
      · exact ih

/-! ## Reading a candidate -/

theorem local_scanCandFields : Local scanCandFields :=
  .bind local_scanSkip fun _ => .bind local_scanSpace fun _ => .bind local_scanInt fun _ =>
    .bind local_scanSpace fun _ => .bind local_scanSkip fun _ => .bind local_scanSpace fun _ =>
      .bind local_scanUnsigned fun _ => .bind local_scanSpace fun _ => local_scanFromAddr _

theorem keepsAtEnd_scanPortTyp : KeepsAtEnd scanPortTyp :=
  .bind local_scanSpace fun _ => .bind local_scanInt fun _ => .bind local_scanSpace fun _ =>
    .bind (local_scanText _) fun _ => .bind local_scanSpace fun _ =>
      (keepsAtEnd_scanWord (by decide)).map _

theorem keepsAtEnd_scanCandFields : KeepsAtEnd scanCandFields :=
  .bind local_scanSkip fun _ => .bind local_scanSpace fun _ => .bind local_scanInt fun _ =>
    .bind local_scanSpace fun _ => .bind local_scanSkip fun _ => .bind local_scanSpace fun _ =>
      .bind local_scanUnsigned fun _ => .bind local_scanSpace fun _ =>
        .bind (local_scanWord (by decide)) fun _ => .map keepsAtEnd_scanPortTyp _

/-- The v4 reflexive candidate that is read of a string. -/
def readReflex (inet : Inet) (s : Bytes) : Option Reflex := do
  let c ← (scanCand s).map Prod.fst
  if c.typ = CandType.srflx.name then (inet.pton .v4 c.addr).map fun b => ⟨c, b⟩ else none

theorem reflexAt_eq (inet : Inet) (line rest : Bytes) :
    reflexAt inet line rest =
      (osMemmem candWord line).bind fun p => readReflex inet (p ++ rest) := rfl

theorem readReflex_eq_some {inet : Inet} {s : Bytes} {r : Reflex} :
    readReflex inet (candWord ++ s) = some r ↔ ∃ t, scanCandFields s = some (r.cand, t) ∧
      r.cand.typ = CandType.srflx.name ∧ inet.pton .v4 r.cand.addr = some r.addr := by
  have hcand : scanCand (candWord ++ s) = scanCandFields s := bind_of_read (scanText_iff.mpr rfl)
  unfold readReflex
  rw [hcand]
  simp only [Option.bind_eq_bind, Option.bind_eq_some_iff, Option.map_eq_some_iff]
  constructor
  · rintro ⟨_, ⟨⟨c, t⟩, hread, rfl⟩, h⟩
    split_ifs at h with htyp
    obtain ⟨b, hb, rfl⟩ := Option.map_eq_some_iff.mp h
    exact ⟨t, hread, htyp, hb⟩
  · rintro ⟨t, hread, htyp, hb⟩
    refine ⟨r.cand, ⟨(r.cand, t), hread, rfl⟩, ?_⟩
    rw [if_pos htyp, hb]
    rfl

/-- White space in front of the fields does not count. -/
theorem scanCandFields_congr {s s' : Bytes} (h : s.dropWhile isSpace = s'.dropWhile isSpace) :
    scanCandFields s = scanCandFields s' := by
  have hskip : scanSkip s = scanSkip s' := by
    rw [← scanSkip_dropWhile, h, scanSkip_dropWhile]
  change (scanSkip s).bind _ = (scanSkip s').bind _
  rw [hskip]

theorem scanCandFields_allSpace {s : Bytes} (h : AllSpace s) : scanCandFields s = none := by
  have hnil : s.dropWhile isSpace = [] := List.dropWhile_eq_nil_iff.mpr h
  have hsame : s.dropWhile isSpace = ([] : Bytes).dropWhile isSpace := by
    rw [hnil]
    rfl
  rw [scanCandFields_congr hsame]
  rfl

section Behind

variable {inet : Inet} {s e : Bytes}

/-- Unless nothing stands behind the key, the candidate is read as without the lines put in. -/
theorem readReflex_foreign (hparted : Parted s e) (he : Foreign e) (hs : ¬AllSpace s) :
    readReflex inet (candWord ++ (s ++ e)) = readReflex inet (candWord ++ s) := by
  ext r
  rw [readReflex_eq_some, readReflex_eq_some]
  constructor
  · rintro ⟨t, hread, htyp, hpton⟩
    rcases scanCandFields_stay hparted he htyp hread with ⟨v, hv⟩ | ⟨hall, -⟩
    · exact ⟨v, hv, htyp, hpton⟩
    · exact absurd hall hs
  · rintro ⟨t, hread, htyp, hpton⟩
    exact ⟨_, keepsAtEnd_scanCandFields.scan_append local_scanCandFields hparted hread, htyp,
      hpton⟩

/-- If nothing stands behind the key, the candidate is read of the lines put in. -/
theorem readReflex_allSpace (hs : AllSpace s) (e : Bytes) :
    readReflex inet (candWord ++ (s ++ e)) = readReflex inet (candWord ++ e) := by
  ext r
  rw [readReflex_eq_some, readReflex_eq_some,
    scanCandFields_congr (s := s ++ e) (List.dropWhile_append_of_pos hs)]

theorem readReflex_key (hs : AllSpace s) : readReflex inet (candWord ++ s) = none := by
  rw [Option.eq_none_iff_forall_ne_some]
  intro r hr
  obtain ⟨t, hread, -⟩ := readReflex_eq_some.1 hr
  rw [scanCandFields_allSpace hs] at hread
  cases hread

end Behind

/-! ## The lines of a description, ended -/

/-- What ends the last line. -/
def lead (s : Bytes) : Bytes := if s ≠ [] ∧ s.getLast? ≠ some nl then [nl] else []

/-- The description with its last line ended. -/
def ended (sdp : Bytes) : Bytes := sdp ++ lead sdp

theorem lead_append {s t : Bytes} (ht : t ≠ []) : lead (s ++ t) = lead t := by
  have hlast : (s ++ t).getLast? = t.getLast? := by
    obtain ⟨c, hc⟩ : ∃ c, t.getLast? = some c := ⟨_, List.getLast?_eq_some_getLast ht⟩
    rw [List.getLast?_append, hc]
    rfl
  rw [lead, lead, hlast]
  simp [ht]

theorem parted_lead (s e : Bytes) : Parted s (lead s ++ e) := by
  unfold lead
  split_ifs with h
  · refine Or.inr ?_
    rintro c ⟨⟩
    decide
  · refine Or.inl ?_
    intro c hc
    have hne : s ≠ [] := by
      rintro rfl
      cases hc
    by_contra hspace
    refine h ⟨hne, ?_⟩
    rw [Option.mem_def.mp hc]
    rintro ⟨⟩
    exact hspace (by decide)

/-- The lines of a description, the last one ended. -/
def endLines : List Bytes → List Bytes
  | [] => []
  | [l] => [l ++ lead l]
  | l :: ls => l :: endLines ls

theorem endLines_cons_cons (l l' : Bytes) (ls : List Bytes) :
    endLines (l :: l' :: ls) = l :: endLines (l' :: ls) := rfl

theorem IsText.head_ne_nil {l : Bytes} {ls : List Bytes} (h : IsText (l :: ls)) : l ≠ [] := by
  rcases h.1 with ⟨b, rfl, -⟩ | ⟨-, hne, -⟩
  · simp
  · exact hne

theorem flatten_endLines {ls : List Bytes} (h : IsText ls) :
    (endLines ls).flatten = ended ls.flatten := by
  induction ls with
  | nil => rfl
  | cons l ls ih =>
      cases ls with
      | nil => simp [endLines, ended]
      | cons l' ls =>
          have hne : (l' :: ls).flatten ≠ [] := by simp [IsText.head_ne_nil h.2]
          rw [endLines_cons_cons, List.flatten_cons, ih h.2,
            List.flatten_cons (L := l' :: ls), ended, ended, lead_append hne, List.append_assoc]

/-- Some line in which a candidate is found has nothing behind the key, in it or in the lines
that follow. -/
def hangs : List Bytes → Bool
  | [] => false
  | line :: rest =>
      ((osMemmem candWord line).any fun p =>
        ((p ++ rest.flatten).drop candWord.length).all isSpace) || hangs rest

theorem osMemmem_lead (line : Bytes) :
    osMemmem candWord (line ++ lead line) = (osMemmem candWord line).map (· ++ lead line) := by
  unfold lead
  split_ifs
  · exact osMemmem_concat (not_mem_ascii rfl) (by simp [candWord, ascii]) line
  · simp

/-- What is read at a line of the ended description with lines behind it. -/
theorem reflexes_endLines_cons {inet : Inet} {line : Bytes} {rest L : List Bytes}
    (h : IsText (line :: rest)) :
    reflexes inet (endLines (line :: rest) ++ L) =
      ((osMemmem candWord line).bind fun p => readReflex inet (p ++ (rest.flatten ++
        (lead (line :: rest).flatten ++ L.flatten)))).toList ++
        reflexes inet (endLines rest ++ L) := by
  cases rest with
  | nil =>
      rw [endLines, endLines, List.singleton_append, List.nil_append, reflexes_cons, reflexAt_eq,
        osMemmem_lead, List.flatten_singleton]
      cases osMemmem candWord line with
      | none => rfl
      | some p => simp [List.append_assoc]
  | cons l rest =>
      have hne : (l :: rest).flatten ≠ [] := by simp [IsText.head_ne_nil h.2]
      rw [endLines_cons_cons, List.cons_append, reflexes_cons, reflexAt_eq,
        List.flatten_append,
        flatten_endLines h.2, ended, List.flatten_cons (L := l :: rest), lead_append hne]
      simp only [List.append_assoc]

/-- Lines of white space name no candidate. -/
theorem osMemmem_allSpace {s : Bytes} (h : AllSpace s) : osMemmem candWord s = none := by
  rw [Option.eq_none_iff_forall_ne_some]
  intro p hp
  obtain ⟨u, q, rfl, rfl⟩ := osMemmem_eq_some hp
  have hkey : candWord = ch 'c' :: ascii "andidate:".toList := by simp [candWord, ascii]
  have hspace := h (ch 'c') (by simp [hkey])
  exact absurd hspace (by decide)

theorem reflexes_allSpace (inet : Inet) {ls : List Bytes} (h : AllSpace ls.flatten) :
    reflexes inet ls = [] ∧ hangs ls = false := by
  induction ls with
  | nil => exact ⟨rfl, rfl⟩
  | cons l ls ih =>
      rw [List.flatten_cons, AllSpace, List.forall_mem_append] at h
      obtain ⟨hnone, hno⟩ := ih h.2
      rw [reflexes_cons, reflexAt_eq, hangs, osMemmem_allSpace h.1, hnone, hno]
      exact ⟨rfl, rfl⟩

/-- The candidates that are read with lines behind the description are those read without,
one that hangs if there is one, and those of the lines. -/
theorem reflexes_endLines {inet : Inet} {ls L : List Bytes} (hls : IsText ls)
    (hL : ∀ sp, AllSpace sp → Foreign (sp ++ L.flatten)) :
    reflexes inet (endLines ls ++ L) = reflexes inet ls ++
      ((if hangs ls = true then (readReflex inet (candWord ++ L.flatten)).toList else []) ++
        reflexes inet L) := by
  induction ls with
  | nil => rfl
  | cons line rest ih =>
      have hih := ih hls.2
      have hlead : AllSpace (lead (line :: rest).flatten) := by
        unfold lead
        split_ifs
        · simp only [AllSpace, List.mem_singleton, forall_eq]
          decide
        · exact allSpace_nil
      rw [reflexes_endLines_cons hls, hih, reflexes_cons, reflexAt_eq, hangs]
      cases hp : osMemmem candWord line with
      | none => simp
      | some p =>
          obtain ⟨u, q, hline, rfl⟩ := osMemmem_eq_some hp
          have hparted : Parted (q ++ rest.flatten) (lead (line :: rest).flatten ++ L.flatten) := by
            have htext : (line :: rest).flatten = (u ++ candWord) ++ (q ++ rest.flatten) := by
              simp [hline]
            have hend := parted_lead (line :: rest).flatten L.flatten
            nth_rewrite 1 [htext] at hend
            exact hend.of_append
          have hdrop :
              (candWord ++ q ++ rest.flatten).drop candWord.length = q ++ rest.flatten := by
            rw [List.append_assoc, List.drop_left]
          rw [Option.bind_some, Option.bind_some, Option.any_some, hdrop, List.append_assoc,
            ← List.append_assoc q, List.append_assoc candWord]
          by_cases hall : AllSpace (q ++ rest.flatten)
          · have hrest : AllSpace rest.flatten := (List.forall_mem_append.mp hall).2
            obtain ⟨hnone, hno⟩ := reflexes_allSpace inet hrest
            rw [readReflex_allSpace hall, readReflex_allSpace hlead, readReflex_key hall, hnone,
              hno]
            have hyes : (q ++ rest.flatten).all isSpace = true := List.all_eq_true.mpr hall
            simp [hyes]
          · have hnot : (q ++ rest.flatten).all isSpace = false := by
              rw [← Bool.not_eq_true, List.all_eq_true]
              exact hall
            rw [readReflex_foreign hparted (hL _ hlead) hall, hnot]
            simp

/-! ## The lines put in -/

/-- The candidate that a line put in names. -/
def fanReflex (inet : Inet) (prio : UInt32) (port : Nat) (a : Bytes) : Reflex where
  cand := ⟨prio, inet.ntop .v4 a, port, CandType.srflx.name⟩
  addr := a

section Lines

variable {inet : Inet} {a : Bytes} {port : Nat}

/-- The key and the fields of a line put in, behind any word. -/
theorem readReflex_fan (ha : V4Text inet a) (hport : port < 2 ^ 31) (prio : UInt32) {w : Bytes}
    (hw : ∀ c ∈ w, isSpace c = false) (hne : w ≠ []) (rest : Bytes) :
    readReflex inet (candWord ++ (w ++ (fanFields inet prio port a ++ rest))) =
      some (fanReflex inet prio port a) := by
  obtain ⟨t, ht⟩ := scanCandFields_fan hw hne ha prio hport rest
  exact readReflex_eq_some.2 ⟨t, ht, rfl, ha.pton⟩

theorem osMemmem_cons_of_ne {c d : UInt8} {x s : Bytes} (h : c ≠ d) :
    osMemmem (d :: x) (c :: s) = osMemmem (d :: x) s := by
  rw [osMemmem_cons, if_neg]
  rw [List.isPrefixOf_iff_prefix, List.cons_prefix_cons]
  exact fun hpre => h hpre.1.symm

theorem osMemmem_self_append (x s : Bytes) (hne : x ≠ []) :
    osMemmem x (x ++ s) = some (x ++ s) := by
  obtain ⟨c, x, rfl⟩ := List.exists_cons_of_ne_nil hne
  rw [List.cons_append, osMemmem_cons, if_pos]
  rw [List.isPrefixOf_iff_prefix, ← List.cons_append]
  exact List.prefix_append _ _

/-- A line put in is read by itself, whatever stands behind it. -/
theorem reflexAt_fanLine (ha : V4Text inet a) (hport : port < 2 ^ 31) (prio : UInt32) (i : Nat)
    (rest : Bytes) :
    reflexAt inet (fanLine inet prio port i a) rest =
      some (fanReflex inet (fanPrio prio i) port a) := by
  have hkey : ascii "a=candidate:pool".toList =
      ch 'a' :: ch '=' :: (candWord ++ ascii "pool".toList) := by simp [candWord, ascii]
  have hc : candWord = ch 'c' :: ascii "andidate:".toList := by simp [candWord, ascii]
  have hfind : osMemmem candWord (fanLine inet prio port i a) =
      some (candWord ++ ((ascii "pool".toList ++ decimal (UInt32.ofNat i).toNat) ++
        fanFields inet (fanPrio prio i) port a)) := by
    rw [fanLine_eq, fanWord, hkey]
    simp only [List.cons_append, List.append_assoc]
    conv_lhs => rw [hc, osMemmem_cons_of_ne (by decide), osMemmem_cons_of_ne (by decide), ← hc]
    exact osMemmem_self_append _ _ (by simp [hc])
  have hword : ∀ c ∈ ascii "pool".toList ++ decimal (UInt32.ofNat i).toNat, isSpace c = false := by
    rw [List.forall_mem_append]
    exact ⟨not_space_ascii rfl, not_space_decimal _⟩
  rw [reflexAt_eq, hfind, Option.bind_some, List.append_assoc, List.append_assoc _ _ rest]
  exact readReflex_fan ha hport _ hword (by simp [decimal_ne_nil]) rest

/-- A candidate that hangs is completed by the first line put in. -/
theorem readReflex_hang (ha : V4Text inet a) (hport : port < 2 ^ 31) (prio : UInt32) (i : Nat)
    (rest : Bytes) :
    readReflex inet (candWord ++ (fanLine inet prio port i a ++ rest)) =
      some (fanReflex inet (fanPrio prio i) port a) := by
  rw [fanLine_eq, List.append_assoc]
  exact readReflex_fan ha hport _ (fanWord_not_space i) (fanWord_ne_nil i) rest

end Lines

/-- The most that a line put in can take. -/
def fanLineMax : Nat := 103

theorem length_fanLine {inet : Inet} {a : Bytes} (ha : V4Text inet a) (prio : UInt32)
    {port : Nat} (hport : port < 2 ^ 31) (i : Nat) :
    (fanLine inet prio port i a).length ≤ fanLineMax ∧
      (i < fanSeenMax → (fanLine inet prio port i a).length < fanCandSize) := by
  have hkey : (ascii "a=candidate:pool".toList).length = 16 := by simp [ascii]
  have hudp : (ascii " 1 UDP ".toList).length = 7 := by simp [ascii]
  have hsp : (ascii " ".toList).length = 1 := by simp [ascii]
  have htail : (ascii " typ srflx raddr 0.0.0.0 rport 0\n".toList).length = 33 := by
    simp [ascii]
  have hdec : ∀ n : UInt32, (decimal n.toNat).length ≤ 10 := fun n =>
    length_decimal_le (by norm_num) (n.toNat_lt.trans (by norm_num))
  have hi := hdec (UInt32.ofNat i)
  have hprio := hdec (fanPrio prio i)
  have hp : (decimal port).length ≤ 10 :=
    length_decimal_le (by norm_num) (hport.trans (by norm_num))
  have haddr := ha.length_le
  simp only [fanLine, List.length_append, hkey, hudp, hsp, htail, fanLineMax, fanCandSize]
  refine ⟨by omega, fun hsmall => ?_⟩
  have hmod : (UInt32.ofNat i).toNat < 10 ^ 1 := by
    rw [fanSeenMax] at hsmall
    rw [UInt32.toNat_ofNat']
    omega
  have hi := length_decimal_le (by norm_num) hmod
  omega

theorem terminated_fanLine {inet : Inet} {a : Bytes} (ha : V4Text inet a) (prio : UInt32)
    (port i : Nat) : Terminated (fanLine inet prio port i a) := by
  have hdec : ∀ n, nl ∉ decimal n := by
    intro n hmem
    exact absurd (isDigit_of_mem_decimal hmem) (by decide)
  have haddr : nl ∉ inet.ntop .v4 a := by
    intro hmem
    exact absurd (ha.not_space nl hmem) (by decide)
  have htail : ascii " typ srflx raddr 0.0.0.0 rport 0\n".toList =
      ascii " typ srflx raddr 0.0.0.0 rport 0".toList ++ [nl] := by simp [ascii, nl]
  refine ⟨ascii "a=candidate:pool".toList ++ (decimal (UInt32.ofNat i).toNat ++
    (ascii " 1 UDP ".toList ++ (decimal (fanPrio prio i).toNat ++ (ascii " ".toList ++
      (inet.ntop .v4 a ++ (ascii " ".toList ++ (decimal port ++
        ascii " typ srflx raddr 0.0.0.0 rport 0".toList))))))), ?_, ?_⟩
  · rw [fanLine, htail]
    simp only [List.append_assoc]
  · have hkey : nl ∉ ascii "a=candidate:pool".toList := not_mem_ascii rfl
    have hudp : nl ∉ ascii " 1 UDP ".toList := not_mem_ascii rfl
    have hsp : nl ∉ ascii " ".toList := not_mem_ascii rfl
    have hend : nl ∉ ascii " typ srflx raddr 0.0.0.0 rport 0".toList := not_mem_ascii rfl
    simp only [List.mem_append, hkey, hdec, hudp, hsp, haddr, hend, or_self, not_false_eq_true]

section Loop

variable {inet : Inet} {seen pool : List Bytes} {port : Nat}

/-- With room for all of them the loop puts in all the lines, if each fits its buffer. -/
theorem fanLoop_eq {cap : Nat} {prio : UInt32} (hport : port < 2 ^ 31)
    (hpool : ∀ a ∈ pool, V4Text inet a) (i : Nat) (sdp : Bytes)
    (hroom : sdp.length + pool.length * fanLineMax < cap) :
    fanLoop inet cap seen prio port i pool sdp =
      if ∀ l ∈ fanLines inet seen prio port i pool, l.length < fanCandSize
      then some (sdp ++ (fanLines inet seen prio port i pool).flatten) else none := by
  induction pool generalizing i sdp with
  | nil => simp [fanLoop, fanLines_nil]
  | cons a pool ih =>
      obtain ⟨ha, hpool⟩ := List.forall_mem_cons.mp hpool
      rw [List.length_cons, Nat.succ_mul] at hroom
      have hlen := (length_fanLine ha prio hport i).1
      rw [fanLoop, fanLines_cons]
      by_cases hseen : a ∈ seen
      · rw [if_pos hseen, if_pos hseen, ih hpool (i + 1) sdp (by omega)]
      · rw [if_neg hseen, if_neg hseen]
        dsimp only
        rw [if_neg (by omega)]
        simp only [List.forall_mem_cons, List.flatten_cons]
        by_cases hfit : fanCandSize ≤ (fanLine inet prio port i a).length
        · rw [if_pos hfit, if_neg fun hall => absurd hall.1 (not_lt.mpr hfit)]
        · rw [if_neg hfit, ih hpool (i + 1) _ (by rw [List.length_append]; omega),
            List.append_assoc]
          simp only [not_le.mp hfit, true_and]

variable (seen) in
/-- Each of the lines names one of the addresses, in their order. -/
theorem reflexes_fanLines (prio : UInt32) (hport : port < 2 ^ 31)
    (hpool : ∀ a ∈ pool, V4Text inet a) (i : Nat) :
    (reflexes inet (fanLines inet seen prio port i pool)).map Reflex.addr = unseen seen pool ∧
      ∀ r ∈ reflexes inet (fanLines inet seen prio port i pool), r.cand.port = port := by
  induction pool generalizing i with
  | nil => simp [fanLines_nil, reflexes, unseen]
  | cons a pool ih =>
      obtain ⟨ha, hpool⟩ := List.forall_mem_cons.mp hpool
      obtain ⟨haddrs, hports⟩ := ih hpool (i + 1)
      rw [fanLines_cons]
      by_cases hseen : a ∈ seen
      · rw [if_pos hseen, unseen, List.filter_cons_of_neg (by simpa using hseen)]
        exact ⟨haddrs, hports⟩
      · rw [if_neg hseen, reflexes_cons, reflexAt_fanLine ha hport, unseen,
          List.filter_cons_of_pos (by simpa using hseen)]
        refine ⟨?_, ?_⟩
        · rw [Option.toList_some, List.singleton_append, List.map_cons, haddrs]
          rfl
        · rw [Option.toList_some, List.singleton_append, List.forall_mem_cons]
          exact ⟨rfl, hports⟩

end Loop

/-! ## The scan -/

theorem fanScan_eq (inet : Inet) (ls : List Bytes) (st : FanSt) :
    fanScan inet ls st = (reflexes inet ls).foldlM fanNote st := by
  induction ls generalizing st with
  | nil => rfl
  | cons line rest ih =>
      rw [fanScan, reflexes_cons]
      cases reflexAt inet line rest.flatten with
      | none => exact ih st
      | some r =>
          rw [Option.toList_some, List.singleton_append, List.foldlM_cons]
          change (fanNote st r).bind _ = (fanNote st r).bind _
          congr 1
          funext st'
          exact ih st'

/-- Where the candidates agree on the port, the first addresses of them are noted. -/
theorem foldlM_fanNote {port : Int} (rs : List Reflex) (st : FanSt)
    (hrs : ∀ r ∈ rs, r.cand.port = port) (hst : st.port = port ∨ st.port < 0)
    (hseen : st.seen.length ≤ fanSeenMax) :
    ∃ st', rs.foldlM fanNote st = some st' ∧ (rs ≠ [] → st'.port = port) ∧
      st'.seen = (st.seen ++ rs.map Reflex.addr).take fanSeenMax := by
  induction rs generalizing st with
  | nil => exact ⟨st, rfl, fun h => absurd rfl h, by simp [List.take_of_length_le hseen]⟩
  | cons r rs ih =>
      obtain ⟨hr, hrs⟩ := List.forall_mem_cons.mp hrs
      have hagree : ¬(0 ≤ st.port ∧ r.cand.port ≠ st.port) := by
        rintro ⟨hpos, hne⟩
        rcases hst with heq | hneg
        · exact hne (hr.trans heq.symm)
        · omega
      rw [List.foldlM_cons, fanNote, if_neg hagree]
      change ∃ st', rs.foldlM fanNote _ = some st' ∧ _
      obtain ⟨st', hst', hport, hseen'⟩ := ih
        { port := r.cand.port
          prio := if st.prio = 0 ∨ r.cand.prio < st.prio then r.cand.prio else st.prio
          seen := if st.seen.length < fanSeenMax then st.seen ++ [r.addr] else st.seen }
        hrs (Or.inl hr) (by
          dsimp only
          split_ifs
          · rw [List.length_append, List.length_singleton]
            omega
          · exact hseen)
      refine ⟨st', hst', fun _ => ?_, ?_⟩
      · cases rs with
        | nil =>
            cases hst'
            exact hr
        | cons r' rs => exact hport (by simp)
      · rw [hseen', List.map_cons]
        dsimp only
        split_ifs with hroom
        · rw [List.append_assoc, List.singleton_append]
        · rw [List.take_append_of_le_length (by omega), List.take_append_of_le_length (by omega)]

end Sdp
end Comrade
