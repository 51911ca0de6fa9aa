import Comrade.Lib.ScanPrinted
import Comrade.Sdp.CanonRun

/-!
# The loop over the lines

`canonLines` is what the loop of `canon_v6` does to the lines of a description, where each
candidate can be read from its own line: the first global v6 host candidate is given the
source, every other global v6 candidate goes, and every other line stays.

* `canonTurn_stay`, `canonTurn_drop` and `canonTurn_rename` are the three turns, and
  `canonLoop_eq` the whole loop.
* `canonLines_idem`: a second loop changes nothing.
-/

namespace Comrade
namespace Sdp

open Lib Candpack Netstate

/-! ## The source -/

/-- The text of a global v6 address. -/
structure SourceText (inet : Inet) (src6 : Bytes) : Prop where
  word : IsWord src6
  colon : ch ':' ∈ src6
  global : netAddrScope inet src6 = .global

theorem SourceText.sourceGlobal {inet : Inet} {src6 : Bytes} (h : SourceText inet src6) :
    sourceGlobal inet src6 = true := by
  simp [Sdp.sourceGlobal, h.word.ne_nil, h.global]

theorem SourceText.global6 {inet : Inet} {src6 : Bytes} (h : SourceText inet src6)
    (c : CandLine) : CandLine.global6 inet { c with addr := src6 } = true := by
  simp [CandLine.global6, h.colon, h.global]

/-! ## Kinds of lines -/

/-- The line names a candidate at a global v6 address. -/
def global6Line (inet : Inet) (line : Bytes) : Bool := (candAt line).any (·.global6 inet)

/-- The line names a host candidate. -/
def hostLine (line : Bytes) : Bool := (candAt line).any CandLine.isHost

/-- The line names a host candidate at a global v6 address. -/
def global6Host (inet : Inet) (line : Bytes) : Bool :=
  (candAt line).any fun c => c.global6 inet && c.isHost

theorem global6Host_eq_true {inet : Inet} {line : Bytes} : global6Host inet line = true ↔
    ∃ c, candAt line = some c ∧ c.global6 inet = true ∧ c.isHost = true := by
  simp [global6Host, Option.any_eq_true]

theorem global6Line_of_host {inet : Inet} {line : Bytes} (h : global6Host inet line = true) :
    global6Line inet line = true := by
  obtain ⟨c, hc, hglobal, -⟩ := global6Host_eq_true.1 h
  simp [global6Line, hc, hglobal]

theorem hostLine_of_global6Host {inet : Inet} {line : Bytes} (h : global6Host inet line = true) :
    hostLine line = true := by
  obtain ⟨c, hc, -, hhost⟩ := global6Host_eq_true.1 h
  simp [hostLine, hc, hhost]

/-- A candidate whose address stands apart can be read by itself. -/
theorem separate_of_apart {inet : Inet} {line : Bytes} {c : CandLine} (hc : candAt line = some c)
    (h : Apart line c) : Separate inet line where
  whole := by
    intro _ hnone
    rw [hc] at hnone
    cases hnone
  apart := by
    intro c' hc' _ _
    obtain rfl := Option.some.inj (hc.symm.trans hc')
    exact h

/-! ## One turn -/

section Turn

variable {inet : Inet} {g : Gathered} {src6 : Bytes} {cap : Nat} {line rest : Bytes}

/-- What is noted of a line. -/
def noteLine (st : CanonSt) (line : Bytes) : CanonSt := (candAt line).elim st (canonNote st)

@[simp] theorem noteLine_kept6 (st : CanonSt) (line : Bytes) :
    (noteLine st line).kept6 = st.kept6 := by
  unfold noteLine
  cases candAt line <;> rfl

@[simp] theorem noteLine_out (st : CanonSt) (line : Bytes) : (noteLine st line).out = st.out := by
  unfold noteLine
  cases candAt line <;> rfl

/-- A candidate that is stale is at a global v6 address. -/
theorem global6_of_stale {c : CandLine} (hcolon : ch ':' ∈ c.addr)
    (h : v6CandStale inet g c.addr = true) : c.global6 inet = true := by
  unfold v6CandStale at h
  split_ifs at h with hscope
  simpa [CandLine.global6, hcolon] using hscope

/-- The turn, at a line that can be read by itself. -/
theorem canonTurn_eq (hsep : Separate inet line) (hline : Terminated line ∨ rest = [])
    (hsrc : SourceText inet src6) (st : CanonSt) :
    canonTurn inet g src6 cap line rest st =
      if global6Line inet line = true then
        if global6Host inet line = true ∧ st.kept6 = false then
          if (addrSpan (line ++ rest)).1 < (addrSpan (line ++ rest)).2 ∧
              0 < (addrSpan (line ++ rest)).1 ∧ (addrSpan (line ++ rest)).2 ≤ line.length
          then canonRewrite src6 cap (addrSpan (line ++ rest)).1 (addrSpan (line ++ rest)).2 line
            (noteLine st line)
          else canonCopy cap line (noteLine st line)
        else noteLine st line
      else canonCopy cap line (noteLine st line) := by
  have hread := hsep.candAt_append hline
  unfold canonTurn
  dsimp only
  rw [cand_of_key, hread, hsrc.sourceGlobal]
  cases hc : candAt line with
  | none => simp [global6Line, hc, noteLine]
  | some c =>
      have hkept : (canonNote st c).kept6 = st.kept6 := rfl
      cases hglobal : c.global6 inet with
      | false =>
          have hstale : (decide (ch ':' ∈ c.addr) && (c.isHost || c.typ == CandType.srflx.name) &&
              v6CandStale inet g c.addr) = false := by
            by_contra hstale
            rw [Bool.not_eq_false, Bool.and_eq_true, Bool.and_eq_true, decide_eq_true_iff] at hstale
            rw [global6_of_stale hstale.1.1 hstale.2] at hglobal
            cases hglobal
          simp [global6Line, hc, hglobal, hstale, noteLine]
      | true =>
          cases hhost : c.isHost <;> cases hst : st.kept6 <;>
            simp [global6Line, global6Host, hc, hglobal, hhost, hst, noteLine, hkept]

theorem canonTurn_stay (hsep : Separate inet line) (hline : Terminated line ∨ rest = [])
    (hsrc : SourceText inet src6) (hstay : global6Line inet line = false) {st : CanonSt}
    (hroom : st.out.length + line.length < cap) :
    canonTurn inet g src6 cap line rest st =
      { noteLine st line with out := st.out ++ line } := by
  rw [canonTurn_eq hsep hline hsrc, if_neg (by simp [hstay]), canonCopy, noteLine_out,
    if_pos hroom]

theorem canonTurn_drop (hsep : Separate inet line) (hline : Terminated line ∨ rest = [])
    (hsrc : SourceText inet src6) (hglobal : global6Line inet line = true) {st : CanonSt}
    (hdrop : ¬(global6Host inet line = true ∧ st.kept6 = false)) :
    canonTurn inet g src6 cap line rest st = noteLine st line := by
  rw [canonTurn_eq hsep hline hsrc, if_pos hglobal, if_neg hdrop]

theorem canonTurn_rename (hsep : Separate inet line) (hline : Terminated line ∨ rest = [])
    (hsrc : SourceText inet src6) (hhost : global6Host inet line = true) {st : CanonSt}
    (hkept : st.kept6 = false) (hroom : st.out.length + line.length + src6.length < cap) :
    canonTurn inet g src6 cap line rest st =
      { noteLine st line with kept6 := true, out := st.out ++ rename src6 line } := by
  obtain ⟨c, hc, hglobal, hishost⟩ := global6Host_eq_true.1 hhost
  obtain ⟨t, ht⟩ := candAt_eq_some.mp hc
  obtain ⟨before, sp, after, heq, hprio, hne, hsp, hafter⟩ := hsep.apart c hc hglobal hishost
  have hread := ht
  rw [heq] at hread hprio
  obtain ⟨hword, -⟩ := scanCandLine_parts hprio hsp hread
  have hspan : ∀ rest, addrSpan (line ++ rest) =
      ((before ++ sp).length, (before ++ sp ++ c.addr).length) := by
    intro rest
    rw [heq]
    exact addrSpan_parts rest hprio hne hsp hword hafter
  have hself : addrSpan line = ((before ++ sp).length, (before ++ sp ++ c.addr).length) := by
    simpa using hspan []
  have hsp0 := List.length_pos_of_ne_nil hne
  have haddr0 := List.length_pos_of_ne_nil hword.ne_nil
  have hlen : line.length = before.length + sp.length + c.addr.length + after.length := by
    rw [heq]
    simp only [List.length_append]
    omega
  rw [canonTurn_eq hsep hline hsrc, if_pos (global6Line_of_host hhost), if_pos ⟨hhost, hkept⟩,
    hspan, rename, hself]
  simp only [List.length_append]
  rw [if_pos (by omega), canonRewrite, noteLine_out, if_pos (by omega)]

end Turn

/-! ## What is noted -/

/-- The port of the first candidate that has one. -/
def notePort (port : Int) (c : CandLine) : Int := if port < 0 then c.port else port

/-- The highest priority of a host candidate. -/
def notePrio (prio : UInt32) (c : CandLine) : UInt32 :=
  if c.isHost = true ∧ prio < c.prio then c.prio else prio

theorem noteLine_port (st : CanonSt) (line : Bytes) :
    (noteLine st line).port = (candAt line).elim st.port (notePort st.port) := by
  unfold noteLine
  cases candAt line <;> rfl

theorem noteLine_prio (st : CanonSt) (line : Bytes) :
    (noteLine st line).prio = (candAt line).elim st.prio (notePrio st.prio) := by
  unfold noteLine
  cases candAt line <;> rfl

/-- The candidates of a description. -/
def cands (ls : List Bytes) : List CandLine := ls.filterMap candAt

theorem foldl_cands_cons {β : Type} (step : β → CandLine → β) (b : β) (line : Bytes)
    (ls : List Bytes) :
    (cands (line :: ls)).foldl step b = (cands ls).foldl step ((candAt line).elim b (step b)) := by
  rw [cands, List.filterMap_cons]
  cases candAt line <;> rfl

/-- The first candidate with a port has one that is not zero. -/
def HasPort (cs : List CandLine) : Prop :=
  ∃ c, (cs.find? fun c => decide (0 ≤ c.port)) = some c ∧ 0 < c.port

/-- Some host candidate has a priority that is not zero. -/
def HasPrio (cs : List CandLine) : Prop := ∃ c ∈ cs, c.isHost = true ∧ c.prio ≠ 0

theorem foldl_notePort_of_nonneg {port : Int} (h : 0 ≤ port) (cs : List CandLine) :
    cs.foldl notePort port = port := by
  induction cs with
  | nil => rfl
  | cons c cs ih => rw [List.foldl_cons, notePort, if_neg (not_lt.mpr h), ih]

theorem hasPort_iff (cs : List CandLine) {port : Int} (hport : port < 0) :
    0 < cs.foldl notePort port ↔ HasPort cs := by
  induction cs generalizing port with
  | nil =>
      simp only [List.foldl_nil, HasPort, List.find?_nil]
      constructor
      · intro h
        omega
      · rintro ⟨_, h, -⟩
        cases h
  | cons c cs ih =>
      rw [List.foldl_cons, notePort, if_pos hport]
      by_cases hc : 0 ≤ c.port
      · rw [foldl_notePort_of_nonneg hc, HasPort, List.find?_cons_of_pos (by simpa using hc)]
        simp
      · rw [ih (not_le.mp hc), HasPort, HasPort, List.find?_cons_of_neg (by simpa using hc)]

theorem notePrio_ne_zero {prio : UInt32} {c : CandLine} :
    notePrio prio c ≠ 0 ↔ prio ≠ 0 ∨ (c.isHost = true ∧ c.prio ≠ 0) := by
  unfold notePrio
  have hzero : ∀ p : UInt32, p ≠ 0 ↔ 0 < p.toNat := by
    intro p
    rw [ne_eq, ← UInt32.toNat_inj]
    exact Nat.pos_iff_ne_zero.symm
  split_ifs with h
  · have hlt := UInt32.lt_iff_toNat_lt.mp h.2
    simp only [hzero, h.1, true_and]
    omega
  · have hle : c.isHost = true → c.prio.toNat ≤ prio.toNat := fun hhost =>
      not_lt.mp fun hlt => h ⟨hhost, UInt32.lt_iff_toNat_lt.mpr hlt⟩
    simp only [hzero]
    constructor
    · exact Or.inl
    · rintro (hpos | ⟨hhost, hpos⟩)
      · exact hpos
      · exact hpos.trans_le (hle hhost)

theorem hasPrio_iff (cs : List CandLine) (prio : UInt32) :
    cs.foldl notePrio prio ≠ 0 ↔ prio ≠ 0 ∨ HasPrio cs := by
  induction cs generalizing prio with
  | nil => simp [HasPrio]
  | cons c cs ih =>
      rw [List.foldl_cons, ih, notePrio_ne_zero, or_assoc]
      simp [HasPrio]

/-! ## The loop -/

section Loop

variable {inet : Inet} {g : Gathered} {src6 : Bytes} {cap : Nat}

/-- What the loop does to the lines, with `kept` if the source was named before. -/
def canonLines (inet : Inet) (src6 : Bytes) : (kept : Bool) → List Bytes → List Bytes
  | _, [] => []
  | kept, line :: ls =>
      if global6Line inet line = true then
        if global6Host inet line = true ∧ kept = false
        then rename src6 line :: canonLines inet src6 true ls
        else canonLines inet src6 kept ls
      else line :: canonLines inet src6 kept ls

theorem canonLines_nil (kept : Bool) : canonLines inet src6 kept [] = [] := rfl

theorem canonLines_cons (kept : Bool) (line : Bytes) (ls : List Bytes) :
    canonLines inet src6 kept (line :: ls) =
      if global6Line inet line = true then
        if global6Host inet line = true ∧ kept = false
        then rename src6 line :: canonLines inet src6 true ls
        else canonLines inet src6 kept ls
      else line :: canonLines inet src6 kept ls := rfl

/-- The room that the loop needs. -/
def canonRoom (src6 : Bytes) (st : CanonSt) (ls : List Bytes) : Nat :=
  st.out.length + ls.flatten.length + if st.kept6 = true then 0 else src6.length

theorem canonLoop_eq (hsrc : SourceText inet src6) {ls : List Bytes} (hls : IsText ls)
    (hsep : ∀ l ∈ ls, Separate inet l) (st : CanonSt) (hroom : canonRoom src6 st ls < cap) :
    canonLoop inet g src6 cap ls st =
      { kept6 := st.kept6 || ls.any (global6Host inet)
        port := (cands ls).foldl notePort st.port
        prio := (cands ls).foldl notePrio st.prio
        out := st.out ++ (canonLines inet src6 st.kept6 ls).flatten } := by
  induction ls generalizing st with
  | nil => simp [canonLoop, canonLines_nil, cands]
  | cons line ls ih =>
      obtain ⟨hfirst, hsep⟩ := List.forall_mem_cons.mp hsep
      have hline : Terminated line ∨ ls.flatten = [] :=
        hls.1.imp id fun h => by rw [h.1, List.flatten_nil]
      rw [canonRoom, List.flatten_cons, List.length_append] at hroom
      rw [canonLoop, foldl_cands_cons, foldl_cands_cons, ← noteLine_port, ← noteLine_prio,
        List.any_cons, canonLines_cons]
      cases hglobal : global6Line inet line with
      | false =>
          have hhost : global6Host inet line = false := by
            by_contra h
            rw [global6Line_of_host (Bool.not_eq_false _ ▸ h)] at hglobal
            cases hglobal
          rw [canonTurn_stay hfirst hline hsrc hglobal (by omega), ih hls.2 hsep]
          · simp [hhost]
          · simp only [canonRoom, List.length_append, noteLine_kept6]
            omega
      | true =>
          by_cases hname : global6Host inet line = true ∧ st.kept6 = false
          · obtain ⟨hhost, hkept⟩ := hname
            rw [hkept, if_neg Bool.false_ne_true] at hroom
            obtain ⟨c, hc, hsix, hishost⟩ := global6Host_eq_true.mp hhost
            have hren := renamed hsrc.word hc (hfirst.apart c hc hsix hishost)
            have hlen := hren.length
            rw [canonTurn_rename hfirst hline hsrc hhost hkept (by omega), ih hls.2 hsep]
            · simp [hhost, hkept]
            · simp only [canonRoom, List.length_append, if_true]
              omega
          · rw [canonTurn_drop hfirst hline hsrc hglobal hname, ih hls.2 hsep]
            · have hany : (st.kept6 || (global6Host inet line || ls.any (global6Host inet))) =
                  (st.kept6 || ls.any (global6Host inet)) := by
                cases hk : st.kept6 with
                | true => rfl
                | false =>
                    have hno : global6Host inet line = false := by
                      rw [← Bool.not_eq_true]
                      exact fun hhost => hname ⟨hhost, hk⟩
                    rw [hno, Bool.false_or]
              simp [hany, hname]
            · simp only [canonRoom, noteLine_kept6, noteLine_out]
              omega

end Loop

/-! ## The lines that come out -/

section Out

variable {inet : Inet} {src6 : Bytes} {ls : List Bytes}

/-- The line that is given the source. -/
theorem renamed_of_host (hsrc : SourceText inet src6) {line : Bytes} (hsep : Separate inet line)
    (hhost : global6Host inet line = true) :
    ∃ c, Renamed src6 line c (rename src6 line) ∧ c.isHost = true := by
  obtain ⟨c, hc, hglobal, hishost⟩ := global6Host_eq_true.mp hhost
  exact ⟨c, renamed hsrc.word hc (hsep.apart c hc hglobal hishost), hishost⟩

theorem Renamed.global6Host (hsrc : SourceText inet src6) {line line' : Bytes} {c : CandLine}
    (h : Renamed src6 line c line') (hhost : c.isHost = true) :
    Sdp.global6Host inet line' = true :=
  global6Host_eq_true.mpr ⟨_, h.cand, hsrc.global6 c, hhost⟩

/-- With the source named, or none to name it at, the global v6 candidates go. -/
theorem canonLines_eq_filter {kept : Bool} (h : kept = true ∨ ls.any (global6Host inet) = false) :
    canonLines inet src6 kept ls = ls.filter fun l => !global6Line inet l := by
  induction ls with
  | nil => rfl
  | cons line ls ih =>
      have hrest : kept = true ∨ ls.any (global6Host inet) = false := by
        refine h.imp_right fun hany => ?_
        rw [List.any_cons, Bool.or_eq_false_iff] at hany
        exact hany.2
      have hnot : ¬(global6Host inet line = true ∧ kept = false) := by
        rintro ⟨hhost, hkept⟩
        rcases h with htrue | hany
        · rw [htrue] at hkept
          cases hkept
        · rw [List.any_cons, hhost, Bool.true_or] at hany
          cases hany
      rw [canonLines_cons, if_neg hnot, ih hrest]
      cases hglobal : global6Line inet line <;> simp [hglobal]

/-- Lines without a global v6 candidate stay, whatever stands behind them. -/
theorem canonLines_append {xs : List Bytes} (h : ∀ l ∈ xs, global6Line inet l = false)
    (kept : Bool) (ys : List Bytes) :
    canonLines inet src6 kept (xs ++ ys) = xs ++ canonLines inet src6 kept ys := by
  induction xs with
  | nil => rfl
  | cons x xs ih =>
      obtain ⟨hx, hxs⟩ := List.forall_mem_cons.mp h
      rw [List.cons_append, canonLines_cons, if_neg (by simp [hx]), ih hxs]
      rfl

/-- Every other line stays. -/
theorem filter_canonLines (hsrc : SourceText inet src6) (hsep : ∀ l ∈ ls, Separate inet l)
    (kept : Bool) :
    (canonLines inet src6 kept ls).filter (fun l => !global6Line inet l) =
      ls.filter fun l => !global6Line inet l := by
  induction ls generalizing kept with
  | nil => rfl
  | cons line ls ih =>
      obtain ⟨hfirst, hsep⟩ := List.forall_mem_cons.mp hsep
      rw [canonLines_cons]
      cases hglobal : global6Line inet line with
      | false => simp [hglobal, ih hsep]
      | true =>
          rw [if_pos rfl, List.filter_cons_of_neg (by simp [hglobal])]
          split_ifs with hname
          · obtain ⟨c, hren, hhost⟩ := renamed_of_host hsrc hfirst hname.1
            have hline := global6Line_of_host (hren.global6Host hsrc hhost)
            rw [List.filter_cons_of_neg (by simp [hline]), ih hsep]
          · exact ih hsep kept

/-- If there is one to name the source at, it is named at one line and no other. -/
theorem canonLines_named (hsrc : SourceText inet src6) (hsep : ∀ l ∈ ls, Separate inet l)
    (hany : ls.any (global6Host inet) = true) :
    ∃ line c, (canonLines inet src6 false ls).filter (global6Line inet) = [line] ∧
      candAt line = some c ∧ c.addr = src6 ∧ c.isHost = true := by
  induction ls with
  | nil => cases hany
  | cons line ls ih =>
      obtain ⟨hfirst, hsep⟩ := List.forall_mem_cons.mp hsep
      rw [canonLines_cons]
      by_cases hhost : global6Host inet line = true
      · obtain ⟨c, hren, hishost⟩ := renamed_of_host hsrc hfirst hhost
        have hline := global6Line_of_host (hren.global6Host hsrc hishost)
        refine ⟨rename src6 line, { c with addr := src6 }, ?_, hren.cand, rfl, hishost⟩
        rw [if_pos (global6Line_of_host hhost), if_pos ⟨hhost, rfl⟩,
          List.filter_cons_of_pos hline, canonLines_eq_filter (Or.inl rfl), List.filter_filter]
        simp
      · have hrest : ls.any (global6Host inet) = true := by
          rw [List.any_cons, Bool.or_eq_true] at hany
          exact hany.resolve_left hhost
        split_ifs with hglobal hname
        · exact absurd hname.1 hhost
        · exact ih hsep hrest
        · rw [List.filter_cons_of_neg hglobal]
          exact ih hsep hrest

theorem separate_canonLines (hsrc : SourceText inet src6) (hsep : ∀ l ∈ ls, Separate inet l)
    (kept : Bool) : ∀ l ∈ canonLines inet src6 kept ls, Separate inet l := by
  induction ls generalizing kept with
  | nil => simp [canonLines_nil]
  | cons line ls ih =>
      obtain ⟨hfirst, hsep⟩ := List.forall_mem_cons.mp hsep
      rw [canonLines_cons]
      split_ifs with hglobal hname
      · obtain ⟨c, hren, -⟩ := renamed_of_host hsrc hfirst hname.1
        rw [List.forall_mem_cons]
        exact ⟨separate_of_apart hren.cand hren.apart, ih hsep true⟩
      · exact ih hsep kept
      · rw [List.forall_mem_cons]
        exact ⟨hfirst, ih hsep kept⟩

theorem isText_canonLines (hsrc : SourceText inet src6) (hsep : ∀ l ∈ ls, Separate inet l)
    (hls : IsText ls) (kept : Bool) : IsText (canonLines inet src6 kept ls) := by
  induction ls generalizing kept with
  | nil => trivial
  | cons line ls ih =>
      obtain ⟨hfirst, hsep⟩ := List.forall_mem_cons.mp hsep
      rw [canonLines_cons]
      split_ifs with hglobal hname
      · obtain ⟨c, hren, -⟩ := renamed_of_host hsrc hfirst hname.1
        refine ⟨hls.1.imp hren.terminated ?_, ih hsep hls.2 true⟩
        rintro ⟨rfl, hun⟩
        exact ⟨rfl, hren.unterminated hun⟩
      · exact ih hsep hls.2 kept
      · refine ⟨hls.1.imp_right ?_, ih hsep hls.2 kept⟩
        rintro ⟨rfl, hun⟩
        exact ⟨rfl, hun⟩

theorem length_canonLines (hsrc : SourceText inet src6) (hsep : ∀ l ∈ ls, Separate inet l)
    (kept : Bool) : (canonLines inet src6 kept ls).flatten.length ≤
      ls.flatten.length + if kept = true then 0 else src6.length := by
  induction ls generalizing kept with
  | nil => simp [canonLines_nil]
  | cons line ls ih =>
      obtain ⟨hfirst, hsep⟩ := List.forall_mem_cons.mp hsep
      have hrest := ih hsep kept
      rw [canonLines_cons, List.flatten_cons, List.length_append]
      by_cases hglobal : global6Line inet line = true
      · rw [if_pos hglobal]
        by_cases hname : global6Host inet line = true ∧ kept = false
        · obtain ⟨c, hren, -⟩ := renamed_of_host hsrc hfirst hname.1
          have hlen := hren.length
          have htrue := ih hsep true
          rw [if_pos rfl] at htrue
          rw [if_pos hname, hname.2, if_neg Bool.false_ne_true, List.flatten_cons,
            List.length_append]
          omega
        · rw [if_neg hname]
          omega
      · rw [if_neg hglobal, List.flatten_cons, List.length_append]
        omega

/-- A second loop changes nothing. -/
theorem canonLines_idem (hsrc : SourceText inet src6) (hsep : ∀ l ∈ ls, Separate inet l)
    (kept : Bool) : canonLines inet src6 kept (canonLines inet src6 kept ls) =
      canonLines inet src6 kept ls := by
  induction ls generalizing kept with
  | nil => rfl
  | cons line ls ih =>
      obtain ⟨hfirst, hsep⟩ := List.forall_mem_cons.mp hsep
      rw [canonLines_cons]
      split_ifs with hglobal hname
      · obtain ⟨c, hren, hishost⟩ := renamed_of_host hsrc hfirst hname.1
        have hhost := hren.global6Host hsrc hishost
        rw [canonLines_cons, if_pos (global6Line_of_host hhost), if_pos ⟨hhost, hname.2⟩,
          ih hsep true, rename_self hren.cand hren.apart]
      · exact ih hsep kept
      · rw [canonLines_cons, if_neg hglobal, ih hsep kept]

end Out

end Sdp
end Comrade
