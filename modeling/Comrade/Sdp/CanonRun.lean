import Comrade.Lib.ScanPrinted
import Comrade.Sdp.Canon

/-!
# Reading and rewriting a candidate

* `Separate` is that a line can be read by itself: none that was cut short is completed by the
  lines that follow, and the address to be replaced stands between white space.
* `rename` puts the source in place of the address, and `renamed` says what comes of the line:
  the same candidate at the source, on the same line.
-/

namespace Comrade
namespace Sdp

open Lib Candpack Netstate

/-! ## Reading a candidate -/

theorem local_scanToTransport : Local scanToTransport :=
  .bind (local_scanText _) fun _ => .bind local_scanSkip fun _ => .bind local_scanSpace fun _ =>
    .bind local_scanInt fun _ => .bind local_scanSpace fun _ => local_scanSkip

theorem local_scanToPrio : Local scanToPrio :=
  .bind local_scanToTransport fun _ => .bind local_scanSpace fun _ => local_scanUnsigned

theorem local_scanPortTyp : Local scanPortTyp :=
  .bind local_scanSpace fun _ => .bind local_scanInt fun _ => .bind local_scanSpace fun _ =>
    .bind (local_scanText _) fun _ => .bind local_scanSpace fun _ =>
      .bind (local_scanWord (by decide)) fun _ => local_pure _

theorem local_scanFromAddr (prio : UInt32) : Local (scanFromAddr prio) :=
  .bind (local_scanWord (by decide)) fun _ => .bind local_scanPortTyp fun _ => local_pure _

theorem local_scanCandLine : Local scanCandLine :=
  .bind local_scanToPrio fun prio => .bind local_scanSpace fun _ => local_scanFromAddr prio

theorem endsInWord_scanPortTyp : EndsInWord scanPortTyp :=
  .bind local_scanSpace fun _ => .bind local_scanInt fun _ => .bind local_scanSpace fun _ =>
    .bind (local_scanText _) fun _ => .bind local_scanSpace fun _ =>
      (endsInWord_scanWord (by decide)).map _

theorem endsInWord_scanCandLine : EndsInWord scanCandLine :=
  .bind local_scanToPrio fun _ => .bind local_scanSpace fun _ =>
    .bind (local_scanWord (by decide)) fun _ => .map endsInWord_scanPortTyp _

theorem not_space_typ : ∀ c ∈ ascii "typ".toList, isSpace c = false :=
  not_space_ascii rfl

theorem typ_ne_nil : ascii "typ".toList ≠ [] := by simp [ascii]

theorem not_space_udp : ∀ c ∈ ascii "UDP".toList, isSpace c = false :=
  not_space_ascii rfl

theorem udp_ne_nil : ascii "UDP".toList ≠ [] := by simp [ascii]

/-- The end of a candidate that was printed. -/
theorem scanPortTyp_printed {port : Nat} (hport : port < 2 ^ 31) {typ rest : Bytes}
    (htyp : ∀ d ∈ typ, isSpace d = false) (hne : typ ≠ []) (hle : typ.length ≤ 15)
    (hrest : Stops (fun d => !isSpace d) rest) :
    scanPortTyp (ch ' ' :: (decimal port ++ ch ' ' :: (ascii "typ".toList ++
        ch ' ' :: (typ ++ rest)))) = some (((port : Int), typ), rest) := by
  have hword : scanWord 15 (typ ++ rest) = some (typ, rest) :=
    (scanWord_iff (by decide)).mpr ⟨[], rfl, by simp, htyp, hne, hle, fun _ => hrest⟩
  unfold scanPortTyp
  rw [bind_of_read (scanSpace_of_word (not_space_decimal port) (decimal_ne_nil port)),
    bind_of_read (scanInt_decimal hport _),
    bind_of_read (scanSpace_of_word not_space_typ typ_ne_nil),
    bind_of_read (scanText_iff.mpr rfl),
    bind_of_read (scanSpace_of_word htyp hne), bind_of_read hword]
  rfl

/-- The port of a candidate is an `int`. -/
theorem scanFromAddr_port {s t : Bytes} {prio : UInt32} {c : CandLine}
    (h : scanFromAddr prio s = some (c, t)) : c.port < 2 ^ 31 := by
  obtain ⟨_, _, -, h⟩ := scan_bind_iff.mp h
  obtain ⟨_, _, hport, hpure⟩ := scan_bind_iff.mp h
  obtain ⟨rfl, -⟩ := Prod.mk.inj (Option.some.inj hpure)
  obtain ⟨_, _, -, h⟩ := scan_bind_iff.mp hport
  obtain ⟨_, _, hint, h⟩ := scan_bind_iff.mp h
  obtain ⟨_, _, -, h⟩ := scan_bind_iff.mp h
  obtain ⟨_, _, -, h⟩ := scan_bind_iff.mp h
  obtain ⟨_, _, -, h⟩ := scan_bind_iff.mp h
  obtain ⟨_, _, -, hpure⟩ := scan_bind_iff.mp h
  obtain ⟨rfl, -⟩ := Prod.mk.inj (Option.some.inj hpure)
  exact scanInt_lt hint

theorem candAt_eq_some {text : Bytes} {c : CandLine} :
    candAt text = some c ↔ ∃ t, scanCandLine text = some (c, t) := by
  unfold candAt
  rw [Option.map_eq_some_iff]
  exact ⟨fun ⟨⟨_, t⟩, h, rfl⟩ => ⟨t, h⟩, fun ⟨t, h⟩ => ⟨(c, t), h, rfl⟩⟩

theorem candAt_port {text : Bytes} {c : CandLine} (h : candAt text = some c) : c.port < 2 ^ 31 := by
  obtain ⟨t, h⟩ := candAt_eq_some.1 h
  obtain ⟨_, _, -, h⟩ := scan_bind_iff.mp h
  obtain ⟨_, _, -, h⟩ := scan_bind_iff.mp h
  exact scanFromAddr_port h

/-- A text that begins with a candidate begins with its key. -/
theorem prefix_of_candAt {text : Bytes} {c : CandLine} (h : candAt text = some c) :
    candKey.isPrefixOf text = true := by
  obtain ⟨t, h⟩ := candAt_eq_some.1 h
  obtain ⟨_, _, h, -⟩ := scan_bind_iff.mp h
  obtain ⟨_, _, h, -⟩ := scan_bind_iff.mp h
  obtain ⟨_, _, h, -⟩ := scan_bind_iff.mp h
  obtain rfl := scanText_iff.mp h
  exact List.isPrefixOf_iff_prefix.mpr (List.prefix_append _ _)

/-- The test for the key adds nothing. -/
theorem cand_of_key (text : Bytes) :
    (if candKey.isPrefixOf text = true then candAt text else none) = candAt text := by
  split
  · rfl
  · rename_i hpre
    cases h : candAt text with
    | none => rfl
    | some c => exact absurd (prefix_of_candAt h) hpre

/-! ## Lines that can be read by themselves -/

/-- The candidate's address stands between white space, behind its priority. -/
def Apart (line : Bytes) (c : CandLine) : Prop :=
  ∃ before sp after, line = before ++ (sp ++ (c.addr ++ after)) ∧
    scanToPrio line = some (c.prio, sp ++ (c.addr ++ after)) ∧
    sp ≠ [] ∧ (∀ d ∈ sp, isSpace d = true) ∧ ∃ d ∈ after.head?, isSpace d = true

/-- A line can be read by itself: if it was cut short, nothing that follows completes it, and
the address of a global v6 host candidate stands apart. -/
structure Separate (inet : Inet) (line : Bytes) : Prop where
  whole : Terminated line → candAt line = none → ∀ rest, candAt (line ++ rest) = none
  apart : ∀ c, candAt line = some c → c.global6 inet = true → c.isHost = true → Apart line c

/-- What is read past the end of such a line is what is read of the line. -/
theorem Separate.candAt_append {inet : Inet} {line rest : Bytes} (h : Separate inet line)
    (hline : Terminated line ∨ rest = []) : candAt (line ++ rest) = candAt line := by
  rcases hline with hline | rfl
  · cases hc : candAt line with
    | none => exact h.whole hline hc rest
    | some c =>
        obtain ⟨t, ht⟩ := candAt_eq_some.1 hc
        obtain ⟨b, rfl, -⟩ := hline
        have hne := endsInWord_scanCandLine.left_ne_nil ht (by decide)
        obtain ⟨x, hx, hlocal⟩ := local_scanCandLine _ _ _ ht
        obtain ⟨d, t', rfl⟩ := List.exists_cons_of_ne_nil hne
        rw [hx, List.append_assoc, List.cons_append]
        exact candAt_eq_some.2 ⟨_, hlocal d t' rfl _⟩
  · rw [List.append_nil]

/-- What stands where an address can stand. -/
structure IsWord (a : Bytes) : Prop where
  ne_nil : a ≠ []
  not_space : ∀ d ∈ a, isSpace d = false
  length_le : a.length ≤ 63

theorem IsWord.stops {a : Bytes} (h : IsWord a) (t : Bytes) : Stops isSpace (a ++ t) := by
  obtain ⟨d, a, rfl⟩ := List.exists_cons_of_ne_nil h.ne_nil
  exact stops_cons.mpr (h.not_space d List.mem_cons_self)

section Parts

variable {before sp addr after t : Bytes} {prio : UInt32}

/-- A candidate, put together from its parts. -/
theorem scanCandLine_of_parts {port : Int} {typ : Bytes}
    (hprio : scanToPrio (before ++ (sp ++ (addr ++ after))) = some (prio, sp ++ (addr ++ after)))
    (hsp : ∀ d ∈ sp, isSpace d = true) (haddr : IsWord addr)
    (hafter : ∃ d ∈ after.head?, isSpace d = true)
    (hrest : scanPortTyp after = some ((port, typ), t)) :
    scanCandLine (before ++ (sp ++ (addr ++ after))) = some (⟨prio, addr, port, typ⟩, t) := by
  have hstop : Stops (fun d => !isSpace d) after := by
    obtain ⟨d, hd, hspace⟩ := hafter
    intro d' hd'
    obtain rfl : d = d' := Option.some.inj (hd.symm.trans hd')
    simp [hspace]
  have hspace : scanSpace (sp ++ (addr ++ after)) = some ((), addr ++ after) :=
    scanSpace_iff.mpr ⟨sp, rfl, hsp, haddr.stops after⟩
  have hword : scanWord 63 (addr ++ after) = some (addr, after) :=
    (scanWord_iff (by decide)).mpr
      ⟨[], rfl, by simp, haddr.not_space, haddr.ne_nil, haddr.length_le, fun _ => hstop⟩
  exact scan_bind_iff.mpr ⟨prio, _, hprio, scan_bind_iff.mpr ⟨(), _, hspace,
    scan_bind_iff.mpr ⟨addr, after, hword, scan_bind_iff.mpr ⟨(port, typ), t, hrest, rfl⟩⟩⟩⟩

/-- And taken apart. -/
theorem scanCandLine_parts {c : CandLine}
    (hprio : scanToPrio (before ++ (sp ++ (c.addr ++ after))) =
      some (prio, sp ++ (c.addr ++ after)))
    (hsp : ∀ d ∈ sp, isSpace d = true)
    (h : scanCandLine (before ++ (sp ++ (c.addr ++ after))) = some (c, t)) :
    IsWord c.addr ∧ scanPortTyp after = some ((c.port, c.typ), t) := by
  obtain ⟨prio', u, hu, h⟩ := scan_bind_iff.mp h
  obtain ⟨rfl, rfl⟩ := Prod.mk.inj (Option.some.inj (hprio.symm.trans hu))
  obtain ⟨_, v, hv, h⟩ := scan_bind_iff.mp h
  obtain ⟨a, w, hw, h⟩ := scan_bind_iff.mp h
  obtain ⟨⟨port, typ⟩, t', hrest, hpure⟩ := scan_bind_iff.mp h
  obtain ⟨hc, rfl⟩ := Prod.mk.inj (Option.some.inj hpure)
  obtain ⟨sp', hsplit, hsp', haddr, hne, hle, -⟩ := (scanWord_iff (by decide)).mp hw
  have ha : c.addr = a := by rw [← hc]
  have hword : IsWord c.addr := ⟨ha ▸ hne, ha ▸ haddr, ha ▸ hle⟩
  refine ⟨hword, ?_⟩
  -- the word that was read is the one that stands there
  have hv' : v = c.addr ++ after := by
    have hread := scanSpace_iff.mpr ⟨sp, rfl, hsp, hword.stops after⟩
    exact (Prod.mk.inj (Option.some.inj (hv.symm.trans hread))).2
  have hnil : sp' = [] := by
    cases sp' with
    | nil => rfl
    | cons d sp' =>
        have hstop := hword.stops after
        rw [← hv', hsplit, List.cons_append, stops_cons, hsp' d List.mem_cons_self] at hstop
        exact Bool.noConfusion hstop
  rw [hnil, List.nil_append, hv', ha, List.append_cancel_left_eq] at hsplit
  rw [hsplit, hrest, ← hc]

/-- The priority is read alike whatever stands behind the white space that follows it. -/
theorem scanToPrio_replace {s s' : Bytes} (hsp : sp ≠ [])
    (h : scanToPrio (before ++ (sp ++ s)) = some (prio, sp ++ s)) :
    scanToPrio (before ++ (sp ++ s')) = some (prio, sp ++ s') := by
  obtain ⟨x, hx, hlocal⟩ := local_scanToPrio _ _ _ h
  obtain rfl := List.append_cancel_right hx
  obtain ⟨d, sp, rfl⟩ := List.exists_cons_of_ne_nil hsp
  exact hlocal d (sp ++ s) rfl (sp ++ s')

/-- The offsets of an address that stands apart, with anything behind the line. -/
theorem addrSpan_parts (rest : Bytes)
    (hprio : scanToPrio (before ++ (sp ++ (addr ++ after))) = some (prio, sp ++ (addr ++ after)))
    (hne : sp ≠ []) (hsp : ∀ d ∈ sp, isSpace d = true) (haddr : IsWord addr)
    (hafter : ∃ d ∈ after.head?, isSpace d = true) :
    addrSpan (before ++ (sp ++ (addr ++ after)) ++ rest) =
      ((before ++ sp).length, (before ++ sp ++ addr).length) := by
  have hstop : Stops (fun d => !isSpace d) (after ++ rest) := by
    obtain ⟨d, hd, hspace⟩ := hafter
    obtain ⟨after', rfl⟩ := List.head?_eq_some_iff.mp hd
    rw [List.cons_append]
    simp [hspace]
  have hprio' : scanToPrio (before ++ (sp ++ (addr ++ (after ++ rest)))) =
      some (prio, sp ++ (addr ++ (after ++ rest))) := scanToPrio_replace hne hprio
  have hspace : scanSpace (sp ++ (addr ++ (after ++ rest))) = some ((), addr ++ (after ++ rest)) :=
    scanSpace_iff.mpr ⟨sp, rfl, hsp, haddr.stops _⟩
  have hskip : scanSkip (addr ++ (after ++ rest)) = some ((), after ++ rest) :=
    scanSkip_iff.mpr ⟨[], addr, rfl, by simp, haddr.not_space, haddr.ne_nil, hstop⟩
  have htext : before ++ (sp ++ (addr ++ after)) ++ rest =
      before ++ (sp ++ (addr ++ (after ++ rest))) := by simp
  have hfront : (do let _ ← scanToPrio; scanSpace : Scan Unit)
      (before ++ (sp ++ (addr ++ (after ++ rest)))) = some ((), addr ++ (after ++ rest)) :=
    scan_bind_iff.mpr ⟨prio, _, hprio', hspace⟩
  rw [htext, addrSpan, hfront]
  simp only [hskip, List.length_append, Prod.mk.injEq]
  omega

end Parts

/-! ## The source in place of the address -/

/-- The line, given the source in place of its address. -/
def rename (src6 line : Bytes) : Bytes :=
  line.take (addrSpan line).1 ++ src6 ++ line.drop (addrSpan line).2

/-- What comes of the parts of a line that is given the source. -/
structure Renamed (src6 line : Bytes) (c : CandLine) (line' : Bytes) : Prop where
  cand : candAt line' = some { c with addr := src6 }
  apart : Apart line' { c with addr := src6 }
  terminated : Terminated line → Terminated line'
  unterminated : Unterminated line → Unterminated line'
  length : line'.length + c.addr.length = line.length + src6.length

theorem nl_not_mem {a : Bytes} (h : IsWord a) : nl ∉ a := by
  intro hmem
  have := h.not_space nl hmem
  exact absurd this (by decide)

/-- The source stands where the address stood. -/
theorem rename_parts {before sp addr after : Bytes} {prio : UInt32} (src6 : Bytes)
    (hprio : scanToPrio (before ++ (sp ++ (addr ++ after))) = some (prio, sp ++ (addr ++ after)))
    (hne : sp ≠ []) (hsp : ∀ d ∈ sp, isSpace d = true) (haddr : IsWord addr)
    (hafter : ∃ d ∈ after.head?, isSpace d = true) :
    rename src6 (before ++ (sp ++ (addr ++ after))) = before ++ (sp ++ (src6 ++ after)) := by
  have hspan := addrSpan_parts [] hprio hne hsp haddr hafter
  rw [List.append_nil] at hspan
  have htake : before ++ (sp ++ (addr ++ after)) = (before ++ sp) ++ (addr ++ after) := by
    simp
  have hdrop : before ++ (sp ++ (addr ++ after)) = (before ++ sp ++ addr) ++ after := by
    simp
  rw [rename, hspan]
  simp only
  rw [hdrop, List.drop_left, ← hdrop, htake, List.take_left]
  simp

/-- A candidate that is at the source stays as it is. -/
theorem rename_self {line : Bytes} {c : CandLine} (hc : candAt line = some c) (h : Apart line c) :
    rename c.addr line = line := by
  obtain ⟨t, ht⟩ := candAt_eq_some.1 hc
  obtain ⟨before, sp, after, rfl, hprio, hne, hsp, hafter⟩ := h
  obtain ⟨hword, -⟩ := scanCandLine_parts hprio hsp ht
  exact rename_parts c.addr hprio hne hsp hword hafter

theorem renamed {src6 line : Bytes} {c : CandLine} (hsrc : IsWord src6) (hc : candAt line = some c)
    (h : Apart line c) : Renamed src6 line c (rename src6 line) := by
  obtain ⟨t, ht⟩ := candAt_eq_some.1 hc
  obtain ⟨before, sp, after, rfl, hprio, hne, hsp, hafter⟩ := h
  obtain ⟨hword, hrest⟩ := scanCandLine_parts hprio hsp ht
  rw [rename_parts src6 hprio hne hsp hword hafter]
  have hprio' : scanToPrio (before ++ (sp ++ (src6 ++ after))) =
      some (c.prio, sp ++ (src6 ++ after)) := scanToPrio_replace hne hprio
  refine ⟨?_, ?_, ?_, ?_, ?_⟩
  · exact candAt_eq_some.2 ⟨t, scanCandLine_of_parts hprio' hsp hsrc hafter hrest⟩
  · exact ⟨before, sp, after, rfl, hprio', hne, hsp, hafter⟩
  · have hend : after ≠ [] := by
      rintro rfl
      simp at hafter
    have hassoc : ∀ a, before ++ (sp ++ (a ++ after)) = (before ++ sp ++ a) ++ after := by simp
    rw [hassoc, hassoc, terminated_append_iff hend, terminated_append_iff hend]
    rintro ⟨hnl, hterm⟩
    simp only [List.mem_append, not_or] at hnl ⊢
    exact ⟨⟨hnl.1, nl_not_mem hsrc⟩, hterm⟩
  · rintro ⟨_, hnl⟩
    refine ⟨by simp [hsrc.ne_nil], ?_⟩
    simp only [List.mem_append, not_or] at hnl ⊢
    exact ⟨hnl.1, hnl.2.1, nl_not_mem hsrc, hnl.2.2.2⟩
  · simp only [List.length_append]
    omega

end Sdp
end Comrade
