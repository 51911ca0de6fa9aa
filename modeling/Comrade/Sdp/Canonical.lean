import Comrade.Sdp.CanonLines

/-!
# What a canonical description holds

Where no line names a global v6 host candidate the source is put in on a line of its own, and
that line is put in right behind the last: one that does not end with a newline is spoiled by
it, and so is the candidate on it.

* `Canonical` is what `canon_v6` is meant to do.
* `canonical_iff`: it does so exactly when the source can be named, and named on a line of its
  own (`Nameable`).
-/

namespace Comrade
namespace Sdp

open Lib Candpack Netstate

/-! ## The line put in -/

section Line

variable {inet : Inet} {src6 : Bytes} {port : Nat}

/-- The line put in, up to its priority. -/
def v6srcFront (prio : UInt32) : Bytes :=
  candKey ++ (ascii "v6src".toList ++ ch ' ' :: (decimal 1 ++ ch ' ' :: (ascii "UDP".toList ++
    ch ' ' :: decimal prio.toNat)))

/-- The line put in, behind its address. -/
def v6srcBack (port : Nat) : Bytes :=
  ch ' ' :: (decimal port ++ ch ' ' :: (ascii "typ".toList ++
    ch ' ' :: (CandType.host.name ++ [nl])))

theorem v6srcLine_eq (prio : UInt32) (src6 : Bytes) (port : Nat) :
    v6srcLine prio src6 port = v6srcFront prio ++ ([ch ' '] ++ (src6 ++ v6srcBack port)) := by
  have hkey : ascii "a=candidate:v6src 1 UDP ".toList = candKey ++ (ascii "v6src".toList ++
      ch ' ' :: (decimal 1 ++ ch ' ' :: (ascii "UDP".toList ++ [ch ' ']))) := by rfl
  have hsp : ascii " ".toList = [ch ' '] := by rfl
  have htail : ascii " typ host\n".toList =
      ch ' ' :: (ascii "typ".toList ++ ch ' ' :: (CandType.host.name ++ [nl])) := by
    rfl
  rw [v6srcLine, v6srcFront, v6srcBack, hkey, hsp, htail]
  simp only [List.cons_append, List.append_assoc, List.nil_append]

theorem scanToPrio_v6src (prio : UInt32) (t : Bytes) :
    scanToPrio (v6srcFront prio ++ ([ch ' '] ++ t)) = some (prio, [ch ' '] ++ t) := by
  have htransport : ∀ t, scanToTransport (candKey ++ (ascii "v6src".toList ++ ch ' ' ::
      (decimal 1 ++ ch ' ' :: (ascii "UDP".toList ++ ch ' ' :: t)))) = some ((), ch ' ' :: t) := by
    intro t
    unfold scanToTransport
    rw [bind_of_read (scanText_iff.mpr rfl),
      bind_of_read (scanSkip_of_word (not_space_ascii rfl) (by simp [ascii])),
      bind_of_read (scanSpace_of_word (not_space_decimal 1) (decimal_ne_nil 1)),
      bind_of_read (scanInt_decimal (by norm_num) _),
      bind_of_read (scanSpace_of_word not_space_udp udp_ne_nil)]
    exact scanSkip_of_word not_space_udp udp_ne_nil
  unfold scanToPrio v6srcFront
  simp only [List.cons_append, List.append_assoc, List.nil_append]
  rw [bind_of_read (htransport _),
    bind_of_read (scanSpace_of_word (not_space_decimal _) (decimal_ne_nil _))]
  exact scanUnsigned_decimal prio t

theorem apart_v6srcLine (prio : UInt32) (hport : port < 2 ^ 31) (hsrc : IsWord src6) :
    candAt (v6srcLine prio src6 port) = some ⟨prio, src6, port, CandType.host.name⟩ ∧
      Apart (v6srcLine prio src6 port) ⟨prio, src6, port, CandType.host.name⟩ := by
  have hsp : ∀ d ∈ [ch ' '], isSpace d = true := by
    rw [List.forall_mem_singleton]
    decide
  have hback : ∃ d ∈ (v6srcBack port).head?, isSpace d = true := ⟨ch ' ', rfl, by decide⟩
  have hrest : scanPortTyp (v6srcBack port) = some (((port : Int), CandType.host.name), [nl]) :=
    scanPortTyp_printed hport (not_space_ascii rfl) (by simp [CandType.name, ascii])
      (by simp [CandType.name, ascii])
      (stops_cons.mpr (by decide))
  have hprio := scanToPrio_v6src prio (src6 ++ v6srcBack port)
  rw [v6srcLine_eq]
  exact ⟨candAt_eq_some.mpr ⟨_, scanCandLine_of_parts hprio hsp hsrc hback hrest⟩,
    ⟨_, _, _, rfl, hprio, by simp, hsp, hback⟩⟩

theorem terminated_v6srcLine (prio : UInt32) (port : Nat) (hsrc : IsWord src6) :
    Terminated (v6srcLine prio src6 port) := by
  have hdec : ∀ n, nl ∉ decimal n := by
    intro n hmem
    exact absurd (isDigit_of_mem_decimal hmem) (by decide)
  have hkey : nl ∉ ascii "a=candidate:v6src 1 UDP ".toList := not_mem_ascii rfl
  have hsp : nl ∉ ascii " ".toList := not_mem_ascii rfl
  have hend : nl ∉ ascii " typ host".toList := not_mem_ascii rfl
  have htail : ascii " typ host\n".toList = ascii " typ host".toList ++ [nl] := by rfl
  refine ⟨ascii "a=candidate:v6src 1 UDP ".toList ++ (decimal prio.toNat ++ (ascii " ".toList ++
    (src6 ++ (ascii " ".toList ++ (decimal port ++ ascii " typ host".toList))))), ?_, ?_⟩
  · rw [v6srcLine, htail]
    simp only [List.append_assoc]
  · simp only [List.mem_append, hkey, hdec, hsp, nl_not_mem hsrc, hend, or_self,
      not_false_eq_true]

theorem length_v6srcLine (src6 : Bytes) (prio : UInt32) (hport : port < 2 ^ 31) :
    (v6srcLine prio src6 port).length ≤ src6.length + 56 := by
  have hkey : (ascii "a=candidate:v6src 1 UDP ".toList).length = 24 := by simp [ascii]
  have hsp : (ascii " ".toList).length = 1 := by simp [ascii]
  have htail : (ascii " typ host\n".toList).length = 10 := by simp [ascii]
  have hprio : (decimal prio.toNat).length ≤ 10 :=
    length_decimal_le (by norm_num) (prio.toNat_lt.trans (by norm_num))
  have hp : (decimal port).length ≤ 10 :=
    length_decimal_le (by norm_num) (hport.trans (by norm_num))
  simp only [v6srcLine, List.length_append, hkey, hsp, htail]
  omega

/-- The line put in names a global v6 host candidate. -/
theorem global6Host_v6srcLine (prio : UInt32) (hport : port < 2 ^ 31)
    (hsrc : SourceText inet src6) : global6Host inet (v6srcLine prio src6 port) = true := by
  refine global6Host_eq_true.mpr ⟨_, (apart_v6srcLine prio hport hsrc.word).1, ?_, ?_⟩
  · exact hsrc.global6 ⟨prio, [], port, CandType.host.name⟩
  · rfl

end Line

/-! ## The whole function -/

/-- The lines that stay. -/
def others (inet : Inet) (ls : List Bytes) : List Bytes := ls.filter fun l => !global6Line inet l

theorem mem_others {inet : Inet} {ls : List Bytes} {l : Bytes} :
    l ∈ others inet ls ↔ l ∈ ls ∧ global6Line inet l = false := by
  simp [others]

theorem length_flatten_others (inet : Inet) (ls : List Bytes) :
    (others inet ls).flatten.length ≤ ls.flatten.length :=
  (List.filter_sublist.flatten).length_le

section Whole

variable {inet : Inet} {g : Gathered} {sdp src6 : Bytes} {cap : Nat}

theorem canonV6_eq (hsrc : SourceText inet src6) (hsep : ∀ l ∈ textLines sdp, Separate inet l)
    (hroom : sdp.length + src6.length < cap) :
    canonV6 inet g sdp src6 cap = canonAppend inet src6 cap
      { kept6 := (textLines sdp).any (global6Host inet)
        port := (cands (textLines sdp)).foldl notePort (-1)
        prio := (cands (textLines sdp)).foldl notePrio 0
        out := (canonLines inet src6 false (textLines sdp)).flatten } := by
  rw [canonV6, canonLoop_eq hsrc (isText_textLines sdp) hsep]
  · rfl
  · simpa [canonRoom, flatten_textLines] using hroom

/-- The source is named at a candidate of the description. -/
theorem canonV6_kept (hsrc : SourceText inet src6) (hsep : ∀ l ∈ textLines sdp, Separate inet l)
    (hroom : sdp.length + src6.length < cap)
    (hany : (textLines sdp).any (global6Host inet) = true) :
    canonV6 inet g sdp src6 cap = (canonLines inet src6 false (textLines sdp)).flatten := by
  rw [canonV6_eq hsrc hsep hroom, canonAppend, if_neg]
  rw [hany]
  exact fun h => Bool.noConfusion h.1

/-- There is none, and nothing to put one together from. -/
theorem canonV6_plain (hsrc : SourceText inet src6) (hsep : ∀ l ∈ textLines sdp, Separate inet l)
    (hroom : sdp.length + src6.length < cap)
    (hno : (textLines sdp).any (global6Host inet) = false)
    (hnot : ¬(HasPort (cands (textLines sdp)) ∧ HasPrio (cands (textLines sdp)))) :
    canonV6 inet g sdp src6 cap = (others inet (textLines sdp)).flatten := by
  rw [canonV6_eq hsrc hsep hroom, canonAppend, if_neg, canonLines_eq_filter (Or.inr hno)]
  · rfl
  · rintro ⟨-, hport, hprio, -⟩
    refine hnot ⟨(hasPort_iff _ (by decide)).mp hport, ?_⟩
    simpa using (hasPrio_iff _ 0).mp hprio

theorem foldl_notePort_lt {ls : List Bytes} {port : Int} (hport : port < 2 ^ 31) :
    (cands ls).foldl notePort port < 2 ^ 31 := by
  induction ls generalizing port with
  | nil => exact hport
  | cons line ls ih =>
      rw [foldl_cands_cons]
      apply ih
      cases hc : candAt line with
      | none => exact hport
      | some c =>
          rw [Option.elim_some, notePort]
          split_ifs
          · exact candAt_port hc
          · exact hport

/-- There is none, and the source is put in. -/
theorem canonV6_append (hsrc : SourceText inet src6) (hsep : ∀ l ∈ textLines sdp, Separate inet l)
    (hroom : sdp.length + src6.length + 56 < cap)
    (hno : (textLines sdp).any (global6Host inet) = false)
    (hport : HasPort (cands (textLines sdp))) (hprio : HasPrio (cands (textLines sdp))) :
    ∃ prio port, port < 2 ^ 31 ∧ canonV6 inet g sdp src6 cap =
      (others inet (textLines sdp)).flatten ++ v6srcLine prio src6 port := by
  have hlt : ((cands (textLines sdp)).foldl notePort (-1)).toNat < 2 ^ 31 := by
    have hbound : (cands (textLines sdp)).foldl notePort (-1) < 2 ^ 31 :=
      foldl_notePort_lt (by norm_num)
    omega
  have hlen := length_v6srcLine src6
    ((cands (textLines sdp)).foldl notePrio 0 + 1) hlt
  have hout := length_flatten_others inet (textLines sdp)
  rw [flatten_textLines] at hout
  refine ⟨(cands (textLines sdp)).foldl notePrio 0 + 1, _, hlt, ?_⟩
  rw [canonV6_eq hsrc hsep (by omega), canonAppend, if_pos, canonLines_eq_filter (Or.inr hno)]
  · dsimp only
    rw [others] at hout
    rw [if_pos (by omega)]
    rfl
  · exact ⟨hno, (hasPort_iff _ (by decide)).mpr hport,
      (hasPrio_iff _ 0).mpr (Or.inr hprio), hsrc.sourceGlobal⟩

end Whole

/-! ## What it is meant to do -/

/-- If there is a host candidate, the source is named at one global v6 candidate and there is no
other; all other lines stay, in their order; and doing it again changes nothing. -/
structure Canonical (inet : Inet) (g : Gathered) (sdp src6 : Bytes) (cap : Nat) : Prop where
  named : (∃ l ∈ textLines sdp, hostLine l = true) →
    ∃ l c, (textLines (canonV6 inet g sdp src6 cap)).filter (global6Line inet) = [l] ∧
      candAt l = some c ∧ c.addr = src6
  stay : others inet (textLines (canonV6 inet g sdp src6 cap)) = others inet (textLines sdp)
  again : ∀ g', canonV6 inet g' (canonV6 inet g sdp src6 cap) src6 cap =
    canonV6 inet g sdp src6 cap

/-- If there is a host candidate, one is at a global v6 address or there is a port and a
priority to name the source with; and if it is these that it is named with, the last line that
stays ends with a newline. -/
structure Nameable (inet : Inet) (sdp : Bytes) : Prop where
  source : (∃ l ∈ textLines sdp, hostLine l = true) →
    (textLines sdp).any (global6Host inet) = true ∨
      (HasPort (cands (textLines sdp)) ∧ HasPrio (cands (textLines sdp)))
  own : (textLines sdp).any (global6Host inet) = false → HasPort (cands (textLines sdp)) →
    HasPrio (cands (textLines sdp)) →
      ∀ l, (others inet (textLines sdp)).getLast? = some l → Terminated l

section Main

variable {inet : Inet} {g : Gathered} {sdp src6 : Bytes} {cap : Nat}

theorem others_others (inet : Inet) (ls : List Bytes) :
    others inet (others inet ls) = others inet ls := by
  simp [others, List.filter_filter]

theorem filter_others (inet : Inet) (ls : List Bytes) :
    (others inet ls).filter (global6Line inet) = [] := by
  simp [others, List.filter_filter]

theorem isText_others (inet : Inet) (sdp : Bytes) : IsText (others inet (textLines sdp)) :=
  (isText_textLines sdp).filter _

/-- Another line behind one without a newline spoils it. -/
theorem others_spoiled (inet : Inet) {kept : List Bytes} {x line : Bytes} (hkept : IsText kept)
    (hlast : kept.getLast? = some x) (hx : ¬Terminated x) (hline : Terminated line) :
    others inet (textLines (kept.flatten ++ line)) ≠ kept := by
  obtain ⟨init, rfl⟩ := List.getLast?_eq_some_iff.mp hlast
  obtain ⟨hinit, hor⟩ := hkept.of_append
  have hnl := (hor.resolve_left hx).2
  obtain ⟨b, rfl, hb⟩ := hline
  have hall : ∀ l ∈ init ++ [x ++ (b ++ [nl])], Terminated l := by
    rw [List.forall_mem_append, List.forall_mem_singleton]
    exact ⟨hinit, (terminated_append_iff (by simp)).mpr ⟨hnl, b, rfl, hb⟩⟩
  have hflat : (init ++ [x]).flatten ++ (b ++ [nl]) = (init ++ [x ++ (b ++ [nl])]).flatten := by
    simp
  rw [hflat, textLines_flatten (isText_of_terminated hall)]
  intro heq
  -- every line that comes out ends with a newline, and so `x` is none of them
  have hmem : x ∈ others inet (init ++ [x ++ (b ++ [nl])]) := by
    rw [heq]
    simp
  exact hx (hall x (mem_others.1 hmem).1)

/-- What is canonical has a source to name, and names it on a line of its own. -/
theorem Canonical.nameable (hsrc : SourceText inet src6)
    (hsep : ∀ l ∈ textLines sdp, Separate inet l) (hroom : sdp.length + src6.length + 56 < cap)
    (h : Canonical inet g sdp src6 cap) : Nameable inet sdp where
  source := by
    intro hhost
    by_contra hnot
    rw [not_or, Bool.not_eq_true] at hnot
    obtain ⟨l, c, hl, -⟩ := h.named hhost
    rw [canonV6_plain hsrc hsep (by omega) hnot.1 hnot.2,
      textLines_flatten (isText_others inet sdp), filter_others] at hl
    cases hl
  own := by
    intro hno hport hprio x hx
    by_contra hterm
    obtain ⟨prio, port, hlt, hout⟩ := canonV6_append (g := g) hsrc hsep hroom hno hport hprio
    refine others_spoiled inet (isText_others inet sdp) hx hterm
      (terminated_v6srcLine prio port hsrc.word) ?_
    rw [← hout]
    exact h.stay

/-- The source is named at a candidate of the description. -/
theorem canonical_of_kept (hsrc : SourceText inet src6)
    (hsep : ∀ l ∈ textLines sdp, Separate inet l) (hroom : sdp.length + 2 * src6.length < cap)
    (hany : (textLines sdp).any (global6Host inet) = true) : Canonical inet g sdp src6 cap := by
  have htext := isText_canonLines hsrc hsep (isText_textLines sdp) false
  have hlines := textLines_flatten htext
  obtain ⟨l, c, hl, hc, haddr, hhost⟩ := canonLines_named hsrc hsep hany
  have hkept : canonV6 inet g sdp src6 cap = (canonLines inet src6 false (textLines sdp)).flatten :=
    canonV6_kept hsrc hsep (by omega) hany
  constructor
  · intro _
    rw [hkept, hlines]
    exact ⟨l, c, hl, hc, haddr⟩
  · rw [hkept, hlines]
    exact filter_canonLines hsrc hsep false
  · intro g'
    have hlen := length_canonLines hsrc hsep false
    rw [if_neg Bool.false_ne_true, flatten_textLines] at hlen
    have hagain : (textLines (canonLines inet src6 false (textLines sdp)).flatten).any
        (global6Host inet) = true := by
      rw [hlines]
      have hmem : l ∈ (canonLines inet src6 false (textLines sdp)).filter (global6Line inet) := by
        rw [hl]
        exact List.mem_singleton_self l
      have hglobal := (List.mem_filter.mp hmem).2
      rw [global6Line, hc, Option.any_some] at hglobal
      exact List.any_eq_true.mpr
        ⟨l, (List.mem_filter.mp hmem).1, global6Host_eq_true.mpr ⟨c, hc, hglobal, hhost⟩⟩
    have hsep' : ∀ l ∈ textLines (canonLines inet src6 false (textLines sdp)).flatten,
        Separate inet l := by
      rw [hlines]
      exact separate_canonLines hsrc hsep false
    have hroom' : (canonLines inet src6 false (textLines sdp)).flatten.length + src6.length <
        cap := by omega
    rw [hkept, canonV6_kept hsrc hsep' hroom' hagain, hlines, canonLines_idem hsrc hsep]

/-- The source is put in, on a line of its own. -/
theorem canonical_of_append (hsrc : SourceText inet src6)
    (hsep : ∀ l ∈ textLines sdp, Separate inet l)
    (hroom : sdp.length + 2 * src6.length + 56 < cap)
    (hno : (textLines sdp).any (global6Host inet) = false)
    (hport : HasPort (cands (textLines sdp))) (hprio : HasPrio (cands (textLines sdp)))
    (hown : ∀ l, (others inet (textLines sdp)).getLast? = some l → Terminated l) :
    Canonical inet g sdp src6 cap := by
  have hfirst : sdp.length + src6.length + 56 < cap := by omega
  obtain ⟨prio, port, hlt, hout⟩ := canonV6_append (g := g) hsrc hsep hfirst hno hport hprio
  obtain ⟨hc, hapart⟩ := apart_v6srcLine prio hlt hsrc.word
  have hhost := global6Host_v6srcLine prio hlt hsrc
  have hglobal := global6Line_of_host hhost
  have htext := (isText_append_iff (isText_others inet sdp)
    (terminated_v6srcLine prio port hsrc.word)).mpr hown
  have hflat : (others inet (textLines sdp)).flatten ++ v6srcLine prio src6 port =
      (others inet (textLines sdp) ++ [v6srcLine prio src6 port]).flatten := by simp
  have hlines := textLines_flatten htext
  rw [hflat] at hout
  constructor
  · intro _
    refine ⟨v6srcLine prio src6 port, _, ?_, hc, rfl⟩
    rw [hout, hlines, List.filter_append, filter_others]
    simp [hglobal]
  · rw [hout, hlines, others, List.filter_append]
    change others inet (others inet (textLines sdp)) ++ _ = _
    rw [others_others]
    simp [hglobal]
  · intro g'
    have hline := length_v6srcLine src6 prio hlt
    have hlen := length_flatten_others inet (textLines sdp)
    rw [flatten_textLines] at hlen
    have hsep' : ∀ l ∈ textLines (others inet (textLines sdp) ++
        [v6srcLine prio src6 port]).flatten, Separate inet l := by
      rw [hlines, List.forall_mem_append, List.forall_mem_singleton]
      exact ⟨fun l hl => hsep l (mem_others.1 hl).1, separate_of_apart hc hapart⟩
    have hany : (textLines (others inet (textLines sdp) ++
        [v6srcLine prio src6 port]).flatten).any (global6Host inet) = true := by
      rw [hlines, List.any_append, List.any_cons, hhost, Bool.true_or, Bool.or_true]
    have hroom' : (others inet (textLines sdp) ++ [v6srcLine prio src6 port]).flatten.length +
        src6.length < cap := by
      rw [← hflat, List.length_append]
      omega
    have hself : canonLines inet src6 false [v6srcLine prio src6 port] =
        [v6srcLine prio src6 port] := by
      have hrename := rename_self hc hapart
      dsimp only at hrename
      rw [canonLines_cons, if_pos hglobal, if_pos ⟨hhost, rfl⟩, hrename, canonLines_nil]
    rw [hout, canonV6_kept hsrc hsep' hroom' hany, hlines,
      canonLines_append fun l hl => (mem_others.1 hl).2, hself]

/-- There is nothing to name the source for. -/
theorem canonical_of_plain (hsrc : SourceText inet src6)
    (hsep : ∀ l ∈ textLines sdp, Separate inet l) (hroom : sdp.length + src6.length < cap)
    (hnone : ¬∃ l ∈ textLines sdp, hostLine l = true) : Canonical inet g sdp src6 cap := by
  -- what holds of the description holds of what stays of it
  have hplain : ∀ (g' : Gathered) (s : Bytes), (∀ l ∈ textLines s, l ∈ textLines sdp) →
      s.length ≤ sdp.length →
        canonV6 inet g' s src6 cap = (others inet (textLines s)).flatten := by
    intro g' s hsub hlen
    refine canonV6_plain hsrc (fun l hl => hsep l (hsub l hl)) (by omega) ?_ ?_
    · rw [List.any_eq_false]
      intro l hl hhost
      exact hnone ⟨l, hsub l hl, hostLine_of_global6Host hhost⟩
    · rintro ⟨-, c, hc, hhost, -⟩
      obtain ⟨l, hl, hcand⟩ := List.mem_filterMap.mp hc
      exact hnone ⟨l, hsub l hl, by simp [hostLine, hcand, hhost]⟩
  have hlines := textLines_flatten (isText_others inet sdp)
  have hout := hplain g sdp (fun _ hl => hl) le_rfl
  have hlen := length_flatten_others inet (textLines sdp)
  rw [flatten_textLines] at hlen
  constructor
  · exact fun hhost => absurd hhost hnone
  · rw [hout, hlines, others_others]
  · intro g'
    have hsub : ∀ l ∈ textLines (others inet (textLines sdp)).flatten, l ∈ textLines sdp := by
      intro l hl
      rw [hlines] at hl
      exact (mem_others.1 hl).1
    rw [hout, hplain g' (others inet (textLines sdp)).flatten hsub hlen, hlines, others_others]

end Main

/-! ## A description of one line -/

/-- A v4 host candidate, on a line that does not end. -/
def docHost : Bytes := ascii "a=candidate:1 1 UDP 100 192.0.2.1 5000 typ host".toList

set_option maxRecDepth 4000

theorem sourceText_docSource : SourceText inetDoc docSource where
  word := ⟨by decide, by decide, by decide⟩
  colon := by decide
  global := by decide

end Sdp
end Comrade
