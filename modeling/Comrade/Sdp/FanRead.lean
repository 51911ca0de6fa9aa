import Comrade.Lib.ScanPast
import Comrade.Lib.ScanPrinted
import Comrade.Sdp.CanonRun
import Comrade.Sdp.Fan

/-!
# Reading a description with lines behind it

A candidate is read from its line on and past the end of it, so what is put in behind a
description could be read as part of a candidate that was cut short.  Of a line that
`cand_sdp_fan_v4` puts in only the first words can be: where a reflexive candidate is read
over the end of a description, all its fields are (`scanCandFields_stay`).

* `Foreign` is what has to be known of the text put in, and `foreign_fanLine` is that it holds.
* `scanCandFields_fan` is what is read of a line put in.
-/

namespace Comrade
namespace Sdp

open Lib Candpack

/-! ## Reading on behind the end -/

/-- Of what is put behind a description nothing but the two words that a candidate starts with
can be read: it completes no candidate of which more than the key stands in front of it. -/
structure Foreign (e : Bytes) : Prop where
  number : scanSigned e = none
  transport : ∀ c u, (do
      scanSkip
      scanSpace
      let prio ← scanUnsigned
      scanSpace
      scanFromAddr prio : Scan CandLine) e ≠ some (c, u)
  address : ∀ prio c u, scanFromAddr prio e ≠ some (c, u)
  typ : scanText (ascii "typ".toList) (e.dropWhile isSpace) = none
  kind : ∀ w u, scanWord 15 e = some (w, u) → w ≠ CandType.srflx.name

theorem bind_dropWhile {α β : Type} {p : Scan α} {q : α → Scan β} {e : Bytes}
    (hp : p (e.dropWhile isSpace) = p e) : (p >>= q) (e.dropWhile isSpace) = (p >>= q) e := by
  change (p (e.dropWhile isSpace)).bind _ = (p e).bind _
  rw [hp]

theorem Foreign.dropWhile {e : Bytes} (h : Foreign e) : Foreign (e.dropWhile isSpace) where
  number := (scanSigned_dropWhile e).trans h.number
  transport := by
    intro c u
    rw [bind_dropWhile (scanSkip_dropWhile e)]
    exact h.transport c u
  address := by
    intro prio c u
    unfold scanFromAddr
    rw [bind_dropWhile (scanWord_dropWhile 63 e)]
    exact h.address prio c u
  typ := by
    rw [dropWhile_dropWhile]
    exact h.typ
  kind := by
    intro w u
    rw [scanWord_dropWhile]
    exact h.kind w u

section Chain

variable {α : Type} {e u : Bytes} {a : α}

theorem Foreign.int_ne (h : Foreign e) (q : Int → Scan α) : (scanInt >>= q) e ≠ some (a, u) := by
  intro hread
  obtain ⟨_, _, hint, -⟩ := scan_bind_iff.mp hread
  obtain ⟨_, _, hsigned, -⟩ := scan_bind_iff.mp hint
  rw [h.number] at hsigned
  cases hsigned

theorem Foreign.unsigned_ne (h : Foreign e) (q : UInt32 → Scan α) :
    (scanUnsigned >>= q) e ≠ some (a, u) := by
  intro hread
  obtain ⟨_, _, hint, -⟩ := scan_bind_iff.mp hread
  obtain ⟨_, _, hsigned, -⟩ := scan_bind_iff.mp hint
  rw [h.number] at hsigned
  cases hsigned

theorem Foreign.typ_ne (h : Foreign e) (q : Unit → Scan α) :
    (scanText (ascii "typ".toList) >>= q) e ≠ some (a, u) := by
  intro hread
  obtain ⟨_, t, htext, -⟩ := scan_bind_iff.mp hread
  -- no white space stands in front of the text, so skipping some changes nothing
  have heq := scanText_iff.mp htext
  have hdrop : e.dropWhile isSpace = e := by
    rw [heq]
    rfl
  have htyp := h.typ
  rw [hdrop, htext] at htyp
  cases htyp

theorem space_ne {q : Unit → Scan α} (h : q () (e.dropWhile isSpace) ≠ some (a, u)) :
    (scanSpace >>= q) e ≠ some (a, u) := h

end Chain

/-- The port and the type of a reflexive candidate are not read of what follows. -/
theorem scanPortTyp_stay {s e u : Bytes} {port : Int} (hparted : Parted s e) (he : Foreign e)
    (h : scanPortTyp (s ++ e) = some ((port, CandType.srflx.name), u)) :
    ∃ v, scanPortTyp s = some ((port, CandType.srflx.name), v) := by
  have hkind : ∀ e, Foreign e → ∀ w,
      (scanWord 15 >>= fun typ => pure (w, typ) : Scan (Int × Bytes)) e ≠
        some ((port, CandType.srflx.name), u) := by
    intro e he w hread
    obtain ⟨typ, t, hword, hpure⟩ := scan_bind_iff.mp hread
    obtain ⟨heq, -⟩ := Prod.mk.inj (Option.some.inj hpure)
    exact he.kind typ t hword (Prod.mk.inj heq).2
  refine bind_stay cross_scanSpace local_scanSpace hparted h (space_ne (he.dropWhile.int_ne _)) ?_
  intro _ s hparted h
  refine bind_stay cross_scanInt local_scanInt hparted h (he.int_ne _) ?_
  intro port' s hparted h
  refine bind_stay cross_scanSpace local_scanSpace hparted h (space_ne (he.dropWhile.typ_ne _)) ?_
  intro _ s hparted h
  refine bind_stay (cross_scanText not_space_typ typ_ne_nil) (local_scanText _)
    hparted h (he.typ_ne _) ?_
  intro _ s hparted h
  refine bind_stay cross_scanSpace local_scanSpace hparted h (space_ne (hkind _ he.dropWhile _)) ?_
  intro _ s hparted h
  refine bind_stay (cross_scanWord (by decide)) (local_scanWord (by decide)) hparted h
    (hkind e he _) ?_
  intro typ s _ h
  obtain ⟨heq, -⟩ := Prod.mk.inj (Option.some.inj h)
  exact ⟨s, by rw [← heq]; rfl⟩

theorem scanFromAddr_stay {s e u : Bytes} {prio : UInt32} {c : CandLine} (hparted : Parted s e)
    (he : Foreign e) (hc : c.typ = CandType.srflx.name)
    (h : scanFromAddr prio (s ++ e) = some (c, u)) : ∃ v, scanFromAddr prio s = some (c, v) := by
  refine bind_stay (cross_scanWord (by decide)) (local_scanWord (by decide)) hparted h
    (he.address prio c u) ?_
  intro addr s hparted h
  obtain ⟨⟨port, typ⟩, t, hread, hpure⟩ := scan_bind_iff.mp h
  obtain ⟨rfl, rfl⟩ := Prod.mk.inj (Option.some.inj hpure)
  obtain rfl : typ = CandType.srflx.name := hc
  obtain ⟨v, hv⟩ := scanPortTyp_stay hparted he hread
  exact ⟨v, scan_bind_iff.mpr ⟨_, v, hv, rfl⟩⟩

/-- The fields of a reflexive candidate are all read of the string in front, or all of them
of what follows. -/
theorem scanCandFields_stay {s e u : Bytes} {c : CandLine} (hparted : Parted s e)
    (he : Foreign e) (hc : c.typ = CandType.srflx.name)
    (h : scanCandFields (s ++ e) = some (c, u)) :
    (∃ v, scanCandFields s = some (c, v)) ∨ (AllSpace s ∧ scanCandFields e = some (c, u)) := by
  rcases bind_cross cross_scanSkip local_scanSkip hparted h with ⟨_, t, hskip, hparted, h⟩ | hall
  · refine Or.inl ?_
    suffices hrest : ∃ v, (do
        scanSpace
        let _ ← scanInt
        scanSpace
        scanSkip
        scanSpace
        let prio ← scanUnsigned
        scanSpace
        scanFromAddr prio : Scan CandLine) t = some (c, v) by
      obtain ⟨v, hv⟩ := hrest
      exact ⟨v, scan_bind_iff.mpr ⟨_, t, hskip, hv⟩⟩
    refine bind_stay cross_scanSpace local_scanSpace hparted h (space_ne (he.dropWhile.int_ne _)) ?_
    intro _ s hparted h
    refine bind_stay cross_scanInt local_scanInt hparted h (he.int_ne _) ?_
    intro _ s hparted h
    refine bind_stay cross_scanSpace local_scanSpace hparted h
      (space_ne (he.dropWhile.transport c u)) ?_
    intro _ s hparted h
    refine bind_stay cross_scanSkip local_scanSkip hparted h (he.transport c u) ?_
    intro _ s hparted h
    refine bind_stay cross_scanSpace local_scanSpace hparted h
      (space_ne (he.dropWhile.unsigned_ne _)) ?_
    intro _ s hparted h
    refine bind_stay cross_scanUnsigned local_scanUnsigned hparted h (he.unsigned_ne _) ?_
    intro prio s hparted h
    refine bind_stay cross_scanSpace local_scanSpace hparted h
      (space_ne (he.dropWhile.address prio c u)) ?_
    intro _ s hparted h
    exact scanFromAddr_stay hparted he hc h
  · exact Or.inr hall

/-! ## What is put in -/

/-- `inet_ntop` spells an address of the pool as a dotted decimal, and `inet_pton` reads it
back. -/
structure V4Text (inet : Inet) (a : Bytes) : Prop where
  length : a.length = 4
  chars : ∀ c ∈ inet.ntop .v4 a, isDigit c = true ∨ c = ch '.'
  ne_nil : inet.ntop .v4 a ≠ []
  length_le : (inet.ntop .v4 a).length ≤ 15
  pton : inet.pton .v4 (inet.ntop .v4 a) = some a

theorem V4Text.not_space {inet : Inet} {a : Bytes} (h : V4Text inet a) :
    ∀ c ∈ inet.ntop .v4 a, isSpace c = false := by
  intro c hc
  rcases h.chars c hc with hdigit | rfl
  · exact isSpace_of_isDigit hdigit
  · decide

theorem srflx_eq : CandType.srflx.name = ch 's' :: ascii "rflx".toList := rfl

theorem not_space_srflx : ∀ c ∈ CandType.srflx.name, isSpace c = false :=
  not_space_ascii rfl

theorem srflx_ne_nil : CandType.srflx.name ≠ [] := by simp [srflx_eq]

/-- The end of a line put in. -/
theorem scanPortTyp_fan {port : Nat} (hport : port < 2 ^ 31) (rest : Bytes) :
    scanPortTyp (ch ' ' :: (decimal port ++ ch ' ' :: (ascii "typ".toList ++
        ch ' ' :: (CandType.srflx.name ++ ch ' ' :: rest)))) =
      some (((port : Int), CandType.srflx.name), ch ' ' :: rest) := by
  apply scanPortTyp_printed hport not_space_srflx srflx_ne_nil (by simp [srflx_eq, ascii])
  exact stops_cons.mpr (by decide)

/-- What stands behind the first word of a line put in. -/
def fanFields (inet : Inet) (prio : UInt32) (port : Nat) (a : Bytes) : Bytes :=
  ascii " 1 UDP ".toList ++ (decimal prio.toNat ++ (ascii " ".toList ++
    (inet.ntop .v4 a ++ (ascii " ".toList ++ (decimal port ++
      ascii " typ srflx raddr 0.0.0.0 rport 0\n".toList)))))

/-- The fields, with the white space between them brought out. -/
theorem fanFields_append (inet : Inet) (prio : UInt32) (port : Nat) (a rest : Bytes) :
    fanFields inet prio port a ++ rest =
      ch ' ' :: (decimal 1 ++ ch ' ' :: (ascii "UDP".toList ++
        ch ' ' :: (decimal prio.toNat ++ ch ' ' :: (inet.ntop .v4 a ++
          ch ' ' :: (decimal port ++ ch ' ' :: (ascii "typ".toList ++
            ch ' ' :: (CandType.srflx.name ++
              ch ' ' :: (ascii "raddr 0.0.0.0 rport 0\n".toList ++ rest)))))))) := by
  have hudp : ascii " 1 UDP ".toList =
      ch ' ' :: (decimal 1 ++ ch ' ' :: (ascii "UDP".toList ++ [ch ' '])) := rfl
  have hsp : ascii " ".toList = [ch ' '] := rfl
  have htail : ascii " typ srflx raddr 0.0.0.0 rport 0\n".toList =
      ch ' ' :: (ascii "typ".toList ++ ch ' ' :: (CandType.srflx.name ++
        ch ' ' :: ascii "raddr 0.0.0.0 rport 0\n".toList)) := by
    simp [ascii, srflx_eq]
  rw [fanFields, hudp, hsp, htail]
  simp only [List.cons_append, List.append_assoc, List.nil_append]

/-- A word and the fields of a line put in are the fields of a candidate. -/
theorem scanCandFields_fan {w : Bytes} (hw : ∀ c ∈ w, isSpace c = false) (hne : w ≠ [])
    {inet : Inet} {a : Bytes} (ha : V4Text inet a) (prio : UInt32) {port : Nat}
    (hport : port < 2 ^ 31) (rest : Bytes) :
    ∃ t, scanCandFields (w ++ (fanFields inet prio port a ++ rest)) =
      some (⟨prio, inet.ntop .v4 a, port, CandType.srflx.name⟩, t) := by
  rw [fanFields_append]
  unfold scanCandFields
  rw [bind_of_read (scanSkip_of_word hw hne),
    bind_of_read (scanSpace_of_word (not_space_decimal 1) (decimal_ne_nil 1)),
    bind_of_read (scanInt_decimal (by norm_num) _),
    bind_of_read (scanSpace_of_word not_space_udp udp_ne_nil),
    bind_of_read (scanSkip_of_word not_space_udp udp_ne_nil),
    bind_of_read (scanSpace_of_word (not_space_decimal _) (decimal_ne_nil _)),
    bind_of_read (scanUnsigned_decimal prio _),
    bind_of_read (scanSpace_of_word ha.not_space ha.ne_nil)]
  unfold scanFromAddr
  rw [bind_of_read (scanWord_of_word (by decide) ha.not_space ha.ne_nil
      (ha.length_le.trans (by decide))),
    bind_of_read (scanPortTyp_fan hport _)]
  exact ⟨_, rfl⟩

theorem scanText_typ_of_ne {c : UInt8} (hc : c ≠ ch 't') (t : Bytes) :
    scanText (ascii "typ".toList) (c :: t) = none := by
  have htyp : ascii "typ".toList = ch 't' :: ascii "yp".toList := rfl
  rw [htyp, scanText, if_neg]
  rw [List.isPrefixOf_iff_prefix, List.cons_prefix_cons]
  exact fun h => hc h.1.symm

/-- An address is not the text behind the port. -/
theorem V4Text.scanText_typ {inet : Inet} {a : Bytes} (h : V4Text inet a) (t : Bytes) :
    scanText (ascii "typ".toList) (inet.ntop .v4 a ++ t) = none := by
  obtain ⟨c, x, hx⟩ := List.exists_cons_of_ne_nil h.ne_nil
  rw [hx, List.cons_append]
  apply scanText_typ_of_ne
  rcases h.chars c (by simp [hx]) with hdigit | rfl
  · rintro rfl
    exact absurd hdigit (by decide)
  · decide

/-- A number is read, if not as it stands. -/
theorem scanInt_decimal_some (n : Nat) (t : Bytes) :
    ∃ x, scanInt (decimal n ++ ch ' ' :: t) = some (x, ch ' ' :: t) := by
  rw [scanInt, bind_of_read (scanSigned_decimal n t)]
  exact ⟨_, rfl⟩

/-- The first word of a line put in. -/
def fanWord (i : Nat) : Bytes :=
  ascii "a=candidate:pool".toList ++ decimal (UInt32.ofNat i).toNat

theorem fanLine_eq (inet : Inet) (prio : UInt32) (port i : Nat) (a : Bytes) :
    fanLine inet prio port i a = fanWord i ++ fanFields inet (fanPrio prio i) port a := by
  simp only [fanLine, fanWord, fanFields, List.append_assoc]

theorem fanWord_not_space (i : Nat) : ∀ c ∈ fanWord i, isSpace c = false := by
  rw [fanWord, List.forall_mem_append]
  exact ⟨not_space_ascii rfl, not_space_decimal _⟩

theorem fanWord_cons (i : Nat) : ∃ w, fanWord i = ch 'a' :: w := by
  have hkey : ascii "a=candidate:pool".toList = ch 'a' :: ascii "=candidate:pool".toList := by
    simp [ascii]
  exact ⟨_, by rw [fanWord, hkey]; rfl⟩

theorem fanWord_ne_nil (i : Nat) : fanWord i ≠ [] := by
  obtain ⟨w, hw⟩ := fanWord_cons i
  simp [hw]

theorem length_fanWord_le (i : Nat) : (fanWord i).length ≤ 26 := by
  have hkey : (ascii "a=candidate:pool".toList).length = 16 := by simp [ascii]
  have hnum := length_decimal_le (n := (UInt32.ofNat i).toNat) (k := 10) (by norm_num)
    ((UInt32.ofNat i).toNat_lt.trans (by norm_num))
  rw [fanWord, List.length_append, hkey]
  omega

/-- What begins with a line put in completes nothing. -/
theorem foreign_fanLine {inet : Inet} {a : Bytes} (ha : V4Text inet a) (prio : UInt32)
    (port i : Nat) (rest : Bytes) : Foreign (fanLine inet prio port i a ++ rest) := by
  obtain ⟨w, hw⟩ := fanWord_cons i
  have hcons : fanLine inet prio port i a ++ rest =
      ch 'a' :: (w ++ (fanFields inet (fanPrio prio i) port a ++ rest)) := by
    rw [fanLine_eq, hw]
    simp
  have hword := fanWord_not_space i
  have hne := fanWord_ne_nil i
  constructor
  · rw [hcons]
    rfl
  · intro c u
    have hone : ∀ t, scanUnsigned (decimal 1 ++ ch ' ' :: t) = some (1, ch ' ' :: t) :=
      scanUnsigned_decimal 1
    rw [fanLine_eq, List.append_assoc, fanFields_append]
    rw [bind_of_read (scanSkip_of_word hword hne),
      bind_of_read (scanSpace_of_word (not_space_decimal 1) (decimal_ne_nil 1)),
      bind_of_read (hone _),
      bind_of_read (scanSpace_of_word not_space_udp udp_ne_nil)]
    unfold scanFromAddr
    rw [bind_of_read (scanWord_of_word (by decide) not_space_udp udp_ne_nil (by simp [ascii]))]
    obtain ⟨x, hx⟩ := scanInt_decimal_some (fanPrio prio i).toNat
      (inet.ntop .v4 a ++ ch ' ' :: (decimal port ++ ch ' ' :: (ascii "typ".toList ++
            ch ' ' :: (CandType.srflx.name ++
              ch ' ' :: (ascii "raddr 0.0.0.0 rport 0\n".toList ++ rest)))))
    have hport : scanPortTyp (ch ' ' :: (decimal (fanPrio prio i).toNat ++
        ch ' ' :: (inet.ntop .v4 a ++ ch ' ' :: (decimal port ++ ch ' ' :: (ascii "typ".toList ++
            ch ' ' :: (CandType.srflx.name ++
              ch ' ' :: (ascii "raddr 0.0.0.0 rport 0\n".toList ++ rest))))))) = none := by
      unfold scanPortTyp
      rw [bind_of_read (scanSpace_of_word (not_space_decimal _) (decimal_ne_nil _)),
        bind_of_read hx, bind_of_read (scanSpace_of_word ha.not_space ha.ne_nil),
        bind_of_none (ha.scanText_typ _)]
    rw [bind_of_none hport]
    simp
  · intro prio' c u
    rw [fanLine_eq, List.append_assoc, fanFields_append]
    unfold scanFromAddr
    rw [bind_of_read (scanWord_of_word (by decide) hword hne
      ((length_fanWord_le i).trans (by decide)))]
    have hport : ∀ t, scanPortTyp (ch ' ' :: (decimal 1 ++ ch ' ' :: (ascii "UDP".toList ++ t))) =
        none := by
      intro t
      have hudp : ascii "UDP".toList = ch 'U' :: ascii "DP".toList := rfl
      unfold scanPortTyp
      rw [bind_of_read (scanSpace_of_word (not_space_decimal 1) (decimal_ne_nil 1)),
        bind_of_read (scanInt_decimal (by norm_num) _),
        bind_of_read (scanSpace_of_word not_space_udp udp_ne_nil),
        hudp, List.cons_append, bind_of_none (scanText_typ_of_ne (by decide) _)]
    rw [bind_of_none (hport _)]
    simp
  · rw [hcons, List.dropWhile_cons_of_neg (by decide)]
    exact scanText_typ_of_ne (by decide) _
  · intro v u hread
    obtain ⟨sp, heq, hsp, -, hv, -, -⟩ := (scanWord_iff (by decide)).mp hread
    rw [hcons] at heq
    have hnil : sp = [] := by
      cases sp with
      | nil => rfl
      | cons d sp =>
          rw [List.cons_append, List.cons.injEq] at heq
          have := hsp d List.mem_cons_self
          rw [← heq.1] at this
          exact absurd this (by decide)
    rw [hnil, List.nil_append] at heq
    obtain ⟨d, v, rfl⟩ := List.exists_cons_of_ne_nil hv
    rw [List.cons_append, List.cons.injEq] at heq
    rw [← heq.1, srflx_eq]
    intro hv
    exact absurd (List.cons.inj hv).1 (by decide)

theorem foreign_nil : Foreign [] where
  number := rfl
  transport := by
    intro c u
    rw [bind_of_none (by rfl)]
    simp
  address := by
    intro prio c u
    unfold scanFromAddr
    rw [bind_of_none (by rfl)]
    simp
  typ := rfl
  kind := by
    intro w u h
    cases h

/-- White space in front changes nothing. -/
theorem Foreign.of_dropWhile {e : Bytes} (h : Foreign (e.dropWhile isSpace)) : Foreign e where
  number := (scanSigned_dropWhile e).symm.trans h.number
  transport := by
    intro c u
    rw [← bind_dropWhile (scanSkip_dropWhile e)]
    exact h.transport c u
  address := by
    intro prio c u
    have haddr := h.address prio c u
    unfold scanFromAddr at haddr ⊢
    rwa [bind_dropWhile (scanWord_dropWhile 63 e)] at haddr
  typ := by
    have htyp := h.typ
    rwa [dropWhile_dropWhile] at htyp
  kind := by
    intro w u hread
    rw [← scanWord_dropWhile] at hread
    exact h.kind w u hread

end Sdp
end Comrade
