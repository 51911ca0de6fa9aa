import Comrade.Sdp.FanRun

/-!
# Fanning a description

The addresses of a description are noted in eight places, so an address that stands behind
the eighth candidate is put in again, and so is one that fanning has put there itself.

* `Fannable` is what fanning is given: reflexive candidates that share a port, a pool of
  distinct addresses, and room.
* `Fanned` is what it is meant to do: a line for every address that is missing, none for those
  that are there, and nothing the second time.
* `fanned_iff`: it does so exactly when the places of `seen` are enough.
-/

namespace Comrade
namespace Sdp

open Lib Candpack

/-- The v4 addresses of the reflexive candidates of a description. -/
def reflexAddrs (inet : Inet) (sdp : Bytes) : List Bytes :=
  (reflexes inet (textLines sdp)).map Reflex.addr

/-- The addresses of the pool that the description does not have. -/
def missing (inet : Inet) (sdp : Bytes) (pool : List Bytes) : List Bytes :=
  unseen (reflexAddrs inet sdp) pool

/-- A description whose v4 reflexive candidates share one port, a pool of distinct addresses,
and room for every line that two applications could put in. -/
structure Fannable (inet : Inet) (sdp : Bytes) (cap : Nat) (pool : List Bytes) (port : Int) :
    Prop where
  ports : ∀ r ∈ reflexes inet (textLines sdp), r.cand.port = port
  reflexive : reflexes inet (textLines sdp) ≠ []
  port_pos : 0 < port
  nodup : pool.Nodup
  text : ∀ a ∈ pool, V4Text inet a
  room : sdp.length + 1 + 2 * (pool.length * fanLineMax) < cap

/-- The description is kept with its last line ended, one reflexive line is put in for every
address of the pool that it does not have and none for the others, and fanning the result
again changes nothing. -/
def Fanned (inet : Inet) (sdp : Bytes) (cap : Nat) (pool : List Bytes) : Prop :=
  ∃ (out : Bytes) (lines : List Bytes), candSdpFanV4 inet sdp cap pool false = some out ∧
    out = ended sdp ++ lines.flatten ∧ (∀ l ∈ lines, Terminated l) ∧
    lines.map (fun l => (reflexAt inet l []).map Reflex.addr) =
      (missing inet sdp pool).map some ∧
    candSdpFanV4 inet out cap pool false = some out

/-- The reflexive addresses of the description with those of the pool that it lacks; a key
that hangs at its end takes the first of these for its own candidate. -/
def fannedAddrs (inet : Inet) (sdp : Bytes) (pool : List Bytes) : List Bytes :=
  reflexAddrs inet sdp ++
    ((if hangs (textLines sdp) = true then (missing inet sdp pool).take 1 else []) ++
      missing inet sdp pool)

/-! ## One application -/

theorem scanCandFields_port {s t : Bytes} {c : CandLine} (h : scanCandFields s = some (c, t)) :
    c.port < 2 ^ 31 := by
  obtain ⟨_, _, -, h⟩ := scan_bind_iff.mp h
  obtain ⟨_, _, -, h⟩ := scan_bind_iff.mp h
  obtain ⟨_, _, -, h⟩ := scan_bind_iff.mp h
  obtain ⟨_, _, -, h⟩ := scan_bind_iff.mp h
  obtain ⟨_, _, -, h⟩ := scan_bind_iff.mp h
  obtain ⟨_, _, -, h⟩ := scan_bind_iff.mp h
  obtain ⟨_, _, -, h⟩ := scan_bind_iff.mp h
  obtain ⟨_, _, -, h⟩ := scan_bind_iff.mp h
  exact scanFromAddr_port h

/-- The port of a reflexive candidate is an `int`. -/
theorem reflexes_port {inet : Inet} {ls : List Bytes} {r : Reflex} (h : r ∈ reflexes inet ls) :
    r.cand.port < 2 ^ 31 := by
  induction ls with
  | nil => simp [reflexes] at h
  | cons line rest ih =>
      rw [reflexes, List.mem_append] at h
      rcases h with h | h
      · rw [Option.mem_toList, reflexAt_eq, Option.bind_eq_some_iff] at h
        obtain ⟨p, hp, hread⟩ := h
        obtain ⟨u, q, -, rfl⟩ := osMemmem_eq_some hp
        rw [List.append_assoc] at hread
        obtain ⟨t, hfields, -⟩ := readReflex_eq_some.mp hread
        exact scanCandFields_port hfields
      · exact ih h

/-- An application with room for all its lines. -/
theorem candSdpFanV4_eq {inet : Inet} {sdp : Bytes} {cap : Nat} {pool : List Bytes} {port : Int}
    (hports : ∀ r ∈ reflexes inet (textLines sdp), r.cand.port = port)
    (hsome : reflexes inet (textLines sdp) ≠ []) (hpos : 0 < port) (hlt : port < 2 ^ 31)
    (htext : ∀ a ∈ pool, V4Text inet a)
    (hroom : (ended sdp).length + pool.length * fanLineMax < cap) :
    ∃ prio, candSdpFanV4 inet sdp cap pool false =
      if ∀ l ∈ fanLines inet ((reflexAddrs inet sdp).take fanSeenMax) prio port.toNat 0 pool,
        l.length < fanCandSize
      then some (ended sdp ++
        (fanLines inet ((reflexAddrs inet sdp).take fanSeenMax) prio port.toNat 0 pool).flatten)
      else none := by
  obtain ⟨st, hst, hport, hseen⟩ := foldlM_fanNote (reflexes inet (textLines sdp))
    { port := -1, prio := 0, seen := [] } hports (Or.inr (by decide)) (Nat.zero_le _)
  rw [List.nil_append] at hseen
  have hended : fanEnded cap sdp = some (ended sdp) := by
    unfold fanEnded
    by_cases hend : sdp ≠ [] ∧ sdp.getLast? ≠ some nl
    · have hlead : ended sdp = sdp ++ [nl] := by rw [ended, lead, if_pos hend]
      rw [hlead, List.length_append, List.length_singleton] at hroom
      rw [if_pos hend, if_neg (by omega), hlead]
    · rw [if_neg hend, ended, lead, if_neg hend, List.append_nil]
  refine ⟨st.prio, ?_⟩
  rw [candSdpFanV4, if_neg Bool.false_ne_true, fanScan_eq, hst]
  dsimp only
  rw [hport hsome, if_neg (not_le.mpr hpos), hended]
  dsimp only
  rw [hseen, fanLoop_eq (by omega) htext 0 _ hroom]
  rfl

/-! ## The description that comes out -/

section Out

variable {inet : Inet} {sdp : Bytes} {pool seen : List Bytes} {port : Nat}

theorem lead_of_terminated {l : Bytes} (h : Terminated l) : lead l = [] := by
  obtain ⟨b, rfl, -⟩ := h
  simp [lead]

theorem terminated_endLines {ls : List Bytes} (h : IsText ls) :
    ∀ l ∈ endLines ls, Terminated l := by
  induction ls with
  | nil => simp [endLines]
  | cons l ls ih =>
      cases ls with
      | nil =>
          rw [endLines, List.forall_mem_singleton]
          rcases h.1 with hterm | ⟨-, hne, hnl⟩
          · rw [lead_of_terminated hterm, List.append_nil]
            exact hterm
          · have hlead : lead l = [nl] :=
              if_pos ⟨hne, fun hlast => hnl (List.mem_of_getLast? hlast)⟩
            rw [hlead]
            exact ⟨l, rfl, hnl⟩
      | cons l' ls =>
          rw [endLines_cons_cons, List.forall_mem_cons]
          exact ⟨h.1.resolve_right (by simp), ih h.2⟩

/-- Lines that are ended stay as they are. -/
theorem endLines_eq_self {ls : List Bytes} (h : ∀ l ∈ ls, Terminated l) : endLines ls = ls := by
  induction ls with
  | nil => rfl
  | cons l ls ih =>
      obtain ⟨hl, hls⟩ := List.forall_mem_cons.mp h
      cases ls with
      | nil => rw [endLines, lead_of_terminated hl, List.append_nil]
      | cons l' ls => rw [endLines_cons_cons, ih hls]

theorem mem_fanLines {prio : UInt32} {i : Nat} {l : Bytes}
    (h : l ∈ fanLines inet seen prio port i pool) :
    ∃ j a, a ∈ pool ∧ j < i + pool.length ∧ l = fanLine inet prio port j a := by
  induction pool generalizing i with
  | nil => cases h
  | cons a pool ih =>
      have hlater : l ∈ fanLines inet seen prio port (i + 1) pool →
          ∃ j b, b ∈ a :: pool ∧ j < i + (a :: pool).length ∧ l = fanLine inet prio port j b := by
        intro hl
        obtain ⟨j, b, hb, hj, hl⟩ := ih hl
        exact ⟨j, b, List.mem_cons_of_mem a hb, by rw [List.length_cons]; omega, hl⟩
      rw [fanLines_cons] at h
      split_ifs at h
      · exact hlater h
      · rcases List.mem_cons.mp h with rfl | h
        · exact ⟨i, a, List.mem_cons_self, by simp, rfl⟩
        · exact hlater h

theorem terminated_fanLines (htext : ∀ a ∈ pool, V4Text inet a) (prio : UInt32) (i : Nat) :
    ∀ l ∈ fanLines inet seen prio port i pool, Terminated l := by
  intro l hl
  obtain ⟨j, a, ha, -, rfl⟩ := mem_fanLines hl
  exact terminated_fanLine (htext a ha) prio port j

theorem length_fanLines (htext : ∀ a ∈ pool, V4Text inet a) (hport : port < 2 ^ 31)
    (prio : UInt32) (i : Nat) :
    (fanLines inet seen prio port i pool).flatten.length ≤ pool.length * fanLineMax := by
  induction pool generalizing i with
  | nil => simp [fanLines_nil]
  | cons a pool ih =>
      obtain ⟨ha, htext⟩ := List.forall_mem_cons.mp htext
      have hrest := ih htext (i + 1)
      have hline := (length_fanLine ha prio hport i).1
      rw [fanLines_cons, List.length_cons, Nat.succ_mul]
      split_ifs
      · omega
      · rw [List.flatten_cons, List.length_append]
        omega

/-- Nothing is put in where every address was seen. -/
theorem fanLines_eq_nil_iff {prio : UInt32} {i : Nat} :
    fanLines inet seen prio port i pool = [] ↔ ∀ a ∈ pool, a ∈ seen := by
  induction pool generalizing i with
  | nil => simp [fanLines_nil]
  | cons a pool ih =>
      rw [fanLines_cons, List.forall_mem_cons]
      split_ifs with ha
      · rw [ih]
        simp [ha]
      · simp [ha]

variable (seen port) in
/-- The first line put in names the first address that was not seen. -/
theorem fanLines_cases (htext : ∀ a ∈ pool, V4Text inet a) (prio : UInt32) (i : Nat) :
    (fanLines inet seen prio port i pool = [] ∧ unseen seen pool = []) ∨
      ∃ j a ls as, V4Text inet a ∧ unseen seen pool = a :: as ∧
        fanLines inet seen prio port i pool = fanLine inet prio port j a :: ls := by
  induction pool generalizing i with
  | nil => exact Or.inl ⟨rfl, rfl⟩
  | cons a pool ih =>
      obtain ⟨ha, htext⟩ := List.forall_mem_cons.mp htext
      rw [fanLines_cons, unseen]
      by_cases hseen : a ∈ seen
      · rw [if_pos hseen, List.filter_cons_of_neg (by simpa using hseen)]
        exact ih htext (i + 1)
      · rw [if_neg hseen, List.filter_cons_of_pos (by simpa using hseen)]
        exact Or.inr ⟨i, a, _, _, ha, rfl, rfl⟩

theorem map_fanLines (htext : ∀ a ∈ pool, V4Text inet a) (hport : port < 2 ^ 31)
    (prio : UInt32) (i : Nat) :
    (fanLines inet seen prio port i pool).map (fun l => (reflexAt inet l []).map Reflex.addr) =
      (unseen seen pool).map some := by
  induction pool generalizing i with
  | nil => rfl
  | cons a pool ih =>
      obtain ⟨ha, htext⟩ := List.forall_mem_cons.mp htext
      rw [fanLines_cons, unseen]
      by_cases hseen : a ∈ seen
      · rw [if_pos hseen, List.filter_cons_of_neg (by simpa using hseen)]
        exact ih htext (i + 1)
      · rw [if_neg hseen, List.filter_cons_of_pos (by simpa using hseen), List.map_cons,
          reflexAt_fanLine ha hport, ih htext (i + 1)]
        rfl

theorem textLines_fanned {L : List Bytes} (hL : ∀ l ∈ L, Terminated l) :
    textLines (ended sdp ++ L.flatten) = endLines (textLines sdp) ++ L := by
  have hlines := terminated_endLines (isText_textLines sdp)
  have hflat : ended sdp ++ L.flatten = (endLines (textLines sdp) ++ L).flatten := by
    rw [List.flatten_append, flatten_endLines (isText_textLines sdp), flatten_textLines]
  rw [hflat, textLines_flatten]
  exact isText_of_terminated (List.forall_mem_append.mpr ⟨hlines, hL⟩)

theorem ended_fanned {L : List Bytes} (hL : ∀ l ∈ L, Terminated l) :
    ended (ended sdp ++ L.flatten) = ended sdp ++ L.flatten := by
  have hlines := List.forall_mem_append.mpr ⟨terminated_endLines (isText_textLines sdp), hL⟩
  have hflat : ended sdp ++ L.flatten = (endLines (textLines sdp) ++ L).flatten := by
    rw [List.flatten_append, flatten_endLines (isText_textLines sdp), flatten_textLines]
  rw [hflat, ← flatten_endLines (isText_of_terminated hlines), endLines_eq_self hlines]

/-- Nothing put in completes more than a key. -/
theorem foreign_fanLines (htext : ∀ a ∈ pool, V4Text inet a) (prio : UInt32) (i : Nat)
    {sp : Bytes} (hsp : AllSpace sp) :
    Foreign (sp ++ (fanLines inet seen prio port i pool).flatten) := by
  apply Foreign.of_dropWhile
  rw [List.dropWhile_append_of_pos hsp]
  apply Foreign.dropWhile
  rcases fanLines_cases seen port htext prio i with
    ⟨hnil, -⟩ | ⟨j, a, ls, as, ha, -, hcons⟩
  · rw [hnil]
    exact foreign_nil
  · rw [hcons, List.flatten_cons]
    exact foreign_fanLine ha prio port j ls.flatten

variable (sdp seen) in
/-- The reflexive candidates of the description that comes out. -/
theorem reflexes_fanned (htext : ∀ a ∈ pool, V4Text inet a) (hport : port < 2 ^ 31)
    (prio : UInt32) :
    reflexAddrs inet (ended sdp ++ (fanLines inet seen prio port 0 pool).flatten) =
        reflexAddrs inet sdp ++
          ((if hangs (textLines sdp) = true then (unseen seen pool).take 1 else []) ++
            unseen seen pool) ∧
      ∀ r ∈ reflexes inet
          (textLines (ended sdp ++ (fanLines inet seen prio port 0 pool).flatten)),
        r ∈ reflexes inet (textLines sdp) ∨ r.cand.port = port := by
  have hterm : ∀ l ∈ fanLines inet seen prio port 0 pool, Terminated l :=
    terminated_fanLines htext prio 0
  obtain ⟨haddrs, hports⟩ := reflexes_fanLines seen prio hport htext 0
  have hread : reflexes inet (endLines (textLines sdp) ++
      fanLines inet seen prio port 0 pool) = _ :=
    reflexes_endLines (isText_textLines sdp) fun sp hsp => foreign_fanLines htext prio 0 hsp
  -- what hangs is completed by the first line put in
  have hhang : ((readReflex inet (candWord ++
        (fanLines inet seen prio port 0 pool).flatten)).toList.map Reflex.addr =
          (unseen seen pool).take 1) ∧
      ∀ r ∈ (readReflex inet (candWord ++
        (fanLines inet seen prio port 0 pool).flatten)).toList, r.cand.port = port := by
    rcases fanLines_cases seen port htext prio 0 with
      ⟨hnil, hnone⟩ | ⟨j, a, ls, as, ha, hfirst, hcons⟩
    · rw [hnil, hnone, List.flatten_nil, readReflex_key allSpace_nil]
      simp
    · rw [hcons, hfirst, List.flatten_cons, readReflex_hang ha hport]
      simp [fanReflex]
  rw [reflexAddrs, reflexAddrs, textLines_fanned hterm, hread]
  refine ⟨?_, ?_⟩
  · rw [List.map_append, List.map_append, haddrs]
    split_ifs
    · rw [hhang.1]
    · rfl
  · intro r hr
    rw [List.mem_append, List.mem_append] at hr
    rcases hr with hr | hr | hr
    · exact Or.inl hr
    · split_ifs at hr
      · exact Or.inr (hhang.2 r hr)
      · cases hr
    · exact Or.inr (hports r hr)

end Out

/-! ## Two applications -/

theorem length_ended (sdp : Bytes) : (ended sdp).length ≤ sdp.length + 1 := by
  rw [ended, lead]
  split_ifs <;> simp

section Unseen

variable {seen pool addrs more : List Bytes}

theorem mem_unseen {a : Bytes} : a ∈ unseen seen pool ↔ a ∈ pool ∧ a ∉ seen := by
  simp [unseen]

/-- The places are enough for those of the pool that the description has. -/
theorem unseen_take (hmore : ∀ a ∈ more, a ∉ addrs) {n : Nat}
    (h : ∀ a ∈ pool, a ∈ (addrs ++ more).take n) :
    unseen (addrs.take n) pool = unseen addrs pool := by
  apply List.filter_congr
  intro a ha
  have htake := h a ha
  rw [List.take_append, List.mem_append] at htake
  rw [decide_eq_decide, not_iff_not]
  refine ⟨List.mem_of_mem_take, fun haddr => ?_⟩
  rcases htake with htake | htake
  · exact htake
  · exact absurd haddr (hmore a (List.mem_of_mem_take htake))

theorem length_pool_le (hnodup : pool.Nodup) {n : Nat} (h : ∀ a ∈ pool, a ∈ addrs.take n) :
    pool.length ≤ n :=
  (hnodup.subperm h).length_le.trans (List.length_take_le n addrs)

end Unseen

section Twice

variable {inet : Inet} {sdp : Bytes} {cap : Nat} {pool : List Bytes} {port : Int}

theorem Fannable.port_lt (h : Fannable inet sdp cap pool port) : port < 2 ^ 31 := by
  obtain ⟨r, hr⟩ := List.exists_mem_of_ne_nil _ h.reflexive
  rw [← h.ports r hr]
  exact reflexes_port hr

theorem Fannable.toNat_lt (h : Fannable inet sdp cap pool port) : port.toNat < 2 ^ 31 := by
  have hlt := h.port_lt
  omega

/-- The lines that the first application puts in. -/
def fanFirst (inet : Inet) (sdp : Bytes) (pool : List Bytes) (port : Int) (prio : UInt32) :
    List Bytes :=
  fanLines inet ((reflexAddrs inet sdp).take fanSeenMax) prio port.toNat 0 pool

theorem Fannable.first (h : Fannable inet sdp cap pool port) :
    ∃ prio, candSdpFanV4 inet sdp cap pool false =
      if ∀ l ∈ fanFirst inet sdp pool port prio, l.length < fanCandSize
      then some (ended sdp ++ (fanFirst inet sdp pool port prio).flatten) else none := by
  have hroom := h.room
  have hended := length_ended sdp
  exact candSdpFanV4_eq h.ports h.reflexive h.port_pos h.port_lt h.text (by omega)

/-- The second application meets the addresses that the first has put in. -/
theorem Fannable.second (h : Fannable inet sdp cap pool port) (prio : UInt32) {out : Bytes}
    (hout : out = ended sdp ++ (fanFirst inet sdp pool port prio).flatten) :
    ∃ prio', candSdpFanV4 inet out cap pool false =
      if ∀ l ∈ fanFirst inet out pool port prio', l.length < fanCandSize
      then some (out ++ (fanFirst inet out pool port prio').flatten) else none := by
  have hfirst := reflexes_fanned sdp ((reflexAddrs inet sdp).take fanSeenMax) h.text h.toNat_lt
    prio
  have hself : ended out = out := by
    rw [hout]
    exact ended_fanned (terminated_fanLines h.text prio 0)
  have hroom : (ended out).length + pool.length * fanLineMax < cap := by
    have hlines : (fanFirst inet sdp pool port prio).flatten.length ≤ pool.length * fanLineMax :=
      length_fanLines h.text h.toNat_lt prio 0
    have hlen := length_ended sdp
    have hcap := h.room
    rw [hself, hout, List.length_append]
    omega
  have hsame : ∀ r ∈ reflexes inet (textLines out), r.cand.port = port := by
    intro r hr
    rw [hout] at hr
    rcases hfirst.2 r hr with hr | hr
    · exact h.ports r hr
    · rw [hr, Int.toNat_of_nonneg h.port_pos.le]
  have hsome : reflexes inet (textLines out) ≠ [] := by
    have haddrs : reflexAddrs inet out ≠ [] := by
      rw [hout, fanFirst, hfirst.1]
      simp [reflexAddrs, h.reflexive]
    simpa [reflexAddrs] using haddrs
  have hrun := candSdpFanV4_eq hsame hsome h.port_pos h.port_lt h.text hroom
  rw [hself] at hrun
  exact hrun

/-- Where the first application puts in what is missing, the second puts in what is not among
the first eight. -/
theorem Fannable.reflexAddrs_out (h : Fannable inet sdp cap pool port) {prio : UInt32}
    (hunseen : unseen ((reflexAddrs inet sdp).take fanSeenMax) pool = missing inet sdp pool) :
    reflexAddrs inet (ended sdp ++ (fanFirst inet sdp pool port prio).flatten) =
      fannedAddrs inet sdp pool := by
  rw [fanFirst, (reflexes_fanned sdp _ h.text h.toNat_lt prio).1, hunseen]
  rfl

theorem eq_nil_of_flatten {ls : List Bytes} (h : ∀ l ∈ ls, Terminated l) (hnil : ls.flatten = []) :
    ls = [] := by
  rw [← textLines_flatten (isText_of_terminated h), hnil]
  rfl

end Twice

/-- Fanning does what it is meant to do exactly when every address of the pool is among the
first eight of those that the description has and is given. -/
theorem fanned_iff {inet : Inet} {sdp : Bytes} {cap : Nat} {pool : List Bytes} {port : Int}
    (h : Fannable inet sdp cap pool port) :
    Fanned inet sdp cap pool ↔ ∀ a ∈ pool, a ∈ (fannedAddrs inet sdp pool).take fanSeenMax := by
  obtain ⟨prio, hfirst⟩ := h.first
  obtain ⟨prio', hsecond⟩ := h.second prio rfl
  have hterm : ∀ l ∈ fanFirst inet sdp pool port prio, Terminated l :=
    terminated_fanLines h.text prio 0
  have hmap : (fanFirst inet sdp pool port prio).map
        (fun l => (reflexAt inet l []).map Reflex.addr) =
      (unseen ((reflexAddrs inet sdp).take fanSeenMax) pool).map some :=
    map_fanLines h.text h.toNat_lt prio 0
  constructor
  · rintro ⟨out, lines, hrun, rfl, hlines, hnames, hagain⟩
    rw [hfirst] at hrun
    split_ifs at hrun with hfit
    have hflat := List.append_cancel_left (Option.some.inj hrun)
    have heq : fanFirst inet sdp pool port prio = lines := by
      rw [← textLines_flatten (isText_of_terminated hterm), hflat,
        textLines_flatten (isText_of_terminated hlines)]
    have hunseen : unseen ((reflexAddrs inet sdp).take fanSeenMax) pool =
        missing inet sdp pool := by
      apply List.map_injective_iff.mpr (Option.some_injective Bytes)
      rw [← hmap, ← hnames, ← heq]
    -- the second application has put nothing in
    rw [← hflat, hsecond] at hagain
    split_ifs at hagain with hfit'
    have hnil := eq_nil_of_flatten (terminated_fanLines h.text prio' 0)
      (List.append_right_eq_self.mp (Option.some.inj hagain))
    rw [h.reflexAddrs_out hunseen] at hnil
    exact fanLines_eq_nil_iff.1 hnil
  · intro hall
    have hunseen : unseen ((reflexAddrs inet sdp).take fanSeenMax) pool =
        missing inet sdp pool := by
      refine unseen_take ?_ hall
      intro a ha
      have hmem : a ∈ missing inet sdp pool := by
        rcases List.mem_append.mp ha with ha | ha
        · split_ifs at ha
          · exact List.mem_of_mem_take ha
          · cases ha
        · exact ha
      exact (mem_unseen.1 hmem).2
    have hlen := length_pool_le h.nodup hall
    have hfit : ∀ l ∈ fanFirst inet sdp pool port prio, l.length < fanCandSize := by
      intro l hl
      obtain ⟨j, a, ha, hj, rfl⟩ := mem_fanLines hl
      exact (length_fanLine (h.text a ha) prio h.toNat_lt j).2 (by omega)
    have hnone : fanFirst inet (ended sdp ++ (fanFirst inet sdp pool port prio).flatten) pool port
        prio' = [] := by
      rw [fanFirst, h.reflexAddrs_out hunseen]
      exact fanLines_eq_nil_iff.2 hall
    refine ⟨_, fanFirst inet sdp pool port prio, ?_, rfl, hterm, ?_, ?_⟩
    · rw [hfirst, if_pos hfit]
    · rw [← hunseen]
      exact hmap
    · rw [hsecond, hnone]
      simp

/-! ## A description of one network -/

/-- An address of the network 192.0.2.0/24. -/
def docAddr (i : UInt8) : Bytes := [192, 0, 2, i]

/-- A description of reflexive candidates at the first addresses of the network. -/
def docSdp (n : Nat) : Bytes :=
  (List.range n).flatMap fun i =>
    ascii "a=candidate:1 1 UDP 9 192.0.2.".toList ++ (decimal i ++
      ascii " 40002 typ srflx raddr 0.0.0.0 rport 0\n".toList)

theorem octet_decimal (b : UInt8) : octet (decimal b.toNat) = some b := by
  have hb : b.toNat < 256 := b.toNat_lt
  simp [octet, digitsValue_decimal, hb]

theorem v4Text_inetDoc (a b c d : UInt8) : V4Text inetDoc [a, b, c, d] := by
  have hlen : ∀ x : UInt8, (decimal x.toNat).length ≤ 3 := fun x =>
    length_decimal_le (by omega) (by have := x.toNat_lt; omega)
  have hdot : ∀ x : UInt8, ch '.' ∉ decimal x.toNat := by
    intro x hx
    exact absurd (isDigit_of_mem_decimal hx) (by decide)
  have hsep : ascii ".".toList = [ch '.'] := by decide
  have hjoin : inetDoc.ntop .v4 [a, b, c, d] =
      [ch '.'].intercalate ([a, b, c, d].map fun x => decimal x.toNat) := by
    simp only [inetDoc, hsep]
  have hprint : inetDoc.ntop .v4 [a, b, c, d] = decimal a.toNat ++ ch '.' :: (decimal b.toNat ++
      ch '.' :: (decimal c.toNat ++ ch '.' :: decimal d.toNat)) := by
    simp [hjoin]
  constructor
  · rfl
  · intro x hx
    simp only [hprint, List.mem_append, List.mem_cons] at hx
    rcases hx with hx | hx | hx | hx | hx | hx | hx
    all_goals first
      | exact Or.inl (isDigit_of_mem_decimal hx)
      | exact Or.inr hx
  · simp [hprint]
  · have ha := hlen a
    have hb := hlen b
    have hc := hlen c
    have hd := hlen d
    simp only [hprint, List.length_append, List.length_cons]
    omega
  · have hall : ∀ l ∈ [a, b, c, d].map fun x => decimal x.toNat, ch '.' ∉ l := by
      simp [hdot]
    have hread : inetDoc.pton .v4 (inetDoc.ntop .v4 [a, b, c, d]) =
        (([a, b, c, d].map fun x => decimal x.toNat).mapM octet).bind fun addr =>
          if addr.length = 4 then some addr else none := by
      rw [hjoin]
      simp only [inetDoc]
      rw [List.splitOn_intercalate (ch '.') hall (by simp)]
    simp [hread, octet_decimal]

theorem v4Text_docAddr (i : UInt8) : V4Text inetDoc (docAddr i) :=
  v4Text_inetDoc 192 0 2 i

/-- One address stands in the description and one is put in. -/
theorem fanned_one : Fanned inetDoc (docSdp 1) 1024 [docAddr 0, docAddr 1] := by
  have htext : ∀ a ∈ [docAddr 0, docAddr 1], V4Text inetDoc a := by
    rw [List.forall_mem_cons, List.forall_mem_singleton]
    exact ⟨v4Text_docAddr 0, v4Text_docAddr 1⟩
  have hgiven : Fannable inetDoc (docSdp 1) 1024 [docAddr 0, docAddr 1] 40002 :=
    ⟨by decide, by decide, by decide, by decide, htext, by decide⟩
  exact (fanned_iff hgiven).mpr (by decide)

set_option maxRecDepth 4000

/-- Nine candidates share a port, and the address of the ninth is put in again. -/
theorem fanned_ninth :
    Fannable inetDoc (docSdp 9) 1024 [docAddr 8] 40002 ∧
      ¬Fanned inetDoc (docSdp 9) 1024 [docAddr 8] := by
  refine ⟨⟨by decide, by decide, by decide, by decide, ?_,
    by decide⟩, ?_⟩
  · rw [List.forall_mem_singleton]
    exact v4Text_docAddr 8
  · rintro ⟨out, lines, hrun, rfl, -, hnames, -⟩
    have hmissing : missing inetDoc (docSdp 9) [docAddr 8] = [] := by decide
    have hlines : lines = [] := by simpa [hmissing] using hnames
    have hput : candSdpFanV4 inetDoc (docSdp 9) 1024 [docAddr 8] false ≠
        some (ended (docSdp 9) ++ [].flatten) := by decide
    rw [hlines] at hrun
    exact hput hrun

end Sdp
end Comrade
