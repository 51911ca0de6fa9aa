import Comrade.Bencode.Find
import Comrade.Bep44.Store
import Comrade.Rdv.ClientRun
import Comrade.Sig.Seal

/-!
# The rendezvous cell

The one mutable item through which a host and its claimants meet carries two
places: the host's own statement, and the turn that a claimant exchange takes
(`sig.c`).  Two machines rewrite it without a lock, so a writer reads the cell
and merges its own place into it.

* `mergePlaces` is the pair of places that a merge intends, if it merges at all.
* `cellPart_cellPack`: what is packed is read back, place by place.
* `mergeMine_frame` puts the two together with the rules for whose turn it is.

The cipher is a parameter, as in `Comrade.Sig.Seal`.
-/

namespace Comrade
namespace Sig

open Lib Bencode Rdv

/-- `rdv_open`. -/
def rdvOpen (unlock : Unlock) (key sealed : Bytes) : Option RdvMsg :=
  match msgOpen unlock rdvMaxMsg key sealed with
  | none => none
  | some plain => (rdvDecode plain).toOption

/-- `SIG_GRADE_RW` and `SIG_GRADE_RO`. -/
inductive SigGrade where
  | rw
  | ro
  deriving DecidableEq, Repr

/-- The part of `struct sig` that a merge reads; `slotKey` is `slot_key`. -/
structure SigState where
  haveRw : Bool
  slotKey : SigGrade → Bytes
  rc : Option RdvClient

/-- The part of `struct sig_op` that a merge reads. -/
structure SigOp where
  kind : RdvKind
  val : Bytes
  seqSeen : Int
  freeTurn : Bool

/-- `CELL_HOST`. -/
def cellHost : Bytes := [ch 'h']

/-- `CELL_TURN`. -/
def cellTurn : Bytes := [ch 'c']

/-- `cell_part`; `none` for a place that is absent or not a string. -/
def cellPart (v : Option Bytes) (place : Bytes) : Option Bytes :=
  match v with
  | none => none
  | some v => if v = [] then none else (bencDictFind v place).bind bencStrGet

/-- One place of a cell, where there is something to write. -/
def cellPlace (b : BencBuf) (place : Bytes) (part : Option Bytes) : BencBuf :=
  match part with
  | none => b
  | some part => if part = [] then b else bencStrAdd (bencKeyAdd b place) part

/-- `cell_pack` into a buffer of `max` bytes. -/
def cellPack (max : Nat) (host turn : Option Bytes) : Option Bytes :=
  let b := bencRawAdd (bencBufInit max) [ch 'd']
  let b := cellPlace b cellTurn turn
  let b := cellPlace b cellHost host
  let b := bencRawAdd b [ch 'e']
  if b.err = true then none else some b.buf

/-- `claimant_open`: a claimant's statement, opened under whichever class key it
was sealed with. -/
def claimantOpen (unlock : Unlock) (s : SigState) (v : Bytes) : Option (RdvMsg × SigGrade) :=
  match if s.haveRw = true then rdvOpen unlock (s.slotKey .rw) v else none with
  | some m => some (m, .rw)
  | none => (rdvOpen unlock (s.slotKey .ro) v).map fun m => (m, .ro)

/-- `turn_is_ours`. -/
def turnIsOurs (unlock : Unlock) (s : SigState) (turn : Option Bytes) : Bool :=
  match turn, s.rc with
  | some turn, some rc =>
      if turn = [] then true
      else rdvClientMayReplace rc ((claimantOpen unlock s turn).map Prod.fst)
  | _, _ => true

/-- `writes_host_place`. -/
def writesHostPlace (kind : RdvKind) : Bool := kind == .hostinfo || kind == .tomb

/-- The host and the turn place that a merge intends; `none` where it does not
merge. -/
def mergePlaces (unlock : Unlock) (s : SigState) (op : SigOp) (cur : Option Bytes) (seq : Int) :
    Option (Option Bytes × Option Bytes) :=
  let host := cellPart cur cellHost
  let turn := cellPart cur cellTurn
  if op.seqSeen ≥ 0 ∧ cur.isSome = true ∧ seq > op.seqSeen then none
  else if writesHostPlace op.kind = true then
    -- a tombstone ends the session, and a host with nobody engaged hands the
    -- turn back to whoever asks next
    some (some op.val, if op.kind = .tomb ∨ op.freeTurn = true then none else turn)
  else if op.kind = .offer ∧ turnIsOurs unlock s turn = false then none
  else some (host, some op.val)

/-- `merge_mine` into a buffer of `max` bytes: the cell to store. -/
def mergeMine (unlock : Unlock) (s : SigState) (op : SigOp) (cur : Option Bytes) (seq : Int)
    (max : Nat) : Option Bytes :=
  match mergePlaces unlock s op cur seq with
  | none => none
  | some (host, turn) => cellPack max host turn

/-! ## Packing and reading back -/

/-- The dictionary entry of a place, where there is something to write. -/
def cellEntry (place : Bytes) (part : Option Bytes) : List (Bytes × Benc) :=
  match part with
  | none => []
  | some part => if part = [] then [] else [(place, .str part)]

/-- The value a cell stands for. -/
def cellValue (host turn : Option Bytes) : Benc :=
  .dict (cellEntry cellTurn turn ++ cellEntry cellHost host)

/-- What `cell_pack` writes for a place, write by write. -/
def cellChunks (place : Bytes) (part : Option Bytes) : List Bytes :=
  match part with
  | none => []
  | some part =>
      if part = [] then []
      else [decimal place.length ++ [ch ':'], place, decimal part.length ++ [ch ':'], part]

theorem cellPlace_eq (b : BencBuf) (place : Bytes) (part : Option Bytes) :
    cellPlace b place part = (cellChunks place part).foldl bencRawAdd b := by
  unfold cellPlace cellChunks
  cases part with
  | none => rfl
  | some part =>
      dsimp only
      split_ifs <;> rfl

theorem cellChunks_flatten (place : Bytes) (part : Option Bytes) :
    (cellChunks place part).flatten = encodeEntries (cellEntry place part) := by
  unfold cellChunks cellEntry
  cases part with
  | none => rw [encodeEntries]; rfl
  | some part =>
      dsimp only
      split_ifs
      · rw [encodeEntries]
        rfl
      · rw [encodeEntries, encodeEntries, Benc.encode]
        simp [strEncode]

theorem encodeEntries_append (kvs kvs' : List (Bytes × Benc)) :
    encodeEntries (kvs ++ kvs') = encodeEntries kvs ++ encodeEntries kvs' := by
  rw [encodeEntries_eq, encodeEntries_eq, encodeEntries_eq, List.flatMap_append]

/-- `cell_pack` writes the cell's value, wherever it fits. -/
theorem cellPack_eq (max : Nat) (host turn : Option Bytes) :
    cellPack max host turn =
      if (cellValue host turn).encode.length ≤ max then some (cellValue host turn).encode
      else none := by
  have hbuf : bencRawAdd (cellPlace (cellPlace (bencRawAdd (bencBufInit max) [ch 'd'])
      cellTurn turn) cellHost host) [ch 'e'] =
      ([ch 'd'] :: (cellChunks cellTurn turn ++ (cellChunks cellHost host ++ [[ch 'e']]))).foldl
        bencRawAdd (bencBufInit max) := by
    simp only [cellPlace_eq, List.foldl_cons, List.foldl_append, List.foldl_nil]
  have htext : ([ch 'd'] :: (cellChunks cellTurn turn ++
      (cellChunks cellHost host ++ [[ch 'e']]))).flatten = (cellValue host turn).encode := by
    rw [cellValue, Benc.encode, encodeEntries_append, ← cellChunks_flatten, ← cellChunks_flatten]
    simp
  unfold cellPack
  dsimp only
  rw [hbuf]
  by_cases hfits : (cellValue host turn).encode.length ≤ max
  · rw [bencRawAdd_foldl_fits rfl (by rw [htext]; simpa [bencBufInit] using hfits), if_pos hfits,
      htext]
    simp [bencBufInit]
  · rw [if_neg hfits, if_pos]
    refine bencRawAdd_foldl_full (by simp [bencBufInit]) ?_
    rw [htext]
    simpa [bencBufInit] using hfits

/-- A place as a reader sees it: an empty one is not written at all. -/
def placeOf (part : Option Bytes) : Option Bytes := part.filter fun p => decide (p ≠ [])

theorem cellEntry_eq (place : Bytes) (part : Option Bytes) :
    cellEntry place part = (placeOf part).toList.map fun p => (place, .str p) := by
  unfold cellEntry placeOf
  cases part with
  | none => rfl
  | some part =>
      by_cases hp : part = []
      · simp [hp]
      · dsimp only
        rw [if_neg hp, Option.filter_some, if_pos (decide_eq_true hp)]
        rfl

theorem length_le_of_encode {host turn : Option Bytes} {n : Nat}
    (h : (cellValue host turn).encode.length ≤ n) :
    (∀ p ∈ placeOf host, p.length ≤ n) ∧ ∀ p ∈ placeOf turn, p.length ≤ n := by
  rw [cellValue, Benc.encode, encodeEntries_append, cellEntry_eq, cellEntry_eq] at h
  simp only [List.length_cons, List.length_append] at h
  refine ⟨?_, ?_⟩
  · intro p hp
    rw [Option.mem_def] at hp
    rw [hp, Option.toList_some, List.map_singleton, encodeEntries, Benc.encode, strEncode,
      strEncode] at h
    simp only [List.length_cons, List.length_append] at h
    omega
  · intro p hp
    rw [Option.mem_def] at hp
    rw [hp, Option.toList_some, List.map_singleton, encodeEntries, Benc.encode, strEncode,
      strEncode] at h
    simp only [List.length_cons, List.length_append] at h
    omega

theorem cellValue_wellFormed {host turn : Option Bytes}
    (h : (cellValue host turn).encode.length < 2 ^ 63) :
    (cellValue host turn).WellFormed ∧ (cellValue host turn).nesting ≤ bencMaxDepth := by
  obtain ⟨hhost, hturn⟩ := length_le_of_encode (Nat.le_of_lt_succ h)
  rw [cellValue, Benc.WellFormed, Benc.nesting, wellFormedEntries_iff, nestingEntries_le_iff,
    cellEntry_eq, cellEntry_eq]
  refine ⟨⟨?_, ?_⟩, ?_⟩
  · cases placeOf turn with
    | none =>
        cases placeOf host with
        | none => simp
        | some p => simp
    | some t =>
        cases placeOf host with
        | none => simp
        | some p =>
            have hlt : cellTurn < cellHost := by decide
            simpa using hlt
  · intro kv hkv
    rw [List.mem_append] at hkv
    rcases hkv with hkv | hkv
    · obtain ⟨p, hp, rfl⟩ := List.mem_map.mp hkv
      rw [Option.mem_toList] at hp
      have := hturn p hp
      exact ⟨by simp [cellTurn], by rw [Benc.WellFormed]; omega⟩
    · obtain ⟨p, hp, rfl⟩ := List.mem_map.mp hkv
      rw [Option.mem_toList] at hp
      have := hhost p hp
      exact ⟨by simp [cellHost], by rw [Benc.WellFormed]; omega⟩
  · intro kv hkv
    have hstr : ∃ p, kv.2 = .str p := by
      rw [List.mem_append, List.mem_map, List.mem_map] at hkv
      rcases hkv with ⟨p, -, rfl⟩ | ⟨p, -, rfl⟩
      · exact ⟨p, rfl⟩
      · exact ⟨p, rfl⟩
    obtain ⟨p, hp⟩ := hstr
    rw [hp, Benc.nesting]
    decide

/-- What a reader finds in the cell's value, place by place. -/
theorem cellPart_encode {host turn : Option Bytes}
    (h : (cellValue host turn).encode.length < 2 ^ 63) :
    cellPart (some (cellValue host turn).encode) cellHost = placeOf host ∧
      cellPart (some (cellValue host turn).encode) cellTurn = placeOf turn := by
  obtain ⟨hhost, hturn⟩ := length_le_of_encode (Nat.le_of_lt_succ h)
  obtain ⟨hwf, hnest⟩ := cellValue_wellFormed h
  have hne : (cellValue host turn).encode ≠ [] := by
    rw [cellValue, Benc.encode]
    simp
  have hget : ∀ {p : Bytes}, p.length ≤ 2 ^ 63 - 1 → bencStrGet (Benc.str p).encode = some p := by
    intro p hp
    rw [Benc.encode]
    exact bencStrGet_strEncode (by omega)
  rw [cellPart, cellPart, if_neg hne, if_neg hne]
  rw [cellValue] at hwf hnest ⊢
  rw [bencDictFind_encode hwf hnest, bencDictFind_encode hwf hnest, cellEntry_eq, cellEntry_eq]
  -- four cells, by which of the two places is written
  constructor
  · cases hh : placeOf host with
    | none => cases ht : placeOf turn <;> simp [entryFind, cellHost, cellTurn, ch]
    | some p =>
        cases ht : placeOf turn <;>
          simpa [entryFind, cellHost, cellTurn, ch] using hget (hhost p hh)
  · cases ht : placeOf turn with
    | none => cases hh : placeOf host <;> simp [entryFind, cellHost, cellTurn, ch]
    | some p => simpa [entryFind, cellHost, cellTurn, ch] using hget (hturn p ht)

/-- What is packed is read back. -/
theorem cellPart_cellPack {max : Nat} {host turn : Option Bytes} {out : Bytes}
    (hmax : max < 2 ^ 63) (h : cellPack max host turn = some out) :
    out.length ≤ max ∧ cellPart (some out) cellHost = placeOf host ∧
      cellPart (some out) cellTurn = placeOf turn := by
  rw [cellPack_eq] at h
  by_cases hfits : (cellValue host turn).encode.length ≤ max
  · rw [if_pos hfits, Option.some.injEq] at h
    subst h
    exact ⟨hfits, cellPart_encode (by omega)⟩
  · rw [if_neg hfits] at h
    cases h

/-! ## The two places fit -/

theorem length_encodeEntries_cellEntry {place part : Bytes} (hplace : place.length = 1)
    (hpart : part.length < 1000) :
    (encodeEntries (cellEntry place (some part))).length ≤ part.length + 7 := by
  have hone := length_decimal_le (n := 1) Nat.one_pos (by norm_num)
  have hlen := length_decimal_le (k := 3) (by norm_num) hpart
  by_cases hp : part = []
  · simp [cellEntry, hp, encodeEntries]
  · rw [cellEntry, if_neg hp, encodeEntries, encodeEntries, Benc.encode, strEncode, strEncode,
      hplace]
    simp only [List.length_append, List.length_cons, List.length_nil, hplace]
    omega

/-- The limits of the two sealed places, as the static assertion of `rdv.c` adds
them up. -/
structure PlacesFit (host turn : Option Bytes) : Prop where
  host_le : ∀ p ∈ host, p.length ≤ rdvHdrLen + rdvHostPayload + sealOverhead
  turn_le : ∀ p ∈ turn, p.length ≤ rdvMaxMsg + sealOverhead

theorem cellPack_isSome {host turn : Option Bytes} (h : PlacesFit host turn) :
    (cellPack Bep44.bep44MaxValue host turn).isSome = true := by
  have hentry : ∀ (place : Bytes) {part : Option Bytes} {n : Nat}, place.length = 1 → n < 1000 →
      (∀ p ∈ part, p.length ≤ n) → (encodeEntries (cellEntry place part)).length ≤ n + 7 := by
    intro place part n hplace hn hpart
    cases part with
    | none => simp [cellEntry, encodeEntries]
    | some p =>
        have hp := hpart p rfl
        have := length_encodeEntries_cellEntry hplace (Nat.lt_of_le_of_lt hp hn)
        omega
  have hhost := hentry cellHost rfl (by decide) h.host_le
  have hturn := hentry cellTurn rfl (by decide) h.turn_le
  rw [cellPack_eq, if_pos]
  · rfl
  · rw [cellValue, Benc.encode, encodeEntries_append]
    simp only [List.length_cons, List.length_append, List.length_nil]
    -- the static assertion itself
    have hsum : rdvMaxMsg + sealOverhead + (rdvHdrLen + rdvHostPayload + sealOverhead) +
        rdvCellOverhead ≤ Bep44.bep44MaxValue := by decide
    have hover : rdvCellOverhead = 20 := rfl
    omega

/-! ## Whose turn it is -/

/-- A claimant that may replace what it opened in the turn place replaces
neither the ask it stands by nor an answer of another instance that it would
take.  A statement of its own it takes for an ask of its own, whatever its
kind. -/
theorem mayReplace_keeps {rc : RdvClient} (hasked : AskedHost rc) {m : RdvMsg}
    (h : rdvClientMayReplace rc (some m) = true) :
    ¬(m.frm = rc.cid ∧ m.seq = rc.offerSeq) ∧
      (m.frm ≠ rc.cid → rdvClientWouldTake rc m = false) := by
  rw [rdvClientMayReplace] at h
  by_cases hown : m.frm = rc.cid
  · rw [if_pos hown] at h
    have hseq : m.seq ≠ rc.offerSeq := by simpa using h
    exact ⟨fun hm => hseq hm.2, fun hm => absurd hown hm⟩
  · rw [if_neg hown] at h
    refine ⟨fun hm => hown hm.1, fun _ => ?_⟩
    by_cases hother : rc.haveHost = false ∨ m.frm ≠ rc.hostCid
    · -- nothing is takeable from a stranger, nor before a host is met
      by_contra htake
      rw [Bool.not_eq_false, rdvClientWouldTake_iff] at htake
      obtain ⟨-, -, hfrm, hoffer, -, -⟩ := htake
      have hhost := hasked hoffer
      rcases hother with hnone | hne
      · rw [hhost] at hnone
        cases hnone
      · exact hne (hfrm hhost)
    · rw [if_neg hother] at h
      simpa using h

theorem turnIsOurs_keeps {unlock : Unlock} {s : SigState} {turn : Option Bytes} {rc : RdvClient}
    (hrc : s.rc = some rc) (hasked : AskedHost rc) (h : turnIsOurs unlock s turn = true)
    {t : Bytes} (ht : placeOf turn = some t) {m : RdvMsg} {grade : SigGrade}
    (hopen : claimantOpen unlock s t = some (m, grade)) :
    ¬(m.frm = rc.cid ∧ m.seq = rc.offerSeq) ∧
      (m.frm ≠ rc.cid → rdvClientWouldTake rc m = false) := by
  rw [placeOf, Option.filter_eq_some_iff] at ht
  obtain ⟨rfl, hne⟩ := ht
  unfold turnIsOurs at h
  rw [hrc] at h
  dsimp only at h
  rw [if_neg (by simpa using hne), hopen] at h
  exact mayReplace_keeps hasked h

/-! ## The merge -/

/-- Everything a merge can do: it is refused, it writes the host place, or it
writes the turn place. -/
theorem mergePlaces_cases {unlock : Unlock} {s : SigState} {op : SigOp} {cur : Option Bytes}
    {seq : Int} {host turn : Option Bytes}
    (h : mergePlaces unlock s op cur seq = some (host, turn)) :
    (0 ≤ op.seqSeen → cur.isSome = true → seq ≤ op.seqSeen) ∧
      ((writesHostPlace op.kind = true ∧ host = some op.val ∧
          turn = if op.kind = .tomb ∨ op.freeTurn = true then none else cellPart cur cellTurn) ∨
        (writesHostPlace op.kind = false ∧ host = cellPart cur cellHost ∧ turn = some op.val ∧
          (op.kind = .offer → turnIsOurs unlock s (cellPart cur cellTurn) = true))) := by
  unfold mergePlaces at h
  dsimp only at h
  by_cases hrelay : op.seqSeen ≥ 0 ∧ cur.isSome = true ∧ seq > op.seqSeen
  · rw [if_pos hrelay] at h
    cases h
  · rw [if_neg hrelay] at h
    refine ⟨?_, ?_⟩
    · intro hseen hcur
      by_contra hle
      exact hrelay ⟨hseen, hcur, not_le.mp hle⟩
    by_cases hplace : writesHostPlace op.kind = true
    · rw [if_pos hplace, Option.some.injEq, Prod.mk.injEq] at h
      exact .inl ⟨hplace, h.1.symm, h.2.symm⟩
    · rw [if_neg hplace] at h
      by_cases hoffer : op.kind = .offer ∧ turnIsOurs unlock s (cellPart cur cellTurn) = false
      · rw [if_pos hoffer] at h
        cases h
      · rw [if_neg hoffer, Option.some.injEq, Prod.mk.injEq] at h
        refine .inr ⟨Bool.eq_false_of_not_eq_true hplace, h.1.symm, h.2.symm, ?_⟩
        intro hkind
        by_contra hturn
        exact hoffer ⟨hkind, Bool.eq_false_of_not_eq_true hturn⟩

/-- What holds of the cell that a merge stores over `cur`. -/
structure MergeOk (unlock : Unlock) (s : SigState) (op : SigOp) (cur : Option Bytes) (seq : Int)
    (out : Bytes) : Prop where
  fits : out.length ≤ Bep44.bep44MaxValue
  relay : 0 ≤ op.seqSeen → cur.isSome = true → seq ≤ op.seqSeen
  host : cellPart (some out) cellHost =
    placeOf (if writesHostPlace op.kind = true then some op.val else cellPart cur cellHost)
  turn : cellPart (some out) cellTurn =
    placeOf (if writesHostPlace op.kind = false then some op.val
      else if op.kind = .tomb ∨ op.freeTurn = true then none
      else cellPart cur cellTurn)
  asks : op.kind = .offer → ∀ rc ∈ s.rc, ∀ t ∈ placeOf (cellPart cur cellTurn),
    ∀ m grade, claimantOpen unlock s t = some (m, grade) →
      ¬(m.frm = rc.cid ∧ m.seq = rc.offerSeq) ∧
        (m.frm ≠ rc.cid → rdvClientWouldTake rc m = false)

/-- The client is one that its own calls brought about. -/
def ClientRuns (s : SigState) : Prop :=
  ∀ rc ∈ s.rc, ∃ cid ops, rc = run clientStep (rdvClientInit cid) ops

/-- Whatever is stored and whatever is merged into it, a merge that goes through
changes the writer's own place only, and one whose two places keep to their
limits goes through. -/
theorem mergeMine_frame (unlock : Unlock) (s : SigState) (op : SigOp) (cur : Option Bytes)
    (seq : Int) (hrc : ClientRuns s) :
    (∀ out, mergeMine unlock s op cur seq Bep44.bep44MaxValue = some out →
      MergeOk unlock s op cur seq out) ∧
    (∀ host turn, mergePlaces unlock s op cur seq = some (host, turn) → PlacesFit host turn →
      (mergeMine unlock s op cur seq Bep44.bep44MaxValue).isSome = true) := by
  constructor
  · intro out hout
    unfold mergeMine at hout
    split at hout
    · cases hout
    next host turn hplaces =>
      obtain ⟨hrelay, hcases⟩ := mergePlaces_cases hplaces
      obtain ⟨hfits, hhost, hturn⟩ := cellPart_cellPack (by decide) hout
      rcases hcases with ⟨hplace, rfl, rfl⟩ | ⟨hplace, rfl, rfl, hours⟩
      · refine ⟨hfits, hrelay, ?_, ?_, ?_⟩
        · rw [hhost, if_pos hplace]
        · simp only [hturn, hplace, Bool.true_eq_false, if_false]
        · intro hkind
          rw [hkind] at hplace
          cases hplace
      · refine ⟨hfits, hrelay, ?_, ?_, ?_⟩
        · rw [hhost, if_neg (by simp [hplace])]
        · rw [hturn, if_pos hplace]
        · intro hkind rc hmem t ht m grade hopen
          obtain ⟨cid, ops, rfl⟩ := hrc rc hmem
          exact turnIsOurs_keeps hmem (clientRun_askedHost cid ops) (hours hkind) ht hopen
  · intro host turn hplaces hfit
    rw [mergeMine, hplaces]
    exact cellPack_isSome hfit

/-- A stand-in cipher: the mac repeats the key, and the text is in the clear. -/
def clearUnlock : Unlock := fun key _ mac cipher => if mac = key then some cipher else none

/-- A claimant with id 1 that has met the host `host` and asked it once. -/
def claimantOf (host : Cid) : SigState where
  haveRw := true
  slotKey := fun
    | .rw => List.replicate 16 1
    | .ro => List.replicate 16 2
  rc := some (run clientStep (rdvClientInit (Vector.replicate 8 1))
    [.hostSlot (testMsg .hostinfo host rdvZero 1 0) 10, .next [5]])

theorem clientRuns_claimantOf (host : Cid) : ClientRuns (claimantOf host) := by
  intro rc hmem
  exact ⟨_, _, (Option.some.inj hmem).symm⟩

/-- A cell whose turn place holds `m`, sealed for the read-only class. -/
def turnCell (m : RdvMsg) : Option Bytes :=
  (rdvEncode m rdvMaxMsg).bind fun plain =>
    cellPack Bep44.bep44MaxValue (some [1])
      (some (List.replicate 24 0 ++ List.replicate 16 2 ++ plain))

/-- The claimant's next ask. -/
def askOp : SigOp := { kind := .offer, val := [9], seqSeen := -1, freeTurn := false }

/-- Over an answer that the host addressed to somebody else, the merge goes
through and keeps the host place. -/
theorem mergeMine_frame_othersAnswer :
    let host : Cid := Vector.replicate 8 2
    let cur := turnCell (testMsg .answer host (Vector.replicate 8 3) 4 1)
    ∃ out, mergeMine clearUnlock (claimantOf host) askOp cur 7 Bep44.bep44MaxValue = some out ∧
      MergeOk clearUnlock (claimantOf host) askOp cur 7 out ∧
      cellPart (some out) cellHost = some [1] ∧ cellPart (some out) cellTurn = some [9] := by
  intro host cur
  have hsome : (mergeMine clearUnlock (claimantOf host) askOp cur 7
      Bep44.bep44MaxValue).isSome = true := by decide
  obtain ⟨out, hout⟩ := Option.isSome_iff_exists.mp hsome
  have hok := (mergeMine_frame clearUnlock (claimantOf host) askOp cur 7
    (clientRuns_claimantOf host)).1 out hout
  refine ⟨out, hout, hok, ?_, ?_⟩
  · rw [hok.host]
    decide
  · rw [hok.turn]
    decide

/-- The turn rule does not spare every takeable answer: one under the claimant's
own id, from a host that goes by that id, is taken for an old ask. -/
theorem mergeMine_over_own_id :
    ¬∀ (unlock : Unlock) (s : SigState) (op : SigOp) (cur : Option Bytes) (seq : Int)
      (out : Bytes), ClientRuns s → op.kind = .offer →
      mergeMine unlock s op cur seq Bep44.bep44MaxValue = some out →
      ∀ rc ∈ s.rc, ∀ t ∈ placeOf (cellPart cur cellTurn), ∀ m grade,
        claimantOpen unlock s t = some (m, grade) → rdvClientWouldTake rc m = false := by
  intro h
  let me : Cid := Vector.replicate 8 1
  let answer := testMsg .answer me me 5 1
  let cur := turnCell answer
  have hsome : (mergeMine clearUnlock (claimantOf me) askOp cur 7
      Bep44.bep44MaxValue).isSome = true := by decide
  obtain ⟨out, hout⟩ := Option.isSome_iff_exists.mp hsome
  have hturn : placeOf (cellPart cur cellTurn) =
      some (List.replicate 24 0 ++ List.replicate 16 2 ++
        (rdvEncode answer rdvMaxMsg).getD []) := by decide
  have htake := h clearUnlock (claimantOf me) askOp cur 7 out (clientRuns_claimantOf me) rfl hout
    _ rfl _ hturn answer .ro (by decide)
  exact absurd htake (by decide)

end Sig
end Comrade
