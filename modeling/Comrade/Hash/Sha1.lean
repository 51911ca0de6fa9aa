import Comrade.Lib.Word
import Comrade.Lib.Absorb

/-!
# SHA-1

The ids of the mutable items, of the immutable ones and of the write tokens are SHA-1 digests
(`sha1.c`), of messages that are put together from pieces.

* `CcSha1Ctx` is the context, with the bytes that wait for the rest of their block.
* `fipsSha1` is the standard's definition: the padded message as a whole, the message schedule
  and the functions as the standard writes them.
* `ccSha1_pieces`: however a message is cut into pieces, its digest is the standard's.
-/

namespace Comrade
namespace Hash

open Lib

/-! ## The code -/

/-- The words `h[0]` to `h[4]`. -/
structure Sha1State where
  a : UInt32
  b : UInt32
  c : UInt32
  d : UInt32
  e : UInt32
  deriving DecidableEq

/-- `rotl`. -/
def rotl (x n : UInt32) : UInt32 := x <<< n ||| x >>> (32 - n)

/-- The word at index `i` of a block, big end first. -/
def blockWord (p : Bytes) (i : Nat) : UInt32 := UInt32.ofNat (beGet ((p.drop (i * 4)).take 4))

/-- The next of the words `w`. -/
def nextWord (w : List UInt32) : UInt32 :=
  let i := w.length
  rotl (w.getD (i - 3) 0 ^^^ w.getD (i - 8) 0 ^^^ w.getD (i - 14) 0 ^^^ w.getD (i - 16) 0) 1

/-- The words `w[0]` to `w[79]`. -/
def sha1Words (p : Bytes) : List UInt32 :=
  (List.range 64).foldl (fun w _ => w ++ [nextWord w]) ((List.range 16).map (blockWord p))

/-- The values `f` and `k` of a turn of the loop. -/
def sha1Fk (i : Nat) (b c d : UInt32) : UInt32 × UInt32 :=
  if i < 20 then ((b &&& c) ||| (~~~b &&& d), 0x5a827999)
  else if i < 40 then (b ^^^ c ^^^ d, 0x6ed9eba1)
  else if i < 60 then ((b &&& c) ||| (b &&& d) ||| (c &&& d), 0x8f1bbcdc)
  else (b ^^^ c ^^^ d, 0xca62c1d6)

/-- A turn of the loop of `cc_sha1_block`. -/
def sha1Turn (w : List UInt32) (s : Sha1State) (i : Nat) : Sha1State :=
  let fk := sha1Fk i s.b s.c s.d
  { a := rotl s.a 5 + fk.1 + s.e + fk.2 + w.getD i 0
    b := s.a
    c := rotl s.b 30
    d := s.c
    e := s.d }

def Sha1State.add (h s : Sha1State) : Sha1State :=
  ⟨h.a + s.a, h.b + s.b, h.c + s.c, h.d + s.d, h.e + s.e⟩

/-- `cc_sha1_block`. -/
def ccSha1Block (h : Sha1State) (p : Bytes) : Sha1State :=
  h.add ((List.range 80).foldl (sha1Turn (sha1Words p)) h)

/-- The size of a block. -/
def sha1Block : Nat := 64

/-- `struct cc_sha1_ctx`. -/
structure CcSha1Ctx where
  h : Sha1State
  len : UInt64
  buf : Bytes

/-- The words that `cc_sha1_init` sets. -/
def sha1Start : Sha1State := ⟨0x67452301, 0xefcdab89, 0x98badcfe, 0x10325476, 0xc3d2e1f0⟩

/-- `cc_sha1_init`, on whatever is in the buffer. -/
def ccSha1Init (buf : Bytes) : CcSha1Ctx := { h := sha1Start, len := 0, buf := buf }

/-- `memcpy(buf + o, s, n)`. -/
def overlay (buf : Bytes) (o : Nat) (s : Bytes) : Bytes :=
  buf.take o ++ (s ++ buf.drop (o + s.length))

/-- The end of `cc_sha1_update`: the loop over whole blocks, and the bytes that wait. -/
def sha1Rest (ctx : CcSha1Ctx) (p : Bytes) : CcSha1Ctx :=
  { ctx with
    h := absorb sha1Block ccSha1Block ctx.h p
    buf := overlay ctx.buf 0 (leftover sha1Block p) }

/-- `cc_sha1_update`. -/
def ccSha1Update (ctx : CcSha1Ctx) (p : Bytes) : CcSha1Ctx :=
  let fill := ctx.len.toNat % sha1Block
  let ctx := { ctx with len := ctx.len + UInt64.ofNat p.length }
  if fill = 0 then sha1Rest ctx p
  else
    let n := min (sha1Block - fill) p.length
    let buf := overlay ctx.buf fill (p.take n)
    if fill + n < sha1Block then { ctx with buf := buf }
    else sha1Rest { ctx with h := ccSha1Block ctx.h buf, buf := buf } (p.drop n)

/-- The bytes of the five words. -/
def sha1Digest (h : Sha1State) : Bytes :=
  [h.a, h.b, h.c, h.d, h.e].flatMap fun x => bePut 4 x.toNat

/-- The bytes that `cc_sha1_final` adds to a message of `len` bytes. -/
def sha1Pad (len : UInt64) : Bytes :=
  let fill := len.toNat % sha1Block
  let padlen := (if fill < 56 then 56 else 120) - fill
  0x80 :: (List.replicate (padlen - 1) 0 ++ bePut 8 (len * 8).toNat)

/-- `cc_sha1_final`. -/
def ccSha1Final (ctx : CcSha1Ctx) : Bytes := sha1Digest (ccSha1Update ctx (sha1Pad ctx.len)).h

/-- The digest of a message that comes in pieces. -/
def ccSha1Pieces (buf : Bytes) (pieces : List Bytes) : Bytes :=
  ccSha1Final (pieces.foldl ccSha1Update (ccSha1Init buf))

/-- `cc_sha1`. -/
def ccSha1 (buf data : Bytes) : Bytes := ccSha1Final (ccSha1Update (ccSha1Init buf) data)

/-! ## The standard -/

/-- The functions `Ch`, `Parity` and `Maj`, each in its turns. -/
def fipsF (t : Nat) (x y z : UInt32) : UInt32 :=
  if t < 20 then (x &&& y) ^^^ (~~~x &&& z)
  else if t < 40 then x ^^^ y ^^^ z
  else if t < 60 then (x &&& y) ^^^ (x &&& z) ^^^ (y &&& z)
  else x ^^^ y ^^^ z

/-- The constants. -/
def fipsK (t : Nat) : UInt32 :=
  if t < 20 then 0x5a827999 else if t < 40 then 0x6ed9eba1 else if t < 60 then 0x8f1bbcdc
  else 0xca62c1d6

/-- The message schedule of a block. -/
def fipsW (p : Bytes) (t : Nat) : UInt32 :=
  if t < 16 then blockWord p t
  else rotl (fipsW p (t - 3) ^^^ fipsW p (t - 8) ^^^ fipsW p (t - 14) ^^^ fipsW p (t - 16)) 1
termination_by t

/-- The working variables after the turns before `t`. -/
def fipsTurns (h : Sha1State) (p : Bytes) : Nat → Sha1State
  | 0 => h
  | t + 1 =>
      let s := fipsTurns h p t
      { a := rotl s.a 5 + fipsF t s.b s.c s.d + s.e + fipsK t + fipsW p t
        b := s.a
        c := rotl s.b 30
        d := s.c
        e := s.d }

/-- The intermediate hash value behind a block. -/
def fipsBlock (h : Sha1State) (p : Bytes) : Sha1State := h.add (fipsTurns h p 80)

/-- The padded message: a one bit, the fewest zero bits that complete the last block, and the
message's length in bits as a 64-bit number. -/
def fipsPadded (m : Bytes) : Bytes :=
  m ++ 0x80 :: (List.replicate ((119 - m.length % 64) % 64) 0 ++ bePut 8 (8 * m.length))

/-- SHA-1 of a message. -/
def fipsSha1 (m : Bytes) : Bytes :=
  sha1Digest (absorb 64 fipsBlock sha1Start (fipsPadded m))

theorem length_fipsSha1 (m : Bytes) : (fipsSha1 m).length = 20 := by
  simp [fipsSha1, sha1Digest]

/-! ## A block -/

theorem ch_eq (x y z : UInt32) : (x &&& y) ||| (~~~x &&& z) = (x &&& y) ^^^ (~~~x &&& z) := by
  apply UInt32.toBitVec_inj.mp
  ext i
  simp
  cases x.toBitVec[i] <;> simp

theorem maj_eq (x y z : UInt32) :
    (x &&& y) ||| (x &&& z) ||| (y &&& z) = (x &&& y) ^^^ (x &&& z) ^^^ (y &&& z) := by
  apply UInt32.toBitVec_inj.mp
  ext i
  simp
  cases x.toBitVec[i] <;> cases y.toBitVec[i] <;> simp

/-- The code's functions are the standard's. -/
theorem sha1Fk_eq (t : Nat) (x y z : UInt32) : sha1Fk t x y z = (fipsF t x y z, fipsK t) := by
  rw [sha1Fk, fipsF, fipsK, ch_eq, maj_eq]
  split_ifs <;> rfl

/-- The words that have been made are those of the schedule. -/
theorem foldl_nextWord (p : Bytes) (k : Nat) :
    let w := (List.range k).foldl (fun w _ => w ++ [nextWord w]) ((List.range 16).map (blockWord p))
    w.length = 16 + k ∧ ∀ i < 16 + k, w.getD i 0 = fipsW p i := by
  induction k with
  | zero =>
      refine ⟨by simp, ?_⟩
      intro i hi
      rw [fipsW, if_pos hi, List.getD_eq_getElem?_getD]
      simp [List.getElem?_range hi]
  | succ k ih =>
      obtain ⟨hlen, hwords⟩ := ih
      have hk : List.range (k + 1) = List.range k ++ [k] := List.range_succ
      rw [hk, List.foldl_append, List.foldl_cons, List.foldl_nil]
      generalize (List.range k).foldl _ _ = w at hlen hwords
      refine ⟨by rw [List.length_append, hlen]; rfl, ?_⟩
      intro i hi
      by_cases hnew : i < 16 + k
      · rw [List.getD_append _ _ _ _ (by omega)]
        exact hwords i hnew
      · obtain rfl : i = w.length := by omega
        rw [List.getD_append_right _ _ _ _ le_rfl, Nat.sub_self, List.getD_cons_zero, nextWord,
          fipsW, if_neg (by omega)]
        simp only [hwords (w.length - 3) (by omega), hwords (w.length - 8) (by omega),
          hwords (w.length - 14) (by omega), hwords (w.length - 16) (by omega)]

theorem sha1Words_eq (p : Bytes) {i : Nat} (hi : i < 80) : (sha1Words p).getD i 0 = fipsW p i :=
  (foldl_nextWord p 64).2 i hi

theorem foldl_sha1Turn (h : Sha1State) (p : Bytes) {k : Nat} (hk : k ≤ 80) :
    (List.range k).foldl (sha1Turn (sha1Words p)) h = fipsTurns h p k := by
  induction k with
  | zero => rfl
  | succ k ih =>
      rw [List.range_succ, List.foldl_append, ih (by omega), List.foldl_cons, List.foldl_nil,
        sha1Turn, sha1Fk_eq, sha1Words_eq p (by omega)]
      rfl

theorem ccSha1Block_eq : ccSha1Block = fipsBlock := by
  funext h p
  rw [ccSha1Block, foldl_sha1Turn h p le_rfl, fipsBlock]

/-! ## Pieces -/

/-- The low bytes do not depend on what is above them. -/
theorem bePut_mod {k n : Nat} (h : k ≤ n) (v : Nat) : bePut k (v % 256 ^ n) = bePut k v := by
  induction k with
  | zero => rfl
  | succ k ih =>
      have hpow : 256 ^ n = 256 ^ k * (256 * 256 ^ (n - (k + 1))) := by
        rw [← mul_assoc, ← pow_succ, ← pow_add]
        congr 1
        omega
      have hdiv : v % 256 ^ n / 256 ^ k = v / 256 ^ k % (256 * 256 ^ (n - (k + 1))) := by
        rw [hpow, Nat.mod_mul_right_div_self]
      rw [bePut, bePut, ih (by omega), hdiv]
      congr 1
      apply UInt8.toNat_inj.mp
      rw [UInt8.toNat_ofNat', UInt8.toNat_ofNat']
      exact Nat.mod_mod_of_dvd _ (Dvd.intro _ rfl)

/-- The context after a message. -/
structure Absorbed (m : Bytes) (ctx : CcSha1Ctx) : Prop where
  h_eq : ctx.h = absorb sha1Block ccSha1Block sha1Start m
  len_eq : ctx.len = UInt64.ofNat m.length
  length_buf : ctx.buf.length = sha1Block
  waits : ctx.buf.take (m.length % sha1Block) = leftover sha1Block m

theorem length_overlay {buf s : Bytes} {o : Nat} (h : o + s.length ≤ buf.length) :
    (overlay buf o s).length = buf.length := by
  simp only [overlay, List.length_append, List.length_take, List.length_drop]
  omega

theorem take_overlay {buf s : Bytes} {o : Nat} (h : o ≤ buf.length) :
    (overlay buf o s).take (o + s.length) = buf.take o ++ s := by
  rw [overlay, ← List.append_assoc]
  exact List.take_left' (by rw [List.length_append, List.length_take, min_eq_left h])

/-- The count of bytes wraps at a multiple of the size of a block. -/
theorem fill_eq (m : Bytes) :
    (UInt64.ofNat m.length).toNat % sha1Block = m.length % sha1Block := by
  rw [UInt64.toNat_ofNat', sha1Block]
  omega

/-- The rest of a piece, where what came before it is whole blocks. -/
theorem Absorbed.rest {m p : Bytes} {ctx : CcSha1Ctx}
    (hh : absorb sha1Block ccSha1Block ctx.h p =
      absorb sha1Block ccSha1Block sha1Start (m ++ p))
    (hleft : leftover sha1Block p = leftover sha1Block (m ++ p))
    (hlen : ctx.len = UInt64.ofNat (m ++ p).length) (hbuf : ctx.buf.length = sha1Block) :
    Absorbed (m ++ p) (sha1Rest ctx p) where
  h_eq := hh
  len_eq := hlen
  length_buf := by
    have hlt := Nat.mod_lt p.length (show 0 < sha1Block by decide)
    rw [sha1Rest, length_overlay (by rw [length_leftover]; omega), hbuf]
  waits := by
    have htake := @take_overlay ctx.buf (leftover sha1Block p) 0 (by omega)
    rw [length_leftover, Nat.zero_add, List.take_zero, List.nil_append] at htake
    have hmod : (m ++ p).length % sha1Block = p.length % sha1Block := by
      rw [← length_leftover, ← length_leftover, hleft]
    rw [hmod, ← hleft]
    exact htake

/-- The count goes on with the message. -/
theorem Absorbed.count {m : Bytes} {ctx : CcSha1Ctx} (h : Absorbed m ctx) (p : Bytes) :
    ctx.len + UInt64.ofNat p.length = UInt64.ofNat (m ++ p).length := by
  rw [h.len_eq, List.length_append, UInt64.ofNat_add]

/-- The first `n` bytes of a piece, put behind the bytes that wait. -/
theorem Absorbed.joined {m p : Bytes} {ctx : CcSha1Ctx} {n : Nat} (h : Absorbed m ctx)
    (hroom : m.length % sha1Block + n ≤ sha1Block) (hn : n ≤ p.length) :
    let buf := overlay ctx.buf (m.length % sha1Block) (p.take n)
    buf.length = sha1Block ∧
      buf.take (m.length % sha1Block + n) = leftover sha1Block m ++ p.take n := by
  have hlen : (p.take n).length = n := by
    rw [List.length_take]
    omega
  have hbuf := h.length_buf
  constructor
  · rw [length_overlay (by omega), hbuf]
  · have htake := @take_overlay ctx.buf (p.take n) (m.length % sha1Block) (by omega)
    rwa [hlen, h.waits] at htake

/-- A piece that does not complete the block waits with the others. -/
theorem Absorbed.wait {m p : Bytes} {ctx : CcSha1Ctx} (h : Absorbed m ctx)
    (hshort : m.length % sha1Block + p.length < sha1Block) :
    Absorbed (m ++ p) { ctx with
      len := ctx.len + UInt64.ofNat p.length
      buf := overlay ctx.buf (m.length % sha1Block) p } := by
  have hall : p.take p.length = p := List.take_length
  have hleft := length_leftover sha1Block m
  have hwait : (leftover sha1Block m ++ p).length < sha1Block := by
    rw [List.length_append]
    omega
  have hgo := @absorb_append Sha1State sha1Block ccSha1Block (by decide) sha1Start m p
  have hrest := @leftover_append sha1Block (by decide) m p
  rw [absorb_short hwait] at hgo
  rw [leftover_short hwait] at hrest
  have hmod : (m ++ p).length % sha1Block = m.length % sha1Block + p.length := by
    rw [← length_leftover, hrest, List.length_append, hleft]
  have hjoined := h.joined hshort.le le_rfl
  rw [hall] at hjoined
  exact ⟨by rw [hgo, ← h.h_eq], h.count p, hjoined.1, by rw [hmod, hrest]; exact hjoined.2⟩

/-- The first `n` bytes of a piece complete the block, and the rest goes on behind it. -/
theorem Absorbed.complete {m p : Bytes} {ctx : CcSha1Ctx} {n : Nat} (h : Absorbed m ctx)
    (hfull : m.length % sha1Block + n = sha1Block) (hn : n ≤ p.length) :
    let buf := overlay ctx.buf (m.length % sha1Block) (p.take n)
    Absorbed (m ++ p) (sha1Rest { ctx with
      h := ccSha1Block ctx.h buf
      len := ctx.len + UInt64.ofNat p.length
      buf := buf } (p.drop n)) := by
  intro buf
  have hpos : 0 < sha1Block := by decide
  have hleft := length_leftover sha1Block m
  obtain ⟨hbuf, hjoined⟩ : buf.length = sha1Block ∧
      buf.take (m.length % sha1Block + n) = leftover sha1Block m ++ p.take n :=
    h.joined hfull.le hn
  have hsame : buf = leftover sha1Block m ++ p.take n := by
    rw [← hjoined]
    exact (List.take_of_length_le (by omega)).symm
  have hgap : sha1Block - m.length % sha1Block = n := by omega
  have hblock : sha1Block ≤ (leftover sha1Block m ++ p).length := by
    rw [List.length_append]
    omega
  have htake : (leftover sha1Block m ++ p).take sha1Block = buf := by
    rw [hsame, List.take_append, hleft, List.take_of_length_le (by omega), hgap]
  have hdrop : (leftover sha1Block m ++ p).drop sha1Block = p.drop n := by
    rw [List.drop_append, hleft, List.drop_of_length_le (by omega), List.nil_append, hgap]
  have hgo := @absorb_append Sha1State sha1Block ccSha1Block hpos sha1Start m p
  have hrest := leftover_append hpos m p
  rw [absorb_block hpos hblock, htake, hdrop] at hgo
  rw [leftover_block hpos hblock, hdrop] at hrest
  have hsplit : m ++ p = (m ++ p.take n) ++ p.drop n := by
    rw [List.append_assoc, List.take_append_drop]
  have hcount := h.count p
  rw [hsplit] at hgo hrest hcount ⊢
  exact Absorbed.rest (by rw [hgo, ← h.h_eq]) hrest.symm hcount hbuf

/-- `cc_sha1_update` is the message going on. -/
theorem Absorbed.update {m : Bytes} {ctx : CcSha1Ctx} (h : Absorbed m ctx) (p : Bytes) :
    Absorbed (m ++ p) (ccSha1Update ctx p) := by
  have hpos : 0 < sha1Block := by decide
  have hfill : ctx.len.toNat % sha1Block = m.length % sha1Block := by rw [h.len_eq, fill_eq]
  have hlt := Nat.mod_lt m.length hpos
  rw [ccSha1Update]
  simp only [hfill]
  by_cases hzero : m.length % sha1Block = 0
  · -- No bytes wait.
    have hnil : leftover sha1Block m = [] := by
      apply List.eq_nil_of_length_eq_zero
      rw [length_leftover, hzero]
    have hgo := @absorb_append Sha1State sha1Block ccSha1Block hpos sha1Start m p
    have hrest := leftover_append hpos m p
    rw [hnil, List.nil_append] at hgo hrest
    rw [if_pos hzero]
    exact Absorbed.rest (by rw [hgo, ← h.h_eq]) hrest.symm (h.count p) h.length_buf
  · rw [if_neg hzero]
    by_cases hshort : m.length % sha1Block + p.length < sha1Block
    · have hmin : min (sha1Block - m.length % sha1Block) p.length = p.length := by omega
      rw [hmin, if_pos hshort, List.take_length]
      exact h.wait hshort
    · have hmin : min (sha1Block - m.length % sha1Block) p.length =
          sha1Block - m.length % sha1Block := by omega
      rw [hmin, if_neg (by omega)]
      exact h.complete (by omega) (by omega)

theorem Absorbed.pieces {m : Bytes} {ctx : CcSha1Ctx} (h : Absorbed m ctx)
    (pieces : List Bytes) :
    Absorbed (m ++ pieces.flatten) (pieces.foldl ccSha1Update ctx) := by
  induction pieces generalizing m ctx with
  | nil => simpa using h
  | cons p pieces ih =>
      have hstep := ih (h.update p)
      rwa [List.append_assoc] at hstep

theorem Absorbed.start {buf : Bytes} (hbuf : buf.length = sha1Block) :
    Absorbed [] (ccSha1Init buf) :=
  ⟨(absorb_short (by decide) _).symm, rfl, hbuf, rfl⟩

/-- What `cc_sha1_final` adds pads the message. -/
theorem append_sha1Pad (m : Bytes) :
    m ++ sha1Pad (UInt64.ofNat m.length) = fipsPadded m := by
  have hbits : (UInt64.ofNat m.length * 8).toNat = 8 * m.length % 256 ^ 8 := by
    rw [UInt64.toNat_mul, UInt64.toNat_ofNat']
    have height : (8 : UInt64).toNat = 8 := rfl
    rw [height]
    omega
  rw [sha1Pad, fipsPadded, fill_eq, hbits, bePut_mod le_rfl]
  have hzeros : (if m.length % sha1Block < 56 then 56 else 120) - m.length % sha1Block - 1 =
      (119 - m.length % 64) % 64 := by
    rw [sha1Block]
    split_ifs <;> omega
  simp only [hzeros]

/-- The digest of the message that a context has taken. -/
theorem Absorbed.final {m : Bytes} {ctx : CcSha1Ctx} (h : Absorbed m ctx) :
    ccSha1Final ctx = fipsSha1 m := by
  have hend := h.update (sha1Pad ctx.len)
  rw [ccSha1Final, hend.h_eq, h.len_eq, append_sha1Pad, ccSha1Block_eq]
  rfl

/-- However a message is cut into pieces, its digest is the standard's. -/
theorem ccSha1_pieces (buf : Bytes) (hbuf : buf.length = sha1Block) (pieces : List Bytes) :
    ccSha1Pieces buf pieces = fipsSha1 pieces.flatten :=
  ((Absorbed.start hbuf).pieces pieces).final

/-- A message in three pieces, the second of them empty. -/
theorem ccSha1_pieces_three :
    ccSha1Pieces (List.replicate 64 0xff) [[0x61], [], [0x62, 0x63]] =
      fipsSha1 [0x61, 0x62, 0x63] :=
  ccSha1_pieces (List.replicate 64 0xff) (List.length_replicate ..) [[0x61], [], [0x62, 0x63]]

end Hash
end Comrade
