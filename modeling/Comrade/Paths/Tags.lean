import Comrade.Paths.Probe

/-!
# What the datagrams of a session open with

`keys_derive` draws two tags from the session's secret: a probe opens with one and stream
data with the other.  A WireGuard datagram opens with its message type, 1 to 4 in little
endian, and no tag may be mistaken for one.

* `tagsLoop` is the loop of `keys_derive`, which draws until the tags will do.
* `Tags.Apart` says that they will: they differ, and neither is a message type as it goes
  on the wire.
* `keysDerive_tags`: the loop ends within nine draws, whatever is drawn.
-/

namespace Comrade
namespace Paths

open Lib Sig

/-- `wg_msg_type`. -/
def wgMsgType (firstFourLe : UInt32) : Bool := 1 ≤ firstFourLe && firstFourLe ≤ 4

/-- `bswap32`. -/
def bswap32 (v : UInt32) : UInt32 :=
  (v >>> 24) ||| ((v >>> 8) &&& (0xff00 : UInt32)) ||| ((v <<< 8) &&& (0xff0000 : UInt32)) |||
    (v <<< 24)

/-- `probe_magic` and `conv` of `struct session_keys`. -/
structure Tags where
  probeMagic : UInt32
  conv : UInt32
  deriving DecidableEq

/-- The labels of `keys_derive`. -/
def sigInfo : Bytes := ascii "comrade1 sig key".toList
def seedInfo : Bytes := ascii "comrade1 bep44 seed".toList
def wireInfo : Bytes := ascii "comrade1 wire tags".toList
def portInfo : Bytes := ascii "comrade1 mcast port".toList

/-- What the draw numbered `n` is made of. -/
def wireLabel (n : Nat) : Bytes := if n = 0 then wireInfo else wireInfo ++ [UInt8.ofNat n]

/-- Four bytes of the digest, shifted in one by one. -/
def tagAt (tags : Vector UInt8 32) (o : Nat) : UInt32 :=
  (List.range 4).foldl (fun v i => (v <<< 8) ||| (tags.toList.getD (o + i) 0).toUInt32) 0

/-- The tags of one draw. -/
def tagsDraw (blake2b : Blake2b) (rdv : Bytes) (n : Nat) : Tags :=
  let tags := blake2b rdv (wireLabel n)
  { probeMagic := tagAt tags 0, conv := tagAt tags 4 }

/-- The test of the loop. -/
def tagsOk (t : Tags) : Bool :=
  t.probeMagic != t.conv && !wgMsgType (bswap32 t.probeMagic) && !wgMsgType t.conv

/-- The tags of the last draw, forced apart. -/
def tagsForced (t : Tags) : Tags :=
  { probeMagic := (t.probeMagic &&& 0x7fffffff) ||| 0x80, conv := t.conv ||| 0x80000000 }

/-- The loop of `keys_derive` from draw `n` on, which has no bound of its own: the tags and
the draws made.  Nothing where `fuel` draws do not end it. -/
def tagsLoop (blake2b : Blake2b) (rdv : Bytes) : (fuel n : Nat) → Option (Tags × Nat)
  | 0, _ => none
  | fuel + 1, n =>
      let t := tagsDraw blake2b rdv n
      if tagsOk t = true then some (t, n + 1)
      else if n = 8 then some (tagsForced t, n + 1)
      else tagsLoop blake2b rdv fuel (n + 1)

/-- `struct session_keys`; `bep44` is the key pair, secret half first. -/
structure SessionKeys where
  sigKey : Vector UInt8 32
  bep44 : Bytes × Bytes
  tags : Tags
  mcastPort : UInt16

/-- `keys_derive`, with `cc_ed25519_key_pair` as `keyPair`: the keys, and the draws made for
the tags.  The flag is whether the key pair could be made. -/
def keysDerive (blake2b : Blake2b) (keyPair : Bytes → (Bytes × Bytes) × Bool) (fuel : Nat)
    (rdv : Bytes) : Option (SessionKeys × Bool × Nat) :=
  let pb := (blake2b rdv portInfo).toList
  let pair := keyPair (blake2b rdv seedInfo).toList
  (tagsLoop blake2b rdv fuel 0).map fun drawn =>
    ({ sigKey := blake2b rdv sigInfo
       bep44 := pair.1
       tags := drawn.1
       mcastPort := UInt16.ofNat (32768 + (((pb.getD 0 0).toNat * 256 + (pb.getD 1 0).toNat)
         &&& 0x3fff)) }, pair.2, drawn.2)

/-! ## What opens like a message of WireGuard -/

/-- The datagram opens with a message type of WireGuard. -/
def WgOpens (data : Bytes) : Prop :=
  ∃ type : UInt8, 1 ≤ type ∧ type ≤ 4 ∧ data.take 4 = [type, 0, 0, 0]

/-- How a stream datagram opens: `conv`, the least significant byte first. -/
def convWire (conv : UInt32) : Bytes := (bePut 4 conv.toNat).reverse

/-- How a probe opens: `path_put32` of the tag. -/
def magicWire (magic : UInt32) : Bytes := bePut 4 magic.toNat

/-- The tags of a session do: they differ, and no datagram that opens with one of them opens
like a message of WireGuard. -/
structure Tags.Apart (t : Tags) : Prop where
  ne : t.probeMagic ≠ t.conv
  probe : ∀ rest, ¬WgOpens (magicWire t.probeMagic ++ rest)
  stream : ∀ rest, ¬WgOpens (convWire t.conv ++ rest)

/-- Bit `i` of a word turned round: its byte is counted from the other end. -/
theorem bswap32_getLsbD (v : UInt32) {i : Nat} (hi : i < 32) :
    (bswap32 v).toBitVec.getLsbD i = v.toBitVec.getLsbD (8 * (3 - i / 8) + i % 8) := by
  simp only [bswap32]
  interval_cases i <;> simp

theorem bswap32_bswap32 (v : UInt32) : bswap32 (bswap32 v) = v := by
  apply UInt32.eq_of_toBitVec_eq
  apply BitVec.eq_of_getLsbD_eq
  intro i hi
  have hback : 8 * (3 - (8 * (3 - i / 8) + i % 8) / 8) + (8 * (3 - i / 8) + i % 8) % 8 = i := by
    omega
  rw [bswap32_getLsbD _ hi, bswap32_getLsbD v (by omega), hback]

theorem wgMsgType_iff (v : UInt32) : wgMsgType v = true ↔ v = 1 ∨ v = 2 ∨ v = 3 ∨ v = 4 := by
  simp only [wgMsgType, Bool.and_eq_true, decide_eq_true_eq, UInt32.le_iff_toNat_le,
    ← UInt32.toNat_inj]
  simp
  omega

/-- The number that four bytes of a word spell is the word. -/
theorem toNat_of_bePut {v : UInt32} {b : Bytes} (h : bePut 4 v.toNat = b) : v.toNat = beGet b := by
  rw [← h, beGet_bePut_of_lt v.toNat_lt]

theorem wgType_cases {type : UInt8} (hlo : 1 ≤ type) (hhi : type ≤ 4) :
    type = 1 ∨ type = 2 ∨ type = 3 ∨ type = 4 := by
  rw [UInt8.le_iff_toNat_le] at hlo hhi
  simp only [← UInt8.toNat_inj]
  simp at hlo hhi ⊢
  omega

/-- A stream datagram is told from one of WireGuard by the test as it stands. -/
theorem wgOpens_convWire_iff (v : UInt32) (rest : Bytes) :
    WgOpens (convWire v ++ rest) ↔ wgMsgType v = true := by
  have hopen : (convWire v ++ rest).take 4 = (bePut 4 v.toNat).reverse := by
    rw [convWire, List.take_left' (by simp)]
  unfold WgOpens
  rw [hopen, wgMsgType_iff]
  constructor
  · rintro ⟨type, hlo, hhi, htype⟩
    have hv := toNat_of_bePut (List.reverse_eq_iff.mp htype)
    rcases wgType_cases hlo hhi with rfl | rfl | rfl | rfl
    · exact .inl (UInt32.toNat_inj.mp hv)
    · exact .inr (.inl (UInt32.toNat_inj.mp hv))
    · exact .inr (.inr (.inl (UInt32.toNat_inj.mp hv)))
    · exact .inr (.inr (.inr (UInt32.toNat_inj.mp hv)))
  · rintro (rfl | rfl | rfl | rfl)
    · exact ⟨1, by decide, by decide, rfl⟩
    · exact ⟨2, by decide, by decide, rfl⟩
    · exact ⟨3, by decide, by decide, rfl⟩
    · exact ⟨4, by decide, by decide, rfl⟩

/-- A probe is told from one by the test of its tag turned round. -/
theorem wgOpens_magicWire_iff (v : UInt32) (rest : Bytes) :
    WgOpens (magicWire v ++ rest) ↔ wgMsgType (bswap32 v) = true := by
  have hopen : (magicWire v ++ rest).take 4 = bePut 4 v.toNat := by
    rw [magicWire, List.take_left' (length_bePut 4 _)]
  unfold WgOpens
  rw [hopen, wgMsgType_iff]
  constructor
  · rintro ⟨type, hlo, hhi, htype⟩
    have hv := toNat_of_bePut htype
    rcases wgType_cases hlo hhi with rfl | rfl | rfl | rfl
    · exact .inl (by rw [show v = 0x01000000 from UInt32.toNat_inj.mp hv]; decide)
    · exact .inr (.inl (by rw [show v = 0x02000000 from UInt32.toNat_inj.mp hv]; decide))
    · exact .inr (.inr (.inl (by rw [show v = 0x03000000 from UInt32.toNat_inj.mp hv]; decide)))
    · exact .inr (.inr (.inr (by rw [show v = 0x04000000 from UInt32.toNat_inj.mp hv]; decide)))
  · intro h
    -- turned round twice, the tag is what it was
    have hback := bswap32_bswap32 v
    rcases h with h | h | h | h
    · rw [h] at hback
      exact ⟨1, by decide, by decide, by rw [← hback]; decide⟩
    · rw [h] at hback
      exact ⟨2, by decide, by decide, by rw [← hback]; decide⟩
    · rw [h] at hback
      exact ⟨3, by decide, by decide, by rw [← hback]; decide⟩
    · rw [h] at hback
      exact ⟨4, by decide, by decide, by rw [← hback]; decide⟩

/-! ## The loop -/

/-- The test of the loop is what the tags have to meet. -/
theorem tagsOk_iff (t : Tags) : tagsOk t = true ↔ t.Apart := by
  unfold tagsOk
  simp only [Bool.and_eq_true, bne_iff_ne, ne_eq, Bool.not_eq_true', ← Bool.not_eq_true]
  constructor
  · rintro ⟨⟨hne, hprobe⟩, hstream⟩
    refine ⟨hne, ?_, ?_⟩
    · intro rest
      rwa [wgOpens_magicWire_iff]
    · intro rest
      rwa [wgOpens_convWire_iff]
  · rintro ⟨hne, hprobe, hstream⟩
    have hprobe' := hprobe []
    have hstream' := hstream []
    rw [wgOpens_magicWire_iff] at hprobe'
    rw [wgOpens_convWire_iff] at hstream'
    exact ⟨⟨hne, hprobe'⟩, hstream'⟩

/-- Tags forced apart do, whatever was drawn: the top bit tells the two from each other, and
no message type has the bits that are set. -/
theorem tagsForced_apart (t : Tags) : (tagsForced t).Apart := by
  rw [← tagsOk_iff]
  unfold tagsOk tagsForced
  have hmagic : ∀ m : UInt32, ((m &&& 0x7fffffff) ||| 0x80).toBitVec.getLsbD 31 = false ∧
      (bswap32 ((m &&& 0x7fffffff) ||| 0x80)).toBitVec.getLsbD 31 = true := by
    intro m
    constructor
    · simp
    · rw [bswap32_getLsbD _ (by decide)]
      simp
  have hconv : ∀ c : UInt32, (c ||| 0x80000000).toBitVec.getLsbD 31 = true := by
    intro c
    simp
  have hhigh : ∀ v : UInt32, v.toBitVec.getLsbD 31 = true → wgMsgType v = false := by
    intro v hv
    rw [← Bool.not_eq_true, wgMsgType_iff]
    rintro (rfl | rfl | rfl | rfl)
    all_goals simp at hv
  have hne : (t.probeMagic &&& 0x7fffffff) ||| 0x80 ≠ t.conv ||| 0x80000000 := by
    intro heq
    have hbit := (hmagic t.probeMagic).1
    rw [heq, hconv] at hbit
    cases hbit
  rw [hhigh _ (hmagic t.probeMagic).2, hhigh _ (hconv t.conv)]
  simpa using hne

/-- From a draw that is one of the first nine on, the loop ends at the ninth at the latest. -/
theorem tagsLoop_ends (blake2b : Blake2b) (rdv : Bytes) {fuel n : Nat} (hn : n ≤ 8)
    (hfuel : 9 ≤ n + fuel) :
    ∃ t draws, tagsLoop blake2b rdv fuel n = some (t, draws) ∧ draws ≤ 9 ∧ t.Apart := by
  induction fuel generalizing n with
  | zero => omega
  | succ fuel ih =>
      unfold tagsLoop
      dsimp only
      by_cases hok : tagsOk (tagsDraw blake2b rdv n) = true
      · rw [if_pos hok]
        exact ⟨_, _, rfl, by omega, (tagsOk_iff _).mp hok⟩
      · rw [if_neg hok]
        by_cases hlast : n = 8
        · rw [if_pos hlast]
          exact ⟨_, _, rfl, by omega, tagsForced_apart _⟩
        · rw [if_neg hlast]
          exact ih (by omega) (by omega)

/-- The tags of a session are found in nine draws at most, whatever the hash gives, and they
do: they differ, and neither opens a datagram like a message of WireGuard. -/
theorem keysDerive_tags (blake2b : Blake2b) (keyPair : Bytes → (Bytes × Bytes) × Bool)
    (rdv : Bytes) (extra : Nat) :
    ∃ keys ok draws, keysDerive blake2b keyPair (9 + extra) rdv = some (keys, ok, draws) ∧
      draws ≤ 9 ∧ keys.tags.probeMagic ≠ keys.tags.conv ∧
      (∀ rest, ¬WgOpens (magicWire keys.tags.probeMagic ++ rest)) ∧
      ∀ rest, ¬WgOpens (convWire keys.tags.conv ++ rest) := by
  obtain ⟨t, draws, hloop, hdraws, hapart⟩ :=
    tagsLoop_ends blake2b rdv (show 0 ≤ 8 by omega) (show 9 ≤ 0 + (9 + extra) by omega)
  unfold keysDerive
  rw [hloop]
  exact ⟨_, _, _, rfl, hdraws, hapart.ne, hapart.probe, hapart.stream⟩

/-- A hash that gives nothing but zeros takes all nine draws. -/
example : tagsLoop (fun _ _ => Vector.replicate 32 0) [] 9 0 =
    some ({ probeMagic := 0x80, conv := 0x80000000 }, 9) := by
  decide

/-- A probe built with the tag of a session does not open like a message of WireGuard. -/
theorem pathProbeBuild_opens {t : Tags} (h : t.Apart) {lock : Lock} {rand : Option SealNonce}
    {outLen : Nat} {key data : Bytes} {pr : WireProbe}
    (hbuild : pathProbeBuild lock rand outLen t.probeMagic key pr = some data) :
    ¬WgOpens data := by
  obtain ⟨-, sealed, -, rfl⟩ := pathProbeBuild_eq_some hbuild
  exact h.probe sealed

end Paths
end Comrade
