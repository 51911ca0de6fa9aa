import Comrade.Lib.Table
import Comrade.Bencode.Codec

/-!
# The item store

What a storing node holds for other peers (`bep44.c`, the item store).  An item
is immutable, named by the hash of its value, or mutable, named by the hash of a
key and a salt, numbered and signed.

The hash and the signature check are a parameter, `Crypto`: the source calls
them through `crypto.h` and relies on nothing but that they are functions.
-/

namespace Comrade
namespace Bep44

open Lib Bencode

/-- `BEP44_MAX_VALUE`. -/
def bep44MaxValue : Nat := 1000

/-- `BEP44_MAX_SALT`. -/
def bep44MaxSalt : Nat := 64

/-- `B44_ITEM_TTL_MS`. -/
def b44ItemTtlMs : Nat := 2 * 60 * 60 * 1000

/-- A node id or a target, 20 bytes. -/
abbrev Id20 := Vector UInt8 20

/-- `cc_sha1` and `cc_ed25519_check`; the check is true for a signature `sig` by
key `k` that verifies over the message. -/
structure Crypto where
  sha1 : Bytes → Id20
  ed25519Check : (sig k msg : Bytes) → Bool

/-- `struct b44_item`; `salt` and `v` stand for their buffers up to `salt_len`
and `v_len`. -/
structure B44Item where
  target : Id20
  k : Bytes
  sig : Bytes
  salt : Bytes
  isMutable : Bool
  seq : Int
  expiresMs : Nat
  v : Bytes
  deriving DecidableEq

/-- `e->store`, with its `store_cap` slots. -/
abbrev Store (cap : Nat) := Fin cap → Option B44Item

/-- `sig_buffer_n`: the text that a signature covers, if it fits `dstLen` bytes. -/
def sigBufferN (dstLen : Nat) (salt : Bytes) (seq : Int) (v : Bytes) : Option Bytes :=
  let b := bencBufInit dstLen
  let b := if salt = [] then b
    else bencStrAdd (bencRawAdd b (ascii ['4', ':', 's', 'a', 'l', 't'])) salt
  let b := bencRawAdd b (ascii ['3', ':', 's', 'e', 'q'])
  let b := bencIntAdd b seq
  let b := bencRawAdd b (ascii ['1', ':', 'v'])
  let b := bencRawAdd b v
  if b.err = true then none else some b.buf

/-- `target_n`. -/
def targetN (C : Crypto) (pk salt : Bytes) : Id20 := C.sha1 (pk ++ salt)

/-- `dist_calc`. -/
def distCalc (id target : Id20) : Id20 := Vector.zipWith (· ^^^ ·) id target

/-- `memcmp` over two ids. -/
def idCmp (a b : Id20) : Int := memcmp a.toList b.toList

/-! ## The order of ids -/

theorem id20_length (a b : Id20) : a.toList.length = b.toList.length := by
  rw [Vector.length_toList, Vector.length_toList]

theorem idCmp_swap (a b : Id20) : idCmp b a = -idCmp a b := memcmp_swap a.toList b.toList

theorem idCmp_eq_zero_iff {a b : Id20} : idCmp a b = 0 ↔ a = b := by
  unfold idCmp
  rw [memcmp_eq_zero_iff (id20_length a b)]
  exact Vector.toList_inj

theorem idCmp_lt_trans {a b c : Id20} (hab : idCmp a b < 0) (hbc : idCmp b c < 0) :
    idCmp a c < 0 :=
  memcmp_neg_trans (id20_length a b) (id20_length b c) hab hbc

theorem idCmp_le_trans {a b c : Id20} (hab : idCmp a b ≤ 0) (hbc : idCmp b c ≤ 0) :
    idCmp a c ≤ 0 := by
  by_cases h₁ : idCmp a b = 0
  · rw [idCmp_eq_zero_iff.1 h₁]
    exact hbc
  · by_cases h₂ : idCmp b c = 0
    · rw [← idCmp_eq_zero_iff.1 h₂]
      exact hab
    · have hab' : idCmp a b < 0 := by omega
      have hbc' : idCmp b c < 0 := by omega
      exact (idCmp_lt_trans hab' hbc').le

theorem idCmp_le_of_not_lt {a b : Id20} (h : ¬idCmp a b < 0) : idCmp b a ≤ 0 := by
  rw [idCmp_swap]
  omega

/-! ## The operations -/

variable {cap : Nat}

/-- Has an item run out at `now`? -/
def B44Item.expired (it : B44Item) (now : Nat) : Bool := decide (now ≥ it.expiresMs)

/-- `store_expire`. -/
def storeExpire (s : Store cap) (now : Nat) : Store cap :=
  fun i => (s i).filter fun it => !it.expired now

/-- `store_slot_of`. -/
def storeSlotOf (s : Store cap) (target : Id20) : Option (Fin cap) :=
  firstSlot s fun o => o.any fun it => it.target == target

/-- The item `store_slot_of` points to, with its slot. -/
def storeItemAt (s : Store cap) (target : Id20) : Option (Fin cap × B44Item) :=
  (storeSlotOf s target).bind fun i => (s i).map fun it => (i, it)

/-- The second loop of `store_free_slot`: the item furthest from our id, with
its distance. -/
def storeVictim (s : Store cap) (myid : Id20) : Option (Fin cap × Id20) :=
  (List.finRange cap).foldl (fun victim i =>
    match s i with
    | none => victim
    | some it =>
        let d := distCalc it.target myid
        match victim with
        | none => some (i, d)
        | some (_, vdist) => if idCmp d vdist > 0 then some (i, d) else victim) none

/-- `store_free_slot`: a slot for an item at `newTarget`, emptied if need be.
`none` where the store is full and the item is no closer than what it holds. -/
def storeFreeSlot (s : Store cap) (myid newTarget : Id20) : Store cap × Option (Fin cap) :=
  match firstSlot s Option.isNone with
  | some i => (s, some i)
  | none =>
      match storeVictim s myid with
      | none => (s, none)
      | some (victim, vdist) =>
          -- a full store gives way only to what is closer to our id
          if idCmp (distCalc newTarget myid) vdist ≥ 0 then (s, none)
          else (Function.update s victim none, some victim)

/-- `item_new`, once the allocation has succeeded. -/
def itemNew (target : Id20) (v : Bytes) (now : Nat) : B44Item where
  target := target
  k := List.replicate 32 0
  sig := List.replicate 64 0
  salt := []
  isMutable := false
  seq := 0
  expiresMs := now + b44ItemTtlMs
  v := v

/-! ## What a scan finds -/

theorem storeItemAt_some {s : Store cap} {target : Id20} {i : Fin cap} {it : B44Item}
    (h : storeItemAt s target = some (i, it)) : s i = some it ∧ it.target = target := by
  obtain ⟨j, hj, hmap⟩ := Option.bind_eq_some_iff.mp h
  obtain ⟨it', hit', heq⟩ := Option.map_eq_some_iff.mp hmap
  cases heq
  refine ⟨hit', ?_⟩
  have hspec := firstSlot_spec hj
  simpa [hit'] using hspec

theorem storeItemAt_none {s : Store cap} {target : Id20} (h : storeItemAt s target = none)
    {i : Fin cap} {it : B44Item} (hi : s i = some it) : it.target ≠ target := by
  intro htarget
  cases hslot : storeSlotOf s target with
  | none =>
      have := firstSlot_eq_none_iff.mp hslot i
      simp [hi, htarget] at this
  | some j =>
      have hspec := firstSlot_spec hslot
      cases hj : s j with
      | none => simp [hj] at hspec
      | some it' => simp [storeItemAt, hslot, hj] at h

theorem storeExpire_eq_some_iff {s : Store cap} {now : Nat} {i : Fin cap} {it : B44Item} :
    storeExpire s now i = some it ↔ s i = some it ∧ it.expired now = false := by
  simp [storeExpire, Option.filter_eq_some_iff]

/-- Making room changes at most the slot it returns. -/
theorem storeFreeSlot_frame {s s' : Store cap} {myid target : Id20} {at' : Option (Fin cap)}
    (h : storeFreeSlot s myid target = (s', at')) :
    (at' = none ∧ s' = s) ∨
      ∃ i, at' = some i ∧ ∀ x, Function.update s' i x = Function.update s i x := by
  unfold storeFreeSlot at h
  cases hfree : firstSlot s Option.isNone with
  | some i =>
      simp only [hfree] at h
      cases h
      exact .inr ⟨i, rfl, fun _ => rfl⟩
  | none =>
      simp only [hfree] at h
      cases hv : storeVictim s myid with
      | none =>
          simp only [hv] at h
          cases h
          exact .inl ⟨rfl, rfl⟩
      | some iv =>
          obtain ⟨victim, vdist⟩ := iv
          simp only [hv] at h
          split_ifs at h
          · cases h
            exact .inl ⟨rfl, rfl⟩
          · cases h
            exact .inr ⟨victim, rfl, fun x => Function.update_idem ..⟩

end Bep44
end Comrade
