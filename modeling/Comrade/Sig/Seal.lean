import Comrade.Lib.Bytes

/-!
# Sealed messages

A sealed message is a random nonce of 24 bytes, a mac of 16 and the ciphertext
(`keys.c`).  The cipher itself is a parameter: `lock` is `cc_aead_lock` and
`unlock` is `cc_aead_unlock`, both without associated data.

`Aead` is what the cipher promises of an honest seal: it opens under its own key,
and whatever key it opens under it opens to what was sealed.
-/

namespace Comrade
namespace Sig

open Lib

/-- `SEAL_OVERHEAD`. -/
def sealOverhead : Nat := 24 + 16

/-- A nonce of the cipher. -/
abbrev SealNonce := Vector UInt8 24

/-- `cc_aead_lock`: the mac and the ciphertext. -/
abbrev Lock := (key nonce plain : Bytes) → Option (Bytes × Bytes)

/-- `cc_aead_unlock`: the plaintext of a ciphertext under a key, a nonce and the
mac that goes with them, if they are right. -/
abbrev Unlock := (key nonce mac cipher : Bytes) → Option Bytes

/-- `msg_seal` into a buffer of `dstLen` bytes; `rand` is what `random_bytes` drew,
`none` where it failed. -/
def msgSeal (lock : Lock) (rand : Option SealNonce) (dstLen : Nat) (key plain : Bytes) :
    Option Bytes :=
  if dstLen < plain.length + sealOverhead then none
  else
    match rand with
    | none => none
    | some nonce =>
        match lock key nonce.toList plain with
        | none => none
        | some (mac, cipher) => some (nonce.toList ++ mac ++ cipher)

/-- `msg_open` into a buffer of `dstLen` bytes. -/
def msgOpen (unlock : Unlock) (dstLen : Nat) (key sealed : Bytes) : Option Bytes :=
  if sealed.length < sealOverhead then none
  else if dstLen < sealed.length - sealOverhead then none
  else unlock key (sealed.take 24) ((sealed.drop 24).take 16) (sealed.drop 40)

/-- What an authenticated cipher promises of what `lock` made. -/
structure Aead (lock : Lock) (unlock : Unlock) : Prop where
  lengths : ∀ {key nonce plain mac cipher}, lock key nonce plain = some (mac, cipher) →
    mac.length = 16 ∧ cipher.length = plain.length
  opens : ∀ {key nonce plain mac cipher}, lock key nonce plain = some (mac, cipher) →
    unlock key nonce mac cipher = some plain
  authentic : ∀ {key key' nonce plain mac cipher plain'},
    lock key nonce plain = some (mac, cipher) → unlock key' nonce mac cipher = some plain' →
      plain' = plain

variable {lock : Lock} {unlock : Unlock}

/-- A seal that was made, piece by piece. -/
theorem msgSeal_eq_some {rand : Option SealNonce} {dstLen : Nat} {key plain sealed : Bytes}
    (h : msgSeal lock rand dstLen key plain = some sealed) :
    ∃ (nonce : SealNonce) (mac cipher : Bytes), rand = some nonce ∧
      plain.length + sealOverhead ≤ dstLen ∧ lock key nonce.toList plain = some (mac, cipher) ∧
        sealed = nonce.toList ++ mac ++ cipher := by
  unfold msgSeal at h
  split_ifs at h with hroom
  cases rand with
  | none => cases h
  | some nonce =>
      dsimp only at h
      cases hlock : lock key nonce.toList plain with
      | none =>
          rw [hlock] at h
          cases h
      | some made =>
          rw [hlock] at h
          exact ⟨nonce, made.1, made.2, rfl, by omega, hlock, (Option.some.inj h).symm⟩

/-- Opening a seal that was made is the cipher's own `unlock` of its pieces. -/
theorem msgOpen_pieces (haead : Aead lock unlock) {key key' plain : Bytes} {nonce : SealNonce}
    {mac cipher : Bytes} (hlock : lock key nonce.toList plain = some (mac, cipher))
    {dstLen : Nat} (hroom : plain.length ≤ dstLen) :
    msgOpen unlock dstLen key' (nonce.toList ++ mac ++ cipher) =
      unlock key' nonce.toList mac cipher := by
  obtain ⟨hmac, hcipher⟩ := haead.lengths hlock
  have hnonce : nonce.toList.length = 24 := by simp
  have hlen : (nonce.toList ++ mac ++ cipher).length = 40 + plain.length := by
    rw [List.length_append, List.length_append, hnonce, hmac, hcipher]
  have htake : (nonce.toList ++ mac ++ cipher).take 24 = nonce.toList := by
    rw [List.append_assoc, List.take_append_of_le_length (by omega),
      List.take_of_length_le (by omega)]
  have hdrop : (nonce.toList ++ mac ++ cipher).drop 24 = mac ++ cipher := by
    rw [List.append_assoc, List.drop_append_of_le_length (by omega),
      List.drop_of_length_le (by omega), List.nil_append]
  have hrest : (nonce.toList ++ mac ++ cipher).drop 40 = cipher := by
    rw [List.drop_append_of_le_length (by rw [List.length_append]; omega),
      List.drop_of_length_le (by rw [List.length_append]; omega), List.nil_append]
  unfold msgOpen
  rw [hlen, if_neg (by rw [sealOverhead]; omega), if_neg (by rw [sealOverhead]; omega), htake,
    hdrop, hrest, List.take_append_of_le_length (by omega), List.take_of_length_le (by omega)]

/-- A seal opens under its own key. -/
theorem msgOpen_msgSeal (haead : Aead lock unlock) {rand : Option SealNonce} {dstLen : Nat}
    {key plain sealed : Bytes} (h : msgSeal lock rand dstLen key plain = some sealed)
    {room : Nat} (hroom : plain.length ≤ room) :
    msgOpen unlock room key sealed = some plain := by
  obtain ⟨nonce, mac, cipher, -, -, hlock, rfl⟩ := msgSeal_eq_some h
  rw [msgOpen_pieces haead hlock hroom]
  exact haead.opens hlock

/-- Whatever key a seal opens under, it opens to what was sealed. -/
theorem msgOpen_authentic (haead : Aead lock unlock) {rand : Option SealNonce} {dstLen : Nat}
    {key key' plain plain' sealed : Bytes}
    (h : msgSeal lock rand dstLen key plain = some sealed) {room : Nat}
    (hopen : msgOpen unlock room key' sealed = some plain') : plain' = plain := by
  obtain ⟨nonce, mac, cipher, -, -, hlock, rfl⟩ := msgSeal_eq_some h
  have hroom : plain.length ≤ room := by
    obtain ⟨hmac, hcipher⟩ := haead.lengths hlock
    have hnonce : nonce.toList.length = 24 := by simp
    unfold msgOpen at hopen
    split_ifs at hopen with hshort hlong
    rw [List.length_append, List.length_append, hnonce, hmac, hcipher, sealOverhead] at hlong
    omega
  rw [msgOpen_pieces haead hlock hroom] at hopen
  exact haead.authentic hlock hopen

/-! ## A stand-in cipher -/

/-- The mac of the stand-in cipher: the start of the key. -/
def keyTag (key : Bytes) : Bytes := (key ++ List.replicate 16 0).take 16

/-- A cipher that hides nothing and marks a message with its key. -/
def tagLock : Lock := fun key _ plain => some (keyTag key, plain)

/-- What opens under the stand-in cipher is what carries the key's mark. -/
def tagUnlock : Unlock := fun key _ mac cipher => if mac = keyTag key then some cipher else none

theorem tagAead : Aead tagLock tagUnlock := by
  constructor
  · intro key nonce plain mac cipher h
    obtain ⟨rfl, rfl⟩ := Prod.mk.inj (Option.some.inj h)
    exact ⟨by simp [keyTag], rfl⟩
  · intro key nonce plain mac cipher h
    obtain ⟨rfl, rfl⟩ := Prod.mk.inj (Option.some.inj h)
    exact if_pos rfl
  · intro key key' nonce plain mac cipher plain' h h'
    obtain ⟨rfl, rfl⟩ := Prod.mk.inj (Option.some.inj h)
    unfold tagUnlock at h'
    split_ifs at h'
    exact (Option.some.inj h').symm

end Sig
end Comrade
