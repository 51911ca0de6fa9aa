import Comrade.Bep44.Server
import Comrade.Hash.Sha1

/-!
# The digests that name an item

`target_n` and `token_make` put their messages together from pieces; the rest of the store
takes the digest of a whole message (`Crypto`).  With SHA-1 for it the two agree.
-/

namespace Comrade
namespace Bep44

open Lib Hash

/-- A digest as an id. -/
def sha1Id (s : Bytes) : Id20 := ⟨(fipsSha1 s).toArray, length_fipsSha1 s⟩

/-- The program's digest, with some check of signatures. -/
def sha1Crypto (ed25519Check : (sig k msg : Bytes) → Bool) : Crypto where
  sha1 := sha1Id
  ed25519Check := ed25519Check

/-- The pieces that `target_n` hashes. -/
def targetPieces (pk salt : Bytes) : List Bytes := pk :: if salt = [] then [] else [salt]

/-- The pieces that `token_make` hashes. -/
def tokenPieces (secret : Bytes) (addr : Sockaddr) (target : Id20) : List Bytes :=
  let ab := (addrBytes addr).elim [] Prod.snd
  secret :: ((if ab = [] then [] else [ab]) ++ [target.toList])

variable {check : (sig k msg : Bytes) → Bool} {buf : Bytes}

/-- A piece that is left out when it is empty. -/
theorem flatten_ifNonempty (s : Bytes) : (if s = [] then [] else [s]).flatten = s := by
  split_ifs with h
  · rw [h, List.flatten_nil]
  · rw [List.flatten_singleton]

theorem sha1Pieces_eq (hbuf : buf.length = sha1Block) (pieces : List Bytes) :
    ccSha1Pieces buf pieces = (sha1Id pieces.flatten).toList :=
  ((Absorbed.start hbuf).pieces pieces).final

/-- `bep44_immutable_target`. -/
theorem immutableTarget_eq (hbuf : buf.length = sha1Block) (v : Bytes) :
    ccSha1 buf v = ((sha1Crypto check).sha1 v).toList :=
  ((Absorbed.start hbuf).update v).final

theorem targetN_pieces (hbuf : buf.length = sha1Block) (pk salt : Bytes) :
    ccSha1Pieces buf (targetPieces pk salt) = (targetN (sha1Crypto check) pk salt).toList := by
  rw [sha1Pieces_eq hbuf, targetPieces, List.flatten_cons, flatten_ifNonempty]
  rfl

theorem tokenMake_pieces (hbuf : buf.length = sha1Block) (secret : Bytes) (addr : Sockaddr)
    (target : Id20) :
    (ccSha1Pieces buf (tokenPieces secret addr target)).take b44TokenLen =
      tokenMake (sha1Crypto check) secret addr target := by
  rw [sha1Pieces_eq hbuf, tokenPieces, List.flatten_cons, List.flatten_append,
    flatten_ifNonempty, List.flatten_singleton, ← List.append_assoc]
  rfl

end Bep44
end Comrade
