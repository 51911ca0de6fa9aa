import Comrade.Lib.Bytes

/-!
# Filling a buffer

A writer puts its bytes one after the other and gives up at the first one that finds no room.
`putBytes_eq` says in one step what it leaves.
-/

namespace Comrade
namespace Lib

/-- One byte more, where the buffer holds less than `room`. -/
def putByte (room : Nat) (buf : Bytes) (c : UInt8) : Option Bytes :=
  if buf.length < room then some (buf ++ [c]) else none

/-- One byte after the other. -/
def putBytes (room : Nat) (buf s : Bytes) : Option Bytes := s.foldlM (putByte room) buf

variable {room : Nat}

@[simp] theorem putBytes_nil (buf : Bytes) : putBytes room buf [] = some buf := rfl

theorem putBytes_cons (buf s : Bytes) (c : UInt8) :
    putBytes room buf (c :: s) = (putByte room buf c).bind fun b => putBytes room b s := rfl

theorem putBytes_singleton (buf : Bytes) (c : UInt8) :
    putBytes room buf [c] = putByte room buf c := by
  rw [putBytes_cons]
  cases putByte room buf c <;> rfl

theorem putBytes_append (buf s t : Bytes) :
    putBytes room buf (s ++ t) = (putBytes room buf s).bind fun b => putBytes room b t :=
  List.foldlM_append ..

/-- The bytes are all there, if the last of them found room. -/
theorem putBytes_eq (buf s : Bytes) :
    putBytes room buf s =
      if s = [] ∨ buf.length + s.length ≤ room then some (buf ++ s) else none := by
  induction s generalizing buf with
  | nil => simp
  | cons c s ih =>
      rw [putBytes_cons, putByte]
      by_cases hroom : buf.length < room
      · rw [if_pos hroom, Option.bind_some, ih, List.append_assoc, List.singleton_append,
          List.length_append, List.length_singleton, List.length_cons]
        have hiff : (s = [] ∨ buf.length + 1 + s.length ≤ room) ↔
            (c :: s = [] ∨ buf.length + (s.length + 1) ≤ room) := by
          constructor
          · rintro (rfl | h)
            · exact Or.inr hroom
            · exact Or.inr (by omega)
          · rintro (h | h)
            · exact absurd h (List.cons_ne_nil c s)
            · exact Or.inr (by omega)
        simp only [hiff]
      · rw [if_neg hroom, Option.bind_none, if_neg]
        rintro (h | h)
        · exact List.cons_ne_nil c s h
        · rw [List.length_cons] at h
          omega

end Lib
end Comrade
