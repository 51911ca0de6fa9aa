import Comrade.Lib.Bytes

/-!
# One way of a reliable channel

What is on its way through one direction of a reliable and ordered channel: data, then at
most one end of the stream, then a close.  The reader's end remembers whether the end of the
stream has arrived.

* `payload` is the data still to arrive.
* `ended` says whether the writer has ended the stream, from what has arrived and what is on
  its way.
* `Orderly` is the order of the three kinds; each thing a writer may add keeps it, and each
  arrival does.
-/

namespace Comrade
namespace Lib

/-- A message of a channel. -/
inductive ChanMsg where
  | data (bytes : Bytes)
  | eof
  | close
  deriving DecidableEq

/-- The data still to arrive. -/
def payload (w : List ChanMsg) : Bytes :=
  w.flatMap fun m =>
    match m with
    | .data b => b
    | .eof => []
    | .close => []

/-- The stream has been ended, with `eof` for whether the reader knows. -/
def ended (eof : Bool) (w : List ChanMsg) : Bool := eof || w.contains .eof

/-- The messages on their way come in order: no data after the end of the stream, no second
end, and no close before it. -/
def Orderly : Bool → List ChanMsg → Prop
  | _, [] => True
  | false, .data _ :: w => Orderly false w
  | false, .eof :: w => Orderly true w
  | true, .close :: w => Orderly true w
  | false, .close :: _ => False
  | true, .data _ :: _ => False
  | true, .eof :: _ => False

@[simp] theorem payload_nil : payload [] = [] := rfl

@[simp] theorem payload_data (b : Bytes) (w : List ChanMsg) :
    payload (.data b :: w) = b ++ payload w := rfl

@[simp] theorem payload_eof (w : List ChanMsg) : payload (.eof :: w) = payload w := rfl

@[simp] theorem payload_close (w : List ChanMsg) : payload (.close :: w) = payload w := rfl

@[simp] theorem payload_append (w w' : List ChanMsg) :
    payload (w ++ w') = payload w ++ payload w' :=
  List.flatMap_append

@[simp] theorem ended_nil (eof : Bool) : ended eof [] = eof := by simp [ended]

@[simp] theorem ended_data (eof : Bool) (b : Bytes) (w : List ChanMsg) :
    ended eof (.data b :: w) = ended eof w := by
  simp [ended]

@[simp] theorem ended_eof (eof : Bool) (w : List ChanMsg) : ended eof (.eof :: w) = true := by
  simp [ended]

@[simp] theorem ended_close (eof : Bool) (w : List ChanMsg) :
    ended eof (.close :: w) = ended eof w := by
  simp [ended]

@[simp] theorem ended_true (w : List ChanMsg) : ended true w = true := by simp [ended]

theorem ended_append (eof : Bool) (w w' : List ChanMsg) :
    ended eof (w ++ w') = ended (ended eof w) w' := by
  simp [ended, Bool.or_assoc]

/-- Nothing is read after the end of the stream. -/
theorem payload_of_orderly {w : List ChanMsg} (h : Orderly true w) : payload w = [] := by
  induction w with
  | nil => rfl
  | cons m w ih =>
      cases m with
      | data b => exact False.elim h
      | eof => exact False.elim h
      | close => exact ih h

/-- What is added at the end is in order if it is in order after all that came before. -/
theorem Orderly.append {eof : Bool} {w w' : List ChanMsg} (h : Orderly eof w)
    (h' : Orderly (ended eof w) w') : Orderly eof (w ++ w') := by
  induction w generalizing eof with
  | nil => simpa using h'
  | cons m w ih =>
      cases eof <;> cases m <;> simp_all [Orderly]

end Lib
end Comrade
