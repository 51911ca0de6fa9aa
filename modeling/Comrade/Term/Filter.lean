import Comrade.Lib.Scanf
import Comrade.Lib.Word

/-!
# The terminal filter

`termfilter.c` sits between a terminal and tmux.  It holds back one escape sequence at a time
and rewrites the terminal's answer to a size query, `ESC [ 8 ; rows ; cols t`, so that tmux
sees `reserve` rows less.

* `step` is the body of the loop of `termfilter_run`, `termfilterRun` one call and
  `filterCalls` any number of calls.
* `report` is the text of a size answer and `Rewritten` what the filter is for: its input with
  the answers rewritten and everything else as it is.
* `Clean` says of an input that no answer begins inside a sequence held back, and that no other
  sequence is taken for an answer.
-/

namespace Comrade
namespace Term

open Lib

/-! ## The code -/

/-- `033`. -/
def esc : UInt8 := 27

/-- `sizeof f->pend`. -/
def pendSize : Nat := 32

/-- The final byte of a control sequence. -/
def isFinal (c : UInt8) : Bool := 0x40 ≤ c && c ≤ 0x7e

/-- What `sscanf` takes of `"\\033[8;%5d;%5dt"`: the two numbers it converts.  Whether the `t`
behind them is there does not change its result. -/
def scanSize : Scan (Int × Int) := do
  scanText (esc :: ascii "[8;".toList)
  let rows ← scanIntWide 5
  scanText (ascii ";".toList)
  let cols ← scanIntWide 5
  return (rows, cols)

/-- `printf`'s `%d`. -/
def printInt (n : Int) : Bytes := if n < 0 then ch '-' :: decimal n.natAbs else decimal n.natAbs

/-- The test of `emit_seq`: the rows and columns of a sequence to be rewritten. -/
def sizeAnswer (reserve : Nat) (seq : Bytes) : Option (Int × Int) :=
  if seq.getLast? = some (ch 't') ∧ 0 < reserve then
    match scanSize (cString seq) with
    | some ((rows, cols), _) => if (reserve : Int) < rows then some (rows, cols) else none
    | none => none
  else none

/-- The answer that `emit_seq` prints. -/
def printAnswer (rows cols : Int) : Bytes :=
  esc :: ascii "[8;".toList ++ printInt rows ++ ascii ";".toList ++ printInt cols ++
    ascii "t".toList

/-- `emit_seq`. -/
def emitSeq (reserve : Nat) (pend : Bytes) : Bytes :=
  match sizeAnswer reserve pend with
  | some (rows, cols) => printAnswer (rows - reserve) cols
  | none => pend

/-- A byte outside a sequence: what is held after it and what is written. -/
def outside (c : UInt8) : Bytes × Bytes := if c = esc then ([c], []) else ([], [c])

/-- One byte of input: what is held after it and what is written. -/
def step (reserve : Nat) (pend : Bytes) (c : UInt8) : Bytes × Bytes :=
  if pend.length = 0 then outside c
  else if pend.length = 1 then
    if c = ch '[' then (pend ++ [c], [])
    else ((outside c).1, pend ++ (outside c).2)
  else if pendSize - 1 ≤ pend.length then ((outside c).1, pend ++ (outside c).2)
  else if isFinal c then ([], emitSeq reserve (pend ++ [c]))
  else (pend ++ [c], [])

/-- `termfilter_run`: what is held after a call and what it writes. -/
def termfilterRun (reserve : Nat) (pend : Bytes) : Bytes → Bytes × Bytes
  | [] => (pend, [])
  | c :: s =>
      let (pend', out) := step reserve pend c
      let (held, rest) := termfilterRun reserve pend' s
      (held, out ++ rest)

/-- Any number of calls. -/
def filterCalls (reserve : Nat) (pend : Bytes) : List Bytes → Bytes × Bytes
  | [] => (pend, [])
  | s :: calls =>
      let (pend', out) := termfilterRun reserve pend s
      let (held, rest) := filterCalls reserve pend' calls
      (held, out ++ rest)

/-! ## What it is for -/

/-- The text of a size answer. -/
def report (r c : Bytes) : Bytes :=
  esc :: ascii "[8;".toList ++ r ++ ascii ";".toList ++ c ++ ascii "t".toList

/-- A decimal number of at most five digits. -/
structure Number (d : Bytes) : Prop where
  ne_nil : d ≠ []
  short : d.length ≤ 5
  digits : ∀ c ∈ d, isDigit c = true

/-- The answer with `r` rows and `c` columns is one to be rewritten. -/
structure Rewritable (reserve : Nat) (r c : Bytes) : Prop where
  rows : Number r
  cols : Number c
  reserved : 0 < reserve
  more : reserve < digitsValue 0 r

/-- A complete answer to be rewritten stands at the head of `s`. -/
def ReportAt (reserve : Nat) (s : Bytes) : Prop :=
  ∃ r c u, Rewritable reserve r c ∧ s = report r c ++ u

/-- `t` is `s` with each complete answer rewritten, and every other byte as it is. -/
inductive Rewritten (reserve : Nat) : Bytes → Bytes → Prop
  | nil : Rewritten reserve [] []
  | report {r c s t : Bytes} : Rewritable reserve r c → Rewritten reserve s t →
      Rewritten reserve (report r c ++ s)
        (report (decimal (digitsValue 0 r - reserve)) c ++ t)
  | other {x : UInt8} {s t : Bytes} : ¬ReportAt reserve (x :: s) → Rewritten reserve s t →
      Rewritten reserve (x :: s) (x :: t)

/-- The bytes held while a control sequence is read. -/
def InSequence (pend : Bytes) : Prop := 2 ≤ pend.length ∧ pend.length < pendSize - 1

/-- With `pend` held, the byte `c` with `s` behind it is none that goes wrong: it does not begin
an answer inside another sequence, and it does not close a sequence that passes for an answer
unless that is one, with its columns printed plainly. -/
structure CleanByte (reserve : Nat) (pend : Bytes) (c : UInt8) (s : Bytes) : Prop where
  starts : InSequence pend → ¬ReportAt reserve (c :: s)
  closes : InSequence pend → isFinal c = true → sizeAnswer reserve (pend ++ [c]) ≠ none →
    ∃ rows cols, Rewritable reserve rows cols ∧ pend ++ [c] = report rows cols ∧
      decimal (digitsValue 0 cols) = cols

/-- No byte of `s`, read with `pend` held, goes wrong. -/
def CleanFrom (reserve : Nat) (pend s : Bytes) : Prop :=
  ∀ a c b, s = a ++ c :: b → CleanByte reserve (termfilterRun reserve pend a).1 c b

/-- No byte of the input goes wrong. -/
def Clean (reserve : Nat) (s : Bytes) : Prop := CleanFrom reserve [] s

/-! ## Calls -/

theorem termfilterRun_cons (reserve : Nat) (pend : Bytes) (c : UInt8) (s : Bytes) :
    termfilterRun reserve pend (c :: s) =
      ((termfilterRun reserve (step reserve pend c).1 s).1,
        (step reserve pend c).2 ++ (termfilterRun reserve (step reserve pend c).1 s).2) := rfl

theorem termfilterRun_append (reserve : Nat) (pend a b : Bytes) :
    termfilterRun reserve pend (a ++ b) =
      ((termfilterRun reserve (termfilterRun reserve pend a).1 b).1,
        (termfilterRun reserve pend a).2 ++
          (termfilterRun reserve (termfilterRun reserve pend a).1 b).2) := by
  induction a generalizing pend with
  | nil => rfl
  | cons c a ih =>
      simp only [List.cons_append, termfilterRun_cons, ih, List.append_assoc]

/-- How the input is split into calls changes nothing. -/
theorem filterCalls_eq (reserve : Nat) (pend : Bytes) (calls : List Bytes) :
    filterCalls reserve pend calls = termfilterRun reserve pend calls.flatten := by
  induction calls generalizing pend with
  | nil => rfl
  | cons s calls ih =>
      rw [List.flatten_cons, termfilterRun_append]
      simp only [filterCalls, ih]

end Term
end Comrade
