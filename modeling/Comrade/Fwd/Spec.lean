import Comrade.Lib.Scanf
import Comrade.Lib.Word

/-!
# Forward specifications

The argument of `-L` and `-R`, as `src/fwdspec.c` takes it apart: `split` cuts it at the
colons outside brackets and drops the brackets, `parse_port` reads a port with `strtol`, and
`fwdspec_parse` puts the fields together.

* `Fields` are the raw fields of a specification and `Fields.Reads` what they stand for, given
  what a name and what a port may look like.
* `Grammar` is the grammar of `fwdspec.h`: names plain or one whole bracketed token, ports
  plain digit strings.
* `LooseName` and `LoosePort` are what the code takes instead; `Lax` says that it takes a
  specification for which the grammar has no place.
-/

namespace Comrade
namespace Fwd

open Lib

/-! ## The code -/

/-- `struct fwdspec`, the names as C strings. -/
structure Fwdspec where
  bind : Bytes
  bindPort : UInt16
  host : Bytes
  port : UInt16
  deriving DecidableEq, Repr

/-- The loop of `split`: the tokens finished so far, whether a bracket is open, and the token
at hand. -/
def splitLoop (maxtok tlen : Nat) : Bytes → List Bytes → Bool → Bytes → Option (List Bytes)
  | [], done, depth, tok =>
      if maxtok ≤ done.length then none
      else if depth then none
      else some (done ++ [tok])
  | c :: arg, done, depth, tok =>
      if c = ch '[' ∧ depth = false ∧ tok = [] then
        splitLoop maxtok tlen arg done true tok
      else if c = ch ']' ∧ depth = true then
        splitLoop maxtok tlen arg done false tok
      else if c = ch ':' ∧ depth = false then
        if maxtok ≤ done.length then none
        else splitLoop maxtok tlen arg (done ++ [tok]) depth []
      else if maxtok ≤ done.length ∨ tlen ≤ tok.length + 1 then none
      else splitLoop maxtok tlen arg done depth (tok ++ [c])

theorem splitLoop_nil (maxtok tlen : Nat) (done : List Bytes) (depth : Bool) (tok : Bytes) :
    splitLoop maxtok tlen [] done depth tok =
      if maxtok ≤ done.length then none
      else if depth then none
      else some (done ++ [tok]) := rfl

theorem splitLoop_cons (maxtok tlen : Nat) (c : UInt8) (arg : Bytes) (done : List Bytes)
    (depth : Bool) (tok : Bytes) :
    splitLoop maxtok tlen (c :: arg) done depth tok =
      if c = ch '[' ∧ depth = false ∧ tok = [] then
        splitLoop maxtok tlen arg done true tok
      else if c = ch ']' ∧ depth = true then
        splitLoop maxtok tlen arg done false tok
      else if c = ch ':' ∧ depth = false then
        if maxtok ≤ done.length then none
        else splitLoop maxtok tlen arg (done ++ [tok]) depth []
      else if maxtok ≤ done.length ∨ tlen ≤ tok.length + 1 then none
      else splitLoop maxtok tlen arg done depth (tok ++ [c]) := rfl

/-- `split`.  No caller passes a null pointer. -/
def split (arg : Bytes) (maxtok tlen : Nat) : Option (List Bytes) :=
  splitLoop maxtok tlen (cString arg) [] false []

/-- `parse_port`. -/
def parsePort (s : Bytes) (allowZero : Bool) : Option UInt16 :=
  if s = [] then none
  else
    let v := (strtol s).1
    if (strtol s).2 ≠ [] ∨ v < 0 ∨ 65535 < v ∨ (v = 0 ∧ allowZero = false) then none
    else some (UInt16.ofNat v.toNat)

/-- The size of a token, of `sp->bind` and of `sp->host`, the final NUL included. -/
def tokSize : Nat := 256
def bindSize : Nat := 64
def hostSize : Nat := 256

/-- What `fwdspec_parse` does once `sp->bind` is set: the three tokens left. -/
def fwdspecRest (bind port host hostport : Bytes) : Option Fwdspec := do
  let bindPort ← parsePort port true
  if host = [] ∨ hostSize ≤ host.length then none
  else
    let port ← parsePort hostport false
    return { bind := bind, bindPort := bindPort, host := host, port := port }

/-- `fwdspec_parse`. -/
def fwdspecParse (arg : Bytes) : Option Fwdspec :=
  match split arg 4 tokSize with
  | some [port, host, hostport] => fwdspecRest [] port host hostport
  | some [bind, port, host, hostport] =>
      if bindSize ≤ bind.length then none else fwdspecRest bind port host hostport
  | _ => none

/-! ## The grammar -/

/-- Fields separated by colons. -/
def joined (x : Bytes) (xs : List Bytes) : Bytes := x ++ xs.flatMap fun y => ch ':' :: y

/-- The raw fields of `[bind:]port:host:hostport`. -/
structure Fields where
  bind : Option Bytes
  port : Bytes
  host : Bytes
  hostport : Bytes

/-- The text of a specification. -/
def Fields.text : Fields → Bytes
  | ⟨none, port, host, hostport⟩ => joined port [host, hostport]
  | ⟨some bind, port, host, hostport⟩ => joined bind [port, host, hostport]

/-- What the raw bind field stands for: nothing when it is left out. -/
def BindReads (Name : Bytes → Bytes → Prop) : Option Bytes → Bytes → Prop
  | none, x => x = []
  | some raw, x => Name raw x ∧ x.length < bindSize

/-- The fields stand for `sp`, where `Name raw x` says what a raw name stands for and
`Port zero raw p` what a raw port does, the port 0 being allowed by `zero`. -/
structure Fields.Reads (Name : Bytes → Bytes → Prop) (Port : Bool → Bytes → UInt16 → Prop)
    (f : Fields) (sp : Fwdspec) : Prop where
  bind : BindReads Name f.bind sp.bind
  bindPort : Port true f.port sp.bindPort
  host : Name f.host sp.host
  host_ne_nil : sp.host ≠ []
  host_fits : sp.host.length < hostSize
  port : Port false f.hostport sp.port

/-- A name without colons, or one whole `[..]` token, which may hold colons. -/
inductive StrictName : Bytes → Bytes → Prop
  | plain {x : Bytes} : ch ':' ∉ x → x.head? ≠ some (ch '[') → StrictName x x
  | bracketed {x : Bytes} : ch ']' ∉ x → StrictName (ch '[' :: (x ++ [ch ']'])) x

/-- A plain decimal digit string in range. -/
structure StrictPort (zero : Bool) (raw : Bytes) (p : UInt16) : Prop where
  ne_nil : raw ≠ []
  digits : ∀ c ∈ raw, isDigit c = true
  fits : raw.length < tokSize
  value : digitsValue 0 raw = p.toNat
  zero_ok : p = 0 → zero = true

/-- The grammar of `fwdspec.h`. -/
def Grammar (s : Bytes) (sp : Fwdspec) : Prop :=
  ∃ f : Fields, f.text = s ∧ f.Reads StrictName StrictPort sp

/-- A name as the code takes it: brackets that open a field are dropped, and what follows the
closing one is added to what they held. -/
inductive LooseName : Bytes → Bytes → Prop
  | plain {x : Bytes} : ch ':' ∉ x → x.head? ≠ some (ch '[') → LooseName x x
  | merged {x y : Bytes} : x ≠ [] → ch ']' ∉ x → ch ':' ∉ y →
      LooseName (ch '[' :: (x ++ ch ']' :: y)) (x ++ y)
  | skipped {raw x : Bytes} : LooseName raw x → LooseName (ch '[' :: ch ']' :: raw) x

/-- A port as the code takes it: a name that `strtol` reads to its end as a number in range. -/
def LoosePort (zero : Bool) (raw : Bytes) (p : UInt16) : Prop :=
  ∃ x, LooseName raw x ∧ x.length < tokSize ∧ parsePort x zero = some p

/-- A raw name that is plain or one whole bracketed token. -/
def WholeName (raw : Bytes) : Prop :=
  raw.head? ≠ some (ch '[') ∨ ∃ x, ch ']' ∉ x ∧ raw = ch '[' :: (x ++ [ch ']'])

/-- Every name is plain or one whole bracketed token, and the ports are digits only. -/
structure Fields.Strict (f : Fields) : Prop where
  bind : ∀ raw ∈ f.bind, WholeName raw
  port : ∀ c ∈ f.port, isDigit c = true
  host : WholeName f.host
  hostport : ∀ c ∈ f.hostport, isDigit c = true

/-- The fields of `s` can be made sense of, but not all of them as the grammar has it: a port
has a sign, blanks or brackets, or a name has brackets around a part of it. -/
def Lax (s : Bytes) : Prop :=
  ∃ (f : Fields) (sp : Fwdspec), f.text = s ∧ f.Reads LooseName LoosePort sp ∧ ¬f.Strict

/-! ## One raw field -/

/-- What the code makes of one raw field, from a state of `splitLoop` on: nothing where a
separator stands in it or a bracket stays open. -/
def strip : Bool → Bytes → Bytes → Option Bytes
  | depth, tok, [] => if depth then none else some tok
  | depth, tok, c :: r =>
      if c = ch '[' ∧ depth = false ∧ tok = [] then strip true tok r
      else if c = ch ']' ∧ depth = true then strip false tok r
      else if c = ch ':' ∧ depth = false then none
      else strip depth (tok ++ [c]) r

theorem strip_nil (depth : Bool) (tok : Bytes) :
    strip depth tok [] = if depth then none else some tok := rfl

theorem strip_cons (depth : Bool) (tok : Bytes) (c : UInt8) (r : Bytes) :
    strip depth tok (c :: r) =
      if c = ch '[' ∧ depth = false ∧ tok = [] then strip true tok r
      else if c = ch ']' ∧ depth = true then strip false tok r
      else if c = ch ':' ∧ depth = false then none
      else strip depth (tok ++ [c]) r := rfl

/-- A field ends at the end of the string or before a colon. -/
def FieldEnd (rest : Bytes) : Prop := rest = [] ∨ ∃ u, rest = ch ':' :: u

theorem length_le_of_strip {depth : Bool} {tok r x : Bytes} (h : strip depth tok r = some x) :
    tok.length ≤ x.length := by
  induction r generalizing depth tok with
  | nil =>
      rw [strip_nil] at h
      split at h <;> simp_all
  | cons c r ih =>
      rw [strip_cons] at h
      split at h
      · exact ih h
      · split at h
        · exact ih h
        · split at h
          · simp at h
          · have hle := ih h
            rw [List.length_append] at hle
            omega

/-- Two fields that are each read to their end and continued to one string are the same. -/
theorem strip_unique {depth : Bool} {tok r r' x x' rest rest' : Bytes}
    (h : strip depth tok r = some x) (h' : strip depth tok r' = some x')
    (hrest : FieldEnd rest) (hrest' : FieldEnd rest') (heq : r ++ rest = r' ++ rest') :
    r = r' := by
  have hcolon : ∀ {depth tok u y}, strip depth tok (ch ':' :: u) = some y → depth = true := by
    intro depth tok u y hs
    cases depth with
    | true => rfl
    | false => simp [strip_cons, show ch ':' ≠ ch '[' by decide] at hs
  have hclosed : ∀ {depth tok y}, strip depth tok [] = some y → depth = false := by
    intro depth tok y hs
    cases depth with
    | true => cases hs
    | false => rfl
  induction r generalizing depth tok r' with
  | nil =>
      cases r' with
      | nil => rfl
      | cons c r' =>
          exfalso
          have hdepth := hclosed h
          obtain hnil | ⟨u, hu⟩ := hrest
          · simp [hnil] at heq
          · rw [hu, List.nil_append, List.cons_append] at heq
            obtain ⟨rfl, -⟩ := List.cons_eq_cons.mp heq
            exact absurd (hcolon h') (by simp [hdepth])
  | cons c r ih =>
      cases r' with
      | nil =>
          exfalso
          have hdepth := hclosed h'
          obtain hnil | ⟨u, hu⟩ := hrest'
          · simp [hnil] at heq
          · rw [hu, List.nil_append, List.cons_append] at heq
            obtain ⟨rfl, -⟩ := List.cons_eq_cons.mp heq
            exact absurd (hcolon h) (by simp [hdepth])
      | cons c' r' =>
          rw [List.cons_append, List.cons_append] at heq
          obtain ⟨rfl, htail⟩ := List.cons_eq_cons.mp heq
          rw [strip_cons] at h h'
          congr 1
          split at h
          · rw [if_pos ‹_›] at h'
            exact ih h h' htail
          · rw [if_neg ‹_›] at h'
            split at h
            · rw [if_pos ‹_›] at h'
              exact ih h h' htail
            · rw [if_neg ‹_›] at h'
              split at h
              · simp at h
              · rw [if_neg ‹_›] at h'
                exact ih h h' htail

/-- Inside a token that has begun, no bracket means anything. -/
theorem strip_begun {tok r : Bytes} (htok : tok ≠ []) :
    strip false tok r = if ch ':' ∈ r then none else some (tok ++ r) := by
  induction r generalizing tok with
  | nil => simp [strip_nil]
  | cons c r ih =>
      rw [strip_cons, if_neg (by simp [htok]), if_neg (by simp), ih (by simp)]
      by_cases hc : c = ch ':'
      · simp [hc]
      · simp [hc, Ne.symm hc]

/-- Inside brackets, everything up to the closing one belongs to the token. -/
theorem strip_open {tok x y : Bytes} (hx : ch ']' ∉ x) :
    strip true tok (x ++ ch ']' :: y) = strip false (tok ++ x) y := by
  induction x generalizing tok with
  | nil => simp [strip_cons]
  | cons c x ih =>
      rw [List.mem_cons, not_or] at hx
      rw [List.cons_append, strip_cons, if_neg (by simp), if_neg (by simp [Ne.symm hx.1]),
        if_neg (by simp), ih hx.2, List.append_assoc, List.singleton_append]

theorem strip_unclosed {tok r : Bytes} (h : ch ']' ∉ r) : strip true tok r = none := by
  induction r generalizing tok with
  | nil => rfl
  | cons c r ih =>
      rw [List.mem_cons, not_or] at h
      rw [strip_cons, if_neg (by simp), if_neg (by simp [Ne.symm h.1]), if_neg (by simp),
        ih h.2]

/-- A raw field that the code reads to its end, said without its states. -/
theorem looseName_iff {raw x : Bytes} : LooseName raw x ↔ strip false [] raw = some x := by
  constructor
  · intro h
    induction h with
    | @plain x hcolon hhead =>
        cases x with
        | nil => rfl
        | cons c x =>
            rw [List.mem_cons, not_or] at hcolon
            rw [strip_cons, if_neg (by simpa using hhead), if_neg (by simp),
              if_neg (by simp [Ne.symm hcolon.1]), strip_begun (by simp), if_neg hcolon.2]
            rfl
    | @merged x y hne hx hy =>
        rw [strip_cons, if_pos (by simp), strip_open hx, List.nil_append, strip_begun hne, if_neg hy]
    | @skipped raw x _ ih =>
        have hskip : strip true [] ([] ++ ch ']' :: raw) = strip false ([] ++ []) raw :=
          strip_open (by simp)
        rw [strip_cons, if_pos (by simp)]
        simpa [ih] using hskip
  · induction hn : raw.length using Nat.strong_induction_on generalizing raw with
    | _ n ih =>
        intro h
        cases raw with
        | nil =>
            obtain rfl : [] = x := by simpa [strip_nil] using h
            exact .plain (by simp) (by simp)
        | cons c r =>
            rw [strip_cons] at h
            by_cases hopen : c = ch '['
            · rw [if_pos (by simp [hopen])] at h
              by_cases hclose : ch ']' ∈ r
              · obtain ⟨a, b, rfl, ha⟩ := List.eq_append_cons_of_mem hclose
                rw [strip_open ha, List.nil_append] at h
                subst hopen
                by_cases hempty : a = []
                · -- an empty pair of brackets: the field starts again behind it
                  subst hempty
                  have hlt : b.length < n := by
                    rw [← hn]
                    simp only [List.nil_append, List.length_cons]
                    omega
                  exact .skipped (ih b.length hlt rfl h)
                · rw [strip_begun hempty] at h
                  split at h
                  · simp at h
                  · obtain rfl : a ++ b = x := by simpa using h
                    exact .merged hempty ha ‹_›
              · simp [strip_unclosed hclose] at h
            · rw [if_neg (by simp [hopen]), if_neg (by simp)] at h
              split at h
              · simp at h
              · rename_i hc
                rw [strip_begun (by simp)] at h
                split at h
                · simp at h
                · rename_i hr
                  obtain rfl : c :: r = x := by simpa using h
                  refine .plain ?_ (by simpa using hopen)
                  rw [List.mem_cons, not_or]
                  exact ⟨fun hEq => hc ⟨hEq.symm, rfl⟩, hr⟩

end Fwd
end Comrade
