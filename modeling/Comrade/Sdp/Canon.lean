import Comrade.Candpack.Encode
import Comrade.Lib.Lines
import Comrade.Netstate.Model

/-!
# One global v6 candidate

`canon_v6` (`session.c`): the description that libjuice gathered, with one global v6 candidate
in it, at the source that the kernel sends from.

* `scanCandLine` is the `sscanf` that reads a candidate, and `addrSpan` the one that finds
  where its address stands.  Both are run on the text from the line's start on, and so past
  its end.
* `canonTurn` is one turn of the loop over the lines, `canonV6` the whole function.

`inet_pton` belongs to the system, as in `Inet`.
-/

namespace Comrade
namespace Sdp

open Lib Candpack Netstate

/-! ## Addresses -/

/-- `net_addr_scope`. -/
def netAddrScope (inet : Inet) (addr : Bytes) : Scope :=
  match inet.pton (if ch ':' ∈ addr then .v6 else .v4) addr with
  | none => .global
  | some b => addrScopeRaw b

/-- What `v6_cand_stale` judges a candidate by: the model of the v6 family, and the epoch that
the description was gathered under. -/
structure Gathered where
  fam : NetFam
  gatherEpoch : UInt32

/-- `netstate_has_xlat`. -/
def netstateHasXlat (f : NetFam) (a : Bytes) : Bool := f.xlats.any fun x => x.addr == a

/-- `v6_cand_stale`. -/
def v6CandStale (inet : Inet) (g : Gathered) (addr : Bytes) : Bool :=
  if netAddrScope inet addr ≠ .global then false
  else if g.fam.epoch = g.gatherEpoch then false
  else
    match inet.pton .v6 addr with
    | none => false
    | some raw => !(localIdx g.fam raw).isSome && !netstateHasXlat g.fam raw

/-! ## Candidate lines -/

/-- What is read of a candidate. -/
structure CandLine where
  prio : UInt32
  addr : Bytes
  port : Int
  typ : Bytes
  deriving DecidableEq

/-- `"a=candidate:%*s %*d %*s"`. -/
def scanToTransport : Scan Unit := do
  scanText candKey
  scanSkip
  scanSpace
  let _ ← scanInt
  scanSpace
  scanSkip

/-- `" %u"` behind it: the priority. -/
def scanToPrio : Scan UInt32 := do
  scanToTransport
  scanSpace
  scanUnsigned

/-- `" %d typ %15s"`: the port and the type. -/
def scanPortTyp : Scan (Int × Bytes) := do
  scanSpace
  let port ← scanInt
  scanSpace
  scanText (ascii "typ".toList)
  scanSpace
  let typ ← scanWord 15
  return (port, typ)

/-- `"%63s %d typ %15s"`: the fields behind the priority. -/
def scanFromAddr (prio : UInt32) : Scan CandLine := do
  let addr ← scanWord 63
  let (port, typ) ← scanPortTyp
  return { prio, addr, port, typ }

/-- `"a=candidate:%*s %*d %*s %u %63s %d typ %15s"`, all four of them. -/
def scanCandLine : Scan CandLine := do
  let prio ← scanToPrio
  scanSpace
  scanFromAddr prio

/-- The candidate that a text begins with. -/
def candAt (text : Bytes) : Option CandLine := (scanCandLine text).map Prod.fst

/-- The offsets that `"a=candidate:%*s %*d %*s %*u %n%*s%n"` gives for the address. -/
def addrSpan (text : Bytes) : Nat × Nat :=
  match (do let _ ← scanToPrio; scanSpace : Scan Unit) text with
  | none => (0, 0)
  | some (_, t) =>
      match scanSkip t with
      | none => (text.length - t.length, 0)
      | some (_, u) => (text.length - t.length, text.length - u.length)

/-- A candidate at a global v6 address, or at one that is no address. -/
def CandLine.global6 (inet : Inet) (c : CandLine) : Bool :=
  decide (ch ':' ∈ c.addr) && netAddrScope inet c.addr == .global

/-- A candidate of type `host`. -/
def CandLine.isHost (c : CandLine) : Bool := c.typ == CandType.host.name

/-! ## The loop -/

/-- What the loop carries. -/
structure CanonSt where
  kept6 : Bool
  port : Int
  prio : UInt32
  out : Bytes

/-- The port of the first candidate, and the highest priority of a host candidate. -/
def canonNote (st : CanonSt) (c : CandLine) : CanonSt :=
  { st with
    port := if st.port < 0 then c.port else st.port
    prio := if c.isHost = true ∧ st.prio < c.prio then c.prio else st.prio }

/-- `src6[0] && net_addr_scope(src6) == NET_SCOPE_GLOBAL`. -/
def sourceGlobal (inet : Inet) (src6 : Bytes) : Bool :=
  decide (src6 ≠ []) && netAddrScope inet src6 == .global

/-- The line is copied, if there is room. -/
def canonCopy (cap : Nat) (line : Bytes) (st : CanonSt) : CanonSt :=
  if st.out.length + line.length < cap then { st with out := st.out ++ line } else st

/-- The line is copied with the source in place of its address, if there is room. -/
def canonRewrite (src6 : Bytes) (cap a0 a1 : Nat) (line : Bytes) (st : CanonSt) : CanonSt :=
  if st.out.length + a0 + src6.length + (line.length - a1) < cap then
    { st with kept6 := true, out := st.out ++ (line.take a0 ++ src6 ++ line.drop a1) }
  else st

/-- One turn of the loop, at a line with `rest` behind it. -/
def canonTurn (inet : Inet) (g : Gathered) (src6 : Bytes) (cap : Nat) (line rest : Bytes)
    (st : CanonSt) : CanonSt :=
  let text := line ++ rest
  let cand := if candKey.isPrefixOf text = true then candAt text else none
  let st := cand.elim st (canonNote st)
  let global6 := sourceGlobal inet src6 && cand.any (·.global6 inet)
  let drop := global6 && cand.any fun c => !c.isHost || st.kept6
  let rewrite := global6 && !drop
  let stale := !drop && !rewrite && cand.any fun c =>
    decide (ch ':' ∈ c.addr) && (c.isHost || c.typ == CandType.srflx.name) &&
      v6CandStale inet g c.addr
  if drop || stale then st
  else
    let a0 := (addrSpan text).1
    let a1 := (addrSpan text).2
    if rewrite = true ∧ a0 < a1 ∧ 0 < a0 ∧ a1 ≤ line.length then
      canonRewrite src6 cap a0 a1 line st
    else canonCopy cap line st

/-- The loop over the lines. -/
def canonLoop (inet : Inet) (g : Gathered) (src6 : Bytes) (cap : Nat) :
    List Bytes → CanonSt → CanonSt
  | [], st => st
  | line :: rest, st =>
      canonLoop inet g src6 cap rest (canonTurn inet g src6 cap line rest.flatten st)

/-- `"a=candidate:v6src 1 UDP %u %s %d typ host\n"`. -/
def v6srcLine (prio : UInt32) (src6 : Bytes) (port : Nat) : Bytes :=
  ascii "a=candidate:v6src 1 UDP ".toList ++ (decimal prio.toNat ++ (ascii " ".toList ++
    (src6 ++ (ascii " ".toList ++ (decimal port ++ ascii " typ host\n".toList)))))

/-- The source named outright, when the loop has found nothing to rewrite. -/
def canonAppend (inet : Inet) (src6 : Bytes) (cap : Nat) (st : CanonSt) : Bytes :=
  if st.kept6 = false ∧ 0 < st.port ∧ st.prio ≠ 0 ∧ sourceGlobal inet src6 = true then
    let line := v6srcLine (st.prio + 1) src6 st.port.toNat
    if line.length < cap - st.out.length then st.out ++ line else st.out
  else st.out

/-- `canon_v6`. -/
def canonV6 (inet : Inet) (g : Gathered) (sdp src6 : Bytes) (cap : Nat) : Bytes :=
  canonAppend inet src6 cap (canonLoop inet g src6 cap (textLines sdp)
    { kept6 := false, port := -1, prio := 0, out := [] })

/-! ## Spelled addresses -/

/-- The byte that a part of a dotted decimal spells. -/
def octet (text : Bytes) : Option UInt8 :=
  if digitsValue 0 text < 256 ∧ decimal (digitsValue 0 text) = text
  then some (UInt8.ofNat (digitsValue 0 text)) else none

/-- The text of a v6 address. -/
def docSource : Bytes := ascii "2001:db8::1".toList

/-- Dotted decimals, written and read, and the one v6 address. -/
def inetDoc : Inet where
  pton := fun fam text => match fam with
    | .v4 => ((text.splitOn (ch '.')).mapM octet).bind fun addr =>
        if addr.length = 4 then some addr else none
    | .v6 => if text = docSource
        then some ([0x20, 0x01, 0x0d, 0xb8] ++ List.replicate 11 0 ++ [1]) else none
  ntop := fun fam addr => match fam with
    | .v4 => List.intercalate (ascii ".".toList) (addr.map fun b => decimal b.toNat)
    | .v6 => docSource
  pton_length := by
    intro fam text addr h
    cases fam with
    | v4 =>
        obtain ⟨_, -, h⟩ := Option.bind_eq_some_iff.mp h
        split_ifs at h with hlen
        cases h
        exact hlen
    | v6 =>
        dsimp only at h
        split_ifs at h
        cases h
        rfl

end Sdp
end Comrade
