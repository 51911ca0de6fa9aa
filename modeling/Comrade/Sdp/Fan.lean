import Comrade.Sdp.Canon

/-!
# Fanning the reflexive candidates

`cand_sdp_fan_v4` (`candpolicy.c`) appends to a description one reflexive candidate for every
address of the pool that the carrier's NAT maps across, at the port that the description's own
reflexive candidates share.

* `reflexAt` is what the scan of one line finds: the line is searched for a candidate, and
  `sscanf` reads on from there, past the end of the line where it has to.
* `fanScan` is the loop over the lines, `fanLoop` the one over the pool, `candSdpFanV4` the
  whole function.  It has no result where more is copied out of the buffer of a line than that
  holds.
-/

namespace Comrade
namespace Sdp

open Lib Candpack

/-! ## Reflexive candidates -/

/-- `os_memmem`: the string from where the text is found first. -/
def osMemmem (text : Bytes) : Bytes → Option Bytes
  | [] => if text = [] then some [] else none
  | c :: s => if text.isPrefixOf (c :: s) = true then some (c :: s) else osMemmem text s

theorem osMemmem_nil (text : Bytes) : osMemmem text [] = if text = [] then some [] else none :=
  rfl

theorem osMemmem_cons (text : Bytes) (c : UInt8) (s : Bytes) :
    osMemmem text (c :: s) =
      if text.isPrefixOf (c :: s) = true then some (c :: s) else osMemmem text s := rfl

/-- What a candidate is found by. -/
def candWord : Bytes := ascii "candidate:".toList

/-- `"%*s %*d %*s %u %63s %d typ %15s"`, all four of them. -/
def scanCandFields : Scan CandLine := do
  scanSkip
  scanSpace
  let _ ← scanInt
  scanSpace
  scanSkip
  scanSpace
  let prio ← scanUnsigned
  scanSpace
  scanFromAddr prio

/-- `"candidate:%*s %*d %*s %u %63s %d typ %15s"`. -/
def scanCand : Scan CandLine := do
  scanText candWord
  scanCandFields

/-- A reflexive candidate and the address it is at. -/
structure Reflex where
  cand : CandLine
  addr : Bytes
  deriving DecidableEq

/-- The v4 reflexive candidate that a line names, with `rest` behind the line. -/
def reflexAt (inet : Inet) (line rest : Bytes) : Option Reflex := do
  let p ← osMemmem candWord line
  let c ← (scanCand (p ++ rest)).map Prod.fst
  if c.typ = CandType.srflx.name then (inet.pton .v4 c.addr).map fun b => ⟨c, b⟩ else none

/-- The v4 reflexive candidates of the lines of a description. -/
def reflexes (inet : Inet) : List Bytes → List Reflex
  | [] => []
  | line :: rest => (reflexAt inet line rest.flatten).toList ++ reflexes inet rest

theorem reflexes_cons (inet : Inet) (line : Bytes) (rest : List Bytes) :
    reflexes inet (line :: rest) =
      (reflexAt inet line rest.flatten).toList ++ reflexes inet rest := rfl

/-! ## The scan -/

/-- The places of `seen`. -/
def fanSeenMax : Nat := 8

/-- What the scan carries. -/
structure FanSt where
  port : Int
  prio : UInt32
  seen : List Bytes

/-- A reflexive candidate is noted, unless it disagrees on the port. -/
def fanNote (st : FanSt) (r : Reflex) : Option FanSt :=
  if 0 ≤ st.port ∧ r.cand.port ≠ st.port then none
  else some
    { port := r.cand.port
      prio := if st.prio = 0 ∨ r.cand.prio < st.prio then r.cand.prio else st.prio
      seen := if st.seen.length < fanSeenMax then st.seen ++ [r.addr] else st.seen }

/-- The loop over the lines. -/
def fanScan (inet : Inet) : List Bytes → FanSt → Option FanSt
  | [], st => some st
  | line :: rest, st =>
      match reflexAt inet line rest.flatten with
      | none => fanScan inet rest st
      | some r => (fanNote st r).bind (fanScan inet rest)

/-! ## The lines put in -/

/-- The size of `cand`. -/
def fanCandSize : Nat := 96

/-- The priority of the variant at a place of the pool. -/
def fanPrio (prio : UInt32) (i : Nat) : UInt32 :=
  if UInt32.ofNat i + 1 < prio then prio - UInt32.ofNat i - 1 else 1

/-- `"a=candidate:pool%u 1 UDP %u %s %d typ srflx raddr 0.0.0.0 rport 0\n"`. -/
def fanLine (inet : Inet) (prio : UInt32) (port : Nat) (i : Nat) (a : Bytes) : Bytes :=
  ascii "a=candidate:pool".toList ++ (decimal (UInt32.ofNat i).toNat ++
    (ascii " 1 UDP ".toList ++ (decimal (fanPrio prio i).toNat ++ (ascii " ".toList ++
      (inet.ntop .v4 a ++ (ascii " ".toList ++ (decimal port ++
        ascii " typ srflx raddr 0.0.0.0 rport 0\n".toList)))))))

/-- The loop over the pool, from the place `i` on. -/
def fanLoop (inet : Inet) (cap : Nat) (seen : List Bytes) (prio : UInt32) (port : Nat) :
    (i : Nat) → List Bytes → Bytes → Option Bytes
  | _, [], sdp => some sdp
  | i, a :: pool, sdp =>
      if a ∈ seen then fanLoop inet cap seen prio port (i + 1) pool sdp
      else
        let cand := fanLine inet prio port i a
        if cap ≤ sdp.length + cand.length then some sdp
        -- `snprintf` has cut the line short, and its whole length is copied
        else if fanCandSize ≤ cand.length then none
        else fanLoop inet cap seen prio port (i + 1) pool (sdp ++ cand)

/-- The last line is ended, if there is room. -/
def fanEnded (cap : Nat) (sdp : Bytes) : Option Bytes :=
  if sdp ≠ [] ∧ sdp.getLast? ≠ some nl then
    if cap ≤ sdp.length + 1 then none else some (sdp ++ [nl])
  else some sdp

/-- `cand_sdp_fan_v4`. -/
def candSdpFanV4 (inet : Inet) (sdp : Bytes) (cap : Nat) (pool : List Bytes)
    (mappingDependent : Bool) : Option Bytes :=
  if mappingDependent = true then some sdp
  else
    match fanScan inet (textLines sdp) { port := -1, prio := 0, seen := [] } with
    | none => some sdp
    | some st =>
        if st.port ≤ 0 then some sdp
        else
          match fanEnded cap sdp with
          | none => some sdp
          | some ended => fanLoop inet cap st.seen st.prio st.port.toNat 0 pool ended

/-! ## What it should put in -/

/-- The lines put in for the addresses of the pool that were not seen. -/
def fanLines (inet : Inet) (seen : List Bytes) (prio : UInt32) (port : Nat) :
    (i : Nat) → List Bytes → List Bytes
  | _, [] => []
  | i, a :: pool =>
      if a ∈ seen then fanLines inet seen prio port (i + 1) pool
      else fanLine inet prio port i a :: fanLines inet seen prio port (i + 1) pool

theorem fanLines_nil (inet : Inet) (seen : List Bytes) (prio : UInt32) (port i : Nat) :
    fanLines inet seen prio port i [] = [] := rfl

theorem fanLines_cons (inet : Inet) (seen : List Bytes) (prio : UInt32) (port i : Nat) (a : Bytes)
    (pool : List Bytes) :
    fanLines inet seen prio port i (a :: pool) =
      if a ∈ seen then fanLines inet seen prio port (i + 1) pool
      else fanLine inet prio port i a :: fanLines inet seen prio port (i + 1) pool := rfl

/-- The addresses of the pool that were not seen. -/
def unseen (seen pool : List Bytes) : List Bytes := pool.filter fun a => decide (a ∉ seen)

end Sdp
end Comrade
