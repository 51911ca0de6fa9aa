import Comrade.Lib.Bytes

/-!
# The ban list

The per-source half of the storing node's rate limit (`bep44.c`).  A source is
counted at its own address; past the limit its prefix is banned, and bans that
gather under a wider prefix are widened to it.  When every entry is an active
ban, the node fails closed for a while.
-/

namespace Comrade
namespace Bep44

open Lib

/-- An address family. -/
inductive Family where
  | inet
  | inet6
  deriving DecidableEq, Repr

/-- A socket address, with the parts the storing side reads; `other` is a null
address, one cut short, or one of a family it does not speak. -/
inductive Sockaddr where
  | inet (addr : Vector UInt8 4) (port : UInt16)
  | inet6 (addr : Vector UInt8 16) (port : UInt16)
  | other
  deriving DecidableEq, Repr

/-- `addr_bytes`, with the address family. -/
def addrBytes : Sockaddr → Option (Family × Bytes)
  | .inet addr _ => some (.inet, addr.toList)
  | .inet6 addr _ => some (.inet6, addr.toList)
  | .other => none

/-- `addr_martian`: an address nobody can be answered at. -/
def addrMartian : Sockaddr → Bool
  | .inet a port => port == 0 || a[0] == 0 || a[0] == 127 || (a[0] &&& 0xe0) == 0xe0
  | .inet6 a port =>
      port == 0 || a[0] == 0xff || (a[0] == 0xfe && (a[1] &&& 0xc0) == 0x80) ||
        a.toList.take 12 == List.replicate 10 0 ++ [0xff, 0xff] ||
        (a.toList.take 15 == List.replicate 15 0 && (a[15] == 0 || a[15] == 1))
  | .other => true

/-- `B44_BAN_MAX`. -/
def b44BanMax : Nat := 128

/-- `B44_BAN_WINDOW_MS`. -/
def b44BanWindowMs : Nat := 10000

/-- `B44_FAILCLOSED_MS`. -/
def b44FailclosedMs : Nat := 30000

/-- `struct b44_ban`; `net` is 16 bytes whatever the family, and `family` is
`none` for a free entry. -/
structure B44Ban where
  net : Bytes
  family : Option Family
  bits : Nat
  weight : Nat
  count : Int
  windowMs : Nat
  bannedUntil : Nat
  deriving DecidableEq

/-- An entry after `memset`. -/
def banZero : B44Ban where
  net := List.replicate 16 0
  family := none
  bits := 0
  weight := 0
  count := 0
  windowMs := 0
  bannedUntil := 0

/-- The ban list of an engine: its entries, the end of the fail-closed window,
and the limits. -/
structure BanList where
  ban : Fin b44BanMax → B44Ban
  blockAllUntil : Nat
  rlRate : Int
  rlBanMs : Nat

/-- `b44_ladder6` and `b44_ladder4`. -/
def b44Ladder : Family → List Nat
  | .inet6 => [128, 64, 56, 48, 40, 32]
  | .inet => [32, 30, 28, 26, 24]

/-- `ban_base_bits`. -/
def banBaseBits : Family → Nat
  | .inet6 => 128
  | .inet => 32

/-- One byte of `net_mask`, `keep` bits of it at most. -/
def maskByte (a : UInt8) (keep : Int) : UInt8 :=
  if keep ≥ 8 then a
  else if keep ≤ 0 then 0
  else a &&& UInt8.ofNat (0xff <<< (8 - keep.toNat))

/-- `fam_len`. -/
def famLen : Family → Nat
  | .inet6 => 16
  | .inet => 4

/-- `net_mask`, over the bytes of an address of the family. -/
def netMask (family : Family) (addr : Bytes) (bits : Nat) : Bytes :=
  (addr.take (famLen family)).mapIdx fun i a => maskByte a ((bits : Int) - i * 8)

/-- A prefix written into a cleared entry. -/
def netStored (net : Bytes) : Bytes := net ++ List.replicate (16 - net.length) 0

/-- `net_contains`, the family being the entry's. -/
def netContains (family : Family) (b : B44Ban) (addr : Bytes) : Bool :=
  netMask family addr b.bits == b.net.take (famLen family)

/-- An active ban of the family inside the prefix `pnet` of `pbits` bits. -/
def banInside (family : Family) (now pbits : Nat) (pnet : Bytes) (b : B44Ban) : Bool :=
  b.family == some family && decide (now < b.bannedUntil) && decide (pbits ≤ b.bits) &&
    netMask family b.net pbits == pnet

/-- One level of `ban_escalate`: the `i`-th prefix of the ladder takes over the
bans inside it once they weigh `i + 1`.  The seed is read from the entry that
was just banned, as the caller passes a pointer into it, so a level that has
cleared or overwritten that entry changes what the next one widens. -/
def banWiden (l : BanList) (seed : Fin b44BanMax) (family : Family) (now i pbits : Nat) :
    BanList :=
  let pnet := netMask family (l.ban seed).net pbits
  let inside := (List.finRange b44BanMax).filter fun j => banInside family now pbits pnet (l.ban j)
  let weight := (inside.map fun j => (l.ban j).weight).sum
  match inside.head? with
  | none => l
  | some first =>
      if weight < i + 1 then l
      else
        { l with
          ban := Function.update
            (fun j => if banInside family now pbits pnet (l.ban j) = true then banZero else l.ban j)
            first
            { net := netStored pnet, family := some family, bits := pbits,
              weight := weight % 2 ^ 16, count := 0, windowMs := 0,
              bannedUntil := now + l.rlBanMs } }

/-- `ban_escalate`. -/
def banEscalate (l : BanList) (seed : Fin b44BanMax) (family : Family) (now : Nat) : BanList :=
  ((b44Ladder family).zipIdx.drop 1).foldl
    (fun l level => banWiden l seed family now level.2 level.1) l

/-- What the scan of `ban_ok` gathers; `hit` is its early return. -/
structure BanScan where
  ban : Fin b44BanMax → B44Ban
  track : Option (Fin b44BanMax)
  slot : Option (Fin b44BanMax)
  lru : Option (Fin b44BanMax)
  hit : Bool

/-- One entry of the scan. -/
def banScanStep (family : Family) (addr base : Bytes) (now : Nat) (s : BanScan)
    (i : Fin b44BanMax) : BanScan :=
  let b := s.ban i
  if s.hit = true then s
  else if b.family = none then { s with slot := s.slot.or (some i) }
  else if b.bannedUntil ≠ 0 ∧ b.bannedUntil ≤ now then
    -- expired: reclaim
    { s with ban := Function.update s.ban i banZero, slot := s.slot.or (some i) }
  else if b.family ≠ some family then s
  else if b.bannedUntil > now ∧ netContains family b addr = true then { s with hit := true }
  else if b.bannedUntil = 0 then
    { s with
      track :=
        if b.bits = banBaseBits family ∧ b.net.take (famLen family) = base then some i
        else s.track
      lru :=
        match s.lru with
        | none => some i
        | some j => if b.count < (s.ban j).count then some i else some j }
  else s

/-- The tracked source is counted, and banned past the window's limit. -/
def banCount (l : BanList) (family : Family) (now : Nat) (track : Fin b44BanMax) :
    BanList × Bool :=
  let t := l.ban track
  let t := if now ≥ t.windowMs then { t with count := 0, windowMs := now + b44BanWindowMs } else t
  let t := { t with count := t.count + 1 }
  if t.count < l.rlRate * 10 then ({ l with ban := Function.update l.ban track t }, true)
  else
    let t := { t with bannedUntil := now + l.rlBanMs, weight := 1, count := 0 }
    (banEscalate { l with ban := Function.update l.ban track t } track family now, false)

/-- `ban_ok`: is a query from this address to be served? -/
def banOk (l : BanList) (addr : Sockaddr) (now : Nat) : BanList × Bool :=
  if l.rlBanMs = 0 then (l, true)
  else if l.blockAllUntil > now then (l, false)
  else
    match addrBytes addr with
    | none => (l, true)
    | some (family, ab) =>
        let base := netMask family ab (banBaseBits family)
        let s := (List.finRange b44BanMax).foldl (banScanStep family ab base now)
          { ban := l.ban, track := none, slot := none, lru := none, hit := false }
        let l := { l with ban := s.ban }
        if s.hit = true then (l, false)
        else
          match s.track with
          | some track => banCount l family now track
          | none =>
              match s.slot.or s.lru with
              -- no room to track the source: refuse everybody for a while
              | none => ({ l with blockAllUntil := now + b44FailclosedMs }, false)
              | some slot =>
                  ({ l with
                     ban := Function.update l.ban slot
                       { net := netStored base, family := some family, bits := banBaseBits family,
                         weight := 0, count := 1, windowMs := now + b44BanWindowMs,
                         bannedUntil := 0 } }, true)

end Bep44
end Comrade
