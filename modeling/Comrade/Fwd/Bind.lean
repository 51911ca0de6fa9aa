import Comrade.Fwd.Spec
import Comrade.Candpack.Encode

/-!
# Where a forward listens

The bind field of a specification is read by `listen_on` (`sshfwd.c`): here for `-L`, and on the
host for `-R`, after the client has put it into the SSH request (`sshfwd_cli_remote`) and the
host has taken it out again (`sshfwd_srv_message`).  The sockets belong to the system, which is
a parameter.
-/

namespace Comrade
namespace Fwd

open Lib Candpack

/-- An address to listen on. -/
structure SockAddr where
  fam : Family
  addr : Bytes
  deriving DecidableEq

/-- `INADDR_LOOPBACK` and `INADDR_ANY`. -/
def loopback : SockAddr := ⟨.v4, [127, 0, 0, 1]⟩
def anyAddr : SockAddr := ⟨.v4, [0, 0, 0, 0]⟩

/-- The names of the loopback interface and of every interface. -/
def localhost : Bytes := ascii "localhost".toList
def wildcard : Bytes := ascii "*".toList

/-- What the system does for a listener: it reads addresses, and it gives a socket that listens
on an address and a port, with the port that was bound, or refuses one. -/
structure System where
  inet : Inet
  listen : SockAddr → UInt16 → Option UInt16

/-- The address that `listen_on` binds for a bind field. -/
def listenAddr (inet : Inet) (addr : Bytes) : Option SockAddr :=
  if addr = [] ∨ addr = localhost ∨ addr = ascii "127.0.0.1".toList then
    some loopback
  else if addr = wildcard ∨ addr = ascii "0.0.0.0".toList then some anyAddr
  else match inet.pton .v4 addr with
    | some a => some ⟨.v4, a⟩
    | none => (inet.pton .v6 addr).map fun a => ⟨.v6, a⟩

/-- `listen_on`: the address listened on and the port bound. -/
def listenOn (sys : System) (addr : Bytes) (port : UInt16) : Option (SockAddr × UInt16) := do
  let ss ← listenAddr sys.inet addr
  let bound ← sys.listen ss port
  return (ss, bound)

/-- The address that `sshfwd_cli_remote` asks the host for. -/
def cliRemoteAddr (bind : Bytes) : Bytes :=
  let addr := if bind ≠ [] then bind else localhost
  if addr = wildcard then [] else addr

/-- The address that the host passes to `listen_on` for a `tcpip-forward` request. -/
def srvForwardAddr (addr : Bytes) : Bytes :=
  if addr ≠ localhost then addr else []

/-- Where `sshfwd_cli_local` listens for a specification. -/
def localListens (sys : System) (sp : Fwdspec) : Option (SockAddr × UInt16) :=
  listenOn sys sp.bind sp.bindPort

/-- Where the host listens for a specification that `sshfwd_cli_remote` sent it. -/
def remoteListens (sys : System) (sp : Fwdspec) : Option (SockAddr × UInt16) :=
  listenOn sys (srvForwardAddr (cliRemoteAddr sp.bind)) sp.bindPort

/-- Only the wildcard is turned into something else on its way. -/
theorem listenAddr_remote (inet : Inet) {bind : Bytes} (h : bind ≠ wildcard) :
    listenAddr inet (srvForwardAddr (cliRemoteAddr bind)) = listenAddr inet bind := by
  have hlocal : localhost ≠ wildcard := by decide
  by_cases hempty : bind = []
  · subst hempty
    simp [cliRemoteAddr, srvForwardAddr, hlocal]
  · have hsent : cliRemoteAddr bind = bind := by
      simp [cliRemoteAddr, hempty, h]
    rw [hsent]
    by_cases hname : bind = localhost
    · subst hname
      simp [srvForwardAddr, listenAddr]
    · simp [srvForwardAddr, hname]

theorem srvForwardAddr_wildcard : srvForwardAddr (cliRemoteAddr wildcard) = [] := by
  decide

theorem listenAddr_wildcard (inet : Inet) : listenAddr inet wildcard = some anyAddr := by
  rw [listenAddr, if_neg (by decide), if_pos (.inl rfl)]

theorem listenAddr_nil (inet : Inet) : listenAddr inet [] = some loopback := by
  rw [listenAddr, if_pos (.inl rfl)]

/-- A forward listens on the host where it would listen here, unless its bind field is the
wildcard: the host reads that as loopback, and the two agree only where the system refuses
the port on both. -/
theorem remoteListens_eq_localListens_iff (sys : System) (sp : Fwdspec) :
    remoteListens sys sp = localListens sys sp ↔
      sp.bind ≠ wildcard ∨
        (sys.listen loopback sp.bindPort = none ∧ sys.listen anyAddr sp.bindPort = none) := by
  unfold remoteListens localListens listenOn
  by_cases hwild : sp.bind = wildcard
  · have hne : loopback ≠ anyAddr := by decide
    rw [hwild, srvForwardAddr_wildcard, listenAddr_nil, listenAddr_wildcard]
    rcases hloop : sys.listen loopback sp.bindPort with _ | p <;>
      rcases hany : sys.listen anyAddr sp.bindPort with _ | q <;>
      simp [hloop, hany, hne]
  · simp [listenAddr_remote sys.inet hwild, hwild]

theorem length_of_unread (fam : Family) (_text addr : Bytes)
    (h : (none : Option Bytes) = some addr) : addr.length = fam.alen := by
  cases h

/-- A system that reads no addresses and grants every port. -/
def plainSystem : System where
  inet := { pton := fun _ _ => none, ntop := fun _ _ => [], pton_length := length_of_unread }
  listen := fun _ port => some port

/-- Every interface here, loopback on the host. -/
theorem remoteListens_wildcard :
    ∃ sp, fwdspecParse (ascii "*:8080:h:80".toList) = some sp ∧
      remoteListens plainSystem sp ≠ localListens plainSystem sp :=
  ⟨⟨ascii "*".toList, 8080, ascii "h".toList, 80⟩, by decide, by decide⟩

end Fwd
end Comrade
