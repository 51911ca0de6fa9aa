import Comrade.Lib.Scanf
import Comrade.Lib.Word

/-!
# Packing a description

The binary packing of the ICE parameters that signalling carries (`candpack.c`, with the
address policy of `candpolicy.c`): the credentials of a description and the candidates of it
that the policy keeps.

`inet_pton` and `inet_ntop` belong to the system.  They are the parameter `Inet`: all that
is asked of them is that an address they read has as many bytes as its family.

* `candpackEncode` is the encoder, `encodeCands` its loop over the candidate lines.
* `keptCands` are the candidates of a description that go into a packing, `credNamed` the
  credential that its lines name.
* `candpackEncode_eq`: what the encoder writes is `packStamp`, the credentials, cut to the 256
  bytes that the line reader takes of them, and the kept candidates.
-/

namespace Comrade
namespace Candpack

open Lib

/-- `CANDPACK_VERSION`. -/
def candpackVersion : UInt8 := 4

/-- `CANDPACK_CID_LEN`. -/
def candpackCidLen : Nat := 8

/-! ## Candidates -/

/-- The type of a candidate: the `CT_` codes. -/
inductive CandType where
  | host
  | srflx
  | prflx
  | relay
  deriving DecidableEq, Repr

/-- The code of a type in a packing. -/
def CandType.code : CandType → UInt8
  | .host => 0
  | .srflx => 1
  | .prflx => 2
  | .relay => 3

/-- `type_name`. -/
def CandType.name : CandType → Bytes
  | .host => ascii "host".toList
  | .srflx => ascii "srflx".toList
  | .prflx => ascii "prflx".toList
  | .relay => ascii "relay".toList

/-- `type_code`. -/
def typeCode (t : Bytes) : Option CandType :=
  if t = CandType.host.name then some .host
  else if t = CandType.srflx.name then some .srflx
  else if t = CandType.prflx.name then some .prflx
  else if t = CandType.relay.name then some .relay
  else none

/-- The type that a code of a packing names, if any. -/
def CandType.ofCode (b : UInt8) : Option CandType :=
  if b = 0 then some .host
  else if b = 1 then some .srflx
  else if b = 2 then some .prflx
  else if b = 3 then some .relay
  else none

@[simp] theorem CandType.ofCode_code (t : CandType) : CandType.ofCode t.code = some t := by
  cases t <;> rfl

/-- The family of an address: `AF_INET` and `AF_INET6`. -/
inductive Family where
  | v4
  | v6
  deriving DecidableEq, Repr

/-- The bytes of an address. -/
def Family.alen : Family → Nat
  | .v4 => 4
  | .v6 => 16

/-- The code of a family in a packing. -/
def Family.code : Family → UInt8
  | .v4 => 4
  | .v6 => 6

/-- The family that the decoder takes a code for: 6, and v4 for every other. -/
def Family.ofCode (b : UInt8) : Family := if b = 6 then .v6 else .v4

@[simp] theorem Family.ofCode_code (f : Family) : Family.ofCode f.code = f := by
  cases f <;> rfl

/-- `inet_pton`, with `none` where it does not return 1, and `inet_ntop`, which refuses only
a family it does not know and a buffer too small for the text. -/
structure Inet where
  pton : Family → Bytes → Option Bytes
  ntop : Family → Bytes → Bytes
  pton_length : ∀ fam text addr, pton fam text = some addr → addr.length = fam.alen

/-- A candidate as a packing holds it. -/
structure Cand where
  type : CandType
  fam : Family
  prio : UInt32
  port : UInt16
  addr : Bytes
  addr_length : addr.length = fam.alen
  deriving DecidableEq

/-- The bytes of a candidate in a packing. -/
def Cand.packed (c : Cand) : Bytes :=
  c.type.code :: c.fam.code :: (bePut 4 c.prio.toNat ++ (bePut 2 c.port.toNat ++ c.addr))

theorem Cand.length_packed (c : Cand) : c.packed.length = 1 + 1 + 4 + 2 + c.fam.alen := by
  simp only [Cand.packed, List.length_cons, List.length_append, length_bePut, c.addr_length]
  omega

/-! ## The address policy -/

/-- `struct cand_policy`. -/
structure CandPolicy where
  allowPrivateV4 : Bool
  allowUla : Bool
  allowOverlay : Bool
  allowEui64 : Bool
  allowLinklocal : Bool

/-- `cand_policy_default`. -/
def candPolicyDefault : CandPolicy where
  allowPrivateV4 := true
  allowUla := false
  allowOverlay := false
  allowEui64 := false
  allowLinklocal := false

/-- The policy of the encoder: without `for_dht` every address goes. -/
def encodePolicy (forDht : Bool) : CandPolicy :=
  if forDht then candPolicyDefault
  else { allowPrivateV4 := true, allowUla := true, allowOverlay := true, allowEui64 := true,
         allowLinklocal := true }

/-- `v6_keep`. -/
def v6Keep (b : Bytes) (p : CandPolicy) : Bool :=
  let byte := fun i => b.getD i 0
  if b = List.replicate 15 0 ++ [1] then false
  else if byte 0 = 0xfe ∧ byte 1 &&& 0xc0 = 0x80 then p.allowLinklocal
  else if byte 0 &&& 0xfe = 0xfc then p.allowUla
  else if byte 0 &&& 0xfe = 0x02 then p.allowOverlay
  else if byte 0 &&& 0xe0 = 0x20 then
    if byte 11 = 0xff ∧ byte 12 = 0xfe ∧ p.allowEui64 = false then false else true
  else false

/-- `v4_keep`. -/
def v4Keep (b : Bytes) (p : CandPolicy) : Bool :=
  let byte := fun i => b.getD i 0
  if byte 0 = 127 then false
  else if byte 0 = 169 ∧ byte 1 = 254 then p.allowLinklocal
  else if byte 0 = 10 then p.allowPrivateV4
  else if byte 0 = 172 ∧ 16 ≤ byte 1 ∧ byte 1 ≤ 31 then p.allowPrivateV4
  else if byte 0 = 192 ∧ byte 1 = 168 then p.allowPrivateV4
  else true

/-- `cand_addr_keep` with no family asked for. -/
def candAddrKeep (inet : Inet) (p : CandPolicy) (addr : Bytes) : Bool :=
  match inet.pton .v6 addr with
  | some b => v6Keep b p
  | none =>
      match inet.pton .v4 addr with
      | some b => v4Keep b p
      | none => false

/-! ## Lines of a description -/

/-- `next_line` into a buffer of 512: one line without its carriage returns, cut to what the
buffer holds before its terminator, and what follows the line. -/
def nextLine (s : Bytes) : Option (Bytes × Bytes) :=
  if s = [] then none
  else some (((s.takeWhile (· != ch '\n')).filter (· != ch '\r')).take 511,
    (s.dropWhile (· != ch '\n')).drop 1)

/-- What is left after a line is shorter. -/
theorem nextLine_shorter {s line rest : Bytes} (h : nextLine s = some (line, rest)) :
    rest.length < s.length := by
  unfold nextLine at h
  split_ifs at h with hs
  obtain ⟨-, rfl⟩ := Prod.mk.inj (Option.some.inj h)
  have hpos : 0 < s.length := List.length_pos_iff.mpr hs
  have hle := (List.dropWhile_suffix (l := s) (· != ch '\n')).length_le
  rw [List.length_drop]
  omega

/-- The loop `while (next_line(..))`, at most `n` times. -/
def linesUpTo : Nat → Bytes → List Bytes
  | 0, _ => []
  | n + 1, s =>
      match nextLine s with
      | none => []
      | some (line, rest) => line :: linesUpTo n rest

/-- The lines of a description, as the loops of the encoder see them. -/
def sdpLines (s : Bytes) : List Bytes := linesUpTo s.length s

/-- The loop ends by itself: no line is left over after as many turns as the text has bytes. -/
theorem linesUpTo_of_le {n : Nat} {s : Bytes} (h : s.length ≤ n) : linesUpTo n s = sdpLines s := by
  induction hlen : s.length using Nat.strong_induction_on generalizing n s with
  | _ m ih =>
      subst hlen
      unfold sdpLines
      cases hs : nextLine s with
      | none => cases n <;> cases s.length <;> simp [linesUpTo, hs]
      | some x =>
          obtain ⟨line, rest⟩ := x
          have hlt := nextLine_shorter hs
          obtain ⟨k, hk⟩ : ∃ k, n = k + 1 := ⟨n - 1, by omega⟩
          obtain ⟨j, hj⟩ : ∃ j, s.length = j + 1 := ⟨s.length - 1, by omega⟩
          rw [hk, hj, linesUpTo, linesUpTo, hs]
          dsimp only
          rw [ih rest.length hlt (n := k) (s := rest) (by omega) rfl,
            ih rest.length hlt (n := j) (s := rest) (by omega) rfl]

/-! ## What the lines name -/

/-- The key of a user fragment. -/
def ufragKey : Bytes := ascii "a=ice-ufrag:".toList

/-- The key of a password. -/
def pwdKey : Bytes := ascii "a=ice-pwd:".toList

/-- The key of a candidate. -/
def candKey : Bytes := ascii "a=candidate:".toList

/-- `cred_value`: whether the line has the credential, and what is in the buffer then. -/
def credValue (line key out : Bytes) (max : Nat) : Bool × Bytes :=
  if key.isPrefixOf line = false then (false, out)
  else
    match scanWord 256 (line.drop key.length) with
    | none => (false, out)
    | some (w, _) => (decide (w.length < max), w)

/-- The fields of a candidate line. -/
structure CandFields where
  found : Bytes
  comp : Int
  transport : Bytes
  prio : UInt32
  addr : Bytes
  port : Int
  type : Bytes

/-- `"%32s %d %7s %u %63s %d typ %15s"`, all seven of them. -/
def scanCand : Scan CandFields := do
  let found ← scanWord 32
  scanSpace
  let comp ← scanInt
  scanSpace
  let transport ← scanWord 7
  scanSpace
  let prio ← scanUnsigned
  scanSpace
  let addr ← scanWord 63
  scanSpace
  let port ← scanInt
  scanSpace
  scanText (ascii "typ".toList)
  scanSpace
  let type ← scanWord 15
  return { found, comp, transport, prio, addr, port, type }

/-- `tolower`. -/
def toLower (c : UInt8) : UInt8 := if 65 ≤ c ∧ c ≤ 90 then c + 32 else c

/-- The address that `inet_pton` reads, as v6 before it is read as v4. -/
def candOfAddr (inet : Inet) (type : CandType) (prio : UInt32) (port : UInt16) (text : Bytes) :
    Option Cand :=
  match h6 : inet.pton .v6 text with
  | some addr => some { type, fam := .v6, prio, port, addr,
                        addr_length := inet.pton_length _ _ _ h6 }
  | none =>
      match h4 : inet.pton .v4 text with
      | some addr => some { type, fam := .v4, prio, port, addr,
                            addr_length := inet.pton_length _ _ _ h4 }
      | none => none

/-- The candidate of a line, where the encoder does not pass over it. -/
def candOfLine (inet : Inet) (pol : CandPolicy) (line : Bytes) : Option Cand :=
  if candKey.isPrefixOf line = false then none
  else
    match scanCand (line.drop candKey.length) with
    | none => none
    | some (f, _) =>
        if f.comp ≠ 1 ∨ f.transport.map toLower ≠ ascii "udp".toList then none
        else if f.port < 0 ∨ 65535 < f.port then none
        else
          match typeCode f.type with
          | none => none
          | some tc =>
              if candAddrKeep inet pol f.addr = false then none
              else candOfAddr inet tc f.prio (UInt16.ofNat f.port.toNat) f.addr

/-! ## The encoder -/

/-- The fields in front of the credentials. -/
def packStamp (gen : UInt32) (offer : Bytes) (cid : Option (Vector UInt8 8)) : Bytes :=
  candpackVersion :: (bePut 4 gen.toNat ++ (UInt8.ofNat offer.length :: offer
    ++ (cid.elim [0] fun c => UInt8.ofNat candpackCidLen :: c.toList)))

/-- A credential behind its length byte. -/
def packCred (cred : Bytes) : Bytes := UInt8.ofNat cred.length :: cred

/-- The loop over the candidate lines: how many were written, and what.  `o` bytes stand in
front of them. -/
def encodeCands (inet : Inet) (pol : CandPolicy) (o max : Nat) :
    List Bytes → Nat → Bytes → Option (Nat × Bytes)
  | [], ncand, out => some (ncand, out)
  | line :: lines, ncand, out =>
      match candOfLine inet pol line with
      | none => encodeCands inet pol o max lines ncand out
      | some c =>
          if ncand = 255 then some (ncand, out)
          else if max < o + out.length + (1 + 1 + 4 + 2 + c.fam.alen) then none
          else encodeCands inet pol o max lines (ncand + 1) (out ++ c.packed)

/-- `candpack_encode`: `none` for -1, and nothing for 0. -/
def candpackEncode (inet : Inet) (sdp : Bytes) (forDht : Bool) (gen : UInt32)
    (offerUfrag : Option Bytes) (cid : Option (Vector UInt8 8)) (max : Nat) : Option Bytes :=
  let offer := cString (offerUfrag.getD [])
  let cl := cid.elim 0 fun _ => candpackCidLen
  if 255 < offer.length then none
  else
    let lines := sdpLines (cString sdp)
    let ufrag := lines.foldl (fun out line => (credValue line ufragKey out 257).2) []
    let pwd := lines.foldl (fun out line => (credValue line pwdKey out 257).2) []
    if ufrag = [] ∨ pwd = [] then some []
    else if max < 1 + 4 + 1 + offer.length + 1 + cl + 1 + ufrag.length + 1 + pwd.length + 1 then
      none
    else
      let head := packStamp gen offer cid ++ (packCred ufrag ++ packCred pwd)
      match encodeCands inet (encodePolicy forDht) (head.length + 1) max lines 0 [] with
      | none => none
      | some (ncand, cands) => some (head ++ UInt8.ofNat ncand :: cands)

/-! ## What it writes -/

/-- The word that a line names as the credential of a key. -/
def credWord (key line : Bytes) : Option Bytes :=
  if key.isPrefixOf line = true ∧ word (line.drop key.length) ≠ [] then
    some (word (line.drop key.length))
  else none

/-- The credential that the last line to name one names. -/
def credOfLines (key : Bytes) (lines : List Bytes) : Bytes :=
  lines.foldl (fun named line => (credWord key line).getD named) []

/-- The credential that a description names. -/
def credNamed (key sdp : Bytes) : Bytes := credOfLines key (sdpLines (cString sdp))

/-- The candidates of a description that go into a packing. -/
def keptCands (inet : Inet) (forDht : Bool) (sdp : Bytes) : List Cand :=
  ((sdpLines (cString sdp)).filterMap (candOfLine inet (encodePolicy forDht))).take 255

/-- The reader of a line takes 256 bytes of the word that it names. -/
theorem credValue_snd (line key out : Bytes) (max : Nat) :
    (credValue line key (out.take 256) max).2 = ((credWord key line).getD out).take 256 := by
  unfold credValue credWord scanWord
  by_cases hkey : key.isPrefixOf line = true
  · by_cases hword : word (line.drop key.length) = []
    · simp [hkey, hword]
    · simp [hkey, hword]
  · simp [hkey]

theorem foldl_credValue (key : Bytes) (max : Nat) (lines : List Bytes) (named : Bytes) :
    lines.foldl (fun out line => (credValue line key out max).2) (named.take 256) =
      (lines.foldl (fun named line => (credWord key line).getD named) named).take 256 := by
  induction lines generalizing named with
  | nil => rfl
  | cons line lines ih =>
      rw [List.foldl_cons, List.foldl_cons, credValue_snd]
      exact ih ((credWord key line).getD named)

/-- The loop writes the candidates of its lines, as far as there is a count for them. -/
theorem encodeCands_some {inet : Inet} {pol : CandPolicy} {o max : Nat} {lines : List Bytes}
    {ncand n : Nat} {out out' : Bytes} (hncand : ncand ≤ 255)
    (h : encodeCands inet pol o max lines ncand out = some (n, out')) :
    n = ncand + ((lines.filterMap (candOfLine inet pol)).take (255 - ncand)).length ∧
      out' = out ++
        ((lines.filterMap (candOfLine inet pol)).take (255 - ncand)).flatMap Cand.packed := by
  induction lines generalizing ncand out with
  | nil =>
      obtain ⟨rfl, rfl⟩ := Prod.mk.inj (Option.some.inj h)
      simp
  | cons line lines ih =>
      cases hline : candOfLine inet pol line with
      | none =>
          rw [encodeCands, hline] at h
          rw [List.filterMap_cons_none hline]
          exact ih hncand h
      | some c =>
          rw [encodeCands, hline] at h
          dsimp only at h
          rw [List.filterMap_cons_some hline]
          by_cases hfull : ncand = 255
          · rw [if_pos hfull] at h
            obtain ⟨rfl, rfl⟩ := Prod.mk.inj (Option.some.inj h)
            simp [hfull]
          · rw [if_neg hfull] at h
            split_ifs at h
            obtain ⟨hn, hout⟩ := ih (by omega) h
            have hroom : 255 - ncand = 255 - (ncand + 1) + 1 := by omega
            rw [hroom, List.take_succ_cons, List.length_cons, List.flatMap_cons,
              ← List.append_assoc]
            exact ⟨by omega, hout⟩

/-- What a call that packs the description writes. -/
theorem candpackEncode_eq {inet : Inet} {sdp : Bytes} {forDht : Bool} {gen : UInt32}
    {offerUfrag : Option Bytes} {cid : Option (Vector UInt8 8)} {max : Nat} {enc : Bytes}
    (h : candpackEncode inet sdp forDht gen offerUfrag cid max = some enc) (hne : enc ≠ []) :
    (cString (offerUfrag.getD [])).length ≤ 255 ∧
      credNamed ufragKey sdp ≠ [] ∧ credNamed pwdKey sdp ≠ [] ∧
      enc = packStamp gen (cString (offerUfrag.getD [])) cid
        ++ (packCred ((credNamed ufragKey sdp).take 256)
          ++ (packCred ((credNamed pwdKey sdp).take 256)
            ++ UInt8.ofNat (keptCands inet forDht sdp).length
              :: (keptCands inet forDht sdp).flatMap Cand.packed)) := by
  have hufrag := foldl_credValue ufragKey 257 (sdpLines (cString sdp)) []
  have hpwd := foldl_credValue pwdKey 257 (sdpLines (cString sdp)) []
  rw [List.take_nil] at hufrag hpwd
  unfold candpackEncode at h
  dsimp only at h
  rw [hufrag, hpwd] at h
  change (if _ then _ else if (credNamed ufragKey sdp).take 256 = [] ∨
    (credNamed pwdKey sdp).take 256 = [] then _ else _) = _ at h
  split_ifs at h with hoffer hcred hroom
  · exact absurd (Option.some.inj h).symm hne
  · push Not at hcred
    split at h
    · cases h
    · rename_i ncand cands hcands
      obtain ⟨rfl, rfl⟩ := encodeCands_some (by omega) hcands
      refine ⟨by omega, ?_, ?_, ?_⟩
      · intro hnil
        exact hcred.1 (by rw [hnil, List.take_nil])
      · intro hnil
        exact hcred.2 (by rw [hnil, List.take_nil])
      · rw [← Option.some.inj h]
        simp [keptCands, credNamed, credOfLines]

/-! ## The bytes of a credential -/

theorem mem_of_mem_linesUpTo {n : Nat} {s line : Bytes} {c : UInt8} (hline : line ∈ linesUpTo n s)
    (hc : c ∈ line) : c ∈ s := by
  induction n generalizing s with
  | zero => cases hline
  | succ n ih =>
      rw [linesUpTo, nextLine] at hline
      split_ifs at hline
      · cases hline
      · cases hline with
        | head =>
            have hfilter := List.mem_of_mem_take hc
            exact (List.takeWhile_prefix _).subset (List.mem_filter.mp hfilter).1
        | tail _ hrest =>
            have hdrop := List.mem_of_mem_drop (ih hrest)
            exact (List.dropWhile_suffix _).subset hdrop

theorem mem_of_mem_credOfLines {key : Bytes} {lines : List Bytes} {c : UInt8}
    (h : c ∈ credOfLines key lines) : ∃ line ∈ lines, c ∈ word (line.drop key.length) := by
  unfold credOfLines at h
  induction lines using List.reverseRecOn with
  | nil => cases h
  | append_singleton lines line ih =>
      rw [List.foldl_append, List.foldl_cons, List.foldl_nil, credWord] at h
      split_ifs at h with hword
      · exact ⟨line, by simp, h⟩
      · obtain ⟨l, hl, hc⟩ := ih h
        exact ⟨l, by simp [hl], hc⟩

theorem zero_not_mem_credNamed (key sdp : Bytes) : (0 : UInt8) ∉ credNamed key sdp := by
  intro h
  obtain ⟨line, hline, hc⟩ := mem_of_mem_credOfLines h
  have hmem : 0 ∈ line := List.mem_of_mem_drop (mem_of_mem_word hc)
  exact zero_not_mem_cString sdp (mem_of_mem_linesUpTo hline hmem)

theorem newline_not_mem_credNamed (key sdp : Bytes) : ch '\n' ∉ credNamed key sdp := by
  intro h
  obtain ⟨line, -, hc⟩ := mem_of_mem_credOfLines h
  exact absurd (not_space_of_mem_word hc) (by decide)

end Candpack
end Comrade
