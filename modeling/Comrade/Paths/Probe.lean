import Comrade.Lib.Word
import Comrade.Paths.Plane
import Comrade.Sig.Seal

/-!
# The probe on the wire

A probe is the session's tag and a sealed message: the type, the nonce, the
sender's count, the identity it is for and, where it has one, the tail with this
end's view of the path (`path_probe_build` and `path_probe_parse` of `path.c`).

* `probeDecode_probePlain`: what is written is read back, the figures of the tail
  clamped to what 16 bits hold.
* `pathProbeParse_build`: a probe opens under its own key, and under any key that
  opens it to the probe that was built.
-/

namespace Comrade
namespace Paths

open Lib Sig

/-- `PROBE_UFRAG_MAX`. -/
def probeUfragMax : Nat := 40

/-- `PROBE_TAIL_LEN`. -/
def probeTailLen : Nat := 24

/-- `PROBE_HEAD_FIXED`: type, nonce, count and the identity's length. -/
def probeHeadFixed : Nat := 18

/-- `PROBE_PLAIN_MAX`. -/
def probePlainMax : Nat := probeHeadFixed + probeUfragMax + probeTailLen

/-- `PROBE_MAX`. -/
def probeMax : Nat := 4 + probePlainMax + sealOverhead

/-- The byte of a type: `PROBE_PING`, `PROBE_PONG`, or another. -/
def ProbeType.code : ProbeType → UInt8
  | .ping => 1
  | .pong => 2
  | .other code => code

/-- The type of a byte. -/
def ProbeType.ofCode (b : UInt8) : ProbeType :=
  if b = 1 then .ping else if b = 2 then .pong else .other b

/-- `PROBE_FRESH`: the worker answering is not the one that was left. -/
def ProbeType.fresh : ProbeType := .other 3

/-- `struct path_probe` with what the seal adds: the sender's count, and the
identity the probe is for. -/
structure WireProbe extends PathProbe where
  seq : UInt64
  ufrag : Bytes

/-- What `path_put16` makes of a figure. -/
def clamp16 (v : Int) : Int := if v < 0 then 0 else if v > 0xffff then 0xffff else v

/-- `path_put16`. -/
def pathPut16 (v : Int) : Bytes := bePut 2 (clamp16 v).toNat

/-- The number that two bytes spell, as the tail is read. -/
def pathGet16 (b : Bytes) : Int := beGet b

/-- `path_ep_unpack`. -/
def pathEpUnpack (b : Bytes) : PathEp :=
  { addr := Vector.ofFn fun i => b.getD i 0, port := UInt16.ofNat (beGet ((b.drop 16).take 2)) }

/-- The tail of a probe. -/
def probeTail (pr : WireProbe) : Bytes :=
  pathEpPack pr.echo ++ pathPut16 pr.srttMs ++ pathPut16 pr.lossPpt ++ pathPut16 pr.baseSrttMs

/-- The tail where the probe has one. -/
def probeTailPart (pr : WireProbe) : Bytes := if pr.haveTail = true then probeTail pr else []

/-- What `path_probe_build` seals. -/
def probePlain (pr : WireProbe) : Bytes :=
  [pr.type.code] ++ bePut 8 pr.nonce.toNat ++ bePut 8 pr.seq.toNat ++
    [UInt8.ofNat pr.ufrag.length] ++ pr.ufrag ++ probeTailPart pr

/-- `path_probe_build` into a buffer of `outLen` bytes. -/
def pathProbeBuild (lock : Lock) (rand : Option SealNonce) (outLen : Nat) (magic : UInt32)
    (key : Bytes) (pr : WireProbe) : Option Bytes :=
  let ufrag := cString pr.ufrag
  if ufrag.length > probeUfragMax ∨ outLen < probeMax then none
  else
    (msgSeal lock rand (outLen - 4) key (probePlain { pr with ufrag := ufrag })).map
      fun sealed => bePut 4 magic.toNat ++ sealed

/-- `path_probe_is`. -/
def pathProbeIs (magic : UInt32) (data : Bytes) : Bool :=
  decide (data.length ≥ 4) && UInt32.ofNat (beGet (data.take 4)) == magic

/-- What `path_probe_parse` reads in an opened probe. -/
def probeDecode (plain : Bytes) : Option WireProbe :=
  if plain.length < probeHeadFixed then none
  else
    let ul := (plain.getD 17 0).toNat
    if ul > probeUfragMax ∨ plain.length < probeHeadFixed + ul then none
    else
      let bare : WireProbe :=
        { probeBare (.ofCode (plain.headD 0)) (UInt64.ofNat (beGet ((plain.drop 1).take 8))) with
          seq := UInt64.ofNat (beGet ((plain.drop 9).take 8))
          ufrag := (plain.drop probeHeadFixed).take ul }
      let t := plain.drop (probeHeadFixed + ul)
      if plain.length ≥ probeHeadFixed + ul + probeTailLen then
        some { bare with
          haveTail := true
          echo := pathEpUnpack (t.take 18)
          srttMs := pathGet16 ((t.drop 18).take 2)
          lossPpt := pathGet16 ((t.drop 20).take 2)
          baseSrttMs := pathGet16 ((t.drop 22).take 2) }
      else some bare

/-- `path_probe_parse`. -/
def pathProbeParse (unlock : Unlock) (magic : UInt32) (key data : Bytes) : Option WireProbe :=
  if pathProbeIs magic data = false then none
  else (msgOpen unlock (probePlainMax + 1) key (data.drop 4)).bind probeDecode

/-! ## Reading back what was written -/

/-- What a probe says once it has been carried. -/
def WireProbe.carried (pr : WireProbe) : WireProbe :=
  if pr.haveTail = true then
    { pr with
      type := .ofCode pr.type.code
      srttMs := clamp16 pr.srttMs
      lossPpt := clamp16 pr.lossPpt
      baseSrttMs := clamp16 pr.baseSrttMs }
  else { probeBare (.ofCode pr.type.code) pr.nonce with seq := pr.seq, ufrag := pr.ufrag }

theorem length_pathEpPack (ep : PathEp) : (pathEpPack ep).length = 18 := by
  simp [pathEpPack]

theorem length_pathPut16 (v : Int) : (pathPut16 v).length = 2 := length_bePut 2 _

theorem pathGet16_pathPut16 (v : Int) : pathGet16 (pathPut16 v) = clamp16 v := by
  have hrange : 0 ≤ clamp16 v ∧ clamp16 v < 65536 := by
    unfold clamp16
    split_ifs <;> omega
  rw [pathGet16, pathPut16, beGet_bePut_of_lt (by omega)]
  omega

theorem pathEpUnpack_pathEpPack (ep : PathEp) : pathEpUnpack (pathEpPack ep) = ep := by
  have haddr : ep.addr.toList.length = 16 := by simp
  have hport : UInt16.ofNat (beGet (((pathEpPack ep).drop 16).take 2)) = ep.port := by
    rw [pathEpPack, List.drop_append_of_le_length (by omega),
      List.drop_of_length_le (by omega), List.nil_append]
    apply UInt16.toNat_inj.mp
    have hlt := ep.port.toNat_lt
    simp only [List.take_succ_cons, List.take_zero, beGet, List.foldl_cons, List.foldl_nil,
      UInt16.toNat_toUInt8, UInt16.toNat_shiftRight, UInt16.toNat_ofNat']
    simp
    omega
  have haddr' : (Vector.ofFn fun i : Fin 16 => (pathEpPack ep).getD i 0) = ep.addr := by
    ext i hi
    rw [Vector.getElem_ofFn, pathEpPack, List.getD_eq_getElem?_getD,
      List.getElem?_append_left (by omega)]
    simp [hi]
  rw [pathEpUnpack, haddr', hport]

theorem length_probeTail (pr : WireProbe) : (probeTail pr).length = probeTailLen := by
  simp only [probeTail, List.length_append, length_pathEpPack, length_pathPut16]
  rfl

/-- The tail is read back figure by figure. -/
theorem probeTail_read (pr : WireProbe) :
    pathEpUnpack ((probeTail pr).take 18) = pr.echo ∧
      pathGet16 (((probeTail pr).drop 18).take 2) = clamp16 pr.srttMs ∧
      pathGet16 (((probeTail pr).drop 20).take 2) = clamp16 pr.lossPpt ∧
      pathGet16 (((probeTail pr).drop 22).take 2) = clamp16 pr.baseSrttMs := by
  have hep := length_pathEpPack pr.echo
  have hlen := length_pathPut16
  refine ⟨?_, ?_, ?_, ?_⟩
  · have hfield : (probeTail pr).take 18 = pathEpPack pr.echo := by
      simp only [probeTail, List.append_assoc]
      rw [List.take_append_of_le_length (by omega), List.take_of_length_le (by omega)]
    rw [hfield, pathEpUnpack_pathEpPack]
  · have hfield : ((probeTail pr).drop 18).take 2 = pathPut16 pr.srttMs := by
      simp only [probeTail, List.append_assoc]
      exact take_drop_field hep (hlen _)
    rw [hfield, pathGet16_pathPut16]
  · have hfield : ((probeTail pr).drop 20).take 2 = pathPut16 pr.lossPpt := by
      rw [probeTail, List.append_assoc]
      exact take_drop_field (by rw [List.length_append, hep, hlen]) (hlen _)
    rw [hfield, pathGet16_pathPut16]
  · have hfield : ((probeTail pr).drop 22).take 2 = pathPut16 pr.baseSrttMs := by
      rw [probeTail, ← List.append_nil (pathPut16 pr.baseSrttMs)]
      exact take_drop_field (by rw [List.length_append, List.length_append, hep, hlen, hlen])
        (hlen _)
    rw [hfield, pathGet16_pathPut16]

/-- The head of a probe: everything before the identity. -/
def probeHead (pr : WireProbe) : Bytes :=
  [pr.type.code] ++ bePut 8 pr.nonce.toNat ++ bePut 8 pr.seq.toNat ++
    [UInt8.ofNat pr.ufrag.length]

theorem length_probeHead (pr : WireProbe) : (probeHead pr).length = probeHeadFixed := by
  simp [probeHead, probeHeadFixed]

theorem probePlain_eq (pr : WireProbe) :
    probePlain pr = probeHead pr ++ (pr.ufrag ++ probeTailPart pr) := by
  simp only [probePlain, probeHead, List.append_assoc]

/-- The head is read back field by field, whatever follows it. -/
theorem probeHead_read (pr : WireProbe) (rest : Bytes) (hu : pr.ufrag.length ≤ probeUfragMax) :
    (probeHead pr ++ rest).headD 0 = pr.type.code ∧
      UInt64.ofNat (beGet (((probeHead pr ++ rest).drop 1).take 8)) = pr.nonce ∧
      UInt64.ofNat (beGet (((probeHead pr ++ rest).drop 9).take 8)) = pr.seq ∧
      ((probeHead pr ++ rest).getD 17 0).toNat = pr.ufrag.length := by
  have hword : ∀ v : UInt64, UInt64.ofNat (beGet (bePut 8 v.toNat)) = v := by
    intro v
    rw [beGet_bePut_of_lt v.toNat_lt, UInt64.ofNat_toNat]
  refine ⟨rfl, ?_, ?_, ?_⟩
  · have hfield : ((probeHead pr ++ rest).drop 1).take 8 = bePut 8 pr.nonce.toNat := by
      simp only [probeHead, List.append_assoc]
      exact take_drop_field rfl (length_bePut 8 _)
    rw [hfield, hword]
  · have hfield : ((probeHead pr ++ rest).drop 9).take 8 = bePut 8 pr.seq.toNat := by
      simp only [probeHead, List.append_assoc]
      rw [← List.append_assoc [pr.type.code]]
      exact take_drop_field (by simp) (length_bePut 8 _)
    rw [hfield, hword]
  · have hbyte : (probeHead pr ++ rest).getD 17 0 = UInt8.ofNat pr.ufrag.length := by
      rw [List.getD_eq_getElem?_getD,
        List.getElem?_append_left (by rw [length_probeHead, probeHeadFixed]; omega), probeHead,
        List.getElem?_append_right (by simp)]
      simp
    rw [hbyte, UInt8.toNat_ofNat']
    rw [probeUfragMax] at hu
    omega

theorem length_probeTailPart (pr : WireProbe) :
    (probeTailPart pr).length = if pr.haveTail = true then probeTailLen else 0 := by
  unfold probeTailPart
  split_ifs
  · exact length_probeTail pr
  · rfl

theorem probeDecode_probePlain {pr : WireProbe} (hu : pr.ufrag.length ≤ probeUfragMax) :
    probeDecode (probePlain pr) = some pr.carried := by
  rw [probePlain_eq]
  obtain ⟨htype, hnonce, hseq, hul⟩ := probeHead_read pr (pr.ufrag ++ probeTailPart pr) hu
  have hhead := length_probeHead pr
  have hufrag : ((probeHead pr ++ (pr.ufrag ++ probeTailPart pr)).drop probeHeadFixed).take
      pr.ufrag.length = pr.ufrag := take_drop_field hhead rfl
  have hrest : (probeHead pr ++ (pr.ufrag ++ probeTailPart pr)).drop
      (probeHeadFixed + pr.ufrag.length) = probeTailPart pr := by
    rw [← List.append_assoc, List.drop_left']
    rw [List.length_append, hhead]
  have hlen : (probeHead pr ++ (pr.ufrag ++ probeTailPart pr)).length =
      probeHeadFixed + pr.ufrag.length + if pr.haveTail = true then probeTailLen else 0 := by
    rw [List.length_append, List.length_append, hhead, length_probeTailPart]
    omega
  unfold probeDecode
  dsimp only
  rw [hul, hlen, htype, hnonce, hseq, hufrag, hrest, if_neg (by omega), if_neg (by omega)]
  unfold WireProbe.carried probeTailPart
  by_cases htail : pr.haveTail = true
  · obtain ⟨hecho, hsrtt, hloss, hbase⟩ := probeTail_read pr
    simp only [if_pos htail, hecho, hsrtt, hloss, hbase]
    rw [if_pos (by omega)]
    cases pr
    simp_all [probeBare]
  · simp only [if_neg htail]
    rw [if_neg (by rw [probeTailLen]; omega)]

/-- A probe that was built, piece by piece. -/
theorem pathProbeBuild_eq_some {lock : Lock} {rand : Option SealNonce} {outLen : Nat}
    {magic : UInt32} {key : Bytes} {pr : WireProbe} {data : Bytes}
    (h : pathProbeBuild lock rand outLen magic key pr = some data) :
    (cString pr.ufrag).length ≤ probeUfragMax ∧
      ∃ sealed, msgSeal lock rand (outLen - 4) key
          (probePlain { pr with ufrag := cString pr.ufrag }) = some sealed ∧
        data = bePut 4 magic.toNat ++ sealed := by
  unfold pathProbeBuild at h
  dsimp only at h
  split_ifs at h with hbad
  rw [not_or] at hbad
  rw [Option.map_eq_some_iff] at h
  obtain ⟨sealed, hseal, hdata⟩ := h
  exact ⟨by omega, sealed, hseal, hdata.symm⟩

/-- The identity in a probe that was read fits its place. -/
theorem pathProbeParse_ufrag_le {unlock : Unlock} {magic : UInt32} {key data : Bytes}
    {pr : WireProbe} (h : pathProbeParse unlock magic key data = some pr) :
    pr.ufrag.length ≤ probeUfragMax := by
  unfold pathProbeParse at h
  split_ifs at h
  obtain ⟨plain, -, hdecode⟩ := Option.bind_eq_some_iff.mp h
  unfold probeDecode at hdecode
  dsimp only at hdecode
  split_ifs at hdecode with hshort hbad htail
  · rw [not_or] at hbad
    rw [← Option.some.inj hdecode, List.length_take]
    omega
  · rw [not_or] at hbad
    rw [← Option.some.inj hdecode, List.length_take]
    omega

theorem length_probePlain_le {pr : WireProbe} (hu : pr.ufrag.length ≤ probeUfragMax) :
    (probePlain pr).length ≤ probePlainMax := by
  rw [probePlain_eq, List.length_append, List.length_append, length_probeHead, probePlainMax,
    length_probeTailPart]
  split_ifs <;> omega

theorem pathProbeIs_built (magic : UInt32) (sealed : Bytes) :
    pathProbeIs magic (bePut 4 magic.toNat ++ sealed) = true := by
  have htake : (bePut 4 magic.toNat ++ sealed).take 4 = bePut 4 magic.toNat := by
    rw [List.take_left' (length_bePut 4 _)]
  have hmagic : beGet (bePut 4 magic.toNat) = magic.toNat := beGet_bePut_of_lt magic.toNat_lt
  simp only [pathProbeIs, List.length_append, length_bePut, htake, hmagic, UInt32.ofNat_toNat]
  simp

section Opening

variable {lock : Lock} {unlock : Unlock}

/-- A probe opens under its own key. -/
theorem pathProbeParse_build (haead : Aead lock unlock) {rand : Option SealNonce} {outLen : Nat}
    {magic : UInt32} {key : Bytes} {pr : WireProbe} {data : Bytes}
    (h : pathProbeBuild lock rand outLen magic key pr = some data) :
    pathProbeParse unlock magic key data =
      some ({ pr with ufrag := cString pr.ufrag } : WireProbe).carried := by
  obtain ⟨hu, sealed, hseal, rfl⟩ := pathProbeBuild_eq_some h
  have hlen : (probePlain { pr with ufrag := cString pr.ufrag }).length ≤ probePlainMax :=
    length_probePlain_le hu
  unfold pathProbeParse
  rw [pathProbeIs_built, if_neg (by simp), List.drop_left' (length_bePut 4 _),
    msgOpen_msgSeal haead hseal (by omega), Option.bind_some, probeDecode_probePlain hu]

/-- Under whatever key it opens, it opens to the probe that was built. -/
theorem pathProbeParse_authentic (haead : Aead lock unlock) {rand : Option SealNonce}
    {outLen : Nat} {magic magic' : UInt32} {key key' : Bytes} {pr pr' : WireProbe} {data : Bytes}
    (h : pathProbeBuild lock rand outLen magic key pr = some data)
    (hparse : pathProbeParse unlock magic' key' data = some pr') :
    pr' = ({ pr with ufrag := cString pr.ufrag } : WireProbe).carried := by
  obtain ⟨hu, sealed, hseal, rfl⟩ := pathProbeBuild_eq_some h
  unfold pathProbeParse at hparse
  split_ifs at hparse
  rw [List.drop_left' (length_bePut 4 _), Option.bind_eq_some_iff] at hparse
  obtain ⟨plain, hopen, hdecode⟩ := hparse
  rw [msgOpen_authentic haead hseal hopen, probeDecode_probePlain hu] at hdecode
  exact (Option.some.inj hdecode).symm

end Opening

/-! ## Within the opened bytes -/

/-- What `path_probe_parse` reads in an opened probe, each read checked against its end: the
outer `none` is a read past it. -/
def probeDecodeChecked (plain : Bytes) : Option (Option WireProbe) :=
  if plain.length < probeHeadFixed then some none
  else do
    let type ← sliceAt plain 0 1
    let nonce ← sliceAt plain 1 8
    let seq ← sliceAt plain 9 8
    let ul := beGet (← sliceAt plain 17 1)
    if ul > probeUfragMax ∨ plain.length < probeHeadFixed + ul then some none
    else do
      let ufrag ← sliceAt plain probeHeadFixed ul
      let bare : WireProbe :=
        { probeBare (.ofCode (UInt8.ofNat (beGet type))) (UInt64.ofNat (beGet nonce)) with
          seq := UInt64.ofNat (beGet seq)
          ufrag := ufrag }
      if plain.length ≥ probeHeadFixed + ul + probeTailLen then do
        let echo ← sliceAt plain (probeHeadFixed + ul) 18
        let srtt ← sliceAt plain (probeHeadFixed + ul + 18) 2
        let loss ← sliceAt plain (probeHeadFixed + ul + 20) 2
        let base ← sliceAt plain (probeHeadFixed + ul + 22) 2
        some (some { bare with
          haveTail := true
          echo := pathEpUnpack echo
          srttMs := pathGet16 srtt
          lossPpt := pathGet16 loss
          baseSrttMs := pathGet16 base })
      else some (some bare)

/-- No read passes the end of the opened bytes. -/
theorem probeDecodeChecked_eq (plain : Bytes) :
    probeDecodeChecked plain = some (probeDecode plain) := by
  unfold probeDecodeChecked probeDecode
  by_cases hshort : plain.length < probeHeadFixed
  · rw [if_pos hshort, if_pos hshort]
  rw [if_neg hshort, if_neg hshort]
  rw [probeHeadFixed] at hshort
  have htype : UInt8.ofNat (beGet ((plain.drop 0).take 1)) = plain.headD 0 := by
    rw [beGet_slice_one (by omega), UInt8.ofNat_toNat]
    cases plain <;> rfl
  rw [sliceAt_of_le (show 0 + 1 ≤ plain.length by omega),
    sliceAt_of_le (show 1 + 8 ≤ plain.length by omega),
    sliceAt_of_le (show 9 + 8 ≤ plain.length by omega),
    sliceAt_of_le (show 17 + 1 ≤ plain.length by omega)]
  simp only [Option.bind_eq_bind, Option.bind_some, htype,
    beGet_slice_one (show 17 < plain.length by omega)]
  generalize (plain.getD 17 0).toNat = ul
  by_cases hbad : ul > probeUfragMax ∨ plain.length < probeHeadFixed + ul
  · rw [if_pos hbad, if_pos hbad]
  rw [if_neg hbad, if_neg hbad]
  rw [not_or, Nat.not_lt, Nat.not_lt] at hbad
  rw [sliceAt_of_le hbad.2, Option.bind_some]
  by_cases htail : plain.length ≥ probeHeadFixed + ul + probeTailLen
  · rw [if_pos htail, if_pos htail]
    rw [probeTailLen] at htail
    rw [sliceAt_of_le (show probeHeadFixed + ul + 18 ≤ plain.length by omega),
      sliceAt_of_le (show probeHeadFixed + ul + 18 + 2 ≤ plain.length by omega),
      sliceAt_of_le (show probeHeadFixed + ul + 20 + 2 ≤ plain.length by omega),
      sliceAt_of_le (show probeHeadFixed + ul + 22 + 2 ≤ plain.length by omega)]
    simp only [Option.bind_some, List.drop_drop]
  · rw [if_neg htail, if_neg htail]

/-- What is read of an opened probe was there: an identity within its bound, and a tail
exactly where there is room for a whole one behind it. -/
theorem probeDecode_within {plain : Bytes} {pr : WireProbe} (h : probeDecode plain = some pr) :
    pr.ufrag.length ≤ probeUfragMax ∧
      (pr.haveTail = true ↔ probeHeadFixed + pr.ufrag.length + probeTailLen ≤ plain.length) := by
  unfold probeDecode at h
  dsimp only at h
  split_ifs at h with hshort hbad htail
  · rw [not_or, Nat.not_lt, Nat.not_lt] at hbad
    obtain rfl := Option.some.inj h
    have hlen := length_slice hbad.2
    dsimp only
    rw [hlen]
    exact ⟨hbad.1, fun _ => htail, fun _ => rfl⟩
  · rw [not_or, Nat.not_lt, Nat.not_lt] at hbad
    obtain rfl := Option.some.inj h
    have hlen := length_slice hbad.2
    dsimp only
    rw [hlen]
    exact ⟨hbad.1, fun hp => absurd hp (by simp [probeBare]), fun hle => absurd hle htail⟩

/-! ## The codec -/

/-- `msg_open` opens what `msg_seal` sealed, with room for it. -/
def SealInverts (lock : Lock) (unlock : Unlock) : Prop :=
  ∀ (rand : Option SealNonce) (dstLen openLen : Nat) (key plain sealed : Bytes),
    msgSeal lock rand dstLen key plain = some sealed → plain.length ≤ openLen →
      msgOpen unlock openLen key sealed = some plain

/-- A probe that is built is parsed to the same type, nonce, count and identity; the tail is
there when it was sent, with its figures clamped, and reads as zeros when it was not.  What
is parsed of any opened bytes lies within them. -/
theorem pathProbe_codec {lock : Lock} {unlock : Unlock} (hinverts : SealInverts lock unlock) :
    (∀ (rand : Option SealNonce) (outLen : Nat) (magic : UInt32) (key : Bytes) (pr : WireProbe)
        (data : Bytes), pathProbeBuild lock rand outLen magic key pr = some data →
      ∃ pr', pathProbeParse unlock magic key data = some pr' ∧
        pr'.type.code = pr.type.code ∧ pr'.nonce = pr.nonce ∧ pr'.seq = pr.seq ∧
        pr'.ufrag = cString pr.ufrag ∧ pr'.haveTail = pr.haveTail ∧
        if pr.haveTail = true then
          pr'.echo = pr.echo ∧ pr'.srttMs = clamp16 pr.srttMs ∧
            pr'.lossPpt = clamp16 pr.lossPpt ∧ pr'.baseSrttMs = clamp16 pr.baseSrttMs
        else
          pr'.echo = pathEpZero ∧ pr'.srttMs = 0 ∧ pr'.lossPpt = 0 ∧ pr'.baseSrttMs = 0) ∧
      ∀ plain, probeDecodeChecked plain = some (probeDecode plain) ∧
        ∀ pr, probeDecode plain = some pr → pr.ufrag.length ≤ probeUfragMax ∧
          (pr.haveTail = true ↔
            probeHeadFixed + pr.ufrag.length + probeTailLen ≤ plain.length) := by
  refine ⟨?_, fun plain => ⟨probeDecodeChecked_eq plain, fun pr => probeDecode_within⟩⟩
  intro rand outLen magic key pr data hbuild
  obtain ⟨hu, sealed, hseal, rfl⟩ := pathProbeBuild_eq_some hbuild
  have hlen : (probePlain { pr with ufrag := cString pr.ufrag }).length ≤ probePlainMax + 1 :=
    (length_probePlain_le hu).trans (Nat.le_succ _)
  refine ⟨({ pr with ufrag := cString pr.ufrag } : WireProbe).carried, ?_, ?_⟩
  · unfold pathProbeParse
    rw [pathProbeIs_built, if_neg (by simp), List.drop_left' (length_bePut 4 _),
      hinverts _ _ _ _ _ _ hseal hlen, Option.bind_some, probeDecode_probePlain hu]
  · have hcode : (ProbeType.ofCode pr.type.code).code = pr.type.code := by
      unfold ProbeType.ofCode
      split_ifs with hping hpong
      · rw [hping]
        rfl
      · rw [hpong]
        rfl
      · rfl
    unfold WireProbe.carried
    dsimp only
    split_ifs with htail
    · exact ⟨hcode, rfl, rfl, rfl, rfl, rfl, rfl, rfl, rfl⟩
    · have hnone : pr.haveTail = false := by simpa using htail
      exact ⟨hcode, rfl, rfl, rfl, hnone.symm, rfl, rfl, rfl, rfl⟩

/-- A cipher that leaves the plaintext as it is. -/
def openLock : Lock := fun _ _ plain => some (List.replicate 16 0, plain)

def openUnlock : Unlock := fun _ _ _ cipher => some cipher

theorem openLock_inverts : SealInverts openLock openUnlock := by
  intro rand dstLen openLen key plain sealed hseal hroom
  obtain ⟨nonce, mac, cipher, -, -, hlock, rfl⟩ := msgSeal_eq_some hseal
  obtain ⟨rfl, rfl⟩ : mac = List.replicate 16 0 ∧ cipher = plain := by
    simpa [openLock, eq_comm] using hlock
  have hlen : (nonce.toList ++ List.replicate 16 0 ++ cipher).length =
      sealOverhead + cipher.length := by
    simp [sealOverhead]
    omega
  have hdrop : (nonce.toList ++ List.replicate 16 0 ++ cipher).drop 40 = cipher :=
    List.drop_left' (by simp)
  unfold msgOpen openUnlock
  rw [hlen, if_neg (by omega), if_neg (by omega), hdrop]

/-- A probe with figures beyond what 16 bits hold, or without its tail. -/
def figuredProbe (haveTail : Bool) : WireProbe where
  type := .ping
  nonce := 7
  haveTail := haveTail
  echo := { addr := Vector.replicate 16 1, port := 9 }
  srttMs := 70000
  lossPpt := -1
  baseSrttMs := 30
  seq := 5
  ufrag := [0x61]

theorem pathProbe_codec_figured :
    ∃ data pr', pathProbeBuild openLock (some (Vector.replicate 24 0)) probeMax 1 []
        (figuredProbe true) = some data ∧
      pathProbeParse openUnlock 1 [] data = some pr' ∧
      pr'.echo = (figuredProbe true).echo ∧ pr'.srttMs = 65535 ∧ pr'.lossPpt = 0 := by
  obtain ⟨data, hdata⟩ := Option.isSome_iff_exists.mp (show (pathProbeBuild openLock
    (some (Vector.replicate 24 0)) probeMax 1 [] (figuredProbe true)).isSome = true by decide)
  obtain ⟨pr', hparse, -, -, -, -, -, htail⟩ :=
    (pathProbe_codec openLock_inverts).1 _ _ _ _ _ _ hdata
  rw [if_pos (show (figuredProbe true).haveTail = true from rfl)] at htail
  exact ⟨data, pr', hdata, hparse, htail.1, htail.2.1, htail.2.2.1⟩

/-- What a probe without its tail has in the tail's place is not sent. -/
theorem pathProbe_untailed :
    ∃ data pr', pathProbeBuild openLock (some (Vector.replicate 24 0)) probeMax 1 []
        (figuredProbe false) = some data ∧
      pathProbeParse openUnlock 1 [] data = some pr' ∧
      pr'.echo ≠ (figuredProbe false).echo ∧ pr'.srttMs ≠ clamp16 (figuredProbe false).srttMs := by
  obtain ⟨data, hdata⟩ := Option.isSome_iff_exists.mp (show (pathProbeBuild openLock
    (some (Vector.replicate 24 0)) probeMax 1 [] (figuredProbe false)).isSome = true by decide)
  obtain ⟨-, sealed, hseal, rfl⟩ := pathProbeBuild_eq_some hdata
  refine ⟨_, (figuredProbe false).carried, hdata, ?_, by decide, by decide⟩
  unfold pathProbeParse
  rw [pathProbeIs_built, if_neg (by simp), List.drop_left' (length_bePut 4 _),
    openLock_inverts _ _ (probePlainMax + 1) _ _ _ hseal (by decide), Option.bind_some,
    probeDecode_probePlain (by decide)]
  rfl

end Paths
end Comrade
