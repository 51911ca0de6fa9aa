import Comrade.Candpack.Decode

/-!
# A packing comes back as it was written

`candpack_codec`: where `candpack_encode` packs a description, `candpack_decode` gives back the
generation, the offer, the instance id, the credentials and the kept candidates, and rejects
every truncation, just if neither credential is longer than 255 bytes; the decoder stays within
its buffers on any bytes.

A credential of 256 bytes fits the encoder's buffer and its reader's `%256s`, and the encoder
writes 0 for its length.
-/

namespace Comrade
namespace Candpack

open Lib Lib.Reader

/-! ## The text of a packing -/

/-- The lines of the candidates, counted from `k`. -/
def candTexts (inet : Inet) : Nat → List Cand → Bytes
  | _, [] => []
  | k, c :: cs =>
      candText inet k c.type c.fam c.prio.toNat c.port.toNat c.addr ++ candTexts inet (k + 1) cs

/-- The description that a packing stands for. -/
def packText (inet : Inet) (ufrag pwd : Bytes) (cands : List Cand) : Bytes :=
  credText ufrag pwd ++ candTexts inet 0 cands

/-- A text says what stands in front of its first newline. -/
theorem line_inj {a b r s : Bytes} (ha : ch '\n' ∉ a) (hb : ch '\n' ∉ b)
    (h : a ++ ch '\n' :: r = b ++ ch '\n' :: s) : a = b := by
  have hline : ∀ l t : Bytes, ch '\n' ∉ l → (l ++ ch '\n' :: t).takeWhile (· != ch '\n') = l := by
    intro l t hl
    have hall : ∀ c ∈ l, (c != ch '\n') = true := by
      intro c hc
      have hne : c ≠ ch '\n' := fun heq => hl (heq ▸ hc)
      simpa using hne
    rw [List.takeWhile_append_of_pos hall]
    simp
  rw [← hline a r ha, h, hline b s hb]

/-- The text says what the user fragment is. -/
theorem ufrag_of_text {u u' p p' t t' : Bytes} (hu : ch '\n' ∉ u) (hu' : ch '\n' ∉ u')
    (h : credText u p ++ t = credText u' p' ++ t') : u = u' := by
  simp only [credText, List.append_assoc, List.append_cancel_left_eq] at h
  exact line_inj hu hu' h

/-- Behind one user fragment it says what the password is. -/
theorem pwd_of_text {u p p' t t' : Bytes} (hp : ch '\n' ∉ p) (hp' : ch '\n' ∉ p')
    (h : credText u p ++ t = credText u p' ++ t') : p = p' := by
  simp only [credText, List.append_assoc, List.append_cancel_left_eq] at h
  exact line_inj hp hp' h

/-! ## Reading what was written -/

theorem toNat_lenByte {b : Bytes} (h : b.length ≤ 255) : (UInt8.ofNat b.length).toNat = b.length :=
  UInt8.toNat_ofNat_of_lt' (by simpa using Nat.lt_succ_of_le h)

theorem decodeOffer_packed {offer r : Bytes} (offerMax : Nat) (hoffer : offer.length ≤ 255)
    (hr : 0 < r.length) :
    decodeOffer offerMax candpackVersion (UInt8.ofNat offer.length :: (offer ++ r)) =
      if offerMax ≠ 0 ∧ offerMax ≤ offer.length then .error (.answer .malformed)
      else .ok (if offerMax = 0 then [] else offer, r) := by
  have hlen := toNat_lenByte hoffer
  have hneed : offer.length + 1 ≤ (offer ++ r).length := by
    rw [List.length_append]
    omega
  have hoffered : (3 : UInt8) ≤ candpackVersion := by decide
  have houl : decodeOul candpackVersion (UInt8.ofNat offer.length :: (offer ++ r)) =
      .ok (UInt8.ofNat offer.length, offer ++ r) := by
    rw [decodeOul, if_pos hoffered, bind_ok (need_of_le (by simp) _), next_cons]
  rw [decodeOffer, bind_ok houl, hlen, bind_ok (need_of_le hneed _)]
  by_cases hmax : offerMax = 0
  · rw [if_neg (by simp [hmax]), if_neg (by simp [hmax]), if_pos hmax, bind_ok (take_append rfl r)]
    rfl
  · rw [if_pos ⟨hoffered, hmax⟩]
    by_cases hfits : offerMax ≤ offer.length
    · rw [if_pos ⟨hmax, hfits⟩]
      exact bind_error (if_pos hfits)
    · rw [if_neg (fun h => hfits h.2), if_neg hmax, bind_ok (refuse_of_not hfits _ _),
        bind_ok (within_of_le (by omega) _)]
      exact take_append rfl r

theorem decodeCid_packed {r : Bytes} (cid : Option (Vector UInt8 8)) (hr : 0 < r.length) :
    decodeCid candpackVersion
        ((cid.elim [0] fun c => UInt8.ofNat candpackCidLen :: c.toList) ++ r) =
      .ok (cid.getD (Vector.replicate 8 0), r) := by
  have hnamed : (4 : UInt8) ≤ candpackVersion := by decide
  rw [decodeCid, if_pos hnamed]
  cases cid with
  | none =>
      have hcl : (0 : UInt8).toNat = 0 := rfl
      rw [Option.elim_none, List.cons_append, bind_ok (need_of_le (by simp) _),
        bind_ok (next_cons _ _), hcl, bind_ok (need_of_le (by rw [List.nil_append]; omega) _)]
      have hnone : (take 0 : Decode Bytes) ([] ++ r) = .ok ([], r) := rfl
      exact bind_ok hnone
  | some c =>
      have hlen : c.toList.length = 8 := by simp
      have hfield : cidOfField c.toList = c := by
        rw [cidOfField, dif_pos hlen]
        ext i hi
        simp
      have hcl : (UInt8.ofNat candpackCidLen).toNat = 8 := rfl
      have hneed : 8 + 1 ≤ (c.toList ++ r).length := by
        rw [List.length_append, hlen]
        omega
      rw [Option.elim_some, List.cons_append, bind_ok (need_of_le (by simp) _),
        bind_ok (next_cons _ _), hcl, bind_ok (need_of_le hneed _), bind_ok (take_append hlen r),
        hfield]
      rfl

theorem decodeStamp_packed {offer r : Bytes} (offerMax : Nat) (gen : UInt32)
    (cid : Option (Vector UInt8 8)) (hoffer : offer.length ≤ 255) (hr : 0 < r.length) :
    decodeStamp offerMax (packStamp gen offer cid ++ r) =
      if offerMax ≠ 0 ∧ offerMax ≤ offer.length then .error (.answer .malformed)
      else .ok ({ gen, offer := if offerMax = 0 then [] else offer,
                  cid := cid.getD (Vector.replicate 8 0) }, r) := by
  have hgen : UInt32.ofNat (beGet (bePut 4 gen.toNat)) = gen := by
    rw [beGet_bePut_of_lt gen.toNat_lt, UInt32.ofNat_toNat]
  have hcid := decodeCid_packed cid hr
  have hbehind :
      0 < ((cid.elim [0] fun c => UInt8.ofNat candpackCidLen :: c.toList) ++ r).length := by
    rw [List.length_append]
    omega
  have hfield := decodeOffer_packed offerMax hoffer hbehind
  rw [decodeStamp, packStamp, List.cons_append, List.append_assoc, List.append_assoc,
    List.cons_append, bind_ok (need_of_le (by simp) _), bind_ok (next_cons _ _),
    bind_ok (refuse_of_not (by decide) _ _), bind_ok (need_of_le (by simp) _),
    bind_ok (take_append (length_bePut 4 _) _)]
  by_cases hfits : offerMax ≠ 0 ∧ offerMax ≤ offer.length
  · rw [if_pos hfits] at hfield ⊢
    exact bind_error hfield
  · rw [if_neg hfits] at hfield ⊢
    rw [bind_ok hfield, bind_ok hcid, hgen]
    rfl

theorem decodeCred_packed {cred r : Bytes} {more : Nat} (hcred : cred.length ≤ 255)
    (hmore : more ≤ r.length) : decodeCred more (packCred cred ++ r) = .ok (cred, r) := by
  have hneed : cred.length + more ≤ (cred ++ r).length := by
    rw [List.length_append]
    omega
  rw [decodeCred, packCred, List.cons_append, bind_ok (next_cons _ _), toNat_lenByte hcred,
    bind_ok (need_of_le hneed _), bind_ok (within_of_le (by omega) _)]
  exact take_append rfl r

/-- The length byte of a credential of 256 bytes is 0. -/
theorem decodeCred_wrapped {cred r : Bytes} {more : Nat} (hcred : cred.length = 256)
    (hmore : more ≤ r.length) : decodeCred more (packCred cred ++ r) = .ok ([], cred ++ r) := by
  have hneed : 0 + more ≤ (cred ++ r).length := by
    rw [List.length_append]
    omega
  have hbyte : (UInt8.ofNat cred.length).toNat = 0 := by rw [hcred]; rfl
  have hnone : (take 0 : Decode Bytes) ([] ++ (cred ++ r)) = .ok ([], cred ++ r) := rfl
  rw [decodeCred, packCred, List.cons_append, bind_ok (next_cons _ _), hbyte,
    bind_ok (need_of_le hneed _), bind_ok (within_of_le (by omega) _)]
  exact hnone

theorem appendText_eq {max : Nat} {out : Bytes} (hout : out.length ≤ max) (text r : Bytes) :
    appendText max out text r =
      if max ≤ (out ++ text).length then .error (.answer .malformed) else .ok (out ++ text, r) := by
  rw [appendText, bind_ok (within_of_le hout r), List.length_append]
  by_cases hroom : max ≤ out.length + text.length
  · rw [if_pos hroom]
    exact bind_error (if_pos hroom)
  · rw [if_neg hroom, bind_ok (refuse_of_not hroom _ r)]
    rfl

theorem decodeCand_packed (inet : Inet) {max : Nat} (k : Nat) {out : Bytes}
    (hout : out.length ≤ max) (c : Cand) (r : Bytes) :
    decodeCand inet max k out (c.packed ++ r) =
      let text := candText inet k c.type c.fam c.prio.toNat c.port.toNat c.addr
      if max ≤ (out ++ text).length then .error (.answer .malformed) else .ok (out ++ text, r) := by
  have hprio : beGet (bePut 4 c.prio.toNat) = c.prio.toNat := beGet_bePut_of_lt c.prio.toNat_lt
  have hport : beGet (bePut 2 c.port.toNat) = c.port.toNat := beGet_bePut_of_lt c.port.toNat_lt
  have height : 8 ≤ (c.packed ++ r).length := by
    rw [List.length_append, c.length_packed]
    omega
  rw [decodeCand, bind_ok (need_of_le height _), Cand.packed]
  simp only [List.cons_append, List.append_assoc]
  rw [bind_ok (next_cons _ _), bind_ok (next_cons _ _), bind_ok (take_append (length_bePut 4 _) _),
    bind_ok (take_append (length_bePut 2 _) _), Family.ofCode_code,
    bind_ok (need_of_le (by rw [List.length_append, c.addr_length]; omega) _),
    bind_ok (take_append c.addr_length r), CandType.ofCode_code, hprio, hport]
  exact appendText_eq hout _ r

/-- The loop reads the candidates that were written, and stops where the text has no room. -/
theorem decodeCands_packed (inet : Inet) {max : Nat} (cs : List Cand) (k : Nat) {out : Bytes}
    (hout : out.length < max) :
    decodeCands inet max cs.length k out (cs.flatMap Cand.packed) =
      if max ≤ (out ++ candTexts inet k cs).length then .error (.answer .malformed)
      else .ok (out ++ candTexts inet k cs, []) := by
  induction cs generalizing k out with
  | nil =>
      rw [candTexts, List.append_nil, if_neg (by omega)]
      rfl
  | cons c cs ih =>
      have hone := decodeCand_packed inet k hout.le c (cs.flatMap Cand.packed)
      dsimp only at hone
      rw [candTexts, ← List.append_assoc, List.length_cons, decodeCands, List.flatMap_cons]
      by_cases hroom : max ≤
          (out ++ candText inet k c.type c.fam c.prio.toNat c.port.toNat c.addr).length
      · rw [if_pos hroom] at hone
        rw [bind_error hone, if_pos]
        rw [List.length_append]
        omega
      · rw [if_neg hroom] at hone
        rw [bind_ok hone]
        exact ih (k + 1) (by omega)

theorem decodeBody_packed (inet : Inet) (max : Nat) (st : Stamp) {ufrag pwd : Bytes}
    {cs : List Cand} (hufrag : ufrag.length ≤ 255) (hpwd : pwd.length ≤ 255)
    (hufrag0 : (0 : UInt8) ∉ ufrag) (hpwd0 : (0 : UInt8) ∉ pwd) (hcs : cs.length ≤ 255) :
    decodeBody inet max st (packCred ufrag ++ (packCred pwd
        ++ UInt8.ofNat cs.length :: cs.flatMap Cand.packed)) =
      if max ≤ (packText inet ufrag pwd cs).length then .error (.answer .malformed)
      else .ok ({ gen := st.gen, offer := st.offer, cid := st.cid,
                  out := packText inet ufrag pwd cs }, []) := by
  have hcount : (UInt8.ofNat cs.length).toNat = cs.length :=
    UInt8.toNat_ofNat_of_lt' (by simpa using Nat.lt_succ_of_le hcs)
  have hempty : ([] : Bytes).length ≤ max := Nat.zero_le max
  have hcreds := appendText_eq hempty (credText ufrag pwd) (cs.flatMap Cand.packed)
  rw [decodeBody, bind_ok (decodeCred_packed hufrag (by simp [packCred])),
    bind_ok (decodeCred_packed hpwd (Nat.zero_le _)), bind_ok (need_of_le (by simp) _),
    bind_ok (next_cons _ _), cString_of_not_mem hufrag0, cString_of_not_mem hpwd0, hcount]
  rw [List.nil_append] at hcreds
  by_cases hroom : max ≤ (credText ufrag pwd).length
  · rw [if_pos hroom] at hcreds
    rw [bind_error hcreds, if_pos]
    rw [packText, List.length_append]
    omega
  · rw [if_neg hroom] at hcreds
    rw [bind_ok hcreds]
    have hcands := decodeCands_packed inet cs 0 (Nat.lt_of_not_le hroom)
    unfold packText
    by_cases hall : max ≤ (credText ufrag pwd ++ candTexts inet 0 cs).length
    · rw [if_pos hall] at hcands ⊢
      exact bind_error hcands
    · rw [if_neg hall] at hcands ⊢
      rw [bind_ok hcands]
      rfl

/-! ## What the decoder gives on other bytes -/

/-- Candidates are written behind what the text holds already. -/
theorem decodeCands_gives (inet : Inet) (max n k : Nat) (out : Bytes) :
    Gives (decodeCands inet max n k out) fun out' => out <+: out' := by
  induction n generalizing k out with
  | zero => exact Gives.pure (List.prefix_refl out)
  | succ n ih =>
      intro r out' r' h
      obtain ⟨out₁, r₁, hone, hrest⟩ := bind_eq_ok h
      have hfront : Gives (decodeCand inet max k out) fun out' => out <+: out' := by
        refine Gives.bind fun _ => Gives.bind fun _ => Gives.bind fun _ => Gives.bind fun _ =>
          Gives.bind fun _ => Gives.bind fun _ => Gives.bind fun _ => ?_
        split
        · exact Gives.stop
        · exact Gives.bind fun _ => Gives.bind fun _ => Gives.pure (List.prefix_append _ _)
      exact (hfront r out₁ r₁ hone).trans (ih (k + 1) out₁ r₁ out' r' hrest)

/-- The text of whatever the decoder reads starts with the credentials that it reads. -/
theorem decodeBody_inv {inet : Inet} {max : Nat} {st : Stamp} {r r' : Bytes} {d : Decoded}
    (h : decodeBody inet max st r = .ok (d, r')) :
    ∃ ufrag pwd r₁ r₂, decodeCred 1 r = .ok (ufrag, r₁) ∧ decodeCred 0 r₁ = .ok (pwd, r₂) ∧
      credText (cString ufrag) (cString pwd) <+: d.out := by
  obtain ⟨ufrag, r₁, hufrag, h⟩ := bind_eq_ok h
  obtain ⟨pwd, r₂, hpwd, h⟩ := bind_eq_ok h
  obtain ⟨_, r₃, -, h⟩ := bind_eq_ok h
  obtain ⟨ncand, r₄, -, h⟩ := bind_eq_ok h
  obtain ⟨creds, r₅, hcreds, h⟩ := bind_eq_ok h
  obtain ⟨out, r₆, hcands, h⟩ := bind_eq_ok h
  have hout : out = d.out := congrArg Decoded.out (Prod.mk.inj (Except.ok.inj h)).1
  rw [appendText_eq (Nat.zero_le max)] at hcreds
  split_ifs at hcreds
  have htext : credText (cString ufrag) (cString pwd) = creds :=
    (Prod.mk.inj (Except.ok.inj hcreds)).1
  refine ⟨ufrag, pwd, r₁, r₂, hufrag, hpwd, ?_⟩
  rw [htext, ← hout]
  exact decodeCands_gives inet max _ 0 creds r₅ out r₆ hcands

/-! ## The round trip -/

/-- What is asked of a packing: given room, the decoder gives back what was packed, and it
rejects what is left of the packing where the end is cut off. -/
structure Unpacks (inet : Inet) (gen : UInt32) (offer : Bytes) (cid : Vector UInt8 8)
    (ufrag pwd : Bytes) (cands : List Cand) (enc : Bytes) : Prop where
  whole : ∀ offerMax max, offerMax = 0 ∨ offer.length < offerMax →
    (packText inet ufrag pwd cands).length < max →
      candpackDecode inet enc offerMax max =
        .ok { gen, offer := if offerMax = 0 then [] else offer, cid,
              out := packText inet ufrag pwd cands }
  truncated : ∀ pre, pre <+: enc → pre ≠ enc → ∀ offerMax max d,
    candpackDecode inet pre offerMax max ≠ .ok d

theorem unpacks_packed (inet : Inet) (gen : UInt32) {offer ufrag pwd : Bytes}
    (cid : Option (Vector UInt8 8)) {cands : List Cand} (hoffer : offer.length ≤ 255)
    (hufrag : ufrag.length ≤ 255) (hpwd : pwd.length ≤ 255) (hufrag0 : (0 : UInt8) ∉ ufrag)
    (hpwd0 : (0 : UInt8) ∉ pwd) (hcands : cands.length ≤ 255) :
    Unpacks inet gen offer (cid.getD (Vector.replicate 8 0)) ufrag pwd cands
      (packStamp gen offer cid ++ (packCred ufrag ++ (packCred pwd
        ++ UInt8.ofNat cands.length :: cands.flatMap Cand.packed))) := by
  have hstamp := fun offerMax => decodeStamp_packed (r := packCred ufrag ++ (packCred pwd
    ++ UInt8.ofNat cands.length :: cands.flatMap Cand.packed)) offerMax gen cid hoffer
    (by simp [packCred])
  have hbody := fun max st => decodeBody_packed inet max st hufrag hpwd hufrag0 hpwd0 hcands
  refine ⟨?_, ?_⟩
  · intro offerMax max hfits hroom
    have hst := hstamp offerMax
    rw [if_neg (by omega)] at hst
    rw [candpackDecode, candpackDecoder, bind_ok hst, hbody, if_neg (Nat.not_le_of_lt hroom)]
    rfl
  · intro pre hpre hne offerMax max d hd
    have hall : ∀ e r, candpackDecoder inet offerMax max (packStamp gen offer cid
        ++ (packCred ufrag ++ (packCred pwd
          ++ UInt8.ofNat cands.length :: cands.flatMap Cand.packed))) = .ok (e, r) → r = [] := by
      intro e r h
      obtain ⟨st, r₁, hst, hb⟩ := bind_eq_ok h
      rw [hstamp offerMax] at hst
      by_cases hfits : offerMax ≠ 0 ∧ offerMax ≤ offer.length
      · rw [if_pos hfits] at hst
        cases hst
      · rw [if_neg hfits] at hst
        obtain ⟨-, rfl⟩ := Prod.mk.inj (Except.ok.inj hst)
        rw [hbody max st] at hb
        split_ifs at hb
        exact (Prod.mk.inj (Except.ok.inj hb)).2.symm
    obtain ⟨r, hrun⟩ := candpackDecode_eq_ok hd
    exact (candpackDecoder_extends inet offerMax max).not_ok_of_cut hpre hne hall d r hrun

/-- Where it unpacks, what the encoder cut to 256 bytes were the credentials, and they have a
length byte. -/
theorem lengths_of_unpacks {inet : Inet} {gen : UInt32} {offer ufrag pwd r : Bytes}
    {cid : Option (Vector UInt8 8)} {cands : List Cand} (hoffer : offer.length ≤ 255)
    (hufrag : ufrag ≠ []) (hpwd : pwd ≠ []) (hufragLine : ch '\n' ∉ ufrag)
    (hpwdLine : ch '\n' ∉ pwd) (hufrag0 : (0 : UInt8) ∉ ufrag) 
    (h : Unpacks inet gen offer (cid.getD (Vector.replicate 8 0)) ufrag pwd cands
      (packStamp gen offer cid ++ (packCred (ufrag.take 256)
        ++ (packCred (pwd.take 256) ++ r)))) : ufrag.length ≤ 255 ∧ pwd.length ≤ 255 := by
  have hst := decodeStamp_packed (r := packCred (ufrag.take 256) ++ (packCred (pwd.take 256) ++ r))
    0 gen cid hoffer (by simp [packCred])
  obtain ⟨rest, hrun⟩ := candpackDecode_eq_ok (h.whole 0 _ (.inl rfl) (Nat.lt_succ_self _))
  rw [if_neg (by simp)] at hst
  rw [candpackDecoder, bind_ok hst] at hrun
  obtain ⟨u, p, r₁, r₂, hu, hp, t, htext⟩ := decodeBody_inv hrun
  dsimp only [packText] at htext
  by_cases hulen : ufrag.length ≤ 255
  · rw [List.take_of_length_le (by omega), decodeCred_packed hulen (by simp [packCred])] at hu
    obtain ⟨rfl, rfl⟩ := Prod.mk.inj (Except.ok.inj hu)
    refine ⟨hulen, ?_⟩
    by_contra hplen
    have hcut : (pwd.take 256).length = 256 := List.length_take_of_le (by omega)
    rw [decodeCred_wrapped hcut (Nat.zero_le _)] at hp
    obtain ⟨rfl, rfl⟩ := Prod.mk.inj (Except.ok.inj hp)
    rw [cString_of_not_mem hufrag0] at htext
    exact hpwd (pwd_of_text (by simp [cString]) hpwdLine htext).symm
  · have hcut : (ufrag.take 256).length = 256 := List.length_take_of_le (by omega)
    rw [decodeCred_wrapped hcut (by simp [packCred])] at hu
    obtain ⟨rfl, rfl⟩ := Prod.mk.inj (Except.ok.inj hu)
    exact absurd (ufrag_of_text (by simp [cString]) hufragLine htext).symm hufrag

/-- A packing of a description gives back what went into it, and no part of it is taken for
it, just where either credential that the description names has a length byte; and the decoder
stays within its buffers, whatever it is given. -/
theorem candpack_codec (inet : Inet) :
    (∀ sdp forDht gen offerUfrag cid max enc,
      candpackEncode inet sdp forDht gen offerUfrag cid max = some enc → enc ≠ [] →
        (Unpacks inet gen (cString (offerUfrag.getD [])) (cid.getD (Vector.replicate 8 0))
            (credNamed ufragKey sdp) (credNamed pwdKey sdp) (keptCands inet forDht sdp) enc ↔
          (credNamed ufragKey sdp).length ≤ 255 ∧ (credNamed pwdKey sdp).length ≤ 255)) ∧
    ∀ input offerMax max, candpackDecode inet input offerMax max ≠ .error .fault := by
  constructor
  · intro sdp forDht gen offerUfrag cid max enc henc hne
    obtain ⟨hoffer, hufrag, hpwd, rfl⟩ := candpackEncode_eq henc hne
    have hufrag0 := zero_not_mem_credNamed ufragKey sdp
    have hpwd0 := zero_not_mem_credNamed pwdKey sdp
    constructor
    · exact lengths_of_unpacks hoffer hufrag hpwd (newline_not_mem_credNamed ufragKey sdp)
        (newline_not_mem_credNamed pwdKey sdp) hufrag0
    · rintro ⟨hulen, hplen⟩
      have hkept : (keptCands inet forDht sdp).length ≤ 255 := List.length_take_le _ _
      rw [List.take_of_length_le (i := 256) (by omega),
        List.take_of_length_le (i := 256) (l := credNamed pwdKey sdp) (by omega)]
      exact unpacks_packed inet gen cid hoffer hulen hplen hufrag0 hpwd0 hkept
  · exact fun input offerMax max => candpackDecode_safe inet input offerMax max

/-- Addresses of which only v4 ones are written, and none is read. -/
def inetDotted : Inet where
  pton := fun _ _ => none
  ntop := fun _ addr => List.intercalate (ascii ".".toList) (addr.map fun b => decimal b.toNat)
  pton_length := fun _ _ _ h => by cases h

set_option maxRecDepth 4000

/-- A description with a user fragment of 256 bytes is packed into 288, and the decoder refuses
the packing as malformed. -/
theorem candpack_wrapped :
    (candpackEncode inetDotted
        (ufragKey ++ List.replicate 256 (ch 'u') ++ ascii "\n".toList
          ++ pwdKey ++ List.replicate 22 (ch 'p') ++ ascii "\n".toList)
        false 7 none none 1000).map
      (fun enc => (enc.length, candpackDecode inetDotted enc 0 4096)) =
      some (288, .error (.answer .malformed)) := by
  decide

end Candpack
end Comrade
