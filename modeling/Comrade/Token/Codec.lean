import Comrade.Token.Base58

/-!
# The token as a string

`token.c`: the fields of a token packed into `TOKEN_RAW_LEN` bytes with a checksum behind
them, written in base 58 and padded with the digit of zero to `TOKEN_STR_LEN` characters.

`tokenCodec` says that the strings `token_decode` accepts are the strings `token_encode`
writes of tokens of the current version.
-/

namespace Comrade
namespace Token

open Lib

/-- `TOKEN_VERSION`. -/
def tokenVersion : UInt8 := 7

/-- `TOKEN_RAW_LEN`. -/
def tokenRawLen : Nat := 2 + 16 + 16 + 32 + (16 + 2) + (4 + 2)

/-- `TOKEN_WIRE_LEN`. -/
def tokenWireLen : Nat := tokenRawLen + 4

/-- `TOKEN_STR_LEN`. -/
def tokenStrLen : Nat := tokenWireLen * 138 / 100 + 1

/-- `struct token`. -/
@[ext] structure Token where
  version : UInt8
  flags : UInt8
  rdv : Vector UInt8 16
  auth : Vector UInt8 16
  hostpub : Vector UInt8 32
  ep6Addr : Vector UInt8 16
  ep6Port : UInt16
  ep4Addr : Vector UInt8 4
  ep4Port : UInt16
  deriving DecidableEq

/-- What `token_decode` returns other than 0. -/
inductive TokenErr where
  | malformed
  | version
  deriving DecidableEq, Repr

/-! ## The fields -/

/-- `put16`. -/
def put16 (v : UInt16) : Bytes := [(v >>> 8).toUInt8, v.toUInt8]

/-- `get16`. -/
def get16 (p : Bytes) : UInt16 := (p.getD 0 0).toUInt16 <<< 8 ||| (p.getD 1 0).toUInt16

/-- `n` bytes copied from `p`. -/
def vecOf (n : Nat) (p : Bytes) : Vector UInt8 n := Vector.ofFn fun i => p.getD i 0

/-- One turn of the inner loop of `crc32`. -/
def crcBit (c : UInt32) : UInt32 := (c >>> 1) ^^^ (0xedb88320 &&& (0 - (c &&& 1)))

/-- `crc32`. -/
def crc32 (data : Bytes) : UInt32 :=
  ~~~data.foldl (fun c b => (List.range 8).foldl (fun c _ => crcBit c) (c ^^^ b.toUInt32))
    0xffffffff

/-- `payload_pack`. -/
def payloadPack (tok : Token) : Bytes :=
  tok.version :: tok.flags :: (tok.rdv.toList ++ (tok.auth.toList ++ (tok.hostpub.toList ++
    (tok.ep6Addr.toList ++ (put16 tok.ep6Port ++ (tok.ep4Addr.toList ++ put16 tok.ep4Port))))))

/-- `payload_unpack`. -/
def payloadUnpack (raw : Bytes) : Token :=
  let rdv := raw.drop 2
  let auth := rdv.drop 16
  let hostpub := auth.drop 16
  let ep6 := hostpub.drop 32
  let port6 := ep6.drop 16
  let ep4 := port6.drop 2
  let port4 := ep4.drop 4
  { version := raw.getD 0 0
    flags := raw.getD 1 0
    rdv := vecOf 16 rdv
    auth := vecOf 16 auth
    hostpub := vecOf 32 hostpub
    ep6Addr := vecOf 16 ep6
    ep6Port := get16 port6
    ep4Addr := vecOf 4 ep4
    ep4Port := get16 port4 }

/-- The wire form of a payload: the payload with its checksum. -/
def withSum (raw : Bytes) : Bytes :=
  raw ++ (put16 (crc32 raw >>> 16).toUInt16 ++ put16 (crc32 raw).toUInt16)

/-- `token_encode` into a buffer of `destLen` bytes: the string it writes. -/
def tokenEncode (tok : Token) (destLen : Nat) : Option Bytes :=
  let tmp := base58Encode (withSum (payloadPack tok)) (tokenStrLen + 1)
  if tmp.length = 0 ∨ tokenStrLen < tmp.length ∨ destLen < tokenStrLen + 1 then none
  else some (List.replicate (tokenStrLen - tmp.length) (ch '1') ++ tmp)

/-- `token_decode`, of a string without its terminator. -/
def tokenDecode (src : Bytes) : Except TokenErr Token :=
  if src.length ≠ tokenStrLen then .error .malformed
  else
    match base58Decode src tokenWireLen with
    | none => .error .malformed
    | some wire =>
        let sum := crc32 (wire.take tokenRawLen)
        let want := (get16 (wire.drop tokenRawLen)).toUInt32 <<< 16 |||
          (get16 (wire.drop (tokenRawLen + 2))).toUInt32
        if sum ≠ want then .error .malformed
        else if wire.getD 0 0 ≠ tokenVersion then .error .version
        else .ok (payloadUnpack wire)

/-! ## What a token says of a family -/

/-- The `TOKEN_STATE_` values. -/
inductive TokenState where
  | pending
  | none
  | rendezvous
  | direct
  deriving DecidableEq, Repr

/-- `TOKEN_FLAG_EP6_RDV` and the flags behind it. -/
def tokenFlagEp6Rdv : UInt8 := 0x04
def tokenFlagEp4Rdv : UInt8 := 0x08
def tokenFlagEp6Settled : UInt8 := 0x10
def tokenFlagEp4Settled : UInt8 := 0x20

/-- `token_family_state`, from the slot of a family and its two flags. -/
def slotState (flags : UInt8) (addr : Bytes) (rdv set : UInt8) : TokenState :=
  if addr.any (· != 0) then if flags &&& rdv ≠ 0 then .rendezvous else .direct
  else if flags &&& set ≠ 0 then .none else .pending

/-- `token_family_state` for the family 6. -/
def Token.state6 (tok : Token) : TokenState :=
  slotState tok.flags tok.ep6Addr.toList tokenFlagEp6Rdv tokenFlagEp6Settled

/-- `token_family_state` for the family 4. -/
def Token.state4 (tok : Token) : TokenState :=
  slotState tok.flags tok.ep4Addr.toList tokenFlagEp4Rdv tokenFlagEp4Settled

-- the check value of this CRC
set_option maxRecDepth 4000 in
example : crc32 (ascii ['1', '2', '3', '4', '5', '6', '7', '8', '9']) = 0xcbf43926 := by
  decide

/-! ## Fields written and read -/

theorem get16_put16 (v : UInt16) (rest : Bytes) : get16 (put16 v ++ rest) = v := by
  apply UInt16.eq_of_toBitVec_eq
  simp only [get16, put16, List.cons_append, List.getD_cons_zero, List.getD_cons_succ]
  ext i hi
  simp [← BitVec.getLsbD_eq_getElem, -UInt16.toUInt16_toUInt8]
  grind

theorem put16_get16 {p : Bytes} (h : 2 ≤ p.length) : put16 (get16 p) ++ p.drop 2 = p := by
  match p, h with
  | a :: b :: rest, _ =>
      have ha : ((a.toUInt16 <<< 8 ||| b.toUInt16) >>> 8).toUInt8 = a := by
        apply UInt8.eq_of_toBitVec_eq
        ext i hi
        interval_cases i <;> simp
      have hb : (a.toUInt16 <<< 8 ||| b.toUInt16).toUInt8 = b := by
        apply UInt8.eq_of_toBitVec_eq
        ext i hi
        interval_cases i <;> simp
      simp only [put16, get16, List.getD_cons_zero, List.getD_cons_succ, ha, hb]
      rfl

/-- A word is its two halves. -/
theorem halves_eq (v : UInt32) :
    (v >>> 16).toUInt16.toUInt32 <<< 16 ||| v.toUInt16.toUInt32 = v := by
  apply UInt32.eq_of_toBitVec_eq
  ext i hi
  simp [← BitVec.getLsbD_eq_getElem, -UInt32.toUInt32_toUInt16]
  grind

theorem high_half (hi lo : UInt16) :
    ((hi.toUInt32 <<< 16 ||| lo.toUInt32) >>> 16).toUInt16 = hi := by
  apply UInt16.eq_of_toBitVec_eq
  ext i hi
  interval_cases i <;> simp

theorem low_half (hi lo : UInt16) : (hi.toUInt32 <<< 16 ||| lo.toUInt32).toUInt16 = lo := by
  apply UInt16.eq_of_toBitVec_eq
  ext i hi
  interval_cases i <;> simp

@[simp] theorem length_put16 (v : UInt16) : (put16 v).length = 2 := rfl

theorem vecOf_append {n : Nat} (v : Vector UInt8 n) (rest : Bytes) :
    vecOf n (v.toList ++ rest) = v := by
  apply Vector.ext
  intro i hi
  have hlen : i < (v.toList ++ rest).length := by
    rw [List.length_append, Vector.length_toList]
    omega
  rw [vecOf, Vector.getElem_ofFn, List.getD_eq_getElem _ _ hlen,
    List.getElem_append_left (by simpa using hi), Vector.getElem_toList]

theorem drop_field {n : Nat} (v : Vector UInt8 n) (rest : Bytes) :
    (v.toList ++ rest).drop n = rest :=
  List.drop_left' (by simp)

theorem vecOf_read {n : Nat} {p : Bytes} (h : n ≤ p.length) :
    (vecOf n p).toList ++ p.drop n = p := by
  have hfield : (vecOf n p).toList = p.take n := by
    apply List.ext_getElem
    · simp [h]
    · intro i hi hi'
      simp only [List.length_take] at hi'
      simp [vecOf, show i < p.length by omega]
  rw [hfield, List.take_append_drop]

/-! ## The payload -/

@[simp] theorem length_payloadPack (tok : Token) : (payloadPack tok).length = tokenRawLen := by
  simp [payloadPack, tokenRawLen]

/-- What is packed is unpacked, whatever stands behind it. -/
theorem payloadUnpack_pack (tok : Token) (rest : Bytes) :
    payloadUnpack (payloadPack tok ++ rest) = tok := by
  unfold payloadUnpack payloadPack
  simp only [List.cons_append, List.append_assoc, List.drop_succ_cons, List.drop_zero, drop_field,
    vecOf_append, get16_put16, List.getD_cons_zero, List.getD_cons_succ]
  have hport : ∀ (v : UInt16) (rest : Bytes), (put16 v ++ rest).drop 2 = rest := fun _ _ => rfl
  simp only [hport, drop_field, vecOf_append, get16_put16]

/-- What is unpacked is packed again. -/
theorem payloadPack_unpack {raw : Bytes} (h : tokenRawLen ≤ raw.length) :
    payloadPack (payloadUnpack raw) ++ raw.drop tokenRawLen = raw := by
  match raw, h with
  | version :: flags :: rdv, h =>
      have hlen : 88 ≤ rdv.length := by
        simp only [List.length_cons, tokenRawLen] at h
        omega
      -- what follows each field is where the next one is read
      have hport4 := put16_get16
        (p := ((((((rdv.drop 16).drop 16).drop 32).drop 16).drop 2).drop 4))
        (by simp only [List.length_drop]; omega)
      have hep4 := vecOf_read (n := 4) (p := (((((rdv.drop 16).drop 16).drop 32).drop 16).drop 2))
        (by simp only [List.length_drop]; omega)
      have hport6 := put16_get16 (p := ((((rdv.drop 16).drop 16).drop 32).drop 16))
        (by simp only [List.length_drop]; omega)
      have hep6 := vecOf_read (n := 16) (p := (((rdv.drop 16).drop 16).drop 32))
        (by simp only [List.length_drop]; omega)
      have hhostpub := vecOf_read (n := 32) (p := (rdv.drop 16).drop 16)
        (by simp only [List.length_drop]; omega)
      have hauth := vecOf_read (n := 16) (p := rdv.drop 16)
        (by simp only [List.length_drop]; omega)
      have hrdv := vecOf_read (n := 16) (p := rdv) (by omega)
      have hrest : (version :: flags :: rdv).drop tokenRawLen =
          ((((((rdv.drop 16).drop 16).drop 32).drop 16).drop 2).drop 4).drop 2 := by
        simp only [List.drop_drop]
        rfl
      rw [hrest]
      unfold payloadPack payloadUnpack
      simp only [List.drop_succ_cons, List.drop_zero, List.getD_cons_zero, List.getD_cons_succ,
        List.cons_append, List.append_assoc]
      rw [hport4, hep4, hport6, hep6, hhostpub, hauth, hrdv]

/-! ## The string -/

/-- The checksum that `token_decode` reads of a wire form. -/
def wireSum (wire : Bytes) : UInt32 :=
  (get16 (wire.drop tokenRawLen)).toUInt32 <<< 16 ||| (get16 (wire.drop (tokenRawLen + 2))).toUInt32

theorem length_withSum {raw : Bytes} (h : raw.length = tokenRawLen) :
    (withSum raw).length = tokenWireLen := by
  rw [withSum, List.length_append, h]
  rfl

theorem wireSum_withSum {raw : Bytes} (h : raw.length = tokenRawLen) :
    wireSum (withSum raw) = crc32 raw := by
  have hhigh : (withSum raw).drop tokenRawLen =
      put16 (crc32 raw >>> 16).toUInt16 ++ put16 (crc32 raw).toUInt16 := List.drop_left' h
  have hlow : (withSum raw).drop (tokenRawLen + 2) = put16 (crc32 raw).toUInt16 ++ [] := by
    rw [← List.drop_drop, hhigh]
    rfl
  rw [wireSum, hhigh, hlow, get16_put16, get16_put16, halves_eq]

/-- A wire form whose checksum is right is the one of its payload. -/
theorem withSum_take {wire : Bytes} (hlen : wire.length = tokenWireLen)
    (hsum : crc32 (wire.take tokenRawLen) = wireSum wire) :
    withSum (wire.take tokenRawLen) = wire := by
  have hhigh := put16_get16 (p := wire.drop tokenRawLen)
    (by rw [List.length_drop, hlen]; decide)
  have hlow := put16_get16 (p := wire.drop (tokenRawLen + 2))
    (by rw [List.length_drop, hlen]; decide)
  have hend : (wire.drop (tokenRawLen + 2)).drop 2 = [] := by
    rw [List.drop_drop, List.drop_eq_nil_iff, hlen]
    rfl
  rw [List.drop_drop] at hhigh
  rw [hend, List.append_nil] at hlow
  rw [withSum, hsum, wireSum, high_half, low_half, hlow, hhigh, List.take_append_drop]

/-- The string of a wire form that does not begin with a zero: its number in digits of a
fixed width. -/
theorem base58Encode_wire {wire : Bytes} (hlen : wire.length = tokenWireLen)
    (hhead : wire.getD 0 0 ≠ 0) :
    ∃ ds, Digits 58 ds ∧ radixValue 58 ds = radixValue 256 (byteDigits wire) ∧
      0 < ds.length ∧ ds.length ≤ tokenStrLen ∧
      base58Encode wire (tokenStrLen + 1) = ds.map b58Char := by
  match wire, hlen with
  | first :: rest, hlen =>
      have hfirst : first ≠ 0 := hhead
      have hzeros : (first :: rest).takeWhile (· == 0) = [] :=
        List.takeWhile_cons_of_neg (by simpa using hfirst)
      obtain ⟨hencode, hdigits, hvalue⟩ := base58Encode_eq
        (show (first :: rest).length ≤ base58MaxIn by rw [hlen]; decide) (tokenStrLen + 1)
      have hlt := radixValue_lt (by decide) (digits_byteDigits (first :: rest))
      rw [length_byteDigits, hlen] at hlt
      have hpos : 0 < radixValue 256 (byteDigits (first :: rest)) := by
        have hne : first.toNat ≠ 0 := fun h => hfirst (UInt8.toNat_inj.mp h)
        have hlead : 0 < first.toNat * 256 ^ (byteDigits rest).length := by positivity
        rw [byteDigits, List.map_cons, ← byteDigits, radixValue_cons]
        omega
      have hshort : (encodeDigits (first :: rest)).length ≤ tokenStrLen := by
        have hbuf := digits_convert (show 0 < 58 by decide) 256 b58Buf
          (byteDigits (first :: rest))
        have hsig : encodeDigits (first :: rest) =
            significant (convert 256 58 b58Buf (byteDigits (first :: rest))) := by
          rw [encodeDigits, hzeros]
          rfl
        rw [hsig, radixValue_significant] at hvalue
        rw [hsig, length_significant_le_iff (by decide) hbuf, hvalue]
        exact hlt.trans (by decide)
      have hsome : 0 < (encodeDigits (first :: rest)).length := by
        apply List.length_pos_of_ne_nil
        intro hnil
        rw [hnil, radixValue_nil] at hvalue
        omega
      refine ⟨_, hdigits, hvalue, hsome, hshort, ?_⟩
      rw [hencode, if_neg (by omega)]

/-- What `token_encode` writes of a token that has a version. -/
theorem tokenEncode_eq {tok : Token} {destLen : Nat} (hversion : tok.version ≠ 0)
    (hdest : tokenStrLen + 1 ≤ destLen) :
    ∃ ds, Digits 58 ds ∧ ds.length = tokenStrLen ∧
      radixValue 58 ds = radixValue 256 (byteDigits (withSum (payloadPack tok))) ∧
      tokenEncode tok destLen = some (ds.map b58Char) := by
  obtain ⟨ds, hdigits, hvalue, hpos, hshort, hencode⟩ := base58Encode_wire
    (length_withSum (length_payloadPack tok)) (show (withSum (payloadPack tok)).getD 0 0 ≠ 0 from
      hversion)
  refine ⟨List.replicate (tokenStrLen - ds.length) 0 ++ ds,
    (digits_zeros (by decide) _).append hdigits, ?_, ?_, ?_⟩
  · rw [List.length_append, List.length_replicate]
    omega
  · rw [radixValue_replicate_zero, hvalue]
  · have hone : b58Char 0 = ch '1' := by decide
    unfold tokenEncode
    simp only [hencode, List.length_map]
    rw [if_neg (by omega), List.map_append, List.map_replicate, hone]

theorem tokenDecode_eq_ok_iff {src : Bytes} {tok : Token} :
    tokenDecode src = .ok tok ↔ src.length = tokenStrLen ∧ ∃ wire,
      base58Decode src tokenWireLen = some wire ∧
      crc32 (wire.take tokenRawLen) = wireSum wire ∧ wire.getD 0 0 = tokenVersion ∧
      payloadUnpack wire = tok := by
  unfold tokenDecode
  split_ifs with hlen
  · simp [hlen]
  · rw [not_not] at hlen
    cases hdecode : base58Decode src tokenWireLen with
    | none => simp
    | some wire =>
        dsimp only
        rw [← wireSum]
        split_ifs with hsum hversion
        · simp [hsum]
        · rw [List.getD_eq_getElem?_getD] at hversion
          simp [hversion]
        · rw [not_not] at hsum hversion
          rw [List.getD_eq_getElem?_getD] at hversion
          simp [hlen, hsum, hversion]

/-- The tokens of the current version and the strings that are accepted are each other's
images: a token is written in `TOKEN_STR_LEN` characters and read back, an accepted string is
what is written of the token it is read as, and so no two strings are read as one token. -/
theorem tokenCodec :
    (∀ (tok : Token) (destLen : Nat), tok.version = tokenVersion → tokenStrLen + 1 ≤ destLen →
      ∃ s, tokenEncode tok destLen = some s ∧ s.length = tokenStrLen ∧
        tokenDecode s = .ok tok) ∧
    (∀ (s : Bytes) (tok : Token), tokenDecode s = .ok tok →
      tok.version = tokenVersion ∧ tokenEncode tok (tokenStrLen + 1) = some s) ∧
    ∀ (s s' : Bytes) (tok : Token), tokenDecode s = .ok tok → tokenDecode s' = .ok tok →
      s = s' := by
  have hread : ∀ (s : Bytes) (tok : Token), tokenDecode s = .ok tok →
      tok.version = tokenVersion ∧ tokenEncode tok (tokenStrLen + 1) = some s := by
    intro s tok hok
    obtain ⟨hlen, wire, hdecode, hsum, hversion, rfl⟩ := tokenDecode_eq_ok_iff.1 hok
    have hmax : s.length ≤ base58MaxStr := by
      rw [hlen]
      decide
    obtain ⟨hwire, ds, hds, hmap, hvalue⟩ := (base58Decode_eq_some_iff hmax).mp hdecode
    have htok : (payloadUnpack wire).version = tokenVersion := hversion
    refine ⟨htok, ?_⟩
    -- the payload of the token is that of the wire form, and so is the checksum
    have hpayload : payloadPack (payloadUnpack wire) = wire.take tokenRawLen := by
      have hraw := payloadPack_unpack (show tokenRawLen ≤ wire.length by rw [hwire]; decide)
      calc payloadPack (payloadUnpack wire)
          = (payloadPack (payloadUnpack wire) ++ wire.drop tokenRawLen).take tokenRawLen :=
            (List.take_left' (length_payloadPack _)).symm
        _ = wire.take tokenRawLen := by rw [hraw]
    obtain ⟨ds', hds', hlen', hvalue', hencode⟩ := tokenEncode_eq
      (show (payloadUnpack wire).version ≠ 0 by rw [htok]; decide) le_rfl
    rw [hpayload, withSum_take hwire hsum, hvalue] at hvalue'
    have hdslen : ds.length = tokenStrLen := by rw [← hlen, ← hmap, List.length_map]
    rw [hencode, radixValue_inj (by decide) (hlen'.trans hdslen.symm) hds' hds hvalue', hmap]
  refine ⟨?_, hread, ?_⟩
  · intro tok destLen hversion hdest
    obtain ⟨ds, hds, hlen, hvalue, hencode⟩ := tokenEncode_eq
      (show tok.version ≠ 0 by rw [hversion]; decide) hdest
    refine ⟨_, hencode, by rw [List.length_map, hlen], ?_⟩
    have hwire := length_withSum (length_payloadPack tok)
    have hpayload : (withSum (payloadPack tok)).take tokenRawLen = payloadPack tok :=
      List.take_left' (length_payloadPack tok)
    rw [tokenDecode_eq_ok_iff, List.length_map, hlen]
    refine ⟨rfl, withSum (payloadPack tok), ?_, ?_, hversion, payloadUnpack_pack tok _⟩
    · rw [base58Decode_eq_some_iff (by rw [List.length_map, hlen]; decide)]
      exact ⟨hwire, ds, hds, rfl, hvalue.symm⟩
    · rw [hpayload, wireSum_withSum (length_payloadPack tok)]
  · intro s s' tok hs hs'
    exact Option.some.inj ((hread s tok hs).2.symm.trans (hread s' tok hs').2)

end Token
end Comrade
