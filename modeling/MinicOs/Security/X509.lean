import MinicOs.Security.Bignum

/-!
# The DER reader

Model of `kernel/security/x509/x509.c`. Offsets and lengths are `int`s: integers that wrap around at 32 bits (`i32`). The
certificate is an array of bytes, and a read outside it is undefined. `return false` is `refused`.
-/

namespace MinicOs

/-- A sum of two `int`s. -/
def i32 (x : Int) : Int := Int.bmod x (2 ^ 32)

variable (data : Cells U8)

/-- `data[i]`. -/
def readAt (i : Int) : Exec U8 := if i < 0 then .undefined else data.read i.toNat

/-- `&data[i]`. -/
def pointerAt (i : Int) : Cells U8 := if i < 0 then [] else data.drop i.toNat

/-- What `asn1_read_tlv` reports. -/
structure Tlv where
  tag : U8
  len : Int
  valueOffset : Int
deriving DecidableEq

def asn1TagInteger : U8 := 0x02

def asn1TagBitString : U8 := 0x03

def asn1TagSequence : U8 := 0x30

def asn1TagContext0Constructed : U8 := 0xA0

/-- `while (i < num_len_bytes)`, with `n` bytes to come. -/
def asn1LengthBytes (data : Cells U8) (totalLen : Int) : Nat → Int → U32 → Exec (U32 × Int)
  | 0, pos, length => return (length, pos)
  | n + 1, pos, length =>
    if pos ≥ totalLen then .refused
    else do
      let b ← readAt data pos
      asn1LengthBytes data totalLen n (pos + 1) (length <<< 8 ||| b.setWidth 32)

/-- The length behind the tag, in the short or the long form, and where it ends. -/
def asn1Length (totalLen : Int) (firstLen : U8) (pos : Int) : Exec (U32 × Int) :=
  if firstLen &&& 0x80 = 0 then return (firstLen.setWidth 32, pos)
  else
    let numLenBytes := (firstLen &&& 0x7F).toNat
    if numLenBytes = 0 ∨ numLenBytes > 4 then .refused
    else asn1LengthBytes data totalLen numLenBytes pos 0

/-- The last test of `asn1_read_tlv`. -/
def asn1Check (totalLen : Int) (tag : U8) (length : U32) (pos : Int) : Exec Tlv :=
  if length.toInt < 0 ∨ i32 (pos + length.toInt) > totalLen then .refused else return ⟨tag, length.toInt, pos⟩

def asn1ReadTlv (offset totalLen : Int) : Exec Tlv :=
  if offset < 0 ∨ offset ≥ totalLen then .refused
  else do
    let tag ← readAt data offset
    if offset + 1 ≥ totalLen then .refused
    else do
      let firstLen ← readAt data (offset + 1)
      let (length, pos) ← asn1Length data totalLen firstLen (offset + 2)
      asn1Check totalLen tag length pos

/-- `asn1_read_tlv(..) || tag != expected`. -/
def asn1Expect (expected : U8) (data : Cells U8) (offset totalLen : Int) : Exec Tlv := do
  let t ← asn1ReadTlv data offset totalLen
  if t.tag ≠ expected then .refused else return t

/-- The magnitude of an INTEGER, without its sign byte: where it begins, and its length. -/
def stripSign (t : Tlv) : Exec (Int × Int) :=
  if t.len > 1 then do
    let b ← readAt data t.valueOffset
    if b = 0x00 then return (t.valueOffset + 1, t.len - 1) else return (t.valueOffset, t.len)
  else return (t.valueOffset, t.len)

def readIntegerBignum (offset totalLen : Int) (out : Limbs) : Exec Limbs := do
  let t ← asn1Expect asn1TagInteger data offset totalLen
  let (bytes, len) ← stripSign data t
  if len > ((bignumLimbs * 4 : Nat) : Int) then .refused
  else bignumFromBytesBe out (pointerAt data bytes) len.toNat

/-- The loop of `read_integer_u32`. -/
def readU32Loop (bytes : Cells U8) (len : Nat) : Exec U32 :=
  Exec.count len (fun i value => do
    let b ← bytes.read i
    return value <<< 8 ||| b.setWidth 32) 0

def readIntegerU32 (offset totalLen : Int) : Exec U32 := do
  let t ← asn1Expect asn1TagInteger data offset totalLen
  let (bytes, len) ← stripSign data t
  if len ≤ 0 ∨ len > 4 then .refused else readU32Loop (pointerAt data bytes) len.toNat

/-- The optional version is skipped. -/
def skipVersion (cursor tbsEnd : Int) : Exec Tlv := do
  let t ← asn1ReadTlv data cursor tbsEnd
  if t.tag = asn1TagContext0Constructed then asn1ReadTlv data (i32 (t.valueOffset + t.len)) tbsEnd else return t

/-- `while (i < fields_to_skip)`, with `n` fields to come. -/
def skipFields (data : Cells U8) (tbsEnd : Int) : Nat → Int → Exec Int
  | 0, cursor => return cursor
  | n + 1, cursor => do
    let t ← asn1ReadTlv data cursor tbsEnd
    skipFields data tbsEnd n (i32 (t.valueOffset + t.len))

/-- The RSAPublicKey in the BIT STRING `t`. -/
def readRsaKey (t : Tlv) (modulusOut : Limbs) : Exec (Limbs × U32) :=
  if t.len < 1 then .refused
  else do
    let rsaKeyOffset := i32 (t.valueOffset + 1)
    let rsaKeyEnd := i32 (rsaKeyOffset + (t.len - 1))
    let key ← asn1Expect asn1TagSequence data rsaKeyOffset rsaKeyEnd
    let rsaSeqEnd := i32 (key.valueOffset + key.len)
    let modulus ← readIntegerBignum data key.valueOffset rsaSeqEnd modulusOut
    let m ← asn1ReadTlv data key.valueOffset rsaSeqEnd
    let exponent ← readIntegerU32 data (i32 (m.valueOffset + m.len)) rsaSeqEnd
    return (modulus, exponent)

def x509ExtractRsaPubkey (certDer : Cells U8) (certLen : Int) (modulusOut : Limbs) : Exec (Limbs × U32) := do
  let cert ← asn1Expect asn1TagSequence certDer 0 certLen
  let tbs ← asn1Expect asn1TagSequence certDer cert.valueOffset certLen
  let tbsEnd := i32 (tbs.valueOffset + tbs.len)
  let serial ← skipVersion certDer tbs.valueOffset tbsEnd
  -- signature, issuer, validity, subject
  let cursor ← skipFields certDer tbsEnd 4 (i32 (serial.valueOffset + serial.len))
  let spki ← asn1Expect asn1TagSequence certDer cursor tbsEnd
  let spkiEnd := i32 (spki.valueOffset + spki.len)
  let algorithm ← asn1ReadTlv certDer spki.valueOffset spkiEnd
  let key ← asn1Expect asn1TagBitString certDer (i32 (algorithm.valueOffset + algorithm.len)) spkiEnd
  readRsaKey certDer key modulusOut

end MinicOs
