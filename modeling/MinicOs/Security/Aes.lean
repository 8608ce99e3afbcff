import MinicOs.Mm.Word

/-!
# AES-128

Model of `kernel/security/aes/aes.c`. The state of the cipher and a block are 16 bytes, the round keys 176; an index into
them carries its bound. A buffer that is given with its length is a list of that length. `aes128CbcEncryptTls` and
`aes128CbcDecryptTls` answer `none` for `-1`, and otherwise with the bytes they write, as many as the result says.
-/

namespace MinicOs

/-- `SBOX`, a row for each high nibble. -/
def sboxRows : Vector (Vector U8 16) 16 := #v[
  #v[0x63, 0x7c, 0x77, 0x7b, 0xf2, 0x6b, 0x6f, 0xc5, 0x30, 0x01, 0x67, 0x2b, 0xfe, 0xd7, 0xab, 0x76],
  #v[0xca, 0x82, 0xc9, 0x7d, 0xfa, 0x59, 0x47, 0xf0, 0xad, 0xd4, 0xa2, 0xaf, 0x9c, 0xa4, 0x72, 0xc0],
  #v[0xb7, 0xfd, 0x93, 0x26, 0x36, 0x3f, 0xf7, 0xcc, 0x34, 0xa5, 0xe5, 0xf1, 0x71, 0xd8, 0x31, 0x15],
  #v[0x04, 0xc7, 0x23, 0xc3, 0x18, 0x96, 0x05, 0x9a, 0x07, 0x12, 0x80, 0xe2, 0xeb, 0x27, 0xb2, 0x75],
  #v[0x09, 0x83, 0x2c, 0x1a, 0x1b, 0x6e, 0x5a, 0xa0, 0x52, 0x3b, 0xd6, 0xb3, 0x29, 0xe3, 0x2f, 0x84],
  #v[0x53, 0xd1, 0x00, 0xed, 0x20, 0xfc, 0xb1, 0x5b, 0x6a, 0xcb, 0xbe, 0x39, 0x4a, 0x4c, 0x58, 0xcf],
  #v[0xd0, 0xef, 0xaa, 0xfb, 0x43, 0x4d, 0x33, 0x85, 0x45, 0xf9, 0x02, 0x7f, 0x50, 0x3c, 0x9f, 0xa8],
  #v[0x51, 0xa3, 0x40, 0x8f, 0x92, 0x9d, 0x38, 0xf5, 0xbc, 0xb6, 0xda, 0x21, 0x10, 0xff, 0xf3, 0xd2],
  #v[0xcd, 0x0c, 0x13, 0xec, 0x5f, 0x97, 0x44, 0x17, 0xc4, 0xa7, 0x7e, 0x3d, 0x64, 0x5d, 0x19, 0x73],
  #v[0x60, 0x81, 0x4f, 0xdc, 0x22, 0x2a, 0x90, 0x88, 0x46, 0xee, 0xb8, 0x14, 0xde, 0x5e, 0x0b, 0xdb],
  #v[0xe0, 0x32, 0x3a, 0x0a, 0x49, 0x06, 0x24, 0x5c, 0xc2, 0xd3, 0xac, 0x62, 0x91, 0x95, 0xe4, 0x79],
  #v[0xe7, 0xc8, 0x37, 0x6d, 0x8d, 0xd5, 0x4e, 0xa9, 0x6c, 0x56, 0xf4, 0xea, 0x65, 0x7a, 0xae, 0x08],
  #v[0xba, 0x78, 0x25, 0x2e, 0x1c, 0xa6, 0xb4, 0xc6, 0xe8, 0xdd, 0x74, 0x1f, 0x4b, 0xbd, 0x8b, 0x8a],
  #v[0x70, 0x3e, 0xb5, 0x66, 0x48, 0x03, 0xf6, 0x0e, 0x61, 0x35, 0x57, 0xb9, 0x86, 0xc1, 0x1d, 0x9e],
  #v[0xe1, 0xf8, 0x98, 0x11, 0x69, 0xd9, 0x8e, 0x94, 0x9b, 0x1e, 0x87, 0xe9, 0xce, 0x55, 0x28, 0xdf],
  #v[0x8c, 0xa1, 0x89, 0x0d, 0xbf, 0xe6, 0x42, 0x68, 0x41, 0x99, 0x2d, 0x0f, 0xb0, 0x54, 0xbb, 0x16]]

/-- `INV_SBOX`, likewise. -/
def invSboxRows : Vector (Vector U8 16) 16 := #v[
  #v[0x52, 0x09, 0x6a, 0xd5, 0x30, 0x36, 0xa5, 0x38, 0xbf, 0x40, 0xa3, 0x9e, 0x81, 0xf3, 0xd7, 0xfb],
  #v[0x7c, 0xe3, 0x39, 0x82, 0x9b, 0x2f, 0xff, 0x87, 0x34, 0x8e, 0x43, 0x44, 0xc4, 0xde, 0xe9, 0xcb],
  #v[0x54, 0x7b, 0x94, 0x32, 0xa6, 0xc2, 0x23, 0x3d, 0xee, 0x4c, 0x95, 0x0b, 0x42, 0xfa, 0xc3, 0x4e],
  #v[0x08, 0x2e, 0xa1, 0x66, 0x28, 0xd9, 0x24, 0xb2, 0x76, 0x5b, 0xa2, 0x49, 0x6d, 0x8b, 0xd1, 0x25],
  #v[0x72, 0xf8, 0xf6, 0x64, 0x86, 0x68, 0x98, 0x16, 0xd4, 0xa4, 0x5c, 0xcc, 0x5d, 0x65, 0xb6, 0x92],
  #v[0x6c, 0x70, 0x48, 0x50, 0xfd, 0xed, 0xb9, 0xda, 0x5e, 0x15, 0x46, 0x57, 0xa7, 0x8d, 0x9d, 0x84],
  #v[0x90, 0xd8, 0xab, 0x00, 0x8c, 0xbc, 0xd3, 0x0a, 0xf7, 0xe4, 0x58, 0x05, 0xb8, 0xb3, 0x45, 0x06],
  #v[0xd0, 0x2c, 0x1e, 0x8f, 0xca, 0x3f, 0x0f, 0x02, 0xc1, 0xaf, 0xbd, 0x03, 0x01, 0x13, 0x8a, 0x6b],
  #v[0x3a, 0x91, 0x11, 0x41, 0x4f, 0x67, 0xdc, 0xea, 0x97, 0xf2, 0xcf, 0xce, 0xf0, 0xb4, 0xe6, 0x73],
  #v[0x96, 0xac, 0x74, 0x22, 0xe7, 0xad, 0x35, 0x85, 0xe2, 0xf9, 0x37, 0xe8, 0x1c, 0x75, 0xdf, 0x6e],
  #v[0x47, 0xf1, 0x1a, 0x71, 0x1d, 0x29, 0xc5, 0x89, 0x6f, 0xb7, 0x62, 0x0e, 0xaa, 0x18, 0xbe, 0x1b],
  #v[0xfc, 0x56, 0x3e, 0x4b, 0xc6, 0xd2, 0x79, 0x20, 0x9a, 0xdb, 0xc0, 0xfe, 0x78, 0xcd, 0x5a, 0xf4],
  #v[0x1f, 0xdd, 0xa8, 0x33, 0x88, 0x07, 0xc7, 0x31, 0xb1, 0x12, 0x10, 0x59, 0x27, 0x80, 0xec, 0x5f],
  #v[0x60, 0x51, 0x7f, 0xa9, 0x19, 0xb5, 0x4a, 0x0d, 0x2d, 0xe5, 0x7a, 0x9f, 0x93, 0xc9, 0x9c, 0xef],
  #v[0xa0, 0xe0, 0x3b, 0x4d, 0xae, 0x2a, 0xf5, 0xb0, 0xc8, 0xeb, 0xbb, 0x3c, 0x83, 0x53, 0x99, 0x61],
  #v[0x17, 0x2b, 0x04, 0x7e, 0xba, 0x77, 0xd6, 0x26, 0xe1, 0x69, 0x14, 0x63, 0x55, 0x21, 0x0c, 0x7d]]

/-- The entry for the byte `x` of a table of 256 bytes. -/
def boxAt (rows : Vector (Vector U8 16) 16) (x : U8) : U8 := (rows[x.toNat / 16])[x.toNat % 16]

/-- `SBOX[x]`. -/
def sbox (x : U8) : U8 := boxAt sboxRows x

/-- `INV_SBOX[x]`. -/
def invSbox (x : U8) : U8 := boxAt invSboxRows x

def rcon : Vector U8 11 := #v[0x00, 0x01, 0x02, 0x04, 0x08, 0x10, 0x20, 0x40, 0x80, 0x1B, 0x36]

/-- A block of 16 bytes, as the state of the cipher has it. -/
abbrev AesBlock := Vector U8 16

abbrev RoundKeys := Vector U8 176

def aesRounds : Fin 11 := 10

/-- The rounds between the first and the last. -/
def middleRounds : List (Fin 11) := [1, 2, 3, 4, 5, 6, 7, 8, 9]

def aesPkcs7MaxLen : Nat := 4096

/-- The body of `gf_mul`'s loop, on `result`, `aa` and `bb`. -/
def gfMulStep (s : U8 × U8 × U8) : U8 × U8 × U8 :=
  let (result, aa, bb) := s
  let result := if bb &&& 1 ≠ 0 then result ^^^ aa else result
  let hi := aa &&& 0x80
  let aa := aa <<< 1
  let aa := if hi ≠ 0 then aa ^^^ 0x1B else aa
  (result, aa, bb >>> 1)

def gfMul (a b : U8) : U8 := ((List.range 8).foldl (fun s _ => gfMulStep s) (0, a, b)).1

variable (state : AesBlock)

def subBytes : AesBlock := state.map sbox

def invSubBytes : AesBlock := state.map invSbox

/-- `shift_rows`: byte `i` is in row `i % 4` and column `i / 4`. -/
def shiftRows : AesBlock :=
  Vector.ofFn fun i => state[i.val % 4 + 4 * ((i.val / 4 + i.val % 4) % 4)]

def invShiftRows : AesBlock :=
  Vector.ofFn fun i => state[i.val % 4 + 4 * ((i.val / 4 + 4 - i.val % 4) % 4)]

/-- A column of `mix_columns`. -/
def mixColumn (a0 a1 a2 a3 : U8) : Vector U8 4 := #v[gfMul a0 2 ^^^ gfMul a1 3 ^^^ a2 ^^^ a3,
  a0 ^^^ gfMul a1 2 ^^^ gfMul a2 3 ^^^ a3, a0 ^^^ a1 ^^^ gfMul a2 2 ^^^ gfMul a3 3, gfMul a0 3 ^^^ a1 ^^^ a2 ^^^ gfMul a3 2]

/-- A column of `inv_mix_columns`. -/
def invMixColumn (a0 a1 a2 a3 : U8) : Vector U8 4 := #v[gfMul a0 14 ^^^ gfMul a1 11 ^^^ gfMul a2 13 ^^^ gfMul a3 9,
  gfMul a0 9 ^^^ gfMul a1 14 ^^^ gfMul a2 11 ^^^ gfMul a3 13, gfMul a0 13 ^^^ gfMul a1 9 ^^^ gfMul a2 14 ^^^ gfMul a3 11,
  gfMul a0 11 ^^^ gfMul a1 13 ^^^ gfMul a2 9 ^^^ gfMul a3 14]

/-- The loop over the columns that `mix_columns` and `inv_mix_columns` share. -/
def onColumns (f : U8 → U8 → U8 → U8 → Vector U8 4) (state : AesBlock) : AesBlock :=
  Vector.ofFn fun i =>
    let c := i.val / 4
    (f state[4 * c + 0] state[4 * c + 1] state[4 * c + 2] state[4 * c + 3])[i.val % 4]

def mixColumns : AesBlock := onColumns mixColumn state

def invMixColumns : AesBlock := onColumns invMixColumn state

variable (roundKeys : RoundKeys)

/-- `add_round_key` with `&round_keys[16 * round]`. -/
def addRoundKey (state : AesBlock) (round : Fin 11) : AesBlock :=
  Vector.ofFn fun i => state[i] ^^^ roundKeys[16 * round.val + i.val]

/-- The word that `aes128_key_expand` adds to `w[i - 4]`, from `w[i - 1]`. -/
def expandTemp (i : Nat) (temp : Vector U8 4) : Vector U8 4 :=
  if i % 4 = 0 then
    #v[sbox temp[1] ^^^ rcon.getD (i / 4) 0, sbox temp[2], sbox temp[3], sbox temp[0]]
  else temp

/-- The next word of the key schedule, at `i = w.length`. -/
def expandStep (w : List (Vector U8 4)) : List (Vector U8 4) :=
  let zero := Vector.replicate 4 0
  let temp := expandTemp w.length (w.getD (w.length - 1) zero)
  w ++ [Vector.zipWith (· ^^^ ·) (w.getD (w.length - 4) zero) temp]

def aes128KeyExpand (key : AesBlock) : RoundKeys :=
  let w := (List.range 40).foldl (fun w _ => expandStep w)
    ((List.finRange 4).map fun i => #v[key[4 * i.val], key[4 * i.val + 1], key[4 * i.val + 2], key[4 * i.val + 3]])
  Vector.ofFn fun i => (w.getD (i.val / 4) (Vector.replicate 4 0))[i.val % 4]

/-- The body of `aes128_encrypt_block`'s loop. -/
def encryptRound (state : AesBlock) (round : Fin 11) : AesBlock :=
  addRoundKey roundKeys (mixColumns (shiftRows (subBytes state))) round

def aes128EncryptBlock (input : AesBlock) : AesBlock :=
  let state := addRoundKey roundKeys input 0
  let state := middleRounds.foldl (encryptRound roundKeys) state
  addRoundKey roundKeys (shiftRows (subBytes state)) aesRounds

/-- The body of `aes128_decrypt_block`'s loop. -/
def decryptRound (state : AesBlock) (round : Fin 11) : AesBlock :=
  invMixColumns (addRoundKey roundKeys (invSubBytes (invShiftRows state)) round)

def aes128DecryptBlock (input : AesBlock) : AesBlock :=
  let state := addRoundKey roundKeys input aesRounds
  let state := middleRounds.reverse.foldl (decryptRound roundKeys) state
  addRoundKey roundKeys (invSubBytes (invShiftRows state)) 0

/-- The bytes `in[16 * b .. 16 * b + 16)`. -/
def blockAt (input : List U8) (b : Nat) : AesBlock := Vector.ofFn fun i => input.getD (16 * b + i.val) 0

/-- `block[i] = in[16 * b + i] ^ prev[i]`. -/
def xorBlock (x y : AesBlock) : AesBlock := Vector.ofFn fun i => x[i] ^^^ y[i]

/-- The body of `aes128_cbc_encrypt`'s loop, on `prev` and what `out` holds. -/
def cbcEncryptStep (input : List U8) (s : AesBlock × List U8) (b : Nat) : AesBlock × List U8 :=
  let block := aes128EncryptBlock roundKeys (xorBlock (blockAt input b) s.1)
  (block, s.2 ++ block.toList)

def aes128CbcEncrypt (iv : AesBlock) (input : List U8) : List U8 :=
  ((List.range (input.length / 16)).foldl (cbcEncryptStep roundKeys input) (iv, [])).2

/-- The body of `aes128_cbc_decrypt`'s loop. -/
def cbcDecryptStep (input : List U8) (s : AesBlock × List U8) (b : Nat) : AesBlock × List U8 :=
  let decrypted := aes128DecryptBlock roundKeys (blockAt input b)
  (blockAt input b, s.2 ++ (xorBlock decrypted s.1).toList)

def aes128CbcDecrypt (iv : AesBlock) (input : List U8) : List U8 :=
  ((List.range (input.length / 16)).foldl (cbcDecryptStep roundKeys input) (iv, [])).2

/-- The number of padding bytes before the last one. -/
def tlsPadLen (inLen : Nat) : Nat := (16 - (inLen + 1) % 16) % 16

def aes128CbcEncryptTls (iv : AesBlock) (input : List U8) (outCapacity : Nat) : Option (List U8) :=
  let padLen := tlsPadLen input.length
  let total := input.length + padLen + 1
  if total > outCapacity ∨ total > aesPkcs7MaxLen then none
  else
    let padded := input ++ List.replicate (total - 1 - input.length) (BitVec.ofNat 8 padLen) ++ [BitVec.ofNat 8 padLen]
    some (aes128CbcEncrypt roundKeys iv padded)

def aes128CbcDecryptTls (iv : AesBlock) (input : List U8) : Option (List U8) :=
  let inLen := input.length
  if inLen = 0 ∨ inLen % 16 ≠ 0 ∨ inLen > aesPkcs7MaxLen then none
  else
    let decrypted := aes128CbcDecrypt roundKeys iv input
    let padLen := decrypted.getD (inLen - 1) 0
    if padLen.toNat > 15 ∨ padLen.toNat + 1 > inLen then none
    else if (List.range padLen.toNat).any fun i => decrypted.getD (inLen - 1 - padLen.toNat + i) 0 != padLen then none
    else some (decrypted.take (inLen - padLen.toNat - 1))

end MinicOs
