import MinicOs.Mm.Word

/-!
# SHA-256 and HMAC-SHA256

Model of `kernel/security/hash/sha256.c` and `hmac_sha256.c`. A context keeps the eight state
words, the bit count and the bytes buffered for the current block (`buffer_len` is the length of
`buffer`).
-/

namespace MinicOs

abbrev U32 := BitVec 32

/-- The round constants `K`. -/
def sha256K : List U32 := [0x428a2f98, 0x71374491, 0xb5c0fbcf, 0xe9b5dba5, 0x3956c25b, 0x59f111f1, 0x923f82a4, 0xab1c5ed5,
  0xd807aa98, 0x12835b01, 0x243185be, 0x550c7dc3, 0x72be5d74, 0x80deb1fe, 0x9bdc06a7, 0xc19bf174,
  0xe49b69c1, 0xefbe4786, 0x0fc19dc6, 0x240ca1cc, 0x2de92c6f, 0x4a7484aa, 0x5cb0a9dc, 0x76f988da,
  0x983e5152, 0xa831c66d, 0xb00327c8, 0xbf597fc7, 0xc6e00bf3, 0xd5a79147, 0x06ca6351, 0x14292967,
  0x27b70a85, 0x2e1b2138, 0x4d2c6dfc, 0x53380d13, 0x650a7354, 0x766a0abb, 0x81c2c92e, 0x92722c85,
  0xa2bfe8a1, 0xa81a664b, 0xc24b8b70, 0xc76c51a3, 0xd192e819, 0xd6990624, 0xf40e3585, 0x106aa070,
  0x19a4c116, 0x1e376c08, 0x2748774c, 0x34b0bcb5, 0x391c0cb3, 0x4ed8aa4a, 0x5b9cca4f, 0x682e6ff3,
  0x748f82ee, 0x78a5636f, 0x84c87814, 0x8cc70208, 0x90befffa, 0xa4506ceb, 0xbef9a3f7, 0xc67178f2]

def rotr (x : U32) (n : Nat) : U32 := (x >>> n) ||| (x <<< (32 - n))

/-- The words `a` to `h`. -/
structure Sha256State where
  a : U32
  b : U32
  c : U32
  d : U32
  e : U32
  f : U32
  g : U32
  h : U32

structure Sha256Ctx where
  state : Sha256State
  bitCount : U64
  buffer : List U8

/-- The big-endian word at `block[t * 4]`. -/
def blockWord (block : List U8) (t : Nat) : U32 :=
  ((block.getD (t * 4) 0).setWidth 32 <<< 24) ||| ((block.getD (t * 4 + 1) 0).setWidth 32 <<< 16) |||
    ((block.getD (t * 4 + 2) 0).setWidth 32 <<< 8) ||| (block.getD (t * 4 + 3) 0).setWidth 32

/-- One more word of the message schedule, at `t = w.length`. -/
def scheduleStep (w : List U32) : List U32 :=
  let t := w.length
  let w15 := w.getD (t - 15) 0
  let w2 := w.getD (t - 2) 0
  let s0 := rotr w15 7 ^^^ rotr w15 18 ^^^ (w15 >>> 3)
  let s1 := rotr w2 17 ^^^ rotr w2 19 ^^^ (w2 >>> 10)
  w ++ [w.getD (t - 16) 0 + s0 + w.getD (t - 7) 0 + s1]

/-- The 64 words of the message schedule. -/
def schedule (block : List U8) : List U32 :=
  (List.range 48).foldl (fun w _ => scheduleStep w) ((List.range 16).map (blockWord block))

/-- One round, with constant `k` and schedule word `w`. -/
def sha256Round (s : Sha256State) (kw : U32 × U32) : Sha256State :=
  let bigS1 := rotr s.e 6 ^^^ rotr s.e 11 ^^^ rotr s.e 25
  let ch := (s.e &&& s.f) ^^^ (~~~s.e &&& s.g)
  let t1 := s.h + bigS1 + ch + kw.1 + kw.2
  let bigS0 := rotr s.a 2 ^^^ rotr s.a 13 ^^^ rotr s.a 22
  let maj := (s.a &&& s.b) ^^^ (s.a &&& s.c) ^^^ (s.b &&& s.c)
  let t2 := bigS0 + maj
  { a := t1 + t2, b := s.a, c := s.b, d := s.c, e := s.d + t1, f := s.e, g := s.f, h := s.g }

def sha256ProcessBlock (s : Sha256State) (block : List U8) : Sha256State :=
  let r := (sha256K.zip (schedule block)).foldl sha256Round s
  { a := s.a + r.a, b := s.b + r.b, c := s.c + r.c, d := s.d + r.d,
    e := s.e + r.e, f := s.f + r.f, g := s.g + r.g, h := s.h + r.h }

def sha256Init : Sha256Ctx :=
  { state := { a := 0x6a09e667, b := 0xbb67ae85, c := 0x3c6ef372, d := 0xa54ff53a,
               e := 0x510e527f, f := 0x9b05688c, g := 0x1f83d9ab, h := 0x5be0cd19 },
    bitCount := 0, buffer := [] }

/-- The body of `sha256_update`'s loop. -/
def sha256Push (ctx : Sha256Ctx) (byte : U8) : Sha256Ctx :=
  let buffer := ctx.buffer ++ [byte]
  let ctx := { ctx with buffer := buffer, bitCount := ctx.bitCount + 8 }
  if buffer.length = 64 then { ctx with state := sha256ProcessBlock ctx.state buffer, buffer := [] }
  else ctx

def sha256Update (ctx : Sha256Ctx) (data : List U8) : Sha256Ctx := data.foldl sha256Push ctx

/-- The zero-padding loop of `sha256_final`, at most `fuel` rounds. -/
def sha256PadZeros : Nat → Sha256Ctx → Sha256Ctx
  | 0, ctx => ctx
  | fuel + 1, ctx =>
    if ctx.buffer.length = 56 then ctx else sha256PadZeros fuel (sha256Update ctx [0])

/-- The four big-endian bytes of a word. -/
def wordBytes (w : U32) : List U8 :=
  [(w >>> 24).setWidth 8, (w >>> 16).setWidth 8, (w >>> 8).setWidth 8, w.setWidth 8]

/-- `sha256_final`. The padding loop ends within 64 rounds (`sha256PadZeros_eq`). -/
def sha256Final (ctx : Sha256Ctx) : List U8 :=
  let messageBitCount := ctx.bitCount
  let ctx := sha256PadZeros 64 (sha256Update ctx [0x80])
  let lengthBytes := (List.range 8).map fun i => (messageBitCount >>> (56 - i * 8)).setWidth 8
  let s := (sha256Update ctx lengthBytes).state
  [s.a, s.b, s.c, s.d, s.e, s.f, s.g, s.h].flatMap wordBytes

def sha256 (data : List U8) : List U8 := sha256Final (sha256Update sha256Init data)

def hmacSha256 (key data : List U8) : List U8 :=
  let keyBytes := if 64 < key.length then sha256 key else key
  let keyBlock := keyBytes ++ List.replicate (64 - keyBytes.length) 0
  let ipadKey := keyBlock.map (· ^^^ 0x36)
  let opadKey := keyBlock.map (· ^^^ 0x5c)
  let innerDigest := sha256Final (sha256Update (sha256Update sha256Init ipadKey) data)
  sha256Final (sha256Update (sha256Update sha256Init opadKey) innerDigest)

theorem sha256Update_append (ctx : Sha256Ctx) (xs ys : List U8) :
    sha256Update (sha256Update ctx xs) ys = sha256Update ctx (xs ++ ys) := List.foldl_append.symm

theorem sha256Final_length (ctx : Sha256Ctx) : (sha256Final ctx).length = 32 := by
  unfold sha256Final wordBytes
  simp

theorem hmacSha256_length (key data : List U8) : (hmacSha256 key data).length = 32 :=
  sha256Final_length _

theorem sha256Push_length {ctx : Sha256Ctx} (h : ctx.buffer.length < 64) (b : U8) :
    (sha256Push ctx b).buffer.length = (ctx.buffer.length + 1) % 64 := by
  unfold sha256Push
  simp only [List.length_append, List.length_cons, List.length_nil]
  split
  · rename_i h64
    simp [h64]
  · rename_i h64
    simp
    omega

end MinicOs
