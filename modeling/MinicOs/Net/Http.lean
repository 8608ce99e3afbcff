import MinicOs.Security.X509

/-!
# HTTP responses

Model of `http_parse_response` of `kernel/net/http/http.c` with `find_bytes` and `streq_ci_n` of `kernel/lib/strings.c`. The
buffer `raw` is an array of bytes, `raw_len` its length, and an access outside it is undefined. A pointer into the buffer is
the place it points to. `return false` is `refused`.

A place in the headers and the length of a line are at most `raw_len` and do not wrap around. The sizes of chunks do: they
are `u32`s, and as `int`s they are added to `int`s (`i32`). The loop over the chunks need not end, so it has fuel; a run
without an end is undefined for every fuel.
-/

namespace MinicOs

/-! ## Strings -/

/-- The inner loop of `find_bytes`. -/
def matchAt (haystack : Cells U8) : List U8 → Nat → Exec Bool
  | [], _ => return true
  | c :: cs, i => do
    let b ← haystack.read i
    if b = c then matchAt haystack cs (i + 1) else return false

/-- The outer loop of `find_bytes`, with `n` places to come. -/
def findFrom (haystack : Cells U8) (needle : List U8) : Nat → Nat → Exec (Option Nat)
  | 0, _ => return none
  | n + 1, i => do
    let found ← matchAt haystack needle i
    if found then return some i else findFrom haystack needle n (i + 1)

/-- `find_bytes`; `none` is `-1`. -/
def findBytes (haystack : Cells U8) (haystackLen : Int) (needle : List U8) : Exec (Option Nat) :=
  if needle.length = 0 ∨ (needle.length : Int) > haystackLen then return none
  else findFrom haystack needle (haystackLen - needle.length + 1).toNat 0

def toLowerAscii (c : U8) : U8 := if 0x41 ≤ c.toNat ∧ c.toNat ≤ 0x5A then c - 0x41 + 0x61 else c

/-- `streq_ci_n` from index `i` on, with `n` characters to come; `b` is what is left before the terminator. -/
def streqCiFrom (a : Cells U8) : Nat → List U8 → Nat → Exec Bool
  | 0, b, _ => return b.isEmpty
  | _ + 1, [], _ => return false
  | n + 1, c :: cs, i => do
    let x ← a.read i
    if toLowerAscii x ≠ toLowerAscii c then return false else streqCiFrom a n cs (i + 1)

def streqCiN (a : Cells U8) (b : List U8) (len : Nat) : Exec Bool := streqCiFrom a len b 0

/-- `"\r\n"`. -/
def crlf : List U8 := [0x0D, 0x0A]

/-- `"Content-Length"`. -/
def contentLengthName : List U8 :=
  [0x43, 0x6F, 0x6E, 0x74, 0x65, 0x6E, 0x74, 0x2D, 0x4C, 0x65, 0x6E, 0x67, 0x74, 0x68]

/-- `"Transfer-Encoding"`. -/
def transferEncodingName : List U8 :=
  [0x54, 0x72, 0x61, 0x6E, 0x73, 0x66, 0x65, 0x72, 0x2D, 0x45, 0x6E, 0x63, 0x6F, 0x64, 0x69, 0x6E, 0x67]

/-- `"chunked"`. -/
def chunkedText : List U8 := [0x63, 0x68, 0x75, 0x6E, 0x6B, 0x65, 0x64]

/-- `c >= '0' && c <= '9'`. -/
def isDigit (c : U8) : Bool := 0x30 ≤ c.toNat ∧ c.toNat ≤ 0x39

/-! ## The status line and the headers -/

/-- `while (i < line_len && raw[i] != ' ')`, with `n` bytes to come; `none` at the end of the line. -/
def skipWord (raw : Cells U8) : Nat → Nat → Exec (Option Nat)
  | 0, _ => return none
  | n + 1, i => do
    let b ← raw.read i
    if b = 0x20 then return some i else skipWord raw n (i + 1)

/-- The digits of the status code: `code` and `digits`. -/
def statusDigits (raw : Cells U8) : Nat → Nat → Nat → Nat → Exec (Nat × Nat)
  | 0, _, code, digits => return (code, digits)
  | n + 1, i, code, digits => do
    let b ← raw.read i
    if isDigit b then statusDigits raw n (i + 1) (code * 10 + (b.toNat - 0x30)) (digits + 1)
    else return (code, digits)

def parseStatusLine (raw : Cells U8) (lineLen : Nat) : Exec Nat := do
  let space ← skipWord raw lineLen 0
  match space with
  | none => .refused
  | some i => do
    let (code, digits) ← statusDigits raw (lineLen - (i + 1)) (i + 1) 0 0
    if digits ≠ 3 then .refused else return code

/-- `http_header_t`, with places in the buffer. -/
structure HttpHeader where
  name : Nat
  nameLen : Nat
  value : Nat
  valueLen : Nat
deriving DecidableEq

def httpMaxHeaders : Nat := 16

/-- `while (vstart < line_len && line[vstart] == ' ')`, with `n` bytes to come. -/
def skipSpaces (line : Cells U8) : Nat → Nat → Exec Nat
  | 0, vstart => return vstart
  | n + 1, vstart => do
    let b ← line.read vstart
    if b = 0x20 then skipSpaces line n (vstart + 1) else return vstart

/-- `parse_header_line` at `cursor`; `none` is a header without a name. -/
def parseHeaderLine (raw : Cells U8) (cursor lineLen : Nat) : Exec (Option HttpHeader) := do
  let found ← findBytes (raw.drop cursor) lineLen [0x3A]
  match found with
  | none => return none
  | some colon => do
    let vstart ← skipSpaces (raw.drop cursor) (lineLen - (colon + 1)) (colon + 1)
    return some ⟨cursor, colon, cursor + vstart, lineLen - vstart⟩

/-- The loop over the header lines. -/
def parseHeaders (raw : Cells U8) (headerBlockEnd : Nat) : Nat → Nat → List (Option HttpHeader) →
    Exec (List (Option HttpHeader))
  | 0, _, _ => .undefined
  | fuel + 1, cursor, headers =>
    if cursor < headerBlockEnd then do
      let remaining := headerBlockEnd - cursor
      let found ← findBytes (raw.drop cursor) remaining crlf
      let lineLen := found.getD remaining
      if lineLen > 0 ∧ headers.length < httpMaxHeaders then do
        let h ← parseHeaderLine raw cursor lineLen
        parseHeaders raw headerBlockEnd fuel (cursor + lineLen + 2) (headers ++ [h])
      else parseHeaders raw headerBlockEnd fuel (cursor + lineLen + 2) headers
    else return headers

def httpFindHeader (raw : Cells U8) (name : List U8) : List (Option HttpHeader) → Exec (Option HttpHeader)
  | [] => return none
  | none :: hs => httpFindHeader raw name hs
  | some h :: hs => do
    let same ← streqCiN (raw.drop h.name) name h.nameLen
    if same then return some h else httpFindHeader raw name hs

/-- `te != NULL && te->value_len >= 7 && streq_ci_n(te->value, "chunked", 7)`. -/
def isChunked (raw : Cells U8) : Option HttpHeader → Exec Bool
  | none => return false
  | some te => if te.valueLen ≥ 7 then streqCiN (raw.drop te.value) chunkedText 7 else return false

/-! ## The body -/

/-- `data[i] = v`. -/
def writeAt (data : Cells U8) (i : Int) (v : U8) : Exec (Cells U8) := if i < 0 then .undefined else data.write i.toNat v

/-- The value of a digit of a chunk size. -/
def hexDigit (c : U8) : Option Nat :=
  if 0x30 ≤ c.toNat ∧ c.toNat ≤ 0x39 then some (c.toNat - 0x30)
  else if 0x61 ≤ c.toNat ∧ c.toNat ≤ 0x66 then some (c.toNat - 0x61 + 10)
  else if 0x41 ≤ c.toNat ∧ c.toNat ≤ 0x46 then some (c.toNat - 0x41 + 10)
  else none

/-- The loop that reads a chunk size, with `n` bytes of the line to come. -/
def readChunkSize (raw : Cells U8) : Nat → Int → U32 → Exec U32
  | 0, _, chunkSize => return chunkSize
  | n + 1, pos, chunkSize => do
    let c ← readAt raw pos
    if c = 0x3B then return chunkSize
    else
      match hexDigit c with
      | none => return chunkSize
      | some digit => readChunkSize raw n (pos + 1) (chunkSize * 16 + BitVec.ofNat 32 digit)

/-- `while (k < (int) chunk_size) write_ptr[write_len + k] = raw[read_pos + k]`. -/
def copyChunk (bodyStart : Nat) (raw : Cells U8) (readPos writeLen chunkSize : Int) : Exec (Cells U8) :=
  Exec.count chunkSize.toNat (fun k raw => do
    let b ← readAt raw (readPos + k)
    writeAt raw (bodyStart + writeLen + k) b) raw

/-- The loop over the chunks, on the buffer, `read_pos` and `write_len`. -/
def dechunk (rawLen bodyStart : Nat) : Nat → Cells U8 → Int → Int → Exec (Cells U8 × Int)
  | 0, _, _, _ => .undefined
  | fuel + 1, raw, readPos, writeLen =>
    if readPos < rawLen then do
      let remaining := i32 (rawLen - readPos)
      let found ← findBytes (pointerAt raw readPos) remaining crlf
      match found with
      | none => .refused
      | some sizeLineLen => do
        let chunkSize ← readChunkSize raw sizeLineLen readPos 0
        let readPos := i32 (readPos + sizeLineLen + 2)
        if chunkSize = 0 then return (raw, writeLen)
        else if i32 (readPos + chunkSize.toInt + 2) > rawLen then .refused
        else do
          let raw ← copyChunk bodyStart raw readPos writeLen chunkSize.toInt
          dechunk rawLen bodyStart fuel raw (i32 (readPos + chunkSize.toInt + 2)) (i32 (writeLen + chunkSize.toInt))
    -- the last chunk did not arrive
    else .refused

/-- The loop that reads a `Content-Length`, with `n` characters to come. -/
def readContentLength (value : Cells U8) : Nat → Nat → Int → Exec Int
  | 0, _, contentLength => return contentLength
  | n + 1, i, contentLength => do
    let c ← value.read i
    if isDigit c then readContentLength value n (i + 1) (i32 (contentLength * 10 + (c.toNat - 0x30)))
    else return contentLength

/-- `http_response_t`; `body` is a place in the buffer. -/
structure HttpResponse where
  statusCode : Nat
  headers : List (Option HttpHeader)
  body : Nat
  bodyLen : Int
deriving DecidableEq

/-- The length of the body that `Content-Length` gives. -/
def sizedBody (raw : Cells U8) (cl : HttpHeader) (bodyAvailable : Nat) : Exec Int := do
  let contentLength ← readContentLength (raw.drop cl.value) cl.valueLen 0 0
  return if contentLength > bodyAvailable then (bodyAvailable : Int) else contentLength

/-- The part of `http_parse_response` behind the headers. -/
def httpParseBody (fuel : Nat) (raw : Cells U8) (bodyStart statusCode : Nat) (headers : List (Option HttpHeader)) :
    Exec (Cells U8 × HttpResponse) := do
  let bodyAvailable := raw.length - bodyStart
  let cl ← httpFindHeader raw contentLengthName headers
  let te ← httpFindHeader raw transferEncodingName headers
  let chunked ← isChunked raw te
  if chunked then do
    let (raw', writeLen) ← dechunk raw.length bodyStart fuel raw bodyStart 0
    return (raw', ⟨statusCode, headers, bodyStart, writeLen⟩)
  else
    match cl with
    | some cl => do
      let bodyLen ← sizedBody raw cl bodyAvailable
      return (raw, ⟨statusCode, headers, bodyStart, bodyLen⟩)
    | none => return (raw, ⟨statusCode, headers, bodyStart, bodyAvailable⟩)

/-- `http_parse_response`: what the buffer holds afterwards, and the response. -/
def httpParseResponse (fuel : Nat) (raw : Cells U8) : Exec (Cells U8 × HttpResponse) := do
  let found ← findBytes raw raw.length (crlf ++ crlf)
  match found with
  | none => .refused
  | some headerBlockEnd => do
    let line ← findBytes raw headerBlockEnd crlf
    let statusLineLen := line.getD headerBlockEnd
    let statusCode ← parseStatusLine raw statusLineLen
    let headers ← parseHeaders raw headerBlockEnd (headerBlockEnd + 1) (statusLineLen + 2) []
    httpParseBody fuel raw (headerBlockEnd + 4) statusCode headers

end MinicOs
