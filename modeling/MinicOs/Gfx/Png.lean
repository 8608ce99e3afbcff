import MinicOs.Inflate.Inflate

/-!
# The PNG decoder

Model of `kernel/gfx/png/png.c`. `return false` is `refused`; an access outside `data`, `idat`, `raw` or
`pixels` is `undefined`. `unsigned` arithmetic wraps (`u32`), the one sum that the source makes with `u64`
does not. A pointer into a buffer is the index it was taken at, and what is added to a pointer does not wrap.

`kalloc` is not modelled here: whether each of the three calls succeeds is given (`Allocs`), and a buffer has
as many bytes as were asked for. `kfree` has no effect on the result.
-/

namespace MinicOs

def pngSignature : List U8 := [0x89, 0x50, 0x4E, 0x47, 0x0D, 0x0A, 0x1A, 0x0A]

/-- `'I', 'H', 'D', 'R'`. -/
def ihdrType : List U8 := [0x49, 0x48, 0x44, 0x52]

/-- `'I', 'D', 'A', 'T'`. -/
def idatType : List U8 := [0x49, 0x44, 0x41, 0x54]

/-- `'I', 'E', 'N', 'D'`. -/
def iendType : List U8 := [0x49, 0x45, 0x4E, 0x44]

/-- Compare byte after byte, up to the first that differs. -/
def bytesAre (data : List U8) (p : Nat) : List U8 → Exec Bool
  | [] => return true
  | c :: cs => do
    let b ← srcByte data p
    if b = c then bytesAre data (p + 1) cs else return false

def chunkTypeIs (data : List U8) (type : Nat) (name : List U8) : Exec Bool := bytesAre data type name

def readU32be (byte : Nat → Exec U8) (p : Nat) : Exec Nat := do
  let b0 ← byte p
  let b1 ← byte (p + 1)
  let b2 ← byte (p + 2)
  let b3 ← byte (p + 3)
  return b0.toNat <<< 24 ||| b1.toNat <<< 16 ||| b2.toNat <<< 8 ||| b3.toNat

/-! ## Checksums -/

/-- The body of the inner loop of `crc32_init`. -/
def crcStep (c : BitVec 32) : BitVec 32 := if c &&& 1#32 ≠ 0#32 then 0xEDB88320#32 ^^^ (c >>> 1) else c >>> 1

/-- `g_crc_table[n]`. -/
def crcEntry (n : Nat) : BitVec 32 := (List.range 8).foldl (fun c _ => crcStep c) (BitVec.ofNat 32 n)

/-- `g_crc_table`. -/
def crcTable : Cells (BitVec 32) := Cells.ofList ((List.range 256).map crcEntry)

/-- The body of the loop of `crc32_of`. -/
def crcByte (data : List U8) (p i : Nat) (c : BitVec 32) : Exec (BitVec 32) := do
  let b ← srcByte data (p + i)
  let entry ← crcTable.read ((c ^^^ b.setWidth 32) &&& 0xFF#32).toNat
  return entry ^^^ (c >>> 8)

/-- `crc32_of(&data[p], len)`. -/
def crc32Of (data : List U8) (p len : Nat) : Exec (BitVec 32) := do
  let c ← Exec.count len (crcByte data p) 0xFFFFFFFF#32
  return c ^^^ 0xFFFFFFFF#32

variable (raw : Cells U8)

/-- The body of the loop of `adler32_of`. -/
def adlerByte (i : Nat) (s : Nat × Nat) : Exec (Nat × Nat) := do
  let d ← raw.read i
  let a := (s.1 + d.toNat) % 65521
  return (a, (s.2 + a) % 65521)

/-- `adler32_of(raw, len)`. -/
def adler32Of (len : Nat) : Exec Nat := do
  let (a, b) ← Exec.count len (adlerByte raw) (1, 0)
  return b <<< 16 ||| a

/-! ## The rows -/

def paethPredictor (a b c : U8) : U8 :=
  let p : Int := a.toNat + b.toNat - c.toNat
  let pa := if p - a.toNat < 0 then -(p - a.toNat) else p - a.toNat
  let pb := if p - b.toNat < 0 then -(p - b.toNat) else p - b.toNat
  let pc := if p - c.toNat < 0 then -(p - c.toNat) else p - c.toNat
  if pa ≤ pb ∧ pa ≤ pc then a else if pb ≤ pc then b else c

/-- The reconstruction of `rawVal`. -/
def recon (filterType rawVal a b c : U8) : Exec U8 :=
  if filterType = 0 then .done rawVal
  else if filterType = 1 then .done (rawVal + a)
  else if filterType = 2 then .done (rawVal + b)
  else if filterType = 3 then .done (rawVal + BitVec.ofNat 8 ((a.toNat + b.toNat) / 2))
  else if filterType = 4 then .done (rawVal + paethPredictor a b c)
  else .refused

/-- `(x >= bpp) ? prow[x - bpp] : 0`. -/
def leftByte (bpp prow x : Nat) : Exec U8 := if x ≥ bpp then raw.read (prow + (x - bpp)) else .done 0

/-- `up_row ? up_row[x] : 0`. -/
def upByte (upRow : Option Nat) (x : Nat) : Exec U8 :=
  match upRow with
  | none => .done 0
  | some up => raw.read (up + x)

/-- `(up_row && x >= bpp) ? up_row[x - bpp] : 0`. -/
def upLeftByte (bpp : Nat) (upRow : Option Nat) (x : Nat) : Exec U8 :=
  match upRow with
  | none => .done 0
  | some up => leftByte raw bpp up x

/-- The body of the loop of `defilter` over the bytes of a row; `row` is the index of the row and `upRow`
that of the bytes of the row above, if there is one. -/
def defilterByte (bpp row : Nat) (upRow : Option Nat) (filterType : U8) (x : Nat) (raw : Cells U8) :
    Exec (Cells U8) := do
  let prow := row + 1
  let a ← leftByte raw bpp prow x
  let b ← upByte raw upRow x
  let c ← upLeftByte raw bpp upRow x
  let rawVal ← raw.read (prow + x)
  let v ← recon filterType rawVal a b c
  raw.write (prow + x) v

/-- The body of the loop of `defilter` over the rows. -/
def defilterRow (bpp stride y : Nat) (raw : Cells U8) : Exec (Cells U8) := do
  let row := u32 (y * u32 (1 + stride))
  let filterType ← raw.read row
  let upRow := if y = 0 then none else some (u32 (u32 ((y - 1) * u32 (1 + stride)) + 1))
  Exec.count stride (defilterByte bpp row upRow filterType) raw

def defilter (width height bpp : Nat) : Exec (Cells U8) :=
  Exec.count height (defilterRow bpp (u32 (bpp * width))) raw

/-! ## Pass 1 and pass 2 -/

/-- What pass 1 of `png_decode` keeps of the chunks. -/
structure Scan where
  width : Nat := 0
  height : Nat := 0
  colorType : U8 := 0
  haveIhdr : Bool := false
  idatTotal : Nat := 0

/-- The branch of pass 1 for an `IHDR` chunk. -/
def readIhdr (data : List U8) (cdata clen : Nat) (s : Scan) : Exec Scan :=
  if clen ≠ 13 then .refused
  else do
    let width ← readU32be (srcByte data) cdata
    let height ← readU32be (srcByte data) (cdata + 4)
    let bitDepth ← srcByte data (cdata + 8)
    let colorType ← srcByte data (cdata + 9)
    let compression ← srcByte data (cdata + 10)
    let filterMethod ← srcByte data (cdata + 11)
    let interlace ← srcByte data (cdata + 12)
    if bitDepth ≠ 8 then .refused
    else if colorType ≠ 2 ∧ colorType ≠ 6 then .refused
    else if compression ≠ 0 ∨ filterMethod ≠ 0 ∨ interlace ≠ 0 then .refused
    else if width = 0 ∨ height = 0 then .refused
    else return { s with width := width, height := height, colorType := colorType, haveIhdr := true }

/-- Pass 1 of `png_decode` from `pos` on. A round moves on by a chunk, so that the size of the file bounds the
rounds. -/
def scanChunks (data : List U8) : Nat → Nat → Scan → Exec Scan
  | 0, _, _ => .undefined
  | fuel + 1, pos, s =>
    if u32 (pos + 8) ≤ data.length then do
      let clen ← readU32be (srcByte data) pos
      let ctype := u32 (pos + 4)
      let cdata := u32 (pos + 8)
      if u32 (pos + 8) + clen + 4 > data.length then .refused
      else do
        let storedCrc ← readU32be (srcByte data) (u32 (pos + 8 + clen))
        let crc ← crc32Of data ctype (u32 (4 + clen))
        if crc.toNat ≠ storedCrc then .refused
        else do
          let next := u32 (pos + 8 + clen + 4)
          if ← chunkTypeIs data ctype ihdrType then do
            let s ← readIhdr data cdata clen s
            scanChunks data fuel next s
          else if ← chunkTypeIs data ctype idatType then
            scanChunks data fuel next { s with idatTotal := u32 (s.idatTotal + clen) }
          else if ← chunkTypeIs data ctype iendType then return s
          else scanChunks data fuel next s
    else return s

/-- The body of the loop that copies the bytes of an `IDAT` chunk. -/
def copyIdat (data : List U8) (cdata idatPos i : Nat) (idat : Cells U8) : Exec (Cells U8) := do
  let b ← srcByte data (cdata + i)
  idat.write (u32 (idatPos + i)) b

/-- Pass 2 of `png_decode` from `pos` on, with `idat` and `idat_pos`. -/
def gatherChunks (data : List U8) : Nat → Nat → Cells U8 × Nat → Exec (Cells U8 × Nat)
  | 0, _, _ => .undefined
  | fuel + 1, pos, s =>
    if u32 (pos + 8) ≤ data.length then do
      let clen ← readU32be (srcByte data) pos
      let ctype := u32 (pos + 4)
      let cdata := u32 (pos + 8)
      let next := u32 (pos + 8 + clen + 4)
      if ← chunkTypeIs data ctype idatType then do
        let idat ← Exec.count clen (copyIdat data cdata s.2) s.1
        gatherChunks data fuel next (idat, u32 (s.2 + clen))
      else if ← chunkTypeIs data ctype iendType then return s
      else gatherChunks data fuel next s
    else return s

/-! ## The picture -/

/-- Which calls of `kalloc` succeed. -/
structure Allocs where
  idat : Bool
  raw : Bool
  pixels : Bool

structure Image where
  width : Nat
  height : Nat
  pixels : Cells (BitVec 32)
deriving DecidableEq

def imageTransparent : BitVec 32 := 0xFFFFFFFF

/-- The rows of the picture as the zlib stream holds them, in a buffer of `rawSize` bytes. -/
def inflateIdat (k : Allocs) (idat : Cells U8) (idatTotal rawSize : Nat) : Exec (Cells U8) := do
  let cmf ← idat.read 0
  let flg ← idat.read 1
  if cmf &&& 0x0F ≠ 8 ∨ flg &&& 0x20 ≠ 0 then .refused
  else if k.raw = false then .refused
  else do
    let bytes ← idat.contents
    let (raw, inflatedLen) ← inflate ((bytes.drop 2).take (idatTotal - 2 - 4)) (Cells.unset rawSize)
    if inflatedLen ≠ rawSize then .refused
    else do
      let storedAdler ← readU32be idat.read (idatTotal - 4)
      let computedAdler ← adler32Of raw rawSize
      if storedAdler ≠ computedAdler then .refused else return raw

/-- `bpp == 4 && prow[x * bpp + 3] == 0`. -/
def isClear (bpp prow x : Nat) : Exec Bool :=
  if bpp = 4 then do
    let alpha ← raw.read (prow + u32 (x * bpp + 3))
    return decide (alpha = 0)
  else return false

/-- The body of the loop over the pixels of a row; `prow` is the index of the bytes of the row. -/
def unpackPixel (width bpp y prow x : Nat) (pixels : Cells (BitVec 32)) :
    Exec (Cells (BitVec 32)) := do
  let r ← raw.read (prow + u32 (x * bpp))
  let g ← raw.read (prow + u32 (x * bpp + 1))
  let bch ← raw.read (prow + u32 (x * bpp + 2))
  let clear ← isClear raw bpp prow x
  let color := if clear then imageTransparent else r.setWidth 32 <<< 16 ||| g.setWidth 32 <<< 8 ||| bch.setWidth 32
  pixels.write (u32 (y * width + x)) color

/-- The body of the loop over the rows. -/
def unpackRow (width bpp stride y : Nat) (pixels : Cells (BitVec 32)) : Exec (Cells (BitVec 32)) :=
  Exec.count width (unpackPixel raw width bpp y (u32 (u32 (y * u32 (1 + stride)) + 1))) pixels

/-- `bpp`. -/
def bytesPerPixel (colorType : U8) : Nat := if colorType = 6 then 4 else 3

def pngDecode (k : Allocs) (data : List U8) : Exec Image :=
  if data.length < 8 then .refused
  else do
    if ← bytesAre data 0 pngSignature then do
      let s ← scanChunks data (data.length + 1) 8 {}
      if s.haveIhdr = false ∨ s.idatTotal < 6 then .refused
      else if k.idat = false then .refused
      else do
        let bpp := bytesPerPixel s.colorType
        let (idat, _) ← gatherChunks data (data.length + 1) 8 (Cells.unset s.idatTotal, 0)
        let rawSize := u32 (s.height * u32 (1 + bpp * s.width))
        let raw ← inflateIdat k idat s.idatTotal rawSize
        let raw ← defilter raw s.width s.height bpp
        if k.pixels = false then .refused
        else do
          let pixels ← Exec.count s.height (unpackRow raw s.width bpp (u32 (bpp * s.width)))
            (Cells.unset (u32 (s.width * s.height * 4) / 4))
          return ⟨s.width, s.height, pixels⟩
    else .refused

end MinicOs
