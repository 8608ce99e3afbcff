import MinicOs.Inflate.Rfc1951
import MinicOs.Lib.Crc

/-!
# PNG files

What a PNG file with 8-bit RGB or RGBA pixels is, from the picture to the bytes: the rows are filtered, written
as a zlib stream, the stream is cut into `IDAT` chunks, and other chunks may stand before, between and after them.
-/

namespace MinicOs.PngFormat

abbrev Byte := BitVec 8

/-- A number as four bytes, the highest first. -/
def be32 (v : Nat) : List Byte :=
  [BitVec.ofNat 8 (v / 2 ^ 24), BitVec.ofNat 8 (v / 2 ^ 16), BitVec.ofNat 8 (v / 2 ^ 8), BitVec.ofNat 8 v]

/-! ## Pictures -/

/-- A pixel. The alpha channel of an RGB picture is not stored. -/
structure Pixel where
  r : Byte
  g : Byte
  b : Byte
  a : Byte

def Pixel.bytes (alpha : Bool) (p : Pixel) : List Byte := if alpha then [p.r, p.g, p.b, p.a] else [p.r, p.g, p.b]

/-- The colour of a pixel on the screen, `0x00RRGGBB`; a pixel with no opacity at all has none. -/
def Pixel.colour (alpha : Bool) (p : Pixel) : BitVec 32 :=
  if alpha = true ∧ p.a = 0 then 0xFFFFFFFF else (0 : Byte) ++ p.r ++ p.g ++ p.b

/-- The number of bytes of a pixel. -/
def bpp (alpha : Bool) : Nat := if alpha then 4 else 3

/-- A picture, row by row. -/
structure Picture where
  alpha : Bool
  width : Nat
  rows : List (List Pixel)
  length_row : ∀ row ∈ rows, row.length = width
  width_pos : 0 < width
  rows_ne_nil : rows ≠ []

namespace Picture

def height (p : Picture) : Nat := p.rows.length

def rowBytes (p : Picture) (row : List Pixel) : List Byte := row.flatMap (Pixel.bytes p.alpha)

/-- The colours of the pixels, row by row. -/
def colours (p : Picture) : List (BitVec 32) := p.rows.flatMap (List.map (Pixel.colour p.alpha))

end Picture

/-! ## Filters -/

/-- The five filters. -/
inductive Filter
  | none
  | sub
  | up
  | average
  | paeth
deriving DecidableEq

namespace Filter

/-- The filter type byte. -/
def code : Filter → Byte
  | .none => 0
  | .sub => 1
  | .up => 2
  | .average => 3
  | .paeth => 4

/-- Of the bytes to the left, above, and above to the left, the one nearest to `left + above - corner`; the first of
them at equal distance. -/
def nearest (left above corner : Byte) : Byte :=
  let p : Int := left.toNat + above.toNat - corner.toNat
  let da := (p - left.toNat).natAbs
  let db := (p - above.toNat).natAbs
  let dc := (p - corner.toNat).natAbs
  if da ≤ db ∧ da ≤ dc then left else if db ≤ dc then above else corner

/-- What the neighbours of a byte predict. -/
def predict (left above corner : Byte) : Filter → Byte
  | .none => 0
  | .sub => left
  | .up => above
  | .average => BitVec.ofNat 8 ((left.toNat + above.toNat) / 2)
  | .paeth => nearest left above corner

end Filter

/-- The byte one pixel to the left of `x`. -/
def leftOf (bpp : Nat) (row : List Byte) (x : Nat) : Byte := if bpp ≤ x then row.getD (x - bpp) 0 else 0

/-- The prediction of byte `x` of a row. -/
def prediction (f : Filter) (bpp : Nat) (above row : List Byte) (x : Nat) : Byte :=
  f.predict (leftOf bpp row x) (above.getD x 0) (leftOf bpp above x)

/-- A row under a filter. -/
def filterRow (f : Filter) (bpp : Nat) (above row : List Byte) : List Byte :=
  (List.range row.length).map fun x => row.getD x 0 - prediction f bpp above row x

/-- The rows below `above`, each after its filter type. Above the first row all bytes are zero. -/
def scanlines (bpp : Nat) : List Byte → List (Filter × List Byte) → List Byte
  | _, [] => []
  | above, (f, row) :: rows => f.code :: filterRow f bpp above row ++ scanlines bpp row rows

/-! ## Checksums and chunks -/

/-- The sum of the bytes, from one on. -/
def adlerSum (xs : List Byte) : Nat := 1 + (xs.map BitVec.toNat).sum

/-- Adler-32: the sum of the bytes, and the sum of the sums after each byte, both modulo 65521. -/
def adler32 (xs : List Byte) : Nat :=
  ((List.range xs.length).map fun i => adlerSum (xs.take (i + 1))).sum % 65521 * 2 ^ 16 + adlerSum xs % 65521

/-- A zlib stream: two bytes of header, DEFLATE data and the checksum of what it expands to. -/
def zlibOf (cmf flg : Byte) (packed : List Byte) (check : Nat) : List Byte := [cmf, flg] ++ packed ++ be32 check

/-- CRC-32: the remainder of the division by the polynomial, from all ones on and complemented. -/
def crc32 (xs : List Byte) : BitVec 32 := ~~~ Crc.feedBits 0xEDB88320#32 (BitVec.allOnes 32) (bitsOf xs)

structure Chunk where
  type : List Byte
  data : List Byte
  length_type : type.length = 4

/-- The bytes of a chunk: length, type, data and checksum. -/
def Chunk.bytes (c : Chunk) : List Byte :=
  be32 c.data.length ++ c.type ++ c.data ++ be32 (crc32 (c.type ++ c.data)).toNat

def ihdr : List Byte := [0x49, 0x48, 0x44, 0x52]

def idat : List Byte := [0x49, 0x44, 0x41, 0x54]

def iend : List Byte := [0x49, 0x45, 0x4E, 0x44]

def headerOf (width height : Nat) (colorType : Byte) : Chunk where
  type := ihdr
  data := be32 width ++ be32 height ++ [8, colorType, 0, 0, 0]
  length_type := rfl

def trailer : Chunk := ⟨iend, [], rfl⟩

def signature : List Byte := [0x89, 0x50, 0x4E, 0x47, 0x0D, 0x0A, 0x1A, 0x0A]

/-- A file: signature, header, other chunks and end. -/
def fileOf (header : Chunk) (chunks : List Chunk) : List Byte :=
  signature ++ header.bytes ++ chunks.flatMap Chunk.bytes ++ trailer.bytes

def idatData (chunks : List Chunk) : List Byte :=
  (chunks.filter fun c => c.type = idat).flatMap Chunk.data

/-- A file: the picture and the choices of the encoder. The filters, one for each row; the two bytes of the zlib
header; a DEFLATE stream of the filtered rows and the bytes it is written to; the chunks between header and end,
of which the `IDAT` chunks hold the zlib stream and the others are anything else. -/
structure Png where
  picture : Picture
  filters : List Filter
  length_filters : filters.length = picture.height
  cmf : Byte
  flg : Byte
  deflate : cmf.toNat % 16 = 8
  noDict : flg.getLsbD 5 = false
  stream : Rfc1951.Stream
  expand_stream : stream.expand = scanlines (bpp picture.alpha) [] (filters.zip (picture.rows.map picture.rowBytes))
  packed : List Byte
  written : stream.WrittenTo packed
  chunks : List Chunk
  extra : ∀ c ∈ chunks, c.type ≠ ihdr ∧ c.type ≠ iend
  chunks_idat : idatData chunks = zlibOf cmf flg packed (adler32 stream.expand)

def Picture.colorType (p : Picture) : Byte := if p.alpha then 6 else 2

def Png.bytes (p : Png) : List Byte :=
  fileOf (headerOf p.picture.width p.picture.height p.picture.colorType) p.chunks

end MinicOs.PngFormat
