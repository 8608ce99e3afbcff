import MinicOs.Inflate.Huffman

/-!
# DEFLATE decompression

Model of the blocks of `kernel/inflate/inflate.c`: `read_dynamic_tables`, `inflate_block_stored`,
`inflate_block_huffman` and `inflate`. The buffer `dst` is an array of `dst_cap` cells. A call that
accesses an array outside its bounds, reads a cell that was not set, or does not end is `undefined`;
one that returns `false` is `refused`.
-/

namespace MinicOs

open Cells

def u32 (n : Nat) : Nat := n % 2 ^ 32

def maxDistSymbols : Nat := 30

def maxClSymbols : Nat := 19

def lengthBase : List Nat :=
  [3, 4, 5, 6, 7, 8, 9, 10, 11, 13, 15, 17, 19, 23, 27, 31, 35, 43, 51, 59, 67, 83, 99, 115, 131, 163, 195, 227, 258]

def lengthExtra : List Nat :=
  [0, 0, 0, 0, 0, 0, 0, 0, 1, 1, 1, 1, 2, 2, 2, 2, 3, 3, 3, 3, 4, 4, 4, 4, 5, 5, 5, 5, 0]

def distBase : List Nat :=
  [1, 2, 3, 4, 5, 7, 9, 13, 17, 25, 33, 49, 65, 97, 129, 193, 257, 385, 513, 769, 1025, 1537, 2049, 3073, 4097,
    6145, 8193, 12289, 16385, 24577]

def distExtra : List Nat :=
  [0, 0, 0, 0, 1, 1, 2, 2, 3, 3, 4, 4, 5, 5, 6, 6, 7, 7, 8, 8, 9, 9, 10, 10, 11, 11, 12, 12, 13, 13]

def clOrder : List Nat := [16, 17, 18, 0, 8, 7, 9, 6, 10, 5, 11, 4, 12, 3, 13, 2, 14, 1, 15]

/-! ## The tables of a block -/

/-- `lit_lengths` of `build_fixed_tables`. -/
def fixedLitLengths : List Nat :=
  List.replicate 144 8 ++ List.replicate 112 9 ++ List.replicate 24 7 ++ List.replicate 8 8

/-- `dist_lengths` of `build_fixed_tables`. -/
def fixedDistLengths : List Nat := List.replicate maxDistSymbols 5

def buildFixedTables : Exec (HuffmanTable × HuffmanTable) := do
  let lit ← huffmanBuild (ofList fixedLitLengths) maxLitSymbols
  let dist ← huffmanBuild (ofList fixedDistLengths) maxDistSymbols
  return (lit, dist)

/-- `cl_lengths[CL_ORDER[i]] = (u8) br_getbits(br, 3)`. -/
def readClLength (i : Nat) (s : Cells Nat × BitReader) : Exec (Cells Nat × BitReader) := do
  let (v, br) ← s.2.getBits 3
  let place ← (ofList clOrder).read i
  let cl ← s.1.write place v
  return (cl, br)

/-- The `while (rep > 0 && n < total)` loops. -/
def repeatLength (value total : Nat) : Nat → Cells Nat × Nat → Exec (Cells Nat × Nat)
  | 0, s => return s
  | rep + 1, (lengths, n) =>
    if n < total then do
      let lengths ← lengths.write n value
      repeatLength value total rep (lengths, n + 1)
    else return (lengths, n)

/-- What a symbol of the code-length code adds to the lengths. -/
def readLengthSymbol (total sym : Nat) (lengths : Cells Nat) (n : Nat) (br : BitReader) :
    Exec ((Cells Nat × Nat) × BitReader) :=
  if sym < 16 then do
    let lengths ← lengths.write n sym
    return ((lengths, n + 1), br)
  else if sym = 16 then
    if n = 0 then .refused
    else do
      let (v, br) ← br.getBits 2
      let prev ← lengths.read (n - 1)
      let r ← repeatLength prev total (v + 3) (lengths, n)
      return (r, br)
  else if sym = 17 then do
    let (v, br) ← br.getBits 3
    let r ← repeatLength 0 total (v + 3) (lengths, n)
    return (r, br)
  else do
    let (v, br) ← br.getBits 7
    let r ← repeatLength 0 total (v + 11) (lengths, n)
    return (r, br)

/-- One round of the loop that reads the code lengths. -/
def readLength (cl : HuffmanTable) (total : Nat) (s : (Cells Nat × Nat) × BitReader) :
    Exec ((Cells Nat × Nat) × BitReader) := do
  let (sym, br) ← huffmanDecode cl s.2
  match sym with
  | none => .refused
  | some sym =>
    let r ← readLengthSymbol total sym s.1.1 s.1.2 br
    if r.2.error = true then .refused else return r

/-- The loop that reads the code lengths. -/
def readLengths (cl : HuffmanTable) (total : Nat) : Nat → (Cells Nat × Nat) × BitReader →
    Exec ((Cells Nat × Nat) × BitReader)
  | 0, _ => .undefined
  | fuel + 1, s =>
    if s.1.2 < total then do
      let s ← readLength cl total s
      readLengths cl total fuel s
    else return s

def readDynamicTables (br : BitReader) : Exec ((HuffmanTable × HuffmanTable) × BitReader) := do
  let (hlit, br) ← br.getBits 5
  let (hdist, br) ← br.getBits 5
  let (hclen, br) ← br.getBits 4
  if br.error = true then .refused
  else
    let (clLengths, br) ← Exec.loop readClLength (List.range (hclen + 4))
      (ofList (List.replicate maxClSymbols 0), br)
    if br.error = true then .refused
    else
      let cl ← huffmanBuild clLengths maxClSymbols
      let total := hlit + 257 + (hdist + 1)
      if total > maxLitSymbols + maxDistSymbols then .refused
      else
        let ((lengths, _), br) ← readLengths cl total (total + 1)
          ((unset (maxLitSymbols + maxDistSymbols), 0), br)
        let lit ← huffmanBuild lengths (hlit + 257)
        let dist ← huffmanBuild (lengths.drop (hlit + 257)) (hdist + 1)
        return ((lit, dist), br)

/-! ## The blocks -/

/-- The reader, the buffer and `dst_pos`. -/
structure Inflater where
  br : BitReader
  dst : Cells U8
  dstPos : Nat

/-- The reader at the start of byte `p`. A place past the end of the data is undefined: no check of
the code lets one through. -/
def BitReader.seek (br : BitReader) (p : Nat) : Exec BitReader :=
  if h : p ≤ br.data.length then
    .done { br with bytePos := p, bitPos := 0, bitPos_lt := by omega, pos_le := by omega }
  else .undefined

/-- `dst[dst_pos + i] = data[byte_pos + i]`. -/
def storedByte (data : List U8) (bytePos dstPos i : Nat) (dst : Cells U8) : Exec (Cells U8) := do
  let b ← srcByte data (bytePos + i)
  dst.write (dstPos + i) b

/-- The head of `inflate_block_stored`: the length of the block. -/
def storedLength (br : BitReader) : Exec Nat := do
  if u32 (br.bytePos + 4) > br.data.length then .refused
  else
    let b0 ← srcByte br.data br.bytePos
    let b1 ← srcByte br.data (br.bytePos + 1)
    let b2 ← srcByte br.data (br.bytePos + 2)
    let b3 ← srcByte br.data (br.bytePos + 3)
    let lenv := b0.toNat ||| (b1.toNat <<< 8)
    let nlen := b2.toNat ||| (b3.toNat <<< 8)
    if ((2 ^ 32 - 1 - lenv) &&& 0xFFFF) ≠ nlen then .refused else return lenv

def inflateBlockStored (s : Inflater) : Exec Inflater := do
  let br := s.br.align
  let lenv ← storedLength br
  let bytePos := br.bytePos + 4
  if u32 (bytePos + lenv) > br.data.length then .refused
  else if u32 (s.dstPos + lenv) > s.dst.length then .refused
  else
    let dst ← Exec.loop (storedByte br.data bytePos s.dstPos) (List.range lenv) s.dst
    let br ← br.seek (bytePos + lenv)
    return { br := br, dst := dst, dstPos := s.dstPos + lenv }

/-- `dst[dst_pos + i] = dst[src_pos + i]`. -/
def copyByte (srcPos dstPos i : Nat) (dst : Cells U8) : Exec (Cells U8) := do
  let b ← dst.read (srcPos + i)
  dst.write (dstPos + i) b

/-- A back-reference, from its length symbol on. -/
def inflateCopy (dist : HuffmanTable) (s : Inflater) (lidx : Nat) : Exec Inflater := do
  let base ← (ofList lengthBase).read lidx
  let extra ← (ofList lengthExtra).read lidx
  let (more, br) ← s.br.getBits extra
  let length := base + more
  let (dsym, br) ← huffmanDecode dist br
  match dsym with
  | none => .refused
  | some dsym =>
    if dsym ≥ 30 then .refused
    else
      let base ← (ofList distBase).read dsym
      let extra ← (ofList distExtra).read dsym
      let (more, br) ← br.getBits extra
      let distance := base + more
      if br.error = true then .refused
      else if distance > s.dstPos then .refused
      else if u32 (s.dstPos + length) > s.dst.length then .refused
      else
        let dst ← Exec.loop (copyByte (s.dstPos - distance) s.dstPos) (List.range length) s.dst
        return { br := br, dst := dst, dstPos := s.dstPos + length }

/-- One round of `inflate_block_huffman`, and whether it was the last. -/
def inflateSymbol (lit dist : HuffmanTable) (s : Inflater) : Exec (Bool × Inflater) := do
  let (sym, br) ← huffmanDecode lit s.br
  match sym with
  | none => .refused
  | some sym =>
    if sym < 256 then
      if s.dstPos ≥ s.dst.length then .refused
      else do
        let dst ← s.dst.write s.dstPos (BitVec.ofNat 8 sym)
        return (false, { br := br, dst := dst, dstPos := s.dstPos + 1 })
    else if sym = 256 then return (true, { s with br := br })
    else if sym - 257 ≥ 29 then .refused
    else do
      let s ← inflateCopy dist { s with br := br } (sym - 257)
      return (false, s)

def inflateBlockHuffman (lit dist : HuffmanTable) : Nat → Inflater → Exec Inflater
  | 0, _ => .undefined
  | fuel + 1, s => do
    let (last, s) ← inflateSymbol lit dist s
    if last = true then return s else inflateBlockHuffman lit dist fuel s

/-- The tables of a block that has them. -/
def blockTables (btype : Nat) (br : BitReader) : Exec ((HuffmanTable × HuffmanTable) × BitReader) :=
  if btype = 1 then do
    let tables ← buildFixedTables
    return (tables, br)
  else readDynamicTables br

/-- One block of `inflate`, by its type. -/
def inflateBlock (btype : Nat) (s : Inflater) : Exec Inflater :=
  if btype = 0 then inflateBlockStored s
  else if btype = 1 ∨ btype = 2 then do
    let ((lit, dist), br) ← blockTables btype s.br
    inflateBlockHuffman lit dist (8 * br.data.length + 1) { s with br := br }
  else .refused

/-- The loop of `inflate`. -/
def inflateBlocks : Nat → Inflater → Exec Inflater
  | 0, _ => .undefined
  | fuel + 1, s =>
    if s.br.error = true then .refused
    else do
      let (final, br) ← s.br.getBit
      let (btype, br) ← br.getBits 2
      if br.error = true then .refused
      else
        let s ← inflateBlock btype { s with br := br }
        if final ≠ 0 then return s else inflateBlocks fuel s

/-- `inflate`: the buffer and `*out_len`. -/
def inflate (src : List U8) (dst : Cells U8) : Exec (Cells U8 × Nat) := do
  let s ← inflateBlocks (8 * src.length + 1) { br := BitReader.start src, dst := dst, dstPos := 0 }
  return (s.dst, s.dstPos)

end MinicOs
