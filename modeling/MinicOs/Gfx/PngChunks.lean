import MinicOs.Gfx.Png
import MinicOs.Gfx.PngFormat
import MinicOs.Inflate.Safety
import MinicOs.Lib.BigEndian

/-!
# The chunks of a PNG file

What the two passes of `png_decode` do with a chunk, in terms of the bytes of the file. Inside the file a field
is read as it stands (`readU32be_eq`, `bytesAre_eq`), and the table-driven `crc32_of` is the checksum of the
format (`crc32Of_eq`). A round of a pass is then an equation over the length, the type and the checksum of the
chunk at the current place (`scanChunks_eq`, `gatherChunks_eq`), for any file.
-/

namespace MinicOs

open List Exec Cells

open PngFormat (crc32 be32)

/-! ## Fields -/

theorem length_be32 (v : Nat) : (be32 v).length = 4 := rfl

theorem beValue_be32 {v : Nat} (h : v < 2 ^ 32) : beValue (be32 v) = v := by
  simp only [beValue, be32, foldl_cons, foldl_nil, BitVec.toNat_ofNat]
  omega

theorem readU32be_of {byte : Nat → Exec U8} {p : Nat} {b0 b1 b2 b3 : U8} (h0 : byte p = .done b0)
    (h1 : byte (p + 1) = .done b1) (h2 : byte (p + 2) = .done b2) (h3 : byte (p + 3) = .done b3) :
    readU32be byte p = .done (beValue [b0, b1, b2, b3]) := by
  unfold readU32be
  rw [h0, h1, h2, h3, ← or_bytes]
  rfl

variable {data : List U8} {p : Nat}

theorem readU32be_eq (h : p + 4 ≤ data.length) : readU32be (srcByte data) p = .done (beValue (bytesAt data p 4)) := by
  rw [readU32be_of (srcByte_eq (by omega)) (srcByte_eq (by omega)) (srcByte_eq (by omega)) (srcByte_eq (by omega))]
  simp (disch := omega) only [bytesAt_succ]
  rfl

theorem bytesAre_eq {name : List U8} (h : p + name.length ≤ data.length) :
    bytesAre data p name = .done (decide (bytesAt data p name.length = name)) := by
  induction name generalizing p with
  | nil => simp [bytesAre, bytesAt]
  | cons c name ih =>
    rw [length_cons] at h ⊢
    rw [bytesAre, srcByte_eq (by omega), done_bind, bytesAt_succ (by omega)]
    by_cases hc : data.get ⟨p, by omega⟩ = c
    · rw [if_pos hc, ih (by omega)]
      simp only [hc, cons.injEq, true_and]
    · rw [if_neg hc]
      simp only [cons.injEq, hc, false_and, decide_false, pure_eq]

/-! ## The checksum -/

theorem crcStep_eq (c : BitVec 32) : crcStep c = Crc.shift 0xEDB88320#32 c := by
  unfold crcStep Crc.shift
  have hbit : c &&& 1#32 ≠ 0#32 ↔ c.getLsbD 0 = true := by
    rw [BitVec.and_one_eq_setWidth_ofBool_getLsbD]
    cases c.getLsbD 0 <;> decide
  simp only [hbit]

theorem crcEntry_eq (n : Nat) : crcEntry n = Crc.shifts 0xEDB88320#32 8 (BitVec.ofNat 32 n) := by
  simp only [crcEntry, crcStep_eq]
  rfl

variable {n : Nat}

theorem crcTable_read (h : n < 256) : crcTable.read n = .done (crcEntry n) := by
  refine read_ofList ?_
  rw [getElem?_map, getElem?_range h]
  rfl

/-- A byte enters the remainder through the table. -/
theorem crcByte_eq {i : Nat} (h : p + i < data.length) (c : BitVec 32) :
    crcByte data p i c = .done (Crc.feedBits 0xEDB88320#32 c (byteBits (data.get ⟨p + i, h⟩))) := by
  unfold crcByte
  rw [srcByte_eq h, done_bind]
  generalize data.get ⟨p + i, h⟩ = b
  have hvalue : BitVec.ofNat 32 (lsbValue (byteBits b)) = b.setWidth 32 := by
    rw [byteBits_eq, lsbValue_lsbBits b.isLt, BitVec.ofNat_toNat]
  have hlt : (Crc.low 8 (c ^^^ b.setWidth 32)).toNat < 256 := by
    exact Nat.lt_of_le_of_lt Nat.and_le_right (by decide)
  rw [Crc.feedBits_eq_table _ c (by simp), length_byteBits, hvalue]
  change (crcTable.read (Crc.low 8 (c ^^^ b.setWidth 32)).toNat >>= fun entry => _) = _
  rw [crcTable_read hlt, done_bind, crcEntry_eq, BitVec.ofNat_toNat, BitVec.setWidth_eq]
  rfl

/-- **`crc32_of`** is the checksum of the format. -/
theorem crc32Of_eq (h : p + n ≤ data.length) : crc32Of data p n = .done (crc32 (bytesAt data p n)) := by
  let remainder := fun i => Crc.feedBits 0xEDB88320#32 (BitVec.allOnes 32) (bitsOf (bytesAt data p i))
  have hstep : ∀ i < n, crcByte data p i (remainder i) = .done (remainder (i + 1)) := by
    intro i hi
    rw [crcByte_eq (by omega)]
    simp only [remainder, ← bytesAt_concat (show p + i < data.length by omega), bitsOf_append, bitsOf_cons, bitsOf_nil, append_nil, Crc.feedBits,
      foldl_append]
  have hloop := count_eq remainder hstep
  change (Exec.count n (crcByte data p) (remainder 0) >>= fun c => _) = _
  rw [hloop, done_bind]
  exact congrArg Exec.done BitVec.xor_allOnes

/-! ## A round of a pass -/

section Rounds

variable {data : List U8} {pos : Nat}

def lengthAt (data : List U8) (pos : Nat) : Nat := beValue (bytesAt data pos 4)

def typeAt (data : List U8) (pos : Nat) : List U8 := bytesAt data (pos + 4) 4

/-- The checksum of the chunk at `pos` is right. -/
def CrcAt (data : List U8) (pos : Nat) : Prop :=
  (crc32 (bytesAt data (pos + 4) (4 + lengthAt data pos))).toNat = beValue (bytesAt data (pos + 8 + lengthAt data pos) 4)

instance (data : List U8) (pos : Nat) : Decidable (CrcAt data pos) := inferInstanceAs (Decidable (_ = _))

/-- The place after the chunk at `pos`. -/
def nextAt (data : List U8) (pos : Nat) : Nat := pos + (lengthAt data pos + 12)

theorem readLength_eq (hpos : pos + 8 ≤ data.length) : readU32be (srcByte data) pos = .done (lengthAt data pos) :=
  readU32be_eq (by omega)

theorem chunkTypeIs_eq {name : List U8} (hname : name.length = 4) (hdata : data.length < 2 ^ 31)
    (hpos : pos + 8 ≤ data.length) : chunkTypeIs data (u32 (pos + 4)) name = .done (decide (typeAt data pos = name)) := by
  unfold chunkTypeIs
  rw [u32_eq (by omega), bytesAre_eq (by omega), hname]
  rfl

/-- **A round of pass 1**, on any file. -/
theorem scanChunks_eq (hdata : data.length < 2 ^ 31) (hpos : pos + 8 ≤ data.length) (fuel : Nat) (s : Scan) :
    scanChunks data (fuel + 1) pos s = if nextAt data pos > data.length then .refused else if ¬ CrcAt data pos then .refused
      else if typeAt data pos = ihdrType then
        readIhdr data (pos + 8) (lengthAt data pos) s >>= scanChunks data fuel (nextAt data pos)
      else if typeAt data pos = idatType then
        scanChunks data fuel (nextAt data pos) { s with idatTotal := u32 (s.idatTotal + lengthAt data pos) }
      else if typeAt data pos = iendType then .done s
      else scanChunks data fuel (nextAt data pos) s := by
  have hfits : u32 (pos + 8) + lengthAt data pos + 4 = nextAt data pos := by
    unfold nextAt
    rw [u32_eq (by omega)]
    omega
  rw [scanChunks, if_pos (by rw [u32_eq (by omega)]; exact hpos), readLength_eq hpos, done_bind]
  simp only [hfits]
  by_cases hnext : nextAt data pos > data.length
  · rw [if_pos hnext, if_pos hnext]
  have hle : pos + (lengthAt data pos + 12) ≤ data.length := Nat.not_lt.mp hnext
  have hcrc : u32 (pos + 8 + lengthAt data pos) = pos + 8 + lengthAt data pos := u32_eq (by omega)
  have hlen : u32 (4 + lengthAt data pos) = 4 + lengthAt data pos := u32_eq (by omega)
  have hmove : u32 (pos + 8 + lengthAt data pos + 4) = nextAt data pos := by
    unfold nextAt
    rw [u32_eq (by omega)]
    omega
  rw [if_neg hnext, if_neg hnext]
  change (readU32be (srcByte data) (u32 (pos + 8 + lengthAt data pos)) >>= fun stored =>
    crc32Of data (u32 (pos + 4)) (u32 (4 + lengthAt data pos)) >>= fun crc => _) = _
  rw [hcrc, readU32be_eq (by omega), done_bind, hlen, u32_eq (show pos + 4 < 2 ^ 32 by omega),
    crc32Of_eq (by omega), done_bind]
  change (if ¬ CrcAt data pos then _ else _) = _
  by_cases hok : CrcAt data pos
  · rw [if_neg (not_not.mpr hok), if_neg (not_not.mpr hok), ← u32_eq (show pos + 4 < 2 ^ 32 by omega),
      chunkTypeIs_eq rfl hdata hpos, chunkTypeIs_eq rfl hdata hpos, chunkTypeIs_eq rfl hdata hpos]
    simp only [done_bind, decide_eq_true_eq, hmove, u32_eq (show pos + 8 < 2 ^ 32 by omega), pure_eq]
  · rw [if_pos hok, if_pos hok]

/-- **A round of pass 2**, at a chunk that lies inside the file. -/
theorem gatherChunks_eq (hdata : data.length < 2 ^ 31) (hnext : nextAt data pos ≤ data.length) (fuel : Nat)
    (s : Cells U8 × Nat) : gatherChunks data (fuel + 1) pos s = if typeAt data pos = idatType then
        Exec.count (lengthAt data pos) (copyIdat data (pos + 8) s.2) s.1 >>= fun idat =>
          gatherChunks data fuel (nextAt data pos) (idat, u32 (s.2 + lengthAt data pos))
      else if typeAt data pos = iendType then .done s else gatherChunks data fuel (nextAt data pos) s := by
  have hle : pos + (lengthAt data pos + 12) ≤ data.length := hnext
  have hpos : pos + 8 ≤ data.length := by omega
  have hmove : u32 (pos + 8 + lengthAt data pos + 4) = nextAt data pos := by
    unfold nextAt
    rw [u32_eq (by omega)]
    omega
  rw [gatherChunks, if_pos (by rw [u32_eq (by omega)]; exact hpos), readLength_eq hpos, done_bind]
  simp only [chunkTypeIs_eq (show idatType.length = 4 from rfl) hdata hpos,
    chunkTypeIs_eq (show iendType.length = 4 from rfl) hdata hpos, done_bind, decide_eq_true_eq, hmove, u32_eq (show pos + 8 < 2 ^ 32 by omega), pure_eq]

/-- Pass 2 copies the bytes of a chunk behind those it has. -/
theorem copyIdat_eq {cdata : Nat} (hfits : cdata + n ≤ data.length) {total : Nat} {xs : List U8}
    (hroom : xs.length + n ≤ total) (htotal : total < 2 ^ 32) :
    Exec.count n (copyIdat data cdata xs.length) (fill (unset total) xs) =
      .done (fill (unset total) (xs ++ bytesAt data cdata n)) := by
  have hstep : ∀ i < n, copyIdat data cdata xs.length i (fill (unset total) (xs ++ bytesAt data cdata i)) =
      .done (fill (unset total) (xs ++ bytesAt data cdata (i + 1))) := by
    intro i hi
    have hlen : (xs ++ bytesAt data cdata i).length = xs.length + i := by
      rw [length_append, length_bytesAt (by omega)]
    unfold copyIdat
    rw [srcByte_eq (by omega), done_bind, u32_eq (by omega), ← hlen,
      Cells.write_fill _ (by rw [hlen, Cells.length_unset]; omega), append_assoc, bytesAt_concat (by omega)]
  have hloop := count_eq (fun i => fill (unset total) (xs ++ bytesAt data cdata i)) hstep
  simpa [bytesAt] using hloop

end Rounds

end MinicOs
