import MinicOs.Gfx.PngChunks
import MinicOs.Inflate.Correct

/-!
# A PNG file and its two passes

The passes of `png_decode` over a file that consists of a header, other chunks and the end chunk
(`scanChunks_file`, `gatherChunks_file`): pass 1 takes the size of the picture from the header and adds the
lengths of the `IDAT` chunks, pass 2 puts their data together.
-/

namespace MinicOs

open PngFormat List Cells Exec Nat

section Walk

variable {data rest : List U8} {pos : Nat} {c : Chunk}

theorem length_chunk (c : Chunk) : c.bytes.length = c.data.length + 12 := by
  unfold Chunk.bytes
  simp only [length_append, length_be32, c.length_type]
  omega

/-- A chunk in the file, seen from its place. -/
structure Stands (data : List U8) (pos : Nat) (c : Chunk) : Prop where
  length : lengthAt data pos = c.data.length
  type : typeAt data pos = c.type
  crc : CrcAt data pos
  next : nextAt data pos = pos + c.bytes.length
  data : bytesAt data (pos + 8) c.data.length = c.data

theorem stands (h : data.drop pos = c.bytes ++ rest) (hlt : c.data.length < 2 ^ 32) : Stands data pos c := by
  have hall : data.drop pos = be32 c.data.length ++ (c.type ++ (c.data ++ (be32 (crc32 (c.type ++ c.data)).toNat ++ rest))) := by
    rw [h, Chunk.bytes]
    simp only [append_assoc]
  have hlen : lengthAt data pos = c.data.length := by
    have hs := @bytesAt_eq data [] (be32 c.data.length) _ pos hall
    rw [length_nil, add_zero] at hs
    unfold lengthAt
    rw [← length_be32 c.data.length, hs, beValue_be32 hlt]
  have htype : typeAt data pos = c.type := by
    have hs := @bytesAt_eq data (be32 c.data.length) c.type _ pos hall
    rwa [c.length_type] at hs
  have hdata : bytesAt data (pos + 8) c.data.length = c.data := by
    rw [← append_assoc] at hall
    have hs := bytesAt_eq hall
    rwa [length_append, length_be32, c.length_type] at hs
  have hbody : bytesAt data (pos + 4) (4 + c.data.length) = c.type ++ c.data := by
    rw [← append_assoc c.type] at hall
    have hs := bytesAt_eq hall
    rwa [length_append, c.length_type] at hs
  have hsum : bytesAt data (pos + 8 + c.data.length) 4 = be32 (crc32 (c.type ++ c.data)).toNat := by
    rw [← append_assoc c.type, ← append_assoc (be32 c.data.length)] at hall
    have hs := bytesAt_eq hall
    rw [length_append, length_append, length_be32, c.length_type, length_be32, ← add_assoc, ← add_assoc] at hs
    exact hs
  refine ⟨hlen, htype, ?_, ?_, hdata⟩
  · unfold CrcAt
    rw [hlen, hbody, hsum, beValue_be32 (BitVec.isLt _)]
  · unfold nextAt
    rw [hlen, length_chunk]

theorem drop_chunk (h : data.drop pos = c.bytes ++ rest) : data.drop (pos + c.bytes.length) = rest := by
  rw [← drop_drop, h, drop_left]

theorem chunk_le (h : data.drop pos = c.bytes ++ rest) (hpos : pos ≤ data.length) : pos + c.bytes.length ≤ data.length := by
  have := congrArg List.length h
  rw [length_drop, length_append] at this
  omega

theorem idatData_cons (c : Chunk) (chunks : List Chunk) :
    idatData (c :: chunks) = (if c.type = PngFormat.idat then c.data else []) ++ idatData chunks := by
  unfold idatData
  by_cases h : c.type = PngFormat.idat
  · rw [filter_cons_of_pos (by simpa using h), flatMap_cons, if_pos h]
  · rw [filter_cons_of_neg (by simpa using h), if_neg h, nil_append]

theorem length_chunks_le (chunks : List Chunk) :
    (idatData chunks).length + chunks.length ≤ (chunks.flatMap Chunk.bytes).length := by
  induction chunks with
  | nil => exact zero_le _
  | cons c chunks ih =>
    have hle : (if c.type = PngFormat.idat then c.data else []).length ≤ c.data.length := by
      split
      · exact le_refl _
      · exact zero_le _
    rw [idatData_cons, flatMap_cons, length_append, length_append, length_cons, length_chunk]
    omega

/-- The chunks from a place to the end of the file. -/
structure Tail (data : List U8) (pos : Nat) (chunks : List Chunk) : Prop where
  short : data.length < 2 ^ 31
  pos_le : pos ≤ data.length
  drop : data.drop pos = chunks.flatMap Chunk.bytes ++ trailer.bytes
  extra : ∀ c ∈ chunks, c.type ≠ ihdr ∧ c.type ≠ iend

theorem Tail.head {chunks : List Chunk} (h : Tail data pos (c :: chunks)) : Stands data pos c ∧
    pos + c.bytes.length ≤ data.length ∧ Tail data (pos + c.bytes.length) chunks ∧ c.type ≠ ihdrType ∧ c.type ≠ iendType := by
  have hdrop := h.drop
  rw [flatMap_cons, append_assoc] at hdrop
  have hle := chunk_le hdrop h.pos_le
  have hshort := h.short
  rw [length_chunk] at hle
  refine ⟨stands hdrop (by omega), by rw [length_chunk]; exact hle, ⟨h.short, ?_, drop_chunk hdrop,
    fun c' hc' => h.extra c' (mem_cons_of_mem _ hc')⟩, h.extra c mem_cons_self⟩
  rw [length_chunk]
  exact hle

theorem Tail.trailer (h : Tail data pos []) : Stands data pos trailer ∧ pos + 12 ≤ data.length := by
  have hdrop : data.drop pos = PngFormat.trailer.bytes ++ [] := by
    rw [append_nil]
    exact h.drop
  exact ⟨stands hdrop (by decide), by simpa [length_chunk, PngFormat.trailer] using chunk_le hdrop h.pos_le⟩

/-- **Pass 1** from the chunk after the header on: the lengths of the `IDAT` chunks are added. -/
theorem scanChunks_tail {chunks : List Chunk} (h : Tail data pos chunks) {fuel : Nat} (hfuel : chunks.length < fuel)
    {s : Scan} (hlt : s.idatTotal + (idatData chunks).length < 2 ^ 32) :
    scanChunks data fuel pos s = .done { s with idatTotal := s.idatTotal + (idatData chunks).length } := by
  induction chunks generalizing pos fuel s with
  | nil =>
    obtain ⟨fuel, rfl⟩ : ∃ k, fuel = k + 1 := ⟨fuel - 1, by simp at hfuel; omega⟩
    obtain ⟨hs, hle⟩ := h.trailer
    rw [scanChunks_eq h.short (by omega), if_neg (by rw [hs.next, length_chunk]; exact not_lt.mpr hle),
      if_neg (not_not.mpr hs.crc), hs.type, if_neg (by decide), if_neg (by decide), if_pos (by decide)]
    rfl
  | cons c chunks ih =>
    rw [length_cons] at hfuel
    obtain ⟨fuel, rfl⟩ : ∃ k, fuel = k + 1 := ⟨fuel - 1, by omega⟩
    obtain ⟨hs, hle, htail, hihdr, hiend⟩ := h.head
    rw [idatData_cons, length_append] at hlt
    rw [scanChunks_eq h.short (by rw [length_chunk] at hle; omega), if_neg (by rw [hs.next]; exact not_lt.mpr hle),
      if_neg (not_not.mpr hs.crc), hs.type, if_neg hihdr, hs.next, hs.length, idatData_cons, length_append]
    by_cases hidat : c.type = idatType
    · rw [if_pos (show c.type = PngFormat.idat from hidat)] at hlt ⊢
      rw [if_pos hidat, u32_eq (by omega), ih htail (by omega) (by simpa [add_assoc] using hlt)]
      simp only [add_assoc]
    · rw [if_neg (show ¬ c.type = PngFormat.idat from hidat)] at hlt ⊢
      rw [if_neg hidat, if_neg hiend, ih htail (by omega) (by simpa using hlt)]
      simp

/-- **Pass 2** from the chunk after the header on: the `IDAT` data is put together. -/
theorem gatherChunks_tail {chunks : List Chunk} (h : Tail data pos chunks) {fuel : Nat} (hfuel : chunks.length < fuel)
    {total : Nat} (htotal : total < 2 ^ 32) {xs : List U8} (hroom : xs.length + (idatData chunks).length ≤ total) :
    gatherChunks data fuel pos (fill (unset total) xs, xs.length) =
      .done (fill (unset total) (xs ++ idatData chunks), (xs ++ idatData chunks).length) := by
  induction chunks generalizing pos fuel xs with
  | nil =>
    obtain ⟨fuel, rfl⟩ : ∃ k, fuel = k + 1 := ⟨fuel - 1, by simp at hfuel; omega⟩
    obtain ⟨hs, hle⟩ := h.trailer
    rw [gatherChunks_eq h.short (by rw [hs.next, length_chunk]; exact hle), hs.type, if_neg (by decide),
      if_pos (by decide)]
    simp [idatData]
  | cons c chunks ih =>
    rw [length_cons] at hfuel
    obtain ⟨fuel, rfl⟩ : ∃ k, fuel = k + 1 := ⟨fuel - 1, by omega⟩
    obtain ⟨hs, hle, htail, -, hiend⟩ := h.head
    rw [idatData_cons, length_append] at hroom
    rw [gatherChunks_eq h.short (by rw [hs.next]; exact hle), hs.type, hs.next, hs.length, idatData_cons]
    by_cases hidat : c.type = idatType
    · rw [if_pos (show c.type = PngFormat.idat from hidat)] at hroom ⊢
      rw [length_chunk] at hle
      rw [if_pos hidat, copyIdat_eq (by omega) (by omega) htotal, hs.data, done_bind, u32_eq (by simp only []; omega),
        ← length_append, ih htail (by omega) (by rw [length_append]; omega), append_assoc]
    · rw [if_neg (show ¬ c.type = PngFormat.idat from hidat)] at hroom ⊢
      rw [if_neg hidat, if_neg hiend, ih htail (by omega) (by simpa using hroom), nil_append]

/-- What a header says of the picture. -/
structure Dims where
  width : Nat
  height : Nat
  colorType : U8

/-- A header that the decoder takes: RGB or RGBA, and at least one pixel. -/
structure Dims.Accepted (d : Dims) : Prop where
  width_lt : d.width < 2 ^ 32
  height_lt : d.height < 2 ^ 32
  pos : 0 < d.width ∧ 0 < d.height
  type : d.colorType = 2 ∨ d.colorType = 6

theorem readIhdr_eq {width height cdata : Nat} {colorType : U8}
    (hdata : bytesAt data cdata 13 = (headerOf width height colorType).data) (hsize : Dims.Accepted ⟨width, height, colorType⟩)
    (s : Scan) : readIhdr data cdata 13 s = .done ⟨width, height, colorType, true, s.idatTotal⟩ := by
  obtain ⟨hwidth, hheight, ⟨hwpos, hhpos⟩, htype⟩ := hsize
  simp only at hwidth hheight hwpos hhpos htype
  have hbyte : ∀ i < 13, ∀ b, (headerOf width height colorType).data[i]? = some b → srcByte data (cdata + i) = .done b := by
    intro i hi b hb
    refine srcByte_of_getElem? ?_
    rw [← getElem?_bytesAt data cdata hi, hdata, hb]
  have hw : readU32be (srcByte data) cdata = .done width := by
    refine (@readU32be_of (srcByte data) cdata _ _ _ _ (hbyte 0 (by omega) _ rfl) (hbyte 1 (by omega) _ rfl)
      (hbyte 2 (by omega) _ rfl) (hbyte 3 (by omega) _ rfl)).trans ?_
    exact congrArg Exec.done (beValue_be32 hwidth)
  have hh : readU32be (srcByte data) (cdata + 4) = .done height := by
    rw [readU32be_of (hbyte 4 (by omega) _ rfl) (hbyte 5 (by omega) _ rfl) (hbyte 6 (by omega) _ rfl)
      (hbyte 7 (by omega) _ rfl)]
    exact congrArg Exec.done (beValue_be32 hheight)
  unfold readIhdr
  rw [if_neg (by simp), hw, hh, hbyte 8 (by omega) 8 rfl, hbyte 9 (by omega) _ rfl, hbyte 10 (by omega) 0 rfl,
    hbyte 11 (by omega) 0 rfl, hbyte 12 (by omega) 0 rfl]
  simp only [done_bind]
  rw [if_neg (by decide), if_neg (by tauto), if_neg (by decide), if_neg (by omega)]
  rfl

end Walk

/-! ## The file -/

section File

variable {d : Dims} {chunks : List Chunk}

/-- The file with these dimensions and chunks. -/
def Dims.file (d : Dims) (chunks : List Chunk) : List U8 := fileOf (headerOf d.width d.height d.colorType) chunks

/-- What `png_decode` makes of the `IDAT` data after the passes. -/
def Dims.decode (d : Dims) (idat : List U8) : Exec Image := do
  let bpp := bytesPerPixel d.colorType
  let raw ← inflateIdat ⟨true, true, true⟩ (ofList idat) idat.length (u32 (d.height * u32 (1 + bpp * d.width)))
  let raw ← defilter raw d.width d.height bpp
  let pixels ← count d.height (unpackRow raw d.width bpp (u32 (bpp * d.width)))
    (unset (u32 (d.width * d.height * 4) / 4))
  return ⟨d.width, d.height, pixels⟩

section

variable (hextra : ∀ c ∈ chunks, c.type ≠ ihdr ∧ c.type ≠ iend) (hd : d.Accepted)
  (hsize : (d.file chunks).length < 2 ^ 31)
include hextra hsize

theorem file_tail : Stands (d.file chunks) 8 (headerOf d.width d.height d.colorType) ∧ Tail (d.file chunks) (8 + 25) chunks ∧
      (idatData chunks).length + chunks.length + 34 < (d.file chunks).length := by
  have hdrop : (d.file chunks).drop 8 = (headerOf d.width d.height d.colorType).bytes ++
      (chunks.flatMap Chunk.bytes ++ trailer.bytes) := by
    rfl
  have hlen : 8 ≤ (d.file chunks).length := by
    unfold Dims.file fileOf signature
    simp only [length_append, length_cons]
    omega
  have hle := chunk_le hdrop hlen
  have hnext := drop_chunk hdrop
  have h25 : (headerOf d.width d.height d.colorType).bytes.length = 25 := rfl
  refine ⟨stands hdrop (show 13 < 2 ^ 32 by decide), ⟨hsize, hle, hnext, hextra⟩, ?_⟩
  have hchunks := length_chunks_le chunks
  have := congrArg List.length hnext
  rw [length_drop, length_append, length_chunk trailer] at this
  omega

include hd in
theorem scanChunks_file : scanChunks (d.file chunks) ((d.file chunks).length + 1) 8 {} =
      .done ⟨d.width, d.height, d.colorType, true, (idatData chunks).length⟩ := by
  obtain ⟨hs, htail, hfuel⟩ := file_tail hextra hsize
  have hnext : nextAt (d.file chunks) 8 = 8 + 25 := hs.next
  have htype : typeAt (d.file chunks) 8 = ihdrType := hs.type
  rw [scanChunks_eq hsize (by omega), hnext, if_neg (by omega), if_neg (not_not.mpr hs.crc), htype, if_pos rfl, hs.length,
    show (headerOf d.width d.height d.colorType).data.length = 13 from rfl, readIhdr_eq hs.data hd, done_bind,
    scanChunks_tail htail (by omega) (by simp only []; omega), zero_add]

theorem gatherChunks_file : gatherChunks (d.file chunks) ((d.file chunks).length + 1) 8 (unset (idatData chunks).length, 0) =
      .done (ofList (idatData chunks), (idatData chunks).length) := by
  obtain ⟨hs, htail, hfuel⟩ := file_tail hextra hsize
  have hnext : nextAt (d.file chunks) 8 = 8 + 25 := hs.next
  have htype : typeAt (d.file chunks) 8 = ihdrType := hs.type
  have hgather := @gatherChunks_tail _ _ _ htail (d.file chunks).length (by omega) (idatData chunks).length (by omega) []
    (by simp)
  rw [gatherChunks_eq hsize (by rw [hnext]; omega), htype, if_neg (by decide), if_neg (by decide), hnext]
  refine hgather.trans ?_
  rw [nil_append, fill_eq_ofList (length_unset _).symm]

include hd in
theorem pngDecode_file (hidat : 6 ≤ (idatData chunks).length) :
    pngDecode ⟨true, true, true⟩ (d.file chunks) = d.decode (idatData chunks) := by
  obtain ⟨-, -, hlen⟩ := file_tail hextra hsize
  have hsig : bytesAt (d.file chunks) 0 pngSignature.length = pngSignature := by
    rfl
  unfold pngDecode
  rw [if_neg (by omega), bytesAre_eq (by rw [show pngSignature.length = 8 from rfl]; omega), done_bind, hsig,
    if_pos (by simp), scanChunks_file hextra hd hsize, done_bind]
  rw [if_neg (by simp; omega), if_neg (by simp), gatherChunks_file hextra hsize, done_bind]
  rfl

end

end File

end MinicOs
