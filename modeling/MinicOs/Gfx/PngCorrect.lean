import MinicOs.Gfx.PngFile
import MinicOs.Gfx.PngZlib

/-!
# PNG decoding inverts PNG encoding

Of every file `png_decode` gives back the picture (`pngDecode_correct`), whatever the encoder chose: the filter
of each row, the DEFLATE stream, how the stream is cut into chunks and what other chunks there are.
-/

namespace MinicOs

open PngFormat List Nat

namespace PngFormat.Png

variable (p : Png)

def zlib : List U8 := zlibOf p.cmf p.flg p.packed (adler32 p.stream.expand)

def rows : List (Filter × List Pixel) := p.filters.zip p.picture.rows

theorem length_rows : p.rows.length = p.picture.height := by
  unfold rows
  rw [length_zip, p.length_filters]
  exact min_self _

theorem length_row : ∀ r ∈ p.rows, r.2.length = p.picture.width := fun r hr =>
  p.picture.length_row r.2 (of_mem_zip hr).2

theorem expand_eq : p.stream.expand = scanlines (bpp p.picture.alpha) [] (p.rows.map (bytesOfRow p.picture.alpha)) := by
  rw [p.expand_stream]
  rw [zip_map_right]
  rfl

theorem coloursOf_rows : coloursOf p.picture.alpha p.rows = p.picture.colours := by
  unfold coloursOf rows Picture.colours
  have hmap : p.picture.rows = (p.filters.zip p.picture.rows).map Prod.snd :=
    (map_snd_zip (le_of_eq p.length_filters.symm)).symm
  conv_rhs => rw [hmap, flatMap_map]

/-- What the header says. -/
def dims : Dims := ⟨p.picture.width, p.picture.height, p.picture.colorType⟩

theorem bytes_eq : p.bytes = p.dims.file p.chunks := rfl

theorem idatData_chunks : idatData p.chunks = p.zlib := p.chunks_idat

theorem length_zlib : p.zlib.length = p.packed.length + 6 := length_zlibOf ..

end PngFormat.Png

section Decode

variable (p : Png)

/-- **PNG decoding inverts PNG encoding.** -/
theorem pngDecode_correct (hraw : p.picture.height * (1 + bpp p.picture.alpha * p.picture.width) < 2 ^ 32)
    (hpixels : 4 * p.picture.width * p.picture.height < 2 ^ 32) (hsize : p.bytes.length < 2 ^ 31) :
    pngDecode ⟨true, true, true⟩ p.bytes = .done ⟨p.picture.width, p.picture.height, Cells.ofList p.picture.colours⟩ := by
  have hwidth := p.picture.width_pos
  have hheight : 0 < p.picture.height := length_pos_of_ne_nil p.picture.rows_ne_nil
  have hbpp : 0 < bpp p.picture.alpha := by cases p.picture.alpha <;> decide
  have hrows := p.length_rows
  have hbytes : ∀ r ∈ p.rows.map (bytesOfRow p.picture.alpha), r.2.length = bpp p.picture.alpha * p.picture.width := by
    intro r hr
    obtain ⟨r', hr', rfl⟩ := mem_map.mp hr
    rw [bytesOfRow, length_rowBytes, p.length_row r' hr']
  have hexpand : p.stream.expand.length = p.picture.height * (1 + bpp p.picture.alpha * p.picture.width) := by
    rw [p.expand_eq, length_scanlines hbytes, length_map, hrows]
  -- Nothing wraps.
  have hone : 1 * (1 + bpp p.picture.alpha * p.picture.width) ≤
      p.picture.height * (1 + bpp p.picture.alpha * p.picture.width) := mul_le_mul_right _ hheight
  have hrow : p.picture.width ≤ bpp p.picture.alpha * p.picture.width := Nat.le_mul_of_pos_left _ hbpp
  have hcol : p.picture.height ≤ p.picture.height * (1 + bpp p.picture.alpha * p.picture.width) :=
    Nat.le_mul_of_pos_right _ (by omega)
  have hsizes : 4 * p.picture.width * p.picture.height = p.picture.width * p.picture.height * 4 := by ring
  have hcomm := mul_comm p.picture.width p.picture.height
  have htype : bytesPerPixel p.dims.colorType = bpp p.picture.alpha := by
    unfold Png.dims Picture.colorType
    cases p.picture.alpha <;> rfl
  have hd : p.dims.Accepted := by
    refine ⟨?_, ?_, ⟨hwidth, hheight⟩, ?_⟩
    · exact lt_of_le_of_lt (le_trans hrow (by omega)) hraw
    · exact lt_of_le_of_lt hcol hraw
    · unfold Png.dims Picture.colorType
      cases p.picture.alpha
      · exact Or.inl rfl
      · exact Or.inr rfl
  have hrawSize : u32 (p.picture.height * u32 (1 + bpp p.picture.alpha * p.picture.width)) = p.stream.expand.length := by
    rw [@u32_eq (1 + _) (by omega), u32_eq hraw, hexpand]
  have hdefilter := defilter_scanlines hbpp hbytes
    (by rw [← length_pos_iff_ne_nil, length_map, hrows]; exact hheight)
    (by rw [length_map, hrows]; exact hraw)
  rw [← p.expand_eq, length_map, hrows] at hdefilter
  have hunpack := unpackRows_eq p.length_row (by rw [hrows]; exact hraw) (by rw [hrows]; omega)
  rw [hrows, p.coloursOf_rows] at hunpack
  have hdecode := @pngDecode_file p.dims _ p.extra hd hsize (by rw [p.idatData_chunks, p.length_zlib]; omega)
  rw [← p.bytes_eq, p.idatData_chunks, Dims.decode, htype] at hdecode
  rw [hdecode]
  change (inflateIdat _ _ _ (u32 (p.picture.height * u32 (1 + bpp p.picture.alpha * p.picture.width))) >>= _) = _
  have hlen := (@file_tail p.dims _ p.extra hsize).2.2
  rw [p.idatData_chunks, ← p.bytes_eq, p.length_zlib] at hlen
  have hinflate : inflateIdat _ (Cells.ofList p.zlib) _ _ = _ :=
    inflateIdat_stream p.deflate p.noDict p.written (by omega) (by rw [hexpand]; exact hraw)
  rw [hrawSize, p.length_zlib, hinflate, Exec.done_bind]
  change (defilter _ p.picture.width p.picture.height _ >>= _) = _
  rw [hdefilter, Exec.done_bind]
  change (Exec.count p.picture.height (unpackRow _ p.picture.width _ (u32 (bpp p.picture.alpha * p.picture.width)))
      (Cells.unset (u32 (p.picture.width * p.picture.height * 4) / 4)) >>= _) = _
  rw [@u32_eq (p.picture.width * p.picture.height * 4) (by omega), Nat.mul_div_cancel _ (by omega), hcomm, u32_eq (by omega),
    hunpack]
  rfl

end Decode

/-- Two RGBA pixels, one above the other, the upper one with no opacity; the rows under the filters `Sub` and `Up`
in a stored block, the zlib stream in two `IDAT` chunks with a text chunk between them. -/
def twoPixels : Png where
  picture :=
    { alpha := true
      width := 1
      rows := [[⟨1, 2, 3, 0⟩], [⟨4, 5, 6, 7⟩]]
      length_row := by decide
      width_pos := by decide
      rows_ne_nil := by decide }
  filters := [.sub, .up]
  length_filters := rfl
  cmf := 0x78
  flg := 0x01
  deflate := rfl
  noDict := rfl
  stream :=
    { blocks := [.stored (List.replicate 5 false) [1, 1, 2, 3, 0, 2, 3, 3, 3, 7]]
      ne_nil := by simp
      valid := ⟨⟨by decide, by decide, by decide⟩, trivial⟩ }
  expand_stream := by decide
  packed := [0x01, 0x0a, 0x00, 0xf5, 0xff, 1, 1, 2, 3, 0, 2, 3, 3, 3, 7]
  written := ⟨[], by decide, by decide +kernel⟩
  chunks :=
    [⟨PngFormat.idat, [0x78, 0x01, 0x01, 0x0a], rfl⟩, ⟨[0x74, 0x45, 0x58, 0x74], [0x61, 0x00, 0x62], rfl⟩,
      ⟨PngFormat.idat, [0x00, 0xf5, 0xff, 1, 1, 2, 3, 0, 2, 3, 3, 3, 7, 0x00, 0x6e, 0x00, 0x1a], rfl⟩]
  extra := by decide
  chunks_idat := by decide +kernel

theorem pngDecode_correct_twoPixels :
    (twoPixels.picture.height * (1 + bpp twoPixels.picture.alpha * twoPixels.picture.width) < 2 ^ 32 ∧
        4 * twoPixels.picture.width * twoPixels.picture.height < 2 ^ 32 ∧ twoPixels.bytes.length < 2 ^ 31) ∧
      pngDecode ⟨true, true, true⟩ twoPixels.bytes = .done ⟨1, 2, Cells.ofList [0xFFFFFFFF, 0x00040506]⟩ :=
  ⟨by decide, pngDecode_correct twoPixels (by decide) (by decide) (by decide)⟩

end MinicOs
