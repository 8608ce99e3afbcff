import MinicOs.Gfx.PngBounds
import MinicOs.Gfx.PngZlib

/-!
# PNG dimensions that do not fit

For all dimensions that the decoder takes but whose buffer sizes wrap there is a file on which `png_decode` leaves a
buffer (`exists_overflow`), so that the condition of `pngDecode_sound` cannot be weakened: `pngDecode_bounds`.

The file holds as many zeros as the wrapped size asks for. `inflate` and the checksums are content with it; `defilter`
and the loop over the pixels then run over the dimensions themselves, and each of their accesses that is inside its
buffer says something of the dimensions (`Exec.Checks`). Together they say that the sizes did not wrap
(`fits_of_accesses`).
-/

namespace MinicOs

open PngFormat Rfc1951 List Cells Exec Nat

/-! ## A stream of zeros -/

/-- Elements that expand to zeros. -/
def zeroItems : Nat → List Item
  | 0 => []
  | n + 1 => .literal 0 :: (List.replicate (n / 258) (.copy 258 1) ++ List.replicate (n % 258) (.literal 0))

variable {n : Nat}

section Zeros

/-- An element that adds zeros to zeros. -/
structure AddsZeros (item : Item) (n : Nat) : Prop where
  valid : ∀ m, 0 < m → item.Valid fixedLit fixedDist (List.replicate m 0)
  expand : ∀ m, 0 < m → item.expand (List.replicate m 0) = List.replicate (m + n) 0

theorem literal_addsZeros : AddsZeros (.literal 0) 1 where
  valid _ _ := show fixedLit.getD 0 0 ≠ 0 by decide +kernel
  expand m _ := by
    rw [Item.expand, replicate_succ']

theorem copy_addsZeros : AddsZeros (.copy 258 1) 258 where
  valid m hm := ⟨by decide, by decide, by rw [length_replicate]; exact hm, by decide +kernel, by decide +kernel⟩
  expand m hm := by
    have hback : copyBack (List.replicate m 0) 258 1 = List.replicate 258 0 := by
      refine eq_replicate_iff.mpr ⟨by rw [copyBack, length_map, length_range], fun b hb => ?_⟩
      obtain ⟨i, -, rfl⟩ := mem_map.mp hb
      rw [mod_one, add_zero, length_replicate, getD_eq_getElem _ _ (by rw [length_replicate]; omega),
        getElem_replicate]
    rw [Item.expand, hback, replicate_append_replicate]

theorem AddsZeros.many {item : Item} (h : AddsZeros item n) (k : Nat) (rest : List Item) {m : Nat} (hm : 0 < m) :
    (ItemsValid fixedLit fixedDist (List.replicate (m + k * n) 0) rest →
      ItemsValid fixedLit fixedDist (List.replicate m 0) (List.replicate k item ++ rest)) ∧
    expandItems (List.replicate m 0) (List.replicate k item ++ rest) = expandItems (List.replicate (m + k * n) 0) rest := by
  induction k generalizing m with
  | zero => simp
  | succ k ih =>
    obtain ⟨hvalid, hexpand⟩ := @ih (m + n) (by omega)
    have hsum : m + n + k * n = m + (k + 1) * n := by ring
    rw [hsum] at hvalid hexpand
    rw [replicate_succ, cons_append]
    constructor
    · intro hrest
      refine ⟨h.valid m hm, ?_⟩
      rw [h.expand m hm]
      exact hvalid hrest
    · rw [← hexpand]
      unfold expandItems
      rw [foldl_cons, h.expand m hm]

theorem zeroItems_spec (n : Nat) :
    ItemsValid fixedLit fixedDist [] (zeroItems n) ∧ expandItems [] (zeroItems n) = List.replicate n 0 := by
  cases n with
  | zero => exact ⟨trivial, rfl⟩
  | succ n =>
    have hcopies := copy_addsZeros.many (n / 258) (List.replicate (n % 258) (.literal 0)) (show 0 < 1 by omega)
    have hliterals := literal_addsZeros.many (n % 258) [] (show 0 < 1 + n / 258 * 258 by omega)
    rw [append_nil] at hliterals
    have hsum : 1 + n / 258 * 258 + n % 258 * 1 = n + 1 := by omega
    rw [hsum] at hliterals
    refine ⟨⟨show fixedLit.getD 0 0 ≠ 0 by decide +kernel, hcopies.1 (hliterals.1 trivial)⟩, ?_⟩
    exact hcopies.2.trans hliterals.2

theorem length_literalBits : ((Item.literal 0).bits fixedLit fixedDist).length = 8 := by decide +kernel

theorem length_copyBits : ((Item.copy 258 1).bits fixedLit fixedDist).length = 13 := by decide +kernel

/-- The elements of fewer than `2 ^ 32` zeros are short. -/
theorem length_zeroItems (hn : n < 2 ^ 32) : (itemsBits fixedLit fixedDist (zeroItems n)).length < 2 ^ 28 := by
  have hend : (codeword fixedLit 256).length = 7 := by decide +kernel
  unfold itemsBits
  rw [length_append, hend]
  cases n with
  | zero => simp [zeroItems]
  | succ n =>
    rw [zeroItems, flatMap_cons, flatMap_append, length_append, length_append, length_literalBits,
      length_flatMap, length_flatMap, map_replicate, map_replicate, sum_replicate_nat,
      sum_replicate_nat, length_literalBits, length_copyBits]
    omega

def zeroStream (n : Nat) : Stream where
  blocks := [.fixed (zeroItems n)]
  ne_nil := by simp
  valid := ⟨(zeroItems_spec n).1, trivial⟩

theorem expand_zeroStream (n : Nat) : (zeroStream n).expand = List.replicate n 0 := (zeroItems_spec n).2

theorem exists_zeroStream (hn : n < 2 ^ 32) : ∃ packed, (zeroStream n).WrittenTo packed ∧ packed.length < 2 ^ 26 := by
  obtain ⟨packed, pad, hpad, hbits⟩ := exists_bytes (zeroStream n).bits
  refine ⟨packed, ⟨pad, hpad, hbits⟩, ?_⟩
  have hlen := congrArg List.length hbits
  have hitems := length_zeroItems hn
  rw [length_bitsOf, length_append, show (zeroStream n).bits = (Block.fixed (zeroItems n)).bits true from rfl,
    Block.length_bits, blockBody] at hlen
  omega

/-- **A stored block that wraps**: a stream that fills a buffer of nearly `2 ^ 32` bytes and goes on. -/
theorem exists_wrapping (hn : n < 2 ^ 32) (hwrap : 2 ^ 32 ≤ n + 65535) :
    ∃ packed : List U8, packed.length < 2 ^ 26 ∧ inflate packed (unset n) = .undefined := by
  let zeros : Block := .fixed (zeroItems n)
  let pad := List.replicate ((8 - ((zeros.bits false).length + 3) % 8) % 8) false
  let bytes : List U8 := List.replicate 65535 0
  have hbytes : bytes.length = 65535 := length_replicate
  have hitems : (zeros.bits false).length < 2 ^ 28 + 3 := by
    have hlen := length_zeroItems hn
    rw [Block.length_bits]
    change 3 + (itemsBits fixedLit fixedDist (zeroItems n)).length < _
    omega
  obtain ⟨packed, fill, hfill, hbits⟩ := exists_bytes (zeros.bits false ++ (Block.stored pad bytes).bits true)
  have hlen := congrArg List.length hbits
  rw [length_bitsOf, length_append, length_append, Block.length_bits true, blockBody, length_append,
    length_append, length_append, length_lsbBits, length_lsbBits, length_bitsOf, hbytes] at hlen
  have hpad : pad.length = (8 - ((zeros.bits false).length + 3) % 8) % 8 := length_replicate
  refine ⟨packed, by omega, ?_⟩
  rw [append_assoc] at hbits
  have hsrc : packed.length < 2 ^ 31 := by omega
  have hroom : (zeros.expand []).length = n := by
    show (expandItems [] (zeroItems n)).length = n
    rw [(zeroItems_spec n).2, length_replicate]
  have hdst : (unset n : Cells U8).length = n := length_unset n
  -- the zeros fill the buffer
  obtain ⟨br₁, hstep, h₁⟩ := @inflateBlocks_step _ packed (BitReader.start packed) (unset n) [] hsrc (by omega)
    zeros false (zeroItems_spec n).1 ⟨rfl, rfl, hbits⟩ (by omega) (8 * packed.length)
  -- the stored block wraps
  obtain ⟨br₂, hhead, h₂⟩ := inflateBlocks_head h₁ (unset n) (zeros.expand []) (8 * packed.length - 1)
  simp only [blockBody, append_assoc] at h₂
  have hstored : inflateBlock 0 (Inflater.at br₂ (unset n) (zeros.expand [])) = .undefined :=
    inflateBlockStored_wraps hsrc (by omega) (by omega) (by omega) (by omega) h₂ (by omega) (by omega)
  change (inflateBlocks (8 * packed.length + 1) (Inflater.at (BitReader.start packed) (unset n) []) >>= _) = _
  rw [hstep, if_neg (by simp), show 8 * packed.length = 8 * packed.length - 1 + 1 by omega, hhead]
  change (inflateBlock 0 _ >>= _) >>= _ = _
  rw [hstored]
  rfl

end Zeros

/-! ## The accesses -/

section Accesses

variable {n : Nat}

def zeros (n : Nat) : Cells U8 := ofList (List.replicate n 0)

theorem zeros_read (i : Nat) : ((zeros n).read i).Checks (fun v => v = 0) (i < n) := by
  by_cases hi : i < n
  · rw [show (zeros n).read i = .done 0 from read_ofList (by rw [getElem?_replicate, if_pos hi])]
    exact .done rfl hi
  · have : (zeros n).read i = .undefined := by
      unfold zeros Cells.ofList Cells.read
      rw [getElem?_map, getElem?_replicate, if_neg hi]
      rfl
    rw [this]
    exact .undefined

theorem zeros_write {i : Nat} (hi : i < n) : (zeros n).write i 0 = .done (zeros n) := by
  unfold zeros
  rw [write_ofList _ (by rw [length_replicate]; exact hi), set_replicate_self]

theorem zeros_leftByte (bpp prow x : Nat) : (leftByte (zeros n) bpp prow x).Checks (fun v => v = 0) True := by
  unfold leftByte
  split
  · exact (zeros_read _).mono (fun _ h => h) fun _ => trivial
  · exact .done rfl trivial

theorem zeros_defilterByte (bpp row : Nat) (upRow : Option Nat) (x : Nat) :
    (defilterByte bpp row upRow 0 x (zeros n)).Checks (fun raw => raw = zeros n) (row + 1 + x < n) := by
  have hup : (upByte (zeros n) upRow x).Checks (fun v => v = 0) True := by
    cases upRow with
    | none => exact .done rfl trivial
    | some up => exact (zeros_read _).mono (fun _ h => h) fun _ => trivial
  have hupLeft : (upLeftByte (zeros n) bpp upRow x).Checks (fun v => v = 0) True := by
    cases upRow with
    | none => exact .done rfl trivial
    | some up => exact zeros_leftByte bpp up x
  have hwrite : ∀ v : U8, v = 0 → (recon 0 v 0 0 0 >>= fun w => (zeros n).write (row + 1 + x) w).Checks
      (fun raw => raw = zeros n) True := by
    rintro v rfl
    change ((zeros n).write (row + 1 + x) 0).Checks _ _
    by_cases hx : row + 1 + x < n
    · rw [zeros_write hx]
      exact .done rfl trivial
    · rw [show (zeros n).write (row + 1 + x) 0 = .undefined from if_neg (by simpa [zeros] using hx)]
      exact .undefined
  have hall : (defilterByte bpp row upRow 0 x (zeros n)).Checks (fun raw => raw = zeros n)
      (True ∧ True ∧ True ∧ row + 1 + x < n ∧ True) := by
    refine (zeros_leftByte bpp (row + 1) x).bind fun a ha => hup.bind fun b hb => hupLeft.bind fun c hc =>
      (zeros_read (row + 1 + x)).bind fun v hv => ?_
    exact hwrite v hv
  exact hall.mono (fun _ h => h) fun h => h.2.2.2.1

/-- **`defilter`** on zeros: if it ends, its rows were inside the buffer. -/
theorem zeros_defilter (width height bpp : Nat) : (defilter (zeros n) width height bpp).Checks (fun raw => raw = zeros n)
      (∀ y < height, u32 (y * u32 (1 + u32 (bpp * width))) < n ∧
        ∀ x < u32 (bpp * width), u32 (y * u32 (1 + u32 (bpp * width))) + 1 + x < n) := by
  refine count_checks rfl fun y hy raw hraw => ?_
  subst hraw
  refine (zeros_read _).bind fun filterType hzero => ?_
  subst hzero
  refine count_checks rfl fun x hx raw hraw => ?_
  subst hraw
  exact zeros_defilterByte ..

theorem zeros_isClear (bpp prow x : Nat) : (isClear (zeros n) bpp prow x).Checks (fun _ => True) True := by
  unfold isClear
  split
  · have hread : ((zeros n).read (prow + u32 (x * bpp + 3)) >>= fun alpha => Exec.done (decide (alpha = 0))).Checks
        (fun _ => True) (prow + u32 (x * bpp + 3) < n ∧ True) :=
      (zeros_read _).bind fun _ _ => .done trivial trivial
    exact hread.mono (fun _ h => h) fun _ => trivial
  · exact .done trivial trivial

theorem zeros_unpack {total : Nat} (width height bpp stride : Nat) :
    (Exec.count height (unpackRow (zeros n) width bpp stride) (unset total)).Checks
      (fun _ => True) (∀ y < height, ∀ x < width,
        u32 (u32 (y * u32 (1 + stride)) + 1) + u32 (x * bpp) < n ∧ u32 (y * width + x) < total) := by
  have hlen : ∀ y < height, ∀ pixels : Cells (BitVec 32), pixels.length = total →
      (unpackRow (zeros n) width bpp stride y pixels).Checks (fun pixels => pixels.length = total)
        (∀ x < width, u32 (u32 (y * u32 (1 + stride)) + 1) + u32 (x * bpp) < n ∧ u32 (y * width + x) < total) := by
    intro y hy pixels hpixels
    refine count_checks hpixels fun x hx pixels hpixels => ?_
    refine ((zeros_read _).bind fun r _ => (zeros_read _).bind fun g _ => (zeros_read _).bind fun b _ =>
      (zeros_isClear bpp _ x).bind fun clear _ => ?_).mono (fun _ h => h) fun h => ⟨h.1, h.2.2.2.2⟩
    by_cases hx : u32 (y * width + x) < pixels.length
    · rw [write_eq _ hx]
      exact .done (by rw [length_set]; exact hpixels) (by rw [← hpixels]; exact hx)
    · rw [write, if_neg hx]
      exact .undefined
  exact (count_checks (P := fun pixels => pixels.length = total) (length_unset total) hlen).mono (fun _ _ => trivial) fun h => h

end Accesses

/-! ## What the accesses say -/

/-- If all accesses are inside their buffers, nothing has wrapped. -/
theorem fits_of_accesses {d : Dims} (hd : d.Accepted)
    (hn : n = u32 (d.height * u32 (1 + bytesPerPixel d.colorType * d.width))) (hlt : n + 65535 < 2 ^ 32)
    (hrows : ∀ y < d.height, u32 (y * u32 (1 + u32 (bytesPerPixel d.colorType * d.width))) < n ∧
      ∀ x < u32 (bytesPerPixel d.colorType * d.width),
        u32 (y * u32 (1 + u32 (bytesPerPixel d.colorType * d.width))) + 1 + x < n) (hpixels : ∀ y < d.height, ∀ x < d.width,
      u32 (u32 (y * u32 (1 + u32 (bytesPerPixel d.colorType * d.width))) + 1) + u32 (x * bytesPerPixel d.colorType) < n ∧
        u32 (y * d.width + x) < u32 (d.width * d.height * 4) / 4) : d.Fits := by
  obtain ⟨width, height, colorType⟩ := d
  obtain ⟨hwidth32, hheight32, ⟨hwidth, hheight⟩, -⟩ := hd
  simp only at *
  have hbpp : bytesPerPixel colorType = 3 ∨ bytesPerPixel colorType = 4 := by
    unfold bytesPerPixel
    split <;> simp
  -- the bytes of a row: otherwise a pixel of the first row is past the end
  have hstride : bytesPerPixel colorType * width < 2 ^ 32 := by
    by_contra hwrap
    have hfirst := fun x hx => (hpixels 0 hheight x hx).1
    rcases hbpp with h | h <;> rw [h] at hfirst hwrap
    · have := hfirst 1431655765 (by omega)
      simp only [u32] at this
      omega
    · have := hfirst 1073741823 (by omega)
      simp only [u32] at this
      omega
  rw [u32_eq hstride] at hrows hpixels
  have hpos : 0 < bytesPerPixel colorType * width := mul_pos (by omega) hwidth
  generalize hs : bytesPerPixel colorType * width = stride at *
  -- a row: otherwise the size of the buffer is zero
  have hrow : 1 + stride < 2 ^ 32 := by
    by_contra hwrap
    have h0 := (hrows 0 hheight).1
    have : u32 (1 + stride) = 0 := by
      unfold u32
      omega
    rw [hn, this] at h0
    simp [u32] at h0
  rw [u32_eq hrow] at hn hrows
  -- the rows: otherwise the last row that starts below `2 ^ 32` ends past the buffer
  have hraw : height * (1 + stride) < 2 ^ 32 := by
    by_contra hwrap
    have hy : (2 ^ 32 - 1) / (1 + stride) < height :=
      Nat.div_lt_of_lt_mul (by rw [Nat.mul_comm]; omega)
    have hstart := div_mul_le_self (2 ^ 32 - 1) (1 + stride)
    have hstop := lt_div_mul_add (a := 2 ^ 32 - 1) (b := 1 + stride) (by omega)
    have hlast := (hrows _ hy).2 (stride - 1) (by omega)
    rw [u32_eq (by omega)] at hlast
    omega
  rw [u32_eq hraw] at hn
  refine ⟨by simp only [hs]; omega, ?_⟩
  -- the pixels: otherwise the last one is past the end
  by_contra hwrap
  simp only at hwrap
  have hthree : 3 * (width * height) ≤ height * stride := by
    rw [← hs]
    have : 3 * (height * width) ≤ bytesPerPixel colorType * (height * width) := mul_le_mul_right _ (by omega)
    calc 3 * (width * height) = 3 * (height * width) := by ring
      _ ≤ bytesPerPixel colorType * (height * width) := this
      _ = height * (bytesPerPixel colorType * width) := by ring
  rw [mul_add] at hraw
  have hlast := (hpixels (height - 1) (by omega) (width - 1) (by omega)).2
  have hindex : (height - 1) * width + (width - 1) = width * height - 1 := by
    rw [Nat.sub_mul, Nat.one_mul, Nat.mul_comm height width]
    have : width ≤ width * height := Nat.le_mul_of_pos_right _ hheight
    omega
  have hsizes : 4 * width * height = width * height * 4 := by ring
  unfold u32 at hlast
  omega

/-! ## The file -/

section File

variable {d : Dims} {chunks : List Chunk}

theorem declares_file (hextra : ∀ c ∈ chunks, c.type ≠ ihdr ∧ c.type ≠ iend) (hd : d.Accepted)
    (hsize : (d.file chunks).length < 2 ^ 31) {d' : Dims} (hdecl : Declares (d.file chunks) d') : d' = d := by
  obtain ⟨hs, htail, -⟩ := file_tail hextra hsize
  have hplaces : ∀ pos, ChunkAt (d.file chunks) pos → pos = 8 ∨ ∃ rest, Tail (d.file chunks) pos rest := by
    intro pos hat
    induction hat with
    | first => exact Or.inl rfl
    | next hat hend ih =>
      rcases ih with rfl | ⟨rest, hrest⟩
      · exact Or.inr ⟨chunks, hs.next ▸ htail⟩
      · cases rest with
        | nil => exact absurd hrest.trailer.1.type hend
        | cons c rest =>
          obtain ⟨hstands, -, hnext, -⟩ := hrest.head
          exact Or.inr ⟨rest, hstands.next ▸ hnext⟩
  obtain ⟨pos, hat, htype, rfl⟩ := hdecl
  rcases hplaces pos hat with rfl | ⟨rest, hrest⟩
  · have hdata : bytesAt (d.file chunks) 16 13 = (headerOf d.width d.height d.colorType).data := hs.data
    have hwidth : bytesAt (d.file chunks) (8 + 8) 4 = be32 d.width := by
      rfl
    have hheight : bytesAt (d.file chunks) (8 + 12) 4 = be32 d.height := by
      rfl
    have hcolor : (d.file chunks)[8 + 17]? = some d.colorType := by
      rfl
    unfold dimsAt
    rw [hwidth, hheight, beValue_be32 hd.width_lt, beValue_be32 hd.height_lt, getD_eq_getElem?_getD, hcolor]
    rfl
  · cases rest with
    | nil => exact absurd (hrest.trailer.1.type.symm.trans htype) (by decide)
    | cons c rest =>
      obtain ⟨hstands, -, -, hihdr, -⟩ := hrest.head
      exact absurd (hstands.type.symm.trans htype) hihdr

theorem pngDecode_zlib (hd : d.Accepted) {packed : List U8} {check : Nat} (hpacked : packed.length < 2 ^ 26) :
    ∃ data : List U8, data.length < 2 ^ 31 ∧ (∀ d', Declares data d' → d' = d) ∧
      pngDecode ⟨true, true, true⟩ data = d.decode (zlibOf 0x78 0x01 packed check) := by
  let chunk : Chunk := ⟨PngFormat.idat, zlibOf 0x78 0x01 packed check, rfl⟩
  have hextra : ∀ c ∈ [chunk], c.type ≠ ihdr ∧ c.type ≠ iend := by
    intro c hc
    rw [mem_singleton.mp hc]
    exact show PngFormat.idat ≠ ihdr ∧ PngFormat.idat ≠ iend by decide
  have hidat : idatData [chunk] = zlibOf 0x78 0x01 packed check := by
    exact append_nil _
  have hlen : (d.file [chunk]).length < 2 ^ 31 := by
    unfold Dims.file fileOf
    rw [length_append, length_append, length_append, flatMap_singleton, length_chunk, length_chunk,
      length_chunk, show chunk.data.length = packed.length + 6 from length_zlibOf ..]
    change 8 + (13 + 12) + _ + (0 + 12) < _
    omega
  have hdecode := pngDecode_file hextra hd hlen (by rw [hidat, length_zlibOf]; omega)
  rw [hidat] at hdecode
  exact ⟨d.file [chunk], hlen, fun d' => declares_file hextra hd hlen, hdecode⟩

/-- **Dimensions that do not fit** are those of a file on which the decoder leaves a buffer. -/
theorem exists_overflow (hd : d.Accepted) (hfits : ¬ d.Fits) : ∃ data : List U8, data.length < 2 ^ 31 ∧
    (∀ d', Declares data d' → d' = d) ∧ pngDecode ⟨true, true, true⟩ data = .undefined := by
  generalize hn : u32 (d.height * u32 (1 + bytesPerPixel d.colorType * d.width)) = n
  have hlt : n < 2 ^ 32 := by
    rw [← hn]
    exact mod_lt _ (by decide)
  by_cases hwrap : 2 ^ 32 ≤ n + 65535
  · obtain ⟨packed, hpacked, hinflate⟩ := exists_wrapping hlt hwrap
    obtain ⟨data, hlen, honly, hdecode⟩ := @pngDecode_zlib d hd packed 0 hpacked
    refine ⟨data, hlen, honly, ?_⟩
    rw [hdecode, Dims.decode, hn, length_zlibOf, inflateIdat_eq (by decide) (by decide) (by decide), hinflate]
    rfl
  · obtain ⟨packed, hwritten, hpacked⟩ := exists_zeroStream hlt
    obtain ⟨data, hlen, honly, hdecode⟩ := @pngDecode_zlib d hd packed (adler32 (zeroStream n).expand) hpacked
    refine ⟨data, hlen, honly, ?_⟩
    have hsize : (zeroStream n).expand.length = n := by rw [expand_zeroStream, length_replicate]
    have hraw := @inflateIdat_stream 0x78 0x01 packed (zeroStream n) (by decide) (by decide) hwritten (by omega)
      (by rw [hsize]; exact hlt)
    rw [hsize, expand_zeroStream] at hraw
    rw [expand_zeroStream] at hdecode
    rw [hdecode, Dims.decode, hn, length_zlibOf, hraw, done_bind]
    -- were it not so, all accesses would be inside their buffers
    by_contra hdefined
    refine hfits ?_
    have hrows := @zeros_defilter n d.width d.height (bytesPerPixel d.colorType)
    have hpixels := @zeros_unpack n (u32 (d.width * d.height * 4) / 4) d.width d.height (bytesPerPixel d.colorType)
      (u32 (bytesPerPixel d.colorType * d.width))
    change (defilter (zeros n) d.width d.height _ >>= _) ≠ _ at hdefined
    generalize hdef : defilter (zeros n) d.width d.height (bytesPerPixel d.colorType) = o at hrows hdefined
    cases hrows with
    | undefined => exact absurd rfl hdefined
    | done hsame hrows =>
      subst hsame
      rw [done_bind] at hdefined
      generalize Exec.count d.height _ _ = o' at hpixels hdefined
      cases hpixels with
      | undefined => exact absurd rfl hdefined
      | done _ hpixels => exact fits_of_accesses hd hn.symm (by omega) hrows hpixels

end File

/-- **The bounds of the PNG decoder**, for every set of dimensions: `png_decode` stays inside its buffers on all files
whose headers name dimensions of the set, exactly if those of them that it takes fit. -/
theorem pngDecode_bounds (D : Dims → Prop) :
    (∀ k data, data.length < 2 ^ 31 → (∀ d, Declares data d → D d) → pngDecode k data ≠ .undefined) ↔
      ∀ d, D d → d.Accepted → d.Fits := by
  constructor
  · intro hsafe d hD hd
    by_contra hfits
    obtain ⟨data, hlen, honly, hundefined⟩ := exists_overflow hd hfits
    refine hsafe ⟨true, true, true⟩ data hlen (fun d' hd' => ?_) hundefined
    rw [honly d' hd']
    exact hD
  · intro hfits k data hlen hdecl
    exact (pngDecode_sound k hlen fun d hd => hfits d (hdecl d hd)).ne_undefined

/-- An RGBA picture of one row of `2 ^ 30` pixels. A row has `2 ^ 32` bytes, `stride` is zero, and the buffer of the
rows has one byte. -/
def wideRow : List U8 :=
  Dims.file ⟨2 ^ 30, 1, 6⟩ [⟨PngFormat.idat, [0x78, 0xDA, 0x63, 0x00, 0x00, 0x00, 0x01, 0x00, 0x01], by decide⟩]

theorem pngDecode_wideRow : wideRow.length < 2 ^ 31 ∧ pngDecode ⟨true, true, true⟩ wideRow = .undefined := by
  have hlen : wideRow.length < 2 ^ 31 := by decide
  refine ⟨hlen, ?_⟩
  unfold wideRow
  decide +kernel

end MinicOs
