import MinicOs.Gfx.PngFile
import MinicOs.Gfx.PngRows

/-!
# The bounds of the PNG decoder

`png_decode` sizes its buffers by `unsigned` products of the dimensions in the header, and its loops run over the
dimensions. On any file whose headers name dimensions for which the products do not wrap (`Dims.Fits`), every access
lies inside its buffer (`pngDecode_sound`).
-/

namespace MinicOs

open List Exec Cells Nat

/-! ## The headers of a file -/

/-- The dimensions that the header at `pos` names. -/
def dimsAt (data : List U8) (pos : Nat) : Dims :=
  ⟨beValue (bytesAt data (pos + 8) 4), beValue (bytesAt data (pos + 12) 4), data.getD (pos + 17) 0⟩

/-- The places where chunks start: the first one after the signature, and one after each chunk up to the end chunk. -/
inductive ChunkAt (data : List U8) : Nat → Prop
  | first : ChunkAt data 8
  | next {pos : Nat} (h : ChunkAt data pos) (hend : typeAt data pos ≠ iendType) : ChunkAt data (nextAt data pos)

/-- Some header of the file names these dimensions. -/
def Declares (data : List U8) (d : Dims) : Prop :=
  ∃ pos, ChunkAt data pos ∧ typeAt data pos = ihdrType ∧ dimsAt data pos = d

/-- The sizes of the buffers do not wrap, and neither does the place in `raw` at which a stored block of any length
would end. -/
structure Dims.Fits (d : Dims) : Prop where
  raw : d.height * (1 + bytesPerPixel d.colorType * d.width) + 65535 < 2 ^ 32
  pixels : 4 * d.width * d.height < 2 ^ 32

/-! ## The passes -/

section Passes

variable {data : List U8} {pos : Nat}

/-- What pass 1 has found is what a header of the file says. -/
def Scan.Found (data : List U8) (s : Scan) : Prop :=
  s.haveIhdr = true → Declares data ⟨s.width, s.height, s.colorType⟩ ∧ Dims.Accepted ⟨s.width, s.height, s.colorType⟩

theorem readIhdr_sound (hat : ChunkAt data pos) (htype : typeAt data pos = ihdrType)
    (hle : nextAt data pos ≤ data.length) (s : Scan) :
    (readIhdr data (pos + 8) (lengthAt data pos) s).Sound fun s' => s'.idatTotal = s.idatTotal ∧ s'.Found data := by
  unfold readIhdr
  split
  · exact .refused
  · rename_i hlen
    unfold nextAt at hle
    simp (disch := omega) only [readU32be_eq, srcByte_eq]
    refine .guard fun _ => .guard fun hcolor => ?_
    refine .guard fun _ => .guard fun hpos => ?_
    refine .done ⟨rfl, fun _ => ⟨⟨pos, hat, htype, ?_⟩, ?_⟩⟩
    · unfold dimsAt
      rw [getD_eq_getElem _ _ (by omega)]
      rfl
    · refine ⟨beValue_bytesAt_lt _ _, beValue_bytesAt_lt _ _, ?_, ?_⟩
      · simp only
        omega
      · simp only
        tauto

/-- Pass 2 goes where pass 1 went from `s` to `s'`, and fills `idat` exactly. -/
def Gathers (data : List U8) (fuel pos : Nat) (s s' : Scan) : Prop :=
  ∀ total < 2 ^ 32, s'.idatTotal ≤ total → ∀ xs : List U8, xs.length = s.idatTotal → ∃ ys : List U8,
    ys.length = s'.idatTotal ∧ gatherChunks data fuel pos (fill (unset total) xs, xs.length) =
      .done (fill (unset total) ys, ys.length)

/-- **The passes** stay inside the file, and the `IDAT` chunks have their room in it. -/
theorem scanChunks_sound (hdata : data.length < 2 ^ 31) {fuel : Nat} (hfuel : data.length < pos + fuel)
    (hpos : pos ≤ data.length) (hat : ChunkAt data pos) {s : Scan} (hs : s.Found data) (htotal : s.idatTotal ≤ pos) :
    (scanChunks data fuel pos s).Sound fun s' => s'.Found data ∧
      (s.idatTotal ≤ s'.idatTotal ∧ s'.idatTotal ≤ data.length) ∧ Gathers data fuel pos s s' := by
  induction fuel generalizing pos s with
  | zero => omega
  | succ fuel ih =>
    by_cases h8 : pos + 8 ≤ data.length
    · rw [scanChunks_eq hdata h8]
      refine .guard fun hnext => .guard fun _ => ?_
      have hnext : nextAt data pos ≤ data.length := not_lt.mp hnext
      have hmove : nextAt data pos = pos + (lengthAt data pos + 12) := rfl
      split
      · rename_i htype
        refine (readIhdr_sound hat htype hnext s).bind fun s₁ ⟨hs₁, hfound⟩ => ?_
        refine (ih (by omega) hnext (.next hat (by rw [htype]; decide)) hfound (by omega)).mono fun s' ⟨hf, hle, hg⟩ => ?_
        refine ⟨hf, by omega, fun total hlt hroom xs hxs => ?_⟩
        rw [gatherChunks_eq hdata hnext, htype, if_neg (by decide), if_neg (by decide)]
        exact hg total hlt hroom xs (by omega)
      split
      · rename_i htype
        have hs₁ : ({ s with idatTotal := s.idatTotal + lengthAt data pos } : Scan).Found data := hs
        rw [u32_eq (by omega)]
        refine (ih (by omega) hnext (.next hat (by rw [htype]; decide)) hs₁ (by simp only; omega)).mono
          fun s' ⟨hf, ⟨hmore, hle⟩, hg⟩ => ?_
        replace hmore : s.idatTotal + lengthAt data pos ≤ s'.idatTotal := hmore
        refine ⟨hf, by omega, fun total hlt hroom xs hxs => ?_⟩
        rw [gatherChunks_eq hdata hnext, htype, if_pos rfl, copyIdat_eq (by omega) (by omega) hlt, done_bind,
          u32_eq (by omega), ← @length_bytesAt data (pos + 8) (lengthAt data pos) (by omega), ← length_append,
          length_bytesAt (by omega)]
        exact hg total hlt hroom _ (by rw [length_append, length_bytesAt (by omega), hxs])
      rename_i hidat
      split
      · rename_i htype
        refine .done ⟨hs, by omega, fun total hlt hroom xs hxs => ?_⟩
        rw [gatherChunks_eq hdata hnext, if_neg hidat, if_pos htype]
        exact ⟨xs, hxs, rfl⟩
      · rename_i hend
        refine (ih (by omega) hnext (.next hat hend) hs (by omega)).mono fun s' ⟨hf, hle, hg⟩ => ?_
        refine ⟨hf, hle, fun total hlt hroom xs hxs => ?_⟩
        rw [gatherChunks_eq hdata hnext, if_neg hidat, if_neg hend]
        exact hg total hlt hroom xs hxs
    · -- at the end of the file both passes stop
      have hstop : ¬ u32 (pos + 8) ≤ data.length := by rwa [u32_eq (by omega)]
      rw [scanChunks, if_neg hstop]
      refine .done ⟨hs, by omega, fun total hlt hroom xs hxs => ?_⟩
      rw [gatherChunks, if_neg hstop]
      exact ⟨xs, hxs, rfl⟩

end Passes

/-! ## The buffers -/

section Buffers

variable {raw : Cells U8} {xs : List U8}

/-- A buffer all of whose `n` bytes are set. -/
def Full (n : Nat) (raw : Cells U8) : Prop := ∃ xs : List U8, xs.length = n ∧ raw = ofList xs

theorem Full.read {n i : Nat} (h : Full n raw) (hi : i < n) : (raw.read i).Returns fun _ => True := by
  obtain ⟨xs, rfl, rfl⟩ := h
  rw [read_ofList (getElem?_eq_getElem hi)]
  exact .done trivial

theorem Full.write {n i : Nat} (h : Full n raw) (hi : i < n) (v : U8) : (raw.write i v).Sound (Full n) := by
  obtain ⟨xs, rfl, rfl⟩ := h
  rw [write_ofList v hi]
  exact .done ⟨xs.set i v, length_set .., rfl⟩

theorem inflateIdat_sound (k : Allocs) (h6 : 6 ≤ xs.length) (hlt : xs.length < 2 ^ 31) {rawSize : Nat}
    (hraw : rawSize + 2 ^ 16 ≤ 2 ^ 32) : (inflateIdat k (ofList xs) xs.length rawSize).Sound (Full rawSize) := by
  have hread : ∀ i (hi : i < xs.length), (ofList xs).read i = .done (xs.get ⟨i, hi⟩) := fun i hi =>
    read_ofList (getElem?_eq_getElem hi)
  unfold inflateIdat
  rw [hread 0 (by omega), hread 1 (by omega)]
  refine .guard fun _ => .guard fun _ => ?_
  rw [contents_ofList, done_bind]
  have hsrc : ((xs.drop 2).take (xs.length - 2 - 4)).length < 2 ^ 31 := by
    rw [length_take, length_drop]
    omega
  refine (inflate_sound hsrc (by rw [length_unset]; exact hraw)).bind fun r hr => ?_
  obtain ⟨out, hfill, hlen, -⟩ := hr
  refine .guard fun hfull => ?_
  have hout : out.length = rawSize := by
    rw [← hlen]
    exact not_not.mp hfull
  rw [hfill, fill_eq_ofList (by rw [length_unset]; exact hout),
    readU32be_of (hread _ (by omega)) (hread _ (by omega)) (hread _ (by omega)) (hread _ (by omega)), done_bind,
    ← hout, adler32Of_eq, done_bind]
  split
  · exact .refused
  · exact .done ⟨out, rfl, rfl⟩

theorem recon_sound (filterType rawVal a b c : U8) : (recon filterType rawVal a b c).Sound fun _ => True := by
  unfold recon
  split
  · exact .done trivial
  split
  · exact .done trivial
  split
  · exact .done trivial
  split
  · exact .done trivial
  split
  · exact .done trivial
  · exact .refused

theorem leftByte_sound {n bpp prow x : Nat} (h : Full n raw) (hx : prow + x < n) :
    (leftByte raw bpp prow x).Sound fun _ => True := by
  unfold leftByte
  split
  · exact (h.read (by omega)).sound
  · exact .done trivial

theorem defilterByte_sound {n bpp row x : Nat} {upRow : Option Nat} (h : Full n raw) (filterType : U8)
    (hrow : row + 1 + x < n) (hup : ∀ up, upRow = some up → up + x < n) :
    (defilterByte bpp row upRow filterType x raw).Sound (Full n) := by
  have hupByte : (upByte raw upRow x).Sound fun _ => True := by
    cases upRow with
    | none => exact .done trivial
    | some up => exact (h.read (hup up rfl)).sound
  have hupLeft : (upLeftByte raw bpp upRow x).Sound fun _ => True := by
    cases upRow with
    | none => exact .done trivial
    | some up => exact leftByte_sound h (hup up rfl)
  refine (leftByte_sound h hrow).bind fun a _ => hupByte.bind fun b _ => hupLeft.bind fun c _ => ?_
  refine (h.read hrow).sound.bind fun v _ => (recon_sound ..).bind fun w _ => h.write hrow w

theorem defilter_sound {width height bpp : Nat} (hheight : 0 < height) (hlt : height * (1 + bpp * width) < 2 ^ 32)
    (h : Full (height * (1 + bpp * width)) raw) :
    (defilter raw width height bpp).Sound (Full (height * (1 + bpp * width))) := by
  have hone : 1 * (1 + bpp * width) ≤ height * (1 + bpp * width) := mul_le_mul_right _ hheight
  have hstride : u32 (bpp * width) = bpp * width := u32_eq (by omega)
  have hrowSize : u32 (1 + bpp * width) = 1 + bpp * width := u32_eq (by omega)
  unfold defilter
  rw [hstride]
  refine count_sound (fun _ => Full _) h fun y hy raw hraw => ?_
  have hle : (y + 1) * (1 + bpp * width) ≤ height * (1 + bpp * width) := mul_le_mul_right _ hy
  have hup : (y - 1) * (1 + bpp * width) ≤ y * (1 + bpp * width) := mul_le_mul_right _ (by omega)
  rw [add_mul, one_mul] at hle
  have hrow : u32 (y * (1 + bpp * width)) = y * (1 + bpp * width) := u32_eq (by omega)
  have hupRow : u32 ((y - 1) * (1 + bpp * width)) = (y - 1) * (1 + bpp * width) := u32_eq (by omega)
  unfold defilterRow
  simp only [hrowSize, hrow, hupRow]
  refine (hraw.read (by omega)).sound.bind fun filterType _ => ?_
  refine count_sound (fun _ => Full _) hraw fun x hx raw hraw => ?_
  refine defilterByte_sound hraw filterType (by omega) fun up hsome => ?_
  split at hsome
  · simp at hsome
  · rw [← Option.some.inj hsome, u32_eq (by omega)]
    omega

theorem unpack_returns {width height bpp : Nat} (hbpp : 3 ≤ bpp) (hheight : 0 < height)
    (hlt : height * (1 + bpp * width) < 2 ^ 32) (hpixels : width * height < 2 ^ 32)
    (h : Full (height * (1 + bpp * width)) raw) :
    (Exec.count height (unpackRow raw width bpp (bpp * width)) (unset (width * height))).Returns fun _ => True := by
  have hone : 1 * (1 + bpp * width) ≤ height * (1 + bpp * width) := mul_le_mul_right _ hheight
  have hrowSize : u32 (1 + bpp * width) = 1 + bpp * width := u32_eq (by omega)
  refine (count_returns (fun _ (pixels : Cells (BitVec 32)) => pixels.length = width * height)
    (length_unset _) fun y hy pixels hlen => ?_).mono fun _ _ => trivial
  have hle : (y + 1) * (1 + bpp * width) ≤ height * (1 + bpp * width) := mul_le_mul_right _ hy
  have hle' : (y + 1) * width ≤ height * width := mul_le_mul_right _ hy
  rw [add_mul, one_mul] at hle hle'
  rw [mul_comm height width] at hle'
  have hrow : u32 (y * (1 + bpp * width)) = y * (1 + bpp * width) := u32_eq (by omega)
  unfold unpackRow
  rw [hrowSize, hrow, u32_eq (by omega)]
  refine count_returns (fun _ (pixels : Cells (BitVec 32)) => pixels.length = width * height) hlen
    fun x hx pixels hlen => ?_
  have hpixel : (x + 1) * bpp ≤ width * bpp := mul_le_mul_right _ hx
  rw [add_mul, one_mul, mul_comm width bpp] at hpixel
  have hread : ∀ j < bpp, (raw.read (y * (1 + bpp * width) + 1 + u32 (x * bpp + j))).Returns fun _ => True := by
    intro j hj
    rw [u32_eq (by omega)]
    exact h.read (by omega)
  have hclear : (isClear raw bpp (y * (1 + bpp * width) + 1) x).Returns fun _ => True := by
    unfold isClear
    split
    · exact (hread 3 (by omega)).bind fun _ _ => .done trivial
    · exact .done trivial
  refine (hread 0 (by omega)).bind fun r _ => (hread 1 (by omega)).bind fun g _ => (hread 2 (by omega)).bind fun b _ => ?_
  refine hclear.bind fun clear _ => ?_
  rw [u32_eq (by omega), write_eq _ (by omega)]
  exact .done (by rw [length_set]; exact hlen)

end Buffers

/-- **Every access lies inside its buffer**, on any file whose headers name dimensions that fit. -/
theorem pngDecode_sound (k : Allocs) {data : List U8} (hdata : data.length < 2 ^ 31)
    (hfits : ∀ d, Declares data d → d.Accepted → d.Fits) : (pngDecode k data).Sound fun _ => True := by
  have hfound : ({} : Scan).Found data := fun h => by simp at h
  refine .guard fun h8 => ?_
  rw [bytesAre_eq (by rw [show pngSignature.length = 8 from rfl]; omega), done_bind]
  split
  swap
  · exact .refused
  refine (scanChunks_sound hdata (show data.length < 8 + (data.length + 1) by omega) (by omega) .first hfound
    (zero_le _)).bind fun s ⟨hs', ⟨_, hle⟩, hg⟩ => ?_
  refine .guard fun hhave => ?_
  rw [not_or, Bool.not_eq_false, not_lt] at hhave
  obtain ⟨hdecl, hacc⟩ := hs' hhave.1
  obtain ⟨hraw, hpixels⟩ := hfits _ hdecl hacc
  obtain ⟨-, -, ⟨hwidth, hheight⟩, -⟩ := hacc
  simp only at hraw hpixels hwidth hheight
  refine .guard fun _ => ?_
  obtain ⟨ys, hys, hgather⟩ := hg s.idatTotal (by omega) (le_refl _) [] rfl
  have hbpp : 3 ≤ bytesPerPixel s.colorType := by
    unfold bytesPerPixel
    split <;> omega
  generalize bytesPerPixel s.colorType = bpp at hbpp hraw
  have hone : 1 * (1 + bpp * s.width) ≤ s.height * (1 + bpp * s.width) := mul_le_mul_right _ hheight
  have hsizes : 4 * s.width * s.height = s.width * s.height * 4 := by ring
  rw [show gatherChunks data (data.length + 1) 8 (unset s.idatTotal, 0) = _ from hgather, done_bind,
    fill_eq_ofList (by rw [length_unset, hys]), @u32_eq (1 + _) (by omega), @u32_eq (s.height * _) (by omega),
    ← hys]
  refine (inflateIdat_sound k (by omega) (by omega) (by omega)).bind fun raw hfull => ?_
  refine (defilter_sound hheight (by omega) hfull).bind fun raw hfull => ?_
  refine .guard fun _ => ?_
  rw [@u32_eq (s.width * s.height * 4) (by omega), Nat.mul_div_cancel _ (by omega), u32_eq (by omega)]
  refine (unpack_returns hbpp hheight (by omega) (by omega) hfull).sound.bind fun pixels _ => ?_
  exact .done trivial

end MinicOs
