import MinicOs.Gfx.PngBounds
import MinicOs.Gfx.PngCorrect

/-!
# What the PNG decoder leaves allocated

`png_decode` has three blocks from `kalloc` and ten places where it returns. `pngRun` is the decoder with the blocks
it holds and with `*out`; a block is freed only while it is held.
-/

namespace MinicOs

open List Exec Cells

/-! ## Calls that never refuse -/

theorem Cells.read_ne_refused {α : Type} (a : Cells α) (i : Nat) : a.read i ≠ .refused := by
  unfold read
  split <;> simp

theorem Cells.write_ne_refused {α : Type} (a : Cells α) (i : Nat) (v : α) : a.write i v ≠ .refused := by
  unfold write
  split <;> simp

theorem Cells.contents_ne_refused {α : Type} : ∀ a : Cells α, a.contents ≠ .refused
  | [] => by simp [contents]
  | none :: _ => by simp [contents]
  | some _ :: a => bind_ne_refused (contents_ne_refused a) fun _ => by simp

section

variable (data : List U8)

theorem srcByte_ne_refused (i : Nat) : srcByte data i ≠ .refused := by
  unfold srcByte
  split <;> simp

theorem bytesAre_ne_refused : ∀ (p : Nat) (cs : List U8), bytesAre data p cs ≠ .refused
  | _, [] => by simp [bytesAre]
  | p, c :: cs => bind_ne_refused (srcByte_ne_refused data p) fun b => by
    split
    · exact bytesAre_ne_refused _ cs
    · simp

theorem readU32be_ne_refused {byte : Nat → Exec U8} (h : ∀ p, byte p ≠ .refused) (p : Nat) : readU32be byte p ≠ .refused :=
  bind_ne_refused (h _) fun _ => bind_ne_refused (h _) fun _ => bind_ne_refused (h _) fun _ =>
    bind_ne_refused (h _) fun _ => by simp

theorem gatherChunks_ne_refused : ∀ (fuel pos : Nat) (s : Cells U8 × Nat), gatherChunks data fuel pos s ≠ .refused
  | 0, _, _ => by simp [gatherChunks]
  | fuel + 1, pos, s => by
    unfold gatherChunks
    split
    swap
    · simp
    refine bind_ne_refused (readU32be_ne_refused (srcByte_ne_refused data) _) fun clen => ?_
    refine bind_ne_refused (bytesAre_ne_refused data _ _) fun isIdat => ?_
    split
    · refine bind_ne_refused (count_ne_refused (fun i idat => ?_) _ _) fun idat => gatherChunks_ne_refused fuel _ _
      exact bind_ne_refused (srcByte_ne_refused data _) fun b => idat.write_ne_refused _ b
    · refine bind_ne_refused (bytesAre_ne_refused data _ _) fun isIend => ?_
      split
      · simp
      · exact gatherChunks_ne_refused fuel _ _

end

section

variable (raw : Cells U8)

theorem adler32Of_ne_refused (len : Nat) : adler32Of raw len ≠ .refused :=
  bind_ne_refused (count_ne_refused (fun i _ => bind_ne_refused (raw.read_ne_refused i) fun _ => by simp) _ _)
    fun _ => by simp

theorem unpackRow_ne_refused (width bpp stride y : Nat) (pixels : Cells (BitVec 32)) :
    unpackRow raw width bpp stride y pixels ≠ .refused := by
  refine count_ne_refused (fun x pixels => ?_) _ _
  refine bind_ne_refused (raw.read_ne_refused _) fun r => bind_ne_refused (raw.read_ne_refused _) fun g =>
    bind_ne_refused (raw.read_ne_refused _) fun b => bind_ne_refused ?_ fun clear => pixels.write_ne_refused _ _
  unfold isClear
  split
  · exact bind_ne_refused (raw.read_ne_refused _) fun _ => by simp
  · simp

end

/-! ## The blocks -/

/-- A block that `png_decode` allocates. -/
inductive PngBlock
  | idat
  | raw
  | pixels
deriving DecidableEq

/-- What a call of `png_decode` leaves: its answer, `*out` and the blocks that it has allocated and not freed. -/
structure PngEnd where
  ok : Bool
  out : Image
  live : List PngBlock
deriving DecidableEq

/-- `kfree`; of a block that is not allocated it is undefined. -/
def kfreeBlock (b : PngBlock) (live : List PngBlock) : Exec (List PngBlock) :=
  if b ∈ live then .done (live.erase b) else .undefined

/-- The blocks `frees` are freed in turn, then `return false`. -/
def returnFalse (out : Image) (frees live : List PngBlock) : Exec PngEnd := do
  let live ← Exec.loop kfreeBlock frees live
  return ⟨false, out, live⟩

/-- `png_decode` with the blocks it holds. -/
def pngRun (k : Allocs) (data : List U8) (out : Image) : Exec PngEnd :=
  if data.length < 8 then returnFalse out [] []
  else do
    if ← bytesAre data 0 pngSignature then
      (scanChunks data (data.length + 1) 8 {}).attempt (returnFalse out [] []) fun s =>
        if s.haveIhdr = false ∨ s.idatTotal < 6 then returnFalse out [] []
        else if k.idat = false then returnFalse out [] []
        else do
          let bpp := bytesPerPixel s.colorType
          let live := [.idat]
          let (idat, _) ← gatherChunks data (data.length + 1) 8 (unset s.idatTotal, 0)
          let cmf ← idat.read 0
          let flg ← idat.read 1
          if cmf &&& 0x0F ≠ 8 ∨ flg &&& 0x20 ≠ 0 then returnFalse out [.idat] live
          else if k.raw = false then returnFalse out [.idat] live
          else do
            let rawSize := u32 (s.height * u32 (1 + bpp * s.width))
            let live := .raw :: live
            let bytes ← idat.contents
            (inflate ((bytes.drop 2).take (s.idatTotal - 2 - 4)) (unset rawSize)).attempt
              (returnFalse out [.raw, .idat] live) fun (raw, inflatedLen) =>
                if inflatedLen ≠ rawSize then returnFalse out [.raw, .idat] live
                else do
                  let storedAdler ← readU32be idat.read (s.idatTotal - 4)
                  let computedAdler ← adler32Of raw rawSize
                  let live ← kfreeBlock .idat live
                  if storedAdler ≠ computedAdler then returnFalse out [.raw] live
                  else
                    (defilter raw s.width s.height bpp).attempt (returnFalse out [.raw] live) fun raw =>
                      if k.pixels = false then returnFalse out [.raw] live
                      else do
                        let live := .pixels :: live
                        let pixels ← Exec.count s.height (unpackRow raw s.width bpp (u32 (bpp * s.width)))
                          (unset (u32 (s.width * s.height * 4) / 4))
                        let live ← kfreeBlock .raw live
                        return ⟨true, ⟨s.width, s.height, pixels⟩, live⟩
    else returnFalse out [] []

/-- **The decoder with its blocks** does what the decoder does. -/
theorem pngRun_eq (k : Allocs) (data : List U8) (out : Image) : pngRun k data out =
    (pngDecode k data).attempt (.done ⟨false, out, []⟩) fun img => .done ⟨true, img, [.pixels]⟩ := by
  have hnone : returnFalse out [] [] = .done ⟨false, out, []⟩ := rfl
  have hidat : returnFalse out [.idat] [.idat] = .done ⟨false, out, []⟩ := rfl
  have hboth : returnFalse out [.raw, .idat] [.raw, .idat] = .done ⟨false, out, []⟩ := rfl
  have hraw : returnFalse out [.raw] [.raw] = .done ⟨false, out, []⟩ := rfl
  have hfreeIdat : kfreeBlock .idat [.raw, .idat] = .done [.raw] := rfl
  have hfreeRaw : kfreeBlock .raw [.pixels, .raw] = .done [.pixels] := rfl
  -- an exit of a call that never refuses is none
  simp only [pngRun, pngDecode, inflateIdat, hnone, hidat, hboth, hraw, hfreeIdat, hfreeRaw, done_bind, pure_eq,
    attempt_bind, attempt_ite, attempt_refused, attempt_done, attempt_eq_bind, ne_eq, not_false_eq_true,
    bytesAre_ne_refused, gatherChunks_ne_refused, read_ne_refused, contents_ne_refused,
    readU32be_ne_refused, adler32Of_ne_refused, count_ne_refused, unpackRow_ne_refused, implies_true]

/-- **PNG decoding fails cleanly**: a call that returns false has freed its blocks and left `*out` alone, and one that
returns true holds the pixels and nothing else. It does return where every access lies inside its buffer. -/
theorem pngRun_clean (k : Allocs) (data : List U8) (out : Image) : (∀ e, pngRun k data out = .done e →
      (e.ok = false → e.out = out ∧ e.live = []) ∧ (e.ok = true → e.live = [.pixels])) ∧
    (data.length < 2 ^ 31 → (∀ d, Declares data d → d.Accepted → d.Fits) → ∃ e, pngRun k data out = .done e) := by
  rw [pngRun_eq]
  cases hd : pngDecode k data with
  | undefined =>
    exact ⟨fun e he => (by cases he), fun hdata hfits => absurd hd (pngDecode_sound k hdata hfits).ne_undefined⟩
  | refused => exact ⟨fun e he => by cases he; simp, fun _ _ => ⟨_, rfl⟩⟩
  | done img => exact ⟨fun e he => by cases he; simp, fun _ _ => ⟨_, rfl⟩⟩

theorem twoPixels_chunks : ∀ {pos : Nat}, ChunkAt twoPixels.bytes pos → pos ∈ [8, 33, 49, 64, 93]
  | _, .first => by decide
  | _, .next h hend =>
    (show ∀ pos ∈ [8, 33, 49, 64, 93], typeAt twoPixels.bytes pos ≠ iendType →
      nextAt twoPixels.bytes pos ∈ [8, 33, 49, 64, 93] by decide +kernel) _ (twoPixels_chunks h) hend

/-- A file of five chunks, and no room for the pixels. -/
theorem pngRun_clean_twoPixels : ∃ e, pngRun ⟨true, true, false⟩ twoPixels.bytes ⟨0, 0, unset 0⟩ = .done e ∧
    (e.ok = false → e.out = ⟨0, 0, unset 0⟩ ∧ e.live = []) := by
  have hclean := pngRun_clean ⟨true, true, false⟩ twoPixels.bytes ⟨0, 0, unset 0⟩
  obtain ⟨e, he⟩ := hclean.2 (by decide +kernel) fun d ⟨pos, hat, htype, hd⟩ _ => by
    have hfits : ∀ pos ∈ [8, 33, 49, 64, 93], typeAt twoPixels.bytes pos = ihdrType →
        (dimsAt twoPixels.bytes pos).width = 1 ∧ (dimsAt twoPixels.bytes pos).height = 2 ∧
          (dimsAt twoPixels.bytes pos).colorType = 6 := by decide +kernel
    obtain ⟨hwidth, hheight, htype⟩ := hd ▸ hfits pos (twoPixels_chunks hat) htype
    exact ⟨by rw [hwidth, hheight, htype]; decide, by rw [hwidth, hheight]; decide⟩
  exact ⟨e, he, (hclean.1 e he).1⟩

end MinicOs
