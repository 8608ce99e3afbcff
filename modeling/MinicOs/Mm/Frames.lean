import MinicOs.Lib.Scan
import MinicOs.Mm.Word

/-!
# The physical frame allocator

Model of `alloc_frame` and `free_frame` (`kernel/mm/frames/frames.c`). Bit `f` of
`g_frame_bitmap` is `bitmap f`, set when frame `f` is in use; `g_total_frames` is the constant
`frames_init` stores, 1 GB of 4 KB frames. `alloc_frame` answers `NULL` both when no bit is clear
and when the first clear bit is that of frame 0, whose address is `NULL`; `frames_init` never
clears bit 0 (`mark_range_free` starts at the kernel's end), so the lemmas below take
`bitmap 0 = true`.
-/

namespace MinicOs

open Function Finset

/-- `g_total_frames`, as `frames_init` sets it. -/
def totalFrames : Nat := 262144

/-- `g_frame_bitmap` and `g_free_frame_count`. -/
structure Frames where
  bitmap : Nat → Bool
  freeCount : BitVec 32

/-- `frame_set` and the count update of `alloc_frame`. -/
def Frames.take (fr : Frames) (f : Nat) : Frames :=
  { bitmap := Function.update fr.bitmap f true, freeCount := fr.freeCount - 1 }

/-- `frame_clear` and the count update of `free_frame`. -/
def Frames.give (fr : Frames) (f : Nat) : Frames :=
  { bitmap := Function.update fr.bitmap f false, freeCount := fr.freeCount + 1 }

/-- `alloc_frame`: the address of the first free frame, `0` for `NULL`. -/
def allocFrame (fr : Frames) : U64 × Frames :=
  match scan totalFrames (fun i => !fr.bitmap i) with
  | some i => (frameAddr i, fr.take i)
  | none => (0#64, fr)

/-- `free_frame`: the frame number is computed in `u32`. -/
def freeFrame (fr : Frames) (addr : U64) : Frames :=
  let frame := frameNum addr % 2 ^ 32
  if fr.bitmap frame = true then fr.give frame else fr

/-- Frame `f` is free: it exists and its bit is clear. -/
def Frames.Free (fr : Frames) (f : Nat) : Prop := f < totalFrames ∧ fr.bitmap f = false

theorem totalFrames_lt : totalFrames < 2 ^ 32 := by decide

variable {f : Nat} {fr : Frames}

theorem Frames.Free.lt (h : fr.Free f) : f < totalFrames := h.1

theorem take_bitmap (fr : Frames) (f g : Nat) : (fr.take f).bitmap g = if g = f then true else fr.bitmap g := by
  unfold Frames.take
  simp only [update_apply]

theorem give_bitmap (fr : Frames) (f g : Nat) : (fr.give f).bitmap g = if g = f then false else fr.bitmap g := by
  unfold Frames.give
  simp only [update_apply]

/-! ## Allocation -/

/-- **What `alloc_frame` can do**: take the lowest free frame, or fail with every frame in use. -/
theorem allocFrame_takes (fr : Frames) :
    (∃ f, fr.Free f ∧ allocFrame fr = (frameAddr f, fr.take f) ∧ ∀ g < f, fr.bitmap g = true) ∨
      ((∀ f, ¬ fr.Free f) ∧ allocFrame fr = (0#64, fr)) := by
  unfold allocFrame
  cases hs : scan totalFrames (fun i => !fr.bitmap i) with
  | some i =>
    obtain ⟨hlt, hp, hbelow⟩ := scan_eq_some.mp hs
    exact .inl ⟨i, ⟨hlt, by simpa using hp⟩, rfl, fun g hg => by simpa using hbelow g hg⟩
  | none =>
    refine .inr ⟨fun f hf => ?_, rfl⟩
    simpa [hf.2] using scan_eq_none.mp hs f hf.1

/-- While frame 0 is in use, it is not the one handed out. -/
theorem allocFrame_cases (h0 : fr.bitmap 0 = true) : (∃ f, fr.Free f ∧ 0 < f ∧ allocFrame fr = (frameAddr f, fr.take f)) ∨
      ((∀ f, ¬ fr.Free f) ∧ allocFrame fr = (0#64, fr)) := by
  refine (allocFrame_takes fr).imp_left fun ⟨f, hf, h, _⟩ => ⟨f, hf, Nat.pos_of_ne_zero fun hz => ?_, h⟩
  simpa [h0, hz] using hf.2

theorem frameAddr_ne_zero (hf : f < totalFrames) (h0 : 0 < f) : frameAddr f ≠ 0#64 := by
  have := totalFrames_lt
  rw [Ne, frameAddr_eq_zero (by omega)]
  omega

/-! ## Release -/

theorem freeFrame_frameAddr (hf : f < totalFrames) :
    freeFrame fr (frameAddr f) = if fr.bitmap f = true then fr.give f else fr := by
  have := totalFrames_lt
  unfold freeFrame
  simp only [frameNum_frameAddr (show f < 2 ^ 52 by omega)]
  rw [Nat.mod_eq_of_lt (by omega)]

/-- Giving back a frame just taken undoes the taking. -/
theorem freeFrame_take (hf : fr.Free f) : freeFrame (fr.take f) (frameAddr f) = fr := by
  rw [freeFrame_frameAddr hf.1, if_pos (by rw [take_bitmap, if_pos rfl])]
  unfold Frames.give Frames.take
  simp only [update_idem, BitVec.sub_add_cancel]
  rw [← hf.2, update_eq_self]

/-! ## The number of free frames -/

/-- The number of clear bits. -/
def Frames.freeFrames (fr : Frames) : Nat :=
  ((Finset.range totalFrames).filter fun f => fr.bitmap f = false).card

theorem freeFrames_le (fr : Frames) : fr.freeFrames ≤ totalFrames := by
  rw [← card_range totalFrames]
  exact card_filter_le _ _

theorem freeFrames_take (hf : fr.Free f) : (fr.take f).freeFrames + 1 = fr.freeFrames := by
  refine (card_filter_succ hf.1 hf.2 (by simp [take_bitmap]) fun g _ hg => ?_).symm
  rw [take_bitmap, if_neg hg]

theorem freeFrames_give (hf : f < totalFrames) (hb : fr.bitmap f = true) : (fr.give f).freeFrames = fr.freeFrames + 1 := by
  have hfree : (fr.give f).Free f := ⟨hf, by rw [give_bitmap]; simp⟩
  have hback : (fr.give f).take f = fr := by
    unfold Frames.take Frames.give
    simp only [update_idem, BitVec.add_sub_cancel]
    rw [← hb, update_eq_self]
  rw [← freeFrames_take hfree, hback]

/-- No frame is free iff the count of clear bits is zero. -/
theorem freeFrames_eq_zero : fr.freeFrames = 0 ↔ ∀ f, ¬ fr.Free f := by
  unfold Frames.freeFrames Frames.Free
  rw [card_eq_zero, filter_eq_empty_iff]
  simp only [mem_range, not_and]

end MinicOs
