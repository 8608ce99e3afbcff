import MinicOs.Lib.Loop
import MinicOs.Mm.Frames

/-!
# The bytes of the frame bitmap

`g_frame_bitmap` as `kernel/mm/frames/frames.c` keeps it, eight frames a byte, with the masks of
`frame_test`, `frame_set` and `frame_clear`. Read bit by bit the bytes are a `Frames`, and each
call on the bytes is the call on the bits (`frames_allocFrame`, `frames_freeFrame`).

Both calls have interrupts off from their first access to their last, so on one CPU what tasks and
interrupt handlers do is a sequence of whole calls (`FrameRun.step`). Beside the bytes a run keeps
the frames it has handed out and not got back since.
-/

namespace MinicOs

open Function BitVec

/-- `g_frame_bitmap` and `g_free_frame_count`. -/
structure FrameBytes where
  bytes : Nat → U8
  freeCount : BitVec 32

/-- `(u8) (1 << (frame % 8))`. -/
def frameMask (frame : Nat) : U8 := BitVec.ofNat 8 (2 ^ (frame % 8))

def frameSet (bytes : Nat → U8) (frame : Nat) : Nat → U8 :=
  update bytes (frame / 8) (bytes (frame / 8) ||| frameMask frame)

def frameTest (bytes : Nat → U8) (frame : Nat) : Bool := bytes (frame / 8) &&& frameMask frame != 0#8

def frameClear (bytes : Nat → U8) (frame : Nat) : Nat → U8 :=
  update bytes (frame / 8) (bytes (frame / 8) &&& ~~~frameMask frame)

/-- `alloc_frame` on the bytes. -/
def FrameBytes.allocFrame (s : FrameBytes) : U64 × FrameBytes :=
  match scan totalFrames (fun i => !frameTest s.bytes i) with
  | some i => (frameAddr i, ⟨frameSet s.bytes i, s.freeCount - 1⟩)
  | none => (0#64, s)

/-- `free_frame` on the bytes. -/
def FrameBytes.freeFrame (s : FrameBytes) (addr : U64) : FrameBytes :=
  let frame := frameNum addr % 2 ^ 32
  if frameTest s.bytes frame then ⟨frameClear s.bytes frame, s.freeCount + 1⟩ else s

/-! ## Bit by bit -/

theorem frameTest_eq (bytes : Nat → U8) (f : Nat) : frameTest bytes f = (bytes (f / 8)).getLsbD (f % 8) :=
  and_bit_ne_zero _ _ (Nat.mod_lt f (by decide))

theorem getLsbD_frameMask (f i : Nat) : (frameMask f).getLsbD i = decide (i = f % 8) :=
  getLsbD_bit _ (Nat.mod_lt f (by decide)) i

theorem frameTest_update (bytes : Nat → U8) (f g : Nat) (b : U8) :
    frameTest (update bytes (f / 8) b) g = if g / 8 = f / 8 then b.getLsbD (g % 8) else frameTest bytes g := by
  rw [frameTest_eq, frameTest_eq, update_apply]
  split <;> rfl

theorem eq_iff_byte_bit (f g : Nat) : g = f ↔ g / 8 = f / 8 ∧ g % 8 = f % 8 := by omega

theorem frameTest_frameSet (bytes : Nat → U8) (f : Nat) :
    frameTest (frameSet bytes f) = update (frameTest bytes) f true := by
  funext g
  rw [frameSet, frameTest_update, getLsbD_or, getLsbD_frameMask, update_apply, frameTest_eq]
  grind [eq_iff_byte_bit f g]

theorem frameTest_frameClear (bytes : Nat → U8) (f : Nat) :
    frameTest (frameClear bytes f) = update (frameTest bytes) f false := by
  funext g
  rw [frameClear, frameTest_update, getLsbD_and, getLsbD_not, getLsbD_frameMask, update_apply, frameTest_eq]
  grind [eq_iff_byte_bit f g]

def FrameBytes.frames (s : FrameBytes) : Frames := ⟨frameTest s.bytes, s.freeCount⟩

variable (s : FrameBytes)

theorem frames_allocFrame : allocFrame s.frames = (s.allocFrame.1, s.allocFrame.2.frames) := by
  unfold allocFrame FrameBytes.allocFrame FrameBytes.frames
  cases scan totalFrames (fun i => !frameTest s.bytes i) <;> simp [Frames.take, frameTest_frameSet]

theorem frames_freeFrame (addr : U64) : freeFrame s.frames addr = (s.freeFrame addr).frames := by
  unfold freeFrame FrameBytes.freeFrame FrameBytes.frames
  dsimp only
  split
  · rw [Frames.give, frameTest_frameClear]
  · rfl

/-! ## Runs -/

/-- A call; `free_frame` is passed the address of a page below 1 GiB. -/
inductive FrameCall where
  | alloc
  | free (frame : Fin totalFrames)

/-- The allocator, and the frames handed out and not given back since. -/
structure FrameRun where
  mem : FrameBytes
  out : List Nat

def FrameRun.step (s : FrameRun) : FrameCall → FrameRun
  | .alloc =>
    let r := s.mem.allocFrame
    ⟨r.2, if r.1 = 0#64 then s.out else frameNum r.1 :: s.out⟩
  | .free frame => ⟨s.mem.freeFrame (frameAddr frame), s.out.filter (· ≠ frame.val)⟩

/-- `g_free_frame_count` is the number of clear bits. -/
def FrameBytes.Counted : Prop := s.freeCount.toNat = s.frames.freeFrames

/-- What the calls keep: the count, and that a frame handed out is in use. -/
structure FrameRun.Kept (s : FrameRun) : Prop where
  counted : s.mem.Counted
  inUse : ∀ f ∈ s.out, frameTest s.mem.bytes f = true

theorem FrameRun.Kept.of_frames {s : FrameRun} {fr : Frames} (hs : s.mem.frames = fr)
    (hcount : fr.freeCount.toNat = fr.freeFrames) (hout : ∀ f ∈ s.out, fr.bitmap f = true) : s.Kept := by
  subst hs
  exact ⟨hcount, hout⟩

/-- What the next `alloc_frame` does: it takes the lowest free frame, which nobody holds, and no
other, or every frame is in use. -/
def FrameRun.AllocOk (s : FrameRun) : Prop :=
  (∃ f, s.mem.frames.Free f ∧ (∀ g < f, frameTest s.mem.bytes g = true) ∧ f ∉ s.out ∧
      s.mem.allocFrame.1 = frameAddr f ∧ s.mem.allocFrame.2.frames = s.mem.frames.take f) ∨
    ((∀ f, ¬ s.mem.frames.Free f) ∧ s.mem.allocFrame.1 = 0#64 ∧ s.mem.allocFrame.2.frames = s.mem.frames)

variable {r : FrameRun}

theorem FrameRun.Kept.allocOk (h : r.Kept) : r.AllocOk := by
  have hr := frames_allocFrame r.mem
  rcases allocFrame_takes r.mem.frames with ⟨f, hf, htake, hlow⟩ | ⟨hfull, hnone⟩
  · refine .inl ⟨f, hf, hlow, fun hout => ?_, Prod.mk.inj (hr.symm.trans htake)⟩
    exact Bool.false_ne_true (hf.2.symm.trans (h.inUse f hout))
  · exact .inr ⟨hfull, Prod.mk.inj (hr.symm.trans hnone)⟩

theorem FrameRun.Kept.step (h : r.Kept) (call : FrameCall) : (r.step call).Kept := by
  have hcount : r.mem.frames.freeCount.toNat = r.mem.frames.freeFrames := h.counted
  cases call with
  | alloc =>
    obtain ⟨f, hf, -, -, haddr, hframes⟩ | ⟨-, haddr, hframes⟩ := h.allocOk
    · refine .of_frames hframes ?_ fun g hg => ?_
      · have hone := freeFrames_take hf
        change (r.mem.frames.freeCount - 1#32).toNat = _
        rw [toNat_sub_of_le (by rw [le_def, hcount, ← hone]; simp), hcount, ← hone, toNat_ofNat]
        omega
      · have hnum := frameNum_frameAddr (hf.1.trans (by decide : totalFrames < 2 ^ 52))
        rw [take_bitmap]
        split
        · rfl
        · exact h.inUse g (by grind [FrameRun.step])
    · exact .of_frames hframes hcount fun g hg => h.inUse g (by grind [FrameRun.step])
  | free f =>
    refine .of_frames ((frames_freeFrame _ _).symm.trans (freeFrame_frameAddr f.2)) ?_ fun g hg => ?_
    · split
      · rename_i hbit
        have hlt := (freeFrames_le (r.mem.frames.give f)).trans_lt totalFrames_lt
        rw [freeFrames_give f.2 hbit] at hlt ⊢
        change (r.mem.frames.freeCount + 1#32).toNat = _
        rw [toNat_add, hcount]
        exact Nat.mod_eq_of_lt hlt
      · exact hcount
    · obtain ⟨hout, hne⟩ := List.mem_filter.mp hg
      split
      · rw [give_bitmap, if_neg (by simpa using hne)]
        exact h.inUse g hout
      · exact h.inUse g hout

/-- **The frame allocator**: after any calls the count is the number of clear bits, the next
`alloc_frame` takes the lowest free frame, which nobody holds, with `NULL` only when none is free
(frame 0 apart), and the next `free_frame` clears its frame's bit and no other. -/
theorem frame_calls (mem : FrameBytes) (hcount : mem.Counted) (calls : List FrameCall) :
    let s := calls.foldl FrameRun.step ⟨mem, []⟩
    s.mem.Counted ∧ s.AllocOk ∧
      (frameTest s.mem.bytes 0 = true → s.mem.allocFrame.1 = 0#64 → ∀ f, ¬ s.mem.frames.Free f) ∧
      ∀ f : Fin totalFrames, (s.mem.freeFrame (frameAddr f)).frames =
        if frameTest s.mem.bytes f = true then s.mem.frames.give f else s.mem.frames := by
  intro s
  have hkept : s.Kept := List.foldlRecOn calls _ ⟨hcount, by simp⟩ fun s hs call _ => hs.step call
  refine ⟨hkept.counted, hkept.allocOk, fun h0 hnull => ?_,
    fun f => (frames_freeFrame _ _).symm.trans (freeFrame_frameAddr f.2)⟩
  obtain ⟨f, hf, hpos, hr⟩ | ⟨hfull, -⟩ := @allocFrame_cases s.mem.frames h0
  · rw [frames_allocFrame, hnull] at hr
    exact absurd (Prod.mk.inj hr).1.symm (frameAddr_ne_zero hf.1 hpos)
  · exact hfull

/-- Frame 5 given back and taken again, from the bytes `frames_init` starts with. -/
theorem frame_calls_init :
    let s := [FrameCall.free ⟨5, by decide⟩, .alloc].foldl FrameRun.step ⟨⟨fun _ => 255#8, 0⟩, []⟩
    s.mem.Counted ∧ s.AllocOk := by
  have hfull : (FrameBytes.frames ⟨fun _ => 255#8, 0⟩).freeFrames = 0 := by
    refine freeFrames_eq_zero.mpr fun f hf => ?_
    have hset : (BitVec.allOnes 8).getLsbD (f % 8) = false := (frameTest_eq _ f).symm.trans hf.2
    rw [getLsbD_allOnes] at hset
    exact of_decide_eq_false hset (Nat.mod_lt f (by decide))
  obtain ⟨hcount, halloc, -⟩ := frame_calls ⟨fun _ => 255#8, 0⟩ (by rw [FrameBytes.Counted, hfull]; rfl)
    [.free ⟨5, by decide⟩, .alloc]
  exact ⟨hcount, halloc⟩

end MinicOs
