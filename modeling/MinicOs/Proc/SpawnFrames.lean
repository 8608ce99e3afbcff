import MinicOs.Mm.FrameCount
import MinicOs.Proc.Boot

/-!
# What a failed spawn leaves behind

`spawn_process` gives nothing back on its failure paths, except the one frame it could not map. So
the number of free frames never recovers from the first allocation on, and a failed spawn restores
the frames exactly when it allocated none.
-/

namespace MinicOs

/-! ## Loading -/

theorem loadPage_freeFrames_le (cr3 loadVaddr : U64) (j : Nat) (bytes : List U8) (ph : Phys) :
    (loadPage cr3 loadVaddr j bytes ph).2.frames.freeFrames ≤ ph.frames.freeFrames := by
  have ha := le_of_eq_of_le (allocFrame_freeFrames ph.frames) (Nat.sub_le _ 1)
  unfold loadPage
  simp only
  split
  · exact ha
  · rename_i h0
    have hm := mapPageIn_freeFrames_le { ph with frames := (allocFrame ph.frames).2 } cr3
      (loadVaddr + BitVec.ofNat 64 j * 4096#64) (allocFrame ph.frames).1 0x06#64
    split
    · exact hm.trans ha
    · exact freeFrame_alloc_le h0 hm _

theorem loadImage_freeFrames_le (cr3 loadVaddr : U64) (image : List U8) (ph : Phys) :
    (loadImage cr3 loadVaddr image ph).2.frames.freeFrames ≤ ph.frames.freeFrames :=
  loopOk_inv (P := fun s => s.frames.freeFrames ≤ ph.frames.freeFrames)
    (fun j _ s hs => (loadPage_freeFrames_le cr3 loadVaddr j (pageBytes image j) s).trans hs) le_rfl

theorem mapStack_freeFrames_le (cr3 v : U64) (ph : Phys) :
    (mapStack cr3 v ph).2.frames.freeFrames ≤ ph.frames.freeFrames := by
  have ha := le_of_eq_of_le (allocFrame_freeFrames ph.frames) (Nat.sub_le _ 1)
  unfold mapStack
  simp only
  split
  · exact ha
  · rename_i h0
    have hm := mapPageIn_freeFrames_le { ph with frames := (allocFrame ph.frames).2 } cr3 v
      (allocFrame ph.frames).1 (0x06#64 ||| pageNx)
    split
    · exact hm.trans ha
    · exact freeFrame_alloc_le h0 hm _

/-- **Building an image** takes at least the frame of the PML4 for good. -/
theorem buildImage_freeFrames (ph : Phys) (gPml4 : U64) (image : List U8) (loadVaddr stackVaddr : U64) :
    (buildImage ph gPml4 image loadVaddr stackVaddr).2.frames.freeFrames ≤ ph.frames.freeFrames - 1 := by
  obtain ⟨n, hn⟩ := cloneAddressSpace_allocs ph gPml4
  have hc : (cloneAddressSpace ph gPml4).2.frames.freeFrames ≤ ph.frames.freeFrames - 1 := by
    rw [hn, freeFrames_allocs]
    omega
  unfold buildImage
  simp only
  split
  · exact hc
  · have hl := (loadImage_freeFrames_le (cloneAddressSpace ph gPml4).1 loadVaddr image
      (cloneAddressSpace ph gPml4).2).trans hc
    split
    · have hs := (mapStack_freeFrames_le (cloneAddressSpace ph gPml4).1 stackVaddr
        (loadImage (cloneAddressSpace ph gPml4).1 loadVaddr image (cloneAddressSpace ph gPml4).2).2).trans hl
      split <;> exact hs
    · exact hl

/-! ## A failed spawn -/

/-- The frames in number, the process table and the task table are as before. -/
structure Restored (k k' : Kernel) : Prop where
  frames : k'.mm.phys.frames.freeFrames = k.mm.phys.frames.freeFrames
  procs : k'.procs = k.procs ∧ k'.procCount = k.procCount
  tasks : k'.sched = k.sched

/-- **A failed spawn** found no record, or it left the tables alone and has lost a frame if there
was one. -/
theorem spawnProcess_failed {k k' : Kernel} {image : List U8} {loadVaddr stackVaddr : U64}
    {sandboxed : Bool} (h : spawnProcess k image loadVaddr stackVaddr sandboxed = some (-1, k')) :
    (findProcessSlot k.procs k.procCount = none ∧ k' = k) ∨
      (findProcessSlot k.procs k.procCount ≠ none ∧ k'.procs = k.procs ∧ k'.procCount = k.procCount ∧ k'.sched = k.sched ∧
        k'.mm.phys.frames.freeFrames ≤ k.mm.phys.frames.freeFrames - 1) := by
  have hb := buildImage_freeFrames k.mm.phys k.mm.gPml4Phys image loadVaddr stackVaddr
  by_cases hslot : findProcessSlot k.procs k.procCount = none
  · left
    refine ⟨hslot, ?_⟩
    unfold spawnProcess at h
    rw [hslot] at h
    cases h
    rfl
  right
  refine ⟨hslot, ?_⟩
  rcases spawnProcess_cases h with ⟨-, ⟨hnone, -⟩ | ⟨-, hk⟩⟩ | ⟨procIndex, -, -, hreg⟩
  · exact absurd hnone hslot
  · rw [hk]
    exact ⟨rfl, rfl, rfl, hb⟩
  · obtain ⟨t, mm, sched, hcreate, hcase⟩ := registerSpawn_cases hreg
    have hle : mm.phys.frames.freeFrames ≤ k.mm.phys.frames.freeFrames - 1 := by
      obtain rfl | ⟨stackMem, ph, heap, hk, rfl⟩ := createTaskWithCr3_mm hcreate
      · exact hb
      · exact (kallocLoop_freeFrames_le hk).trans hb
    rcases hcase with ⟨hneg, -, hk⟩ | ⟨-, hr, -⟩
    · rcases createTaskWithCr3_cases hcreate with ⟨-, hs⟩ | ⟨i, -, hi, -⟩
      · rw [hk]
        exact ⟨rfl, rfl, hs, hle⟩
      · omega
    · -- A record index is never the answer `-1`.
      have := recordIndex_nonneg (k.setPhys (buildImage k.mm.phys k.mm.gPml4Phys image loadVaddr stackVaddr).2) procIndex
      omega

/-- **A failed spawn leaks nothing iff** it found no process record, or there was no frame to
lose. -/
theorem spawnProcess_restores_iff {k k' : Kernel} {image : List U8} {loadVaddr stackVaddr : U64}
    {sandboxed : Bool} (h : spawnProcess k image loadVaddr stackVaddr sandboxed = some (-1, k')) : Restored k k' ↔
      findProcessSlot k.procs k.procCount = none ∨ k.mm.phys.frames.freeFrames = 0 := by
  rcases spawnProcess_failed h with ⟨hslot, rfl⟩ | ⟨hslot, hp, hc, hs, hf⟩
  · exact iff_of_true ⟨rfl, ⟨rfl, rfl⟩, rfl⟩ (Or.inl hslot)
  · refine ⟨fun hr => Or.inr ?_, fun hcond => ⟨?_, ⟨hp, hc⟩, hs⟩⟩
    · have := hr.frames
      omega
    · have := hcond.resolve_left hslot
      omega

/-- A boot state in which every task slot is taken. -/
def tasksTaken : Kernel :=
  { bootKernel with
    sched := { tasks := fun _ => { noTask with used := true, cr3 := frameAddr 1 }, taskCount := 24 } }

theorem spawn_tasksTaken : spawnProcess tasksTaken [0x90] 0x80000000 0x80020000 false =
      some (-1, spawned tasksTaken false) :=
  spawned_eq (by decide +kernel)

theorem spawnProcess_restores_iff_tasksTaken : Restored tasksTaken (spawned tasksTaken false) ↔
      findProcessSlot tasksTaken.procs tasksTaken.procCount = none ∨ tasksTaken.mm.phys.frames.freeFrames = 0 :=
  spawnProcess_restores_iff spawn_tasksTaken

/-- With every task slot taken, a spawn fails after it has built its image, and its frames are
lost. -/
theorem failed_spawn_leaks : ∃ k k' : Kernel, spawnProcess k [0x90] 0x80000000 0x80020000 false = some (-1, k') ∧
      ¬ Restored k k' := by
  refine ⟨tasksTaken, _, spawn_tasksTaken, fun hr => ?_⟩
  rcases spawnProcess_failed spawn_tasksTaken with ⟨hslot, -⟩ | ⟨-, -, -, -, hf⟩
  · exact absurd hslot (by decide +kernel)
  · have hfree : tasksTaken.mm.phys.frames.freeFrames ≠ 0 := fun h0 =>
      freeFrames_eq_zero.mp h0 32 ⟨by decide, rfl⟩
    have := hr.frames
    omega

end MinicOs
