import MinicOs.Ipc.FileCommit
import MinicOs.Proc.Boot
import MinicOs.Syscall.Allocation

/-!
# Which failed allocations leave the tables alone

The allocations whose failure depends on more than the tables: shared memory and threads on the
frames, files on what is on disk, grants on the target's handles. A call is atomic in every machine
with given tables iff the tables are as `AllocSafe` says.
-/

namespace MinicOs

open Function Option Finset AllocCall

section Calls

variable {m : Machine} {t : Int}

/-! ## 55: a shared region -/

/-- The size of a region of one to four pages. -/
def RegionSized (size : Nat) : Prop :=
  0 < (size + 4095) % 2 ^ 32 / 4096 ∧ (size + 4095) % 2 ^ 32 / 4096 ≤ shmMaxPages

/-- The loop that fills the region `slot`. -/
def fillRegion (fr : Frames) (regions : SharedRegions) (size slot : Nat) : Bool × (Frames × SharedRegion) :=
  loopOk fillPage (List.range ((size + 4095) % 2 ^ 32 / 4096)) (fr, { regions slot with used := true })

/-- **`alloc_shared_memory`** fails at once, or takes the first unused region and keeps it iff its pages
are found. -/
theorem allocSharedMemory_cases (fr : Frames) (regions : SharedRegions) (size : Nat) :
    ((RegionSized size → (scan shmSlots fun i => !(regions i).used) = none) ∧
        allocSharedMemory fr regions size = (-1, fr, regions)) ∨ ∃ (slot : Nat) (region : SharedRegion), RegionSized size ∧
        (scan shmSlots fun i => !(regions i).used) = some slot ∧ region.used = (fillRegion fr regions size slot).1 ∧
        allocSharedMemory fr regions size = (if (fillRegion fr regions size slot).1 = true then (slot : Int) else -1,
          (fillRegion fr regions size slot).2.1, update regions slot region) := by
  unfold allocSharedMemory
  simp only
  split
  · rename_i hpages
    exact .inl ⟨fun hsized => absurd hsized (by unfold RegionSized; omega), rfl⟩
  rename_i hpages
  split
  · rename_i hs
    exact .inl ⟨fun _ => hs, rfl⟩
  rename_i slot hs
  have hused : (fillRegion fr regions size slot).2.2.used = true := by
    refine loopOk_inv (P := fun s : Frames × SharedRegion => s.2.used = true) (fun j _ s hs => ?_) rfl
    unfold fillPage
    simp only
    split <;> exact hs
  have hsized : RegionSized size := by
    unfold RegionSized
    omega
  right
  rw [← fillRegion]
  split
  · rename_i fr' r heq
    exact ⟨slot, { r with used := false }, hsized, hs, by rw [heq], by rw [heq]; rfl⟩
  · rename_i fr' r heq
    rw [heq] at hused
    exact ⟨slot, { r with pageCount := (size + 4095) % 2 ^ 32 / 4096 }, hsized, hs, by rw [heq]; exact hused, by rw [heq]; rfl⟩

/-- With frames enough, the pages of a region are found. -/
theorem fillPages_ok : ∀ {l : List Nat} {fr : Frames} {r : SharedRegion}, fr.bitmap 0 = true →
    l.length ≤ fr.freeFrames → (loopOk fillPage l (fr, r)).1 = true
  | [], _, _, _, _ => rfl
  | j :: l, fr, r, h0, hle => by
    rw [List.length_cons] at hle
    obtain ⟨f, hf, hf0, halloc⟩ | ⟨hnone, -⟩ := allocFrame_cases h0
    swap
    · have hzero := freeFrames_eq_zero.mpr hnone
      omega
    have hfill : fillPage j (fr, r) =
        (true, (fr.take f, { r with frames := update r.frames j (frameAddr f) })) := by
      unfold fillPage
      simp only [halloc, if_neg (frameAddr_ne_zero hf.1 hf0)]
    rw [loopOk_cons_true hfill]
    refine fillPages_ok ?_ ?_
    · rw [take_bitmap, if_neg (by omega)]
      exact h0
    · have htake := freeFrames_take hf
      omega

/-- Physical memory of which only frame 0 is in use. -/
def roomyFrames : Frames where
  bitmap := fun f => f == 0
  freeCount := 262143

theorem four_le_roomyFrames : 4 ≤ roomyFrames.freeFrames := by
  have hsub : (Finset.range 5).erase 0 ⊆
      (Finset.range totalFrames).filter fun f => roomyFrames.bitmap f = false := by
    intro f hf
    obtain ⟨h0, h5⟩ := mem_erase.mp hf
    rw [mem_filter, mem_range]
    have hlt := mem_range.mp h5
    exact ⟨by unfold totalFrames; omega, beq_eq_false_iff_ne.mpr h0⟩
  exact card_le_card hsub

theorem fillRegion_roomy {regions : SharedRegions} {size : Nat} (hsized : RegionSized size) (slot : Nat) :
    (fillRegion roomyFrames regions size slot).1 = true := by
  refine fillPages_ok rfl ?_
  have hmax : shmMaxPages = 4 := rfl
  have hfour := four_le_roomyFrames
  obtain ⟨-, hle⟩ := hsized
  rw [List.length_range]
  omega

/-- The kernel after `alloc_shared_memory`. -/
def Kernel.withRegions (k : Kernel) (size : Nat) : Kernel :=
  let r := allocSharedMemory k.mm.phys.frames k.mm.shm size
  { k with mm := { k.mm with phys := { k.mm.phys with frames := r.2.1 }, shm := r.2.2 } }

/-- Syscall 55 of a process: a region, then an object and a handle. -/
theorem sharedMemory_eq (a1 : U64) (hp : 0 ≤ m.kernel.processOf t) : (sharedMemory a1).run m t = m.ofHandler (some
      (openSlot (m.kernel.withRegions (a1.toNat % 2 ^ 32)) t .sharedMemory
        (allocSharedMemory m.kernel.mm.phys.frames m.kernel.mm.shm (a1.toNat % 2 ^ 32)).1 rightMap true)) := by
  show m.ofHandler (some (if m.kernel.processOf t < 0 then _ else _)) = _
  rw [if_neg (not_lt.mpr hp)]
  rfl

variable {a1 : U64}

/-- The call is atomic unless it has filled a region and has no object or no handle for it. -/
theorem sharedMemory_atomic_iff (hp : 0 ≤ m.kernel.processOf t) : (sharedMemory a1).Atomic m t ↔
    ∀ slot : Nat, RegionSized (a1.toNat % 2 ^ 32) → (scan shmSlots fun i => !(m.kernel.mm.shm i).used) = some slot →
      (fillRegion m.kernel.mm.phys.frames m.kernel.mm.shm (a1.toNat % 2 ^ 32) slot).1 = true →
        m.kernel.caps.Room (m.kernel.processOf t) := by
  have hrun := sharedMemory_eq a1 hp
  unfold Kernel.withRegions at hrun
  obtain ⟨hnone, heq⟩ | ⟨slot, region, hsized, hs, hused, heq⟩ :=
    allocSharedMemory_cases m.kernel.mm.phys.frames m.kernel.mm.shm (a1.toNat % 2 ^ 32)
  · rw [heq] at hrun
    exact iff_of_true (atomic_of_same hrun) fun slot hsized hs => by simp [hnone hsized] at hs
  have hunused : (m.kernel.mm.shm slot).used = false := by simpa using (scan_eq_some.mp hs).2.1
  simp only [hsized, hs, true_imp_iff, some.injEq, forall_eq']
  rw [heq] at hrun
  cases hfill : (fillRegion m.kernel.mm.phys.frames m.kernel.mm.shm (a1.toNat % 2 ^ 32) slot).1 with
  | false =>
    rw [hfill] at hrun hused
    refine iff_of_true ((atomic_iff hrun).mpr fun _ => { TablesKept.refl m with regions := fun i => ?_ }) (by simp)
    by_cases hi : i = slot
    · simp only [hi, update_self, hused, hunused]
    · simp only [update_of_ne hi]
  | true =>
    rw [hfill] at hrun hused
    simp only [true_imp_iff]
    rw [atomic_iff ((hrun.trans (@ofHandler_openSlot { m with kernel := _ } t .sharedMemory slot rightMap true
      (Int.natCast_nonneg slot))).trans (ofHandler_openObject hp)), createObject_fails_iff]
    refine ⟨fun hk => by_contra fun hfull => ?_, fun hroom hfull => absurd hroom hfull⟩
    -- the region that was found stays used
    have hkept := (hk hfull).regions slot
    simp only [update_self, hused, hunused] at hkept
    simp at hkept

theorem sharedMemory_atomic_of_safe (h : AllocSafe m t (.sharedMemory a1)) : (sharedMemory a1).Atomic m t := by
  by_cases hp : m.kernel.processOf t < 0
  · refine atomic_of_same ?_
    show m.ofHandler (some (if m.kernel.processOf t < 0 then _ else _)) = _
    rw [if_pos hp]
    rfl
  refine (sharedMemory_atomic_iff (not_lt.mp hp)).mpr fun slot hsized hs _ => ?_
  exact ((h.resolve_left hp).resolve_left (not_not_intro hsized)).resolve_left (by simp [hs])

/-- With memory enough, a region that is unused is taken and never given back. -/
theorem sharedMemory_safe_of_atomic (hroomy : m.kernel.mm.phys.frames = roomyFrames)
    (h : (sharedMemory a1).Atomic m t) : AllocSafe m t (.sharedMemory a1) := by
  simp only [AllocSafe]
  by_contra hunsafe
  push Not at hunsafe
  obtain ⟨hp, hsized, hslot, hfull⟩ := hunsafe
  obtain ⟨slot, hs⟩ := ne_none_iff_exists'.mp hslot
  refine hfull ((sharedMemory_atomic_iff hp).mp h slot hsized hs ?_)
  rw [hroomy]
  exact fillRegion_roomy hsized slot

/-! ## 71: a task -/

variable {i : Nat}

section Thread

variable {k k' : Kernel} {mm mm' : Mm} {s s' : Sched} {cr3 entry : U64} {c : Int}

/-- `create_task_with_cr3` takes the free task, or fails and leaves the tasks alone. -/
theorem createTaskWithCr3_freeTask (h : createTaskWithCr3 mm s cr3 = some (c, mm', s')) :
    mm'.shm = mm.shm ∧ ((c < 0 ∧ s' = s) ∨ ∃ (i : Nat) (st : U64), c = i ∧ s.freeTask = some i ∧
      s'.tasks = update s.tasks i (freshTask cr3 st)) := by
  refine ⟨by obtain rfl | ⟨_, _, _, -, rfl⟩ := createTaskWithCr3_mm h <;> rfl, ?_⟩
  unfold Sched.freeTask
  rcases createTaskWithCr3_cases h with ⟨rfl, hs⟩ | ⟨i, st, rfl, htasks, ⟨hs, -⟩ | ⟨hs, rfl, hmax, -⟩⟩
  · exact .inl ⟨by decide, hs⟩
  · exact .inr ⟨i, st, rfl, by rw [hs], htasks⟩
  · exact .inr ⟨_, st, rfl, by simp only [hs, if_neg (not_le.mpr hmax)], htasks⟩

/-- The tasks past the end of the table are unused. -/
def Sched.TailUnused (s : Sched) : Prop := ∀ i : Nat, s.taskCount ≤ i → (s.tasks i).used = false

theorem freeTask_unused (h : s.TailUnused) (hi : s.freeTask = some i) : (s.tasks i).used = false := by
  unfold Sched.freeTask at hi
  split at hi
  · rename_i hs
    cases hi
    simpa using (scan_eq_some.mp hs).2.1
  · split at hi
    · cases hi
    · cases hi
      exact h _ (le_refl _)

/-- **What `thread_create` does**: it fails before it has an object, or takes the free task and opens
an object for it. Either way a failure leaves the tasks used that were. -/
theorem threadCreate_cases (htail : k.sched.TailUnused) {v : U64}
    (h : threadCreate k t entry = some (v, k')) : k'.mm.shm = k.mm.shm ∧
      ((v = errU64 ∧ k'.caps = k.caps ∧ ∀ i, (k'.sched.tasks i).used = (k.sched.tasks i).used) ∨
      ∃ c : Nat, 0 ≤ k.processOf t ∧ k.sched.freeTask = some c ∧
        let r := createObject k.caps (k.processOf t) .thread c rightQuery true
        v = r.1 ∧ k'.caps = r.2 ∧
          (r.1 = errU64 → ∀ i, (k'.sched.tasks i).used = (k.sched.tasks i).used)) := by
  unfold threadCreate at h
  simp only at h
  by_cases hp : k.processOf t < 0
  · rw [if_pos hp] at h
    cases h
    exact ⟨rfl, Or.inl ⟨rfl, rfl, fun _ => rfl⟩⟩
  rw [if_neg hp] at h
  cases hc : createTaskWithCr3 k.mm k.sched (k.procs (k.processOf t)).cr3 with
  | none =>
    rw [hc] at h
    simp at h
  | some r =>
    obtain ⟨c, mm, sched⟩ := r
    rw [hc] at h
    simp only at h
    obtain ⟨hshm, ⟨hneg, rfl⟩ | ⟨i, st, rfl, hfree, htasks⟩⟩ := createTaskWithCr3_freeTask hc
    · rw [if_pos hneg] at h
      cases h
      exact ⟨hshm, Or.inl ⟨rfl, rfl, fun _ => rfl⟩⟩
    rw [if_neg (by omega)] at h
    -- a task that is given back is the one that was unused before
    have hdrop : ∀ (v : Task) (j : Int), v.used = false →
        (update k.sched.tasks (i : Int) v j).used = (k.sched.tasks j).used := by
      intro v j hv
      by_cases hj : j = i
      · rw [hj, update_self, hv, freeTask_unused htail hfree]
      · rw [update_of_ne hj]
    split at h
    · cases h
      refine ⟨hshm, Or.inl ⟨rfl, rfl, fun j => ?_⟩⟩
      show (update sched.tasks (i : Int) _ j).used = _
      rw [htasks, update_idem]
      exact hdrop _ j rfl
    · split at h
      · rename_i hmap herr
        cases h
        refine ⟨hshm, Or.inr ⟨i, not_lt.mp hp, hfree, herr.symm, rfl, fun _ j => ?_⟩⟩
        show (update (update sched.tasks (i : Int) _) (i : Int) _ j).used = _
        rw [htasks, update_idem, update_idem]
        exact hdrop _ j rfl
      · rename_i hmap hok
        cases h
        exact ⟨hshm, Or.inr ⟨i, not_lt.mp hp, hfree, rfl, rfl, fun herr => absurd herr hok⟩⟩

/-- A free block for a kernel stack, and memory for the pages. -/
def roomyMm (mm : Mm) : Mm where
  phys := { mem := fun _ _ => 0, frames := roomyFrames }
  cow := mm.cow
  shm := mm.shm
  heap := { size := 65536, cap := 65536, blocks := [{ size := 65512, free := true }] }
  gPml4Phys := mm.gPml4Phys

/-- The kernel with that memory, and with every process on an empty address space. -/
def Kernel.roomy (k : Kernel) : Kernel :=
  { k with
    mm := roomyMm k.mm
    procs := fun _ => { used := true, cr3 := 0, taskIndex := 0, uid := 0, mainStackVaddr := 0, nextThreadStackVaddr := 0 } }

/-- There `thread_create` fails only for want of a task, an object or a handle. -/
theorem threadCreate_roomy {c : Nat} (hp : 0 ≤ k.processOf t) (hfree : k.sched.freeTask = some c) :
    ∃ k', threadCreate k.roomy t entry = some ((createObject k.caps (k.processOf t) .thread c rightQuery true).1, k') ∧
      k'.caps = (createObject k.caps (k.processOf t) .thread c rightQuery true).2 := by
  have htask : ∃ heap sched, createTaskWithCr3 (roomyMm k.mm) k.sched 0 =
      some ((c : Int), { roomyMm k.mm with heap := heap }, sched) := by
    unfold Sched.freeTask at hfree
    unfold createTaskWithCr3
    cases hs : scan k.sched.taskCount fun i => !(k.sched.tasks i).used with
    | some i =>
      rw [hs] at hfree
      cases hfree
      exact ⟨_, _, rfl⟩
    | none =>
      rw [hs] at hfree
      simp only at hfree
      split at hfree
      · simp at hfree
      · rename_i hmax
        cases hfree
        simp only [if_neg hmax]
        exact ⟨_, _, rfl⟩
  have hmap : (mapStack (k.roomy.procs (k.roomy.processOf t)).cr3
      (k.roomy.procs (k.roomy.processOf t)).nextThreadStackVaddr (roomyMm k.mm).phys).1 = true := by
    show (mapStack 0 0 { mem := fun _ _ => 0, frames := roomyFrames }).1 = true
    decide +kernel
  obtain ⟨heap, sched, htask⟩ := htask
  unfold threadCreate
  simp only
  rw [if_neg (show ¬ k.roomy.processOf t < 0 from not_lt.mpr hp),
    show createTaskWithCr3 k.roomy.mm k.roomy.sched (k.roomy.procs (k.roomy.processOf t)).cr3 = _ from htask]
  simp only
  rw [if_neg (not_lt.mpr (Int.natCast_nonneg c)), if_neg (by rw [hmap]; simp)]
  split
  · rename_i herr
    exact ⟨_, congrArg some (Prod.ext herr.symm rfl), rfl⟩
  · exact ⟨_, rfl, rfl⟩

end Thread

theorem threadCreate_atomic_of_safe (htail : m.kernel.sched.TailUnused) (h : AllocSafe m t (.threadCreate a1)) :
    (AllocCall.threadCreate a1).Atomic m t := by
  simp only [AllocSafe] at h
  intro v m' hrun hneg
  have hrun' : m.ofHandler (some (doneWith (threadCreate m.kernel t a1))) = some (v, m') := hrun
  cases hc : threadCreate m.kernel t a1 with
  | none =>
    rw [hc] at hrun'
    simp [doneWith, Machine.ofHandler] at hrun'
  | some r =>
    obtain ⟨w, k'⟩ := r
    rw [hc] at hrun'
    cases hrun'
    obtain ⟨hshm, ⟨-, hcaps, htasks⟩ | ⟨c, hp, hfree, hv, hcaps, htasks⟩⟩ := threadCreate_cases htail hc
    · exact { TablesKept.refl m with caps := hcaps, regions := fun i => by rw [hshm], tasks := htasks }
    · have hroom := createObject_fails_iff.mp (hv ▸ hneg)
      have hrestored := (h.resolve_left (not_lt.mpr hp)) c hfree
      exact { TablesKept.refl m with
        caps := hcaps.trans ((createObject_restored_iff _).mpr hrestored hroom)
        regions := fun i => by rw [hshm]
        tasks := htasks (createObject_eq_err_iff.mpr hroom) }

/-- The machine with memory enough for anything. -/
def Machine.roomy (m : Machine) : Machine := { m with kernel := m.kernel.roomy }

theorem threadCreate_safe_of_atomic (h : (AllocCall.threadCreate a1).Atomic m.roomy t) :
    AllocSafe m t (.threadCreate a1) := by
  simp only [AllocSafe]
  by_cases hp : m.kernel.processOf t < 0
  · exact .inl hp
  refine .inr fun c hfree => (createObject_restored_iff rightQuery).mp fun hroom => ?_
  obtain ⟨k', hcreate, hcaps⟩ := @threadCreate_roomy t m.kernel a1 c (not_lt.mp hp) hfree
  have hrun : (AllocCall.threadCreate a1).run m.roomy t = some
      ((createObject m.kernel.caps (m.kernel.processOf t) .thread c rightQuery true).1, { m.roomy with kernel := k' }) := by
    show m.roomy.ofHandler (some (doneWith (threadCreate m.kernel.roomy t a1))) = _
    rw [hcreate]
    rfl
  exact hcaps.symm.trans (h _ _ hrun (createObject_fails_iff.mpr hroom)).caps

/-! ## 44: an open file -/

variable {s : OpenFiles}

theorem fileObjectClose_files {s' : OpenFiles} {slot : Int} {ok : Bool} (h : fileObjectClose s slot = some (ok, s')) :
    s'.files = update s.files slot (s.files slot).release := by
  unfold fileObjectClose at h
  simp only at h
  split at h
  · cases h
    rfl
  · obtain ⟨r, -, heq⟩ := map_eq_some_iff.mp h
    cases heq
    rfl

theorem freeSlot_unused (h : s.freeSlot = some i) : (s.files i).used = false := by
  simpa using (scan_eq_some.mp h).2.1

variable {access : Int} {path : List U8}

/-- Syscall 44 from the open file on: an object and a handle, or the file is closed again. -/
theorem fileOpen_run {slot : Int} {files : OpenFiles} (hp : 0 ≤ m.kernel.processOf t)
    (hopen : fileObjectOpen m.openFiles path access (m.kernel.procs (m.kernel.processOf t)).uid = some (slot, files)) :
    (fileOpen path access).run m t =
      let r := createObject m.kernel.caps (m.kernel.processOf t) .file slot (fileRights access) true
      if slot < 0 then some (ofInt slot, { m with openFiles := files })
      else if r.1 = errU64 then (fileObjectClose files slot).map fun c =>
        (errU64, { m with kernel := { m.kernel with caps := r.2 }, openFiles := c.2 })
      else some (r.1, { m with kernel := { m.kernel with caps := r.2 }, openFiles := files }) := by
  show Option.map _ (openFile m.fileState (m.kernel.processOf t) path access) = _
  unfold openFile
  rw [if_neg (not_lt.mpr hp),
    show fileObjectOpen m.fileState.toOpenFiles path access (m.fileState.uid (m.kernel.processOf t)) = _ from hopen]
  simp only [openHandle_eq, dropFile, show m.fileState.caps = m.kernel.caps from rfl]
  split_ifs
  · rfl
  · rw [Option.map_map]
    rfl
  · rfl

theorem fileOpen_atomic_of_safe (h : AllocSafe m t (.fileOpen path access)) : (fileOpen path access).Atomic m t := by
  intro v m' hrun hneg
  obtain ⟨⟨a, s'⟩, hopen, heq⟩ := map_eq_some_iff.mp
    (show Option.map _ (openFile m.fileState (m.kernel.processOf t) path access) = some (v, m') from hrun)
  unfold openFile at hopen
  split at hopen
  · cases hopen
    cases heq
    exact TablesKept.refl m
  rename_i hp
  split at hopen
  · cases hopen
  rename_i slot files hf
  rw [fileOpen_run (not_lt.mp hp) hf] at hrun
  obtain ⟨hslot, rfl⟩ | ⟨i, hi, hfill, hchecked⟩ := fileObjectOpen_cases hf
  · simp only [if_pos hslot] at hrun
    cases hrun
    exact TablesKept.refl m
  have hsafe := (h.resolve_left hp).resolve_left fun hover => by
    rcases hover with ⟨hsys, hlen⟩ | ⟨ha, full, hfull, hlen⟩
    · exact absurd (hchecked hsys).1 (by omega)
    · -- the path overruns a buffer
      simp [OpenFiles.fill, if_neg ha, vfsRead_eq_none hfull hlen] at hfill
  obtain ⟨haccess, hrestored⟩ := hsafe i hi
  obtain ⟨rfl, bytes, rfl⟩ | ⟨-, -, hw, hrw, -⟩ := fill_cases hfill
  swap
  · simp [hw, hrw] at haccess
  simp only [if_neg (not_lt.mpr (Int.natCast_nonneg i))] at hrun
  split at hrun
  · rename_i herr
    obtain ⟨c, hclose, heq⟩ := map_eq_some_iff.mp hrun
    cases heq
    refine { TablesKept.refl m with
      caps := (createObject_restored_iff _).mpr hrestored (createObject_eq_err_iff.mp herr)
      files := fun j => ?_ }
    show (c.2.files j).used = _
    rw [fileObjectClose_files hclose]
    show (update (update m.openFiles.files (i : Int) _) (i : Int) _ j).used = _
    by_cases hj : j = i
    · rw [hj, update_self]
      exact (freeSlot_unused hi).symm
    · rw [update_of_ne hj, update_of_ne hj]
  · rename_i hok
    cases hrun
    exact absurd (createObject_eq_err_iff.mpr (createObject_fails_iff.mp hneg)) hok

def emptyDisk : Disk := mkfs fun _ => zeroSector

theorem emptyDisk_lookup (path : List U8) : fsGetOwnerMode emptyDisk path = none ∧
    ∀ maxLen, fsReadFile emptyDisk path maxLen = (-1, []) := by
  have hl : Layout emptyDisk Tree.empty (fun _ => rootLba) dataStartLba := mkfs_layout _
  by_cases hp : splitPath path = []
  · refine ⟨fsGetOwnerMode_nil hp, fun maxLen => ?_⟩
    unfold fsReadFile
    rw [hp, lookupEntry_nil]
  · have hnone : (Tree.empty : Tree (List U8)) (splitPath path) = none := by
      cases hs : splitPath path with
      | nil => exact absurd hs hp
      | cons a l => rfl
    refine ⟨?_, fun maxLen => ?_⟩
    · rw [hl.ownerMode_eq hp, hnone, map_none]
    · rw [hl.read_eq hp, Tree.read, hnone]

/-- Nothing can be read there, except that a path may overrun the buffer. -/
theorem vfsRead_empty {maxLen : Nat} {uid : U8} (h : ∀ full, minifsPath path = some full → full.length < 200) :
    vfsRead (.ofDisk emptyDisk) path maxLen uid = some (-1, []) := by
  cases hm : minifsPath path with
  | some full =>
    have hfree : blocked emptyDisk full modeOwnerOnlyRead uid = false := by
      unfold blocked
      rw [(emptyDisk_lookup full).1]
    rw [vfsRead_minifs hm (h full hm)]
    show some (if blocked emptyDisk full modeOwnerOnlyRead uid = true then _ else _) = _
    rw [hfree]
    exact congrArg some ((emptyDisk_lookup full).2 maxLen)
  | none =>
    unfold minifsPath at hm
    unfold vfsRead
    cases hf : vfsFindMount path with
    | none => rfl
    | some mount =>
      rw [hf] at hm
      cases hb : mount.backend with
      | minifs => simp [hb] at hm
      | mounts => simp only [hb]
      | _ => simp only [hb]; rfl

/-- Without a FAT32 volume a write under a path of 127 characters comes back. -/
theorem vfsWrite_returns {d : Disk} {path data : List U8} {uid : U8} (h : path.length ≤ 127) :
    ∃ r, vfsWrite (.ofDisk d) path data uid = some r := by
  cases hm : minifsPath path with
  | some full =>
    have hlen := minifsPath_length hm
    exact ⟨_, vfsWrite_minifs hm (by omega) data⟩
  | none =>
    unfold minifsPath at hm
    unfold vfsWrite
    cases hf : vfsFindMount path with
    | none => exact ⟨_, rfl⟩
    | some mount =>
      rw [hf] at hm
      cases hb : mount.backend with
      | minifs => simp [hb] at hm
      | _ => exact ⟨_, by simp only [hb]; rfl⟩

theorem fileObjectClose_returns (d : Disk) (files : Int → OpenFile) (slot : Int) :
    ∃ r, fileObjectClose ⟨.ofDisk d, files⟩ slot = some r := by
  unfold fileObjectClose
  simp only
  split
  · exact ⟨_, rfl⟩
  · unfold commit
    split
    · obtain ⟨r, hr⟩ := @vfsWrite_returns (fsDeleteFile d (stripSystemPrefix (files slot).path)).2
        (files slot).path (files slot).content (files slot).ownerUid (files slot).path_le
      simp only
      rw [show vfsWrite { FileSystems.ofDisk d with
        disk := (fsDeleteFile (FileSystems.ofDisk d).disk (stripSystemPrefix (files slot).path)).2 } _ _ _ = some r from hr]
      exact ⟨_, rfl⟩
    · obtain ⟨r, hr⟩ := @vfsWrite_returns d (files slot).path (files slot).content (files slot).ownerUid
        (files slot).path_le
      rw [hr]
      exact ⟨_, rfl⟩

def Machine.noFiles (m : Machine) : Machine :=
  { m with openFiles := { m.openFiles with fs := .ofDisk emptyDisk } }

/-- There a slot that is free is claimed, with nothing in it; without a right to write it stays claimed. -/
theorem fileObjectOpen_noFiles {slot : Nat} {uid : U8} (hover : ¬ OpenOverruns path access)
    (hslot : m.openFiles.freeSlot = some slot) :
    let f := (m.openFiles.files slot).claim path access uid
    fileObjectOpen m.noFiles.openFiles path access uid =
      if access = fileAccessWronly ∨ access = fileAccessRdwr then
        some ((slot : Int), m.noFiles.openFiles.setFile slot (f.load []))
      else some (-1, m.noFiles.openFiles.setFile slot f) := by
  obtain ⟨hlen, hread⟩ := not_or.mp hover
  have hallowed : openDenied emptyDisk (stripSystemPrefix path) access uid = false := by
    unfold openDenied
    rw [(emptyDisk_lookup _).1]
  unfold fileObjectOpen
  rw [if_neg hlen, if_neg (fun hd => by
    rw [show m.noFiles.openFiles.fs.disk = emptyDisk from rfl, hallowed] at hd
    exact absurd hd.2 (by simp)), show m.noFiles.openFiles.freeSlot = some slot from hslot]
  simp only [OpenFiles.fill]
  by_cases hw : access = fileAccessWronly
  · rw [if_pos hw, if_pos (Or.inl hw)]
    rfl
  · have hfail : vfsRead m.noFiles.openFiles.fs path fileMaxSize uid = some (-1, []) :=
      vfsRead_empty fun full hfull => Nat.lt_of_not_le fun hle => hread ⟨hw, full, hfull, hle⟩
    rw [if_neg hw, hfail, map_some, if_pos (by decide)]
    by_cases hrw : access = fileAccessRdwr
    · rw [if_pos hrw, if_pos (Or.inr hrw)]
      rfl
    · rw [if_neg hrw, if_neg (not_or.mpr ⟨hw, hrw⟩)]
      rfl

theorem fileOpen_safe_of_atomic (h : (fileOpen path access).Atomic m.noFiles t) : AllocSafe m t (.fileOpen path access) := by
  simp only [AllocSafe]
  by_cases hp : m.kernel.processOf t < 0
  · exact .inl hp
  by_cases hover : OpenOverruns path access
  · exact .inr (Or.inl hover)
  refine .inr (Or.inr fun slot hslot => ?_)
  have hopen := @fileObjectOpen_noFiles m _ _ slot (m.kernel.procs (m.kernel.processOf t)).uid hover hslot
  by_cases haccess : access = fileAccessWronly ∨ access = fileAccessRdwr
  · -- the file is opened, and closed again for want of an object or a handle
    refine ⟨haccess, (createObject_restored_iff (fileRights access)).mp fun hroom => ?_⟩
    simp only [if_pos haccess] at hopen
    have hrun := @fileOpen_run m.noFiles t _ _ _ _ (not_lt.mp hp) hopen
    obtain ⟨r, hr⟩ := fileObjectClose_returns emptyDisk (update m.openFiles.files (slot : Int) _) slot
    simp only [if_neg (not_lt.mpr (Int.natCast_nonneg slot))] at hrun
    have hfull : ¬ m.noFiles.kernel.caps.Room (m.noFiles.kernel.processOf t) := hroom
    rw [if_pos (createObject_eq_err_iff.mpr hfull),
      show fileObjectClose (m.noFiles.openFiles.setFile slot _) slot = some r from hr] at hrun
    exact (h _ _ hrun (by decide)).caps
  · -- the file cannot be read, and its slot stays used
    simp only [if_neg haccess] at hopen
    have hrun := @fileOpen_run m.noFiles t _ _ _ _ (not_lt.mp hp) hopen
    have hkept := (h _ _ hrun (by decide)).files slot
    have hset : (update m.openFiles.files (slot : Int) ((m.openFiles.files slot).claim path access
        (m.kernel.procs (m.kernel.processOf t)).uid) (slot : Int)).used = true := by
      rw [update_self]
      rfl
    exact absurd (hset.symm.trans (hkept.trans (freeSlot_unused hslot))) (by simp)

/-! ## 83 and 84: grants -/

section Grants

variable {c : Caps} {p q o : Int}

theorem freeHandles_eq_zero : c.freeHandles p = 0 ↔ c.freeHandleSlot p = none := by
  unfold Caps.freeHandles Caps.freeHandleSlot
  rw [card_eq_zero, filter_eq_empty_iff, scan_eq_none]
  simp

theorem grantOne_cases (h : Int) (c : Caps) : (c.freeHandles q = 0 ∧ grantOne p q h c = (false, c)) ∨
      ∃ c', grantOne p q h c = (true, c') ∧ c'.freeHandles q + 1 = c.freeHandles q := by
  unfold grantOne
  obtain ⟨i, -, hi, hu, heq⟩ | ⟨hnone, heq⟩ :=
    allocHandle_cases c q (c.handles p h).objectIndex (c.handles p h).rights
  · refine .inr ⟨c.setHandle q i ⟨true, (c.handles p h).objectIndex, (c.handles p h).rights⟩, ?_,
      (card_filter_succ hi hu (by simp [setHandle_handles]) fun j _ hj => ?_).symm⟩
    · rw [heq]
      simp
    · simp [setHandle_handles, hj]
  · exact .inl ⟨freeHandles_eq_zero.mpr hnone, by rw [heq]; simp⟩

/-- **A grant of several handles** succeeds if there are so many; otherwise it takes all that are
left. -/
theorem grants_cases : ∀ (hs : List Int) (c : Caps),
    (hs.length ≤ c.freeHandles q ∧ (loopOk (grantOne p q) hs c).1 = true) ∨
      (c.freeHandles q < hs.length ∧ (loopOk (grantOne p q) hs c).1 = false ∧
        (loopOk (grantOne p q) hs c).2.freeHandles q = 0 ∧ (c.freeHandles q = 0 → (loopOk (grantOne p q) hs c).2 = c))
  | [], c => Or.inl ⟨Nat.zero_le _, rfl⟩
  | h :: hs, c => by
    rw [List.length_cons]
    obtain ⟨hzero, heq⟩ | ⟨c', heq, hcount⟩ := @grantOne_cases p q h c
    · rw [loopOk_cons_false heq]
      exact .inr ⟨by omega, rfl, hzero, fun _ => rfl⟩
    · rw [loopOk_cons_true heq]
      obtain ⟨hle, hok⟩ | ⟨hlt, hok, hempty, -⟩ := grants_cases hs c'
      · exact .inl ⟨by omega, hok⟩
      · exact .inr ⟨by omega, hok, hempty, fun hz => by omega⟩

end Grants

theorem grant_atomic (a1 a2 : U64) : (AllocCall.grant a1 a2).Atomic m t := by
  have hrun : (AllocCall.grant a1 a2).run m t = m.ofHandler (syscallCore m.kernel t ⟨83, a1, a2, 0⟩ (slotEnv 0 false)) := rfl
  simp only [syscallCore, BitVec.reduceToNat] at hrun
  split at hrun
  · exact atomic_of_same hrun
  split at hrun
  · exact atomic_of_same hrun
  split at hrun
  · exact atomic_of_same hrun
  rename_i o _ _ _
  refine (atomic_iff_caps hrun).mpr ?_
  obtain ⟨i, -, hi, -, heq⟩ | ⟨-, heq⟩ := allocHandle_cases m.kernel.caps
    (m.kernel.processOf (toInt32 a2)) o (m.kernel.caps.handles (m.kernel.processOf t) (toInt32 a1)).rights
  · intro hneg
    rw [heq, if_neg (not_lt.mpr (Int.natCast_nonneg i)), ofInt_handle_toInt hi] at hneg
    omega
  · intro _
    rw [heq]

theorem grant3_atomic_iff (a1 a2 a3 : U64) : (grant3 a1 a2 a3).Atomic m t ↔ AllocSafe m t (.grant3 a1 a2 a3) := by
  simp only [AllocSafe]
  generalize hhs : [toInt32 a1, toInt32 (a2 >>> 32), toInt32 (a2 &&& 0xFFFFFFFF#64)] = hs
  have hlen : hs.length = 3 := by rw [← hhs]; rfl
  have hrun : (grant3 a1 a2 a3).run m t = m.ofHandler (syscallCore m.kernel t ⟨84, a1, a2, a3⟩
      (slotEnv 0 false)) := rfl
  simp only [syscallCore, BitVec.reduceToNat, hhs] at hrun
  refine atomic_iff_or (fun hp => ?_) fun hp => ?_
  · rw [hrun, if_pos hp]
    rfl
  rw [if_neg hp] at hrun
  refine atomic_iff_or (fun htarget => ?_) fun htarget => ?_
  · rw [hrun, if_pos (by omega)]
    rfl
  rw [if_neg (by omega)] at hrun
  refine atomic_iff_or (fun hq => ?_) fun hq => ?_
  · rw [hrun, if_pos hq]
    rfl
  rw [if_neg hq] at hrun
  have hall : hs.all (fun h => (lookupHandle m.kernel.caps (m.kernel.processOf t) h 0 none).isSome) = true ↔
      ¬ ∃ h ∈ hs, lookupHandle m.kernel.caps (m.kernel.processOf t) h 0 none = none := by
    simp [isSome_iff_ne_none]
  refine atomic_iff_or (fun hbad => ?_) fun hgood => ?_
  · rw [hrun, if_neg fun hok => hall.mp hok hbad]
    rfl
  rw [if_pos (hall.mpr hgood)] at hrun
  rw [atomic_iff_caps hrun]
  obtain ⟨hle, hok⟩ | ⟨hlt, hok, hempty, hsame⟩ := @grants_cases (m.kernel.processOf t)
    (m.kernel.processOf (toInt32 a3)) hs m.kernel.caps
  · rw [hok]
    exact iff_of_true (fun hneg => absurd hneg (by decide)) (Or.inr (hlen ▸ hle))
  · rw [hok, or_iff_left (by omega)]
    constructor
    · intro hc
      rw [← hc (by decide)]
      exact hempty
    · exact fun hz _ => hsame hz

end Calls

/-! ## Every call -/

variable {m : Machine}

theorem SameSlots.processOf {m' : Machine} (h : SameSlots m m') (t : Int) :
    m'.kernel.processOf t = m.kernel.processOf t := by
  unfold Kernel.processOf
  rw [h.sched]

variable {call : AllocCall} {t : Int}

theorem AllocSafe.congr {m' : Machine} (h : SameSlots m m') : AllocSafe m' t call ↔ AllocSafe m t call := by
  have hfiles : m'.openFiles.freeSlot = m.openFiles.freeSlot := by
    unfold OpenFiles.freeSlot
    simp only [h.files]
  cases call <;>
    simp only [AllocSafe, h.processOf, h.caps, h.channels, h.sched, hfiles, h.regions, h.sockets,
      h.listeners, h.events, h.mutexes, h.timers, h.directories]

theorem SameSlots.refl (m : Machine) : SameSlots m m := { TablesKept.refl m with sched := rfl, channels := rfl }

theorem AllocSafe.atomic (htail : m.kernel.sched.TailUnused) (h : AllocSafe m t call) : call.Atomic m t := by
  cases call with
  | channelOpen a1 => exact (channelOpen_atomic_iff a1).mpr h
  | processOpen a1 a2 => exact (processOpen_atomic_iff a1 a2).mpr h
  | fileOpen path access => exact fileOpen_atomic_of_safe h
  | pipeOpen a1 a2 => exact (pipeOpen_atomic_iff a1 a2).mpr h
  | sharedMemory a1 => exact sharedMemory_atomic_of_safe h
  | socketListen a1 => exact socketListen_atomic_iff.mpr (h.imp_right Or.inr)
  | threadCreate a1 => exact threadCreate_atomic_of_safe htail h
  | eventCreate => exact eventCreate_atomic_iff.mpr h
  | mutexCreate => exact mutexCreate_atomic_iff.mpr h
  | timerCreate a1 => exact (timerCreate_atomic_iff a1).mpr h
  | grant a1 a2 => exact grant_atomic a1 a2
  | grant3 a1 a2 a3 => exact (grant3_atomic_iff a1 a2 a3).mpr h
  | directoryOpen a1 => exact (directoryOpen_atomic_iff a1).mpr h

/-- Tables that are not as `AllocSafe` says let the call fail with something taken, if memory, files
and network are right. -/
theorem AllocSafe.of_atomic (h : ∀ m', SameSlots m m' → call.Atomic m' t) : AllocSafe m t call := by
  have hself := h m (SameSlots.refl m)
  have hroomy : SameSlots m m.roomy := { SameSlots.refl m with caps := rfl }
  cases call with
  | channelOpen a1 => exact (channelOpen_atomic_iff a1).mp hself
  | processOpen a1 a2 => exact (processOpen_atomic_iff a1 a2).mp hself
  | fileOpen path access => exact fileOpen_safe_of_atomic (h m.noFiles { SameSlots.refl m with caps := rfl })
  | pipeOpen a1 a2 => exact (pipeOpen_atomic_iff a1 a2).mp hself
  | sharedMemory a1 => exact (AllocSafe.congr hroomy).mp (sharedMemory_safe_of_atomic rfl (h m.roomy hroomy))
  | socketListen a1 =>
    have hup := socketListen_atomic_iff.mp (h { m with nicUp := true } { SameSlots.refl m with caps := rfl })
    exact hup.imp_right fun hrest => hrest.resolve_left (by simp)
  | threadCreate a1 => exact threadCreate_safe_of_atomic (h m.roomy hroomy)
  | eventCreate => exact eventCreate_atomic_iff.mp hself
  | mutexCreate => exact mutexCreate_atomic_iff.mp hself
  | timerCreate a1 => exact (timerCreate_atomic_iff a1).mp hself
  | grant a1 a2 => trivial
  | grant3 a1 a2 a3 => exact (grant3_atomic_iff a1 a2 a3).mp hself
  | directoryOpen a1 => exact (directoryOpen_atomic_iff a1).mp hself

/-- **Exactly when a failed allocation leaves the tables as they were**, whatever the memory, the
files and the network are like. -/
theorem alloc_atomic_iff (m : Machine) (htail : m.kernel.sched.TailUnused) (t : Int) (call : AllocCall) :
    (∀ m', SameSlots m m' → call.Atomic m' t) ↔ AllocSafe m t call := by
  refine ⟨AllocSafe.of_atomic, fun h m' hsame => ?_⟩
  have htail' : m'.kernel.sched.TailUnused := by
    rw [hsame.sched]
    exact htail
  exact ((AllocSafe.congr hsame).mpr h).atomic htail'

/-- A machine with one process, whose task is task 0, and with everything else unused. -/
def idleMachine : Machine where
  kernel := { bootKernel with procs := fun _ => { noProcess with used := true }, procCount := 1 }
  openFiles := ⟨.ofDisk emptyDisk, fun _ => OpenFile.unused⟩
  sockets := fun _ => false
  listeners := fun _ => false
  events := fun _ => false
  mutexes := fun _ => false
  timers := fun _ => false
  directories := fun _ => false
  channelCount := 0
  nicUp := true

theorem idleMachine_tail : idleMachine.kernel.sched.TailUnused := by
  intro i hi
  have hne : ((i : Int) = 0) = False := by
    have : 1 ≤ i := hi
    simp only [eq_iff_iff, iff_false]
    omega
  show (if (i : Int) = 0 then _ else noTask).used = false
  rw [if_neg (by rw [hne]; exact id)]
  rfl

/-- There every event, whatever the memory, is created or leaves no trace. -/
theorem alloc_atomic_idle : AllocSafe idleMachine 0 .eventCreate ∧
    ∀ m', SameSlots idleMachine m' → eventCreate.Atomic m' 0 := by
  have hsafe : AllocSafe idleMachine 0 .eventCreate := Or.inr (Or.inr ⟨by decide, by decide⟩)
  exact ⟨hsafe, (alloc_atomic_iff idleMachine idleMachine_tail 0 .eventCreate).mpr hsafe⟩

/-- The same machine with every object slot taken. -/
def objectsTaken : Machine :=
  { idleMachine with kernel := { idleMachine.kernel with caps := { bootCaps with
      objects := fun _ => { used := true, type := .process, dataIndex := 0 } } } }

/-- Without a free object, `event_create` fails and its event stays used. -/
theorem event_left_taken : (eventCreate.run objectsTaken 0).map (fun r => (r.1, r.2.events 0)) =
      some (errU64, true) ∧ objectsTaken.events 0 = false ∧ ¬ eventCreate.Atomic objectsTaken 0 := by
  refine ⟨by decide +kernel, rfl, fun h => ?_⟩
  have hsafe := eventCreate_atomic_iff.mp h
  rcases hsafe with hp | hfull | hroom
  · exact absurd hp (by decide)
  · exact absurd hfull (by decide)
  · exact hroom.1 (by decide)

end MinicOs
