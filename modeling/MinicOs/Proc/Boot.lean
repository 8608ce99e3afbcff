import MinicOs.Proc.Fork

/-!
# The state at boot

`Boot` is the state `kmain` has built before it spawns the first process: every process, object, handle,
policy, COW and shared-region slot is unused, and the tasks in use are the kernel's own. `bootKernel` is
one such state.
-/

namespace MinicOs

/-- The capability tables are empty. -/
structure CapsBoot (c : Caps) : Prop where
  objects : ∀ o, (c.objects o).used = false ∧ (c.objects o).type = .none
  count : c.objectCount = 0
  handles : ∀ p h, (c.handles p h).used = false
  policies : ∀ i, (c.policies i).used = false

/-- The state before the first spawn. -/
structure Boot (k : Kernel) : Prop where
  cow : ∀ i, (k.mm.cow i).used = false
  shm : ∀ i, (k.mm.shm i).used = false
  procs : ∀ p, (k.procs p).used = false
  procCount : k.procCount = 0
  caps : CapsBoot k.caps
  tasks : ∀ t : Int, (k.sched.tasks t).used = true ↔ 0 ≤ t ∧ t < k.sched.taskCount
  taskCount : k.sched.taskCount ≤ maxTasks
  services : ∀ i, (k.services i).used = false
  pending : ∀ t, k.pending t = none

/-! ## One boot state -/

/-- Memory at boot: frame 1 is the PML4, frame 2 the PDPT, frame 3 the directory of the identity
map (2 MB pages), frame 4 the heap's directory, frame 5 its page table. -/
def bootMem : Mem := fun f i =>
  if f = 1 then (if i = 0 then mkTable (frameAddr 2) else 0#64)
  else if f = 2 then
    (if i = 0 then mkTable (frameAddr 3) else if i = 1 then mkTable (frameAddr 4) else 0#64)
  else if f = 3 then (if i < 512 then BitVec.ofNat 64 (i * 2097152) ||| 0x87#64 else 0#64)
  else if f = 4 then (if i = 128 then mkTable (frameAddr 5) else 0#64)
  else 0#64

/-- The first 32 frames are in use at boot. -/
def bootFrames : Frames := { bitmap := fun f => decide (f < 32), freeCount := 262112 }

def bootMm : Mm :=
  { phys := { mem := bootMem, frames := bootFrames },
    cow := fun _ => { used := false, frame := 0, refcount := 0 },
    shm := fun _ => { used := false, pageCount := 0, frames := fun _ => 0 },
    heap := { size := 1048576, cap := 16777216, blocks := [{ size := 1048560, free := true }] },
    gPml4Phys := frameAddr 1 }

/-- A task slot that was never used. -/
def noTask : Task :=
  { used := false, cr3 := 0, ring3EntryVaddr := 0, ring3UserStackTop := 0, processIndex := 0,
    kernelStackTop := 0 }

/-- A process record that was never used. -/
def noProcess : Process :=
  { used := false, cr3 := 0, taskIndex := 0, uid := 0, mainStackVaddr := 0,
    nextThreadStackVaddr := 0 }

def bootCaps : Caps :=
  { objects := fun _ => { used := false, type := .none, dataIndex := 0 }, objectCount := 0,
    handles := fun _ _ => { used := false, objectIndex := 0, rights := 0 },
    policies := fun _ => { used := false, deniedLow := 0, deniedHigh := 0 } }

/-- A boot state with one kernel task. -/
def bootKernel : Kernel :=
  { mm := bootMm,
    sched := { tasks := fun t => if t = 0 then { noTask with used := true, cr3 := frameAddr 1 }
                 else noTask,
               taskCount := 1 },
    procs := fun _ => noProcess, procCount := 0, caps := bootCaps,
    forkRegs := fun _ _ => 0, services := fun _ => { used := false, len := 0, buf := fun _ => 0 },
    imageBuf := fun _ => 0, pending := fun _ => none }

theorem bootKernel_boot : Boot bootKernel := by
  refine ⟨fun _ => rfl, fun _ => rfl, fun _ => rfl, rfl, ⟨fun _ => ⟨rfl, rfl⟩, rfl, fun _ _ => rfl, fun _ => rfl⟩,
    fun t => ?_, by decide, fun _ => rfl, fun _ => rfl⟩
  show (if t = 0 then { noTask with used := true, cr3 := frameAddr 1 } else noTask).used = true ↔ _
  by_cases ht : t = 0
  · subst ht; simp [bootKernel]
  · simp only [if_neg ht, noTask, Bool.false_eq_true, false_iff]
    show ¬ (0 ≤ t ∧ t < ((1 : Nat) : Int))
    omega

/-- The state after spawning a one-byte program at the addresses of `kmain`'s test program. -/
def spawned (k : Kernel) (sandboxed : Bool) : Kernel :=
  ((spawnProcess k [0x90] 0x80000000 0x80020000 sandboxed).map Prod.snd).getD k

theorem spawnProcess_spawned {k : Kernel} {sandboxed : Bool}
    (h : (spawnProcess k [0x90] 0x80000000 0x80020000 sandboxed).isSome = true) :
    ∃ r, spawnProcess k [0x90] 0x80000000 0x80020000 sandboxed = some (r, spawned k sandboxed) := by
  obtain ⟨⟨r, k'⟩, hk⟩ := Option.isSome_iff_exists.mp h
  refine ⟨r, ?_⟩
  unfold spawned
  rw [hk]
  rfl

theorem spawned_eq {k : Kernel} {sandboxed : Bool} {r : Int}
    (h : (spawnProcess k [0x90] 0x80000000 0x80020000 sandboxed).map Prod.fst = some r) :
    spawnProcess k [0x90] 0x80000000 0x80020000 sandboxed = some (r, spawned k sandboxed) := by
  have hsome : (spawnProcess k [0x90] 0x80000000 0x80020000 sandboxed).isSome = true := by
    rw [← Option.isSome_map, h]
    rfl
  obtain ⟨r', hr'⟩ := spawnProcess_spawned hsome
  rw [hr', Option.map_some, Option.some.injEq] at h
  rw [hr', show r' = r from h]

end MinicOs
