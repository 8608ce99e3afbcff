import MinicOs.Mm.AddressSpace

/-!
# Tasks

Model of `create_task_with_cr3` (`kernel/sched/task.c`). Of a task the model keeps what the process
loader and the syscall handlers read; the register frame laid out on the kernel stack and the
fields of the blocking scheduler (`blocked`, `wake_tick`, `waiting_on`, `saved_rsp`) are left out.
-/

namespace MinicOs

def maxTasks : Nat := 24

structure Task where
  used : Bool
  cr3 : U64
  ring3EntryVaddr : U64
  ring3UserStackTop : U64
  processIndex : Int
  kernelStackTop : U64
deriving DecidableEq

/-- `g_tasks` and `g_task_count`. -/
structure Sched where
  tasks : Int → Task
  taskCount : Nat

/-- The task record as `create_task_with_cr3` fills it. -/
def freshTask (cr3 stackTop : U64) : Task :=
  { used := true, cr3 := cr3, ring3EntryVaddr := 0, ring3UserStackTop := 0, processIndex := -1,
    kernelStackTop := stackTop }

def Sched.setTask (s : Sched) (t : Int) (v : Task) : Sched :=
  { s with tasks := Function.update s.tasks t v }

/-- `create_task_with_cr3`: reuse the first exited task and its stack, or append one with a new
stack. `-1` on failure, `none` when the heap's cap stops the machine. -/
def createTaskWithCr3 (mm : Mm) (s : Sched) (cr3 : U64) : Option (Int × Mm × Sched) :=
  match scan s.taskCount fun i => !(s.tasks i).used with
  | some i => some (i, mm, s.setTask i (freshTask cr3 (s.tasks i).kernelStackTop))
  | none =>
    if maxTasks ≤ s.taskCount then some (-1, mm, s)
    else
      match kalloc mm.gPml4Phys mm.phys mm.heap 16384 with
      | none => none
      | some (stackMem, phys, heap) =>
        let mm := { mm with phys := phys, heap := heap }
        if stackMem = 0#64 then some (-1, mm, s)
        else
          let stackTop := (stackMem + 16384#64) &&& ~~~15#64
          some (s.taskCount, mm,
            { tasks := Function.update s.tasks s.taskCount (freshTask cr3 stackTop),
              taskCount := s.taskCount + 1 })

section Created

variable {mm mm' : Mm} {s s' : Sched} {cr3 : U64} {t : Int} (h : createTaskWithCr3 mm s cr3 = some (t, mm', s'))
include h

/-- **What `create_task_with_cr3` does**: it fails and leaves the task table alone, or fills the first
unused slot, the next one after the table's end if all are used. -/
theorem createTaskWithCr3_cases : (t = -1 ∧ s' = s) ∨
      ∃ (i : Nat) (stackTop : U64), t = i ∧ s'.tasks = Function.update s.tasks i (freshTask cr3 stackTop) ∧
        (((scan s.taskCount fun i => !(s.tasks i).used) = some i ∧ s'.taskCount = s.taskCount) ∨
          ((scan s.taskCount fun i => !(s.tasks i).used) = none ∧ i = s.taskCount ∧ s.taskCount < maxTasks ∧
            s'.taskCount = s.taskCount + 1)) := by
  unfold createTaskWithCr3 at h
  split at h
  · cases h
    exact .inr ⟨_, _, rfl, rfl, Or.inl ⟨‹_›, rfl⟩⟩
  · split at h
    · cases h
      exact .inl ⟨rfl, rfl⟩
    · split at h
      · cases h
      · split at h
        · cases h
          exact .inl ⟨rfl, rfl⟩
        · cases h
          exact .inr ⟨s.taskCount, _, rfl, rfl, Or.inr ⟨‹_›, rfl, by omega, rfl⟩⟩

theorem createTaskWithCr3_failed (ht : t < 0) : s' = s := by
  rcases createTaskWithCr3_cases h with ⟨-, hs⟩ | ⟨i, -, rfl, -⟩
  · exact hs
  · omega

theorem createTaskWithCr3_created (ht : 0 ≤ t) :
    ∃ (i : Nat) (stackTop : U64), t = i ∧ s'.tasks = Function.update s.tasks i (freshTask cr3 stackTop) ∧
      ((i < s.taskCount ∧ (s.tasks i).used = false ∧ s'.taskCount = s.taskCount) ∨
        (i = s.taskCount ∧ s.taskCount < maxTasks ∧ s'.taskCount = s.taskCount + 1)) := by
  rcases createTaskWithCr3_cases h with ⟨rfl, -⟩ | ⟨i, st, rfl, htasks, hi⟩
  · omega
  · refine ⟨i, st, rfl, htasks, hi.imp (fun ⟨hs, hcount⟩ => ?_) And.right⟩
    obtain ⟨hlt, hp, -⟩ := scan_eq_some.mp hs
    exact ⟨hlt, by simpa using hp, hcount⟩

/-- The memory it uses is that of one `kalloc` at most. -/
theorem createTaskWithCr3_mm : mm' = mm ∨ ∃ stackMem phys heap,
      kalloc mm.gPml4Phys mm.phys mm.heap 16384 = some (stackMem, phys, heap) ∧
        mm' = { mm with phys := phys, heap := heap } := by
  unfold createTaskWithCr3 at h
  split at h
  · cases h
    exact .inl rfl
  · split at h
    · cases h
      exact .inl rfl
    · split at h
      · cases h
      · rename_i hk
        split at h <;> cases h <;> exact .inr ⟨_, _, _, hk, rfl⟩

end Created

end MinicOs
