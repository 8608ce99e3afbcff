import MinicOs.Proc.Spawn

/-!
# Fork, exit and threads

Model of `syscall_fork` (`kernel/syscall/handlers/fork.c`), of `process_exit` (syscall 12 of
`handlers/process.c`) and of `thread_create` (syscall 71 of `handlers/thread.c`).
-/

namespace MinicOs

/-- The snapshot for the child: the parent's trap frame with `rax = 0`. -/
def forkSnapshot (regs : Nat → U64) : Nat → U64 := fun i => if i = 0 then 0#64 else regs i

def forkRecord (parent : Process) (childCr3 : U64) (task : Int) : Process :=
  { used := true, cr3 := childCr3, taskIndex := task, uid := parent.uid,
    mainStackVaddr := parent.mainStackVaddr, nextThreadStackVaddr := parent.nextThreadStackVaddr }

/-- The critical section of `syscall_fork` once the child's task exists. -/
def wireFork (k : Kernel) (procIndex parent child : Int) (childCr3 : U64) (regs : Nat → U64) : Kernel :=
  let snap := forkSnapshot regs
  let k := { k with forkRegs := Function.update k.forkRegs child snap }
  let k := k.setTask child { k.sched.tasks child with ring3EntryVaddr := snap 15 }
  let p := k.recordIndex procIndex
  let k := k.register procIndex child (forkRecord (k.procs parent) childCr3 child)
  { k with caps := grantSelf k.caps p false }

/-- `syscall_fork`, called by task `t`; `regs` is the caller's trap frame. -/
def syscallFork (k : Kernel) (t : Int) (regs : Nat → U64) : Option (U64 × Kernel) :=
  let parent := k.processOf t
  if parent < 0 then some (errU64, k)
  else
    match findProcessSlot k.procs k.procCount with
    | none => some (errU64, k)
    | some procIndex =>
      let rc := cloneAddressSpace k.mm.phys k.mm.gPml4Phys
      if rc.1 = 0#64 then some (errU64, k.setPhys rc.2)
      else
        let rw := cloneAddressSpaceCow (k.procs parent).cr3 rc.1 { k.mm with phys := rc.2 }
        if rw.1 = false then some (errU64, { k with mm := freeAddressSpace rw.2 rc.1 })
        else
          match createTaskWithCr3 rw.2 k.sched rc.1 with
          | none => none
          | some (child, mm, sched) =>
            if child < 0 then
              some (errU64, { k with mm := freeAddressSpace mm rc.1, sched := sched })
            else
              some (ofInt child, wireFork { k with mm := mm, sched := sched } procIndex parent child rc.1 regs)

/-- `process_exit`, called by task `t`. The record's `cr3` stays in it. -/
def processExit (k : Kernel) (t : Int) : Kernel :=
  let p := k.processOf t
  let k :=
    if 0 ≤ p then
      let k := k.setProc p { k.procs p with used := false }
      { k with mm := freeAddressSpace k.mm (k.procs p).cr3, caps := closeAll k.caps p }
    else k
  k.setTask t { k.sched.tasks t with used := false }

/-- `thread_create`, called by task `t`: a task on the caller's address space with a stack page of
its own. A failure after the page is mapped leaves it mapped. -/
def threadCreate (k : Kernel) (t : Int) (entry : U64) : Option (U64 × Kernel) :=
  let p := k.processOf t
  if p < 0 then some (errU64, k)
  else
    match createTaskWithCr3 k.mm k.sched (k.procs p).cr3 with
    | none => none
    | some (c, mm, sched) =>
      let k := { k with mm := mm, sched := sched }
      if c < 0 then some (errU64, k)
      else
        let dropTask (k : Kernel) : Kernel := k.setTask c { k.sched.tasks c with used := false }
        let stackVaddr := (k.procs p).nextThreadStackVaddr
        let rm := mapStack (k.procs p).cr3 stackVaddr k.mm.phys
        let k := k.setPhys rm.2
        if rm.1 = false then some (errU64, dropTask k)
        else
          let k := k.setProc p
            { k.procs p with nextThreadStackVaddr := stackVaddr + 0x10000#64 }
          let k := k.setTask c { k.sched.tasks c with
            ring3EntryVaddr := entry, ring3UserStackTop := stackVaddr + 4096#64, processIndex := p }
          let rh := createObject k.caps p .thread c rightQuery true
          let k := { k with caps := rh.2 }
          if rh.1 = errU64 then some (errU64, dropTask k) else some (rh.1, k)

/-! ## What they do -/

theorem processExit_tables {k : Kernel} {t : Int} (h : 0 ≤ k.processOf t) :
    (processExit k t).procs = Function.update k.procs (k.processOf t) { k.procs (k.processOf t) with used := false } ∧
      (processExit k t).procCount = k.procCount ∧
      (processExit k t).sched = k.sched.setTask t { k.sched.tasks t with used := false } := by
  unfold processExit
  simp only [if_pos h, Kernel.setTask, Kernel.setProc, and_self]

/-- **What `syscall_fork` does**: it is refused without effect; or it fails while it builds the
child's top tables; or in the fork walk, or for want of a task, and frees the child; or it wires
the child up. -/
theorem syscallFork_cases {k k' : Kernel} {t : Int} {regs : Nat → U64} {v : U64} (h : syscallFork k t regs = some (v, k')) :
    (v = errU64 ∧ k' = k ∧ (k.processOf t < 0 ∨ findProcessSlot k.procs k.procCount = none)) ∨
      ∃ procIndex child phys, 0 ≤ k.processOf t ∧ findProcessSlot k.procs k.procCount = some procIndex ∧
        cloneAddressSpace k.mm.phys k.mm.gPml4Phys = (child, phys) ∧ ((child = 0#64 ∧ v = errU64 ∧ k' = k.setPhys phys) ∨
          child ≠ 0#64 ∧ ∃ ok mm, cloneAddressSpaceCow (k.procs (k.processOf t)).cr3 child
              { k.mm with phys := phys } = (ok, mm) ∧
            ((ok = false ∧ v = errU64 ∧ k' = { k with mm := freeAddressSpace mm child }) ∨
              ok = true ∧ ∃ c mm' sched, createTaskWithCr3 mm k.sched child = some (c, mm', sched) ∧ ((c < 0 ∧ v = errU64 ∧
                    k' = { k with mm := freeAddressSpace mm' child, sched := sched }) ∨ (0 ≤ c ∧ v = ofInt c ∧
                    k' = wireFork { k with mm := mm', sched := sched } procIndex (k.processOf t) c child regs)))) := by
  unfold syscallFork at h
  simp only at h
  split at h
  · rename_i hp
    cases h
    exact .inl ⟨rfl, rfl, Or.inl hp⟩
  rename_i hp
  split at h
  · rename_i hslot
    cases h
    exact .inl ⟨rfl, rfl, Or.inr hslot⟩
  rename_i procIndex hslot
  rcases hrc : cloneAddressSpace k.mm.phys k.mm.gPml4Phys with ⟨child, phys⟩
  rw [hrc] at h
  refine .inr ⟨procIndex, child, phys, by omega, hslot, rfl, ?_⟩
  split at h
  · rename_i h0
    cases h
    exact .inl ⟨h0, rfl, rfl⟩
  rename_i h0
  rcases hrw : cloneAddressSpaceCow (k.procs (k.processOf t)).cr3 child
    { k.mm with phys := phys } with ⟨ok, mm⟩
  rw [hrw] at h
  refine .inr ⟨h0, ok, mm, rfl, ?_⟩
  split at h
  · rename_i hcow
    cases h
    exact .inl ⟨hcow, rfl, rfl⟩
  rename_i hcow
  refine .inr ⟨by simpa using hcow, ?_⟩
  split at h
  · simp at h
  rename_i c mm' sched htask
  refine ⟨c, mm', sched, htask, ?_⟩
  split at h
  · rename_i hc
    cases h
    exact .inl ⟨hc, rfl, rfl⟩
  · rename_i hc
    cases h
    exact .inr ⟨by omega, rfl, rfl⟩

end MinicOs
