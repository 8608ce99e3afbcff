import MinicOs.Proc.Kernel

/-!
# Loading a process

Model of `proc/process.c`. `spawn_process` runs in pieces: the search for a process record, the new
address space, one image page after the other, the stack page, and last the critical section that
creates the task and registers the process. A preemptible caller can be interrupted between the
pieces, so they are separate definitions; `spawnProcess` is the uninterrupted call.

No failure path gives back what was built: the address space and the pages already mapped stay
allocated.
-/

namespace MinicOs

open Function

/-- The search for a process record: the first exited one, `-1` to append, `none` when the table is
full. -/
def findProcessSlot (procs : Int → Process) (procCount : Nat) : Option Int :=
  match scan procCount fun p => !(procs p).used with
  | some p => some p
  | none => if maxProcesses ≤ procCount then none else some (-1)

/-- `dst[i] = b` in frame `f`. -/
def storeByte (m : Mem) (f i : Nat) (b : U8) : Mem :=
  m.store f (i / 8) (setByte (m f (i / 8)) (i % 8) b)

/-- The copy loop of one page: `bytes` from offset `i` of frame `f` on. -/
def copyBytes (f : Nat) : Nat → List U8 → Mem → Mem
  | _, [], m => m
  | i, b :: bs, m => copyBytes f (i + 1) bs (storeByte m f i b)

/-- One round of the loading loop, with the page's own bytes. -/
def loadPage (cr3 loadVaddr : U64) (pageIndex : Nat) (bytes : List U8) (ph : Phys) : Bool × Phys :=
  let r := allocFrame ph.frames
  if r.1 = 0#64 then (false, { ph with frames := r.2 })
  else
    let vaddr := loadVaddr + BitVec.ofNat 64 pageIndex * 4096#64
    let m := mapPageIn { ph with frames := r.2 } cr3 vaddr r.1 0x06#64
    if m.1 = true then (true, { m.2 with mem := copyBytes (frameNum r.1) 0 bytes m.2.mem })
    else (false, { m.2 with frames := freeFrame m.2.frames r.1 })

/-- The pages an image of `size` bytes takes. -/
def imagePages (size : Nat) : Nat := (size + 4095) / 4096

/-- The part of the image that goes into one page. -/
def pageBytes (image : List U8) (pageIndex : Nat) : List U8 :=
  (image.drop (pageIndex * 4096)).take 4096

/-- The loading loop. -/
def loadImage (cr3 loadVaddr : U64) (image : List U8) (ph : Phys) : Bool × Phys :=
  loopOk (fun j => loadPage cr3 loadVaddr j (pageBytes image j)) (List.range (imagePages image.length))
    ph

/-- A frame mapped at `vaddr` as a stack page: writable, user, not executable. -/
def mapStack (cr3 vaddr : U64) (ph : Phys) : Bool × Phys :=
  let r := allocFrame ph.frames
  if r.1 = 0#64 then (false, { ph with frames := r.2 })
  else
    let m := mapPageIn { ph with frames := r.2 } cr3 vaddr r.1 (0x06#64 ||| pageNx)
    if m.1 = true then m else (false, { m.2 with frames := freeFrame m.2.frames r.1 })

/-- The index a process is registered at: the record found, or the next one of the table. -/
def Kernel.recordIndex (k : Kernel) (procIndex : Int) : Int :=
  if procIndex < 0 then k.procCount else procIndex

theorem recordIndex_nonneg (k : Kernel) (slot : Int) : 0 ≤ k.recordIndex slot := by
  unfold Kernel.recordIndex
  split <;> omega

theorem findProcessSlot_lt {procs : Int → Process} {count : Nat} {i : Int} (h : findProcessSlot procs count = some i) :
    i = -1 ∨ 0 ≤ i ∧ i < count ∧ (procs i).used = false := by
  unfold findProcessSlot at h
  split at h
  · rename_i p hp
    obtain ⟨hlt, hu, -⟩ := scan_eq_some.mp hp
    cases h
    exact .inr ⟨Int.natCast_nonneg p, Int.ofNat_lt.mpr hlt, by simpa using hu⟩
  · split at h
    · cases h
    · cases h
      exact .inl rfl

/-- The record that is registered was not in use. -/
theorem recordIndex_inUse {k : Kernel} {i : Int} (h : findProcessSlot k.procs k.procCount = some i) :
    k.inUse (k.recordIndex i) = false := by
  unfold Kernel.inUse Kernel.recordIndex
  rcases findProcessSlot_lt h with rfl | ⟨h0, -, hu⟩
  · simp
  · rw [if_neg (by omega), hu, Bool.and_false]

/-- Registering a process takes its record into use. -/
theorem inUse_register {k k' : Kernel} {i : Int} {v : Process} (h : findProcessSlot k.procs k.procCount = some i)
    (hp : k'.procs = update k.procs (k.recordIndex i) v) (hv : v.used = true)
    (hc : k'.procCount = if i < 0 then k.procCount + 1 else k.procCount) :
    k'.inUse = update k.inUse (k.recordIndex i) true := by
  funext q
  unfold Kernel.inUse
  rw [hp, hc]
  by_cases hq : q = k.recordIndex i
  · subst hq
    unfold Kernel.recordIndex
    rcases findProcessSlot_lt h with rfl | ⟨h0, hlt, -⟩
    · simp [hv]
    · simp [not_lt.mpr h0, hv, hlt]
  · rw [update_of_ne hq, update_of_ne hq]
    unfold Kernel.recordIndex at hq
    split
    · rename_i hneg
      rw [if_pos hneg] at hq
      rw [show decide (q < ((k.procCount + 1 : Nat) : Int)) = decide (q < (k.procCount : Int)) from
        decide_eq_decide.mpr (by omega)]
    · rfl

/-- `g_processes[proc_index] = ...` and the task's back link, appending a record if none was
found. -/
def Kernel.register (k : Kernel) (procIndex task : Int) (v : Process) : Kernel :=
  let p := k.recordIndex procIndex
  let k := { k with procCount := if procIndex < 0 then k.procCount + 1 else k.procCount }
  let k := k.setProc p v
  k.setTask task { k.sched.tasks task with processIndex := p }

def spawnRecord (cr3 stackVaddr : U64) (task : Int) : Process :=
  { used := true, cr3 := cr3, taskIndex := task, uid := 0, mainStackVaddr := stackVaddr,
    nextThreadStackVaddr := stackVaddr + 0x10000#64 }

/-- The critical section of `spawn_process` once the task exists. -/
def wireSpawn (k : Kernel) (procIndex task : Int) (cr3 loadVaddr stackVaddr : U64) (sandboxed : Bool) : Kernel :=
  let k := k.setTask task { k.sched.tasks task with
    ring3EntryVaddr := loadVaddr, ring3UserStackTop := stackVaddr + 4096#64 }
  let p := k.recordIndex procIndex
  let k := k.register procIndex task (spawnRecord cr3 stackVaddr task)
  { k with caps := grantSelf k.caps p sandboxed }

/-- The critical section of `spawn_process`. -/
def registerSpawn (k : Kernel) (procIndex : Int) (cr3 loadVaddr stackVaddr : U64)
    (sandboxed : Bool) : Option (Int × Kernel) :=
  match createTaskWithCr3 k.mm k.sched cr3 with
  | none => none
  | some (t, mm, sched) =>
    let k := { k with mm := mm, sched := sched }
    if t < 0 then some (-1, k)
    else some (k.recordIndex procIndex, wireSpawn k procIndex t cr3 loadVaddr stackVaddr sandboxed)

/-- What `spawn_process` builds before its critical section: the address space, `0` on failure. -/
def buildImage (ph : Phys) (gPml4 : U64) (image : List U8) (loadVaddr stackVaddr : U64) : U64 × Phys :=
  let rc := cloneAddressSpace ph gPml4
  if rc.1 = 0#64 then rc
  else
    let rl := loadImage rc.1 loadVaddr image rc.2
    if rl.1 = true then
      let rs := mapStack rc.1 stackVaddr rl.2
      if rs.1 = true then (rc.1, rs.2) else (0#64, rs.2)
    else (0#64, rl.2)

/-- `spawn_process`, uninterrupted. -/
def spawnProcess (k : Kernel) (image : List U8) (loadVaddr stackVaddr : U64) (sandboxed : Bool) : Option (Int × Kernel) :=
  match findProcessSlot k.procs k.procCount with
  | none => some (-1, k)
  | some procIndex =>
    let rb := buildImage k.mm.phys k.mm.gPml4Phys image loadVaddr stackVaddr
    if rb.1 = 0#64 then some (-1, k.setPhys rb.2)
    else registerSpawn (k.setPhys rb.2) procIndex rb.1 loadVaddr stackVaddr sandboxed

/-- What `vfs_read` does to a buffer: the bytes it delivers, whatever they are, and the count it
answers, negative on failure. -/
structure FileRead where
  bytes : List U8
  count : Int

/-- A buffer after `vfs_read`. -/
def FileRead.into (r : FileRead) (buf : Nat → U8) : Nat → U8 := fun i =>
  match r.bytes[i]? with
  | some b => b
  | none => buf i

/-- The first `n` bytes of a buffer. -/
def bufBytes (buf : Nat → U8) (n : Nat) : List U8 := (List.range n).map buf

@[simp] theorem bufBytes_length (buf : Nat → U8) (n : Nat) : (bufBytes buf n).length = n := by
  unfold bufBytes
  rw [List.length_map, List.length_range]

/-- `spawn_process_from_path`, uninterrupted. The image it loads is the payload in place, in the
buffer it was read into. -/
def spawnProcessFromPath (k : Kernel) (file : FileRead) (loadVaddr stackVaddr : U64) : Option (Int × Kernel) :=
  let k := { k with imageBuf := file.into k.imageBuf }
  if file.count < 0 then some (-1, k)
  else
    match execSignVerify (bufBytes k.imageBuf file.count.toNat) with
    | none => some (-1, k)
    | some payload => spawnProcess k payload loadVaddr stackVaddr true

/-! ## What registering does -/

section Wire

variable (k : Kernel) (procIndex task : Int) (cr3 loadVaddr stackVaddr : U64) (sandboxed : Bool)

@[simp] theorem wireSpawn_mm : (wireSpawn k procIndex task cr3 loadVaddr stackVaddr sandboxed).mm = k.mm := rfl

@[simp] theorem wireSpawn_procs : (wireSpawn k procIndex task cr3 loadVaddr stackVaddr sandboxed).procs =
      update k.procs (k.recordIndex procIndex) (spawnRecord cr3 stackVaddr task) := rfl

end Wire

/-- **What the critical section does**: it fails and leaves the tables alone, or wires up the task
that `create_task_with_cr3` made. -/
theorem registerSpawn_cases {k k' : Kernel} {procIndex r : Int} {cr3 loadVaddr stackVaddr : U64} {sandboxed : Bool}
    (h : registerSpawn k procIndex cr3 loadVaddr stackVaddr sandboxed = some (r, k')) :
    ∃ t mm sched, createTaskWithCr3 k.mm k.sched cr3 = some (t, mm, sched) ∧
      ((t < 0 ∧ r = -1 ∧ k' = { k with mm := mm, sched := sched }) ∨ (0 ≤ t ∧ r = k.recordIndex procIndex ∧
          k' = wireSpawn { k with mm := mm, sched := sched } procIndex t cr3 loadVaddr stackVaddr sandboxed)) := by
  unfold registerSpawn at h
  split at h
  · simp at h
  · rename_i t mm sched heq
    refine ⟨t, mm, sched, heq, ?_⟩
    split at h
    · rename_i hneg
      cases h
      exact .inl ⟨hneg, rfl, rfl⟩
    · rename_i hpos
      cases h
      exact .inr ⟨by omega, rfl, rfl⟩

/-- **What `spawn_process` does**: it finds no record, or fails to build the image, or goes into
its critical section with the address space it built. -/
theorem spawnProcess_cases {k k' : Kernel} {image : List U8} {loadVaddr stackVaddr : U64} {sandboxed : Bool} {r : Int}
    (h : spawnProcess k image loadVaddr stackVaddr sandboxed = some (r, k')) :
    (r = -1 ∧ ((findProcessSlot k.procs k.procCount = none ∧ k' = k) ∨
        ((buildImage k.mm.phys k.mm.gPml4Phys image loadVaddr stackVaddr).1 = 0#64 ∧
          k' = k.setPhys (buildImage k.mm.phys k.mm.gPml4Phys image loadVaddr stackVaddr).2))) ∨
      ∃ procIndex, findProcessSlot k.procs k.procCount = some procIndex ∧
        (buildImage k.mm.phys k.mm.gPml4Phys image loadVaddr stackVaddr).1 ≠ 0#64 ∧
        registerSpawn (k.setPhys (buildImage k.mm.phys k.mm.gPml4Phys image loadVaddr stackVaddr).2)
          procIndex (buildImage k.mm.phys k.mm.gPml4Phys image loadVaddr stackVaddr).1 loadVaddr
          stackVaddr sandboxed = some (r, k') := by
  unfold spawnProcess at h
  split at h
  · rename_i hslot
    cases h
    exact .inl ⟨rfl, Or.inl ⟨hslot, rfl⟩⟩
  · rename_i procIndex hslot
    simp only at h
    split at h
    · rename_i h0
      cases h
      exact .inl ⟨rfl, Or.inr ⟨h0, rfl⟩⟩
    · rename_i h0
      exact .inr ⟨procIndex, hslot, h0, h⟩

end MinicOs
