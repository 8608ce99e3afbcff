import MinicOs.Mm.Heap

/-!
# Address spaces

Model of `kernel/mm/cow/cow.c` (64 slots, each with a frame address and a reference count, searched linearly), of
`proc/ipc/shared_memory/shared_memory.c` (four regions of up to four frames, taken for good: `used` is cleared only by an
`alloc_shared_memory` that runs out of frames), of the operations of `kernel/mm/paging/paging.c` that read or write these
tables, and of the write-fault repair of `kernel/isr/isr.c`. A process's private region is `PDPT[2..511]`, below `PML4[0]`.
-/

namespace MinicOs

open Function

/-! ## The copy-on-write table -/

def cowSlots : Nat := 64

structure CowEntry where
  used : Bool
  frame : U64
  refcount : Int

/-- `g_cow_frames`. -/
abbrev CowTable := Nat → CowEntry

/-- `find_slot`. -/
def cowFindSlot (c : CowTable) (frame : U64) : Option Nat :=
  scan cowSlots fun i => (c i).used && (c i).frame == frame

def cowTrack (c : CowTable) (frame : U64) : Bool × CowTable :=
  match cowFindSlot c frame with
  | some slot =>
    (true, update c slot { c slot with refcount := (c slot).refcount + 1 })
  | none =>
    match scan cowSlots fun i => !(c i).used with
    | some i => (true, update c i { used := true, frame := frame, refcount := 2 })
    | none => (false, c)

def cowIsShared (c : CowTable) (frame : U64) : Bool := (cowFindSlot c frame).isSome

def cowShouldFree (c : CowTable) (frame : U64) : Bool × CowTable :=
  match cowFindSlot c frame with
  | none => (true, c)
  | some slot =>
    let refcount := (c slot).refcount - 1
    if refcount ≤ 0 then
      (true, update c slot { c slot with used := false, refcount := refcount })
    else
      (false, update c slot { c slot with refcount := refcount })

/-! ## Shared-memory regions -/

def shmSlots : Nat := 4

def shmMaxPages : Nat := 4

structure SharedRegion where
  used : Bool
  pageCount : Nat
  frames : Nat → U64

/-- `g_shared_regions`, indexed by the C `int` an object's `data_index` holds. -/
abbrev SharedRegions := Int → SharedRegion

/-- One round of the filling loop of `alloc_shared_memory`. -/
def fillPage (p : Nat) (s : Frames × SharedRegion) : Bool × (Frames × SharedRegion) :=
  let r := allocFrame s.1
  if r.1 = 0#64 then (false, (r.2, s.2))
  else (true, (r.2, { s.2 with frames := update s.2.frames p r.1 }))

/-- `alloc_shared_memory`; `size` is a `u32`, and so is the sum that rounds it up. When the frames
run out the region is given back, the frames it had are not. -/
def allocSharedMemory (fr : Frames) (t : SharedRegions) (size : Nat) : Int × Frames × SharedRegions :=
  let pageCount := (size + 4095) % 2 ^ 32 / 4096
  if pageCount = 0 ∨ shmMaxPages < pageCount then (-1, fr, t)
  else
    match scan shmSlots fun i => !(t i).used with
    | none => (-1, fr, t)
    | some slot =>
      match loopOk fillPage (List.range pageCount) (fr, { t slot with used := true }) with
      | (false, (fr', r)) => (-1, fr', update t slot { r with used := false })
      | (true, (fr', r)) => (slot, fr', update t slot { r with pageCount := pageCount })

/-- `shared_memory_map`: writable and user pages from `vaddr` on. -/
def sharedMemoryMap (ph : Phys) (r : SharedRegion) (cr3 vaddr : U64) : Bool × Phys :=
  loopOk (fun p ph => mapPageIn ph cr3 (vaddr + BitVec.ofNat 64 p * 4096#64) (r.frames p) 0x06#64)
    (List.range r.pageCount) ph

def sharedMemoryOwnsFrame (t : SharedRegions) (frame : U64) : Bool :=
  (List.range shmSlots).any fun i =>
    (t i).used && (List.range (t i).pageCount).any fun p => (t i).frames p == frame

/-! ## Address spaces -/

/-- What memory management keeps: physical memory with its allocator, `g_cow_frames`,
`g_shared_regions`, the heap, and `g_pml4_phys`. -/
structure Mm where
  phys : Phys
  cow : CowTable
  shm : SharedRegions
  heap : Heap
  gPml4Phys : U64

/-- One present leaf of the fork walk: demote the parent's mapping, map the frame read-only into
the child, count the reference. -/
def cowShare (parent child : U64) (vaddr leaf : U64) (m : Mm) : Bool × Mm :=
  let paddr := leafPaddr leaf
  let rp := mapPageIn m.phys parent vaddr paddr (cowFlags leaf)
  if rp.1 = true then
    let rc := mapPageIn rp.2 child vaddr paddr (cowFlags leaf)
    if rc.1 = true then
      let rt := cowTrack m.cow paddr
      (rt.1, { m with phys := rc.2, cow := rt.2 })
    else (false, { m with phys := rc.2 })
  else (false, { m with phys := rp.2 })

/-- The innermost body of the fork walk, at `pt[i1]`. -/
def cowPage (parent child : U64) (i3 i2 : Nat) (pt : U64) (i1 : Nat) (m : Mm) : Bool × Mm :=
  let leaf := m.phys.mem (frameNum pt) i1
  if present leaf = true then cowShare parent child (pageVaddr i3 i2 i1) leaf m else (true, m)

/-- The body at `pd[i2]`. -/
def cowTable (parent child : U64) (i3 : Nat) (pd : U64) (i2 : Nat) (m : Mm) : Bool × Mm :=
  let e := m.phys.mem (frameNum pd) i2
  if present e = true then
    loopOk (cowPage parent child i3 i2 (tablePtr e)) (List.range 512) m
  else (true, m)

/-- The body at `pdpt[i3]`. -/
def cowDirectory (parent child pdpt : U64) (i3 : Nat) (m : Mm) : Bool × Mm :=
  let e := m.phys.mem (frameNum pdpt) i3
  if present e = true then
    loopOk (cowTable parent child i3 (tablePtr e)) (List.range 512) m
  else (true, m)

def cloneAddressSpaceCow (parent child : U64) (m : Mm) : Bool × Mm :=
  let pdpt := tablePtr (m.phys.mem (frameNum parent) 0)
  loopOk (cowDirectory parent child pdpt) (List.range' 2 510) m

/-- `free_frame` on the machine state. -/
def Mm.freeFrame (m : Mm) (addr : U64) : Mm :=
  { m with phys := { m.phys with frames := MinicOs.freeFrame m.phys.frames addr } }

/-- What `free_address_space` does at a present leaf. Its frame address is `pt[i1] & ~0xFFF`, with
`PAGE_NX` still in it. -/
def releaseLeaf (m : Mm) (leaf : U64) : Mm :=
  let leafFrame := tablePtr leaf
  let r := cowShouldFree m.cow leafFrame
  let m' := { m with cow := r.2 }
  if r.1 = true ∧ sharedMemoryOwnsFrame m.shm leafFrame = false then m'.freeFrame leafFrame else m'

/-- The body at `pt[i1]`. -/
def releasePage (pt : U64) (m : Mm) (i1 : Nat) : Mm :=
  let leaf := m.phys.mem (frameNum pt) i1
  if present leaf = true then releaseLeaf m leaf else m

/-- The body at `pd[i2]`. -/
def releaseTable (pd : U64) (m : Mm) (i2 : Nat) : Mm :=
  let e := m.phys.mem (frameNum pd) i2
  if present e = true then
    ((List.range 512).foldl (releasePage (tablePtr e)) m).freeFrame (tablePtr e)
  else m

/-- The body at `pdpt[i3]`. -/
def releaseDirectory (pdpt : U64) (m : Mm) (i3 : Nat) : Mm :=
  let e := m.phys.mem (frameNum pdpt) i3
  if present e = true then
    ((List.range 512).foldl (releaseTable (tablePtr e)) m).freeFrame (tablePtr e)
  else m

def freeAddressSpace (m : Mm) (pml4 : U64) : Mm :=
  let pdpt := tablePtr (m.phys.mem (frameNum pml4) 0)
  (((List.range' 2 510).foldl (releaseDirectory pdpt) m).freeFrame pdpt).freeFrame pml4

/-- The byte loop of the repair: frame `dst` becomes a copy of frame `src`. -/
def copyFrame (m : Mem) (dst src : Nat) : Mem := update m dst (m src)

/-- The write-fault repair of `interrupt_handler` (vector 14, error-code bits 0 and 1 set) in the
address space `cr3`. `none` is the halt it falls through to. -/
def repairWriteFault (m : Mm) (cr3 faultAddr : U64) : Option Mm :=
  let pageVaddr := faultAddr &&& ~~~0xFFF#64
  let oldPaddr := translateIn m.phys.mem cr3 pageVaddr
  let oldFrame := oldPaddr &&& ~~~0xFFF#64
  if oldPaddr ≠ 0#64 ∧ cowIsShared m.cow oldFrame = true then
    let r := allocFrame m.phys.frames
    if r.1 ≠ 0#64 then
      let mem := copyFrame m.phys.mem (frameNum r.1) (frameNum oldFrame)
      let rm := mapPageIn { mem := mem, frames := r.2 } cr3 pageVaddr r.1 0x06#64
      if rm.1 = true then
        let rf := cowShouldFree m.cow oldFrame
        let m' := { m with phys := rm.2, cow := rf.2 }
        if rf.1 = true then some (m'.freeFrame oldFrame) else some m'
      else none
    else none
  else none

end MinicOs
