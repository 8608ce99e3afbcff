import MinicOs.Mm.Paging

/-!
# The kernel heap

Model of `heap_grow` and `kalloc` (`kernel/mm/heap/heap.c`), which supply a task's kernel stack.
The chain of block headers is a list in address order; what the blocks hold is not modelled. The
heap is initialised at boot, before any process exists, so the `heap_init` call of `kalloc` has no
counterpart. Growing takes frames and maps them through the kernel's PML4.

At the cap `heap_grow` answers `true` without growing, and the header `kalloc` then writes lies
past the mapped heap: the machine stops (`none`).
-/

namespace MinicOs

def heapBase : Nat := 0x50000000

/-- `sizeof(block_header)`. -/
def headerSize : Nat := 16

structure BlockHeader where
  size : Nat
  free : Bool
deriving DecidableEq

/-- `g_heap_size`, `g_heap_cap` and the blocks. -/
structure Heap where
  size : Nat
  cap : Nat
  blocks : List BlockHeader

/-- The bytes `heap_grow` sets out to map: at least 64 KB, whole pages, not past the cap. -/
def growChunk (h : Heap) (minExtra : Nat) : Nat :=
  let chunk := if minExtra < 65536 then 65536 else minExtra
  let chunk := if chunk % 4096 ≠ 0 then chunk + (4096 - chunk % 4096) else chunk
  if h.cap < h.size + chunk then h.cap - h.size else chunk

/-- One round of `heap_grow`'s loop, `j` pages into the new part. -/
def growPage (gPml4 : U64) (size j : Nat) (ph : Phys) : Bool × Phys :=
  let r := allocFrame ph.frames
  if r.1 = 0#64 then (false, { ph with frames := r.2 })
  else
    let vaddr := BitVec.ofNat 64 (heapBase + size + j * 4096)
    let m := mapPageIn { ph with frames := r.2 } gPml4 vaddr r.1 (0x02#64 ||| pageNx)
    if m.1 = true then m
    else (false, { m.2 with frames := freeFrame m.2.frames r.1 })

/-- `heap_grow`. On failure the pages already mapped stay mapped and `g_heap_size` stays put. -/
def heapGrow (ph : Phys) (gPml4 : U64) (h : Heap) (minExtra : Nat) : Bool × Phys × Heap :=
  let chunk := growChunk h minExtra
  match loopOk (growPage gPml4 h.size) (List.range ((chunk + 4095) / 4096)) ph with
  | (false, ph') => (false, ph', h)
  | (true, ph') => (true, ph', { h with size := h.size + chunk })

/-- The search loop of `kalloc`: the offset of the first free block that is large enough, and the
chain after taking it. -/
def takeBlock (size : Nat) : List BlockHeader → Option (Nat × List BlockHeader)
  | [] => none
  | b :: bs =>
    if b.free = true ∧ size ≤ b.size then
      if size + headerSize + 16 ≤ b.size then
        some (0, { size := size, free := false } :: { size := b.size - size - headerSize, free := true } :: bs)
      else some (0, { b with free := false } :: bs)
    else (takeBlock size bs).map fun r => (headerSize + b.size + r.1, b :: r.2)

/-- The outer loop of `kalloc`: `0` for `NULL`, `none` for a stopped machine. -/
def kallocLoop (gPml4 : U64) (size : Nat) : Nat → Phys → Heap → Option (U64 × Phys × Heap)
  | 0, _, _ => none
  | fuel + 1, ph, h =>
    match takeBlock size h.blocks with
    | some (offset, blocks) =>
      some (BitVec.ofNat 64 (heapBase + offset + headerSize), ph, { h with blocks := blocks })
    | none =>
      if growChunk h (size + headerSize) = 0 then none
      else
        match heapGrow ph gPml4 h (size + headerSize) with
        | (false, ph', h') => some (0#64, ph', h')
        | (true, ph', h') =>
          kallocLoop gPml4 size fuel ph'
            { h' with blocks := h.blocks ++ [{ size := h'.size - h.size - headerSize, free := true }] }

/-- `kalloc`. Two rounds of growth reach the cap or a block that fits. -/
def kalloc (gPml4 : U64) (ph : Phys) (h : Heap) (size : Nat) : Option (U64 × Phys × Heap) :=
  let size := if size % 16 ≠ 0 then size + (16 - size % 16) else size
  kallocLoop gPml4 size 3 ph h

end MinicOs
