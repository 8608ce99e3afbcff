import MinicOs.Lib.Scan
import MinicOs.Mm.Word

/-!
# Kernel objects, handles and sandbox policies

Model of `proc/ipc/object/object.c` and of the policy table of
`kernel/security/sandbox/sandbox.c`. The C tables are indexed by `int`s that the code does not
always check, so they are functions of an `Int`: an index out of range reads and writes a cell of
its own, never one of the table.
-/

namespace MinicOs

open Function

def objectSlots : Nat := 32

def handlesPerProcess : Nat := 8

def maxProcesses : Nat := 8

def sandboxPolicySlots : Nat := 8

/-- The `OBJ_*` types; `none` is the zero of a slot that was never allocated. -/
inductive ObjType
  | none | process | channel | ioRequest | netPingRequest | netTcpRequest | file | pipe
  | sharedMemory | socket | thread | event | mutex | timer | directory | device | ioPortRange
  | sandbox | wifiRequest
deriving DecidableEq, Repr

structure KernelObject where
  used : Bool
  type : ObjType
  dataIndex : Int
deriving DecidableEq

def rightQuery : Nat := 1

def rightSend : Nat := 2

def rightReceive : Nat := 4

def rightRead : Nat := 8

def rightWrite : Nat := 16

def rightMap : Nat := 32

structure Handle where
  used : Bool
  objectIndex : Int
  rights : Nat
deriving DecidableEq

structure SandboxPolicy where
  used : Bool
  deniedLow : U64
  deniedHigh : U64
deriving DecidableEq

/-- `g_objects`, `g_object_count`, `g_handle_tables` and `g_sandbox_policies`. -/
@[ext] structure Caps where
  objects : Int → KernelObject
  objectCount : Int
  handles : Int → Int → Handle
  policies : Int → SandboxPolicy

def Caps.freeObjectSlot (c : Caps) : Option Nat := scan objectSlots fun i => !(c.objects i).used

/-- The first unused handle of a process. -/
def Caps.freeHandleSlot (c : Caps) (p : Int) : Option Nat :=
  scan handlesPerProcess fun i => !(c.handles p i).used

/-- Fill object slot `i`. -/
def Caps.takeObject (c : Caps) (i : Int) (type : ObjType) (dataIndex : Int) : Caps :=
  let o : KernelObject := { used := true, type := type, dataIndex := dataIndex }
  { c with objects := update c.objects i o, objectCount := c.objectCount + 1 }

def Caps.setHandle (c : Caps) (p h : Int) (v : Handle) : Caps :=
  { c with handles := update c.handles p (update (c.handles p) h v) }

/-- `alloc_object`; `-1` when the table is full. -/
def allocObject (c : Caps) (type : ObjType) (dataIndex : Int) : Int × Caps :=
  match c.freeObjectSlot with
  | some i => (i, c.takeObject i type dataIndex)
  | none => (-1, c)

/-- `free_object`: only `used` and the count change, and no index is checked. -/
def freeObject (c : Caps) (objectIndex : Int) : Caps :=
  let o : KernelObject := { c.objects objectIndex with used := false }
  { c with objects := update c.objects objectIndex o, objectCount := c.objectCount - 1 }

/-- `alloc_handle`; `-1` when the process's table is full. -/
def allocHandle (c : Caps) (processIndex objectIndex : Int) (rights : Nat) : Int × Caps :=
  match c.freeHandleSlot processIndex with
  | some i =>
    (i, c.setHandle processIndex i { used := true, objectIndex := objectIndex, rights := rights })
  | none => (-1, c)

def freeHandle (c : Caps) (processIndex handleIndex : Int) : Caps :=
  c.setHandle processIndex handleIndex { c.handles processIndex handleIndex with used := false }

/-- `sandbox_policy_create`; a policy slot is never given back. -/
def sandboxPolicyCreate (c : Caps) (deniedLow deniedHigh : U64) : Int × Caps :=
  match scan sandboxPolicySlots fun i => !(c.policies i).used with
  | some i =>
    let policy : SandboxPolicy :=
      { used := true, deniedLow := deniedLow, deniedHigh := deniedHigh }
    (i, { c with policies := update c.policies i policy })
  | none => (-1, c)

/-! ## Reading a table after a write -/

theorem takeObject_objects (c : Caps) (i : Int) (t : ObjType) (d j : Int) : (c.takeObject i t d).objects j =
      if j = i then { used := true, type := t, dataIndex := d } else c.objects j := by
  unfold Caps.takeObject
  simp only [update_apply]

theorem setHandle_handles (c : Caps) (p h : Int) (v : Handle) (q g : Int) :
    (c.setHandle p h v).handles q g = if q = p ∧ g = h then v else c.handles q g := by
  unfold Caps.setHandle
  by_cases hq : q = p
  · subst hq
    by_cases hg : g = h
    · simp [hg]
    · simp [hg]
  · simp [hq]

@[simp] theorem takeObject_handles (c : Caps) (i : Int) (t : ObjType) (d : Int) :
    (c.takeObject i t d).handles = c.handles := rfl

@[simp] theorem takeObject_objectCount (c : Caps) (i : Int) (t : ObjType) (d : Int) :
    (c.takeObject i t d).objectCount = c.objectCount + 1 := rfl

@[simp] theorem freeObject_handles (c : Caps) (o : Int) : (freeObject c o).handles = c.handles := rfl

theorem freeObject_objects (c : Caps) (o j : Int) : (freeObject c o).objects j =
      if j = o then { c.objects o with used := false } else c.objects j := by
  unfold freeObject
  simp only [update_apply]

@[simp] theorem freeObject_objectCount (c : Caps) (o : Int) : (freeObject c o).objectCount = c.objectCount - 1 := rfl

@[simp] theorem freeHandle_objects (c : Caps) (p h : Int) : (freeHandle c p h).objects = c.objects := rfl

@[simp] theorem freeHandle_objectCount (c : Caps) (p h : Int) : (freeHandle c p h).objectCount = c.objectCount := rfl

theorem freeHandle_handles (c : Caps) (p h q g : Int) : (freeHandle c p h).handles q g =
      if q = p ∧ g = h then { c.handles p h with used := false } else c.handles q g :=
  setHandle_handles c p h _ q g

/-! ## Slots -/

variable {c : Caps} {i : Nat}

theorem freeObjectSlot_some (h : c.freeObjectSlot = some i) : i < objectSlots ∧ (c.objects i).used = false := by
  obtain ⟨hlt, hp, -⟩ := scan_eq_some.mp h
  exact ⟨hlt, by simpa using hp⟩

theorem freeHandleSlot_some {p : Int} (h : c.freeHandleSlot p = some i) :
    i < handlesPerProcess ∧ (c.handles p i).used = false := by
  obtain ⟨hlt, hp, -⟩ := scan_eq_some.mp h
  exact ⟨hlt, by simpa using hp⟩

theorem freeObjectSlot_isSome :
    (∃ i, c.freeObjectSlot = some i) ↔ ∃ i : Nat, i < objectSlots ∧ (c.objects i).used = false := by
  constructor
  · rintro ⟨i, hi⟩
    exact ⟨i, freeObjectSlot_some hi⟩
  · rintro ⟨i, hi, hu⟩
    exact scan_isSome (p := fun j => !(c.objects j).used) hi (by simp [hu])

/-- **What `alloc_object` does**: it takes the first unused slot, or finds none. -/
theorem allocObject_cases (c : Caps) (type : ObjType) (dataIndex : Int) :
    (∃ i : Nat, c.freeObjectSlot = some i ∧ i < objectSlots ∧ (c.objects i).used = false ∧
        allocObject c type dataIndex = ((i : Int), c.takeObject i type dataIndex)) ∨
      (c.freeObjectSlot = none ∧ allocObject c type dataIndex = (-1, c)) := by
  unfold allocObject
  cases hs : c.freeObjectSlot with
  | some i => exact .inl ⟨i, rfl, (freeObjectSlot_some hs).1, (freeObjectSlot_some hs).2, rfl⟩
  | none => exact .inr ⟨rfl, rfl⟩

/-- **What `alloc_handle` does**: it takes the process's first unused handle, or finds none. -/
theorem allocHandle_cases (c : Caps) (p o : Int) (r : Nat) :
    (∃ i : Nat, c.freeHandleSlot p = some i ∧ i < handlesPerProcess ∧ (c.handles p i).used = false ∧ allocHandle c p o r =
          ((i : Int), c.setHandle p i { used := true, objectIndex := o, rights := r })) ∨
      (c.freeHandleSlot p = none ∧ allocHandle c p o r = (-1, c)) := by
  unfold allocHandle
  cases hs : c.freeHandleSlot p with
  | some i => exact .inl ⟨i, rfl, (freeHandleSlot_some hs).1, (freeHandleSlot_some hs).2, rfl⟩
  | none => exact .inr ⟨rfl, rfl⟩

/-! ## The number of used objects -/

/-- The number of used slots of the object table. -/
def Caps.usedObjects (c : Caps) : Nat :=
  ((Finset.range objectSlots).filter fun i : Nat => (c.objects i).used = true).card

theorem usedObjects_congr {c' : Caps} (h : ∀ i : Nat, i < objectSlots → (c.objects i).used = (c'.objects i).used) :
    c.usedObjects = c'.usedObjects := by
  refine congrArg Finset.card (Finset.filter_congr fun i hi => ?_)
  rw [h i (Finset.mem_range.mp hi)]

theorem usedObjects_take {c' : Caps} (hi : i < objectSlots) (hu : (c.objects i).used = false)
    (hu' : (c'.objects i).used = true) (h : ∀ j : Nat, j < objectSlots → j ≠ i → (c'.objects j).used = (c.objects j).used) :
    c'.usedObjects = c.usedObjects + 1 := by
  exact card_filter_succ hi hu' (by simp [hu]) fun j hlt hj => by rw [h j hlt hj]

end MinicOs
