import MinicOs.Ipc.CapOp
import MinicOs.Proc.Task
import MinicOs.Security.ExecSign

/-!
# The kernel's state

The tables that the process loader, `fork`, `process_exit` and the handle syscalls share. A syscall
handler that blocks is suspended on its task's kernel stack; what it still has to do is the task's
`pending` entry.
-/

namespace MinicOs

open Function

def registeredServiceSlots : Nat := 4

structure Process where
  used : Bool
  cr3 : U64
  taskIndex : Int
  uid : U8
  mainStackVaddr : U64
  nextThreadStackVaddr : U64
deriving DecidableEq

/-- One slot of `g_registered_service_used`, `_len` and `_buf`. -/
structure RegisteredService where
  used : Bool
  len : Nat
  buf : Nat → U8

/-- What a suspended handler does when it is resumed: `release` frees the object and the handle of
a finished wait, `accept` opens an object for the accepted socket, `wait` only returns. -/
inductive Pending
  | release (process handle object : Int)
  | accept (process : Int)
  | wait
deriving DecidableEq

/-- The kernel's state. `imageBuf` is `g_loaded_image_buf`, `forkRegs` is `g_fork_pending_regs`. -/
structure Kernel where
  mm : Mm
  sched : Sched
  procs : Int → Process
  procCount : Nat
  caps : Caps
  forkRegs : Int → Nat → U64
  services : Int → RegisteredService
  imageBuf : Nat → U8
  pending : Int → Option Pending

variable (k : Kernel)

/-- The process the task runs for. -/
def Kernel.processOf (t : Int) : Int := (k.sched.tasks t).processIndex

/-- The process records in use: those of the table that are marked. -/
def Kernel.inUse (p : Int) : Bool := decide (p < k.procCount) && (k.procs p).used

def Kernel.setPhys (ph : Phys) : Kernel := { k with mm := { k.mm with phys := ph } }

def Kernel.setProc (p : Int) (v : Process) : Kernel :=
  { k with procs := update k.procs p v }

def Kernel.setTask (t : Int) (v : Task) : Kernel :=
  { k with sched := k.sched.setTask t v }

@[simp] theorem setPhys_mm (ph : Phys) : (k.setPhys ph).mm = { k.mm with phys := ph } := rfl

theorem inUse_update {k k' : Kernel} {p : Int} {v : Process} {used : Bool}
    (h : k'.procs = update k.procs p v) (hc : k'.procCount = k.procCount)
    (hv : (decide (p < k.procCount) && v.used) = used) : k'.inUse = update k.inUse p used := by
  funext q
  unfold Kernel.inUse
  rw [h, hc]
  by_cases hq : q = p
  · subst hq
    simp only [update_self, hv]
  · simp only [update_of_ne hq]

/-- One record was written, and its flag is as it was. -/
theorem inUse_kept {k k' : Kernel} {p : Int} {v : Process} (h : k'.procs = update k.procs p v)
    (hc : k'.procCount = k.procCount) (hv : v.used = (k.procs p).used) : k'.inUse = k.inUse :=
  (inUse_update h hc (by rw [hv]; rfl)).trans (update_eq_self p k.inUse)

end MinicOs
