import MinicOs.Proc.Boot
import MinicOs.Syscall.Dispatch

/-!
# Capability integrity along runs

A run of syscalls by any tasks, with a ghost record of what each handle denoted when it was
allocated (`birth`). `Intact` is the property: every used handle names a used object in range, of
the type and data index it had at the handle's birth, and `g_object_count` is right.

Objects are not reference counted, while grants copy handles, so the property survives only the
steps that free an object together with the one handle that names it (`CapOp.Safe`).
-/

namespace MinicOs

/-- What the object of a handle is: its type and data index. -/
def denotes (c : Caps) (p h : Int) : ObjType × Int :=
  ((c.objects (c.handles p h).objectIndex).type, (c.objects (c.handles p h).objectIndex).dataIndex)

/-- The kernel with the birth record of its handles. -/
structure Traced where
  kernel : Kernel
  birth : Int → Int → ObjType × Int

/-- The birth record after a step: a handle that was unused before is born with it. -/
def rebirth (c c' : Caps) (birth : Int → Int → ObjType × Int) : Int → Int → ObjType × Int :=
  fun p h => if (c.handles p h).used = true then birth p h else denotes c' p h

/-- A step of the kernel that keeps the record. -/
def Traced.Step (s s' : Traced) : Prop :=
  ∃ ev o, ev.Enabled s.kernel ∧ s.kernel.step ev = some (o, s'.kernel) ∧
    s'.birth = rebirth s.kernel.caps s'.kernel.caps s.birth

/-- A step whose closing or registering operation, if any, is safe. -/
def Traced.SafeStep (s s' : Traced) : Prop :=
  ∃ ev o, ev.Enabled s.kernel ∧ s.kernel.step ev = some (o, s'.kernel) ∧
    s'.birth = rebirth s.kernel.caps s'.kernel.caps s.birth ∧
    (eventOp s.kernel ev).Safe s.kernel.caps

/-- Every used handle denotes the object it was allocated for, and the count is right. -/
structure Intact (s : Traced) : Prop where
  handle : ∀ p h, (s.kernel.caps.handles p h).used = true →
    0 ≤ (s.kernel.caps.handles p h).objectIndex ∧
    (s.kernel.caps.handles p h).objectIndex < objectSlots ∧
    (s.kernel.caps.objects (s.kernel.caps.handles p h).objectIndex).used = true ∧
    denotes s.kernel.caps p h = s.birth p h
  count : s.kernel.caps.objectCount = s.kernel.caps.usedObjects

variable {s : Traced}

theorem Intact.capInv (h : Intact s) : CapInv s.kernel.caps :=
  ⟨fun p g hu => ⟨(h.handle p g hu).1, (h.handle p g hu).2.1, (h.handle p g hu).2.2.1⟩, h.count⟩

theorem intact_boot {k : Kernel} (h : CapsBoot k.caps) (birth : Int → Int → ObjType × Int) : Intact ⟨k, birth⟩ := by
  constructor
  · intro p g hu
    rw [h.handles p g] at hu
    exact Bool.noConfusion hu
  · have hz : k.caps.usedObjects = 0 := by
      unfold Caps.usedObjects
      rw [Finset.card_eq_zero, Finset.filter_eq_empty_iff]
      intro i _
      rw [(h.objects i).1]
      simp
    rw [h.count, hz]
    rfl

theorem CapOp.Opens.safe {op : CapOp} {ps : List Int} (h : op.Opens ps) (c : Caps) : op.Safe c := by
  cases op with
  | keep => trivial
  | create p t d r f => trivial
  | grant p q hs => trivial
  | close p g => exact absurd h id
  | closeAll p => exact absurd h id
  | finish p g o => exact absurd h id
  | spawn p b => exact absurd h id

/-- A safe operation on the tables keeps the record true. -/
theorem Intact.of_capsBy (hi : Intact s) {k' : Kernel} {op : CapOp} {ps : List Int}
    (hc : CapsBy s.kernel k' ps op)    (hs : op.Safe s.kernel.caps) : Intact ⟨k', rebirth s.kernel.caps k'.caps s.birth⟩ := by
  obtain ⟨op', hrun, hvalid, hop, -⟩ := hc
  have hsafe : op'.Safe s.kernel.caps := by
    rcases hop with h | h
    · exact h.safe _
    · rw [h]; exact hs
  obtain ⟨hinv, hstable⟩ := CapOp.run_inv hi.capInv hvalid hsafe
  rw [← hrun] at hinv hstable
  refine ⟨fun p g hu => ?_, hinv.count⟩
  obtain ⟨h0, h1, h2⟩ := hinv.handle p g hu
  refine ⟨h0, h1, h2, ?_⟩
  show denotes k'.caps p g = if _ then _ else _
  split
  · rename_i hold
    -- the handle was there before: it still denotes what it denoted, which is its birth
    obtain ⟨-, htype, hdata⟩ := hstable p g hold hu
    rw [← (hi.handle p g hold).2.2.2]
    exact Prod.ext htype hdata
  · rfl

theorem Intact.step {s s' : Traced} (hi : Intact s) (h : s.SafeStep s') : Intact s' := by
  obtain ⟨ev, o, -, hstep, hbirth, hsafe⟩ := h
  have := hi.of_capsBy (step_caps hstep) hsafe
  rw [← hbirth] at this
  exact this

/-- **Capability integrity.** From an intact state, every run of steps that free an object only with
its last handle, and register a process only while an object slot is free, stays intact. -/
theorem integrity_run {s s' : Traced} (hs : Intact s) (hrun : Relation.ReflTransGen Traced.SafeStep s s') : Intact s' :=
  run_inv (fun _ _ hi hstep => hi.step hstep) hrun hs

/-- The traced state after an event. -/
def Traced.after (s : Traced) (ev : Event) : Traced :=
  ⟨s.kernel.after ev, rebirth s.kernel.caps (s.kernel.after ev).caps s.birth⟩

theorem Traced.step_after {ev : Event} (he : ev.Enabled s.kernel) (h : (s.kernel.step ev).isSome = true) :
    s.Step (s.after ev) := by
  obtain ⟨o, ho⟩ := MinicOs.step_after _ _ h
  exact ⟨ev, o, he, ho, rfl⟩

theorem Traced.safeStep_after (s : Traced) (ev : Event) (he : ev.Enabled s.kernel)
    (h : (s.kernel.step ev).isSome = true) (hs : (eventOp s.kernel ev).Safe s.kernel.caps) : s.SafeStep (s.after ev) := by
  obtain ⟨o, ho⟩ := MinicOs.step_after _ _ h
  exact ⟨ev, o, he, ho, rfl, hs⟩

/-! ## Two processes -/

/-- Spawning a process while an object slot is free keeps the invariant. -/
theorem capInv_spawned {k : Kernel} {sandboxed : Bool} (hi : CapInv k.caps)
    (hfree : ∃ i : Nat, i < objectSlots ∧ (k.caps.objects i).used = false)
    (h : (spawnProcess k [0x90] 0x80000000 0x80020000 sandboxed).isSome = true) : CapInv (spawned k sandboxed).caps := by
  obtain ⟨r, hr⟩ := spawnProcess_spawned h
  obtain ⟨op, hrun, hvalid, hop, -⟩ : CapsBy k (spawned k sandboxed) [] _ := spawnProcess_caps hr
  rw [hrun]
  refine (CapOp.run_inv hi hvalid ?_).1
  rcases hop with hop | rfl
  · exact hop.safe _
  · unfold spawningOp
    split
    · exact hfree
    · trivial

/-- Two processes as `kmain` starts them: tasks 1 and 2 run processes 0 and 1. -/
def twoProcesses : Kernel := spawned (spawned bootKernel false) false

/-- The two processes, with a true birth record. -/
def twoTraced : Traced := ⟨twoProcesses, denotes twoProcesses.caps⟩

theorem twoTraced_intact : Intact twoTraced := by
  have h0 : CapInv bootKernel.caps := 
    (intact_boot bootKernel_boot.caps fun _ _ => (.none, 0)).capInv
  have h1 : CapInv (spawned bootKernel false).caps :=
    capInv_spawned h0 ⟨0, by decide, rfl⟩ (by decide +kernel)
  have h2 : CapInv twoProcesses.caps :=
    capInv_spawned h1 ⟨1, by decide, by decide +kernel⟩ (by decide +kernel)
  refine ⟨fun p g hu => ?_, h2.count⟩
  obtain ⟨a, b, c⟩ := h2.handle p g hu
  exact ⟨a, b, c, rfl⟩

def noEnv : Env :=
  { slot := 0, value := 0, refused := false, file := { bytes := [], count := 0 }, builtin := [],
    loadVaddr := 0, regs := fun _ => 0 }

/-- Task 1 creates an event. -/
def createEvent : Event := .syscall 1 { num := 74, a1 := 0, a2 := 0, a3 := 0 } noEnv

/-- Task 1 grants its handle 1 to task 2. -/
def grantHandle : Event := .syscall 1 { num := 83, a1 := 1, a2 := 2, a3 := 0 } noEnv

/-- Task 1 closes its handle 1. -/
def closeFirst : Event := .syscall 1 { num := 13, a1 := 1, a2 := 0, a3 := 0 } noEnv

/-- Task 1 creates a mutex. -/
def createMutex : Event := .syscall 1 { num := 78, a1 := 0, a2 := 0, a3 := 0 } noEnv

/-- Creating an event and granting its handle are safe, so the grantee's handle is intact. -/
theorem integrity_run_granted : Intact twoTraced ∧ Intact ((twoTraced.after createEvent).after grantHandle) :=
  ⟨twoTraced_intact, integrity_run twoTraced_intact ((Relation.ReflTransGen.single
        (Traced.safeStep_after twoTraced createEvent (by decide +kernel) (by decide +kernel)
          trivial)).tail
        (Traced.safeStep_after _ grantHandle (by decide +kernel) (by decide +kernel) trivial))⟩

/-- **Where integrity is lost.** After the grant the granter closes its own handle and creates a
mutex: the grantee's handle, allocated for an event, now denotes the mutex. -/
theorem integrity_lost : ∃ s : Traced, Relation.ReflTransGen Traced.Step twoTraced s ∧
    Intact twoTraced ∧ (s.kernel.caps.handles 1 1).used = true ∧ s.birth 1 1 = (.event, 0) ∧
    denotes s.kernel.caps 1 1 = (.mutex, 0) ∧ ¬ Intact s := by
  refine ⟨(((twoTraced.after createEvent).after grantHandle).after closeFirst).after createMutex,
    ?_, twoTraced_intact, by decide +kernel, by decide +kernel, by decide +kernel, fun h => ?_⟩
  · exact (((Relation.ReflTransGen.single (Traced.step_after (by decide +kernel) (by decide +kernel))).tail
      (Traced.step_after (by decide +kernel) (by decide +kernel))).tail
      (Traced.step_after (by decide +kernel) (by decide +kernel))).tail
      (Traced.step_after (by decide +kernel) (by decide +kernel))
  · have hb := (h.handle 1 1 (by decide +kernel)).2.2.2
    exact absurd hb (by decide +kernel)

end MinicOs
