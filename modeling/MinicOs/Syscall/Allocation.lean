import MinicOs.Syscall.Files

/-!
# What a failed allocation leaves taken

The syscalls that create an object take a slot of a table of their own, an object and a handle, and
each has its own way of giving them back when one is missing. `Machine` is the kernel with those
tables, `AllocCall.run` the syscalls on it, by the handlers of `Syscall/Handlers.lean` at the slots
the tables give.
-/

namespace MinicOs

def socketSlots : Nat := 4

def tcpListenerSlots : Nat := 2

def eventSlots : Nat := 8

def mutexSlots : Nat := 8

def timerSlots : Nat := 8

def directorySlots : Nat := 8

/-- The kernel with the tables behind its objects, of which the `used` flags are kept; `nicUp` is
the answer of `arp_init`. -/
structure Machine where
  kernel : Kernel
  openFiles : OpenFiles
  sockets : Nat → Bool
  listeners : Nat → Bool
  events : Nat → Bool
  mutexes : Nat → Bool
  timers : Nat → Bool
  directories : Nat → Bool
  channelCount : Nat
  nicUp : Bool

def firstUnused (n : Nat) (table : Nat → Bool) : Option Nat := scan n fun i => !table i

/-- What a handler that reads only its slot, or only whether it was turned down, gets. -/
def slotEnv (slot : Int) (refused : Bool) : Env where
  slot := slot
  value := 0
  refused := refused
  file := { count := -1, bytes := [] }
  builtin := []
  loadVaddr := 0
  regs := fun _ => 0

variable (m : Machine)

/-- The result of a handler that returns. -/
def Machine.ofHandler : Option Result → Option (U64 × Machine)
  | some (some (.ret v, k)) => some (v, { m with kernel := k })
  | _ => none

/-- The shared course of 74, 78, 81 and 87: a slot of a table, then the handler. Only 87 gives the
slot back when the handler fails (`undo`). -/
def Machine.openFrom (t : Int) (n : Nat) (table : Nat → Bool)
    (put : Machine → (Nat → Bool) → Machine) (handler : Handler) (call : Call) (undo : Bool) : Option (U64 × Machine) :=
  if m.kernel.processOf t < 0 then some (errU64, m)
  else
    match firstUnused n table with
    | none => some (errU64, m)
    | some slot =>
      (m.ofHandler (handler m.kernel t call (slotEnv slot false))).map fun r =>
        (r.1, put r.2 (Function.update table slot (!(undo && r.1 == errU64))))

/-- Syscall 59: `tcp_listen`, then a socket slot, then the handler; nothing is given back. -/
def Machine.socketListen (t : Int) (a1 : U64) : Option (U64 × Machine) :=
  if m.kernel.processOf t < 0 then some (errU64, m)
  else if m.nicUp = false then some (errU64, m)
  else
    match firstUnused tcpListenerSlots m.listeners with
    | none => some (errU64, m)
    | some listener =>
      let m := { m with listeners := Function.update m.listeners listener true }
      match firstUnused socketSlots m.sockets with
      | none => some (errU64, m)
      | some slot =>
        let m := { m with sockets := Function.update m.sockets slot true }
        m.ofHandler (syscallSocket m.kernel t ⟨59, a1, 0, 0⟩ (slotEnv slot false))

/-- The part of the machine the file syscalls work on. -/
def Machine.fileState : FileState where
  toOpenFiles := m.openFiles
  caps := m.kernel.caps
  uid := fun p => (m.kernel.procs p).uid

/-- Syscall 44. -/
def Machine.fileOpen (t : Int) (path : List U8) (access : Int) : Option (U64 × Machine) :=
  (openFile m.fileState (m.kernel.processOf t) path access).map fun r =>
    (r.1.result, { m with kernel := { m.kernel with caps := r.2.caps }, openFiles := r.2.toOpenFiles })

/-- The syscalls that create an object or grant a handle, with their arguments. -/
inductive AllocCall
  | channelOpen (a1 : U64)
  | processOpen (a1 a2 : U64)
  | fileOpen (path : List U8) (access : Int)
  | pipeOpen (a1 a2 : U64)
  | sharedMemory (a1 : U64)
  | socketListen (a1 : U64)
  | threadCreate (a1 : U64)
  | eventCreate
  | mutexCreate
  | timerCreate (a1 : U64)
  | grant (a1 a2 : U64)
  | grant3 (a1 a2 a3 : U64)
  | directoryOpen (a1 : U64)

/-- The syscall of task `t`: its result and the machine after it. -/
def AllocCall.run (t : Int) : AllocCall → Option (U64 × Machine)
  | .channelOpen a1 => m.ofHandler (syscallChannel m.kernel t ⟨9, a1, 0, 0⟩
      (slotEnv 0 (!decide (0 ≤ toInt32 a1 ∧ toInt32 a1 < m.channelCount))))
  | .processOpen a1 a2 => m.ofHandler (syscallProcess m.kernel t ⟨10, a1, a2, 0⟩ (slotEnv 0 false))
  | .fileOpen path access => m.fileOpen t path access
  | .pipeOpen a1 a2 => m.ofHandler (syscallPipe m.kernel t ⟨52, a1, a2, 0⟩ (slotEnv 0 false))
  | .sharedMemory a1 => m.ofHandler (syscallShm m.kernel t ⟨55, a1, 0, 0⟩ (slotEnv 0 false))
  | .socketListen a1 => m.socketListen t a1
  | .threadCreate a1 => m.ofHandler (syscallThread m.kernel t ⟨71, a1, 0, 0⟩ (slotEnv 0 false))
  | .eventCreate => m.openFrom t eventSlots m.events (fun m e => { m with events := e })
      syscallSync ⟨74, 0, 0, 0⟩ false
  | .mutexCreate => m.openFrom t mutexSlots m.mutexes (fun m e => { m with mutexes := e })
      syscallSync ⟨78, 0, 0, 0⟩ false
  | .timerCreate a1 => m.openFrom t timerSlots m.timers (fun m e => { m with timers := e })
      syscallSync ⟨81, a1, 0, 0⟩ false
  | .grant a1 a2 => m.ofHandler (syscallCore m.kernel t ⟨83, a1, a2, 0⟩ (slotEnv 0 false))
  | .grant3 a1 a2 a3 => m.ofHandler (syscallCore m.kernel t ⟨84, a1, a2, a3⟩ (slotEnv 0 false))
  | .directoryOpen a1 => m.openFrom t directorySlots m.directories (fun m e => { m with directories := e })
      syscallDirectory ⟨87, a1, 0, 0⟩ true

/-! ## When nothing is left taken -/

/-- The object table, the handle tables and the `used` flags of the tables behind the objects are
the same. -/
structure TablesKept (m m' : Machine) : Prop where
  caps : m'.kernel.caps = m.kernel.caps
  files : ∀ i, (m'.openFiles.files i).used = (m.openFiles.files i).used
  regions : ∀ i, (m'.kernel.mm.shm i).used = (m.kernel.mm.shm i).used
  sockets : m'.sockets = m.sockets
  listeners : m'.listeners = m.listeners
  events : m'.events = m.events
  mutexes : m'.mutexes = m.mutexes
  timers : m'.timers = m.timers
  tasks : ∀ i, (m'.kernel.sched.tasks i).used = (m.kernel.sched.tasks i).used
  directories : m'.directories = m.directories

/-- **A call that fails leaves the tables as they were.** -/
def AllocCall.Atomic (t : Int) (call : AllocCall) : Prop :=
  ∀ v m', call.run m t = some (v, m') → v.toInt < 0 → TablesKept m m'

/-- Two machines with the same tables; memory, files, processes and network may differ. -/
structure SameSlots (m m' : Machine) : Prop extends TablesKept m m' where
  sched : m'.kernel.sched = m.kernel.sched
  channels : m'.channelCount = m.channelCount

/-- No object slot is taken for want of a handle: an object is free only if a handle is. -/
def Caps.ObjectKept (c : Caps) (p : Int) : Prop := c.freeObjectSlot ≠ none → c.freeHandleSlot p ≠ none

/-- The same, for a call that gives the object back: what it leaves in the slot was there before. -/
def Caps.ObjectRestored (c : Caps) (p : Int) (type : ObjType) (d : Int) : Prop :=
  ∀ i : Nat, c.freeObjectSlot = some i → c.freeHandleSlot p ≠ none ∨
    c.objects i = { used := false, type := type, dataIndex := d }

/-- The task `create_task_with_cr3` takes: the first that exited, or the next one of the table. -/
def Sched.freeTask (s : Sched) : Option Nat :=
  match scan s.taskCount fun i => !(s.tasks i).used with
  | some i => some i
  | none => if maxTasks ≤ s.taskCount then none else some s.taskCount

/-- The path overruns a buffer of `file_object_open`. -/
def OpenOverruns (path : List U8) (access : Int) : Prop :=
  (inSystemMount path = true ∧ 128 ≤ (stripSystemPrefix path).length) ∨
    (access ≠ fileAccessWronly ∧ ∃ full, minifsPath path = some full ∧ 200 ≤ full.length)

def Caps.freeHandles (c : Caps) (p : Int) : Nat :=
  ((Finset.range handlesPerProcess).filter fun i : Nat => (c.handles p i).used = false).card

/-- The tables in which a call of process `p` takes nothing that it does not give back. -/
def AllocSafe (t : Int) : AllocCall → Prop
  | .channelOpen a1 => m.kernel.processOf t < 0 ∨ ¬ (0 ≤ toInt32 a1 ∧ toInt32 a1 < m.channelCount) ∨
      m.kernel.caps.ObjectKept (m.kernel.processOf t)
  | .processOpen a1 _ => m.kernel.processOf t < 0 ∨
      ¬ (0 ≤ toInt32 a1 ∧ toInt32 a1 < m.kernel.sched.taskCount) ∨
      m.kernel.processOf (toInt32 a1) < 0 ∨ m.kernel.caps.ObjectKept (m.kernel.processOf t)
  | .fileOpen path access => m.kernel.processOf t < 0 ∨ OpenOverruns path access ∨
      ∀ slot : Nat, m.openFiles.freeSlot = some slot →
        (access = fileAccessWronly ∨ access = fileAccessRdwr) ∧
          m.kernel.caps.ObjectRestored (m.kernel.processOf t) .file slot
  | .pipeOpen a1 _ => m.kernel.processOf t < 0 ∨
      m.kernel.caps.ObjectRestored (m.kernel.processOf t) .pipe (toInt32 a1)
  | .sharedMemory a1 => m.kernel.processOf t < 0 ∨
      ¬ (0 < (a1.toNat % 2 ^ 32 + 4095) % 2 ^ 32 / 4096 ∧ (a1.toNat % 2 ^ 32 + 4095) % 2 ^ 32 / 4096 ≤ shmMaxPages) ∨
      (scan shmSlots fun i => !(m.kernel.mm.shm i).used) = none ∨
      m.kernel.caps.Room (m.kernel.processOf t)
  | .socketListen _ => m.kernel.processOf t < 0 ∨ firstUnused tcpListenerSlots m.listeners = none ∨
      (firstUnused socketSlots m.sockets ≠ none ∧ m.kernel.caps.Room (m.kernel.processOf t))
  | .threadCreate _ => m.kernel.processOf t < 0 ∨ ∀ c : Nat, m.kernel.sched.freeTask = some c →
      m.kernel.caps.ObjectRestored (m.kernel.processOf t) .thread c
  | .eventCreate => m.kernel.processOf t < 0 ∨ firstUnused eventSlots m.events = none ∨
      m.kernel.caps.Room (m.kernel.processOf t)
  | .mutexCreate => m.kernel.processOf t < 0 ∨ firstUnused mutexSlots m.mutexes = none ∨
      m.kernel.caps.Room (m.kernel.processOf t)
  | .timerCreate _ => m.kernel.processOf t < 0 ∨ firstUnused timerSlots m.timers = none ∨
      m.kernel.caps.Room (m.kernel.processOf t)
  | .grant _ _ => True
  | .grant3 a1 a2 a3 =>
      let p := m.kernel.processOf t
      let target := toInt32 a3
      p < 0 ∨ ¬ (0 ≤ target ∧ target < maxTasks) ∨ m.kernel.processOf target < 0 ∨
        (∃ h ∈ [toInt32 a1, toInt32 (a2 >>> 32), toInt32 (a2 &&& 0xFFFFFFFF#64)],
          lookupHandle m.kernel.caps p h 0 none = none) ∨
        m.kernel.caps.freeHandles (m.kernel.processOf target) = 0 ∨
        3 ≤ m.kernel.caps.freeHandles (m.kernel.processOf target)
  | .directoryOpen _ => m.kernel.processOf t < 0 ∨ ∀ slot : Nat,
      firstUnused directorySlots m.directories = some slot →
        m.kernel.caps.ObjectRestored (m.kernel.processOf t) .directory slot

section Objects

variable {c : Caps} {p d : Int} {type : ObjType} {rights : Nat}

theorem createObject_fails_iff {free : Bool} : (createObject c p type d rights free).1.toInt < 0 ↔ ¬ c.Room p := by
  unfold Caps.Room
  obtain ⟨ho, heq⟩ | ⟨i, ho, hh, heq⟩ | ⟨i, j, ho, hj, heq⟩ := createObject_cases c p type d rights free
  · rw [heq, errU64_toInt, ho]
    simp
  · rw [heq, errU64_toInt, hh]
    simp
  · rw [heq, ofInt_handle_toInt (freeHandleSlot_some hj).1, ho, hj]
    simp

/-- Without a handle the object that was taken is left taken. -/
theorem createObject_kept_iff : (¬ c.Room p → (createObject c p type d rights false).2 = c) ↔ c.ObjectKept p := by
  unfold Caps.ObjectKept Caps.Room
  obtain ⟨ho, heq⟩ | ⟨i, ho, hh, heq⟩ | ⟨i, j, ho, hj, heq⟩ := createObject_cases c p type d rights false
  · simp [heq, ho]
  · rw [heq]
    refine iff_of_false (fun hc => ?_) fun hk => hk (by simp [ho]) hh
    have hu : (c.takeObject i type d).objects i = c.objects i :=
      congrArg (fun c => Caps.objects c i) (hc fun hroom => hroom.2 hh)
    rw [takeObject_objects, if_pos rfl] at hu
    have hfree := (freeObjectSlot_some ho).2
    rw [← hu] at hfree
    simp at hfree
  · simp [ho, hj]

/-- Without a handle the object is given back, but the slot keeps its type and index. -/
theorem createObject_restored_iff (rights : Nat) :
    (¬ c.Room p → (createObject c p type d rights true).2 = c) ↔ c.ObjectRestored p type d := by
  unfold Caps.ObjectRestored Caps.Room
  obtain ⟨ho, heq⟩ | ⟨i, ho, hh, heq⟩ | ⟨i, j, ho, hj, heq⟩ := createObject_cases c p type d rights true
  · simp [heq, ho]
  · have hobjects : ∀ j, (freeObject (c.takeObject i type d) i).objects j =
        if j = i then { used := false, type := type, dataIndex := d } else c.objects j := by
      intro j
      rw [freeObject_objects, takeObject_objects, takeObject_objects, if_pos rfl]
      split <;> rfl
    simp only [heq, if_pos, ho, hh, ne_eq, not_true, and_false, not_false_eq_true, true_imp_iff, false_or,
      Option.some.injEq, forall_eq']
    constructor
    · intro hc
      have hu := hobjects i
      rwa [if_pos rfl, hc] at hu
    · intro hstale
      refine Caps.ext (funext fun j => ?_) ?_ rfl rfl
      · rw [hobjects]
        split
        · rename_i hj
          rw [hj, hstale]
        · rfl
      · rw [freeObject_objectCount, takeObject_objectCount]
        omega
  · simp [ho, hj]

end Objects

section Atomic

variable {m : Machine} {t : Int} {call : AllocCall} {v : U64}

theorem TablesKept.refl (m : Machine) : TablesKept m m :=
  ⟨rfl, fun _ => rfl, fun _ => rfl, rfl, rfl, rfl, rfl, rfl, fun _ => rfl, rfl⟩

theorem atomic_iff {m' : Machine} (h : call.run m t = some (v, m')) : call.Atomic m t ↔ (v.toInt < 0 → TablesKept m m') := by
  refine ⟨fun ha => ha v m' h, fun hk v' m'' hrun hneg => ?_⟩
  obtain ⟨rfl, rfl⟩ := Prod.mk.inj (Option.some.inj (h.symm.trans hrun))
  exact hk hneg

theorem atomic_of_same (h : call.run m t = some (errU64, m)) : call.Atomic m t :=
  (atomic_iff h).mpr fun _ => TablesKept.refl m

/-- A call that changes only the object and handle tables. -/
theorem atomic_iff_caps {c : Caps} (h : call.run m t = some (v, { m with kernel := { m.kernel with caps := c } })) :
    call.Atomic m t ↔ (v.toInt < 0 → c = m.kernel.caps) :=
  (atomic_iff h).trans (forall_congr' fun _ => ⟨fun hk => hk.caps, fun hc => { TablesKept.refl m with caps := hc }⟩)

theorem atomic_iff_or {bad rest : Prop} (hfail : bad → call.run m t = some (errU64, m))
    (hrest : ¬ bad → (call.Atomic m t ↔ rest)) : call.Atomic m t ↔ bad ∨ rest := by
  by_cases hbad : bad
  · exact iff_of_true (atomic_of_same (hfail hbad)) (Or.inl hbad)
  · rw [or_iff_right hbad]
    exact hrest hbad

/-! ### 9, 10 and 52: an object and a handle -/

section OpenObject

variable {type : ObjType} {d : Int} {rights : Nat} {free : Bool}

theorem ofHandler_openObject_none (hp : m.kernel.processOf t < 0) :
    m.ofHandler (some (openObject m.kernel t type d rights free)) = some (errU64, m) := by
  unfold openObject
  simp only [if_pos hp]
  rfl

theorem ofHandler_openSlot (hd : 0 ≤ d) : m.ofHandler (some (openSlot m.kernel t type d rights free)) =
    m.ofHandler (some (openObject m.kernel t type d rights free)) := by
  unfold openSlot
  rw [if_neg (not_lt.mpr hd)]

variable (hp : 0 ≤ m.kernel.processOf t)
include hp

theorem ofHandler_openObject : m.ofHandler (some (openObject m.kernel t type d rights free)) =
    (let r := createObject m.kernel.caps (m.kernel.processOf t) type d rights free
    some (r.1, { m with kernel := { m.kernel with caps := r.2 } })) := by
  unfold openObject
  simp only [if_neg (not_lt.mpr hp)]
  rfl

theorem atomic_iff_objectKept (hd : 0 ≤ d)
    (h : call.run m t = m.ofHandler (some (openSlot m.kernel t type d rights false))) :
    call.Atomic m t ↔ m.kernel.caps.ObjectKept (m.kernel.processOf t) := by
  rw [ofHandler_openSlot hd] at h
  rw [atomic_iff_caps (h.trans (ofHandler_openObject hp)), createObject_fails_iff, createObject_kept_iff]

end OpenObject

theorem channelOpen_atomic_iff (a1 : U64) : (AllocCall.channelOpen a1).Atomic m t ↔ AllocSafe m t (.channelOpen a1) := by
  have hrun : (AllocCall.channelOpen a1).run m t = m.ofHandler (some
      (if (!decide (0 ≤ toInt32 a1 ∧ toInt32 a1 < m.channelCount)) = true then fail m.kernel
      else openSlot m.kernel t .channel (toInt32 a1) rightReceive false)) := rfl
  refine atomic_iff_or (fun hp => ?_) fun hp => atomic_iff_or (fun hidx => ?_) fun hidx => ?_
  · rw [hrun, openSlot]
    split
    · rfl
    split
    · rfl
    · exact ofHandler_openObject_none hp
  · rw [hrun, if_pos (by rw [decide_eq_false hidx]; rfl)]
    rfl
  · rw [if_neg (by simp [not_not.mp hidx])] at hrun
    exact atomic_iff_objectKept (not_lt.mp hp) (not_not.mp hidx).1 hrun

theorem processOpen_atomic_iff (a1 a2 : U64) :
    (AllocCall.processOpen a1 a2).Atomic m t ↔ AllocSafe m t (.processOpen a1 a2) := by
  have hrun : (AllocCall.processOpen a1 a2).run m t = m.ofHandler (some (if m.kernel.processOf t < 0 then fail m.kernel
      else if toInt32 a1 < 0 ∨ (m.kernel.sched.taskCount : Int) ≤ toInt32 a1 then fail m.kernel
      else openSlot m.kernel t .process (m.kernel.processOf (toInt32 a1)) (a2.toNat &&& rightQuery) false)) := rfl
  refine atomic_iff_or (fun hp => ?_) fun hp => ?_
  · rw [hrun, if_pos hp]
    rfl
  rw [if_neg hp] at hrun
  refine atomic_iff_or (fun hidx => ?_) fun hidx => ?_
  · rw [hrun, if_pos (by omega)]
    rfl
  rw [if_neg (by omega)] at hrun
  refine atomic_iff_or (fun hq => ?_) fun hq => atomic_iff_objectKept (not_lt.mp hp) (not_lt.mp hq) hrun
  rw [hrun, openSlot, if_pos hq]
  rfl

theorem pipeOpen_atomic_iff (a1 a2 : U64) : (AllocCall.pipeOpen a1 a2).Atomic m t ↔ AllocSafe m t (.pipeOpen a1 a2) := by
  have hrun : (AllocCall.pipeOpen a1 a2).run m t = m.ofHandler (some (openObject m.kernel t .pipe
      (toInt32 a1) (if a2 ≠ 0#64 then rightSend else rightReceive) true)) := rfl
  refine atomic_iff_or (fun hp => hrun.trans (ofHandler_openObject_none hp)) fun hp => ?_
  rw [atomic_iff_caps (hrun.trans (ofHandler_openObject (not_lt.mp hp))), createObject_fails_iff, createObject_restored_iff]

/-! ### 74, 78, 81 and 87: a slot of a table of their own -/

section OpenFrom

variable {n : Nat} {table : Nat → Bool} {put : Machine → (Nat → Bool) → Machine} {handler : Handler}
  {regs : Call} {undo : Bool} {type : ObjType} {rights : Nat}

theorem update_unused_iff {slot : Nat} {used : Bool} (h : firstUnused n table = some slot) :
    Function.update table slot used = table ↔ used = false := by
  have hu : table slot = false := by simpa using (scan_eq_some.mp h).2.1
  rw [Function.update_eq_self_iff, hu]

variable (hrun : call.run m t = m.openFrom t n table put handler regs undo)
  (hkept : ∀ c e, TablesKept m (put { m with kernel := { m.kernel with caps := c } } e) ↔ c = m.kernel.caps ∧ e = table)
  (hhandler : ∀ slot : Nat, handler m.kernel t regs (slotEnv slot false) = some (openSlot m.kernel t type slot rights undo))
include hrun hkept hhandler

/-- They are atomic iff a failure that comes after the slot was taken gives slot and object back. -/
theorem openFrom_atomic_iff : call.Atomic m t ↔ m.kernel.processOf t < 0 ∨ ∀ slot : Nat, firstUnused n table = some slot →
      ¬ m.kernel.caps.Room (m.kernel.processOf t) →
        (createObject m.kernel.caps (m.kernel.processOf t) type slot rights undo).2 = m.kernel.caps ∧ undo = true := by
  refine atomic_iff_or (fun hp => ?_) fun hp => ?_
  · rw [hrun, Machine.openFrom, if_pos hp]
  cases hslot : firstUnused n table with
  | none =>
    refine iff_of_true (atomic_of_same ?_) (by simp)
    rw [hrun, Machine.openFrom, if_neg hp, hslot]
  | some slot =>
    simp only [Option.some.injEq, forall_eq']
    rw [Machine.openFrom, if_neg hp, hslot] at hrun
    simp only at hrun
    rw [hhandler, ofHandler_openSlot (Int.natCast_nonneg slot), ofHandler_openObject (not_lt.mp hp)] at hrun
    rw [atomic_iff hrun, createObject_fails_iff]
    refine forall_congr' fun hroom => (hkept _ _).trans (and_congr_right fun _ => ?_)
    rw [createObject_eq_err_iff.mpr hroom, update_unused_iff hslot]
    simp

/-- 74, 78 and 81 keep the slot, so they are atomic only if they cannot fail after taking it. -/
theorem openFrom_keep_atomic_iff (hundo : undo = false) : call.Atomic m t ↔
    m.kernel.processOf t < 0 ∨ firstUnused n table = none ∨ m.kernel.caps.Room (m.kernel.processOf t) := by
  rw [openFrom_atomic_iff hrun hkept hhandler, hundo]
  cases firstUnused n table <;> simp

end OpenFrom

theorem eventCreate_atomic_iff : AllocCall.eventCreate.Atomic m t ↔ AllocSafe m t .eventCreate := by
  have hrun : AllocCall.eventCreate.run m t = m.openFrom t eventSlots m.events (fun m e => { m with events := e })
      syscallSync ⟨74, 0, 0, 0⟩ false := rfl
  refine openFrom_keep_atomic_iff hrun (fun c e => ⟨fun h => ⟨h.caps, h.events⟩, fun h => ?_⟩) (fun _ => rfl) rfl
  exact { TablesKept.refl m with caps := h.1, events := h.2 }

theorem mutexCreate_atomic_iff : AllocCall.mutexCreate.Atomic m t ↔ AllocSafe m t .mutexCreate := by
  have hrun : AllocCall.mutexCreate.run m t = m.openFrom t mutexSlots m.mutexes (fun m e => { m with mutexes := e })
      syscallSync ⟨78, 0, 0, 0⟩ false := rfl
  refine openFrom_keep_atomic_iff hrun (fun c e => ⟨fun h => ⟨h.caps, h.mutexes⟩, fun h => ?_⟩) (fun _ => rfl) rfl
  exact { TablesKept.refl m with caps := h.1, mutexes := h.2 }

theorem timerCreate_atomic_iff (a1 : U64) : (AllocCall.timerCreate a1).Atomic m t ↔ AllocSafe m t (.timerCreate a1) := by
  have hrun : (AllocCall.timerCreate a1).run m t = m.openFrom t timerSlots m.timers (fun m e => { m with timers := e })
      syscallSync ⟨81, a1, 0, 0⟩ false := rfl
  refine openFrom_keep_atomic_iff hrun (fun c e => ⟨fun h => ⟨h.caps, h.timers⟩, fun h => ?_⟩) (fun _ => rfl) rfl
  exact { TablesKept.refl m with caps := h.1, timers := h.2 }

theorem directoryOpen_atomic_iff (a1 : U64) :
    (AllocCall.directoryOpen a1).Atomic m t ↔ AllocSafe m t (.directoryOpen a1) := by
  have hrun : (AllocCall.directoryOpen a1).run m t = m.openFrom t directorySlots m.directories (fun m e => { m with directories := e })
      syscallDirectory ⟨87, a1, 0, 0⟩ true := rfl
  have hkept : ∀ c e, TablesKept m { m with kernel := { m.kernel with caps := c }, directories := e } ↔
      c = m.kernel.caps ∧ e = m.directories := fun c e =>
    ⟨fun h => ⟨h.caps, h.directories⟩, fun h => { TablesKept.refl m with caps := h.1, directories := h.2 }⟩
  refine (openFrom_atomic_iff hrun hkept fun _ => rfl).trans (or_congr_right (forall₂_congr fun slot _ => ?_))
  simp only [and_true]
  exact createObject_restored_iff _

/-! ### 59: a listener and a socket -/

variable {a1 : U64}

/-- Past the listener, whatever comes is either a handle or a failure that keeps it. -/
theorem socketListen_eq {a1 : U64} {listener : Nat} (hp : 0 ≤ m.kernel.processOf t) (hnic : m.nicUp = true)
    (hl : firstUnused tcpListenerSlots m.listeners = some listener) : ∃ v m', m.socketListen t a1 = some (v, m') ∧
      m'.listeners = Function.update m.listeners listener true ∧ (v.toInt < 0 ↔ ¬ (firstUnused socketSlots m.sockets ≠ none ∧
        m.kernel.caps.Room (m.kernel.processOf t))) := by
  unfold Machine.socketListen
  rw [if_neg (not_lt.mpr hp), if_neg (by simp [hnic]), hl]
  simp only
  cases hs : firstUnused socketSlots m.sockets with
  | none => exact ⟨_, _, rfl, rfl, iff_of_true (by decide) fun h => h.1 rfl⟩
  | some slot =>
    simp only
    have heq := @ofHandler_openSlot { m with
      listeners := Function.update m.listeners listener true
      sockets := Function.update m.sockets slot true } t .socket slot (rightSend ||| rightReceive) true
      (Int.natCast_nonneg slot)
    refine ⟨_, _, heq.trans (ofHandler_openObject hp), rfl, createObject_fails_iff.trans (not_congr ?_)⟩
    exact (and_iff_right (by simp)).symm

/-- A listener that is free is taken and never given back. -/
theorem socketListen_atomic_iff : (AllocCall.socketListen a1).Atomic m t ↔
    m.kernel.processOf t < 0 ∨ m.nicUp = false ∨ firstUnused tcpListenerSlots m.listeners = none ∨
      (firstUnused socketSlots m.sockets ≠ none ∧ m.kernel.caps.Room (m.kernel.processOf t)) := by
  have hrun : (AllocCall.socketListen a1).run m t = m.socketListen t a1 := rfl
  refine atomic_iff_or (fun hp => ?_) fun hp => atomic_iff_or (fun hnic => ?_) fun hnic =>
    atomic_iff_or (fun hl => ?_) fun hl => ?_
  · rw [hrun, Machine.socketListen, if_pos hp]
  · rw [hrun, Machine.socketListen, if_neg hp, if_pos hnic]
  · rw [hrun, Machine.socketListen, if_neg hp, if_neg hnic, hl]
  · obtain ⟨listener, hlistener⟩ := Option.ne_none_iff_exists'.mp hl
    obtain ⟨v, m1, heq, hset, hneg⟩ := @socketListen_eq m t a1 listener (not_lt.mp hp) (by simpa using hnic) hlistener
    rw [atomic_iff (hrun.trans heq), hneg]
    refine ⟨fun hk => by_contra fun hno => ?_, fun hroom hno => absurd hroom hno⟩
    have hfalse := (update_unused_iff hlistener).mp (hset.symm.trans (hk hno).listeners)
    simp at hfalse

end Atomic

end MinicOs
