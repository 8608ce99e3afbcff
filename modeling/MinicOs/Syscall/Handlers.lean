import MinicOs.Proc.Fork

/-!
# Syscall handlers

Model of the handlers under `kernel/syscall/handlers/` that read or write the process, task,
object, handle and service tables. Each handler answers `none` for a number that is not its own,
as the C handler answers `false`. What a handler gets from a subsystem outside the model (the slot
a file, pipe or request was given, the bytes `vfs_read` delivered, a random load address) is an
input, `Env`.

A handler that opens an object ends in `openObject`, one that closes it in `closeObject`, one that
waits for a request in `waitRequest`; every member of these families is the shared definition at
its own object type, rights and clean-up.
-/

namespace MinicOs

open Function

/-- The number and the three arguments of `int 0x80`. -/
structure Call where
  num : U64
  a1 : U64
  a2 : U64
  a3 : U64

/-- What the handlers get from outside the model. -/
structure Env where
  /-- The slot a subsystem allocated, negative if it had none. -/
  slot : Int
  /-- The result of a handler that touches none of the tables here. -/
  value : U64
  /-- The subsystem turns the request down. -/
  refused : Bool
  /-- What `vfs_read` does. -/
  file : FileRead
  /-- The image of a compiled-in program. -/
  builtin : List U8
  /-- `randomize_load_vaddr`. -/
  loadVaddr : U64
  /-- The caller's trap frame. -/
  regs : Nat → U64

/-- How a syscall ends: with a result, suspended, or with its task gone. -/
inductive Outcome
  | ret (v : U64)
  | blocked
  | exited
deriving DecidableEq

/-- The outcome and the new state; `none` when the machine stops. -/
abbrev Result := Option (Outcome × Kernel)

/-- A handler: `none` for a number it does not know. -/
abbrev Handler := Kernel → Int → Call → Env → Option Result

def done (v : U64) (k : Kernel) : Result := some (.ret v, k)

/-- Return what a function of the kernel computed. -/
def doneWith : Option (U64 × Kernel) → Result := Option.map fun r => (.ret r.1, r.2)

variable (k : Kernel)

/-- Return `(u64) -1`. -/
def fail : Result := done errU64 k

/-- The checks every handle syscall makes: a process, a handle in range and used, one of the
rights (if any is asked for), the object's type (if one is asked for). The answer is the object. -/
def lookupHandle (c : Caps) (p h : Int) (rights : Nat) (type : Option ObjType) : Option Int :=
  if 0 ≤ p ∧ 0 ≤ h ∧ h < handlesPerProcess ∧ (c.handles p h).used = true ∧
      (rights = 0 ∨ (c.handles p h).rights &&& rights ≠ 0) ∧
      (type = none ∨ type = some (c.objects (c.handles p h).objectIndex).type) then
    some (c.handles p h).objectIndex
  else none

/-- Allocate an object and a handle for the caller. -/
def openObject (t : Int) (type : ObjType) (slot : Int) (rights : Nat) (freeOnFail : Bool) : Result :=
  let p := k.processOf t
  if p < 0 then fail k
  else
    let r := createObject k.caps p type slot rights freeOnFail
    done r.1 { k with caps := r.2 }

/-- The same for a slot that a subsystem allocated. -/
def openSlot (t : Int) (type : ObjType) (slot : Int) (rights : Nat) (freeOnFail : Bool) : Result :=
  if slot < 0 then fail k else openObject k t type slot rights freeOnFail

/-- Free the object the caller's handle names, and the handle. -/
def closeObject (t : Int) (h : Int) (type : Option ObjType) (value : U64) : Result :=
  let p := k.processOf t
  match lookupHandle k.caps p h 0 type with
  | none => fail k
  | some _ => done value { k with caps := closeHandle k.caps p h }

/-- Wait for a request; the object and the handle are freed when the wait is over. -/
def waitRequest (t : Int) (h : Int) (type : ObjType) (refused : Bool) : Result :=
  let p := k.processOf t
  match lookupHandle k.caps p h 0 (some type) with
  | none => fail k
  | some o =>
    if refused = true then fail k
    else some (.blocked, { k with pending := update k.pending t (some (.release p h o)) })

/-- `syscall_core`: 13 `handle_close`, 83 `handle_grant`, 84 `handle_grant3`. -/
def syscallCore : Handler := fun k t call _ =>
  let p := k.processOf t
  match call.num.toNat with
  | 13 => some (closeObject k t (toInt32 call.a1) none 0)
  | 83 => some <|
    let h := toInt32 call.a1
    let target := toInt32 call.a2
    match lookupHandle k.caps p h 0 none with
    | none => fail k
    | some o =>
      if target < 0 ∨ (maxTasks : Int) ≤ target then fail k
      else if k.processOf target < 0 then fail k
      else
        let r := allocHandle k.caps (k.processOf target) o (k.caps.handles p h).rights
        done (if r.1 < 0 then errU64 else ofInt r.1) { k with caps := r.2 }
  | 84 => some <|
    let target := toInt32 call.a3
    let hs := [toInt32 call.a1, toInt32 (call.a2 >>> 32), toInt32 (call.a2 &&& 0xFFFFFFFF#64)]
    if p < 0 then fail k
    else if target < 0 ∨ (maxTasks : Int) ≤ target then fail k
    else if k.processOf target < 0 then fail k
    else if hs.all (fun h => (lookupHandle k.caps p h 0 none).isSome) = true then
      let r := loopOk (grantOne p (k.processOf target)) hs k.caps
      done (if r.1 = true then 0 else errU64) { k with caps := r.2 }
    else fail k
  | _ => none

/-- `builtin_program_bounds`: the image of index 0 is compiled in, the others are registered. -/
def builtinProgram (index : Int) (builtin : List U8) : Option (List U8) :=
  if index = 0 then some builtin
  else
    let slot := index - 1
    if 0 ≤ slot ∧ slot < registeredServiceSlots ∧ (k.services slot).used = true then
      some (bufBytes (k.services slot).buf (k.services slot).len)
    else none

/-- The result of the spawn syscalls: the new process's task. -/
def spawnResult : Option (Int × Kernel) → Result := Option.map fun r =>
  (.ret (if r.1 < 0 then errU64 else ofInt (r.2.procs r.1).taskIndex), r.2)

/-- The in-place header stripping of syscall 14: `buf[j] = buf[40 + j]` for `j < n`. -/
def stripHeader (buf : Nat → U8) (n : Nat) : Nat → U8 :=
  (List.range n).foldl (fun b j => update b j (b (execSignHeaderSize + j))) buf

/-- Syscall 14, `register_service`. -/
def registerService (file : FileRead) : U64 × Kernel :=
  match scan registeredServiceSlots fun i => !(k.services i).used with
  | none => (errU64, k)
  | some slot =>
    let s := k.services slot
    let s := { s with buf := file.into s.buf }
    let k := { k with services := update k.services slot s }
    if file.count < 0 then (errU64, k)
    else
      match execSignVerify (bufBytes s.buf file.count.toNat) with
      | none => (errU64, k)
      | some payload =>
        let s := { used := true, len := payload.length, buf := stripHeader s.buf payload.length }
        (ofInt (slot + 1), { k with services := update k.services slot s })

/-- Syscall 15, `unregister_service`. -/
def unregisterService (index : Int) : U64 × Kernel :=
  let slot := index - 1
  if slot < 0 ∨ (registeredServiceSlots : Int) ≤ slot ∨ (k.services slot).used = false then (errU64, k)
  else
    let s := { k.services slot with used := false, len := 0 }
    (0, { k with services := update k.services slot s })

/-- `syscall_process`: 3 `process_query`, 6 `spawn`, 10 `process_open`, 11 `spawn_builtin`,
12 `process_exit`, 14 `register_service`, 15 `unregister_service`, 49 `setuid`,
96 `process_wait`. -/
def syscallProcess : Handler := fun k t call env =>
  let p := k.processOf t
  match call.num.toNat with
  | 3 => some <|
    match lookupHandle k.caps p (toInt32 call.a1) rightQuery (some .process) with
    | none => fail k
    | some o =>
      let q := k.procs (k.caps.objects o).dataIndex
      if q.used = true then done (ofInt q.taskIndex) k else fail k
  | 6 => some (spawnResult (spawnProcessFromPath k env.file call.a2 call.a3))
  | 10 => some <|
    let target := toInt32 call.a1
    if p < 0 then fail k
    else if target < 0 ∨ (k.sched.taskCount : Int) ≤ target then fail k
    else openSlot k t .process (k.processOf target) (call.a2.toNat &&& rightQuery) false
  | 11 => some <|
    match builtinProgram k (toInt32 call.a1) env.builtin with
    | none => fail k
    | some image =>
      spawnResult (spawnProcess k image env.loadVaddr (env.loadVaddr + 0x20000#64) (decide (toInt32 call.a1 ≠ 0)))
  | 12 => some (some (.exited, processExit k t))
  | 14 => some (let r := registerService k env.file; done r.1 r.2)
  | 15 => some (let r := unregisterService k (toInt32 call.a1); done r.1 r.2)
  | 49 => some <|
    if p < 0 then fail k
    else done 0 (k.setProc p { k.procs p with uid := call.a1.setWidth 8 })
  | 96 => some <|
    match lookupHandle k.caps p (toInt32 call.a1) rightQuery (some .process) with
    | none => fail k
    | some _ => some (.blocked, { k with pending := update k.pending t (some .wait) })
  | _ => none

/-- `syscall_channel`: 9 `channel_open`; the channel index was checked (`refused`). -/
def syscallChannel : Handler := fun k t call env =>
  match call.num.toNat with
  | 9 => some <|
    if env.refused = true then fail k
    else openSlot k t .channel (toInt32 call.a1) rightReceive false
  | _ => none

/-- `syscall_io_request`: 16 and 18 issue a read and a write, 17 and 19 wait for them. -/
def syscallIoRequest : Handler := fun k t call env =>
  match call.num.toNat with
  | 16 => some (openSlot k t .ioRequest env.slot 0 true)
  | 17 => some (waitRequest k t (toInt32 call.a1) .ioRequest env.refused)
  | 18 => some (openSlot k t .ioRequest env.slot 0 true)
  | 19 => some (waitRequest k t (toInt32 call.a1) .ioRequest env.refused)
  | _ => none

/-- `syscall_net_request`: 20, 22 and 24 issue a ping, a DNS query and a TCP request, 21, 23 and 25
wait for them. -/
def syscallNetRequest : Handler := fun k t call env =>
  match call.num.toNat with
  | 20 => some (openSlot k t .netPingRequest env.slot 0 true)
  | 21 => some (waitRequest k t (toInt32 call.a1) .netPingRequest env.refused)
  | 22 => some (openSlot k t .netPingRequest env.slot 0 true)
  | 23 => some (waitRequest k t (toInt32 call.a1) .netPingRequest env.refused)
  | 24 => some (openSlot k t .netTcpRequest env.slot 0 true)
  | 25 => some (waitRequest k t (toInt32 call.a1) .netTcpRequest false)
  | _ => none

/-- `syscall_system`: 41 spawns a compiled-in GUI program. -/
def syscallSystem : Handler := fun k _ call env =>
  match call.num.toNat with
  | 41 => some <|
    if env.refused = true then fail k
    else
      (spawnProcess k env.builtin env.loadVaddr (env.loadVaddr + 0x20000#64) false).map fun r =>
        (.ret (ofInt r.1), r.2)
  | _ => none

/-- The rights of a file handle: `access` is 0 for read only, 1 for write only. -/
def fileRights (access : Int) : Nat :=
  (if access ≠ 1 then rightRead else 0) ||| (if access ≠ 0 then rightWrite else 0)

/-- `syscall_file`: 44 `file_object_open`, 48 `file_object_close`. -/
def syscallFile : Handler := fun k t call env =>
  match call.num.toNat with
  | 44 => some <|
    if k.processOf t < 0 then fail k
    else if env.slot < 0 then done (ofInt env.slot) k
    else openObject k t .file env.slot (fileRights (toInt32 call.a2)) true
  | 48 => some (closeObject k t (toInt32 call.a1) (some .file) (if env.refused = true then errU64 else 0))
  | _ => none

/-- `syscall_pipe`: 52 `pipe_open`, whose pipe index is not checked. -/
def syscallPipe : Handler := fun k t call _ =>
  match call.num.toNat with
  | 52 => some (openObject k t .pipe (toInt32 call.a1) (if call.a2 ≠ 0#64 then rightSend else rightReceive) true)
  | _ => none

/-- The shared tail of 56 and 57: map the region the handle names into process `target`. -/
def mapRegion (region : Int) (target : Int) (vaddr : U64) : Result :=
  let r := sharedMemoryMap k.mm.phys (k.mm.shm region) (k.procs target).cr3 vaddr
  done (if r.1 = true then 0 else errU64) (k.setPhys r.2)

/-- `syscall_shm`: 55 creates a region, 56 maps it into the caller, 57 into the process of the task
`a2` names. Unlike 83 and 84, 57 does not check that task index. -/
def syscallShm : Handler := fun k t call _ =>
  let p := k.processOf t
  match call.num.toNat with
  | 55 => some <|
    if p < 0 then fail k
    else
      let r := allocSharedMemory k.mm.phys.frames k.mm.shm (call.a1.toNat % 2 ^ 32)
      let k := { k with mm := { k.mm with phys := { k.mm.phys with frames := r.2.1 }, shm := r.2.2 } }
      openSlot k t .sharedMemory r.1 rightMap true
  | 56 => some <|
    match lookupHandle k.caps p (toInt32 call.a1) rightMap (some .sharedMemory) with
    | none => fail k
    | some o => mapRegion k (k.caps.objects o).dataIndex p call.a2
  | 57 => some <|
    match lookupHandle k.caps p (toInt32 call.a1) rightMap (some .sharedMemory) with
    | none => fail k
    | some o =>
      let target := k.processOf (toInt32 call.a2)
      if target < 0 then fail k else mapRegion k (k.caps.objects o).dataIndex target call.a3
  | _ => none

/-- `syscall_socket`: 59 listens, 60 accepts, 63 closes. -/
def syscallSocket : Handler := fun k t call env =>
  let p := k.processOf t
  match call.num.toNat with
  | 59 => some (openSlot k t .socket env.slot (rightSend ||| rightReceive) true)
  | 60 => some <|
    match lookupHandle k.caps p (toInt32 call.a1) rightReceive (some .socket) with
    | none => fail k
    | some _ => some (.blocked, { k with pending := update k.pending t (some (.accept p)) })
  | 63 => some (closeObject k t (toInt32 call.a1) (some .socket) 0)
  | _ => none

/-- `syscall_device`: 90 `device_open`, 92 `device_close`. -/
def syscallDevice : Handler := fun k t call env =>
  match call.num.toNat with
  | 90 => some <|
    if env.refused = true then fail k
    else openObject k t .device (toInt32 call.a1) rightQuery true
  | 92 => some (closeObject k t (toInt32 call.a1) (some .device) 0)
  | _ => none

/-- `syscall_service_manager`: 66 and 68 start a service unless it is unknown or already running. -/
def syscallServiceManager : Handler := fun k _ call env =>
  let start : Result :=
    if env.refused = true then done env.value k
    else
      (spawnProcess k env.builtin env.loadVaddr (env.loadVaddr + 0x20000#64) false).map fun r =>
        (.ret (if r.1 < 0 then 0 else 1), r.2)
  match call.num.toNat with
  | 66 => some start
  | 68 => some start
  | _ => none

/-- `syscall_thread`: 71 `thread_create`, 72 `thread_join`, 73 `thread_exit`. -/
def syscallThread : Handler := fun k t call _ =>
  match call.num.toNat with
  | 71 => some (doneWith (threadCreate k t call.a1))
  | 72 => some <|
    match lookupHandle k.caps (k.processOf t) (toInt32 call.a1) 0 (some .thread) with
    | none => fail k
    | some _ => some (.blocked, { k with pending := update k.pending t (some .wait) })
  | 73 => some (some (.exited, k.setTask t { k.sched.tasks t with used := false }))
  | _ => none

/-- `syscall_sync`: 74, 78 and 81 create an event, a mutex and a timer. When there is no handle left
the object stays allocated. -/
def syscallSync : Handler := fun k t call env =>
  match call.num.toNat with
  | 74 => some (openSlot k t .event env.slot rightQuery false)
  | 78 => some (openSlot k t .mutex env.slot rightQuery false)
  | 81 => some (openSlot k t .timer env.slot rightQuery false)
  | _ => none

/-- `syscall_directory`: 87 `directory_open`, 89 `directory_close`. -/
def syscallDirectory : Handler := fun k t call env =>
  match call.num.toNat with
  | 87 => some (openSlot k t .directory env.slot rightRead true)
  | 89 => some (closeObject k t (toInt32 call.a1) (some .directory) (if env.refused = true then errU64 else 0))
  | _ => none

/-- `syscall_fork`: 95. -/
def syscallForkHandler : Handler := fun k t call env =>
  match call.num.toNat with
  | 95 => some (doneWith (syscallFork k t env.regs))
  | _ => none

/-- `syscall_wifi`: 101 and 103 issue a scan and a connect, 102 and 104 wait for them. -/
def syscallWifi : Handler := fun k t call env =>
  match call.num.toNat with
  | 101 => some (openSlot k t .wifiRequest env.slot 0 true)
  | 102 => some (waitRequest k t (toInt32 call.a1) .wifiRequest false)
  | 103 => some (openSlot k t .wifiRequest env.slot 0 true)
  | 104 => some (waitRequest k t (toInt32 call.a1) .wifiRequest false)
  | _ => none

end MinicOs
