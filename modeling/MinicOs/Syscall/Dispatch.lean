import MinicOs.Ipc.CapInv
import MinicOs.Syscall.Handlers

/-!
# Syscall dispatch

Model of `syscall_dispatch` (`kernel/syscall/syscall.c`) and of the kernel as a state machine over
its syscalls: the sandbox test first, then the handlers in the order of the source. A number that
no modelled handler knows is unknown or belongs to a subsystem whose tables are not modelled.
-/

namespace MinicOs

open List

/-- The handlers, in the order `syscall_dispatch` tries them. -/
def handlers : List Handler :=
  [syscallCore, syscallProcess, syscallChannel, syscallIoRequest, syscallNetRequest, syscallSystem,
    syscallFile, syscallPipe, syscallShm, syscallSocket, syscallDevice, syscallServiceManager,
    syscallThread, syscallSync, syscallDirectory, syscallForkHandler, syscallWifi]

/-- The first handler that knows the number. -/
def runHandlers (k : Kernel) (t : Int) (call : Call) (env : Env) : List Handler → Result
  | [] => done env.value k
  | h :: hs =>
    match h k t call env with
    | some r => r
    | none => runHandlers k t call env hs

variable (k : Kernel)

/-- `syscall_dispatch`, for task `t`. -/
def syscallDispatch (t : Int) (call : Call) (env : Env) : Result :=
  if sandboxDenies k.caps (k.processOf t) call.num = true then fail k
  else runHandlers k t call env handlers

/-- A suspended handler goes on. -/
def resume (t : Int) (env : Env) : Result :=
  let k' := { k with pending := Function.update k.pending t none }
  match k.pending t with
  | none => none
  | some (.release p h o) => done env.value { k' with caps := freeHandle (freeObject k'.caps o) p h }
  | some (.accept p) =>
    if env.slot < 0 then fail k'
    else
      let r := createObject k'.caps p .socket env.slot (rightSend ||| rightReceive) true
      done r.1 { k' with caps := r.2 }
  | some .wait => done env.value k'

/-- What can happen: a task makes a syscall, or a suspended one goes on, or a kernel task (`kmain`,
the shell, the service manager) spawns a process. -/
inductive Event
  | syscall (t : Int) (call : Call) (env : Env)
  | resume (t : Int) (env : Env)
  | spawn (image : List U8) (loadVaddr stackVaddr : U64) (sandboxed : Bool)

def Kernel.step : Event → Result
  | .syscall t call env => syscallDispatch k t call env
  | .resume t env => MinicOs.resume k t env
  | .spawn image loadVaddr stackVaddr sandboxed =>
    (spawnProcess k image loadVaddr stackVaddr sandboxed).map fun r => (.ret (ofInt r.1), r.2)

/-- The event can happen: its task exists, and it is suspended or not as it has to be. -/
def Event.Enabled : Event → Prop
  | .syscall t _ _ => (k.sched.tasks t).used = true ∧ k.pending t = none
  | .resume t _ => (k.sched.tasks t).used = true ∧ k.pending t ≠ none
  | .spawn _ _ _ _ => True

instance (k : Kernel) : (ev : Event) → Decidable (ev.Enabled k)
  | .syscall _ _ _ => inferInstanceAs (Decidable (_ ∧ _))
  | .resume _ _ => inferInstanceAs (Decidable (_ ∧ _))
  | .spawn _ _ _ _ => inferInstanceAs (Decidable True)

def KStep (k k' : Kernel) : Prop := ∃ ev o, ev.Enabled k ∧ k.step ev = some (o, k')

/-- The state after an event, the same state if the machine stops. -/
def Kernel.after (ev : Event) : Kernel := ((k.step ev).map Prod.snd).getD k

theorem step_after (ev : Event) (h : (k.step ev).isSome = true) : ∃ o, k.step ev = some (o, k.after ev) := by
  obtain ⟨⟨o, k'⟩, hk⟩ := Option.isSome_iff_exists.mp h
  refine ⟨o, ?_⟩
  unfold Kernel.after
  rw [hk]
  rfl

/-- The operation that a closing syscall performs if its handle passes the checks. -/
def closingOp (t : Int) (h : Int) (type : Option ObjType) : CapOp :=
  if (lookupHandle k.caps (k.processOf t) h 0 type).isSome = true then .close (k.processOf t) h
  else .keep

/-- The operation of a spawn or a fork that finds a process record. -/
def spawningOp (sandboxed : Bool) : CapOp :=
  match findProcessSlot k.procs k.procCount with
  | some i => .spawn (k.recordIndex i) sandboxed
  | none => .keep

/-- The operation of `process_exit`. -/
def exitingOp (t : Int) : CapOp :=
  if 0 ≤ k.processOf t then .closeAll (k.processOf t) else .keep

/-- The closing or registering operation of a syscall, if it gets that far. -/
def callOp (t : Int) (call : Call) : CapOp :=
  match call.num.toNat with
  | 6 => spawningOp k true
  | 11 => spawningOp k (decide (toInt32 call.a1 ≠ 0))
  | 12 => exitingOp k t
  | 13 => closingOp k t (toInt32 call.a1) none
  | 41 => spawningOp k false
  | 48 => closingOp k t (toInt32 call.a1) (some .file)
  | 63 => closingOp k t (toInt32 call.a1) (some .socket)
  | 66 => spawningOp k false
  | 68 => spawningOp k false
  | 89 => closingOp k t (toInt32 call.a1) (some .directory)
  | 92 => closingOp k t (toInt32 call.a1) (some .device)
  | 95 => spawningOp k false
  | _ => .keep

/-- The closing or registering operation of an event. -/
def eventOp : Event → CapOp
  | .syscall t call _ => callOp k t call
  | .resume t _ =>
    match k.pending t with
    | some (.release p h o) => .finish p h o
    | _ => .keep
  | .spawn _ _ _ sandboxed => spawningOp k sandboxed

/-- The processes that get the handles a syscall opens or grants. -/
def callReceivers (t : Int) (call : Call) : List Int :=
  match call.num.toNat with
  | 9 | 10 | 16 | 18 | 20 | 22 | 24 | 44 | 52 | 55 | 59 | 71 | 74 | 78 | 81 | 87 | 90 | 101 | 103 =>
    [k.processOf t]
  | 83 => [k.processOf (toInt32 call.a2)]
  | 84 => [k.processOf (toInt32 call.a3)]
  | _ => []

/-- The processes that get the handles an event opens. -/
def eventReceivers : Event → List Int
  | .syscall t call _ => callReceivers k t call
  | .resume t _ =>
    match k.pending t with
    | some (.accept p) => [p]
    | _ => []
  | .spawn _ _ _ _ => []

/-- The operation only opens: it neither frees nor registers, opens no sandbox object, and gives its
handles to processes of `ps`. -/
def CapOp.Opens (ps : List Int) : CapOp → Prop
  | .keep => True
  | .create p type _ _ _ => p ∈ ps ∧ type ≠ .sandbox
  | .grant _ p _ => p ∈ ps
  | _ => False

/-- The operation neither opens nor grants. -/
def CapOp.Registers : CapOp → Prop
  | .create _ _ _ _ _ => False
  | .grant _ _ _ => False
  | _ => True

theorem eventOp_registers (ev : Event) : (eventOp k ev).Registers := by
  have hspawn : ∀ b, (spawningOp k b).Registers := by
    intro b
    unfold spawningOp
    split <;> trivial
  have hclose : ∀ t g ty, (closingOp k t g ty).Registers := by
    intro t g ty
    unfold closingOp
    split <;> trivial
  cases ev with
  | syscall t call env =>
    show (callOp k t call).Registers
    unfold callOp
    split
    all_goals first
      | exact hspawn _
      | exact hclose _ _ _
      | (unfold exitingOp; split <;> trivial)
      | trivial
  | resume t env =>
    unfold eventOp
    simp only
    split <;> trivial
  | spawn image l st b => exact hspawn b

/-! ## What the handlers do to the capability tables -/

/-- The tables change by an operation the handlers checked, one that only opens, for processes of `ps`, or
`op`. -/
def CapsBy (k k' : Kernel) (ps : List Int) (op : CapOp) : Prop :=
  ∃ op', k'.caps = op'.run k.caps ∧ op'.Valid k.caps ∧ (op'.Opens ps ∨ op' = op) ∧ k'.inUse = op'.records k.inUse

theorem CapsBy.same {k k' : Kernel} {ps : List Int} {op : CapOp}
    (h : (k'.caps, k'.procs, k'.procCount) = (k.caps, k.procs, k.procCount)) : CapsBy k k' ps op := by
  simp only [Prod.mk.injEq] at h
  obtain ⟨hcaps, hprocs, hcount⟩ := h
  refine ⟨.keep, hcaps, trivial, Or.inl trivial, ?_⟩
  funext p
  unfold Kernel.inUse
  rw [hprocs, hcount]
  rfl

variable {type : ObjType}

variable {f : Bool} {r : Nat}

theorem CapsBy.create {k k' : Kernel} {ps : List Int} {op : CapOp} {p d : Int} (hp : p ∈ ps) (ht : type ≠ .sandbox)
    (h : k'.caps = (createObject k.caps p type d r f).2) (hu : k'.inUse = k.inUse) : CapsBy k k' ps op :=
  ⟨.create p type d r f, h, trivial, Or.inl ⟨hp, ht⟩, hu⟩

variable {h : Int}

theorem lookupHandle_eq_some {c : Caps} {p : Int} {rights : Nat} {type : Option ObjType} {o : Int}
    (hl : lookupHandle c p h rights type = some o) : 0 ≤ p ∧ 0 ≤ h ∧ h < handlesPerProcess ∧ (c.handles p h).used = true ∧
      (rights = 0 ∨ (c.handles p h).rights &&& rights ≠ 0) ∧
      (type = none ∨ type = some (c.objects o).type) ∧ (c.handles p h).objectIndex = o := by
  unfold lookupHandle at hl
  split at hl
  · rename_i hc
    cases hl
    obtain ⟨h1, h2, h3, h4, h5, h6⟩ := hc
    exact ⟨h1, h2, h3, h4, h5, h6, rfl⟩
  · simp at hl

section Handlers

variable {k k' k₀ : Kernel} {t : Int} {o : Outcome} {op : CapOp} {v : U64} {ps : List Int}

theorem done_eq (h : done v k = some (o, k')) : k' = k := by
  cases h
  rfl

/-- The tables in the state that comes with the result changed by one operation. -/
def Result.CapsBy (r : Result) (k : Kernel) (ps : List Int) (op : CapOp) : Prop :=
  ∀ o k', r = some (o, k') → MinicOs.CapsBy k k' ps op

theorem Result.CapsBy.ret (h : MinicOs.CapsBy k₀ k ps op) : Result.CapsBy (some (o, k)) k₀ ps op := by
  intro o' k' heq
  cases heq
  exact h

theorem fail_caps : (fail k).CapsBy k ps op := .ret (.same rfl)

/-- A function of the kernel whose answer is made a result. -/
theorem map_caps {α : Type} {r : Option (α × Kernel)} {g : α × Kernel → Outcome}
    (h : ∀ a k', r = some (a, k') → CapsBy k k' ps op) : Result.CapsBy (r.map fun x => (g x, x.2)) k ps op := by
  intro o k' heq
  obtain ⟨⟨a, k''⟩, hr, heq⟩ := Option.map_eq_some_iff.mp heq
  cases heq
  exact h a k'' hr

variable {slot : Int}

theorem openObject_caps (hp : k.processOf t ∈ ps) (ht : type ≠ .sandbox) :
    (openObject k t type slot r f).CapsBy k ps op := by
  unfold openObject
  simp only
  split
  · exact fail_caps
  · exact .ret (.create hp ht rfl rfl)

theorem openSlot_caps (hp : k.processOf t ∈ ps) (ht : type ≠ .sandbox) :
    (openSlot k t type slot r f).CapsBy k ps op := by
  unfold openSlot
  split
  · exact fail_caps
  · exact openObject_caps hp ht

theorem closeObject_caps {type : Option ObjType} : (closeObject k t h type v).CapsBy k ps (closingOp k t h type) := by
  unfold closeObject
  simp only
  split
  · exact fail_caps
  · rename_i obj hl
    obtain ⟨-, -, -, hu, -⟩ := lookupHandle_eq_some hl
    refine .ret ⟨.close (k.processOf t) h, rfl, hu, Or.inr ?_, rfl⟩
    unfold closingOp
    rw [hl]
    rfl

theorem waitRequest_caps {refused : Bool} : (waitRequest k t h type refused).CapsBy k ps op := by
  unfold waitRequest
  simp only
  split
  · exact fail_caps
  · split
    · exact fail_caps
    · exact .ret (.same rfl)

variable {l st : U64}

theorem spawnProcess_caps {image : List U8} {sandboxed : Bool} {r : Int}
    (h : spawnProcess k image l st sandboxed = some (r, k')) : CapsBy k k' ps (spawningOp k sandboxed) := by
  rcases spawnProcess_cases h with ⟨-, ⟨-, rfl⟩ | ⟨-, rfl⟩⟩ | ⟨i, hslot, -, hreg⟩
  · exact .same rfl
  · exact .same rfl
  · obtain ⟨c, mm, sched, -, ⟨-, -, rfl⟩ | ⟨-, -, rfl⟩⟩ := registerSpawn_cases hreg
    · exact .same rfl
    · refine ⟨.spawn (k.recordIndex i) sandboxed, rfl, trivial, Or.inr ?_, inUse_register hslot rfl rfl rfl⟩
      unfold spawningOp
      rw [hslot]

theorem syscallFork_caps {regs : Nat → U64} (h : syscallFork k t regs = some (v, k')) :
    CapsBy k k' ps (spawningOp k false) := by
  rcases syscallFork_cases h with ⟨-, rfl, -⟩ | ⟨i, child, ph, -, hslot, -, hrest⟩
  · exact .same rfl
  rcases hrest with ⟨-, -, rfl⟩ | ⟨-, ok, mm, -, hrest⟩
  · exact .same rfl
  rcases hrest with ⟨-, -, rfl⟩ | ⟨-, c, mm', sched, -, hrest⟩
  · exact .same rfl
  rcases hrest with ⟨-, -, rfl⟩ | ⟨-, -, rfl⟩
  · exact .same rfl
  · refine ⟨.spawn (k.recordIndex i) false, rfl, trivial, Or.inr ?_, inUse_register hslot rfl rfl rfl⟩
    unfold spawningOp
    rw [hslot]

theorem processExit_caps : CapsBy k (processExit k t) ps (exitingOp k t) := by
  unfold exitingOp
  by_cases hp : 0 ≤ k.processOf t
  · obtain ⟨hprocs, hcount, -⟩ := processExit_tables hp
    rw [if_pos hp]
    refine ⟨.closeAll (k.processOf t), ?_, trivial, Or.inr rfl, inUse_update hprocs hcount (Bool.and_false _)⟩
    simp only [processExit, if_pos hp]
    rfl
  · simp only [processExit, if_neg hp]
    exact .same rfl

theorem threadCreate_caps (hp : k.processOf t ∈ ps) {entry : U64} (h : threadCreate k t entry = some (v, k')) :
    CapsBy k k' ps op := by
  unfold threadCreate at h
  simp only at h
  split at h
  · cases h
    exact .same rfl
  split at h
  · cases h
  split at h
  · cases h
    exact .same rfl
  split at h
  · cases h
    exact .same rfl
  split at h <;> cases h <;> exact .create hp (by decide) rfl (inUse_kept rfl rfl rfl)

theorem spawnProcessFromPath_caps {file : FileRead} {r : Int} (h : spawnProcessFromPath k file l st = some (r, k')) :
    CapsBy k k' ps (spawningOp k true) := by
  unfold spawnProcessFromPath at h
  simp only at h
  split at h
  · cases h
    exact .same rfl
  split at h
  · cases h
    exact .same rfl
  · exact spawnProcess_caps (k := { k with imageBuf := file.into k.imageBuf }) h

theorem registerService_caps (file : FileRead) : CapsBy k (registerService k file).2 ps op := by
  unfold registerService
  split
  · exact .same rfl
  · simp only
    split
    · exact .same rfl
    · split <;> exact .same rfl

theorem unregisterService_caps (i : Int) : CapsBy k (unregisterService k i).2 ps op := by
  unfold unregisterService
  simp only
  split <;> exact .same rfl

/-! ### Handler by handler

After `split` the number of the call is known, and with it the operation of a call that closes or
registers. -/

variable {call : Call} {env : Env}

/-- An answer of the handler changes the tables by one operation. -/
def Handler.CapsBy (f : Handler) (k : Kernel) (t : Int) (call : Call) (env : Env) : Prop :=
  ∀ r, f k t call env = some r → r.CapsBy k (callReceivers k t call) (callOp k t call)

theorem closing_caps {type : Option ObjType} (hop : callOp k t call = closingOp k t h type) :
    (closeObject k t h type v).CapsBy k ps (callOp k t call) := by
  rw [hop]
  exact closeObject_caps

theorem opening_caps (hr : callReceivers k t call = [k.processOf t]) (ht : type ≠ .sandbox) :
    (openSlot k t type slot r f).CapsBy k (callReceivers k t call) op := by
  rw [hr]
  exact openSlot_caps (mem_singleton_self _) ht

theorem creating_caps (hr : callReceivers k t call = [k.processOf t]) (ht : type ≠ .sandbox) :
    (openObject k t type slot r f).CapsBy k (callReceivers k t call) op := by
  rw [hr]
  exact openObject_caps (mem_singleton_self _) ht

theorem spawning_caps {image : List U8} {sandboxed : Bool} {g : Int × Kernel → Outcome}
    (hop : callOp k t call = spawningOp k sandboxed) :
    Result.CapsBy ((spawnProcess k image l st sandboxed).map fun x => (g x, x.2)) k ps (callOp k t call) := by
  rw [hop]
  exact map_caps fun _ _ => spawnProcess_caps

theorem syscallCore_caps : Handler.CapsBy syscallCore k t call env := by
  intro r h
  unfold syscallCore at h
  simp only at h
  split at h <;> cases h
  · exact closing_caps (by simp only [callOp, *])
  · split
    · exact fail_caps
    rename_i obj hl
    split
    · exact fail_caps
    split
    · exact fail_caps
    obtain ⟨-, -, -, hu, -, -, hobj⟩ := lookupHandle_eq_some hl
    refine .ret ⟨.grant (k.processOf t) (k.processOf (toInt32 call.a2)) [toInt32 call.a1], ?_, ?_, Or.inl ?_, rfl⟩
    · rw [← hobj]
      show _ = (loopOk _ [_] k.caps).2
      unfold loopOk
      rcases hb : grantOne (k.processOf t) (k.processOf (toInt32 call.a2)) (toInt32 call.a1) k.caps with
        ⟨ok, c'⟩
      have hc' : c' = (grantOne (k.processOf t) (k.processOf (toInt32 call.a2)) (toInt32 call.a1) k.caps).2 := by rw [hb]
      cases ok <;> exact hc'.symm
    · intro h' hh'
      rw [mem_singleton.mp hh']
      exact hu
    · simp [CapOp.Opens, callReceivers, *]
  · split
    · exact fail_caps
    split
    · exact fail_caps
    split
    · exact fail_caps
    split
    · rename_i hall
      refine .ret ⟨.grant (k.processOf t) (k.processOf (toInt32 call.a3)) _, rfl, ?_, Or.inl ?_, rfl⟩
      · intro h' hh'
        have hs := all_eq_true.mp hall h' hh'
        obtain ⟨obj, hobj⟩ := Option.isSome_iff_exists.mp hs
        exact (lookupHandle_eq_some hobj).2.2.2.1
      · simp [CapOp.Opens, callReceivers, *]
    · exact fail_caps

theorem syscallProcess_caps : Handler.CapsBy syscallProcess k t call env := by
  intro r h
  unfold syscallProcess at h
  simp only at h
  split at h <;> cases h
  · split
    · exact fail_caps
    · split
      · exact .ret (.same rfl)
      · exact fail_caps
  · rw [show callOp k t call = spawningOp k true by simp only [callOp, *]]
    exact map_caps fun _ _ => spawnProcessFromPath_caps
  · split
    · exact fail_caps
    split
    · exact fail_caps
    · exact opening_caps (by simp only [callReceivers, *]) (by decide)
  · split
    · exact fail_caps
    · exact spawning_caps (by simp only [callOp, *])
  · rw [show callOp k t call = exitingOp k t by simp only [callOp, *]]
    exact .ret processExit_caps
  · exact .ret (registerService_caps env.file)
  · exact .ret (unregisterService_caps (toInt32 call.a1))
  · split
    · exact fail_caps
    · exact .ret ⟨.keep, rfl, trivial, Or.inl trivial, inUse_kept rfl rfl rfl⟩
  · split
    · exact fail_caps
    · exact .ret (.same rfl)

theorem syscallChannel_caps : Handler.CapsBy syscallChannel k t call env := by
  intro r h
  unfold syscallChannel at h
  split at h <;> cases h
  split
  · exact fail_caps
  · exact opening_caps (by simp only [callReceivers, *]) (by decide)

theorem syscallIoRequest_caps : Handler.CapsBy syscallIoRequest k t call env := by
  intro r h
  unfold syscallIoRequest at h
  split at h <;> cases h <;> first | exact opening_caps (by simp only [callReceivers, *]) (by decide) | exact waitRequest_caps

theorem syscallNetRequest_caps : Handler.CapsBy syscallNetRequest k t call env := by
  intro r h
  unfold syscallNetRequest at h
  split at h <;> cases h <;> first | exact opening_caps (by simp only [callReceivers, *]) (by decide) | exact waitRequest_caps

theorem syscallSystem_caps : Handler.CapsBy syscallSystem k t call env := by
  intro r h
  unfold syscallSystem at h
  split at h <;> cases h
  split
  · exact fail_caps
  · exact spawning_caps (by simp only [callOp, *])

theorem syscallFile_caps : Handler.CapsBy syscallFile k t call env := by
  intro r h
  unfold syscallFile at h
  split at h <;> cases h
  · split
    · exact fail_caps
    split
    · exact .ret (.same rfl)
    · exact creating_caps (by simp only [callReceivers, *]) (by decide)
  · exact closing_caps (by simp only [callOp, *])

theorem syscallPipe_caps : Handler.CapsBy syscallPipe k t call env := by
  intro r h
  unfold syscallPipe at h
  split at h <;> cases h
  exact creating_caps (by simp only [callReceivers, *]) (by decide)

theorem syscallShm_caps : Handler.CapsBy syscallShm k t call env := by
  intro r h
  unfold syscallShm at h
  simp only at h
  split at h <;> cases h
  · split
    · exact fail_caps
    · exact opening_caps (by simp only [callReceivers, *]) (show ObjType.sharedMemory ≠ .sandbox by decide)
  · split
    · exact fail_caps
    · exact .ret (.same rfl)
  · split
    · exact fail_caps
    · split
      · exact fail_caps
      · exact .ret (.same rfl)

theorem syscallSocket_caps : Handler.CapsBy syscallSocket k t call env := by
  intro r h
  unfold syscallSocket at h
  split at h <;> cases h
  · exact opening_caps (by simp only [callReceivers, *]) (by decide)
  · split
    · exact fail_caps
    · exact .ret (.same rfl)
  · exact closing_caps (by simp only [callOp, *])

theorem syscallDevice_caps : Handler.CapsBy syscallDevice k t call env := by
  intro r h
  unfold syscallDevice at h
  split at h <;> cases h
  · split
    · exact fail_caps
    · exact creating_caps (by simp only [callReceivers, *]) (by decide)
  · exact closing_caps (by simp only [callOp, *])

theorem syscallServiceManager_caps : Handler.CapsBy syscallServiceManager k t call env := by
  intro r h
  unfold syscallServiceManager at h
  simp only at h
  split at h <;> cases h
  all_goals
    split
    · exact .ret (.same rfl)
    · exact spawning_caps (by simp only [callOp, *])

theorem syscallThread_caps : Handler.CapsBy syscallThread k t call env := by
  intro r h
  unfold syscallThread at h
  split at h <;> cases h
  · exact map_caps fun _ _ => threadCreate_caps (by simp only [callReceivers, *, mem_singleton])
  · split
    · exact fail_caps
    · exact .ret (.same rfl)
  · exact .ret (.same rfl)

theorem syscallSync_caps : Handler.CapsBy syscallSync k t call env := by
  intro r h
  unfold syscallSync at h
  split at h <;> cases h <;> exact opening_caps (by simp only [callReceivers, *]) (by decide)

theorem syscallDirectory_caps : Handler.CapsBy syscallDirectory k t call env := by
  intro r h
  unfold syscallDirectory at h
  split at h <;> cases h
  · exact opening_caps (by simp only [callReceivers, *]) (by decide)
  · exact closing_caps (by simp only [callOp, *])

theorem syscallForkHandler_caps : Handler.CapsBy syscallForkHandler k t call env := by
  intro r h
  unfold syscallForkHandler at h
  split at h <;> cases h
  rw [show callOp k t call = spawningOp k false by simp only [callOp, *]]
  exact map_caps fun _ _ => syscallFork_caps

theorem syscallWifi_caps : Handler.CapsBy syscallWifi k t call env := by
  intro r h
  unfold syscallWifi at h
  split at h <;> cases h <;> first | exact opening_caps (by simp only [callReceivers, *]) (by decide) | exact waitRequest_caps

/-- A property of what the handlers do is one of what the chain of them does. -/
theorem runHandlers_caps {hs : List Handler} (hall : ∀ f ∈ hs, f.CapsBy k t call env) :
    (runHandlers k t call env hs).CapsBy k (callReceivers k t call) (callOp k t call) := by
  induction hs with
  | nil => exact .ret (.same rfl)
  | cons f fs ih =>
    unfold runHandlers
    cases hf : f k t call env with
    | some r => exact hall f mem_cons_self r hf
    | none => exact ih fun g hg => hall g (mem_cons_of_mem f hg)

/-- `syscall_dispatch` changes the capability tables by one operation. -/
theorem syscallDispatch_caps : (syscallDispatch k t call env).CapsBy k (callReceivers k t call) (callOp k t call) := by
  unfold syscallDispatch
  split
  · exact fail_caps
  · refine runHandlers_caps ?_
    simp only [handlers, forall_mem_cons, not_mem_nil, false_imp_iff, implies_true, and_true]
    exact ⟨syscallCore_caps, syscallProcess_caps, syscallChannel_caps, syscallIoRequest_caps, syscallNetRequest_caps,
      syscallSystem_caps, syscallFile_caps, syscallPipe_caps, syscallShm_caps, syscallSocket_caps, syscallDevice_caps,
      syscallServiceManager_caps, syscallThread_caps, syscallSync_caps, syscallDirectory_caps, syscallForkHandler_caps,
      syscallWifi_caps⟩

theorem resume_caps {ev : Env} : (resume k t ev).CapsBy k (eventReceivers k (.resume t ev)) (eventOp k (.resume t ev)) := by
  unfold resume
  split
  · intro o k' h
    cases h
  · rename_i p g obj hp
    refine .ret ⟨.finish p g obj, rfl, trivial, Or.inr ?_, rfl⟩
    simp only [eventOp, hp]
  · split
    · exact .ret (.same rfl)
    · exact .ret (.create (by simp only [eventReceivers, *, mem_singleton]) (by decide) rfl rfl)
  · exact .ret (.same rfl)

/-- **Every step changes the capability tables by one operation**: one that only opens, or the
closing or registering operation of its event. -/
theorem step_caps {ev : Event} (h : k.step ev = some (o, k')) : CapsBy k k' (eventReceivers k ev) (eventOp k ev) := by
  cases ev with
  | syscall t call env => exact syscallDispatch_caps o k' h
  | resume t env => exact resume_caps o k' h
  | spawn image l st sandboxed => exact map_caps (fun _ _ => spawnProcess_caps) o k' h

end Handlers

end MinicOs
