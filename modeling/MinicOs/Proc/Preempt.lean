import MinicOs.Proc.Boot

/-!
# Interrupted spawns

A kernel task (the shell, the service manager's worker) calls `spawn_process` with interrupts on, so
the timer can switch away from it between any two statements. `spawnStep` is one such statement or
one piece that touches nothing another task reads: `alloc_frame` and the critical section run with
interrupts off, and the tables of the new address space are the caller's alone until the process is
registered.
-/

namespace MinicOs

open List Function

/-- The arguments of `spawn_process`, with the size of the image for its two pointers. -/
structure SpawnArgs where
  size : Nat
  loadVaddr : U64
  stackVaddr : U64
  sandboxed : Bool

/-- Where an interrupted `spawn_process` stands. From `clone` on, `slot` is its `proc_index`. -/
inductive SpawnPc
  | scan (p : Nat)
  | limit
  | clone (slot : Int)
  | page (slot : Int) (cr3 : U64) (pageIndex : Nat)
  | copy (slot : Int) (cr3 : U64) (pageIndex : Nat) (frame : U64) (i : Nat)
  | stack (slot : Int) (cr3 : U64)
  | register (slot : Int) (cr3 : U64)
  | done (r : Int)
deriving DecidableEq

/-- The process record the call has chosen, `-1` once it has decided to append one. -/
def SpawnPc.slot? : SpawnPc → Option Int
  | .clone slot => some slot
  | .page slot _ _ => some slot
  | .copy slot _ _ _ _ => some slot
  | .stack slot _ => some slot
  | .register slot _ => some slot
  | _ => none

/-- One step of `spawn_process`; `image` is what its image pointer reads at this moment. `none` once
it has returned, or when the machine stops. -/
def spawnStep (a : SpawnArgs) (image : Nat → U8) (k : Kernel) : SpawnPc → Option (SpawnPc × Kernel)
  | .scan p =>
    if p < k.procCount then
      if (k.procs p).used = false then some (.clone p, k) else some (.scan (p + 1), k)
    else some (.limit, k)
  | .limit => if maxProcesses ≤ k.procCount then some (.done (-1), k) else some (.clone (-1), k)
  | .clone slot =>
    let r := cloneAddressSpace k.mm.phys k.mm.gPml4Phys
    if r.1 = 0#64 then some (.done (-1), k.setPhys r.2) else some (.page slot r.1 0, k.setPhys r.2)
  | .page slot cr3 j =>
    if j < imagePages a.size then
      let r := allocFrame k.mm.phys.frames
      if r.1 = 0#64 then some (.done (-1), k.setPhys { k.mm.phys with frames := r.2 })
      else
        let vaddr := a.loadVaddr + BitVec.ofNat 64 j * 4096#64
        let m := mapPageIn { k.mm.phys with frames := r.2 } cr3 vaddr r.1 0x06#64
        if m.1 = true then some (.copy slot cr3 j r.1 0, k.setPhys m.2)
        else some (.done (-1), k.setPhys { m.2 with frames := freeFrame m.2.frames r.1 })
    else some (.stack slot cr3, k)
  | .copy slot cr3 j frame i =>
    if i < 4096 ∧ j * 4096 + i < a.size then
      some (.copy slot cr3 j frame (i + 1), k.setPhys { k.mm.phys with
        mem := storeByte k.mm.phys.mem (frameNum frame) i (image (j * 4096 + i)) })
    else some (.page slot cr3 (j + 1), k)
  | .stack slot cr3 =>
    let r := mapStack cr3 a.stackVaddr k.mm.phys
    if r.1 = true then some (.register slot cr3, k.setPhys r.2)
    else some (.done (-1), k.setPhys r.2)
  | .register slot cr3 =>
    (registerSpawn k slot cr3 a.loadVaddr a.stackVaddr a.sandboxed).map fun r => (.done r.1, r.2)
  | .done _ => none

/-! ## What a creation does to the process and task tables -/

/-- The process and task tables are the same. -/
structure SameTables (k k' : Kernel) : Prop where
  procs : k'.procs = k.procs
  procCount : k'.procCount = k.procCount
  sched : k'.sched = k.sched

/-- A process is registered with the choice `slot`, under a task `i` that was not in use. -/
structure Registers (k k' : Kernel) (slot : Int) (i : Nat) (v : Process) (task : Task) : Prop where
  procs : k'.procs = Function.update k.procs (k.recordIndex slot) v
  used : v.used = true
  taskIndex : v.taskIndex = i
  procCount : k'.procCount = if slot < 0 then k.procCount + 1 else k.procCount
  tasks : k'.sched.tasks = Function.update k.sched.tasks i task
  taskUsed : task.used = true
  processIndex : task.processIndex = k.recordIndex slot
  fresh : (i < k.sched.taskCount ∧ (k.sched.tasks i).used = false ∧ k'.sched.taskCount = k.sched.taskCount) ∨
    (i = k.sched.taskCount ∧ k.sched.taskCount < maxTasks ∧ k'.sched.taskCount = k.sched.taskCount + 1)

theorem SameTables.setPhys (k : Kernel) (ph : Phys) : SameTables k (k.setPhys ph) := ⟨rfl, rfl, rfl⟩

variable {cr3 : U64} {k k' : Kernel} {r slot : Int}

theorem registerSpawn_tables {loadVaddr stackVaddr : U64} {sandboxed : Bool}
    (h : registerSpawn k slot cr3 loadVaddr stackVaddr sandboxed = some (r, k')) : (r = -1 ∧ SameTables k k') ∨
      (r = k.recordIndex slot ∧ ∃ i v task, Registers k k' slot i v task ∧ v.cr3 = cr3) := by
  obtain ⟨t, mm, sched, htask, ⟨hneg, rfl, rfl⟩ | ⟨hpos, rfl, rfl⟩⟩ := registerSpawn_cases h
  · obtain rfl := createTaskWithCr3_failed htask hneg
    exact .inl ⟨rfl, rfl, rfl, rfl⟩
  · obtain ⟨i, st, rfl, htasks, hfresh⟩ := createTaskWithCr3_created htask hpos
    let task : Task := { freshTask cr3 st with
      ring3EntryVaddr := loadVaddr, ring3UserStackTop := stackVaddr + 4096#64,
      processIndex := k.recordIndex slot }
    refine .inr ⟨rfl, i, _, task, ⟨rfl, rfl, rfl, rfl, ?_, rfl, rfl, hfresh⟩, rfl⟩
    simp only [wireSpawn, Kernel.register, Kernel.setTask, Sched.setTask, Kernel.setProc, htasks, update_idem, update_self]
    rfl

/-- An uninterrupted spawn registers with the choice of its search, or leaves the tables alone. -/
theorem spawnProcess_tables {image : List U8} {loadVaddr stackVaddr : U64} {sandboxed : Bool}
    (h : spawnProcess k image loadVaddr stackVaddr sandboxed = some (r, k')) : (r = -1 ∧ SameTables k k') ∨
      ∃ slot, findProcessSlot k.procs k.procCount = some slot ∧ r = k.recordIndex slot ∧
        ∃ i v task, Registers k k' slot i v task := by
  rcases spawnProcess_cases h with ⟨rfl, ⟨-, rfl⟩ | ⟨-, rfl⟩⟩ | ⟨slot, hslot, -, hreg⟩
  · exact .inl ⟨rfl, rfl, rfl, rfl⟩
  · exact .inl ⟨rfl, SameTables.setPhys k _⟩
  · rcases registerSpawn_tables hreg with ⟨rfl, hs⟩ | ⟨rfl, i, v, task, hr, -⟩
    · exact .inl ⟨rfl, hs.procs, hs.procCount, hs.sched⟩
    · exact .inr ⟨slot, hslot, rfl, i, v, task, hr.procs, hr.used, hr.taskIndex, hr.procCount,
        hr.tasks, hr.taskUsed, hr.processIndex, hr.fresh⟩

/-- A fork registers with the choice of its search, or leaves the tables alone. -/
theorem syscallFork_tables {t : Int} {regs : Nat → U64} {v : U64} (h : syscallFork k t regs = some (v, k')) :
    (v = errU64 ∧ SameTables k k') ∨ ∃ slot, findProcessSlot k.procs k.procCount = some slot ∧
        ∃ i r task, v = ofInt (i : Nat) ∧ Registers k k' slot i r task := by
  rcases syscallFork_cases h with ⟨rfl, rfl, -⟩ | ⟨slot, child, ph, -, hslot, -, hrest⟩
  · exact .inl ⟨rfl, rfl, rfl, rfl⟩
  rcases hrest with ⟨-, rfl, rfl⟩ | ⟨-, ok, mm, -, hrest⟩
  · exact .inl ⟨rfl, SameTables.setPhys k _⟩
  rcases hrest with ⟨-, rfl, rfl⟩ | ⟨-, c, mm', sched, htask, hrest⟩
  · exact .inl ⟨rfl, rfl, rfl, rfl⟩
  rcases hrest with ⟨hneg, rfl, rfl⟩ | ⟨hpos, rfl, rfl⟩
  · obtain rfl := createTaskWithCr3_failed htask hneg
    exact .inl ⟨rfl, rfl, rfl, rfl⟩
  · obtain ⟨i, st, rfl, htasks, hfresh⟩ := createTaskWithCr3_created htask hpos
    let task : Task := { freshTask child st with
      ring3EntryVaddr := forkSnapshot regs 15, processIndex := k.recordIndex slot }
    refine .inr ⟨slot, hslot, i, _, task, rfl, rfl, rfl, rfl, rfl, ?_, rfl, rfl, hfresh⟩
    simp only [wireFork, Kernel.register, Kernel.setTask, Sched.setTask, Kernel.setProc, htasks, update_idem, update_self]
    rfl

/-- A step outside the critical section: if the call ends it has failed, and a choice is the record `scan` has
just found unused, or to append while the table has room. -/
structure Outside (k k' : Kernel) (pc pc' : SpawnPc) : Prop where
  same : SameTables k k'
  failed : ∀ r, pc' = .done r → r = -1
  choice : ∀ slot, pc'.slot? = some slot → pc.slot? = some slot ∨
    (∃ p : Nat, slot = p ∧ p < k.procCount ∧ (k.procs p).used = false) ∨ (slot = -1 ∧ k.procCount < maxProcesses)

variable {pc pc' : SpawnPc}

theorem Outside.keep {ph : Phys} (hd : ∀ r, pc' = .done r → r = -1) (hs : pc'.slot? = pc.slot? ∨ pc'.slot? = none) :
    Outside k (k.setPhys ph) pc pc' := by
  refine ⟨SameTables.setPhys k ph, hd, fun slot hslot => ?_⟩
  rcases hs with hs | hs
  · exact .inl (hs ▸ hslot)
  · rw [hs] at hslot; simp at hslot

/-- **Only the critical section touches the tables.** -/
theorem spawnStep_cases {a : SpawnArgs} {image : Nat → U8} (h : spawnStep a image k pc = some (pc', k')) :
    Outside k k' pc pc' ∨ ∃ slot cr3 i v task, pc = .register slot cr3 ∧ pc' = .done (k.recordIndex slot) ∧
      Registers k k' slot i v task ∧ v.cr3 = cr3 := by
  cases pc with
  | scan p =>
    left
    simp only [spawnStep] at h
    split at h
    · rename_i hp
      split at h
      · rename_i hu
        cases h
        refine ⟨⟨rfl, rfl, rfl⟩, by simp, fun slot hslot => Or.inr (Or.inl ⟨p, ?_, hp, hu⟩)⟩
        exact (Option.some.inj hslot).symm
      · cases h
        exact .keep (by simp) (Or.inr rfl)
    · cases h
      exact .keep (by simp) (Or.inr rfl)
  | limit =>
    left
    simp only [spawnStep] at h
    split at h
    · cases h
      exact .keep (by simp) (Or.inr rfl)
    · rename_i hlt
      cases h
      refine ⟨⟨rfl, rfl, rfl⟩, by simp, fun slot hslot => Or.inr (Or.inr ⟨?_, by omega⟩)⟩
      exact (Option.some.inj hslot).symm
  | register slot cr3 =>
    obtain ⟨⟨r, k1⟩, hreg, heq⟩ := Option.map_eq_some_iff.mp h
    obtain ⟨rfl, rfl⟩ := heq
    rcases registerSpawn_tables hreg with ⟨rfl, hs⟩ | ⟨rfl, i, v, task, hr, hcr3⟩
    · exact .inl ⟨hs, by simp, fun slot' hslot => absurd hslot (by simp [SpawnPc.slot?])⟩
    · exact .inr ⟨slot, cr3, i, v, task, rfl, rfl, hr, hcr3⟩
  | done r => simp [spawnStep] at h
  | _ =>
    left
    simp only [spawnStep] at h
    repeat' split at h
    all_goals
      cases h
      exact .keep (by simp) (by simp [SpawnPc.slot?])

/-! ## Without an interruption -/

/-- One step of a call that nothing interrupts. -/
def SpawnMove (a : SpawnArgs) (image : Nat → U8) (s s' : SpawnPc × Kernel) : Prop :=
  spawnStep a image s.2 s.1 = some s'

section Uninterrupted

open Relation (ReflTransGen)

variable {a : SpawnArgs} {image : Nat → U8}

variable {j : Nat}

theorem spawnMove_scan : ∀ {n p : Nat}, p + n = j → j ≤ k.procCount →
    (∀ q : Nat, q < j → (k.procs q).used = true) →
    ReflTransGen (SpawnMove a image) (.scan p, k) (.scan j, k)
  | 0, p, hj, _, _ => by
    rw [show p = j by omega]
  | n + 1, p, hj, hle, hused => by
    refine .head (b := (.scan (p + 1), k)) ?_
      (spawnMove_scan (n := n) (by omega) hle hused)
    unfold SpawnMove spawnStep
    simp only [if_pos (show p < k.procCount by omega), hused p (by omega), Bool.true_eq_false,
      if_false]

/-- The search of the pieces is `findProcessSlot`. -/
theorem spawnMove_search : ReflTransGen (SpawnMove a image) (.scan 0, k)
    (match findProcessSlot k.procs k.procCount with
      | some slot => .clone slot
      | none => .done (-1), k) := by
  unfold findProcessSlot
  cases hs : scan k.procCount fun p => !(k.procs p).used with
  | some p =>
    obtain ⟨hlt, hp, hl⟩ := scan_eq_some.mp hs
    refine .tail (spawnMove_scan (n := p) (Nat.zero_add p) hlt.le fun q hq => ?_) ?_
    · simpa using hl q hq
    · unfold SpawnMove spawnStep
      simp only [if_pos hlt, show (k.procs p).used = false by simpa using hp, if_true]
  | none =>
    refine .tail (b := (.limit, k)) (.tail (spawnMove_scan (n := k.procCount) (Nat.zero_add _) le_rfl fun q hq => ?_) ?_) ?_
    · simpa using scan_eq_none.mp hs q hq
    · unfold SpawnMove spawnStep
      simp
    · unfold SpawnMove spawnStep
      simp only
      split <;> rfl

theorem spawnMove_copy {frame : U64} : ∀ {bytes : List U8} {i : Nat} {k : Kernel}, (∀ n b, bytes[n]? = some b →
        i + n < 4096 ∧ j * 4096 + (i + n) < a.size ∧ image (j * 4096 + (i + n)) = b) →
      ReflTransGen (SpawnMove a image) (.copy slot cr3 j frame i, k)
        (.copy slot cr3 j frame (i + bytes.length), k.setPhys { k.mm.phys with
          mem := copyBytes (frameNum frame) i bytes k.mm.phys.mem })
  | [], i, k, _ => .refl
  | b :: bs, i, k, h => by
    obtain ⟨h1, h2, h3⟩ := h 0 b rfl
    refine .head (b := (.copy slot cr3 j frame (i + 1), k.setPhys { k.mm.phys with
      mem := storeByte k.mm.phys.mem (frameNum frame) i b })) ?_ ?_
    · unfold SpawnMove spawnStep
      rw [Nat.add_zero] at h1 h2 h3
      simp only [if_pos (And.intro h1 h2), h3]
    · rw [length_cons, show i + (bs.length + 1) = i + 1 + bs.length by omega]
      refine spawnMove_copy fun n c hc => ?_
      have := h (n + 1) c (by simpa using hc)
      rwa [show i + (n + 1) = i + 1 + n by omega] at this

theorem pageBytes_getElem? (bytes : List U8) (j n : Nat) (b : U8) :
    (pageBytes bytes j)[n]? = some b ↔ n < 4096 ∧ bytes[j * 4096 + n]? = some b := by
  unfold pageBytes
  rw [getElem?_take]
  split <;> simp_all [getElem?_drop]

variable {bytes : List U8} (hsize : a.size = bytes.length) (himage : ∀ n b, bytes[n]? = some b → image n = b)
include hsize himage

theorem spawnMove_page {ok : Bool} {ph : Phys} (hj : j < imagePages a.size)
    (h : loadPage cr3 a.loadVaddr j (pageBytes bytes j) k.mm.phys = (ok, ph)) :
    ReflTransGen (SpawnMove a image) (.page slot cr3 j, k)
      (if ok = true then .page slot cr3 (j + 1) else .done (-1), k.setPhys ph) := by
  unfold loadPage at h
  rcases hr : allocFrame k.mm.phys.frames with ⟨frame, fr⟩
  rw [hr] at h
  simp only at h
  split at h
  · rename_i h0
    cases h
    refine .single ?_
    unfold SpawnMove spawnStep
    simp only [if_pos hj, hr, if_pos h0]
    rfl
  rename_i h0
  rcases hm : mapPageIn { k.mm.phys with frames := fr } cr3
    (a.loadVaddr + BitVec.ofNat 64 j * 4096#64) frame 0x06#64 with ⟨mapped, ph1⟩
  rw [hm] at h
  cases mapped with
  | false =>
    cases h
    refine .single ?_
    unfold SpawnMove spawnStep
    simp only [if_pos hj, hr, if_neg h0, hm]
    rfl
  | true =>
    cases h
    -- The page is mapped: one step to enter the byte loop, the loop, one step to leave it.
    have henter : SpawnMove a image (.page slot cr3 j, k) (.copy slot cr3 j frame 0, k.setPhys ph1) := by
      unfold SpawnMove spawnStep
      simp only [if_pos hj, hr, if_neg h0, hm, if_true]
    have hbytes : ∀ n b, (pageBytes bytes j)[n]? = some b →
        0 + n < 4096 ∧ j * 4096 + (0 + n) < a.size ∧ image (j * 4096 + (0 + n)) = b := by
      intro n b hb
      obtain ⟨hn, hb⟩ := (pageBytes_getElem? bytes j n b).mp hb
      rw [Nat.zero_add]
      exact ⟨hn, hsize ▸ (List.getElem?_eq_some_iff.mp hb).1, himage _ b hb⟩
    refine .head henter (.tail (spawnMove_copy hbytes) ?_)
    have hlen : (pageBytes bytes j).length = min 4096 (bytes.length - j * 4096) := by
      simp [pageBytes]
    unfold SpawnMove spawnStep
    simp only
    rw [if_neg (by omega)]
    rfl

theorem spawnMove_load {ok : Bool} {ph : Phys} : ∀ {n j : Nat} {k : Kernel}, j + n = imagePages a.size →
      loopOk (fun j => loadPage cr3 a.loadVaddr j (pageBytes bytes j)) (List.range' j n) k.mm.phys =
        (ok, ph) →
      ReflTransGen (SpawnMove a image) (.page slot cr3 j, k)
        (if ok = true then .stack slot cr3 else .done (-1), k.setPhys ph)
  | 0, j, k, hj, h => by
    cases h
    refine .single ?_
    unfold SpawnMove spawnStep
    simp only [if_neg (show ¬ j < imagePages a.size by omega)]
    rfl
  | n + 1, j, k, hj, h => by
    rw [List.range'_succ] at h
    simp only [loopOk] at h
    rcases hp : loadPage cr3 a.loadVaddr j (pageBytes bytes j) k.mm.phys with ⟨ok1, ph1⟩
    rw [hp] at h
    have hmove : ReflTransGen (SpawnMove a image) (.page slot cr3 j, k) _ :=
      spawnMove_page hsize himage (by omega) hp
    cases ok1 with
    | false =>
      cases h
      exact hmove
    | true =>
      exact hmove.trans (spawnMove_load (k := k.setPhys ph1) (by omega) h)

/-- **Without an interruption the pieces add up to `spawn_process`**: its result and final state
are where they end. -/
theorem spawnRun_spawnProcess (h : spawnProcess k bytes a.loadVaddr a.stackVaddr a.sandboxed = some (r, k')) :
    ReflTransGen (SpawnMove a image) (.scan 0, k) (.done r, k') := by
  refine spawnMove_search.trans ?_
  unfold spawnProcess buildImage at h
  cases hslot : findProcessSlot k.procs k.procCount with
  | none =>
    rw [hslot] at h
    cases h
    exact .refl
  | some slot =>
  simp only [hslot] at h
  rcases hc : cloneAddressSpace k.mm.phys k.mm.gPml4Phys with ⟨cr3, ph⟩
  rw [hc] at h
  by_cases h0 : cr3 = 0#64
  · subst h0
    obtain ⟨rfl, rfl⟩ := h
    refine .single ?_
    unfold SpawnMove spawnStep
    simp only [hc, if_true]
  refine .head (b := (.page slot cr3 0, k.setPhys ph)) ?_ ?_
  · unfold SpawnMove spawnStep
    simp only [hc, if_neg h0]
  simp only [if_neg h0] at h
  rcases hl : loadImage cr3 a.loadVaddr bytes ph with ⟨ok, ph1⟩
  rw [hl] at h
  have hload : ReflTransGen (SpawnMove a image) (.page slot cr3 0, k.setPhys ph) _ :=
    spawnMove_load hsize himage (Nat.zero_add _)
      (by rw [← hl, hsize, ← range_eq_range']; rfl)
  cases ok with
  | false =>
    obtain ⟨rfl, rfl⟩ := h
    exact hload
  | true =>
    refine hload.trans ?_
    rcases hm : mapStack cr3 a.stackVaddr ph1 with ⟨ok2, ph2⟩
    rw [hm] at h
    have hstack : SpawnMove a image (.stack slot cr3, k.setPhys ph1)
        (if ok2 = true then .register slot cr3 else .done (-1), k.setPhys ph2) := by
      unfold SpawnMove spawnStep
      simp only [setPhys_mm, hm]
      cases ok2 <;> rfl
    cases ok2 with
    | false =>
      obtain ⟨rfl, rfl⟩ := h
      exact .single hstack
    | true =>
      simp only [if_true, if_neg h0] at h
      refine .tail (.single hstack) ?_
      unfold SpawnMove spawnStep
      simp only [if_true, h, Option.map_some]

end Uninterrupted

/-- A spawn at boot. -/
theorem spawnRun_spawnProcess_boot : Relation.ReflTransGen (SpawnMove ⟨1, 0x80000000, 0x80020000, false⟩ fun _ => 0x90)
      (.scan 0, bootKernel) (.done 0, spawned bootKernel false) :=
  spawnRun_spawnProcess rfl (by simp [getElem?_singleton]) (spawned_eq (by decide +kernel))

end MinicOs
