import Mathlib.Data.List.Pairwise
import MinicOs.Proc.Preempt

/-!
# Concurrent process creation

The kernel with any number of `spawn_process` calls in flight on preemptible kernel tasks,
interleaved with the spawn, fork and exit syscalls, which run with interrupts off. The search for a
process record and the critical section that takes it are apart, so a record found unused can be
taken by someone else before the call gets there.

Beside the kernel's tables the state keeps the processes created and not yet exited (`live`) and,
for every creation so far, whether the record it took was in use (`created`).
-/

namespace MinicOs

open Function List

/-- A process that was spawned or forked: its record, address space and task, and whether the
record was in use when it was taken. -/
structure Creation where
  index : Int
  cr3 : U64
  task : Int
  wasUsed : Bool
deriving DecidableEq

/-- A `spawn_process` call in flight. -/
structure Flight where
  args : SpawnArgs
  pc : SpawnPc

/-- The kernel, the calls in flight by the kernel task that makes them, and the creations. -/
structure Creators where
  kernel : Kernel
  flights : Nat → Option Flight
  live : List Creation
  created : List Creation

/-- What can happen. `advance` is one step of a call in flight, with what its image pointer reads
at that moment. -/
inductive CreateEvent
  | call (n : Nat) (args : SpawnArgs)
  | advance (n : Nat) (image : Nat → U8)
  | spawn (image : List U8) (loadVaddr stackVaddr : U64) (sandboxed : Bool)
  | fork (t : Int) (regs : Nat → U64)
  | exit (t : Int)

/-- The process that a step from kernel `k` to kernel `k'` registered at index `r`. -/
def creationAt (k k' : Kernel) (r : Int) : Creation :=
  { index := r, cr3 := (k'.procs r).cr3, task := (k'.procs r).taskIndex, wasUsed := (k.procs r).used }

/-- The state after a creation that answered `r`, with the calls that are then in flight. -/
def Creators.record (s : Creators) (k' : Kernel) (r : Int) (fl : Nat → Option Flight) : Creators :=
  if r < 0 then { s with kernel := k', flights := fl }
  else
    { kernel := k', flights := fl, live := creationAt s.kernel k' r :: s.live,
      created := creationAt s.kernel k' r :: s.created }

/-- The index a search made now leads to. -/
def Kernel.searchIndex (k : Kernel) : Int :=
  match findProcessSlot k.procs k.procCount with
  | some slot => k.recordIndex slot
  | none => -1

/-- The effect of an event; `none` if it cannot happen, or when the machine stops. Syscalls are
made by the tasks of processes. -/
def Creators.step (s : Creators) : CreateEvent → Option Creators
  | .call n args =>
    match s.flights n with
    | some _ => none
    | none => some { s with flights := update s.flights n (some ⟨args, .scan 0⟩) }
  | .advance n image =>
    match s.flights n with
    | none => none
    | some f =>
      match spawnStep f.args image s.kernel f.pc with
      | none => none
      | some (.done r, k') => some (s.record k' r (update s.flights n none))
      | some (pc, k') =>
        some { s with kernel := k', flights := update s.flights n (some ⟨f.args, pc⟩) }
  | .spawn image loadVaddr stackVaddr sandboxed =>
    match spawnProcess s.kernel image loadVaddr stackVaddr sandboxed with
    | none => none
    | some (r, k') => some (s.record k' r s.flights)
  | .fork t regs =>
    if s.live.any (fun c => c.task == t) = true then
      match syscallFork s.kernel t regs with
      | none => none
      | some (v, k') =>
        some (s.record k' (if v = errU64 then -1 else s.kernel.searchIndex) s.flights)
    else none
  | .exit t =>
    if s.live.any (fun c => c.task == t) = true then
      some { s with kernel := processExit s.kernel t, live := s.live.filter fun c => c.task != t }
    else none

/-- The choice with which the event registers a process, if it comes to that. -/
def Creators.choice (s : Creators) : CreateEvent → Option Int
  | .advance n _ =>
    match s.flights n with
    | some ⟨_, .register slot _⟩ => some slot
    | _ => none
  | .spawn _ _ _ _ => findProcessSlot s.kernel.procs s.kernel.procCount
  | .fork _ _ => findProcessSlot s.kernel.procs s.kernel.procCount
  | _ => none

/-- The call in flight that the event belongs to. -/
def CreateEvent.flight? : CreateEvent → Option Nat
  | .advance n _ => some n
  | _ => none

/-- No other call in flight has made the choice with which the event registers: the same record,
or to append one. -/
def Creators.Undisputed (s : Creators) (ev : CreateEvent) : Prop :=
  ∀ slot, s.choice ev = some slot → ∀ m f, ev.flight? ≠ some m → s.flights m = some f →
    f.pc.slot? ≠ some slot

def Creators.Step (s s' : Creators) : Prop := ∃ ev, s.step ev = some s'

/-- A step that meets the condition. -/
def Creators.UndisputedStep (s s' : Creators) : Prop := ∃ ev, s.Undisputed ev ∧ s.step ev = some s'

/-- Nobody shares a record: every record was unused when it was taken; a used record is the one of
exactly one live process, and holds its `cr3` and task; the tasks of different live processes
belong to different records; and the table has not overflowed. -/
structure Creators.Separate (s : Creators) : Prop where
  claimed : ∀ c ∈ s.created, c.wasUsed = false
  owner : ∀ p, (s.kernel.procs p).used = true → ∃! c, c ∈ s.live ∧ c.index = p ∧
    c.cr3 = (s.kernel.procs p).cr3 ∧ c.task = (s.kernel.procs p).taskIndex
  own : ∀ c ∈ s.live, (s.kernel.procs c.index).used = true ∧
    (s.kernel.procs c.index).cr3 = c.cr3 ∧ (s.kernel.procs c.index).taskIndex = c.task
  tasks : s.live.Pairwise fun c c' =>
    (s.kernel.sched.tasks c.task).processIndex ≠ (s.kernel.sched.tasks c'.task).processIndex
  count : s.kernel.procCount ≤ maxProcesses

/-! ## The invariant -/

/-- The choice can still be registered: an unused record of the table, or room to append one. -/
def Available (k : Kernel) (slot : Int) : Prop :=
  (0 ≤ slot ∧ slot < k.procCount ∧ (k.procs slot).used = false) ∨
    (slot = -1 ∧ k.procCount < maxProcesses)

/-- What every undisputed step keeps. -/
structure Creators.Inv (s : Creators) : Prop where
  claimed : ∀ c ∈ s.created, c.wasUsed = false
  own : ∀ c ∈ s.live, (s.kernel.procs c.index).used = true ∧
    (s.kernel.procs c.index).cr3 = c.cr3 ∧ (s.kernel.procs c.index).taskIndex = c.task
  indices : s.live.Pairwise fun c c' => c.index ≠ c'.index
  backed : ∀ p, (s.kernel.procs p).used = true → ∃ c ∈ s.live, c.index = p
  linked : ∀ c ∈ s.live, (s.kernel.sched.tasks c.task).used = true ∧
    (s.kernel.sched.tasks c.task).processIndex = c.index
  taskRange : ∀ t, (s.kernel.sched.tasks t).used = true → 0 ≤ t ∧ t < s.kernel.sched.taskCount
  taskCount : s.kernel.sched.taskCount ≤ maxTasks
  range : ∀ p, (s.kernel.procs p).used = true → 0 ≤ p ∧ p < s.kernel.procCount
  count : s.kernel.procCount ≤ maxProcesses
  choices : ∀ n f slot, s.flights n = some f → f.pc.slot? = some slot → Available s.kernel slot

variable {s : Creators}

theorem Creators.Inv.index_inj (hi : s.Inv) {c c' : Creation} (hc : c ∈ s.live) (hc' : c' ∈ s.live)
    (h : c.index = c'.index) : c = c' := by
  have : Std.Symm fun c c' : Creation => c.index ≠ c'.index := ⟨fun _ _ h => h.symm⟩
  by_contra hne
  exact hi.indices.forall hc hc' hne h

theorem Creators.Inv.separate (hi : s.Inv) : s.Separate := by
  refine ⟨hi.claimed, fun p hp => ?_, hi.own, ?_, hi.count⟩
  · obtain ⟨c, hc, rfl⟩ := hi.backed p hp
    obtain ⟨-, hcr3, htask⟩ := hi.own c hc
    exact ⟨c, ⟨hc, rfl, hcr3.symm, htask.symm⟩, fun c' hc' => hi.index_inj hc'.1 hc hc'.2.1⟩
  · refine hi.indices.imp_of_mem fun {c c'} hc hc' hne h => hne ?_
    rw [← (hi.linked c hc).2, ← (hi.linked c' hc').2, h]

variable {k : Kernel} {slot : Int}

theorem available_search (h : findProcessSlot k.procs k.procCount = some slot) : Available k slot := by
  unfold findProcessSlot at h
  cases hs : scan k.procCount fun p => !(k.procs p).used with
  | some p =>
    rw [hs] at h
    cases h
    obtain ⟨hlt, hp, -⟩ := scan_eq_some.mp hs
    exact .inl ⟨by omega, by omega, by simpa using hp⟩
  | none =>
    rw [hs] at h
    simp only at h
    split at h
    · simp at h
    · exact .inr ⟨(Option.some.inj h).symm, by omega⟩

variable {k' : Kernel}

/-- A step that leaves the tables alone and whose new choices are available. -/
theorem Creators.Inv.same (hi : s.Inv) (hk : SameTables s.kernel k') {fl : Nat → Option Flight}
    (hfl : ∀ n f slot, fl n = some f → f.pc.slot? = some slot → Available s.kernel slot) :
    Creators.Inv { s with kernel := k', flights := fl } := by
  obtain ⟨hp, hc, hs⟩ := hk
  refine ⟨hi.claimed, ?_, hi.indices, ?_, ?_, ?_, ?_, ?_, ?_, fun n f slot hf hslot => ?_⟩
  · simpa only [hp] using hi.own
  · simpa only [hp] using hi.backed
  · simpa only [hs] using hi.linked
  · simpa only [hs] using hi.taskRange
  · simpa only [hs] using hi.taskCount
  · simpa only [hp, hc] using hi.range
  · simpa only [hc] using hi.count
  · unfold Available
    rw [hp, hc]
    exact hfl n f slot hf hslot

theorem recordIndex_available (ha : Available k slot) :
    (slot < 0 → k.recordIndex slot = k.procCount) ∧ (0 ≤ slot → k.recordIndex slot = slot) ∧
      k.recordIndex slot ≤ k.procCount := by
  unfold Kernel.recordIndex
  rcases ha with ⟨h1, h2, -⟩ | ⟨h1, -⟩
  · rw [if_neg (by omega)]
    omega
  · rw [if_pos (by omega)]
    omega

theorem Creators.Inv.unused (hi : s.Inv) (ha : Available s.kernel slot) :
    (s.kernel.procs (s.kernel.recordIndex slot)).used = false := by
  obtain ⟨hneg, hpos, -⟩ := recordIndex_available ha
  rcases ha with ⟨h1, -, h3⟩ | ⟨h1, -⟩
  · rw [hpos h1]; exact h3
  · rw [hneg (by omega)]
    by_contra hu
    have := hi.range _ (by simpa using hu)
    omega

variable {i : Nat} {task : Task} {v : Process}

/-- The task a registration takes was not in use. -/
theorem Registers.task_unused (hi : s.Inv) (hr : Registers s.kernel k' slot i v task) :
    (s.kernel.sched.tasks i).used = false := by
  rcases hr.fresh with ⟨-, h, -⟩ | ⟨rfl, -, -⟩
  · exact h
  · by_contra hu
    have := hi.taskRange _ (by simpa using hu)
    omega

/-- Another available choice stays available when a process is registered. -/
theorem Available.registers {slot' : Int} (hr : Registers k k' slot i v task) (ha : Available k slot)
    (ha' : Available k slot') (hne : slot' ≠ slot) : Available k' slot' := by
  obtain ⟨hneg, hpos, -⟩ := recordIndex_available ha
  have hc := hr.procCount
  rcases ha' with ⟨h1, h2, h3⟩ | ⟨rfl, h2⟩
  · left
    have hrec : slot' ≠ k.recordIndex slot := by
      rcases ha with ⟨h, -, -⟩ | ⟨h, -⟩
      · rw [hpos h]; exact hne
      · rw [hneg (by omega)]; omega
    refine ⟨h1, ?_, ?_⟩
    · split at hc <;> omega
    · rw [hr.procs, update_of_ne hrec]
      exact h3
  · right
    rcases ha with ⟨h, -, -⟩ | ⟨h, -⟩
    · rw [if_neg (by omega)] at hc
      exact ⟨rfl, by omega⟩
    · exact absurd h.symm hne

/-- **A registration whose choice is available and undisputed** keeps the invariant. -/
theorem Creators.Inv.registers (hi : s.Inv) (hr : Registers s.kernel k' slot i v task) (ha : Available s.kernel slot)
    {fl : Nat → Option Flight} (hfl : ∀ n f, fl n = some f → s.flights n = some f ∧ f.pc.slot? ≠ some slot) :
    (s.record k' (s.kernel.recordIndex slot) fl).Inv := by
  have h0 := recordIndex_nonneg s.kernel slot
  have hfree := hi.unused ha
  have htask := hr.task_unused hi
  obtain ⟨hneg, hpos, hle⟩ := recordIndex_available ha
  generalize hp : s.kernel.recordIndex slot = p at h0 hfree hle
  have hprocs : k'.procs = update s.kernel.procs p v := hp ▸ hr.procs
  have hself : creationAt s.kernel k' p = ⟨p, v.cr3, i, false⟩ := by
    unfold creationAt
    rw [hprocs, update_self, hr.taskIndex, hfree]
  have hold : ∀ c ∈ s.live, c.index ≠ p ∧ c.task ≠ i := by
    intro c hc
    refine ⟨fun h => ?_, fun h => ?_⟩
    · rw [← h, (hi.own c hc).1] at hfree; exact Bool.noConfusion hfree
    · rw [← h, (hi.linked c hc).1] at htask; exact Bool.noConfusion htask
  unfold Creators.record
  rw [if_neg (by omega), hself]
  have hcount := hr.procCount
  refine ⟨?_, ?_, ?_, ?_, ?_, ?_, ?_, ?_, ?_, ?_⟩
  · exact forall_mem_cons.mpr ⟨rfl, hi.claimed⟩
  · refine forall_mem_cons.mpr ⟨?_, fun c hc => ?_⟩
    · simp only [hprocs, update_self, true_and]
      exact ⟨hr.used, hr.taskIndex⟩
    · simp only [hprocs, update_of_ne (hold c hc).1]
      exact hi.own c hc
  · exact pairwise_cons.mpr ⟨fun c hc => (hold c hc).1.symm, hi.indices⟩
  · intro q hq
    simp only [hprocs] at hq
    by_cases hqp : q = p
    · exact ⟨_, mem_cons_self, hqp.symm⟩
    · rw [update_of_ne hqp] at hq
      obtain ⟨c, hc, hcq⟩ := hi.backed q hq
      exact ⟨c, mem_cons_of_mem _ hc, hcq⟩
  · refine forall_mem_cons.mpr ⟨?_, fun c hc => ?_⟩
    · simp only [hr.tasks, update_self]
      exact ⟨hr.taskUsed, hr.processIndex.trans hp⟩
    · simp only [hr.tasks, update_of_ne (hold c hc).2]
      exact hi.linked c hc
  · intro t ht
    simp only [hr.tasks] at ht
    by_cases hti : t = i
    · subst hti
      rcases hr.fresh with ⟨h1, -, h3⟩ | ⟨h1, -, h3⟩ <;> simp only [h3] <;> omega
    · rw [update_of_ne hti] at ht
      have := hi.taskRange t ht
      rcases hr.fresh with ⟨-, -, h3⟩ | ⟨-, -, h3⟩ <;> simp only [h3] <;> omega
  · have := hi.taskCount
    rcases hr.fresh with ⟨-, -, h3⟩ | ⟨-, h2, h3⟩ <;> simp only [h3] <;> omega
  · intro q hq
    simp only [hprocs] at hq
    simp only [hcount]
    by_cases hqp : q = p
    · rcases ha with ⟨h1, h2, -⟩ | ⟨h1, -⟩
      · rw [if_neg (by omega)]
        omega
      · rw [if_pos (by omega)]
        omega
    · rw [update_of_ne hqp] at hq
      have := hi.range q hq
      split <;> omega
  · have := hi.count
    simp only [hcount]
    rcases ha with ⟨h1, -, -⟩ | ⟨h1, h2⟩
    · rw [if_neg (by omega)]; exact this
    · rw [if_pos (by omega)]; omega
  · intro n f slot' hf hslot
    obtain ⟨hf', hne⟩ := hfl n f hf
    exact (Available.registers hr ha (hi.choices n f slot' hf' hslot) fun h => hne (h ▸ hslot))

/-- **An exit** frees the record and the task of its own process only. -/
theorem Creators.Inv.exit (hi : s.Inv) {t : Int} (ht : s.live.any (fun c => c.task == t) = true) : Creators.Inv { s with
      kernel := processExit s.kernel t, live := s.live.filter fun c => c.task != t } := by
  obtain ⟨c, hc, hct⟩ := any_eq_true.mp ht
  obtain rfl : c.task = t := by simpa using hct
  have hp : s.kernel.processOf c.task = c.index := (hi.linked c hc).2
  have h0 : 0 ≤ s.kernel.processOf c.task := hp ▸ (hi.range _ (hi.own c hc).1).1
  obtain ⟨hprocs, hcount, hsched⟩ := processExit_tables h0
  rw [hp] at hprocs
  have hother : ∀ d ∈ s.live, d.task ≠ c.task → d.index ≠ c.index := fun d hd hne h =>
    hne (hi.index_inj hd hc h ▸ rfl)
  have hused : ∀ q, ((processExit s.kernel c.task).procs q).used = true →
      q ≠ c.index ∧ (s.kernel.procs q).used = true := by
    intro q hq
    rw [hprocs, update_apply] at hq
    split at hq
    · simp at hq
    · exact ⟨‹_›, hq⟩
  refine ⟨hi.claimed, fun d hd => ?_, hi.indices.filter _, fun q hq => ?_, fun d hd => ?_,
    fun u hu => ?_, ?_, fun q hq => ?_, ?_, fun n f slot hf hslot => ?_⟩
  · obtain ⟨hd, hne⟩ := mem_filter.mp hd
    simp only [hprocs, update_of_ne (hother d hd (by simpa using hne))]
    exact hi.own d hd
  · obtain ⟨hne, hq⟩ := hused q hq
    obtain ⟨d, hd, rfl⟩ := hi.backed q hq
    refine ⟨d, mem_filter.mpr ⟨hd, ?_⟩, rfl⟩
    have : d.task ≠ c.task := fun h => hne (by rw [← (hi.linked d hd).2, h, (hi.linked c hc).2])
    simpa using this
  · obtain ⟨hd, hne⟩ := mem_filter.mp hd
    have hne : d.task ≠ c.task := by simpa using hne
    simp only [hsched, Sched.setTask, update_of_ne hne]
    exact hi.linked d hd
  · simp only [hsched, Sched.setTask, update_apply] at hu ⊢
    split at hu
    · simp at hu
    · exact hi.taskRange u hu
  · simpa only [hsched, Sched.setTask] using hi.taskCount
  · simp only [hcount]
    exact hi.range q (hused q hq).2
  · simpa only [hcount] using hi.count
  · rcases hi.choices n f slot hf hslot with ⟨h1, h2, h3⟩ | h
    · refine .inl ⟨h1, by simpa only [hcount] using h2, ?_⟩
      by_contra hu
      rw [(hused slot (by simpa using hu)).2] at h3
      exact Bool.noConfusion h3
    · exact .inr (by simpa only [hcount] using h)

/-- **One undisputed step** keeps the invariant. -/
theorem Creators.Inv.step {s s' : Creators} (hi : s.Inv) (hs : s.UndisputedStep s') : s'.Inv := by
  obtain ⟨ev, hund, h⟩ := hs
  cases ev with
  | call n args =>
    simp only [Creators.step] at h
    split at h
    · simp at h
    · cases h
      refine hi.same ⟨rfl, rfl, rfl⟩ fun m f slot hf hslot => ?_
      by_cases hm : m = n
      · subst hm
        obtain rfl : (⟨args, .scan 0⟩ : Flight) = f := by simpa using hf
        simp [SpawnPc.slot?] at hslot
      · rw [update_of_ne hm] at hf
        exact hi.choices m f slot hf hslot
  | advance n image =>
    simp only [Creators.step] at h
    split at h
    · simp at h
    rename_i f hf
    have hrest : ∀ m g, update s.flights n none m = some g → m ≠ n ∧ s.flights m = some g := by
      intro m g hg
      by_cases hm : m = n
      · subst hm; simp at hg
      · rw [update_of_ne hm] at hg; exact ⟨hm, hg⟩
    split at h
    · simp at h
    · -- The call returns.
      rename_i r k' hstep
      cases h
      rcases spawnStep_cases hstep with ⟨hk, hr, -⟩ | ⟨slot, cr3, i, v, task, hpc, hdone, hreg, -⟩
      · obtain rfl := hr r rfl
        refine hi.same hk fun m g slot hg hslot => ?_
        exact hi.choices m g slot (hrest m g hg).2 hslot
      · obtain rfl : r = s.kernel.recordIndex slot := by simpa using hdone
        refine hi.registers hreg (hi.choices n f slot hf (by rw [hpc]; rfl)) fun m g hg => ?_
        obtain ⟨hm, hg⟩ := hrest m g hg
        refine ⟨hg, hund slot ?_ m g (fun h => hm (Option.some.inj h).symm) hg⟩
        obtain ⟨args, pc⟩ := f
        obtain rfl := hpc
        simp only [Creators.choice, hf]
    · -- The call goes on, and may have made its choice.
      rename_i pc k' hnd hstep
      cases h
      rcases spawnStep_cases hstep with ⟨hk, -, hchoice⟩ | ⟨slot, cr3, i, v, task, -, hdone, -, -⟩
      · refine hi.same hk fun m g slot hg hslot => ?_
        by_cases hm : m = n
        · subst hm
          obtain rfl : (⟨f.args, pc⟩ : Flight) = g := by simpa using hg
          rcases hchoice slot hslot with h | ⟨p, rfl, h1, h2⟩ | ⟨h1, h2⟩
          · exact hi.choices m f slot hf h
          · exact .inl ⟨by omega, by omega, h2⟩
          · exact .inr ⟨h1, h2⟩
        · rw [update_of_ne hm] at hg
          exact hi.choices m g slot hg hslot
      · exact absurd hdone (hnd _)
  | spawn image loadVaddr stackVaddr sandboxed =>
    simp only [Creators.step] at h
    split at h
    · simp at h
    rename_i r k' hspawn
    cases h
    rcases spawnProcess_tables hspawn with ⟨rfl, hk⟩ | ⟨slot, hslot, rfl, i, v, task, hreg⟩
    · exact hi.same hk hi.choices
    · exact hi.registers hreg (available_search hslot) fun m g hg =>
        ⟨hg, hund slot hslot m g (by simp [CreateEvent.flight?]) hg⟩
  | fork t regs =>
    simp only [Creators.step] at h
    split at h
    swap
    · simp at h
    split at h
    · simp at h
    rename_i v k' hfork
    cases h
    rcases syscallFork_tables hfork with ⟨rfl, hk⟩ | ⟨slot, hslot, i, r, task, rfl, hreg⟩
    · rw [if_pos rfl]
      exact hi.same hk hi.choices
    · have hne : ofInt (i : Nat) ≠ errU64 := by
        have hlt : i < maxTasks := by
          have := hi.taskCount
          rcases hreg.fresh with ⟨h1, -, -⟩ | ⟨h1, h2, -⟩ <;> omega
        have : ∀ i < maxTasks, BitVec.ofInt 64 ((i : Nat) : Int) ≠ 0xFFFFFFFFFFFFFFFF#64 := by decide
        exact this i hlt
      have hindex : s.kernel.searchIndex = s.kernel.recordIndex slot := by
        unfold Kernel.searchIndex
        rw [hslot]
      rw [if_neg hne, hindex]
      exact hi.registers hreg (available_search hslot) fun m g hg =>
        ⟨hg, hund slot hslot m g (by simp [CreateEvent.flight?]) hg⟩
  | exit t =>
    simp only [Creators.step] at h
    split at h
    · cases h
      exact hi.exit ‹_›
    · simp at h

/-- At boot nothing has been created. -/
def Creators.boot (k : Kernel) : Creators :=
  { kernel := k, flights := fun _ => none, live := [], created := [] }

theorem Creators.boot_inv (h : Boot k) : (Creators.boot k).Inv := by
  refine ⟨by simp [boot], by simp [boot], List.Pairwise.nil, fun p hp => ?_, by simp [boot],
    fun t ht => (h.tasks t).mp ht, h.taskCount, fun p hp => ?_, ?_, by simp [boot]⟩
  · simp [boot, h.procs p] at hp
  · simp [boot, h.procs p] at hp
  · show k.procCount ≤ maxProcesses
    rw [h.procCount]
    exact Nat.zero_le _

/-- **In every interleaving of undisputed creations and exits nobody shares a process record.** -/
theorem creation_run {k : Kernel} (h : Boot k) {s : Creators}
    (hrun : Relation.ReflTransGen Creators.UndisputedStep (Creators.boot k) s) : s.Separate :=
  (run_inv (fun _ _ hi hs => Creators.Inv.step hi hs) hrun (Creators.boot_inv h)).separate

/-- The arguments of a spawn of an empty image at the addresses of `kmain`'s test program. -/
def emptyArgs : SpawnArgs :=
  { size := 0, loadVaddr := 0x80000000, stackVaddr := 0x80020000, sandboxed := false }

/-- `n` steps of call `i`. -/
def advances (i n : Nat) : List CreateEvent := List.replicate n (.advance i fun _ => 0)

theorem Creators.record_flights (s : Creators) (k' : Kernel) (r : Int) (fl : Nat → Option Flight) :
    (s.record k' r fl).flights = fl := by
  unfold Creators.record
  split <;> rfl

/-- An event leaves the other calls in flight as they are. -/
theorem Creators.step_flights {s s' : Creators} {ev : CreateEvent} (h : s.step ev = some s') (m : Nat) :
    s'.flights m = s.flights m ∨ ev.flight? = some m ∨ ∃ args, ev = .call m args := by
  cases ev with
  | call n args =>
    by_cases hm : m = n
    · exact .inr (Or.inr ⟨args, by rw [hm]⟩)
    simp only [Creators.step] at h
    split at h
    · cases h
    · cases h
      exact .inl (update_of_ne hm _ _)
  | advance n image =>
    by_cases hm : m = n
    · exact .inr (Or.inl (by rw [hm]; rfl))
    simp only [Creators.step] at h
    split at h
    · cases h
    split at h
    · cases h
    · cases h
      rw [Creators.record_flights]
      exact .inl (update_of_ne hm _ _)
    · cases h
      exact .inl (update_of_ne hm _ _)
  | spawn | fork | exit =>
    simp only [Creators.step] at h
    repeat' split at h
    all_goals cases h
    all_goals exact .inl (by first | rw [Creators.record_flights] | rfl)

/-- With one call in flight an event is undisputed if it is a step of that call, or if the call has made no
choice. -/
theorem Creators.undisputed_of_one {s : Creators} {ev : CreateEvent} (hone : ∀ m ≠ 0, s.flights m = none)
    (h : ev.flight? = some 0 ∨ (s.flights 0).bind (·.pc.slot?) = none) : s.Undisputed ev := by
  intro slot _ m f hm hf
  by_cases h0 : m = 0
  · subst h0
    rw [hf] at h
    rw [show f.pc.slot? = none from h.resolve_left hm]
    simp
  · simp [hone m h0] at hf

/-- A process is spawned while a call is in flight, which then goes on to its end. -/
def overlappingSpawns : List CreateEvent :=
  [.call 0 emptyArgs, .spawn [] 0x80000000 0x80020000 false] ++ advances 0 7

set_option maxRecDepth 100000 in
theorem creation_run_overlapping : ∃ s, Relation.ReflTransGen Creators.UndisputedStep (Creators.boot bootKernel) s ∧
    s.live.map Creation.index = [1, 0] ∧ s.Separate := by
  have hlive : (runList (fun s ev => if ev.flight? = some 0 ∨ (s.flights 0).bind (·.pc.slot?) = none then s.step ev
      else none) overlappingSpawns (Creators.boot bootKernel)).map (fun s => s.live.map Creation.index) =
      some [1, 0] := by decide +kernel
  obtain ⟨s, hs, hl⟩ := Option.map_eq_some_iff.mp hlive
  have hrun : Relation.ReflTransGen Creators.UndisputedStep (Creators.boot bootKernel) s := by
    have hsteps := runList_run (R := fun s s' => ∃ ev ∈ overlappingSpawns,
      (ev.flight? = some 0 ∨ (s.flights 0).bind (·.pc.slot?) = none) ∧ s.step ev = some s')
      (fun s s' ev hm h => ⟨ev, hm, Option.ite_none_right_eq_some.mp h⟩) hs
    refine (run_inv (P := fun s => (∀ m ≠ 0, s.flights m = none) ∧
      Relation.ReflTransGen Creators.UndisputedStep (Creators.boot bootKernel) s)
      (fun s s' ⟨hone, hr⟩ ⟨ev, hm, hcond, hstep⟩ => ⟨fun m h0 => ?_,
        hr.tail ⟨ev, Creators.undisputed_of_one hone hcond, hstep⟩⟩) hsteps ⟨fun _ _ => rfl, .refl⟩).2
    simp only [overlappingSpawns, advances, cons_append, nil_append, mem_cons, mem_replicate] at hm
    obtain heq | hother := Creators.step_flights hstep m
    · rw [heq, hone m h0]
    · obtain rfl | rfl | ⟨-, rfl⟩ := hm <;> simp [CreateEvent.flight?, eq_comm, h0] at hother
  exact ⟨s, hrun, hl, creation_run bootKernel_boot hrun⟩

/-- A process is spawned and exits; then two calls start, and both search before either
registers. -/
def collidingSpawns : List CreateEvent :=
  [.spawn [] 0x80000000 0x80020000 false, .exit 1, .call 0 emptyArgs, .call 1 emptyArgs] ++
    advances 0 1 ++ advances 1 1 ++ advances 0 4 ++ advances 1 4

/-- Two live processes with different tasks have the same record, and it was in use when the second
one took it. -/
def Creators.collision (s : Creators) : Bool :=
  s.live.map (fun c => (c.index, c.task, c.wasUsed)) == [(0, 2, true), (0, 1, false)] &&
    (s.kernel.sched.tasks 1).processIndex == 0 && (s.kernel.sched.tasks 2).processIndex == 0 &&
    (s.kernel.procs 0).taskIndex == 2

set_option maxRecDepth 100000 in
theorem collidingSpawns_collision :
    (runList Creators.step collidingSpawns (Creators.boot bootKernel)).map Creators.collision = some true := by
  decide +kernel

/-- **Two interrupted spawns take the same record**: the second one overwrites the `cr3` and the
task of the first, whose task goes on under the second one's record. -/
theorem creation_collides : Boot bootKernel ∧ ∃ s,
    Relation.ReflTransGen Creators.Step (Creators.boot bootKernel) s ∧ s.collision = true ∧ ¬ s.Separate := by
  obtain ⟨s, hs, hc⟩ := Option.map_eq_some_iff.mp collidingSpawns_collision
  refine ⟨bootKernel_boot, s, runList_run (fun _ _ ev _ h => ⟨ev, h⟩) hs, hc, fun h => ?_⟩
  unfold Creators.collision at hc
  simp only [Bool.and_eq_true, beq_iff_eq] at hc
  obtain ⟨⟨⟨hlive, htask1⟩, htask2⟩, -⟩ := hc
  -- The tasks of the two live processes belong to the same record.
  have hpair : (s.live.map Creation.task).Pairwise fun t t' =>
      (s.kernel.sched.tasks t).processIndex ≠ (s.kernel.sched.tasks t').processIndex :=
    pairwise_map.mpr h.tasks
  have htasks : s.live.map Creation.task = [2, 1] := by
    have := congrArg (List.map fun c : Int × Int × Bool => c.2.1) hlive
    simpa [comp_def] using this
  rw [htasks] at hpair
  simp [htask1, htask2] at hpair

end MinicOs
