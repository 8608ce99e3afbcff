import MinicOs.Ipc.Pipe
import MinicOs.Proc.Spaces

/-!
# What the kernel writes for a process

A handler that reads stores its result straight through the caller's pointer. `boot.s` sets only the
paging bit of CR0, so ring 0 is not bound by the writable bit: a present page is written, shared
copy-on-write or not, and the repair of `interrupt_handler` is never entered.
-/

namespace MinicOs

open Function Relation Option Finset

/-! ## Stores -/

/-- What a page needs at every level for ring 0 with CR0.WP clear: to be present. -/
def kernelAccess : U64 := 0x01#64

/-- What a store of ring 3 needs at every level: present, writable and user. -/
def userWrites : U64 := 0x07#64

/-- A byte stored where the walk of the CPU leads, `none` for a fault. -/
def storeAt (need : U64) (m : Mm) (cr3 v : U64) (b : U8) : Option Mm :=
  (cpuTranslate need m.phys.mem cr3 v).map fun l =>
    { m with phys := { m.phys with mem := storeByte m.phys.mem l.1 l.2 b } }

/-- A store of ring 3: after a fault that `interrupt_handler` repairs it is tried again. -/
def userStore (m : Mm) (cr3 v : U64) (b : U8) : Option Mm :=
  (storeAt userWrites m cr3 v b).or ((repairWriteFault m cr3 v).bind fun m => storeAt userWrites m cr3 v b)

/-- The loop of a handler, `dst[i] = src[i]`, in the address space of its caller. -/
def copyOut (cr3 : U64) : List U8 → U64 → Mm → Option Mm
  | [], _, m => some m
  | b :: bs, v, m => (storeAt kernelAccess m cr3 v b).bind (copyOut cr3 bs (v + 1#64))

/-! ## The handlers that read -/

/-- `channel`; nothing reads its `used`. -/
structure Channel where
  full : Bool
  msgLen : Nat
  msgData : Nat → U8

def channelTakeMsg (m : Mm) (cr3 : U64) (c : Channel) (buf : U64) (maxLen : Nat) : Option (Nat × Channel × Mm) :=
  (copyOut cr3 (bufBytes c.msgData (min c.msgLen maxLen)) buf m).map fun m => (c.msgLen, { c with full := false }, m)

/-- `pipe_read` with the pointer it stores through. -/
def pipeRead (m : Mm) (cr3 : U64) (p : PipeBuffer) (out : U64) (maxLen : Nat) : Option (Nat × PipeBuffer × Mm) :=
  let r := p.read maxLen
  (copyOut cr3 r.1 out m).map fun m => (r.1.length, r.2, m)

/-- `vfs_read` into the caller's buffer. -/
def vfsReadInto (m : Mm) (cr3 : U64) (r : FileRead) (buf : U64) : Option (Int × Mm) :=
  (copyOut cr3 r.bytes buf m).map fun m => (r.count, m)

/-- A syscall that reads a channel, a pipe or a file through the caller's pointer. -/
inductive ReadCall
  | channel (c : Channel) (buf : U64) (maxLen : Nat)
  | pipe (p : PipeBuffer) (out : U64) (maxLen : Nat)
  | file (r : FileRead) (buf : U64)

namespace ReadCall

/-- The memory it leaves. -/
def exec (m : Mm) (cr3 : U64) : ReadCall → Option Mm
  | .channel c buf maxLen => (channelTakeMsg m cr3 c buf maxLen).map fun r => r.2.2
  | .pipe p out maxLen => (pipeRead m cr3 p out maxLen).map fun r => r.2.2
  | .file r buf => (vfsReadInto m cr3 r buf).map Prod.snd

/-- The caller's pointer. -/
def buf : ReadCall → U64
  | .channel _ buf _ | .pipe _ buf _ | .file _ buf => buf

/-- What is stored there. -/
def bytes : ReadCall → List U8
  | .channel c _ maxLen => bufBytes c.msgData (min c.msgLen maxLen)
  | .pipe p _ maxLen => (p.read maxLen).1
  | .file r _ => r.bytes

/-- The caller could store there itself: the bytes lie in its private region, and its own leaves have the pages
writable. -/
def Writable (call : ReadCall) (m : Mem) (cr3 : U64) : Prop :=
  ∀ i < call.bytes.length, Private (call.buf + BitVec.ofNat 64 i) ∧
    (cpuTranslate userWrites m cr3 (call.buf + BitVec.ofNat 64 i)).isSome = true

instance (call : ReadCall) (m : Mem) (cr3 : U64) : Decidable (call.Writable m cr3) :=
  inferInstanceAs (Decidable (∀ i < call.bytes.length, _ ∧ _))

theorem exec_eq (m : Mm) (cr3 : U64) (call : ReadCall) : call.exec m cr3 = copyOut cr3 call.bytes call.buf m := by
  cases call <;> simp [exec, bytes, buf, channelTakeMsg, pipeRead, vfsReadInto, Function.comp_def]

end ReadCall

/-! ## What a store does -/

section Store

variable {own : Nat → Owner} {R : Finset Nat} {g r : Nat} {m m' : Mm} {v : U64} {need : U64} {b : U8}

/-- The bits that stores need are among the lowest three. -/
def StoreBits (need : U64) : Prop := need.getLsbD 0 = true ∧ ∀ i, need.getLsbD i = true → i < 3

theorem getLsbD_kernelAccess (i : Nat) : kernelAccess.getLsbD i = decide (i < 1) := @getLsbD_lowMask 1 (by decide) i

theorem kernelAccess_bits : StoreBits kernelAccess := by
  refine ⟨by decide, fun i hi => ?_⟩
  rw [getLsbD_kernelAccess, decide_eq_true_eq] at hi
  omega

theorem userWrites_bits : StoreBits userWrites :=
  ⟨by decide, fun i hi => of_decide_eq_true (@getLsbD_lowMask 3 (by decide) i ▸ hi)⟩

section

variable (h : Spaces own R g m) (hr : r ∈ R) (hv : Private v)
include h hr hv

/-- Where the CPU lets ring 3 write, the page is mapped writable. -/
theorem Spaces.writable (hw : (cpuTranslate userWrites m.phys.mem (frameAddr r) v).isSome = true) :
    ∃ f, mapping R m.phys.mem (r, pageOf v hv) = some (f, true) := by
  rw [(h.trees.tree r hr).cpuTranslate_private h.trees.owned userWrites_bits.2 userWrites_bits.1 hv] at hw
  cases he : leafAt m.phys.mem r (pageOf v hv) with
  | none => simp [he] at hw
  | some e =>
    rw [he, bind_some] at hw
    refine ⟨leafFrame e, mapping_eq_some.mpr ⟨hr, e, he, rfl, ?_⟩⟩
    by_cases hall : allows userWrites e = true
    · rw [writableBit_eq]
      exact (allows_iff _ _).mp hall 1 (by decide)
    · rw [if_neg hall] at hw
      cases hw

/-- Ring 0 stores wherever a page is mapped. -/
theorem Spaces.stores (hm : mapping R m.phys.mem (r, pageOf v hv) ≠ none) (b : U8) :
    ∃ m', storeAt kernelAccess m (frameAddr r) v b = some m' := by
  obtain ⟨⟨f, w⟩, hx⟩ := ne_none_iff_exists'.mp hm
  obtain ⟨-, e, he, -⟩ := mapping_eq_some.mp hx
  have hp : present e = true := by
    obtain ⟨t, -, ht⟩ := bind_eq_some_iff.mp he
    grind
  have hall : allows kernelAccess e = true := (allows_iff _ _).mpr fun i hi => by
    rw [getLsbD_kernelAccess, decide_eq_true_eq] at hi
    rw [show i = 0 by omega, ← present_eq, hp]
  unfold storeAt
  rw [(h.trees.tree r hr).cpuTranslate_private h.trees.owned kernelAccess_bits.2 kernelAccess_bits.1 hv, he,
    bind_some, if_pos hall]
  exact ⟨_, rfl⟩

/-- A store that does not fault goes to the frame of the caller's page. -/
theorem Spaces.store (hneed : StoreBits need) (hs : storeAt need m (frameAddr r) v b = some m') :
    ∃ f w, mapping R m.phys.mem (r, pageOf v hv) = some (f, w) ∧
      m'.phys.mem = storeByte m.phys.mem f (v.toNat % 4096) b ∧ Spaces own R g m' ∧
        mapping R m'.phys.mem = mapping R m.phys.mem := by
  obtain ⟨l, hl, rfl⟩ := map_eq_some_iff.mp hs
  rw [(h.trees.tree r hr).cpuTranslate_private h.trees.owned hneed.2 hneed.1 hv] at hl
  obtain ⟨e, he, hl⟩ := bind_eq_some_iff.mp hl
  split at hl
  swap
  · cases hl
  cases hl
  have hpage := (h.trees.page r hr _ e he).1
  obtain ⟨hs', hmap⟩ := h.write (storeByte m.phys.mem (leafFrame e) (v.toNat % 4096) b) fun f h1 _ =>
    funext fun j => store_of_ne _ fun h2 => h1 (h2.1 ▸ hpage)
  exact ⟨_, _, mapping_eq_some.mpr ⟨hr, e, he, rfl, rfl⟩, rfl, hs', hmap⟩

end

theorem Spaces.userStore (h : Spaces own R g m) (hr : r ∈ R) (hv : Private v)
    (hs : userStore m (frameAddr r) v b = some m') : ∃ own', Spaces own' R g m' := by
  rcases or_eq_some_iff.mp hs with hs | ⟨-, hs⟩
  · obtain ⟨_, _, -, -, h', -⟩ := h.store hr hv userWrites_bits hs
    exact ⟨own, h'⟩
  · obtain ⟨m1, hm1, hs⟩ := bind_eq_some_iff.mp hs
    obtain ⟨own1, h1⟩ := h.repair hr hv hm1
    obtain ⟨_, _, -, -, h', -⟩ := h1.store hr hv userWrites_bits hs
    exact ⟨own1, h'⟩

theorem add_ofNat_succ (v : U64) (i : Nat) : v + 1#64 + BitVec.ofNat 64 i = v + BitVec.ofNat 64 (i + 1) := by
  rw [BitVec.add_assoc, Nat.add_comm i 1, BitVec.ofNat_add]

/-- **The stores of a handler** change no mapping. -/
theorem Spaces.copyOut : ∀ {bytes : List U8} {v : U64} {m m' : Mm}, Spaces own R g m → r ∈ R →
    (∀ i < bytes.length, Private (v + BitVec.ofNat 64 i)) → copyOut (frameAddr r) bytes v m = some m' → Spaces own R g m'
  | [], _, _, _, h, _, _, hc => by
    cases hc
    exact h
  | b :: bs, v, m, m', h, hr, hv, hc => by
    obtain ⟨m1, hm1, hc⟩ := bind_eq_some_iff.mp hc
    obtain ⟨_, _, -, -, h1, -⟩ := h.store hr (by simpa using hv 0 (by simp)) kernelAccess_bits hm1
    exact h1.copyOut hr (fun i hi => by rw [add_ofNat_succ]; exact hv (i + 1) (by simpa using hi)) hc

/-- **A byte stored in a page that is mapped writable** is in no other process. -/
theorem Spaces.store_isolated (h : Spaces own R g m) (hr : r ∈ R) (hv : Private v) {f : Nat}
    (hf : mapping R m.phys.mem (r, pageOf v hv) = some (f, true))
    (hs : storeAt kernelAccess m (frameAddr r) v b = some m') {q : Nat} (hq : q ∈ R) (hqr : q ≠ r) {w : U64} (hw : Private w) :
    userRead m'.phys.mem (frameAddr q) w = userRead m.phys.mem (frameAddr q) w := by
  obtain ⟨f', w', hf', hmem, h', hmap⟩ := h.store hr hv kernelAccess_bits hs
  rw [hf] at hf'
  cases hf'
  rw [h'.trees.userRead hq hw, h.trees.userRead hq hw, hmap, hmem]
  cases hx : mapping R m.phys.mem (q, pageOf w hw) with
  | none => rfl
  | some x =>
    have hne : x.1 ≠ f := by
      rintro rfl
      exact hqr (congrArg Prod.fst (h.cow.alone hf hx))
    rw [map_some, map_some, byteAt_storeByte, if_neg fun h1 => hne h1.1]

/-- **The stores of a handler** into pages that are mapped writable all go through, and no other process
sees them. -/
theorem Spaces.copyOut_isolated : ∀ (bytes : List U8) (v : U64) {m : Mm}, Spaces own R g m → r ∈ R →
    (∀ i < bytes.length, ∃ hv : Private (v + BitVec.ofNat 64 i), ∃ f,
      mapping R m.phys.mem (r, pageOf _ hv) = some (f, true)) →
    ∃ m', MinicOs.copyOut (frameAddr r) bytes v m = some m' ∧ ∀ q ∈ R, q ≠ r → ∀ w, Private w →
      userRead m'.phys.mem (frameAddr q) w = userRead m.phys.mem (frameAddr q) w
  | [], _, m, _, _, _ => ⟨m, rfl, fun _ _ _ _ _ => rfl⟩
  | b :: bs, v, m, h, hr, hd => by
    obtain ⟨hv, f, hf⟩ : ∃ hv : Private v, ∃ f, mapping R m.phys.mem (r, pageOf v hv) = some (f, true) := by
      simpa using hd 0 (by simp)
    obtain ⟨m1, hm1⟩ := h.stores hr hv (by rw [hf]; simp) b
    obtain ⟨_, _, -, -, h1, hmap⟩ := h.store hr hv kernelAccess_bits hm1
    obtain ⟨m', hc, hsame⟩ := Spaces.copyOut_isolated bs (v + 1#64) h1 hr fun i hi => by
      rw [hmap, add_ofNat_succ]
      exact hd (i + 1) (by simpa using hi)
    refine ⟨m', ?_, fun q hq hqr w hw => (hsame q hq hqr w hw).trans (h.store_isolated hr hv hf hm1 hq hqr hw)⟩
    rw [MinicOs.copyOut, hm1]
    exact hc

end Store

/-! ## Runs -/

/-- A step of the machine: a spawn or a `fork` that succeeds, a store of ring 3, a read of a process into its
own memory. -/
inductive CowStep : Kernel → Kernel → Prop
  | spawn {k k' : Kernel} {image : List U8} {loadVaddr stackVaddr : U64} {sandboxed : Bool} {p : Int}
      (hpriv : ∀ i < imagePages image.length, Private (pageVa loadVaddr i)) (hs : Private stackVaddr)
      (h : spawnProcess k image loadVaddr stackVaddr sandboxed = some (p, k')) (hp : 0 ≤ p) : CowStep k k'
  | fork {k k' : Kernel} {t : Int} {regs : Nat → U64} {child : U64} (hu : k.inUse (k.processOf t) = true)
      (h : syscallFork k t regs = some (child, k')) (hc : child ≠ errU64) : CowStep k k'
  | store {k : Kernel} {m : Mm} {p : Int} {v : U64} {b : U8} (hu : k.inUse p = true) (hv : Private v)
      (h : userStore k.mm (k.procs p).cr3 v b = some m) : CowStep k { k with mm := m }
  | read {k : Kernel} {m : Mm} {p : Int} {call : ReadCall} (hu : k.inUse p = true)
      (hv : ∀ i < call.bytes.length, Private (call.buf + BitVec.ofNat 64 i))
      (h : call.exec k.mm (k.procs p).cr3 = some m) : CowStep k { k with mm := m }

/-- Every process in use has one of the address spaces to itself. -/
structure Rooted (k : Kernel) (R : Finset Nat) : Prop where
  root : ∀ p, k.inUse p = true → ∃ r ∈ R, (k.procs p).cr3 = frameAddr r
  inj : ∀ p q, k.inUse p = true → k.inUse q = true → (k.procs p).cr3 = (k.procs q).cr3 → p = q

/-- The address spaces of all processes, whatever the owner map. -/
def Isolated (k : Kernel) : Prop := ∃ own R g, Spaces own R g k.mm ∧ Rooted k R

section Run

variable {k k' : Kernel} {own : Nat → Owner} {R : Finset Nat} {g : Nat}

theorem Spaces.root_lt {m : Mm} (h : Spaces own R g m) {r : Nat} (hr : r ∈ R) : r < totalFrames :=
  h.trees.owned.lt ((h.trees.tree r hr).root_addr h.trees.owned).1

/-- A process is registered with a new address space. -/
theorem Rooted.register {p : Int} {c : Nat} {v : Process} (h : Rooted k R) (hs : Spaces own (insert c R) g k'.mm)
    (hcR : c ∉ R) (hp : k'.procs = update k.procs p v) (hu : k'.inUse = update k.inUse p true)
    (hv : v.cr3 = frameAddr c) : Rooted k' (insert c R) := by
  have hnew : ∀ q, q ≠ p → k'.inUse q = true → (k'.procs q).cr3 ≠ frameAddr c := by
    intro q hq huq heq
    rw [hu, update_of_ne hq] at huq
    obtain ⟨r, hr, hcr3⟩ := h.root q huq
    rw [hp, update_of_ne hq, hcr3] at heq
    have := frameAddr_inj (hs.root_lt (mem_insert_of_mem hr)) (hs.root_lt (mem_insert_self c R)) heq
    exact hcR (this ▸ hr)
  have hself : (k'.procs p).cr3 = frameAddr c := by rw [hp, update_self, hv]
  refine ⟨fun q huq => ?_, fun q q' huq huq' heq => ?_⟩
  · by_cases hq : q = p
    · exact ⟨c, mem_insert_self c R, hq ▸ hself⟩
    · rw [hu, update_of_ne hq] at huq
      obtain ⟨r, hr, hcr3⟩ := h.root q huq
      exact ⟨r, mem_insert_of_mem hr, by rw [hp, update_of_ne hq, hcr3]⟩
  · by_cases hq : q = p <;> by_cases hq' : q' = p
    · rw [hq, hq']
    · rw [hq, hself] at heq
      exact absurd heq.symm (hnew q' hq' huq')
    · rw [hq', hself] at heq
      exact absurd heq (hnew q hq huq)
    · rw [hp, update_of_ne hq, update_of_ne hq'] at heq
      rw [hu, update_of_ne hq] at huq
      rw [hu, update_of_ne hq'] at huq'
      exact h.inj q q' huq huq' heq

theorem Isolated.spawn {image : List U8} {loadVaddr stackVaddr : U64} {sandboxed : Bool} {p : Int} (h : Isolated k)
    (hpriv : ∀ i < imagePages image.length, Private (pageVa loadVaddr i)) (hs : Private stackVaddr)
    (heq : spawnProcess k image loadVaddr stackVaddr sandboxed = some (p, k')) (hp : 0 ≤ p) : Isolated k' := by
  obtain ⟨own, R, g, hS, hroot⟩ := h
  rcases spawnProcess_cases heq with ⟨hneg, -⟩ | ⟨i, hslot, h0, hreg⟩
  · omega
  obtain ⟨own1, c, hcr3, hcR, h1⟩ := hS.buildImage hpriv hs h0
  obtain ⟨t, mm, sched, hcreate, ⟨-, hneg, -⟩ | ⟨-, -, rfl⟩⟩ := registerSpawn_cases hreg
  · omega
  obtain ⟨own2, h2⟩ := h1.createTask hcreate
  exact ⟨own2, _, g, h2, hroot.register h2 hcR rfl (inUse_register hslot rfl rfl rfl) hcr3⟩

theorem Isolated.fork {t : Int} {regs : Nat → U64} {child : U64} (h : Isolated k) (hu : k.inUse (k.processOf t) = true)
    (heq : syscallFork k t regs = some (child, k')) (hc : child ≠ errU64) : Isolated k' := by
  obtain ⟨own, R, g, hS, hroot⟩ := h
  -- a fork that does not answer -1 has come to its end
  rcases syscallFork_cases heq with ⟨hv, -⟩ | ⟨i, cr3, ph, -, hslot, hclone, ⟨-, hv, -⟩ | ⟨h0, ok, mm, hwalk, ⟨-, hv, -⟩ |
    ⟨rfl, t', mm', sched, hcreate, ⟨-, hv, -⟩ | ⟨-, -, rfl⟩⟩⟩⟩
  iterate 4 exact absurd hv hc
  rcases cloneAddressSpace_cases hS.trees.owned k.mm.gPml4Phys with hno | ⟨own1, ph1, c, d, hyes, -, hcl⟩
  · rw [hclone] at hno
    exact absurd hno h0
  rw [hclone] at hyes
  cases hyes
  obtain ⟨hcR, h1⟩ := hS.clone hcl
  obtain ⟨r, hr, hcr3⟩ := hroot.root _ hu
  rw [hcr3] at hwalk
  obtain ⟨own2, h2⟩ := Spaces.fork (mem_insert_of_mem hr) (mem_insert_self c R) (fun hrc => hcR (hrc ▸ hr))
    h1 hwalk
  obtain ⟨own3, h3⟩ := h2.createTask hcreate
  exact ⟨own3, _, g, h3, hroot.register h3 hcR rfl (inUse_register hslot rfl rfl rfl) rfl⟩

/-- **One step** keeps the address spaces apart. -/
theorem Isolated.step (h : Isolated k) (hstep : CowStep k k') : Isolated k' := by
  cases hstep with
  | spawn hpriv hs heq hp => exact h.spawn hpriv hs heq hp
  | fork hu heq hc => exact h.fork hu heq hc
  | store hu hv heq =>
    obtain ⟨own, R, g, hS, hroot⟩ := h
    obtain ⟨r, hr, hcr3⟩ := hroot.root _ hu
    rw [hcr3] at heq
    obtain ⟨own', h'⟩ := hS.userStore hr hv heq
    exact ⟨own', R, g, h', hroot.root, hroot.inj⟩
  | read hu hv heq =>
    obtain ⟨own, R, g, hS, hroot⟩ := h
    obtain ⟨r, hr, hcr3⟩ := hroot.root _ hu
    rw [hcr3, ReadCall.exec_eq] at heq
    exact ⟨own, R, g, hS.copyOut hr hv heq, hroot.root, hroot.inj⟩

theorem Isolated.boot (hb : Boot k) (hready : KernelReady k.mm) : Isolated k := by
  have hnone : mapping ∅ k.mm.phys.mem = fun _ => none := by
    funext x
    simp [mapping]
  refine ⟨_, ∅, frameNum k.mm.gPml4Phys, ⟨⟨hready.owned, by simp, by simp, hready.tables⟩, hready.heap, hready.pml4, ?_,
    fun i hi => absurd hi (by simp [hb.cow i])⟩, fun p hp => ?_, fun p q hp => ?_⟩
  · rw [hnone]
    exact ⟨fun f => by simp [mappers], fun h => by simp at h⟩
  all_goals simp [Kernel.inUse, hb.procs p] at hp

end Run

/-! ## A fork at boot -/

/-- The state after the process spawned at boot has forked. -/
def forkedKernel : Kernel :=
  ((syscallFork (spawned bootKernel false) 1 fun _ => 0#64).map Prod.snd).getD bootKernel

set_option maxRecDepth 100000 in
theorem forkedKernel_run : ReflTransGen CowStep bootKernel forkedKernel := by
  have hchild : (syscallFork (spawned bootKernel false) 1 fun _ => 0#64).map Prod.fst = some 2#64 := by decide +kernel
  obtain ⟨⟨child, k⟩, hfork, rfl⟩ := map_eq_some_iff.mp hchild
  have hk : forkedKernel = k := by rw [forkedKernel, hfork]; rfl
  refine .tail (.single (.spawn (by decide) (by decide) (spawned_eq (by decide +kernel)) le_rfl))
    (.fork (by decide +kernel) (hk ▸ hfork) (by decide))

/-- A message of three bytes. -/
def threeBytes : Channel := { full := true, msgLen := 3, msgData := fun i => BitVec.ofNat 8 (0x41 + i) }

/-- The state after the parent has stored to the page, and `interrupt_handler` has given it a copy. -/
def repairedKernel : Kernel :=
  { forkedKernel with mm := (userStore forkedKernel.mm (forkedKernel.procs 0).cr3 0x80020000 5).getD forkedKernel.mm }

set_option maxRecDepth 100000 in
theorem repairedKernel_run : ReflTransGen CowStep bootKernel repairedKernel := by
  have huse : forkedKernel.inUse 0 = true ∧
      (userStore forkedKernel.mm (forkedKernel.procs 0).cr3 0x80020000 5).isSome = true := by decide +kernel
  obtain ⟨m, hm⟩ := isSome_iff_exists.mp huse.2
  refine forkedKernel_run.tail ?_
  rw [repairedKernel, hm]
  exact .store huse.1 (by decide) hm

end MinicOs
