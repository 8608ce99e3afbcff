import MinicOs.Proc.Sandboxed
import MinicOs.Syscall.Integrity

/-!
# The capabilities of a new process

What the handle table of a process holds when `spawn_process` returns. The table is not cleared: the
spawn relies on `process_exit` having done so. But syscalls 83 and 84 also write to the table of a
process that has exited, since its task entry still names it, and so does an object that is opened by
a thread left of such a process.
-/

namespace MinicOs

open Relation

/-- Object `o` of `c'` is a sandbox made since `c`. -/
def Caps.NewSandbox (c c' : Caps) (o : Int) : Prop :=
  ∃ j : Nat, o = j ∧ (c.objects j).used = false ∧ (c'.objects j).used = true ∧ (c'.objects j).type = .sandbox

/-- In `c'` process `p` holds what a spawn from `c` is to give it: handle 0 denotes the process
itself, with `RIGHT_QUERY`, and the other handles are unused, up to one on a new sandbox if the
process is sandboxed. -/
structure OwnCaps (c c' : Caps) (p : Int) (sandboxed : Bool) : Prop where
  self : (c'.handles p 0).used = true ∧ (c'.handles p 0).rights = rightQuery
  object : ∃ i : Nat, i < objectSlots ∧ (c'.handles p 0).objectIndex = i ∧
    c'.objects i = { used := true, type := .process, dataIndex := p }
  others : ∀ h : Nat, 0 < h → h < handlesPerProcess → (c'.handles p h).used = true →
    sandboxed = true ∧ c.NewSandbox c' (c'.handles p h).objectIndex
  sandbox : sandboxed = true → ∃ h : Nat, 0 < h ∧ h < handlesPerProcess ∧ (c'.handles p h).used = true
  single : ∀ h g : Nat, 0 < h → 0 < g → h < handlesPerProcess → g < handlesPerProcess →
    (c'.handles p h).used = true → (c'.handles p g).used = true → h = g

/-- There is room for what a spawn gives a process. -/
structure Caps.RoomForOwn (c : Caps) (sandboxed : Bool) : Prop where
  object : ∃ i, c.freeObjectSlot = some i
  sandbox : sandboxed = true → (∃ s, c.freePolicySlot = some s) ∧ ∃ j, c.secondObjectSlot = some j

/-- The handles that the event opens or grants go to processes in use. -/
def Event.Clean (k : Kernel) (ev : Event) : Prop := ∀ p ∈ eventReceivers k ev, 0 ≤ p → k.inUse p = true

instance (k : Kernel) (ev : Event) : Decidable (ev.Clean k) :=
  inferInstanceAs (Decidable (∀ p ∈ eventReceivers k ev, 0 ≤ p → k.inUse p = true))

/-- A step of the kernel with such an event. -/
def CleanStep (k k' : Kernel) : Prop := ∃ ev o, ev.Enabled k ∧ ev.Clean k ∧ k.step ev = some (o, k')

/-! ## Who gets handles -/

/-- Process `p` gets no handle. -/
def NoGain (p : Int) (c c' : Caps) : Prop := ∀ h, (c'.handles p h).used = true → (c.handles p h).used = true

/-- The operation gives handles to process `p`. -/
def CapOp.Gives (p : Int) : CapOp → Prop
  | .create q _ _ _ _ => q = p
  | .grant _ q _ => q = p
  | .spawn q _ => q = p
  | _ => False

section Gain

variable {c : Caps} {p q : Int}

theorem setHandle_noGain (hq : q ≠ p) (h : Int) (v : Handle) : NoGain p c (c.setHandle q h v) := by
  intro g hu
  rwa [setHandle_handles, if_neg fun hx => hq hx.1.symm] at hu

theorem allocHandle_noGain (hq : q ≠ p) (o : Int) (r : Nat) : NoGain p c (allocHandle c q o r).2 := by
  rcases allocHandle_cases c q o r with ⟨i, -, -, -, heq⟩ | ⟨-, heq⟩
  · rw [heq]
    exact setHandle_noGain hq i _
  · rw [heq]
    exact fun _ => id

theorem createObject_noGain (hq : q ≠ p) (type : ObjType) (d : Int) (r : Nat) (f : Bool) :
    NoGain p c (createObject c q type d r f).2 := by
  obtain ⟨-, heq⟩ | ⟨i, -, -, heq⟩ | ⟨i, j, -, -, heq⟩ := createObject_cases c q type d r f
  · rw [heq]
    exact fun _ => id
  · rw [heq]
    cases f <;> exact fun _ => id
  · rw [heq]
    exact setHandle_noGain hq j _

theorem grantSelf_noGain (hq : q ≠ p) (sandboxed : Bool) : NoGain p c (grantSelf c q sandboxed) := by
  have hself : NoGain p c (grantSelfHandle c q) := fun h hu => by
    have hu := allocHandle_noGain hq (allocObject c .process q).1 rightQuery h hu
    rwa [allocObject_handles] at hu
  cases sandboxed with
  | false => exact hself
  | true =>
    rcases grantSelf_cases c q with ⟨-, heq⟩ | ⟨s, -, ⟨-, heq⟩ | ⟨j, -, heq⟩⟩
    · rw [heq]
      exact hself
    · rw [heq]
      exact hself
    · rw [heq]
      intro h hu
      have hu := allocHandle_noGain hq _ _ h hu
      exact hself h hu

theorem closeLoop_noGain (q : Int) (l : List Nat) : NoGain p c (l.foldl
    (fun (c : Caps) (h : Nat) => if (c.handles q h).used = true then closeHandle c q h else c) c) := by
  refine List.foldlRecOn (motive := fun c' => NoGain p c c') _ _ (fun _ => id) fun c' hc' g _ h hu => hc' h ?_
  split at hu
  · exact ((closeHandle_shrinks c' q g).handles p h).2 hu
  · exact hu

theorem closeAll_empty {h : Nat} (hlt : h < handlesPerProcess) : ((closeAll c p).handles p h).used = false := by
  have hmem : h ∈ List.range handlesPerProcess := List.mem_range.mpr hlt
  unfold closeAll
  generalize List.range handlesPerProcess = l at hmem
  induction l generalizing c with
  | nil => simp at hmem
  | cons g l ih =>
    rcases List.mem_cons.mp hmem with rfl | hmem
    · refine Bool.eq_false_of_not_eq_true fun hu => ?_
      have hu := closeLoop_noGain p l h hu
      simp only at hu
      split at hu
      · simp [closeHandle, freeHandle_handles] at hu
      · contradiction
    · exact ih hmem

/-- An operation gives handles to whom it names only. -/
theorem CapOp.run_noGain {op : CapOp} (h : ¬ op.Gives p) : NoGain p c (op.run c) := by
  cases op with
  | keep => exact fun _ => id
  | create q t d r f => exact createObject_noGain h t d r f
  | grant caller q hs =>
    exact loopOk_inv (P := NoGain p c) (fun g _ c' hc' h' hu => hc' h' (allocHandle_noGain h _ _ h' hu)) fun _ => id
  | close q g => exact fun h' => ((closeHandle_shrinks c q g).handles p h').2
  | closeAll q => exact closeLoop_noGain q _
  | finish q g o =>
    intro h' hu
    show (c.handles p h').used = true
    change ((freeHandle (freeObject c o) q g).handles p h').used = true at hu
    rw [freeHandle_handles] at hu
    split at hu
    · cases hu
    · exact hu
  | spawn q b => exact grantSelf_noGain h b

end Gain

/-- Only processes in use have handles. -/
def Clean (used : Int → Bool) (c : Caps) : Prop :=
  ∀ (p : Int) (h : Nat), 0 ≤ p → h < handlesPerProcess → (c.handles p h).used = true → used p = true

theorem Clean.of_capsBy {k k' : Kernel} {ps : List Int} {op : CapOp} (hc : Clean k.inUse k.caps)
    (h : CapsBy k k' ps op) (hop : op.Registers) (hps : ∀ p ∈ ps, 0 ≤ p → k.inUse p = true) : Clean k'.inUse k'.caps := by
  obtain ⟨op', hrun, -, hop', hused⟩ := h
  rw [hrun, hused]
  intro p g h0 hlt hu
  by_cases hg : op'.Gives p
  · cases op' with
    | keep | close _ _ | closeAll _ | finish _ _ _ => exact absurd hg id
    | create q t d r f =>
      obtain rfl : q = p := hg
      rcases hop' with hop' | rfl
      · exact hps q hop'.1 h0
      · exact absurd hop id
    | grant caller q hs =>
      obtain rfl : q = p := hg
      rcases hop' with hop' | rfl
      · exact hps q hop' h0
      · exact absurd hop id
    | spawn q b =>
      obtain rfl : q = p := hg
      exact Function.update_self q true k.inUse
  · have hold := hc p g h0 hlt (CapOp.run_noGain hg g hu)
    cases op' with
    | keep | create _ _ _ _ _ | grant _ _ _ | close _ _ | finish _ _ _ => exact hold
    | closeAll q =>
      have hne : p ≠ q := by
        rintro rfl
        exact Bool.noConfusion ((closeAll_empty hlt).symm.trans hu)
      exact (Function.update_of_ne hne false k.inUse).trans hold
    | spawn q b => exact (Function.update_of_ne (Ne.symm hg) true k.inUse).trans hold

theorem clean_run {k₀ k : Kernel} (hb : CapsBoot k₀.caps) (hrun : ReflTransGen CleanStep k₀ k) : Clean k.inUse k.caps := by
  refine run_inv (P := fun k => Clean k.inUse k.caps) ?_ hrun fun p h _ _ hu => ?_
  · rintro k k' hc ⟨ev, o, -, hclean, hstep⟩
    exact hc.of_capsBy (step_caps hstep) (eventOp_registers k ev) hclean
  · exact Bool.noConfusion ((hb.handles p h).symm.trans hu)

/-! ## What the spawn gives -/

section Grant

variable {c : Caps} {p : Int} {sandboxed : Bool}

theorem selfObject_nonneg {i : Nat} (h : c.selfObject = i) : c.freeObjectSlot = some i := by
  unfold Caps.selfObject at h
  cases hs : c.freeObjectSlot with
  | none =>
    rw [hs] at h
    exact absurd h (by simp [toIndex])
  | some j =>
    rw [hs] at h
    exact congrArg some (Int.ofNat_inj.mp h)

theorem grantSelf_selfObject {i : Nat} (hi : c.freeObjectSlot = some i) :
    (grantSelf c p sandboxed).objects i = { used := true, type := .process, dataIndex := p } := by
  cases sandboxed with
  | false => exact (grantSelfHandle_objects i).trans (if_pos ⟨i, hi, rfl⟩)
  | true => exact (grantSelf_objects i).trans (if_pos ⟨i, hi, rfl⟩)

variable {h : Nat}

theorem freeHandleSlot_zero (hempty : ∀ h : Nat, h < handlesPerProcess → (c.handles p h).used = false) :
    c.freeHandleSlot p = some 0 :=
  scan_eq_some.mpr ⟨by decide, by simpa using hempty 0 (by decide), fun j hj => absurd hj (Nat.not_lt_zero j)⟩

/-- Besides handle 0 only the sandbox handle is used if the table was empty. -/
theorem grantSelf_used (hempty : ∀ h : Nat, h < handlesPerProcess → (c.handles p h).used = false)
    (h0 : 0 < h) (hlt : h < handlesPerProcess) (hu : ((grantSelf c p sandboxed).handles p h).used = true) :
    sandboxed = true ∧ c.RoomForSandbox p ∧ c.secondHandleSlot p = some h ∧
      c.NewSandbox (grantSelf c p sandboxed) ((grantSelf c p sandboxed).handles p h).objectIndex := by
  have hother : ((grantSelfHandle c p).handles p h).used = false := by
    rw [grantSelfHandle_handles, if_neg]
    · exact hempty h hlt
    · rintro ⟨i, hi, heq⟩
      cases (freeHandleSlot_zero hempty).symm.trans hi
      omega
  cases sandboxed with
  | false => exact Bool.noConfusion (hother.symm.trans hu)
  | true =>
    rcases grantSelf_handles (c := c) (p := p) with ⟨s, j, g, hs, hj, hg, hall⟩ | ⟨-, hall⟩
    · by_cases hgh : h = g
      · subst hgh
        refine ⟨rfl, ⟨⟨s, hs⟩, ⟨j, hj⟩, h, hg⟩, hg, j, by rw [hall, if_pos rfl], (secondObjectSlot_some hj).1, ?_, ?_⟩ <;>
          rw [grantSelf_objects, objectAfter_second hs hj]
      · rw [hall, if_neg (by omega), hother] at hu
        exact Bool.noConfusion hu
    · rw [hall, hother] at hu
      exact Bool.noConfusion hu

/-- **The capabilities after a spawn** into an empty table. -/
theorem ownCaps_grantSelf (hempty : ∀ h : Nat, h < handlesPerProcess → (c.handles p h).used = false) :
    OwnCaps c (grantSelf c p sandboxed) p sandboxed ↔ c.RoomForOwn sandboxed := by
  have hself := @grantSelf_first c p sandboxed 0 (freeHandleSlot_zero hempty)
  rw [Nat.cast_zero] at hself
  constructor
  · intro ho
    refine ⟨?_, fun hs => ?_⟩
    · obtain ⟨i, -, hi, -⟩ := ho.object
      rw [hself] at hi
      exact ⟨i, selfObject_nonneg hi⟩
    · obtain ⟨h, hpos, hlt, hu⟩ := ho.sandbox hs
      obtain ⟨-, ⟨hp, hj, -⟩, -⟩ := grantSelf_used hempty hpos hlt hu
      exact ⟨hp, hj⟩
  · rintro ⟨⟨i, hi⟩, hsandbox⟩
    have hobj : c.selfObject = i := by rw [Caps.selfObject, hi]; rfl
    refine ⟨by rw [hself]; exact ⟨rfl, rfl⟩,
      ⟨i, (freeObjectSlot_some hi).1, by rw [hself]; exact hobj, grantSelf_selfObject hi⟩,
      fun h h0 hlt hu => ?_, fun hs => ?_, fun h g h0 g0 hh hg hu hu' => ?_⟩
    · obtain ⟨hs, -, -, hnew⟩ := grantSelf_used hempty h0 hlt hu
      exact ⟨hs, hnew⟩
    · subst hs
      rcases grantSelf_handles (c := c) (p := p) with ⟨_, _, g, _, _, hg, hall⟩ | ⟨hno, -⟩
      · obtain ⟨hglt, -, hg0⟩ := secondHandleSlot_some hg
        exact ⟨g, Nat.pos_of_ne_zero fun h0 => hg0 (h0 ▸ freeHandleSlot_zero hempty), hglt, by rw [hall, if_pos rfl]⟩
      · have hsecond : ∃ g, c.secondHandleSlot p = some g := by
          unfold Caps.secondHandleSlot
          rw [freeHandleSlot_zero hempty]
          exact scan_isSome (show 1 < handlesPerProcess by decide) (by simpa using hempty 1 (by decide))
        exact absurd ⟨(hsandbox rfl).1, (hsandbox rfl).2, hsecond⟩ hno
    · exact Option.some.inj ((grantSelf_used hempty h0 hh hu).2.2.1.symm.trans (grantSelf_used hempty g0 hg hu').2.2.1)

end Grant

/-- **A new process starts with exactly its own capabilities**, after every run from the boot whose
handles go to processes in use, iff there is a free object for the process itself and, if it is
sandboxed, a policy and a second object for the sandbox. Syscall 6 has read its image into a buffer
(`buf`) when it calls `spawn_process`. -/
theorem ownCaps_run {k₀ k k₁ k' : Kernel} {buf : Nat → U8} {image : List U8} {l st : U64} {sandboxed : Bool} {p : Int}
    (hb : Boot k₀) (hrun : ReflTransGen CleanStep k₀ k)
    (hbuf : k₁ = { k with imageBuf := buf }) (h : spawnProcess k₁ image l st sandboxed = some (p, k')) (hp : 0 ≤ p) :
    OwnCaps k.caps k'.caps p sandboxed ↔ k.caps.RoomForOwn sandboxed := by
  subst hbuf
  obtain ⟨hidx, hcaps⟩ := spawnProcess_index h hp
  have hunused : k.inUse p = false := by
    unfold Kernel.spawnIndex at hidx
    split at hidx
    · rename_i i hi
      rw [hidx]
      exact recordIndex_inUse (k := k) hi
    · omega
  rw [hcaps]
  refine ownCaps_grantSelf fun g hlt => Bool.eq_false_of_not_eq_true fun hu => ?_
  exact Bool.noConfusion (hunused.symm.trans (clean_run hb.caps hrun p g hp hlt hu))

/-! ## A record that is used again -/

/-- A kernel task spawns a program. -/
def spawnPlain : Event := .spawn [0x90] 0x80000000 0x80020000 false

/-- Task 2 exits. -/
def exitSecond : Event := .syscall 2 { num := 12, a1 := 0, a2 := 0, a3 := 0 } noEnv

/-- Task 1 grants task 2 the handle it has on its own process. -/
def grantSelfHandle0 : Event := .syscall 1 { num := 83, a1 := 0, a2 := 2, a3 := 0 } noEnv

/-- Two processes; the first creates an event and grants it to the second, which exits. -/
def secondExited : Kernel :=
  [spawnPlain, spawnPlain, createEvent, grantHandle, exitSecond].foldl Kernel.after bootKernel

theorem cleanStep_after {k : Kernel} {ev : Event} (he : ev.Enabled k) (hc : ev.Clean k)
    (h : (k.step ev).isSome = true) : CleanStep k (k.after ev) := by
  obtain ⟨o, ho⟩ := step_after k ev h
  exact ⟨ev, o, he, hc, ho⟩

theorem secondExited_run : ReflTransGen CleanStep bootKernel secondExited := by
  unfold secondExited
  simp only [List.foldl]
  iterate 5 refine .tail ?_ (cleanStep_after (by decide +kernel) (by decide +kernel) (by decide +kernel))
  exact .refl

set_option maxRecDepth 100000 in
/-- The next process gets the record, and the sandbox it is to have. -/
theorem ownCaps_run_reused : (secondExited.procs 1).used = false ∧
    OwnCaps secondExited.caps (spawned secondExited true).caps 1 true := by
  have hspawn : spawnProcess secondExited [0x90] 0x80000000 0x80020000 true = some (1, spawned secondExited true) :=
    spawned_eq (by decide +kernel)
  have hiff : ∀ k k', ReflTransGen CleanStep bootKernel k →
      spawnProcess k [0x90] 0x80000000 0x80020000 true = some (1, k') →
      (OwnCaps k.caps k'.caps 1 true ↔ k.caps.RoomForOwn true) :=
    fun k k' hrun h => ownCaps_run bootKernel_boot hrun rfl h (by decide)
  refine ⟨by decide +kernel, (hiff _ _ secondExited_run hspawn).mpr ?_⟩
  exact ⟨⟨1, by decide +kernel⟩, fun _ => ⟨⟨0, by decide +kernel⟩, 2, by decide +kernel⟩⟩

set_option maxRecDepth 100000 in
/-- **A new process with a handle of another.** After the exit, task 1 grants task 2 a handle once more.
The next process gets record 1, and its handle 0 denotes process 0. -/
theorem ownCaps_lost : ∃ k, ReflTransGen KStep bootKernel k ∧
    (spawnProcess k [0x90] 0x80000000 0x80020000 false).map Prod.fst = some 1 ∧
    denotes (spawned k false).caps 1 0 = (.process, 0) ∧ ¬ OwnCaps k.caps (spawned k false).caps 1 false := by
  have hden : denotes (spawned (secondExited.after grantSelfHandle0) false).caps 1 0 = (.process, 0) := by
    decide +kernel
  obtain ⟨o, ho⟩ := step_after secondExited grantSelfHandle0 (by decide +kernel)
  refine ⟨_, .tail ?_ ⟨grantSelfHandle0, o, by decide +kernel, ho⟩, by decide +kernel, hden, fun hown => ?_⟩
  · exact ReflTransGen.mono (fun _ _ ⟨ev, o, he, _, hstep⟩ => ⟨ev, o, he, hstep⟩) _ _ secondExited_run
  · obtain ⟨i, -, hi, hobj⟩ := hown.object
    rw [denotes, hi, hobj] at hden
    cases hden

end MinicOs
