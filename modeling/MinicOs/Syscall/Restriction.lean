import MinicOs.Syscall.Integrity

/-!
# Sandbox restrictions along runs

A restriction is a handle to a sandbox object, in the ordinary handle and object tables. It is in
force as long as that handle and that object are not freed, and every syscall that frees an object
frees it for all who hold it.
-/

namespace MinicOs

open Function Relation

/-- Every sandbox object's policy slot is taken. -/
def PolicyInv (c : Caps) : Prop :=
  ∀ i : Nat, i < objectSlots → (c.objects i).type = .sandbox →
    (c.policies (c.objects i).dataIndex).used = true

section PolicyInv

variable {c : Caps}

theorem policyInv_boot (h : CapsBoot c) : PolicyInv c := by
  intro i _ ht
  rw [(h.objects i).2] at ht
  exact absurd ht (by decide)

section

variable (hi : PolicyInv c)
include hi

/-- Tables whose objects keep type and data, and whose policies stay taken. -/
theorem PolicyInv.congr {c' : Caps} (ho : ∀ o, (c'.objects o).type = (c.objects o).type ∧
      (c'.objects o).dataIndex = (c.objects o).dataIndex) (hp : c'.policies = c.policies) : PolicyInv c' := by
  intro i hlt ht
  rw [(ho i).1] at ht
  rw [(ho i).2, hp]
  exact hi i hlt ht

theorem PolicyInv.allocObject {t : ObjType} {d : Int}
    (ht : t = .sandbox → (c.policies d).used = true) : PolicyInv (allocObject c t d).2 := by
  rcases allocObject_cases c t d with ⟨j, -, -, -, heq⟩ | ⟨-, heq⟩
  · rw [heq]
    intro i hlt hty
    rw [takeObject_objects] at hty ⊢
    split
    · rename_i hij
      rw [if_pos hij] at hty
      exact ht hty
    · rename_i hij
      rw [if_neg hij] at hty
      exact hi i hlt hty
  · rw [heq]; exact hi

theorem PolicyInv.allocHandle (p o : Int) (r : Nat) : PolicyInv (allocHandle c p o r).2 := by
  rcases allocHandle_cases c p o r with ⟨j, -, -, -, heq⟩ | ⟨-, heq⟩
  · rw [heq]
    exact hi.congr (fun _ => ⟨rfl, rfl⟩) rfl
  · rw [heq]; exact hi

theorem PolicyInv.freeObject (o : Int) : PolicyInv (freeObject c o) := by
  refine hi.congr (fun j => ?_) rfl
  rw [freeObject_objects]
  split
  · rename_i hj
    rw [hj]
    exact ⟨rfl, rfl⟩
  · exact ⟨rfl, rfl⟩

theorem PolicyInv.freeHandle (p h : Int) : PolicyInv (freeHandle c p h) :=
  hi.congr (fun _ => ⟨rfl, rfl⟩) rfl

/-- A new policy leaves the taken ones taken, and its own slot is taken after. -/
theorem PolicyInv.policyCreate (lo hi' : U64) : PolicyInv (sandboxPolicyCreate c lo hi').2 ∧
      (0 ≤ (sandboxPolicyCreate c lo hi').1 →
        ((sandboxPolicyCreate c lo hi').2.policies (sandboxPolicyCreate c lo hi').1).used = true) := by
  unfold sandboxPolicyCreate
  split
  · rename_i j hj
    refine ⟨fun i hlt ht => ?_, fun _ => ?_⟩
    · show (update c.policies j _ (c.objects i).dataIndex).used = true
      by_cases hd : (c.objects i).dataIndex = (j : Int)
      · rw [hd, update_self]
      · rw [update_of_ne hd]
        exact hi i hlt ht
    · show (update c.policies j _ j).used = true
      rw [update_self]
  · exact ⟨hi, fun h => absurd h (show ¬ (0 : Int) ≤ -1 by decide)⟩

theorem PolicyInv.grantSelf (p : Int) (sandboxed : Bool) : PolicyInv (grantSelf c p sandboxed) := by
  have h1 : PolicyInv (grantSelfHandle c p) :=
    (hi.allocObject (t := .process) (d := p) fun h => absurd h (by decide)).allocHandle p
      (MinicOs.allocObject c .process p).1 rightQuery
  unfold MinicOs.grantSelf
  split
  · obtain ⟨h2, h2'⟩ := h1.policyCreate sandboxDefaultDeniedLow sandboxDefaultDeniedHigh
    unfold grantSandbox
    simp only
    split
    · rename_i hpos
      split
      · exact (h2.allocObject fun _ => h2' hpos).allocHandle _ _ _
      · exact h2.allocObject fun _ => h2' hpos
    · exact h2
  · exact h1

end

/-- Every operation the handlers perform keeps the policies of sandbox objects taken. -/
theorem PolicyInv.of_capsBy {k k' : Kernel} {op : CapOp} {ps : List Int} (hi : PolicyInv k.caps)
    (hc : CapsBy k k' ps op) (hop : op.Registers) : PolicyInv k'.caps := by
  obtain ⟨op', hrun, -, hop', -⟩ := hc
  rw [hrun]
  cases op' with
  | keep => exact hi
  | create p t d r f =>
    have ht : t ≠ .sandbox := by
      rcases hop' with h | rfl
      · exact h.2
      · exact absurd hop id
    have h1 : PolicyInv (MinicOs.allocObject k.caps t d).2 := hi.allocObject fun h => absurd h ht
    show PolicyInv (createObject k.caps p t d r f).2
    unfold createObject
    simp only
    split
    · exact h1
    · have h2 := h1.allocHandle p (MinicOs.allocObject k.caps t d).1 r
      split
      · split
        · exact h2.freeObject _
        · exact h2
      · exact h2
  | grant p q hs =>
    exact loopOk_inv (P := PolicyInv) (fun g _ c' hc' => hc'.allocHandle _ _ _) hi
  | close p g => exact (hi.freeObject _).freeHandle p g
  | closeAll p =>
    refine List.foldlRecOn (motive := PolicyInv) _ _ hi fun c' hc' g _ => ?_
    split
    · exact (hc'.freeObject _).freeHandle p g
    · exact hc'
  | finish p g o => exact (hi.freeObject o).freeHandle p g
  | spawn p sandboxed => exact hi.grantSelf p sandboxed

end PolicyInv

theorem PolicyInv.run {k k' : Kernel} (hi : PolicyInv k.caps) (h : ReflTransGen KStep k k') : PolicyInv k'.caps :=
  run_inv (P := fun k => PolicyInv k.caps)
    (fun _ _ hi ⟨ev, _, _, hstep⟩ => hi.of_capsBy (step_caps hstep) (eventOp_registers _ ev)) h hi

/-! ## The restriction -/

/-- At this moment handle `h` of process `p` names the used sandbox object `o`, whose policy denies
syscall `num`. -/
structure HoldsSandbox (k : Kernel) (p h o : Int) (num : U64) : Prop where
  process : 0 ≤ p ∧ p < maxProcesses
  handle : 0 ≤ h ∧ h < handlesPerProcess ∧ (k.caps.handles p h).used = true ∧
    (k.caps.handles p h).objectIndex = o
  object : 0 ≤ o ∧ o < objectSlots ∧ (k.caps.objects o).used = true ∧
    (k.caps.objects o).type = .sandbox
  denies : policyDenies (k.caps.policies (k.caps.objects o).dataIndex) num = true

/-- A step that frees neither object `o` nor handle `h` of process `p`. -/
def KeepStep (p h o : Int) (k k' : Kernel) : Prop :=
  ∃ ev out, ev.Enabled k ∧ k.step ev = some (out, k') ∧
    ¬ (eventOp k ev).FreesObject k.caps o ∧ ¬ (eventOp k ev).FreesHandle p h

theorem HoldsSandbox.restricts {k : Kernel} {p h o : Int} {num : U64} (hh : HoldsSandbox k p h o num)
    (hi : PolicyInv k.caps) : Restricts k.caps p h o (k.caps.objects o).dataIndex num := by
  obtain ⟨h0, hlt, hu, ht⟩ := hh.object
  obtain ⟨i, rfl⟩ := Int.eq_ofNat_of_zero_le h0
  exact ⟨hh.handle.2.2.1, hh.handle.2.2.2, hu, ht, rfl, hi i (Int.ofNat_lt.mp hlt) ht, hh.denies⟩

theorem CapOp.Opens.frees {op : CapOp} {ps : List Int} (hop : op.Opens ps) (c : Caps) (p h o : Int) :
    ¬ op.FreesObject c o ∧ ¬ op.FreesHandle p h := by
  cases op with
  | keep => exact ⟨id, id⟩
  | create q t d r f => exact ⟨id, id⟩
  | grant q q' hs => exact ⟨id, id⟩
  | close q g => exact absurd hop id
  | closeAll q => exact absurd hop id
  | finish q g o' => exact absurd hop id
  | spawn q b => exact absurd hop id

theorem Restricts.step {k k' : Kernel} {p h o d : Int} {num : U64}
    (hr : Restricts k.caps p h o d num) (hs : KeepStep p h o k k') : Restricts k'.caps p h o d num := by
  obtain ⟨ev, out, -, hstep, hfo, hfh⟩ := hs
  obtain ⟨op, hrun, -, hop, -⟩ := step_caps hstep
  rw [hrun]
  rcases hop with hop | rfl
  · exact CapOp.run_keeps hr (hop.frees k.caps p h o).1 (hop.frees k.caps p h o).2
  · exact CapOp.run_keeps hr hfo hfh

/-- **A restriction stays in force.** Let process `p` hold a sandbox object that denies `num`, in a
state the kernel can reach. Then after every run whose steps free neither that object nor that
handle, `syscall_dispatch` answers `num` from any task of `p` with `-1` and changes nothing. -/
theorem restriction_run {k₀ k k' : Kernel} {p h o : Int} {num : U64} (hb : PolicyInv k₀.caps)
    (hreach : ReflTransGen KStep k₀ k) (hh : HoldsSandbox k p h o num)
    (hrun : ReflTransGen (KeepStep p h o) k k') (t : Int) (call : Call) (env : Env)
    (ht : k'.processOf t = p) (hnum : call.num = num) : syscallDispatch k' t call env = some (.ret errU64, k') := by
  have hr : Restricts k'.caps p h o (k.caps.objects o).dataIndex num :=
    run_inv (P := fun k' => Restricts k'.caps p h o (k.caps.objects o).dataIndex num)
      (fun _ _ hr hs => hr.step hs) hrun (hh.restricts (hb.run hreach))
  have hd := hr.sandboxDenies hh.process.1 hh.process.2 hh.handle.1 hh.handle.2.1
  unfold syscallDispatch
  rw [ht, hnum, if_pos hd]
  rfl

/-! ## A sandboxed process -/

/-- A kernel task spawns a sandboxed program. -/
def spawnSandboxed : Event := .spawn [0x90] 0x80000000 0x80020000 true

/-- The kernel after it: task 1 runs process 0, whose handle 1 names the sandbox object 1. -/
def sandboxedKernel : Kernel := bootKernel.after spawnSandboxed

/-- Syscall 49, `setuid`, with uid 7. -/
def setuid : Call := { num := 49, a1 := 7, a2 := 0, a3 := 0 }

theorem sandboxedKernel_reach : ReflTransGen KStep bootKernel sandboxedKernel := by
  obtain ⟨out, hout⟩ := step_after bootKernel spawnSandboxed (by decide +kernel)
  exact ReflTransGen.single ⟨spawnSandboxed, out, trivial, hout⟩

theorem sandboxedKernel_holds : HoldsSandbox sandboxedKernel 0 1 1 49 :=
  ⟨by decide, by decide +kernel, by decide +kernel, by decide +kernel⟩

/-- The process creates an event, which frees nothing; `setuid` is still refused. -/
theorem restriction_run_event : HoldsSandbox sandboxedKernel 0 1 1 49 ∧
      syscallDispatch (sandboxedKernel.after createEvent) 1 setuid noEnv =
        some (.ret errU64, sandboxedKernel.after createEvent) := by
  obtain ⟨out, hout⟩ := step_after sandboxedKernel createEvent (by decide +kernel)
  refine ⟨sandboxedKernel_holds, restriction_run (policyInv_boot bootKernel_boot.caps)
    sandboxedKernel_reach sandboxedKernel_holds
    (ReflTransGen.single ⟨createEvent, out, by decide +kernel, hout, id, id⟩) 1 setuid noEnv
    (by decide +kernel) rfl⟩

/-- **Where it is lifted.** The sandboxed process closes the handle to its own sandbox object
(syscall 13, which the default policy does not deny); `setuid` then reaches its handler and
succeeds. -/
theorem restriction_lifted : ReflTransGen KStep bootKernel sandboxedKernel ∧ HoldsSandbox sandboxedKernel 0 1 1 49 ∧
      KStep sandboxedKernel (sandboxedKernel.after closeFirst) ∧ (sandboxedKernel.after closeFirst).processOf 1 = 0 ∧
      ((sandboxedKernel.after closeFirst).procs 0).used = true ∧
      (syscallDispatch (sandboxedKernel.after closeFirst) 1 setuid noEnv).map Prod.fst = some (.ret 0) := by
  obtain ⟨out, hout⟩ := step_after sandboxedKernel closeFirst (by decide +kernel)
  exact ⟨sandboxedKernel_reach, sandboxedKernel_holds, ⟨closeFirst, out, by decide +kernel, hout⟩,
    by decide +kernel, by decide +kernel, by decide +kernel⟩

end MinicOs
