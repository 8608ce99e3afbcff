import MinicOs.Proc.Boot

/-!
# Sandboxed spawns

What `spawn_process` with `sandboxed` set leaves in the capability tables. The restriction needs a
policy slot, a second object slot and a second handle; each of the three allocations can fail, and
the spawn then goes on without it.
-/

namespace MinicOs

open Caps

def Caps.freePolicySlot (c : Caps) : Option Nat :=
  scan sandboxPolicySlots fun i => !(c.policies i).used

def Caps.secondObjectSlot (c : Caps) : Option Nat :=
  match c.freeObjectSlot with
  | some i => scan objectSlots fun j => !(c.objects j).used && j != i
  | none => none

/-- The second unused handle of a process. -/
def Caps.secondHandleSlot (c : Caps) (p : Int) : Option Nat :=
  match c.freeHandleSlot p with
  | some i => scan handlesPerProcess fun j => !(c.handles p j).used && j != i
  | none => none

/-- The object the self handle of process `p` gets, `-1` if there is none. -/
def Caps.selfObject (c : Caps) : Int := toIndex c.freeObjectSlot

/-- An object slot after the spawn of process `p`: the first unused one holds the process, the
second a sandbox, if there is a policy for it. -/
def Caps.objectAfter (c : Caps) (p o : Int) : KernelObject :=
  if ∃ i, c.freeObjectSlot = some i ∧ o = (i : Int) then { used := true, type := .process, dataIndex := p }
  else
    match c.freePolicySlot with
    | some s =>
      if ∃ i, c.secondObjectSlot = some i ∧ o = (i : Int) then
        { used := true, type := .sandbox, dataIndex := s }
      else c.objects o
    | none => c.objects o

/-- A policy slot after the spawn. -/
def Caps.policyAfter (c : Caps) (d : Int) : SandboxPolicy :=
  if ∃ s, c.freePolicySlot = some s ∧ d = (s : Int) then defaultPolicy else c.policies d

/-- Object `o` denies `num` after the spawn. -/
def Caps.deniesAfter (c : Caps) (p o : Int) (num : U64) : Prop :=
  (c.objectAfter p o).type = .sandbox ∧
    policyDenies (c.policyAfter (c.objectAfter p o).dataIndex) num = true

/-- There is room for the restriction: a policy slot, two object slots, two handles. -/
def Caps.RoomForSandbox (c : Caps) (p : Int) : Prop :=
  (∃ s, c.freePolicySlot = some s) ∧ (∃ i, c.secondObjectSlot = some i) ∧
    ∃ h, c.secondHandleSlot p = some h

/-- The handles that are in the table of `p` before the spawn deny `num` after it; so does the self
handle when it names object `-1` and the memory there looks like a sandbox. -/
def Caps.LeftoverDenies (c : Caps) (p : Int) (num : U64) : Prop :=
  (∃ h : Nat, h < handlesPerProcess ∧ (c.handles p h).used = true ∧ c.deniesAfter p (c.handles p h).objectIndex num) ∨
    (c.freeObjectSlot = none ∧ (∃ h, c.freeHandleSlot p = some h) ∧ c.deniesAfter p (-1) num)

/-! ## The tables after `grantSelf` -/

section GrantSelf

variable {c : Caps} {p : Int}

variable {i : Nat}

theorem freeObjectSlot_take (h : c.freeObjectSlot = some i) (t : ObjType) (d : Int) :
    (c.takeObject i t d).freeObjectSlot = c.secondObjectSlot := by
  unfold secondObjectSlot
  rw [h]
  unfold freeObjectSlot
  congr 1
  funext j
  rw [takeObject_objects]
  by_cases hj : j = i
  · subst hj; simp
  · have : (j : Int) ≠ (i : Int) := by omega
    simp [hj]

theorem freeHandleSlot_set (h : c.freeHandleSlot p = some i) (o : Int) (r : Nat) :
    (c.setHandle p i { used := true, objectIndex := o, rights := r }).freeHandleSlot p =
      c.secondHandleSlot p := by
  unfold secondHandleSlot
  rw [h]
  unfold freeHandleSlot
  congr 1
  funext j
  rw [setHandle_handles]
  by_cases hj : j = i
  · subst hj; simp
  · have : ¬ (p = p ∧ (j : Int) = (i : Int)) := by rintro ⟨-, h⟩; omega
    simp [hj]

theorem allocObject_fst (c : Caps) (t : ObjType) (d : Int) : (allocObject c t d).1 = toIndex c.freeObjectSlot := by
  unfold allocObject
  cases c.freeObjectSlot <;> rfl

theorem grantSelfHandle_objects (o : Int) : (grantSelfHandle c p).objects o =
      if ∃ i, c.freeObjectSlot = some i ∧ o = (i : Int) then { used := true, type := .process, dataIndex := p }
      else c.objects o := by
  have hh : (grantSelfHandle c p).objects = (allocObject c .process p).2.objects := by
    unfold grantSelfHandle allocHandle
    simp only
    split <;> rfl
  rw [hh]
  unfold allocObject
  cases hs : c.freeObjectSlot with
  | none => simp
  | some i =>
    simp only [takeObject_objects, Option.some.injEq, exists_eq_left']

theorem grantSelfHandle_policies : (grantSelfHandle c p).policies = c.policies := by
  unfold grantSelfHandle allocHandle allocObject
  cases c.freeObjectSlot <;> (simp only; split <;> rfl)

theorem grantSelfHandle_freeObjectSlot : (grantSelfHandle c p).freeObjectSlot = c.secondObjectSlot := by
  have hh : (grantSelfHandle c p).freeObjectSlot = (allocObject c .process p).2.freeObjectSlot := by
    unfold grantSelfHandle allocHandle
    simp only
    split <;> rfl
  rw [hh]
  unfold allocObject
  cases hs : c.freeObjectSlot with
  | some i => exact freeObjectSlot_take hs _ _
  | none =>
    unfold secondObjectSlot
    rw [hs]

theorem allocObject_handles (c : Caps) (t : ObjType) (d : Int) : (allocObject c t d).2.handles = c.handles := by
  unfold allocObject
  split <;> rfl

theorem allocObject_freeHandleSlot (c : Caps) (t : ObjType) (d q : Int) :
    (allocObject c t d).2.freeHandleSlot q = c.freeHandleSlot q := by
  unfold freeHandleSlot
  rw [allocObject_handles]

theorem grantSelfHandle_handles (h : Int) : (grantSelfHandle c p).handles p h =
      if ∃ i, c.freeHandleSlot p = some i ∧ h = (i : Int) then
        { used := true, objectIndex := c.selfObject, rights := rightQuery }
      else c.handles p h := by
  unfold grantSelfHandle allocHandle
  simp only
  rw [allocObject_freeHandleSlot]
  cases hs : c.freeHandleSlot p with
  | none => simp [allocObject_handles]
  | some i =>
    simp only [setHandle_handles, true_and, Option.some.injEq, exists_eq_left', allocObject_handles, allocObject_fst]
    rfl

theorem grantSelfHandle_freeHandleSlot : (grantSelfHandle c p).freeHandleSlot p = c.secondHandleSlot p := by
  unfold grantSelfHandle allocHandle
  simp only
  rw [allocObject_freeHandleSlot]
  cases hs : c.freeHandleSlot p with
  | some i =>
    have h := freeHandleSlot_set (c := (allocObject c .process p).2) (p := p) (i := i)
      (by rw [allocObject_freeHandleSlot]; exact hs) (allocObject c .process p).1 rightQuery
    rw [h]
    unfold secondHandleSlot
    rw [allocObject_freeHandleSlot, allocObject_handles]
  | none =>
    rw [allocObject_freeHandleSlot, hs]
    unfold secondHandleSlot
    rw [hs]

theorem grantSelfHandle_freePolicySlot : (grantSelfHandle c p).freePolicySlot = c.freePolicySlot := by
  unfold freePolicySlot
  rw [grantSelfHandle_policies]

/-- The tables with the default policy in slot `s`. -/
def withPolicy (c : Caps) (s : Nat) : Caps :=
  { c with policies := Function.update c.policies s defaultPolicy }

theorem sandboxPolicyCreate_eq (c : Caps) :
    sandboxPolicyCreate c sandboxDefaultDeniedLow sandboxDefaultDeniedHigh =
      match c.freePolicySlot with
      | some s => ((s : Int), withPolicy c s)
      | none => (-1, c) := rfl

variable {s : Nat}

/-- **What a sandboxed spawn does**, as far as there is room. -/
theorem grantSelf_cases (c : Caps) (p : Int) : (c.freePolicySlot = none ∧ grantSelf c p true = grantSelfHandle c p) ∨
    ∃ s, c.freePolicySlot = some s ∧ ((c.secondObjectSlot = none ∧ grantSelf c p true = withPolicy (grantSelfHandle c p) s) ∨
        ∃ j, c.secondObjectSlot = some j ∧ grantSelf c p true =
          (allocHandle ((withPolicy (grantSelfHandle c p) s).takeObject j .sandbox s) p j 0).2) := by
  show (_ ∧ grantSandbox (grantSelfHandle c p) p = _) ∨ ∃ s, _ ∧ ((_ ∧ grantSandbox (grantSelfHandle c p) p = _) ∨
    ∃ j, _ ∧ grantSandbox (grantSelfHandle c p) p = _)
  unfold grantSandbox allocObject
  rw [sandboxPolicyCreate_eq, grantSelfHandle_freePolicySlot]
  cases c.freePolicySlot with
  | none => exact .inl ⟨rfl, rfl⟩
  | some s =>
    refine .inr ⟨s, rfl, ?_⟩
    simp only [if_pos (Int.natCast_nonneg s),
      show (withPolicy (grantSelfHandle c p) s).freeObjectSlot = _ from grantSelfHandle_freeObjectSlot]
    cases c.secondObjectSlot with
    | none => exact .inl ⟨rfl, rfl⟩
    | some j => exact .inr ⟨j, rfl, if_pos (Int.natCast_nonneg j)⟩

/-- The second unused object slot is unused and is not the first. -/
theorem secondObjectSlot_some {j : Nat} (h : c.secondObjectSlot = some j) :
    (c.objects j).used = false ∧ c.freeObjectSlot ≠ some j := by
  unfold secondObjectSlot at h
  split at h
  · rename_i i hi
    obtain ⟨-, hp, -⟩ := scan_eq_some.mp h
    simp only [Bool.and_eq_true, Bool.not_eq_eq_eq_not, Bool.not_true, bne_iff_ne] at hp
    exact ⟨hp.1, fun hj => hp.2 (Option.some.inj (hj.symm.trans hi))⟩
  · simp at h

theorem grantSelf_objects (o : Int) : (grantSelf c p true).objects o = c.objectAfter p o := by
  unfold objectAfter
  rcases grantSelf_cases c p with ⟨hs, heq⟩ | ⟨s, hs, ⟨ho, heq⟩ | ⟨j, ho, heq⟩⟩
  · rw [heq, hs, grantSelfHandle_objects]
  · rw [heq, hs, ho]
    show (grantSelfHandle c p).objects o = _
    rw [grantSelfHandle_objects]
    simp
  · have hobj : ∀ c' : Caps, (allocHandle c' p j 0).2.objects = c'.objects := by
      intro c'
      unfold allocHandle
      split <;> rfl
    rw [heq, hs, ho, hobj, takeObject_objects]
    show (if o = (j : Int) then _ else (grantSelfHandle c p).objects o) = _
    rw [grantSelfHandle_objects]
    simp only [Option.some.injEq, exists_eq_left']
    by_cases hoj : o = (j : Int)
    · have hne : ¬ ∃ i, c.freeObjectSlot = some i ∧ o = (i : Int) := fun ⟨i, hi, hoi⟩ =>
        (secondObjectSlot_some ho).2 (by rw [hi]; exact congrArg some (by omega))
      rw [if_pos hoj, if_neg hne, if_pos hoj]
    · rw [if_neg hoj, if_neg hoj]

theorem grantSelf_policies (d : Int) : (grantSelf c p true).policies d = c.policyAfter d := by
  have hpol : ∀ s : Nat, (withPolicy (grantSelfHandle c p) s).policies d =
      if d = (s : Int) then defaultPolicy else c.policies d := fun s => by
    show Function.update (grantSelfHandle c p).policies s defaultPolicy d = _
    rw [grantSelfHandle_policies, Function.update_apply]
  unfold policyAfter
  rcases grantSelf_cases c p with ⟨hs, heq⟩ | ⟨s, hs, ⟨-, heq⟩ | ⟨j, -, heq⟩⟩
  · rw [heq, hs, grantSelfHandle_policies]
    simp
  · simp only [heq, hs, hpol, Option.some.injEq, exists_eq_left']
  · simp only [hs, Option.some.injEq, exists_eq_left', ← hpol]
    rw [heq]
    unfold allocHandle
    split <;> rfl

/-- With room for the restriction, the second unused handle gets it and the others are as the self
handle left them; without, all of them are. -/
theorem grantSelf_handles : (∃ (s j : Nat) (g : Nat), c.freePolicySlot = some s ∧ c.secondObjectSlot = some j ∧
        c.secondHandleSlot p = some g ∧ ∀ h, (grantSelf c p true).handles p h =
          if h = (g : Int) then { used := true, objectIndex := j, rights := 0 }
          else (grantSelfHandle c p).handles p h) ∨
      (¬ c.RoomForSandbox p ∧ ∀ h, (grantSelf c p true).handles p h = (grantSelfHandle c p).handles p h) := by
  unfold RoomForSandbox
  rcases grantSelf_cases c p with ⟨hs, heq⟩ | ⟨s, hs, ⟨ho, heq⟩ | ⟨j, ho, heq⟩⟩
  · exact .inr ⟨by simp [hs], fun _ => by rw [heq]⟩
  · exact .inr ⟨by simp [ho], fun _ => by rw [heq]; rfl⟩
  · have hfree : ((withPolicy (grantSelfHandle c p) s).takeObject j .sandbox s).freeHandleSlot p =
        c.secondHandleSlot p := grantSelfHandle_freeHandleSlot
    unfold allocHandle at heq
    rw [hfree] at heq
    cases hh : c.secondHandleSlot p with
    | none =>
      rw [hh] at heq
      exact .inr ⟨by simp, fun _ => by rw [heq]; rfl⟩
    | some g =>
      rw [hh] at heq
      refine .inl ⟨s, j, g, hs, ho, rfl, fun h => ?_⟩
      rw [heq]
      simp only [setHandle_handles, true_and]
      rfl

/-- The object of the self handle denies nothing when there is one. -/
theorem not_deniesAfter_self (hi : c.freeObjectSlot = some i) (num : U64) : ¬ c.deniesAfter p i num := by
  rintro ⟨ht, -⟩
  unfold objectAfter at ht
  rw [if_pos ⟨i, hi, rfl⟩] at ht
  simp at ht

theorem objectAfter_second {j : Nat} (hs : c.freePolicySlot = some s) (hj : c.secondObjectSlot = some j) :
    c.objectAfter p j = { used := true, type := .sandbox, dataIndex := s } := by
  unfold objectAfter
  rw [if_neg fun ⟨i, hi, hji⟩ => (secondObjectSlot_some hj).2 (by rw [hi]; exact congrArg some (by omega)), hs]
  simp only
  rw [if_pos ⟨j, hj, rfl⟩]

/-- The object of the restriction denies what the default policy denies. -/
theorem deniesAfter_second {j : Nat} (hs : c.freePolicySlot = some s) (hj : c.secondObjectSlot = some j) (num : U64) :
    c.deniesAfter p j num ↔ policyDenies defaultPolicy num = true := by
  unfold deniesAfter
  rw [objectAfter_second hs hj]
  simp only [true_and]
  unfold policyAfter
  rw [if_pos ⟨s, hs, rfl⟩]

theorem secondHandleSlot_some {g : Nat} (h : c.secondHandleSlot p = some g) :
    g < handlesPerProcess ∧ (c.handles p g).used = false ∧ c.freeHandleSlot p ≠ some g := by
  unfold secondHandleSlot at h
  split at h
  · rename_i i hi
    obtain ⟨hlt, hp, -⟩ := scan_eq_some.mp h
    simp only [Bool.and_eq_true, Bool.not_eq_eq_eq_not, Bool.not_true, bne_iff_ne] at hp
    refine ⟨hlt, hp.1, fun hg => hp.2 ?_⟩
    rw [hi] at hg
    exact (Option.some.inj hg).symm
  · simp at h

section Handles

variable {sandboxed : Bool} {h : Nat}

/-- Every handle but the second unused one is as the self handle leaves it. -/
theorem grantSelf_not_second (hne : c.secondHandleSlot p ≠ some h) :
    (grantSelf c p sandboxed).handles p h = (grantSelfHandle c p).handles p h := by
  cases sandboxed with
  | false => rfl
  | true =>
    rcases grantSelf_handles (c := c) (p := p) with ⟨s, j, g, -, -, hg, hall⟩ | ⟨-, hall⟩
    · rw [hall, if_neg]
      intro heq
      rw [hg] at hne
      exact hne (congrArg some (by omega))
    · exact hall h

theorem grantSelf_kept (hu : (c.handles p h).used = true) : (grantSelf c p sandboxed).handles p h = c.handles p h := by
  rw [grantSelf_not_second fun hg => by simp [(secondHandleSlot_some hg).2.1] at hu, grantSelfHandle_handles, if_neg]
  rintro ⟨i, hi, heq⟩
  rw [heq, (freeHandleSlot_some hi).2] at hu
  exact Bool.noConfusion hu

/-- The first unused handle becomes the self handle. -/
theorem grantSelf_first (hh : c.freeHandleSlot p = some h) : (grantSelf c p sandboxed).handles p h =
    { used := true, objectIndex := c.selfObject, rights := rightQuery } := by
  rw [grantSelf_not_second fun hg => (secondHandleSlot_some hg).2.2 hh, grantSelfHandle_handles, if_pos ⟨h, hh, rfl⟩]

end Handles

/-- **What a sandboxed spawn denies**: the default policy if there is room for it, and what the
handles left in the table deny. -/
theorem grantSelf_denies_iff (h0 : 0 ≤ p) (h8 : p < maxProcesses) (num : U64) :
    sandboxDenies (grantSelf c p true) p num = true ↔
      (c.RoomForSandbox p ∧ policyDenies defaultPolicy num = true) ∨ c.LeftoverDenies p num := by
  rw [sandboxDenies_iff h0 h8]
  simp only [handleDenies_iff, grantSelf_objects, grantSelf_policies]
  -- in terms of the tables before the spawn
  change (∃ h : Nat, h < handlesPerProcess ∧ _ ∧ c.deniesAfter p _ num) ↔ _
  constructor
  · rintro ⟨h, hlt, hu, hd⟩
    -- what the handle is before the restriction is granted
    have hself : ((grantSelfHandle c p).handles p h).used = true →
        c.deniesAfter p ((grantSelfHandle c p).handles p h).objectIndex num →
        c.LeftoverDenies p num := by
      intro hu hd
      rw [grantSelfHandle_handles] at hu hd
      split at hu
      · rename_i hfree
        rw [if_pos hfree] at hd
        obtain ⟨i, hi, -⟩ := hfree
        cases ho : c.freeObjectSlot with
        | none =>
          unfold selfObject at hd
          rw [ho] at hd
          exact .inr ⟨ho, ⟨i, hi⟩, hd⟩
        | some j =>
          unfold selfObject at hd
          rw [ho] at hd
          exact absurd hd (not_deniesAfter_self ho num)
      · rename_i hfree
        rw [if_neg hfree] at hd
        exact .inl ⟨h, hlt, hu, hd⟩
    rcases grantSelf_handles (c := c) (p := p) with ⟨s, j, g, hs, hj, hg, hall⟩ | ⟨-, hall⟩
    · rw [hall] at hu hd
      split at hd
      · exact .inl ⟨⟨⟨s, hs⟩, ⟨j, hj⟩, ⟨g, hg⟩⟩, (deniesAfter_second hs hj num).mp hd⟩
      · rename_i hne
        rw [if_neg hne] at hu
        exact .inr (hself hu hd)
    · rw [hall] at hu hd
      exact .inr (hself hu hd)
  · rintro (⟨hroom, hd⟩ | ⟨h, hlt, hu, hd⟩ | ⟨ho, ⟨i, hi⟩, hd⟩)
    · rcases grantSelf_handles (c := c) (p := p) with ⟨s, j, g, hs, hj, hg, hall⟩ | ⟨hno, -⟩
      · refine ⟨g, (secondHandleSlot_some hg).1, ?_, ?_⟩
        · rw [hall, if_pos rfl]
        · rw [hall, if_pos rfl]
          exact (deniesAfter_second hs hj num).mpr hd
      · exact absurd hroom hno
    · exact ⟨h, hlt, by rw [grantSelf_kept hu]; exact hu, by rw [grantSelf_kept hu]; exact hd⟩
    · refine ⟨i, (freeHandleSlot_some hi).1, by rw [grantSelf_first hi], ?_⟩
      rw [grantSelf_first hi, selfObject, ho]
      exact hd

end GrantSelf

/-! ## The spawn -/

/-- The index a spawn would register its process at, `-1` if the table is full. -/
def Kernel.spawnIndex (k : Kernel) : Int :=
  match findProcessSlot k.procs k.procCount with
  | some i => k.recordIndex i
  | none => -1

/-- A spawn that succeeds registers the process at `spawnIndex`. -/
theorem spawnProcess_index {k k' : Kernel} {image : List U8} {l st : U64} {sandboxed : Bool} {p : Int}
    (h : spawnProcess k image l st sandboxed = some (p, k')) (hp : 0 ≤ p) :
    p = k.spawnIndex ∧ k'.caps = grantSelf k.caps p sandboxed := by
  rcases spawnProcess_cases h with ⟨rfl, -⟩ | ⟨i, hslot, -, hreg⟩
  · exact absurd hp (by decide)
  · obtain ⟨t, mm, sched, -, ⟨-, rfl, -⟩ | ⟨-, rfl, rfl⟩⟩ := registerSpawn_cases hreg
    · exact absurd hp (by decide)
    · refine ⟨?_, rfl⟩
      unfold Kernel.spawnIndex
      rw [hslot]
      rfl

/-- **A sandboxed spawn starts sandboxed iff there was room for it**: the process index is in range
and a policy slot, a second object slot and a second handle of the record's table are free, or the
handles left in that table deny the six default syscalls already. -/
theorem sandboxed_iff {k k' : Kernel} {image : List U8} {l st : U64} {p : Int}
    (h : spawnProcess k image l st true = some (p, k')) (hp : 0 ≤ p) :
    (∀ num ∈ defaultDenied, sandboxDenies k'.caps p num = true) ↔
      k.spawnIndex < maxProcesses ∧ (k.caps.RoomForSandbox k.spawnIndex ∨
        ∀ num ∈ defaultDenied, k.caps.LeftoverDenies k.spawnIndex num) := by
  obtain ⟨hidx, hcaps⟩ := spawnProcess_index h hp
  rw [hcaps, ← hidx]
  by_cases h8 : p < maxProcesses
  · simp only [grantSelf_denies_iff hp h8, h8, true_and]
    constructor
    · intro hall
      by_cases hroom : k.caps.RoomForSandbox p
      · exact .inl hroom
      · refine .inr fun num hnum => ?_
        rcases hall num hnum with ⟨hr, -⟩ | hl
        · exact absurd hr hroom
        · exact hl
    · rintro (hroom | hleft) num hnum
      · exact .inl ⟨hroom, defaultPolicy_denies hnum⟩
      · exact .inr (hleft num hnum)
  · constructor
    · intro hall
      have h6 := hall 6#64 (by decide)
      unfold sandboxDenies at h6
      rw [if_pos (Or.inr (by omega))] at h6
      exact Bool.noConfusion h6
    · rintro ⟨hlt, -⟩
      exact absurd hlt h8

/-- The first sandboxed spawn after boot is sandboxed. -/
theorem sandboxed_iff_boot : (∃ r, spawnProcess bootKernel [0x90] 0x80000000 0x80020000 true =
        some (r, spawned bootKernel true)) ∧
      ∀ num ∈ defaultDenied, sandboxDenies (spawned bootKernel true).caps 0 num = true := by
  have hsome : (spawnProcess bootKernel [0x90] 0x80000000 0x80020000 true).isSome = true := by
    decide +kernel
  have hr0 : (spawnProcess bootKernel [0x90] 0x80000000 0x80020000 true).map Prod.fst = some 0 := by
    decide +kernel
  obtain ⟨r, hr⟩ := spawnProcess_spawned hsome
  have : r = 0 := by
    rw [hr] at hr0
    exact Option.some.inj hr0
  subst this
  refine ⟨⟨0, hr⟩, (sandboxed_iff hr (le_refl 0)).mpr ⟨by decide +kernel, Or.inl ⟨⟨0, ?_⟩, ⟨1, ?_⟩, 1, ?_⟩⟩⟩
  all_goals decide +kernel

/-- The kernel at boot with the eight policy slots taken, as eight sandboxed spawns leave them: no
slot is ever given back. -/
def policiesTaken : Kernel :=
  { bootKernel with caps := { bootCaps with policies := fun _ => defaultPolicy } }

/-- **An unsandboxed start.** With the policy table used up a sandboxed spawn succeeds and denies
nothing. -/
theorem sandboxed_lost : (spawnProcess policiesTaken [0x90] 0x80000000 0x80020000 true).map Prod.fst = some 0 ∧
      ∀ num ∈ defaultDenied, sandboxDenies (spawned policiesTaken true).caps 0 num = false := by
  refine ⟨by decide +kernel, fun num hnum => ?_⟩
  have hall : defaultDenied.all (fun num => !sandboxDenies (spawned policiesTaken true).caps 0 num) =
      true := by decide +kernel
  simpa using List.all_eq_true.mp hall num hnum

end MinicOs
