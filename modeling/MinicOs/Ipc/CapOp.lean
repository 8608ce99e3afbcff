import MinicOs.Lib.Loop
import MinicOs.Security.Sandbox

/-!
# Operations on the capability tables

The sequences of `alloc_object`, `free_object`, `alloc_handle`, `free_handle` and
`sandbox_policy_create` calls that the syscall handlers are made of, as operations of an abstract
machine over `Caps`. A syscall changes the four tables by one of these operations
(`step_caps`, in `Syscall/Dispatch.lean`), so what holds of every operation holds of every
syscall.
-/

namespace MinicOs

/-- `(u64) -1`. -/
def errU64 : U64 := -1#64

/-- `(u64) i` of a C `int`. -/
def ofInt (i : Int) : U64 := BitVec.ofInt 64 i

/-- `(int) a`. -/
def toInt32 (a : U64) : Int := (a.setWidth 32).toInt

variable (c : Caps)

/-- The tail of the handlers that open an object: allocate it, then a handle to it. Some handlers
give the object back when there is no handle for it, some leave it used. -/
def createObject (p : Int) (type : ObjType) (dataIndex : Int) (rights : Nat) (freeOnFail : Bool) : U64 × Caps :=
  let ro := allocObject c type dataIndex
  if ro.1 < 0 then (errU64, ro.2)
  else
    let rh := allocHandle ro.2 p ro.1 rights
    if rh.1 < 0 then (errU64, if freeOnFail = true then freeObject rh.2 ro.1 else rh.2)
    else (ofInt rh.1, rh.2)

/-- `free_object` of what a handle names, then `free_handle`. -/
def closeHandle (p h : Int) : Caps :=
  freeHandle (freeObject c (c.handles p h).objectIndex) p h

/-- The handle loop of `process_exit`. -/
def closeAll (p : Int) : Caps :=
  (List.range handlesPerProcess).foldl
    (fun (c : Caps) (h : Nat) => if (c.handles p h).used = true then closeHandle c p h else c) c

/-- One grant: copy the caller's handle into the target's table. -/
def grantOne (caller target : Int) (h : Int) (c : Caps) : Bool × Caps :=
  let r := allocHandle c target (c.handles caller h).objectIndex (c.handles caller h).rights
  (decide (0 ≤ r.1), r.2)

/-- The self handle `spawn_process` and `fork` give a new process. -/
def grantSelfHandle (p : Int) : Caps :=
  let ro := allocObject c .process p
  (allocHandle ro.2 p ro.1 rightQuery).2

/-- The restriction `spawn_process` gives a sandboxed one: a default policy, an object for it and a
handle, as far as there is room. -/
def grantSandbox (p : Int) : Caps :=
  let rp := sandboxPolicyCreate c sandboxDefaultDeniedLow sandboxDefaultDeniedHigh
  if 0 ≤ rp.1 then
    let rs := allocObject rp.2 .sandbox rp.1
    if 0 ≤ rs.1 then (allocHandle rs.2 p rs.1 0).2 else rs.2
  else rp.2

/-- What registering a process does to the tables. -/
def grantSelf (p : Int) (sandboxed : Bool) : Caps :=
  if sandboxed = true then grantSandbox (grantSelfHandle c p) p else grantSelfHandle c p

/-- The operations. `finish` is the tail of a blocking wait, which frees the object and the handle
it read before it blocked. -/
inductive CapOp
  | keep
  | create (p : Int) (type : ObjType) (dataIndex : Int) (rights : Nat) (freeOnFail : Bool)
  | grant (caller target : Int) (hs : List Int)
  | close (p h : Int)
  | closeAll (p : Int)
  | finish (p h o : Int)
  | spawn (p : Int) (sandboxed : Bool)

def CapOp.run : CapOp → Caps
  | .keep => c
  | .create p type d r f => (createObject c p type d r f).2
  | .grant caller target hs => (loopOk (grantOne caller target) hs c).2
  | .close p h => closeHandle c p h
  | .closeAll p => MinicOs.closeAll c p
  | .finish p h o => freeHandle (freeObject c o) p h
  | .spawn p sandboxed => grantSelf c p sandboxed

/-- Which process records are in use after an operation. -/
def CapOp.records (used : Int → Bool) : CapOp → Int → Bool
  | .closeAll p => Function.update used p false
  | .spawn p _ => Function.update used p true
  | _ => used

def CapOp.FreesObject (o : Int) : CapOp → Prop
  | .close p h => (c.handles p h).objectIndex = o
  | .closeAll p => ∃ h : Nat, h < handlesPerProcess ∧ (c.handles p h).used = true ∧
      (c.handles p h).objectIndex = o
  | .finish _ _ o' => o' = o
  | _ => False

/-- The operation frees handle `h` of process `p`. -/
def CapOp.FreesHandle (p h : Int) : CapOp → Prop
  | .close q g => q = p ∧ g = h
  | .closeAll q => q = p
  | .finish q g _ => q = p ∧ g = h
  | _ => False

/-! ## What opening an object does -/

theorem ofInt_handle_toInt {i : Nat} (hi : i < handlesPerProcess) : (ofInt i).toInt = i := by
  unfold handlesPerProcess at hi
  unfold ofInt
  rw [BitVec.toInt_ofInt]
  exact Int.bmod_eq_of_le (by omega) (by omega)

theorem errU64_toInt : errU64.toInt = -1 := by decide

theorem ofInt_handle_ne {i : Nat} (hi : i < handlesPerProcess) : ofInt i ≠ errU64 := fun h => by
  have h' := congrArg BitVec.toInt h
  rw [ofInt_handle_toInt hi, errU64_toInt] at h'
  omega

/-- **What opening an object does**: it takes the first unused object slot and the first unused
handle; without an object nothing; without a handle the object alone, or nothing but what is left in
the slot it gave back. -/
theorem createObject_cases (p : Int) (type : ObjType) (d : Int) (rights : Nat) (free : Bool) :
    (c.freeObjectSlot = none ∧ createObject c p type d rights free = (errU64, c)) ∨
      (∃ i : Nat, c.freeObjectSlot = some i ∧ c.freeHandleSlot p = none ∧
        createObject c p type d rights free = (errU64, if free = true then
          freeObject (c.takeObject i type d) i else c.takeObject i type d)) ∨
      ∃ i j : Nat, c.freeObjectSlot = some i ∧ c.freeHandleSlot p = some j ∧
        createObject c p type d rights free = (ofInt j, (c.takeObject i type d).setHandle p j
          { used := true, objectIndex := i, rights := rights }) := by
  unfold createObject
  obtain ⟨i, hs, -, -, ho⟩ | ⟨hs, ho⟩ := allocObject_cases c type d
  · have hi : ¬ (i : Int) < 0 := by omega
    right
    obtain ⟨j, hj, -, -, hh⟩ | ⟨hj, hh⟩ := allocHandle_cases (c.takeObject i type d) p i rights
    · have hj0 : ¬ (j : Int) < 0 := by omega
      exact .inr ⟨i, j, hs, hj, by simp only [ho, hh, if_neg hi, if_neg hj0]⟩
    · refine .inl ⟨i, hs, hj, ?_⟩
      simp only [ho, hh, if_neg hi]
      rfl
  · exact .inl ⟨hs, by simp only [ho]; rfl⟩

/-- An object and a handle of process `p` are free. -/
def Caps.Room (c : Caps) (p : Int) : Prop := c.freeObjectSlot ≠ none ∧ c.freeHandleSlot p ≠ none

theorem createObject_eq_err_iff {c : Caps} {p d : Int} {type : ObjType} {rights : Nat} {free : Bool} :
    (createObject c p type d rights free).1 = errU64 ↔ ¬ c.Room p := by
  unfold Caps.Room
  obtain ⟨ho, heq⟩ | ⟨i, ho, hh, heq⟩ | ⟨i, j, ho, hj, heq⟩ := createObject_cases c p type d rights free
  · simp [heq, ho]
  · simp [heq, hh]
  · simp [heq, ho, hj, ofInt_handle_ne (freeHandleSlot_some hj).1]

/-- Opening an object leaves the others with their type and data. -/
theorem createObject_object (p : Int) (type : ObjType) (d : Int) (rights : Nat) (free : Bool) (o : Int) :
    let x := (createObject c p type d rights free).2.objects o
    (x.type = type ∧ x.dataIndex = d) ∨ (x.type = (c.objects o).type ∧ x.dataIndex = (c.objects o).dataIndex) := by
  obtain ⟨-, heq⟩ | ⟨i, -, -, heq⟩ | ⟨i, j, -, -, heq⟩ := createObject_cases c p type d rights free
  · exact .inr ⟨by rw [heq], by rw [heq]⟩
  all_goals
    by_cases ho : o = i
    · refine .inl ?_
      rw [heq]
      cases free <;> simp [ho, takeObject_objects, freeObject_objects, Caps.setHandle]
    · refine .inr ?_
      rw [heq]
      cases free <;> simp [ho, takeObject_objects, freeObject_objects, Caps.setHandle]

/-! ## A restriction in force

`Restricts c p h o d num`: handle `h` of process `p` names the used sandbox object `o`, whose
policy `d` is taken and denies syscall `num`. -/

structure Restricts (c : Caps) (p h o d : Int) (num : U64) : Prop where
  used : (c.handles p h).used = true
  names : (c.handles p h).objectIndex = o
  live : (c.objects o).used = true
  type : (c.objects o).type = .sandbox
  data : (c.objects o).dataIndex = d
  policy : (c.policies d).used = true
  denies : policyDenies (c.policies d) num = true

section Restricts

variable {c : Caps} {p h o d : Int} {num : U64}

section

variable (hr : Restricts c p h o d num)
include hr

/-- The restriction reads one handle, one object and one policy. -/
theorem Restricts.congr {c' : Caps} (hh : c'.handles p h = c.handles p h) (ho : c'.objects o = c.objects o)
    (hp : c'.policies d = c.policies d) : Restricts c' p h o d num := by
  constructor
  · rw [hh]; exact hr.used
  · rw [hh]; exact hr.names
  · rw [ho]; exact hr.live
  · rw [ho]; exact hr.type
  · rw [ho]; exact hr.data
  · rw [hp]; exact hr.policy
  · rw [hp]; exact hr.denies

/-- A restriction in force is seen by `sandbox_denies`. -/
theorem Restricts.sandboxDenies (hp0 : 0 ≤ p) (hp8 : p < maxProcesses) (hh0 : 0 ≤ h) (hh8 : h < handlesPerProcess) :
    sandboxDenies c p num = true := by
  rw [sandboxDenies_iff hp0 hp8]
  refine ⟨h.toNat, by omega, ?_⟩
  rw [Int.toNat_of_nonneg hh0, handleDenies_iff, hr.names, hr.data]
  exact ⟨hr.used, hr.type, hr.denies⟩

theorem Restricts.allocObject (t : ObjType) (e : Int) : Restricts (allocObject c t e).2 p h o d num := by
  rcases allocObject_cases c t e with ⟨i, -, -, hu, heq⟩ | ⟨-, heq⟩
  · rw [heq]
    have hne : o ≠ (i : Int) := by
      rintro rfl
      rw [hr.live] at hu
      exact Bool.noConfusion hu
    exact hr.congr rfl (by rw [takeObject_objects, if_neg hne]) rfl
  · rw [heq]; exact hr

theorem Restricts.allocHandle (q o' : Int) (r : Nat) : Restricts (allocHandle c q o' r).2 p h o d num := by
  rcases allocHandle_cases c q o' r with ⟨i, -, -, hu, heq⟩ | ⟨-, heq⟩
  · rw [heq]
    refine hr.congr ?_ rfl rfl
    show (c.setHandle q i _).handles p h = _
    rw [setHandle_handles, if_neg]
    rintro ⟨rfl, rfl⟩
    rw [hr.used] at hu
    exact Bool.noConfusion hu
  · rw [heq]; exact hr

theorem Restricts.freeObject {o' : Int} (hne : o ≠ o') : Restricts (freeObject c o') p h o d num :=
  hr.congr rfl (by rw [freeObject_objects, if_neg hne]) rfl

theorem Restricts.freeHandle {q g : Int} (hne : ¬ (q = p ∧ g = h)) : Restricts (freeHandle c q g) p h o d num :=
  hr.congr (by rw [freeHandle_handles, if_neg fun ⟨h1, h2⟩ => hne ⟨h1.symm, h2.symm⟩]) rfl rfl

theorem Restricts.policyCreate (lo hi : U64) : Restricts (sandboxPolicyCreate c lo hi).2 p h o d num := by
  unfold sandboxPolicyCreate
  cases hs : scan sandboxPolicySlots fun i => !(c.policies i).used with
  | none => exact hr
  | some i =>
    obtain ⟨-, hp, -⟩ := scan_eq_some.mp hs
    have hne : d ≠ (i : Int) := by
      rintro rfl
      rw [hr.policy] at hp
      exact Bool.noConfusion hp
    exact hr.congr rfl rfl (Function.update_of_ne hne _ _)

theorem Restricts.createObject (q : Int) (t : ObjType) (e : Int)
    (r : Nat) (f : Bool) : Restricts (createObject c q t e r f).2 p h o d num := by
  unfold MinicOs.createObject
  simp only
  have h1 := hr.allocObject t e
  split
  · exact h1
  · rename_i hpos
    have h2 := h1.allocHandle q (MinicOs.allocObject c t e).1 r
    split
    · split
      · refine h2.freeObject ?_
        -- the object just allocated was unused, the restriction's is used
        rcases allocObject_cases c t e with ⟨i, -, -, hu, heq⟩ | ⟨-, heq⟩
        · rw [heq]
          rintro rfl
          rw [hr.live] at hu
          exact Bool.noConfusion hu
        · rw [heq] at hpos
          exact absurd (show (-1 : Int) < 0 by decide) hpos
      · exact h2
    · exact h2

theorem Restricts.grantSelf (q : Int) (sandboxed : Bool) : Restricts (grantSelf c q sandboxed) p h o d num := by
  have h1 : Restricts (grantSelfHandle c q) p h o d num :=
    (hr.allocObject .process q).allocHandle q (MinicOs.allocObject c .process q).1 rightQuery
  unfold MinicOs.grantSelf
  split
  · have h2 := h1.policyCreate sandboxDefaultDeniedLow sandboxDefaultDeniedHigh
    unfold grantSandbox
    simp only
    split
    · split
      · exact (h2.allocObject _ _).allocHandle _ _ _
      · exact h2.allocObject _ _
    · exact h2
  · exact h1

theorem Restricts.closeHandle {q g : Int} (ho : (c.handles q g).objectIndex ≠ o) (hh : ¬ (q = p ∧ g = h)) :
    Restricts (closeHandle c q g) p h o d num :=
  (hr.freeObject ho.symm).freeHandle hh

theorem Restricts.closeAll {q : Int} (hq : q ≠ p) (ho : ∀ g : Nat, g < handlesPerProcess → (c.handles q g).used = true →
      (c.handles q g).objectIndex ≠ o) : Restricts (closeAll c q) p h o d num := by
  unfold MinicOs.closeAll
  -- along the loop the handles of `q` only lose their `used` flag
  refine (List.foldlRecOn (motive := fun c' : Caps => Restricts c' p h o d num ∧
      ∀ g : Nat, (c'.handles q g).objectIndex = (c.handles q g).objectIndex ∧
        ((c'.handles q g).used = true → (c.handles q g).used = true))
    _ _ ⟨hr, fun _ => ⟨rfl, id⟩⟩ fun c' hc' g hg => ?_).1
  obtain ⟨hr', hsub⟩ := hc'
  split
  · rename_i hu
    refine ⟨hr'.closeHandle ?_ fun h => hq h.1, fun g' => ?_⟩
    · rw [(hsub g).1]
      exact ho g (List.mem_range.mp hg) ((hsub g).2 hu)
    · unfold MinicOs.closeHandle
      rw [freeHandle_handles, freeObject_handles]
      split
      · rename_i heq
        obtain ⟨-, heq⟩ := heq
        have := hsub g'
        rw [heq] at this ⊢
        exact ⟨this.1, fun h => Bool.noConfusion h⟩
      · exact hsub g'
  · exact ⟨hr', hsub⟩

/-- **A restriction survives every operation** that frees neither its object nor its handle. -/
theorem CapOp.run_keeps {op : CapOp} (ho : ¬ op.FreesObject c o)
    (hh : ¬ op.FreesHandle p h) : Restricts (op.run c) p h o d num := by
  cases op with
  | keep => exact hr
  | create q t e r f => exact hr.createObject q t e r f
  | grant caller target hs =>
    exact loopOk_inv (P := fun c => Restricts c p h o d num)
      (fun g _ c' hc' => hc'.allocHandle _ _ _) hr
  | close q g => exact hr.closeHandle ho hh
  | closeAll q =>
    exact hr.closeAll hh fun g hg hu heq => ho ⟨g, hg, hu, heq⟩
  | finish q g o' => exact (hr.freeObject fun h => ho h.symm).freeHandle hh
  | spawn q sandboxed => exact hr.grantSelf q sandboxed

end

end Restricts

end MinicOs
