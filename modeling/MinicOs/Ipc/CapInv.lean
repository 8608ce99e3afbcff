import MinicOs.Ipc.CapOp

/-!
# Capability integrity of the operations

`CapInv`: every used handle names a used slot of the object table, and `g_object_count` counts the
used slots. Objects carry no reference count, so an operation keeps this only when the objects it
frees are named by the handle it frees and by no other (`CapOp.Safe`).
-/

namespace MinicOs

/-- Every used handle names a used object in range, and the count is right. -/
structure CapInv (c : Caps) : Prop where
  handle : ∀ p h, (c.handles p h).used = true → 0 ≤ (c.handles p h).objectIndex ∧
    (c.handles p h).objectIndex < objectSlots ∧
    (c.objects (c.handles p h).objectIndex).used = true
  count : c.objectCount = c.usedObjects

/-- No other used handle names the object that handle `h` of `p` names. -/
def SoleHandle (c : Caps) (p h : Int) : Prop :=
  ∀ q g, (c.handles q g).used = true → (c.handles q g).objectIndex = (c.handles p h).objectIndex →
    q = p ∧ g = h

/-- What the handlers check before the operation. -/
def CapOp.Valid (c : Caps) : CapOp → Prop
  | .grant caller _ hs => ∀ h ∈ hs, (c.handles caller h).used = true
  | .close p h => (c.handles p h).used = true
  | _ => True

/-- The operation frees an object only with the one handle that names it, and a process is
registered only while there is an object slot for it. -/
def CapOp.Safe (c : Caps) : CapOp → Prop
  | .close p h => SoleHandle c p h
  | .closeAll p => ∀ h : Nat, h < handlesPerProcess → (c.handles p h).used = true → SoleHandle c p h
  | .finish p h o => (c.handles p h).used = true ∧ (c.handles p h).objectIndex = o ∧ SoleHandle c p h
  | .spawn _ _ => ∃ i : Nat, i < objectSlots ∧ (c.objects i).used = false
  | _ => True

/-- Used handles and used objects are kept. -/
structure Grows (c c' : Caps) : Prop where
  handles : ∀ p h, (c.handles p h).used = true → c'.handles p h = c.handles p h
  objects : ∀ o, (c.objects o).used = true → c'.objects o = c.objects o

/-- Handles and objects only lose their `used` flag. -/
structure Shrinks (c c' : Caps) : Prop where
  handles : ∀ p h, (c'.handles p h).objectIndex = (c.handles p h).objectIndex ∧
    ((c'.handles p h).used = true → (c.handles p h).used = true)
  objects : ∀ o, (c'.objects o).type = (c.objects o).type ∧
    (c'.objects o).dataIndex = (c.objects o).dataIndex

/-- A handle used before and after denotes the same object, of the same type and data. -/
def Stable (c c' : Caps) : Prop :=
  ∀ p h, (c.handles p h).used = true → (c'.handles p h).used = true →
    (c'.handles p h).objectIndex = (c.handles p h).objectIndex ∧
    (c'.objects (c'.handles p h).objectIndex).type =
      (c.objects (c.handles p h).objectIndex).type ∧
    (c'.objects (c'.handles p h).objectIndex).dataIndex =
      (c.objects (c.handles p h).objectIndex).dataIndex

section Moves

variable {c c' c'' : Caps}

theorem Grows.refl (c : Caps) : Grows c c := ⟨fun _ _ _ => rfl, fun _ _ => rfl⟩

theorem Grows.trans (h : Grows c c') (h' : Grows c' c'') : Grows c c'' := by
  constructor
  · intro p g hu
    have h1 := h.handles p g hu
    rw [h'.handles p g (by rw [h1]; exact hu), h1]
  · intro o hu
    have h1 := h.objects o hu
    rw [h'.objects o (by rw [h1]; exact hu), h1]

theorem Shrinks.refl (c : Caps) : Shrinks c c := ⟨fun _ _ => ⟨rfl, id⟩, fun _ => ⟨rfl, rfl⟩⟩

theorem Shrinks.trans (h : Shrinks c c') (h' : Shrinks c' c'') : Shrinks c c'' := by
  constructor
  · intro p g
    exact ⟨(h'.handles p g).1.trans (h.handles p g).1, fun hu => (h.handles p g).2 ((h'.handles p g).2 hu)⟩
  · intro o
    exact ⟨(h'.objects o).1.trans (h.objects o).1, (h'.objects o).2.trans (h.objects o).2⟩

theorem Grows.stable (hi : CapInv c) (h : Grows c c') : Stable c c' := by
  intro p g hu _
  have h1 := h.handles p g hu
  have h2 := h.objects _ (hi.handle p g hu).2.2
  rw [h1, h2]
  exact ⟨rfl, rfl, rfl⟩

theorem Shrinks.stable (h : Shrinks c c') : Stable c c' := by
  intro p g _ _
  rw [(h.handles p g).1]
  exact ⟨rfl, (h.objects _).1, (h.objects _).2⟩

end Moves

/-! ## The allocations -/

section Alloc

variable {c : Caps}

theorem allocObject_grows (c : Caps) (t : ObjType) (e : Int) : Grows c (allocObject c t e).2 := by
  rcases allocObject_cases c t e with ⟨i, -, -, hu, heq⟩ | ⟨-, heq⟩
  · rw [heq]
    refine ⟨fun _ _ _ => rfl, fun o ho => ?_⟩
    rw [takeObject_objects, if_neg]
    rintro rfl
    rw [ho] at hu
    exact Bool.noConfusion hu
  · rw [heq]; exact Grows.refl c

theorem allocHandle_grows (c : Caps) (p o : Int) (r : Nat) : Grows c (allocHandle c p o r).2 := by
  rcases allocHandle_cases c p o r with ⟨i, -, -, hu, heq⟩ | ⟨-, heq⟩
  · rw [heq]
    refine ⟨fun q g hg => ?_, fun _ _ => rfl⟩
    show (c.setHandle p i _).handles q g = _
    rw [setHandle_handles, if_neg]
    rintro ⟨rfl, rfl⟩
    rw [hg] at hu
    exact Bool.noConfusion hu
  · rw [heq]; exact Grows.refl c

theorem policyCreate_grows (c : Caps) (lo hi : U64) : Grows c (sandboxPolicyCreate c lo hi).2 := by
  unfold sandboxPolicyCreate
  split
  · exact ⟨fun _ _ _ => rfl, fun _ _ => rfl⟩
  · exact Grows.refl c

/-- What a successful `alloc_object` answers is a used slot of the table. -/
theorem allocObject_index {t : ObjType} {e : Int} (h : 0 ≤ (allocObject c t e).1) : (allocObject c t e).1 < objectSlots ∧
      ((allocObject c t e).2.objects (allocObject c t e).1).used = true := by
  rcases allocObject_cases c t e with ⟨i, -, hlt, -, heq⟩ | ⟨-, heq⟩
  · rw [heq]
    refine ⟨Int.ofNat_lt.mpr hlt, ?_⟩
    rw [takeObject_objects, if_pos rfl]
  · rw [heq] at h
    exact absurd h (by decide : ¬ (0 : Int) ≤ -1)

variable (hi : CapInv c)
include hi

theorem CapInv.allocObject (t : ObjType) (e : Int) : CapInv (allocObject c t e).2 := by
  have hg := allocObject_grows c t e
  rcases allocObject_cases c t e with ⟨i, -, hlt, hu, heq⟩ | ⟨-, heq⟩
  · rw [heq] at hg ⊢
    constructor
    · intro p h hh
      obtain ⟨h0, h1, h2⟩ := hi.handle p h hh
      refine ⟨h0, h1, ?_⟩
      rw [takeObject_handles, hg.objects _ h2]
      exact h2
    · have htake : (c.takeObject i t e).usedObjects = c.usedObjects + 1 :=
        usedObjects_take hlt hu (by rw [takeObject_objects, if_pos rfl])
          fun j _ hj => by rw [takeObject_objects, if_neg (by omega)]
      rw [takeObject_objectCount, htake, hi.count]
      push_cast
      rfl
  · rw [heq]; exact hi

/-- A handle to a used object in range keeps the invariant. -/
theorem CapInv.allocHandle (p : Int) {o : Int} (r : Nat) (h0 : 0 ≤ o)
    (h32 : o < objectSlots) (hu : (c.objects o).used = true) : CapInv (allocHandle c p o r).2 := by
  rcases allocHandle_cases c p o r with ⟨i, -, -, -, heq⟩ | ⟨-, heq⟩
  · rw [heq]
    refine ⟨fun q g hg => ?_, hi.count⟩
    change ((c.setHandle p i _).handles q g).used = true at hg
    show 0 ≤ ((c.setHandle p i _).handles q g).objectIndex ∧
      ((c.setHandle p i _).handles q g).objectIndex < objectSlots ∧
      (c.objects ((c.setHandle p i _).handles q g).objectIndex).used = true
    rw [setHandle_handles] at hg ⊢
    split at hg
    · rename_i heq'
      rw [if_pos heq']
      exact ⟨h0, h32, hu⟩
    · rename_i hne
      rw [if_neg hne]
      exact hi.handle q g hg
  · rw [heq]; exact hi

theorem CapInv.policyCreate (lo hi' : U64) : CapInv (sandboxPolicyCreate c lo hi').2 := by
  unfold sandboxPolicyCreate
  split
  · exact ⟨hi.handle, hi.count⟩
  · exact hi

/-- Taking an unused slot and giving it back keeps the invariant: no handle names it. -/
theorem CapInv.take_free {i : Nat} (hu : (c.objects i).used = false) (t : ObjType) (e : Int) :
    CapInv (freeObject (c.takeObject i t e) i) ∧ Grows c (freeObject (c.takeObject i t e) i) := by
  have hobj : ∀ o, (c.objects o).used = true →
      (freeObject (c.takeObject i t e) i).objects o = c.objects o := by
    intro o ho
    have hne : o ≠ (i : Int) := by
      rintro rfl
      rw [ho] at hu
      exact Bool.noConfusion hu
    rw [freeObject_objects, if_neg hne, takeObject_objects, if_neg hne]
  refine ⟨⟨fun p h hh => ?_, ?_⟩, fun _ _ _ => rfl, hobj⟩
  · rw [freeObject_handles, takeObject_handles] at hh ⊢
    obtain ⟨h0, h1, h2⟩ := hi.handle p h hh
    exact ⟨h0, h1, by rw [hobj _ h2]; exact h2⟩
  · rw [freeObject_objectCount, takeObject_objectCount, hi.count]
    have : (freeObject (c.takeObject i t e) i).usedObjects = c.usedObjects := by
      refine usedObjects_congr fun j _ => ?_
      rw [freeObject_objects]
      split
      · rename_i hj
        rw [hj, hu]
      · rename_i hj
        rw [takeObject_objects, if_neg hj]
    omega

theorem CapInv.createObject (p : Int) (t : ObjType) (e : Int) (r : Nat) (f : Bool) :
    CapInv (createObject c p t e r f).2 ∧ Grows c (createObject c p t e r f).2 := by
  unfold MinicOs.createObject
  simp only
  have h1 := hi.allocObject t e
  have g1 := allocObject_grows c t e
  split
  · exact ⟨h1, g1⟩
  · rename_i hpos
    obtain ⟨hlt, hu⟩ := allocObject_index (c := c) (t := t) (e := e) (by omega)
    have h2 := h1.allocHandle p r (by omega) hlt hu
    have g2 := g1.trans (allocHandle_grows _ p (MinicOs.allocObject c t e).1 r)
    rcases allocHandle_cases (MinicOs.allocObject c t e).2 p (MinicOs.allocObject c t e).1 r with
      ⟨i, -, -, -, heq⟩ | ⟨-, heq⟩
    · rw [heq] at h2 g2 ⊢
      rw [if_neg (by omega)]
      exact ⟨h2, g2⟩
    · rw [heq]
      rw [if_pos (show (-1 : Int) < 0 by decide)]
      cases f with
      | false => exact ⟨h1, g1⟩
      | true =>
        rcases allocObject_cases c t e with ⟨i, -, -, hu', heq'⟩ | ⟨-, heq'⟩
        · rw [heq']
          exact hi.take_free hu' t e
        · rw [heq'] at hpos
          exact absurd (show (-1 : Int) < 0 by decide) hpos

theorem CapInv.grantSelf (p : Int) (sandboxed : Bool) (hfree : ∃ i : Nat, i < objectSlots ∧ (c.objects i).used = false) :
    CapInv (grantSelf c p sandboxed) ∧ Grows c (grantSelf c p sandboxed) := by
  obtain ⟨i, hi'⟩ := freeObjectSlot_isSome.mpr hfree
  have hpos : 0 ≤ (MinicOs.allocObject c .process p).1 := by
    unfold MinicOs.allocObject
    rw [hi']
    exact Int.natCast_nonneg i
  obtain ⟨hlt, hu⟩ := allocObject_index hpos
  have h1 : CapInv (grantSelfHandle c p) :=
    (hi.allocObject .process p).allocHandle p rightQuery hpos hlt hu
  have g1 : Grows c (grantSelfHandle c p) := (allocObject_grows c .process p).trans
    (allocHandle_grows _ p (MinicOs.allocObject c .process p).1 rightQuery)
  unfold MinicOs.grantSelf
  split
  · have h2 := h1.policyCreate sandboxDefaultDeniedLow sandboxDefaultDeniedHigh
    have g2 := g1.trans (policyCreate_grows _ sandboxDefaultDeniedLow sandboxDefaultDeniedHigh)
    unfold grantSandbox
    simp only
    split
    · split
      · rename_i hs
        obtain ⟨hlt', hu'⟩ := allocObject_index hs
        exact ⟨(h2.allocObject _ _).allocHandle p 0 hs hlt' hu',
          (g2.trans (allocObject_grows _ _ _)).trans (allocHandle_grows _ _ _ _)⟩
      · exact ⟨h2.allocObject _ _, g2.trans (allocObject_grows _ _ _)⟩
    · exact ⟨h2, g2⟩
  · exact ⟨h1, g1⟩

/-- Grants copy handles that are used, so they name used objects. -/
theorem CapInv.grant (caller target : Int) {hs : List Int} (hv : ∀ h ∈ hs, (c.handles caller h).used = true) :
    CapInv (loopOk (grantOne caller target) hs c).2 ∧ Grows c (loopOk (grantOne caller target) hs c).2 := by
  refine loopOk_inv (P := fun c' => CapInv c' ∧ Grows c c') (fun h hh c' hc' => ?_) ⟨hi, Grows.refl c⟩
  have hu : (c'.handles caller h).used = true := by
    rw [hc'.2.handles caller h (hv h hh)]
    exact hv h hh
  obtain ⟨h0, h1, h2⟩ := hc'.1.handle caller h hu
  exact ⟨hc'.1.allocHandle target _ h0 h1 h2, hc'.2.trans (allocHandle_grows _ _ _ _)⟩

end Alloc

/-! ## The releases -/

section Release

variable {c : Caps}

theorem closeHandle_shrinks (c : Caps) (p h : Int) : Shrinks c (closeHandle c p h) := by
  unfold closeHandle
  constructor
  · intro q g
    rw [freeHandle_handles, freeObject_handles]
    split
    · rename_i heq
      rw [heq.1, heq.2]
      exact ⟨rfl, fun hu => Bool.noConfusion hu⟩
    · exact ⟨rfl, id⟩
  · intro o
    rw [freeHandle_objects, freeObject_objects]
    split
    · rename_i heq
      rw [heq]
      exact ⟨rfl, rfl⟩
    · exact ⟨rfl, rfl⟩

/-- Closing the only handle to an object keeps the invariant. -/
theorem CapInv.closeHandle (hi : CapInv c) {p h : Int} (hu : (c.handles p h).used = true)
    (hs : SoleHandle c p h) : CapInv (closeHandle c p h) := by
  obtain ⟨h0, h1, h2⟩ := hi.handle p h hu
  unfold MinicOs.closeHandle
  constructor
  · intro q g hg
    rw [freeHandle_handles, freeObject_handles] at hg ⊢
    split at hg
    · exact Bool.noConfusion hg
    · rename_i hne
      rw [if_neg hne]
      obtain ⟨k0, k1, k2⟩ := hi.handle q g hg
      refine ⟨k0, k1, ?_⟩
      rw [freeHandle_objects, freeObject_objects, if_neg fun heq => hne (hs q g hg heq)]
      exact k2
  · rw [freeHandle_objectCount, freeObject_objectCount, hi.count]
    obtain ⟨i, hi'⟩ := Int.eq_ofNat_of_zero_le h0
    have htake : c.usedObjects =
        (freeHandle (freeObject c (c.handles p h).objectIndex) p h).usedObjects + 1 := by
      refine usedObjects_take (i := i) (by omega) ?_ ?_ fun j _ hj => ?_
      · rw [freeHandle_objects, freeObject_objects, if_pos hi'.symm]
      · rw [← hi']; exact h2
      · rw [freeHandle_objects, freeObject_objects, if_neg (by omega)]
    rw [htake]
    push_cast
    omega

theorem SoleHandle.shrink {c' : Caps} {p h : Int} (hs : SoleHandle c p h) (hsh : Shrinks c c') : SoleHandle c' p h := by
  intro q g hu heq
  rw [(hsh.handles q g).1, (hsh.handles p h).1] at heq
  exact hs q g ((hsh.handles q g).2 hu) heq

theorem CapInv.closeAll (hi : CapInv c) {p : Int}
    (hs : ∀ h : Nat, h < handlesPerProcess → (c.handles p h).used = true → SoleHandle c p h) :
    CapInv (closeAll c p) ∧ Shrinks c (closeAll c p) := by
  unfold MinicOs.closeAll
  refine List.foldlRecOn (motive := fun c' : Caps => CapInv c' ∧ Shrinks c c') _ _
    ⟨hi, Shrinks.refl c⟩ fun c' hc' g hg => ?_
  split
  · rename_i hu
    have hsole := hs g (List.mem_range.mp hg) ((hc'.2.handles p g).2 hu)
    exact ⟨hc'.1.closeHandle hu (hsole.shrink hc'.2), hc'.2.trans (closeHandle_shrinks c' p g)⟩
  · exact hc'

end Release

/-! ## The operations -/

/-- **A safe operation keeps the invariant**, and handles that stay used keep their object. -/
theorem CapOp.run_inv {c : Caps} (hi : CapInv c) {op : CapOp} (hv : op.Valid c) (hs : op.Safe c) :
    CapInv (op.run c) ∧ Stable c (op.run c) := by
  cases op with
  | keep => exact ⟨hi, (Grows.refl c).stable hi⟩
  | create p t e r f =>
    obtain ⟨h1, h2⟩ := hi.createObject p t e r f
    exact ⟨h1, h2.stable hi⟩
  | grant caller target hs =>
    obtain ⟨h1, h2⟩ := hi.grant caller target hv
    exact ⟨h1, h2.stable hi⟩
  | close p h => exact ⟨hi.closeHandle hv hs, (closeHandle_shrinks c p h).stable⟩
  | closeAll p =>
    obtain ⟨h1, h2⟩ := hi.closeAll hs
    exact ⟨h1, h2.stable⟩
  | finish p h o =>
    obtain ⟨hu, rfl, hsole⟩ := hs
    exact ⟨hi.closeHandle hu hsole, (closeHandle_shrinks c p h).stable⟩
  | spawn p sandboxed =>
    obtain ⟨h1, h2⟩ := hi.grantSelf p sandboxed hs
    exact ⟨h1, h2.stable hi⟩

end MinicOs
