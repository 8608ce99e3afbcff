import Mathlib.Data.List.FinRange
import MinicOs.Mm.Paging

/-!
# An address space as a tree

The tables a process has to itself, seen as a tree below its PML4: the PDPT under `PML4[0]`, a page
directory under each present `PDPT[2..511]`, a page table under each present directory entry.
`tableAt m r pos` is the frame of the table at a position, `leafAt m r pg` the leaf of a page of
the private region. `PDPT[0]` and `PDPT[1]`, which lead into the kernel's tables, are no positions.
-/

namespace MinicOs

/-- A page of the private region, by its indices. -/
structure Page where
  i3 : Nat
  i2 : Nat
  i1 : Nat
  lo : 2 ≤ i3
  lt3 : i3 < 512
  lt2 : i2 < 512
  lt1 : i1 < 512
deriving DecidableEq

def Page.vaddr (pg : Page) : U64 := pageVaddr pg.i3 pg.i2 pg.i1

/-- The address lies in the private region, `PDPT[2..511]` below `PML4[0]`. -/
def Private (v : U64) : Prop := idx4 v = 0 ∧ 2 ≤ idx3 v

instance (v : U64) : Decidable (Private v) := inferInstanceAs (Decidable (_ ∧ _))

theorem idx3_lt (v : U64) : idx3 v < 512 := by rw [idx3_eq]; omega

theorem idx2_lt (v : U64) : idx2 v < 512 := by rw [idx2_eq]; omega

theorem idx1_lt (v : U64) : idx1 v < 512 := by rw [idx1_eq]; omega

/-- The page of a private address. -/
def pageOf (v : U64) (h : Private v) : Page :=
  ⟨idx3 v, idx2 v, idx1 v, h.2, idx3_lt v, idx2_lt v, idx1_lt v⟩

inductive Pos
  | root
  | pdpt
  | pd (i3 : Nat)
  | pt (i3 i2 : Nat)
deriving DecidableEq

/-- The table that entry `i` of the table in frame `f` leads to. -/
def nextTable (m : Mem) (f i : Nat) : Option Nat :=
  if present (m f i) = true then some (frameNum (tablePtr (m f i))) else none

/-- The frame of the table at a position of the address space with PML4 frame `r`. -/
def tableAt (m : Mem) (r : Nat) : Pos → Option Nat
  | .root => some r
  | .pdpt => nextTable m r 0
  | .pd i3 =>
    if 2 ≤ i3 ∧ i3 < 512 then (nextTable m r 0).bind fun f => nextTable m f i3 else none
  | .pt i3 i2 =>
    if (2 ≤ i3 ∧ i3 < 512) ∧ i2 < 512 then
      ((nextTable m r 0).bind fun f => nextTable m f i3).bind fun f => nextTable m f i2
    else none

/-- The present leaf of a page. -/
def leafAt (m : Mem) (r : Nat) (pg : Page) : Option U64 :=
  (tableAt m r (.pt pg.i3 pg.i2)).bind fun f =>
    if present (m f pg.i1) = true then some (m f pg.i1) else none

/-- The position above, and the entry that leads down from it. -/
def Pos.up : Pos → Option (Pos × Nat)
  | .root => none
  | .pdpt => some (.root, 0)
  | .pd i3 => if 2 ≤ i3 ∧ i3 < 512 then some (.pdpt, i3) else none
  | .pt i3 i2 => if (2 ≤ i3 ∧ i3 < 512) ∧ i2 < 512 then some (.pd i3, i2) else none

theorem Pos.up_pdpt : Pos.pdpt.up = some (.root, 0) := rfl

theorem Pos.up_pd {v : U64} (hv : Private v) : (Pos.pd (idx3 v)).up = some (.pdpt, idx3 v) := by
  simp only [Pos.up, if_pos (And.intro hv.2 (idx3_lt v))]

theorem Pos.up_pt {v : U64} (hv : Private v) : (Pos.pt (idx3 v) (idx2 v)).up = some (.pd (idx3 v), idx2 v) := by
  simp only [Pos.up, if_pos (And.intro (And.intro hv.2 (idx3_lt v)) (idx2_lt v))]

variable {i r : Nat} {m : Mem} {pos up : Pos}

theorem Pos.up_cases (h : pos.up = some (up, i)) : (pos = .pdpt ∧ up = .root ∧ i = 0) ∨
    (pos = .pd i ∧ up = .pdpt ∧ 2 ≤ i ∧ i < 512) ∨ ∃ i3, pos = .pt i3 i ∧ up = .pd i3 ∧ (2 ≤ i3 ∧ i3 < 512) ∧ i < 512 := by
  cases pos <;> simp only [Pos.up] at h <;> grind

theorem tableAt_up (h : pos.up = some (up, i)) : tableAt m r pos = (tableAt m r up).bind fun f => nextTable m f i := by
  obtain ⟨rfl, rfl, rfl⟩ | ⟨rfl, rfl, hv⟩ | ⟨i3, rfl, rfl, hv⟩ := Pos.up_cases h
  · rfl
  · simp only [tableAt, if_pos hv]
  · simp only [tableAt, if_pos hv, if_pos hv.1]

theorem tableAt_of_up_none (h : pos.up = none) (hr : pos ≠ .root) : tableAt m r pos = none := by
  cases pos <;> simp_all [Pos.up, tableAt]

/-- **Induction down the tree**: from the root, and from each table to those below it. -/
theorem Pos.induction {P : Pos → Prop} (root : P .root) (down : ∀ pos up i, pos.up = some (up, i) → P up → P pos)
    (out : ∀ pos, pos.up = none → pos ≠ .root → P pos) : ∀ pos, P pos := by
  have hpdpt : P .pdpt := down .pdpt .root 0 rfl root
  have hpd : ∀ i3, P (.pd i3) := by
    intro i3
    by_cases hv : 2 ≤ i3 ∧ i3 < 512
    · exact down _ .pdpt i3 (by simp [Pos.up, hv]) hpdpt
    · exact out _ (by simp [Pos.up, hv]) (by simp)
  intro pos
  cases pos with
  | root => exact root
  | pdpt => exact hpdpt
  | pd i3 => exact hpd i3
  | pt i3 i2 =>
    by_cases hv : (2 ≤ i3 ∧ i3 < 512) ∧ i2 < 512
    · exact down _ (.pd i3) i2 (by simp [Pos.up, hv]) (hpd i3)
    · exact out _ (by simp only [Pos.up, if_neg hv]) (by simp)

variable {f : Nat}

theorem nextTable_eq_none : nextTable m f i = none ↔ present (m f i) = false := by
  unfold nextTable
  cases present (m f i) <;> simp

theorem nextTable_of_not_present (h : present (m f i) = false) : nextTable m f i = none := nextTable_eq_none.mpr h

theorem nextTable_eq_some {n : Nat} (h : nextTable m f i = some n) :
    present (m f i) = true ∧ tablePtr (m f i) = frameAddr n := by
  unfold nextTable at h
  split at h
  · rename_i hp
    cases h
    exact ⟨hp, tablePtr_eq _⟩
  · simp at h

variable {m' : Mem}

theorem nextTable_congr (h : m' f i = m f i) : nextTable m' f i = nextTable m f i := by
  unfold nextTable
  rw [h]

/-- A position with tables below it. -/
def Pos.Inner : Pos → Prop
  | .pt _ _ => False
  | _ => True

theorem Pos.inner_of_up (h : pos.up = some (up, i)) : up.Inner := by
  obtain ⟨-, rfl, -⟩ | ⟨-, rfl, -⟩ | ⟨i3, -, rfl, -⟩ := Pos.up_cases h <;> trivial

/-- Different positions below one table are reached through different entries. -/
theorem Pos.up_inj {pos' : Pos} (h : pos.up = some (up, i)) (h' : pos'.up = some (up, i)) : pos = pos' := by
  cases pos <;> cases pos' <;> simp only [Pos.up] at h h' <;> grind

theorem Pos.up_ne (h : pos.up = some (up, i)) : up ≠ pos := by
  cases pos <;> simp only [Pos.up] at h <;> grind

/-- **The tables depend on the frames of the inner tables only.** -/
theorem tableAt_congr (h : ∀ pos f, pos.Inner → tableAt m r pos = some f → m' f = m f) : tableAt m' r = tableAt m r := by
  funext pos
  induction pos using Pos.induction with
  | root => rfl
  | down pos up i hup ih =>
    rw [tableAt_up hup, tableAt_up hup, ih]
    cases ht : tableAt m r up with
    | none => rfl
    | some f => exact nextTable_congr (congrFun (h up f (Pos.inner_of_up hup) ht) i)
  | out pos hup hr => rw [tableAt_of_up_none hup hr, tableAt_of_up_none hup hr]

/-- **The leaves depend on the frames of the tables only.** -/
theorem leafAt_congr (h : ∀ pos f, tableAt m r pos = some f → m' f = m f) : leafAt m' r = leafAt m r := by
  funext pg
  unfold leafAt
  rw [tableAt_congr fun pos f _ => h pos f]
  cases ht : tableAt m r (.pt pg.i3 pg.i2) with
  | none => rfl
  | some f => simp only [Option.bind_some, h _ f ht]

end MinicOs
