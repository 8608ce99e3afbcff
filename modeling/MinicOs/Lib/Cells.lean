import Mathlib.Data.List.GetD
import Mathlib.Data.List.TakeDrop
import MinicOs.Lib.Exec

/-!
# Arrays of C

An array of fixed size whose cells may still be unset. A read of an unset cell and any access outside
the array are undefined.

`Cells.fill a xs` is `a` with `xs` written from its start on: what an array looks like that is written
one cell after the other (`Cells.write_fill`).
-/

namespace MinicOs

open List

universe u

/-- An array; `none` is a cell that was not set. -/
abbrev Cells (α : Type u) := List (Option α)

namespace Cells

variable {α : Type u}

/-- An array nothing was written to. -/
def unset (n : Nat) : Cells α := List.replicate n none

/-- An array with given values. -/
def ofList (xs : List α) : Cells α := xs.map some

/-- `a[i]`. -/
def read (a : Cells α) (i : Nat) : Exec α :=
  match a[i]? with
  | some (some v) => .done v
  | _ => .undefined

/-- `a[i] = v`. -/
def write (a : Cells α) (i : Nat) (v : α) : Exec (Cells α) :=
  if i < a.length then .done (a.set i (some v)) else .undefined

@[simp] theorem length_unset (n : Nat) : (unset n : Cells α).length = n := length_replicate

@[simp] theorem length_ofList (xs : List α) : (ofList xs).length = xs.length := length_map _

variable {a : Cells α} {i : Nat} {v : α}

theorem read_eq (h : a[i]? = some (some v)) : a.read i = .done v := by
  unfold read
  rw [h]

variable {xs : List α}

theorem read_ofList (h : xs[i]? = some v) : (ofList xs).read i = .done v := by
  refine read_eq ?_
  unfold ofList
  rw [getElem?_map, h]
  rfl

theorem write_eq (v : α) (h : i < a.length) : a.write i v = .done (a.set i (some v)) :=
  if_pos h

theorem getElem?_write (h : i < a.length) (j : Nat) : (a.set i (some v))[j]? = if j = i then some (some v) else a[j]? := by
  rw [getElem?_set]
  by_cases hj : j = i
  · rw [if_pos hj.symm, if_pos hj, if_pos h]
  · rw [if_neg (Ne.symm hj), if_neg hj]

theorem read_checks (a : Cells α) (i : Nat) : (a.read i).Checks (fun _ => True) (i < a.length) := by
  unfold read
  split
  · rename_i v hv
    exact .done trivial (List.getElem?_eq_some_iff.mp hv).1
  · exact .undefined

theorem write_checks (a : Cells α) (i : Nat) (v : α) :
    (a.write i v).Checks (fun d => d.length = a.length) (i < a.length) := by
  unfold write
  split
  · rename_i hi
    exact .done (length_set ..) hi
  · exact .undefined

/-- The array begins with `xs`. -/
def Starts (a : Cells α) (xs : List α) : Prop := xs.map some <+: a

theorem Starts.getElem? (h : Starts a xs) (hv : xs[i]? = some v) : a[i]? = some (some v) := by
  obtain ⟨hi, -⟩ := List.getElem?_eq_some_iff.mp hv
  obtain ⟨r, rfl⟩ := h
  rw [getElem?_append_left (by simpa using hi), getElem?_map, hv]
  rfl

theorem Starts.read (h : Starts a xs) (hv : xs[i]? = some v) : a.read i = .done v :=
  read_eq (h.getElem? hv)

theorem starts_of_getElem? (h : ∀ i < xs.length, a[i]? = some xs[i]?) : Starts a xs := by
  refine prefix_iff_getElem?.mpr fun i hi => ?_
  rw [length_map] at hi
  rw [h i hi, getElem_map, getElem?_eq_getElem hi]

theorem starts_ofList (xs : List α) : Starts (ofList xs) xs := prefix_refl _

theorem write_ofList (v : α) (h : i < xs.length) : (ofList xs).write i v = .done (ofList (xs.set i v)) := by
  rw [write_eq v (by simpa using h)]
  unfold ofList
  rw [map_set]

theorem Starts.take (h : Starts a xs) (n : Nat) : Starts a (xs.take n) := by
  unfold Starts
  rw [map_take]
  exact ( take_prefix _ _).trans h

theorem Starts.drop (h : Starts a xs) (n : Nat) : Starts (List.drop n a) (xs.drop n) := by
  obtain ⟨r, rfl⟩ := h
  unfold Starts
  rw [drop_append, map_drop]
  exact prefix_append _ _

/-- The values of an array all of whose cells are set. -/
def contents : Cells α → Exec (List α)
  | [] => .done []
  | none :: _ => .undefined
  | some v :: a => contents a >>= fun vs => .done (v :: vs)

theorem contents_ofList (xs : List α) : contents (ofList xs) = .done xs := by
  induction xs with
  | nil => rfl
  | cons x xs ih =>
    show (contents (ofList xs) >>= fun vs => .done (x :: vs)) = _
    rw [ih]
    rfl

/-! ## Writing from the start on -/

/-- The array with `xs` written from its start on. -/
def fill (a : Cells α) (xs : List α) : Cells α := xs.map some ++ a.drop xs.length

variable {a : Cells α} {xs : List α}

@[simp] theorem fill_nil (a : Cells α) : fill a [] = a := rfl

theorem length_fill (h : xs.length ≤ a.length) : (fill a xs).length = a.length := by
  unfold fill
  rw [length_append, length_map, length_drop]
  omega

theorem getElem?_fill (h : i < xs.length) : (fill a xs)[i]? = some (some (xs.get ⟨i, h⟩)) := by
  unfold fill
  rw [getElem?_append_left (by simpa using h), getElem?_map, getElem?_eq_getElem h]
  rfl

theorem read_fill (h : i < xs.length) : (fill a xs).read i = .done (xs.get ⟨i, h⟩) :=
  read_eq (getElem?_fill h)

theorem write_fill (v : α) (h : xs.length < a.length) : (fill a xs).write xs.length v = .done (fill a (xs ++ [v])) := by
  rw [write_eq v (by rw [length_fill (Nat.le_of_lt h)]; exact h)]
  refine congrArg Exec.done ?_
  unfold fill
  rw [set_append_right _ _ (by simp), length_map, Nat.sub_self, drop_eq_getElem_cons h,
    set_cons_zero, length_append, length_singleton, map_append, append_assoc]
  rfl

theorem starts_fill (a : Cells α) (xs : List α) : Starts (fill a xs) xs := ⟨a.drop xs.length, rfl⟩

theorem fill_eq_ofList (h : xs.length = a.length) : fill a xs = ofList xs := by
  unfold fill ofList
  rw [h, drop_length, append_nil]

end Cells

end MinicOs
