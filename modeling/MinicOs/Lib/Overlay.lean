import Mathlib.Data.List.Basic
import Mathlib.Data.List.GetD

/-!
# Fields in an array

An array is a function from offsets; `slice` reads a field, `overlay` writes one. A field reads back
as it was written (`slice_overlay_self`), and a write apart from a field leaves it alone
(`slice_overlay_of_disjoint`).
-/

namespace MinicOs

open List

variable {α : Type*}

/-- The `n` items from offset `o`. -/
def slice (a : Nat → α) (o n : Nat) : List α := (List.range n).map fun k => a (o + k)

/-- The array with the items of `l` written from offset `o`. -/
def overlay (a : Nat → α) (o : Nat) (l : List α) : Nat → α :=
  fun k => if o ≤ k then l.getD (k - o) (a k) else a k

@[simp] theorem length_slice (a : Nat → α) (o n : Nat) : (slice a o n).length = n := by
  simp [slice]

variable {a : Nat → α} {k o : Nat}

theorem getElem?_slice {n : Nat} (hk : k < n) : (slice a o n)[k]? = some (a (o + k)) := by
  simp [slice, hk]

theorem take_slice (a : Nat → α) (o n k : Nat) : (slice a o n).take k = slice a o (min k n) := by
  rw [slice, ← map_take, take_range, slice]

theorem drop_slice (a : Nat → α) (o n k : Nat) : (slice a o n).drop k = slice a (o + k) (n - k) := by
  refine ext_getElem (by simp) fun i _ _ => ?_
  simp [slice, Nat.add_assoc]

theorem slice_add (a : Nat → α) (o m n : Nat) : slice a o (m + n) = slice a o m ++ slice a (o + m) n := by
  conv_lhs => rw [← take_append_drop m (slice a o (m + n)), take_slice, drop_slice]
  rw [Nat.min_eq_left (Nat.le_add_right m n), Nat.add_sub_cancel_left]

variable {l : List α}

theorem overlay_of_lt (h : k < o) : overlay a o l k = a k :=
  if_neg (by omega)

theorem overlay_of_ge (h : o + l.length ≤ k) : overlay a o l k = a k := by
  unfold overlay
  rw [if_pos (by omega), getD_eq_default _ _ (by omega)]

theorem overlay_inside {x : α} (h : l[k]? = some x) : overlay a o l (o + k) = x := by
  unfold overlay
  rw [if_pos (by omega), Nat.add_sub_cancel_left, getD_eq_getElem?_getD, h]
  rfl

/-- **A field reads back as it was written.** -/
theorem slice_overlay_self (a : Nat → α) (o : Nat) (l : List α) : slice (overlay a o l) o l.length = l := by
  refine ext_getElem (by simp) fun k h1 h2 => ?_
  have hk : l[k]? = some l[k] := getElem?_eq_getElem h2
  simp only [slice, getElem_map, getElem_range]
  exact overlay_inside hk

/-- **A write leaves the fields apart from it alone.** -/
theorem slice_overlay_of_disjoint {o' n : Nat} (h : o' + n ≤ o ∨ o + l.length ≤ o') :
    slice (overlay a o l) o' n = slice a o' n := by
  refine map_congr_left fun k hk => ?_
  have hkn := mem_range.mp hk
  rcases h with h | h
  · exact overlay_of_lt (by omega)
  · exact overlay_of_ge (by omega)

theorem overlay_of_disjoint (h : k < o ∨ o + l.length ≤ k) : overlay a o l k = a k :=
  h.elim overlay_of_lt overlay_of_ge

theorem overlay_singleton_self (a : Nat → α) (o : Nat) (x : α) : overlay a o [x] o = x := by
  simp [overlay]

end MinicOs
