import Mathlib.Data.Nat.ModEq
import Mathlib.Logic.Function.Basic

/-!
# Rings

What a ring of `size` slots holds from a position on, as a list.
-/

namespace MinicOs

open List Function

variable {α : Type*} {size head n : Nat}

/-- The `n` entries from `head` on. -/
def ringSlice (size : Nat) (slots : Nat → α) (head n : Nat) : List α :=
  (range n).map fun k => slots ((head + k) % size)

variable (slots : Nat → α)

@[simp] theorem length_ringSlice : (ringSlice size slots head n).length = n := by
  simp [ringSlice]

theorem ringSlice_add (m : Nat) :
    ringSlice size slots head (n + m) = ringSlice size slots head n ++ ringSlice size slots ((head + n) % size) m := by
  rw [ringSlice, range_add, map_append, map_map]
  refine congrArg _ (map_congr_left fun k _ => congrArg slots ?_)
  rw [Nat.mod_add_mod, Nat.add_assoc]

/-- **The front of a ring.** -/
theorem ringSlice_cons (h : head < size) :
    ringSlice size slots head (n + 1) = slots head :: ringSlice size slots ((head + 1) % size) n := by
  rw [Nat.add_comm n, ringSlice_add]
  simp [ringSlice, Nat.mod_eq_of_lt h]

/-- **The slot behind the last one is written.** -/
theorem ringSlice_snoc (h : n < size) (x : α) :
    ringSlice size (update slots ((head + n) % size) x) head (n + 1) = ringSlice size slots head n ++ [x] := by
  rw [ringSlice, range_succ, map_append]
  refine congrArg₂ _ (map_congr_left fun k hk => update_of_ne (fun heq => ?_) _ _) (by simp)
  have hk := mem_range.mp hk
  have hmod := Nat.ModEq.add_left_cancel' head heq
  rw [Nat.ModEq, Nat.mod_eq_of_lt (hk.trans h), Nat.mod_eq_of_lt h] at hmod
  omega

end MinicOs
