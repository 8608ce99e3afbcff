import Mathlib.Tactic.Ring
import MinicOs.Lib.Cells

/-!
# Numbers as arrays of words

A number in base `2 ^ w`, the lowest word first. `limbVal f n` is the value of the first `n` words of `f`; an array
*holds* a number if all its cells are set and their value is that number (`HoldsNat`).

A loop that changes an array word by word is followed through the value of the whole array: `limbVal_update` says how it
changes with one word. No invariant has to say which words were changed already.
-/

namespace MinicOs

open List Function Cells Exec Nat

universe u

/-! ## Arrays all of whose cells are set -/

variable {i m : Nat}

namespace Cells

variable {α : Type u} {n : Nat} {f : Nat → α}

/-- The array of `f 0`, `f 1`, and so on. -/
def ofFn (n : Nat) (f : Nat → α) : Cells α := ofList ((List.range n).map f)

@[simp] theorem length_ofFn (n : Nat) (f : Nat → α) : (ofFn n f).length = n := by
  unfold ofFn
  rw [length_ofList, length_map, length_range]

theorem getElem?_ofFn (h : i < n) : (ofFn n f)[i]? = some (some (f i)) := by
  unfold ofFn ofList
  rw [getElem?_map, getElem?_map, getElem?_range h]
  rfl

theorem read_ofFn (h : i < n) : (ofFn n f).read i = .done (f i) := read_eq (getElem?_ofFn h)

theorem ofFn_congr {g : Nat → α} (h : ∀ i < n, f i = g i) : ofFn n f = ofFn n g := by
  unfold ofFn
  rw [map_congr_left fun i hi => h i (mem_range.mp hi)]

theorem write_ofFn (v : α) (h : i < n) : (ofFn n f).write i v = .done (ofFn n (update f i v)) := by
  rw [write_eq v (by rwa [length_ofFn])]
  refine congrArg Exec.done (ext_getElem? fun j => ?_)
  rw [getElem?_write (by rwa [length_ofFn])]
  rcases lt_or_ge j n with hj | hj
  · rw [getElem?_ofFn hj, getElem?_ofFn hj, update_apply]
    split <;> rfl
  · rw [if_neg (by omega), getElem?_eq_none (by rwa [length_ofFn]), getElem?_eq_none (by rwa [length_ofFn])]

/-- **A loop that sets the cells one after the other**, from cell `k` on. -/
theorem count_fill {a : Cells α} (src : Nat → Exec α) {k m : Nat} (h : k + m ≤ a.length)
    (hsrc : ∀ i < m, src i = .done (f (k + i))) :
    count m (fun i b => src i >>= fun v => b.write (k + i) v) (fill a ((List.range k).map f)) =
      .done (fill a ((List.range (k + m)).map f)) := by
  refine count_eq (fun i => fill a ((List.range (k + i)).map f)) fun i hi => ?_
  rw [hsrc i hi, done_bind]
  have hwrite := @write_fill α a ((List.range (k + i)).map f) (f (k + i)) (by
    rw [length_map, length_range]
    omega)
  rw [length_map, length_range] at hwrite
  rw [hwrite, ← add_assoc, range_succ, map_append]
  rfl

variable {a : Cells α}

theorem fill_range (h : a.length = n) : fill a ((List.range n).map f) = ofFn n f :=
  fill_eq_ofList (by rw [length_map, length_range, h])

theorem count_write (src : Nat → Exec α) (ha : m ≤ a.length) (hsrc : ∀ i < m, src i = .done (f i)) :
    count m (fun i b => src i >>= fun v => b.write i v) a = .done (fill a ((List.range m).map f)) := by
  have h := @count_fill α f a src 0 m (by omega) (by simpa using hsrc)
  simp only [zero_add, range_zero, map_nil, fill_nil] at h
  exact h

theorem count_write_all (src : Nat → Exec α) (ha : a.length = n) (hsrc : ∀ i < n, src i = .done (f i)) :
    count n (fun i b => src i >>= fun v => b.write i v) a = .done (ofFn n f) := by
  rw [count_write src (by omega) hsrc, fill_range ha]

end Cells

/-! ## Values -/

section Values

variable {w : Nat}

/-- The value of the first `n` words. -/
def limbVal (f : Nat → BitVec w) : Nat → Nat
  | 0 => 0
  | n + 1 => limbVal f n + (f n).toNat * (2 ^ w) ^ n

variable {f g : Nat → BitVec w} {n : Nat}

theorem limbVal_lt (f : Nat → BitVec w) (n : Nat) : limbVal f n < (2 ^ w) ^ n := by
  induction n with
  | zero => exact one_pos
  | succ n ih =>
    calc limbVal f n + (f n).toNat * (2 ^ w) ^ n < (2 ^ w) ^ n + (f n).toNat * (2 ^ w) ^ n := by omega
      _ = ((f n).toNat + 1) * (2 ^ w) ^ n := by ring
      _ ≤ 2 ^ w * (2 ^ w) ^ n := mul_le_mul_right _ (f n).isLt
      _ = (2 ^ w) ^ (n + 1) := by ring

theorem limbVal_congr (h : ∀ i < n, f i = g i) : limbVal f n = limbVal g n := by
  induction n with
  | zero => rfl
  | succ n ih => rw [limbVal, limbVal, ih fun i hi => h i (by omega), h n (by omega)]

theorem limbVal_zero (h : ∀ i < n, f i = 0) : limbVal f n = 0 := by
  induction n with
  | zero => rfl
  | succ n ih =>
    rw [limbVal, ih fun i hi => h i (by omega), h n (by omega)]
    simp

theorem limbVal_of_zeros (hm : m ≤ n) (h : ∀ i, m ≤ i → i < n → f i = 0) : limbVal f n = limbVal f m := by
  induction n with
  | zero => rw [show m = 0 by omega]
  | succ n ih =>
    rcases lt_or_ge n m with hlt | hge
    · rw [show m = n + 1 by omega]
    · rw [limbVal, ih hge fun i hi hin => h i hi (by omega), h n hge (by omega)]
      simp

theorem limbVal_update_of_le (v : BitVec w) (h : n ≤ i) : limbVal (update f i v) n = limbVal f n :=
  limbVal_congr fun j hj => update_of_ne (by omega) _ _

/-- **One word changes.** -/
theorem limbVal_update (v : BitVec w) (h : i < n) :
    limbVal (update f i v) n + (f i).toNat * (2 ^ w) ^ i = limbVal f n + v.toNat * (2 ^ w) ^ i := by
  induction n with
  | zero => omega
  | succ n ih =>
    rcases Nat.lt_succ_iff_lt_or_eq.mp h with hi | rfl
    · rw [limbVal, limbVal, update_of_ne (by omega)]
      omega
    · rw [limbVal, limbVal, update_self, limbVal_update_of_le v (le_refl _)]
      omega

theorem limbVal_mod {m : Nat} (h : m ≤ n) : limbVal f n % (2 ^ w) ^ m = limbVal f m := by
  induction n with
  | zero =>
    obtain rfl : m = 0 := by omega
    rfl
  | succ n ih =>
    rcases lt_or_ge n m with hm | hm
    · obtain rfl : m = n + 1 := by omega
      exact mod_eq_of_lt (limbVal_lt f _)
    · obtain ⟨k, rfl⟩ := Nat.exists_eq_add_of_le hm
      have hsplit : (f (m + k)).toNat * (2 ^ w) ^ (m + k) = (2 ^ w) ^ m * ((f (m + k)).toNat * (2 ^ w) ^ k) := by ring
      rw [limbVal, hsplit, add_mul_mod_self_left, ih hm]

theorem limbVal_eq_of_lt (h : m ≤ n) (hlt : limbVal f n < (2 ^ w) ^ m) : limbVal f m = limbVal f n := by
  rw [← limbVal_mod h, mod_eq_of_lt hlt]

theorem limbVal_div_mod (h : i < n) : limbVal f n / (2 ^ w) ^ i % 2 ^ w = (f i).toNat := by
  have hpos : 0 < (2 ^ w) ^ i := Nat.pow_pos (Nat.two_pow_pos w)
  have hmod := @limbVal_mod w f n (i + 1) (by omega)
  rw [← mod_mul_right_div_self, ← pow_succ, hmod, limbVal, add_mul_div_right _ _ hpos, div_eq_of_lt (limbVal_lt f i), zero_add]

/-- Word `i` of `v`. -/
def digit (w v i : Nat) : BitVec w := BitVec.ofNat w (v / (2 ^ w) ^ i)

theorem limbVal_digit (v n : Nat) : limbVal (digit w v) n = v % (2 ^ w) ^ n := by
  induction n with
  | zero => rw [pow_zero, mod_one]; rfl
  | succ n ih =>
    rw [limbVal, ih, digit, BitVec.toNat_ofNat, pow_succ, mod_mul, mul_comm]

theorem eq_of_limbVal_eq (h : limbVal f n = limbVal g n) (hi : i < n) : f i = g i := by
  refine BitVec.eq_of_toNat_eq ?_
  rw [← limbVal_div_mod hi, h, limbVal_div_mod hi]

end Values

/-! ## Arrays that hold a number -/

variable {w : Nat} {a : Cells (BitVec w)} {n v : Nat}

/-- The array has `n` words, all set, with the value `v`. -/
def HoldsNat (a : Cells (BitVec w)) (n v : Nat) : Prop := ∃ f, a = ofFn n f ∧ limbVal f n = v

theorem holdsNat_ofFn (f : Nat → BitVec w) (n : Nat) : HoldsNat (ofFn n f) n (limbVal f n) := ⟨f, rfl, rfl⟩

theorem holdsNat_digit (h : v < (2 ^ w) ^ n) : HoldsNat (ofFn n (digit w v)) n v :=
  ⟨_, rfl, by rw [limbVal_digit, mod_eq_of_lt h]⟩

theorem HoldsNat.lt (h : HoldsNat a n v) : v < (2 ^ w) ^ n := by
  obtain ⟨f, -, rfl⟩ := h
  exact limbVal_lt f n

/-- **There is one array that holds `v`.** -/
theorem HoldsNat.eq (h : HoldsNat a n v) : a = ofFn n (digit w v) := by
  have hlt := h.lt
  obtain ⟨f, rfl, hv⟩ := h
  refine ofFn_congr fun i hi => eq_of_limbVal_eq ?_ hi
  rw [limbVal_digit, hv, mod_eq_of_lt hlt]

end MinicOs
