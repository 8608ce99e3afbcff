import Mathlib.Data.List.Count
import MinicOs.Lib.BitString

/-!
# Canonical prefix codes

A list of code lengths, one for each symbol and `0` for a symbol without a code, determines a code: the
codes of one length are consecutive numbers in the order of the symbols, and the first of them follows
from those of the shorter lengths (`firstCode`).

* `code_lt`: under the Kraft inequality every code fits its length.
* `firstCode_shift_le`: the codes of a length lie above all shorter ones.
* `exists_symbol`: the codes of a length are taken one after the other.
-/

namespace MinicOs

open List Nat

/-- The number of codes of length `l`. -/
def codesOf (lengths : List Nat) (l : Nat) : Nat := if l = 0 then 0 else lengths.count l

/-- The first code of length `l`. -/
def firstCode (lengths : List Nat) : Nat → Nat
  | 0 => 0
  | l + 1 => 2 * (firstCode lengths l + codesOf lengths l)

/-- The number of codes shorter than `l`. -/
def firstIndex (lengths : List Nat) : Nat → Nat
  | 0 => 0
  | l + 1 => firstIndex lengths l + codesOf lengths l

/-- Which of the codes of its length symbol `s` has. -/
def rank (lengths : List Nat) (s : Nat) : Nat := (lengths.take s).count (lengths.getD s 0)

/-- The code of symbol `s`. -/
def codeOf (lengths : List Nat) (s : Nat) : Nat := firstCode lengths (lengths.getD s 0) + rank lengths s

/-- The code of symbol `s` as a bit string, highest bit first. -/
def codeword (lengths : List Nat) (s : Nat) : List Bool := msbBits (lengths.getD s 0) (codeOf lengths s)

/-- The Kraft inequality for lengths up to `w`. -/
def Kraft (w : Nat) (lengths : List Nat) : Prop :=
  (lengths.map fun l => if l = 0 then 0 else 2 ^ (w - l)).sum ≤ 2 ^ w

instance (w : Nat) (lengths : List Nat) : Decidable (Kraft w lengths) :=
  inferInstanceAs (Decidable (_ ≤ _))

section Canonical

variable {lengths : List Nat} {w l s : Nat}

theorem codesOf_pos (h : l ≠ 0) : codesOf lengths l = lengths.count l := if_neg h

/-! ## Codes fit their length -/

/-- The codes up to length `l`, counted by the words of length `l` they begin. -/
def mass (lengths : List Nat) (l : Nat) : Nat :=
  (lengths.map fun k => if 0 < k ∧ k ≤ l then 2 ^ (l - k) else 0).sum

theorem mass_succ (lengths : List Nat) (l : Nat) : mass lengths (l + 1) = 2 * mass lengths l + lengths.count (l + 1) := by
  induction lengths with
  | nil => rfl
  | cons k lengths ih =>
    have hone : (if 0 < k ∧ k ≤ l + 1 then 2 ^ (l + 1 - k) else 0) =
        2 * (if 0 < k ∧ k ≤ l then 2 ^ (l - k) else 0) + if k = l + 1 then 1 else 0 := by
      rcases lt_trichotomy k (l + 1) with hk | rfl | hk
      · by_cases h0 : 0 < k
        · rw [if_pos ⟨h0, by omega⟩, if_pos ⟨h0, by omega⟩, if_neg (by omega), Nat.sub_add_comm (by omega),
            pow_succ]
          omega
        · rw [if_neg (by omega), if_neg (by omega), if_neg (by omega)]
      · simp
      · rw [if_neg (by omega), if_neg (by omega), if_neg (by omega)]
    unfold mass at ih ⊢
    rw [map_cons, sum_cons, map_cons, sum_cons, ih, hone, count_cons]
    simp only [beq_iff_eq]
    omega

theorem mass_zero (lengths : List Nat) : mass lengths 0 = 0 := by
  induction lengths with
  | nil => rfl
  | cons k lengths ih =>
    unfold mass at ih ⊢
    rw [map_cons, sum_cons, ih, if_neg (by omega)]

theorem firstCode_add_codesOf (lengths : List Nat) (l : Nat) : firstCode lengths l + codesOf lengths l = mass lengths l := by
  induction l with
  | zero => rw [mass_zero]; rfl
  | succ l ih => rw [firstCode, ih, mass_succ, codesOf_pos (by omega)]

theorem mass_shift_le (hl : l ≤ w) :
    mass lengths l * 2 ^ (w - l) ≤ (lengths.map fun k => if k = 0 then 0 else 2 ^ (w - k)).sum := by
  induction lengths with
  | nil => simp [mass]
  | cons k lengths ih =>
    unfold mass at ih ⊢
    rw [map_cons, sum_cons, map_cons, sum_cons, add_mul]
    refine Nat.add_le_add ?_ ih
    by_cases hk : 0 < k ∧ k ≤ l
    · rw [if_pos hk, if_neg (by omega), ← pow_add, show l - k + (w - l) = w - k by omega]
    · rw [if_neg hk, zero_mul]
      exact zero_le _

/-- The inequality does not depend on the bound of the lengths. -/
theorem Kraft.widen {w' : Nat} (h : Kraft w lengths) (hle : ∀ l ∈ lengths, l ≤ w) (hw : w ≤ w') : Kraft w' lengths := by
  have hsum : ∀ ls : List Nat, (∀ l ∈ ls, l ≤ w) →
      (ls.map fun l => if l = 0 then 0 else 2 ^ (w' - l)).sum =
        2 ^ (w' - w) * (ls.map fun l => if l = 0 then 0 else 2 ^ (w - l)).sum := by
    intro ls hls
    induction ls with
    | nil => rfl
    | cons l ls ih =>
      have hl := hls l mem_cons_self
      rw [map_cons, sum_cons, map_cons, sum_cons, ih fun k hk => hls k (mem_cons_of_mem l hk), mul_add]
      by_cases h0 : l = 0
      · rw [if_pos h0, if_pos h0]
        rfl
      · rw [if_neg h0, if_neg h0, ← pow_add, show w' - w + (w - l) = w' - l by omega]
  unfold Kraft
  rw [hsum lengths hle, show 2 ^ w' = 2 ^ (w' - w) * 2 ^ w by rw [← pow_add, Nat.sub_add_cancel hw]]
  exact mul_le_mul_left _ h

/-- Under the Kraft inequality the codes of a length fit it. -/
theorem firstCode_add_le (hk : Kraft w lengths) (hl : l ≤ w) : firstCode lengths l + codesOf lengths l ≤ 2 ^ l := by
  rw [firstCode_add_codesOf]
  have hpow : 2 ^ w = 2 ^ l * 2 ^ (w - l) := by rw [← pow_add, Nat.add_sub_cancel' hl]
  have h : mass lengths l * 2 ^ (w - l) ≤ 2 ^ l * 2 ^ (w - l) := hpow ▸ (mass_shift_le hl).trans hk
  exact Nat.le_of_mul_le_mul_right h (Nat.two_pow_pos _)

/-- The rank of a symbol is below the number of codes of its length. -/
theorem rank_lt (h : lengths[s]? = some l) (hl : l ≠ 0) : rank lengths s < codesOf lengths l := by
  obtain ⟨hs, rfl⟩ := List.getElem?_eq_some_iff.mp h
  have hsplit : lengths = lengths.take s ++ lengths[s] :: lengths.drop (s + 1) := by
    rw [← drop_eq_getElem_cons hs, take_append_drop]
  have hcount := congrArg (List.count lengths[s]) hsplit
  rw [count_append, count_cons_self] at hcount
  rw [codesOf_pos hl]
  unfold rank
  rw [getD_eq_getElem?_getD, h]
  show (lengths.take s).count lengths[s] < _
  omega

theorem code_lt (hk : Kraft w lengths) (h : lengths[s]? = some l) (hl : l ≠ 0) (hw : l ≤ w) : codeOf lengths s < 2 ^ l := by
  have hrank := rank_lt h hl
  have hfit := firstCode_add_le hk hw
  unfold codeOf
  rw [getD_eq_getElem?_getD, h]
  show firstCode lengths l + rank lengths s < 2 ^ l
  omega

/-! ## The order of the codes -/

/-- **The codes of a longer length lie above those of a shorter one.** -/
theorem firstCode_shift_le {m : Nat} (h : l < m) :
    (firstCode lengths l + codesOf lengths l) * 2 ^ (m - l) ≤ firstCode lengths m := by
  obtain ⟨k, rfl⟩ := Nat.exists_eq_add_of_lt h
  induction k with
  | zero =>
    rw [show l + 0 + 1 = l + 1 from rfl, firstCode, Nat.add_sub_cancel_left, pow_one]
    omega
  | succ k ih =>
    rw [show l + (k + 1) + 1 = l + k + 1 + 1 from rfl, firstCode,
      show l + k + 1 + 1 - l = l + k + 1 - l + 1 by omega, pow_succ]
    have : (firstCode lengths l + codesOf lengths l) * (2 ^ (l + k + 1 - l) * 2) =
        2 * ((firstCode lengths l + codesOf lengths l) * 2 ^ (l + k + 1 - l)) := by ring
    omega

theorem firstIndex_mono {m : Nat} (h : l ≤ m) : firstIndex lengths l ≤ firstIndex lengths m := by
  induction m with
  | zero => rw [le_zero.mp h]
  | succ m ih =>
    rcases lt_or_ge m l with hlt | hge
    · rw [show l = m + 1 by omega]
    · exact (ih hge).trans (le_add_right _ _)

theorem firstIndex_le (lengths : List Nat) (l : Nat) : firstIndex lengths l ≤ lengths.length := by
  have h : firstIndex lengths l = lengths.countP fun k => decide (0 < k ∧ k < l) := by
    induction l with
    | zero => simp [firstIndex]
    | succ l ih =>
      rw [firstIndex, ih]
      rcases Nat.eq_zero_or_pos l with rfl | hl
      · simp only [codesOf, if_true, add_zero]
        refine countP_congr fun k _ => ?_
        simp only [decide_eq_true_eq]
        omega
      · rw [codesOf_pos (by omega), List.count]
        clear ih
        induction lengths with
        | nil => rfl
        | cons k lengths ih' =>
          grind
  rw [h]
  exact countP_le_length

theorem place_ne {i j m r r' : Nat} (hr : r < codesOf lengths l) (hr' : r' < codesOf lengths m)
    (hi : i = firstIndex lengths l + r) (hj : j = firstIndex lengths m + r') (hne : l ≠ m ∨ r ≠ r') : i ≠ j := by
  rcases lt_trichotomy l m with h | rfl | h
  · have := @firstIndex_mono lengths _ _ (succ_le_of_lt h)
    rw [firstIndex] at this
    omega
  · have := hne.resolve_left fun h => h rfl
    omega
  · have := @firstIndex_mono lengths _ _ (succ_le_of_lt h)
    rw [firstIndex] at this
    omega

/-- **Every code of a length belongs to a symbol.** -/
theorem exists_symbol {r : Nat} (hl : l ≠ 0) (hr : r < codesOf lengths l) :
    ∃ s, lengths[s]? = some l ∧ rank lengths s = r := by
  rw [codesOf_pos hl] at hr
  suffices h : ∃ s, lengths[s]? = some l ∧ (lengths.take s).count l = r by
    obtain ⟨s, hs, hcount⟩ := h
    refine ⟨s, hs, ?_⟩
    unfold rank
    rw [getD_eq_getElem?_getD, hs]
    exact hcount
  induction lengths generalizing r with
  | nil => simp at hr
  | cons k lengths ih =>
    by_cases hk : k = l
    · subst hk
      rw [count_cons_self] at hr
      cases r with
      | zero => exact ⟨0, rfl, rfl⟩
      | succ r =>
        obtain ⟨s, hs, hcount⟩ := ih (lt_of_succ_lt_succ hr)
        exact ⟨s + 1, hs, by rw [take_succ_cons, count_cons_self, hcount]⟩
    · rw [count_cons_of_ne hk] at hr
      obtain ⟨s, hs, hcount⟩ := ih hr
      exact ⟨s + 1, hs, by rw [take_succ_cons, count_cons_of_ne hk, hcount]⟩

end Canonical

end MinicOs
