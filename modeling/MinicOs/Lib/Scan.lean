import Mathlib.Data.Finset.Card
import Mathlib.Data.Finset.Range

/-!
# First-fit scans over fixed tables

The loop `i = 0; while (i < n) { if (p(i)) return i; i = i + 1; } return -1;`, over an arbitrary
test `p`. `scan n p` stops at the first hit, so it can be run on a long table whose first free
slot is near the start.

* `scan_eq_some`: the result is the least index below `n` that passes the test.
* `scan_eq_none`: there is no result iff every index below `n` fails it.
-/

namespace MinicOs

open Finset

/-- `k` more rounds of the scan, from index `i` on. -/
def scanFrom (p : Nat → Bool) : Nat → Nat → Option Nat
  | 0, _ => none
  | k + 1, i => if p i = true then some i else scanFrom p k (i + 1)

/-- The first index below `n` that passes `p`. -/
def scan (n : Nat) (p : Nat → Bool) : Option Nat := scanFrom p n 0

variable {p : Nat → Bool}

theorem scanFrom_eq_some : ∀ {k i j : Nat}, scanFrom p k i = some j ↔
      i ≤ j ∧ j < i + k ∧ p j = true ∧ ∀ l, i ≤ l → l < j → p l = false
  | 0, i, j => by
    simp only [scanFrom, reduceCtorEq, false_iff]
    rintro ⟨h1, h2, -⟩
    omega
  | k + 1, i, j => by
    unfold scanFrom
    by_cases hp : p i = true
    · rw [if_pos hp, Option.some.injEq]
      constructor
      · rintro rfl
        exact ⟨le_refl _, by omega, hp, fun l h1 h2 => absurd h2 (by omega)⟩
      · rintro ⟨h1, -, -, hl⟩
        by_contra hne
        have := hl i (le_refl _) (by omega)
        rw [hp] at this
        exact Bool.noConfusion this
    · rw [if_neg hp, scanFrom_eq_some]
      have hpf : p i = false := by simpa using hp
      constructor
      · rintro ⟨h1, h2, h3, h4⟩
        refine ⟨by omega, by omega, h3, fun l hl hlj => ?_⟩
        by_cases hli : l = i
        · rw [hli]; exact hpf
        · exact h4 l (by omega) hlj
      · rintro ⟨h1, h2, h3, h4⟩
        have hij : i ≠ j := fun e => hp (e ▸ h3)
        exact ⟨by omega, by omega, h3, fun l hl hlj => h4 l (by omega) hlj⟩

theorem scanFrom_eq_none : ∀ {k i : Nat}, scanFrom p k i = none ↔ ∀ l, i ≤ l → l < i + k → p l = false
  | 0, i => by
    simp only [scanFrom, true_iff]
    intro l h1 h2
    omega
  | k + 1, i => by
    unfold scanFrom
    by_cases hp : p i = true
    · rw [if_pos hp]
      simp only [reduceCtorEq, false_iff]
      intro h
      have := h i (le_refl _) (by omega)
      rw [hp] at this
      exact Bool.noConfusion this
    · rw [if_neg hp, scanFrom_eq_none]
      have hpf : p i = false := by simpa using hp
      constructor
      · intro h l hl hlk
        by_cases hli : l = i
        · rw [hli]; exact hpf
        · exact h l (by omega) (by omega)
      · intro h l hl hlk
        exact h l (by omega) (by omega)

variable {n : Nat}

theorem scan_eq_some {i : Nat} : scan n p = some i ↔ i < n ∧ p i = true ∧ ∀ j, j < i → p j = false := by
  unfold scan
  rw [scanFrom_eq_some]
  simp

theorem scan_eq_none : scan n p = none ↔ ∀ i, i < n → p i = false := by
  unfold scan
  rw [scanFrom_eq_none]
  simp

/-- A scan of a table with an index that passes hits. -/
theorem scan_isSome {i : Nat} (hi : i < n) (hp : p i = true) : ∃ j, scan n p = some j := by
  cases h : scan n p with
  | some j => exact ⟨j, rfl⟩
  | none =>
    rw [scan_eq_none.mp h i hi] at hp
    exact Bool.noConfusion hp

/-- A last entry that does not pass makes no difference. -/
theorem scan_succ (h : p n = false) : scan (n + 1) p = scan n p := by
  cases hs : scan n p with
  | some i =>
    obtain ⟨hi, hp⟩ := scan_eq_some.mp hs
    exact scan_eq_some.mpr ⟨by omega, hp⟩
  | none =>
    refine scan_eq_none.mpr fun i hi => ?_
    rcases Nat.lt_succ_iff_lt_or_eq.mp hi with hlt | rfl
    · exact scan_eq_none.mp hs i hlt
    · exact h

/-- The C result of a scan: the index, or `-1`. -/
def toIndex : Option Nat → Int
  | some i => i
  | none => -1

/-- A table in which one entry more passes the test. -/
theorem card_filter_succ {n i : Nat} {P Q : Nat → Prop} [DecidablePred P] [DecidablePred Q] (hi : i < n) (hP : P i)
    (hQ : ¬ Q i) (h : ∀ j, j < n → j ≠ i → (P j ↔ Q j)) :
    ((Finset.range n).filter P).card = ((Finset.range n).filter Q).card + 1 := by
  rw [← card_erase_add_one (mem_filter.mpr ⟨mem_range.mpr hi, hP⟩)]
  refine congrArg (fun S : Finset Nat => S.card + 1) (Finset.ext fun j => ?_)
  simp only [mem_filter, mem_range, mem_erase]
  by_cases hj : j = i
  · simp [hj, hQ]
  · exact ⟨fun ⟨_, hlt, hp⟩ => ⟨hlt, (h j hlt hj).mp hp⟩, fun ⟨hlt, hq⟩ => ⟨hj, hlt, (h j hlt hj).mpr hq⟩⟩

end MinicOs
