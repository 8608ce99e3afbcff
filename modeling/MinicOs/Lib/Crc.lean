import MinicOs.Lib.BitString

/-!
# Cyclic redundancy checks

A reflected CRC of any width. `feed` divides by the polynomial one bit of the message at a time; it is the
definition. A division step is linear in exclusive or (`shift_xor`), so that several bits can be fed in one
step from a table that is indexed by the low bits of the remainder (`feedBits_eq_table`).
-/

namespace MinicOs.Crc

open BitVec

variable {w : Nat} (poly : BitVec w)

/-- A division step. -/
def shift (c : BitVec w) : BitVec w := if c.getLsbD 0 then poly ^^^ (c >>> 1) else c >>> 1

/-- Several division steps. -/
def shifts : Nat → BitVec w → BitVec w
  | 0, c => c
  | n + 1, c => shifts n (shift poly c)

/-- A bit of the message enters the remainder. -/
def feed (c : BitVec w) (b : Bool) : BitVec w := shift poly (c ^^^ BitVec.ofNat w b.toNat)

/-- A message enters the remainder. -/
def feedBits (c : BitVec w) (bits : List Bool) : BitVec w := bits.foldl (feed poly) c

theorem shift_xor (a b : BitVec w) : shift poly (a ^^^ b) = shift poly a ^^^ shift poly b := by
  unfold shift
  rw [getLsbD_xor, ushiftRight_xor_distrib]
  cases a.getLsbD 0 <;> cases b.getLsbD 0
  · rfl
  · simp only [Bool.false_xor, if_true, Bool.false_eq_true, if_false]
    ac_rfl
  · simp only [Bool.xor_false, if_true, Bool.false_eq_true, if_false]
    ac_rfl
  · simp only [Bool.xor_self, if_true, Bool.false_eq_true, if_false]
    -- The polynomial enters twice and cancels.
    calc a >>> 1 ^^^ b >>> 1 = (poly ^^^ poly) ^^^ (a >>> 1 ^^^ b >>> 1) := by rw [BitVec.xor_self, BitVec.zero_xor]
      _ = poly ^^^ a >>> 1 ^^^ (poly ^^^ b >>> 1) := by ac_rfl

theorem shifts_xor (n : Nat) (a b : BitVec w) : shifts poly n (a ^^^ b) = shifts poly n a ^^^ shifts poly n b := by
  induction n generalizing a b with
  | zero => rfl
  | succ n ih => rw [shifts, shift_xor, ih, shifts, shifts]

/-- A remainder whose low bits are clear moves down. -/
theorem shifts_high {n : Nat} {y : BitVec w} (hy : ∀ i < n, y.getLsbD i = false) : shifts poly n y = y >>> n := by
  induction n generalizing y with
  | zero => simp [shifts]
  | succ n ih =>
    have hshift : shift poly y = y >>> 1 := by
      unfold shift
      rw [hy 0 (by omega)]
      rfl
    rw [shifts, hshift, ih fun i hi => ?_, ← shiftRight_add, Nat.add_comm 1 n]
    rw [getLsbD_ushiftRight]
    exact hy (1 + i) (by omega)

/-- The low bits of a remainder. -/
def low (n : Nat) (x : BitVec w) : BitVec w := x &&& BitVec.ofNat w (2 ^ n - 1)

theorem getLsbD_low (n : Nat) (x : BitVec w) (i : Nat) : (low n x).getLsbD i = (x.getLsbD i && decide (i < n)) := by
  unfold low
  rw [getLsbD_and, getLsbD_ofNat, Nat.testBit_two_pow_sub_one]
  by_cases hi : i < w
  · simp [hi]
  · rw [getLsbD_of_ge x i (by omega)]
    simp

/-- The steps of a remainder are those of its low bits, and the others move down. -/
theorem shifts_eq_low (n : Nat) (x : BitVec w) : shifts poly n x = shifts poly n (low n x) ^^^ x >>> n := by
  have hhigh : ∀ i, (x ^^^ low n x).getLsbD i = (x.getLsbD i && !decide (i < n)) := by
    intro i
    rw [getLsbD_xor, getLsbD_low]
    cases x.getLsbD i <;> cases decide (i < n) <;> rfl
  have hsplit : x = low n x ^^^ (x ^^^ low n x) := by
    rw [BitVec.xor_comm x, ← BitVec.xor_assoc, BitVec.xor_self, BitVec.zero_xor]
  have hdown : (x ^^^ low n x) >>> n = x >>> n := by
    refine eq_of_getLsbD_eq fun i _ => ?_
    rw [getLsbD_ushiftRight, getLsbD_ushiftRight, hhigh]
    simp
  have hclear : ∀ i < n, (x ^^^ low n x).getLsbD i = false := fun i hi => by
    rw [hhigh]
    simp [hi]
  calc shifts poly n x = shifts poly n (low n x) ^^^ shifts poly n (x ^^^ low n x) := by
        rw [← shifts_xor, ← hsplit]
    _ = shifts poly n (low n x) ^^^ x >>> n := by
        rw [shifts_high poly hclear, hdown]

/-- A message whose number fits the remainder enters at once. -/
theorem feedBits_eq_shifts (c : BitVec w) {bits : List Bool} (h : bits.length ≤ w) :
    feedBits poly c bits = shifts poly bits.length (c ^^^ BitVec.ofNat w (lsbValue bits)) := by
  induction bits generalizing c with
  | nil => simp [feedBits, shifts, lsbValue]
  | cons b bits ih =>
    rw [List.length_cons] at h
    have hlt : lsbValue bits * 2 < 2 ^ w := calc
      lsbValue bits * 2 < 2 ^ bits.length * 2 := Nat.mul_lt_mul_of_pos_right (lsbValue_lt bits) (by omega)
      _ = 2 ^ (bits.length + 1) := (pow_succ 2 _).symm
      _ ≤ 2 ^ w := Nat.pow_le_pow_right (by omega) h
    -- The first bit, and the others one place up.
    have hvalue : BitVec.ofNat w (lsbValue (b :: bits)) =
        BitVec.ofNat w b.toNat ^^^ BitVec.ofNat w (lsbValue bits * 2) := by
      refine eq_of_getLsbD_eq fun i hi => ?_
      rw [getLsbD_xor, getLsbD_ofNat, getLsbD_ofNat, getLsbD_ofNat, lsbValue, Nat.mul_comm 2]
      cases i with
      | zero => cases b <;> simp [Nat.testBit_zero, hi, Nat.add_mod]
      | succ i =>
        rw [Nat.testBit_succ, Nat.testBit_succ, Nat.testBit_succ, Nat.add_mul_div_right _ _ (by omega),
          Nat.mul_div_cancel _ (by omega)]
        cases b <;> simp [hi]
    have hrest : shift poly (BitVec.ofNat w (lsbValue bits * 2)) = BitVec.ofNat w (lsbValue bits) := by
      refine (shifts_high poly (n := 1) fun i hi => ?_).trans ?_
      · rw [getLsbD_ofNat, show i = 0 by omega, Nat.testBit_zero]
        simp
      · refine eq_of_toNat_eq ?_
        rw [toNat_ushiftRight, toNat_ofNat, toNat_ofNat, Nat.mod_eq_of_lt hlt,
          Nat.shiftRight_one, Nat.mul_div_cancel _ (by omega), Nat.mod_eq_of_lt (by omega)]
    calc feedBits poly c (b :: bits) = feedBits poly (feed poly c b) bits := rfl
      _ = shifts poly bits.length (feed poly c b ^^^ BitVec.ofNat w (lsbValue bits)) := ih _ (by omega)
      _ = shifts poly bits.length (shift poly (c ^^^ BitVec.ofNat w (lsbValue (b :: bits)))) := by
        rw [hvalue, ← xor_assoc, shift_xor, hrest, feed]
      _ = shifts poly (b :: bits).length (c ^^^ BitVec.ofNat w (lsbValue (b :: bits))) := rfl

/-- **The table**: several bits enter in one step, by what the low bits of the remainder become. -/
theorem feedBits_eq_table (c : BitVec w) {bits : List Bool} (h : bits.length ≤ w) : feedBits poly c bits =
      shifts poly bits.length (low bits.length (c ^^^ BitVec.ofNat w (lsbValue bits))) ^^^ c >>> bits.length := by
  have hzero : BitVec.ofNat w (lsbValue bits) >>> bits.length = 0#w := by
    refine eq_of_toNat_eq ?_
    have hlt := lsbValue_lt bits
    rw [toNat_ushiftRight, toNat_ofNat, Nat.mod_eq_of_lt
      (Nat.lt_of_lt_of_le hlt (Nat.pow_le_pow_right (by omega) h)), Nat.shiftRight_eq_div_pow, Nat.div_eq_of_lt hlt]
    rfl
  rw [feedBits_eq_shifts poly c h, shifts_eq_low, ushiftRight_xor_distrib, hzero, xor_zero]

end MinicOs.Crc
