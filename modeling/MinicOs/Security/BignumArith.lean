import MinicOs.Lib.Limbs
import MinicOs.Security.Bignum

/-!
# The arithmetic of limb arrays

One lemma for each helper of `bignum.c`: on arrays that hold numbers it returns, with all its accesses inside the
arrays, and the result holds the number it should. A loop with a carry or a borrow keeps an equation between the value of
the whole array, the carry and what was taken in so far.
-/

namespace MinicOs

open Exec Cells Function BitVec Nat

variable {n u v : Nat} {a b : Limbs} {f g : Nat → U32}

/-! ## Comparison -/

variable {i : Nat}

theorem cmpLimbs_ofFn (hi : i ≤ n) :
    (cmpLimbs (ofFn n f) (ofFn n g) i).Returns fun r => (0 ≤ r ↔ limbVal g i ≤ limbVal f i) := by
  induction i with
  | zero => exact .done (by simp [limbVal])
  | succ i ih =>
    unfold cmpLimbs
    rw [read_ofFn (by omega), read_ofFn (by omega), done_bind, done_bind, limbVal, limbVal]
    have hf := limbVal_lt f i
    have hg := limbVal_lt g i
    by_cases hne : f i ≠ g i
    · rw [if_pos hne]
      by_cases hgt : f i > g i
      · -- a higher word decides
        have hmul : ((g i).toNat + 1) * (2 ^ 32) ^ i ≤ (f i).toNat * (2 ^ 32) ^ i :=
          mul_le_mul_right _ (lt_def.mp hgt)
        rw [if_pos hgt]
        refine .done ⟨fun _ => ?_, fun _ => by decide⟩
        rw [Nat.add_mul] at hmul
        omega
      · have hlt : f i < g i := BitVec.lt_of_le_ne (BitVec.not_lt.mp hgt) hne
        have hmul : ((f i).toNat + 1) * (2 ^ 32) ^ i ≤ (g i).toNat * (2 ^ 32) ^ i :=
          mul_le_mul_right _ (lt_def.mp hlt)
        rw [if_neg hgt]
        refine .done ⟨fun h => absurd h (by decide), fun h => ?_⟩
        rw [Nat.add_mul] at hmul
        omega
    · rw [if_neg hne]
      have heq : f i = g i := not_not.mp hne
      refine (ih (by omega)).mono fun r hr => ?_
      rw [hr, heq]
      omega

theorem cmpLimbs_returns (ha : HoldsNat a n u) (hb : HoldsNat b n v) :
    (cmpLimbs a b n).Returns fun r => (0 ≤ r ↔ v ≤ u) := by
  obtain ⟨f, rfl, rfl⟩ := ha
  obtain ⟨g, rfl, rfl⟩ := hb
  exact cmpLimbs_ofFn (le_refl n)

/-! ## Subtraction -/

/-- A limb and the borrow, before and after a round. -/
theorem sub_word (x y : U32) {borrow : Nat} (hb : borrow ≤ 1) :
    ∃ borrow' ≤ 1, ∃ r : U32, r.toNat + y.toNat + borrow = x.toNat + borrow' * 2 ^ 32 ∧
      (if (x.toNat : Int) - y.toNat - borrow < 0 then (1 : Int) else 0) = borrow' ∧
      BitVec.ofInt 32 (if (x.toNat : Int) - y.toNat - borrow < 0 then (x.toNat : Int) - y.toNat - borrow + 2 ^ 32
        else (x.toNat : Int) - y.toNat - borrow) = r := by
  by_cases hneg : (x.toNat : Int) - y.toNat - borrow < 0
  · refine ⟨1, by omega, _, ?_, if_pos hneg, rfl⟩
    rw [if_pos hneg, toNat_ofInt]
    omega
  · refine ⟨0, by omega, _, ?_, if_neg hneg, rfl⟩
    rw [if_neg hneg, toNat_ofInt]
    omega

theorem subLimbs_returns (ha : HoldsNat a n u) (hb : HoldsNat b n v) (hle : v ≤ u) :
    (subLimbs a b n).Returns (HoldsNat · n (u - v)) := by
  obtain ⟨f, rfl, rfl⟩ := ha
  obtain ⟨g, rfl, rfl⟩ := hb
  -- the value so far, with what was subtracted, is the first number and the borrow
  refine (count_returns (fun i s => ∃ (f' : Nat → U32) (borrow : Nat), s = (ofFn n f', (borrow : Int)) ∧
    borrow ≤ 1 ∧ limbVal f' n + limbVal g i = limbVal f n + borrow * (2 ^ 32) ^ i)
    ⟨f, 0, rfl, by omega, by simp [limbVal]⟩ ?_).bind ?_
  · rintro i hi _ ⟨f', borrow, rfl, hborrow, hval⟩
    obtain ⟨borrow', hborrow', r, hword, hnext, hr⟩ := sub_word (f' i) (g i) hborrow
    unfold subLimbsStep
    rw [read_ofFn hi, read_ofFn hi, done_bind, done_bind]
    dsimp only
    rw [hr, hnext, write_ofFn _ hi, done_bind]
    refine .done ⟨_, borrow', rfl, hborrow', ?_⟩
    have hupd := limbVal_update (f := f') r hi
    have hmul := congrArg (· * (2 ^ 32) ^ i) hword
    simp only [Nat.add_mul, Nat.mul_assoc] at hmul
    rw [limbVal, pow_succ' (2 ^ 32) i]
    omega
  · rintro _ ⟨f', borrow, rfl, hborrow, hval⟩
    refine .done ⟨f', rfl, ?_⟩
    have hlt := limbVal_lt f' n
    -- a borrow that is left would make the value too large
    obtain rfl | rfl : borrow = 0 ∨ borrow = 1 := by omega
    · omega
    · omega

/-! ## Shifts -/

variable {carry : U32}

theorem shr1_word (x : U32) (hc : carry.toNat ≤ 1) :
    2 * (x >>> 1 ||| carry <<< 31).toNat + (x &&& 1).toNat = x.toNat + carry.toNat * 2 ^ 32 := by
  have hhalf : x.toNat >>> 1 < 2 ^ 31 := by
    omega
  have hcarry : (carry <<< 31).toNat = carry.toNat <<< 31 := by
    refine mod_eq_of_lt ?_
    omega
  rw [toNat_or, hcarry, toNat_ushiftRight, Nat.or_comm, ← Nat.shiftLeft_add_eq_or_of_lt hhalf,
    Nat.shiftLeft_eq, Nat.shiftRight_eq_div_pow, toNat_and, show (1 : U32).toNat = 1 from rfl, Nat.and_one_is_mod]
  omega

theorem shr1Loop_returns (hi : i ≤ n) (hc : carry.toNat ≤ 1)
    (hval : 2 * limbVal f n + carry.toNat * (2 ^ 32) ^ i = u + limbVal f i) :
    (shr1Loop i (ofFn n f) carry).Returns (HoldsNat · n (u / 2)) := by
  induction i generalizing f carry with
  | zero =>
    refine .done ⟨f, rfl, ?_⟩
    rw [limbVal, pow_zero] at hval
    omega
  | succ i ih =>
    unfold shr1Loop
    rw [read_ofFn (by omega), done_bind]
    rw [write_ofFn _ (by omega), done_bind]
    have hword := congrArg (· * (2 ^ 32) ^ i) (shr1_word (f i) hc)
    have hupd := limbVal_update (f := f) (f i >>> 1 ||| carry <<< 31) (show i < n by omega)
    refine ih (by omega) ?_ ?_
    · rw [toNat_and, show (1 : U32).toNat = 1 from rfl, and_one_is_mod]
      omega
    · rw [limbVal_update_of_le _ (le_refl i)]
      rw [limbVal, pow_succ' (2 ^ 32) i] at hval
      simp only [Nat.add_mul, Nat.mul_assoc] at hword
      omega

theorem shr1Limbs_returns (ha : HoldsNat a n u) : (shr1Limbs a n).Returns (HoldsNat · n (u / 2)) := by
  obtain ⟨f, rfl, rfl⟩ := ha
  refine shr1Loop_returns (le_refl n) (by decide) ?_
  rw [show (0 : U32).toNat = 0 from rfl]
  omega

variable {k s : Nat}

/-- The words moved up: the ones from `k` on are still to come. -/
theorem shlMove_returns (hs : 0 < s) (hk : s + k ≤ n) {f' : Nat → U32} (hlow : ∀ j < s + k, f' j = f j)
    (hhigh : ∀ j, s + k ≤ j → j < n → f' j = f (j - s)) :
    (shlMove s k (ofFn n f')).Returns fun a => ∃ g, a = ofFn n g ∧ ∀ j, s ≤ j → j < n → g j = f (j - s) := by
  induction k generalizing f' with
  | zero => exact .done ⟨f', rfl, hhigh⟩
  | succ k ih =>
    unfold shlMove
    rw [read_ofFn (by omega), done_bind, write_ofFn _ (by omega), done_bind]
    refine ih (by omega) ?_ ?_
    · intro j hj
      rw [update_of_ne (by omega)]
      exact hlow j (by omega)
    · intro j hj hjn
      rw [update_apply]
      split
      · rename_i heq
        rw [hlow k (by omega), heq, Nat.add_sub_cancel_left]
      · exact hhigh j (by omega) hjn

/-- The value of words that were moved up over zeros. -/
theorem limbVal_moved (hzero : ∀ j < s, g j = 0) {m : Nat} (hmove : ∀ j < m, g (s + j) = f j) :
    limbVal g (s + m) = limbVal f m * (2 ^ 32) ^ s := by
  induction m with
  | zero => rw [limbVal, Nat.zero_mul, Nat.add_zero, limbVal_zero hzero]
  | succ m ih =>
    rw [← add_assoc, limbVal, limbVal, ih fun j hj => hmove j (by omega), hmove m (by omega)]
    ring

theorem shlWords_returns (ha : HoldsNat a n u) (hs : s ≤ n) (hfit : u * (2 ^ 32) ^ s < (2 ^ 32) ^ n) :
    (shlWords a n s).Returns (HoldsNat · n (u * (2 ^ 32) ^ s)) := by
  obtain ⟨f, rfl, rfl⟩ := ha
  unfold shlWords
  by_cases hpos : s > 0
  · rw [if_pos hpos]
    refine (shlMove_returns (f := f) hpos (by omega) (fun j _ => rfl) fun j hj hjn => by omega).bind ?_
    rintro _ ⟨g, rfl, hmove⟩
    refine (count_returns (fun i c => ∃ g', c = ofFn n g' ∧ (∀ j < i, g' j = 0) ∧
      ∀ j, s ≤ j → j < n → g' j = f (j - s)) ⟨g, rfl, fun j hj => by omega, hmove⟩ ?_).mono ?_
    · rintro i hi _ ⟨g', rfl, hz, hm⟩
      rw [write_ofFn _ (by omega)]
      refine .done ⟨_, rfl, ?_, ?_⟩
      · intro j hj
        rw [update_apply]
        split
        · rfl
        · exact hz j (by omega)
      · intro j hj hjn
        rw [update_of_ne (by omega)]
        exact hm j hj hjn
    · rintro _ ⟨g', rfl, hz, hm⟩
      refine ⟨g', rfl, ?_⟩
      obtain ⟨m, rfl⟩ := Nat.exists_eq_add_of_le hs
      rw [limbVal_moved hz fun j hj => by rw [hm (s + j) (by omega) (by omega), Nat.add_sub_cancel_left]]
      -- the words that fell off at the top are zero
      refine congrArg (· * (2 ^ 32) ^ s) (limbVal_eq_of_lt (by omega) ?_)
      rw [Nat.pow_add, Nat.mul_comm] at hfit
      exact Nat.lt_of_mul_lt_mul_left hfit
  · obtain rfl : s = 0 := by omega
    rw [if_neg hpos, Nat.pow_zero, Nat.mul_one]
    exact .done (holdsNat_ofFn f n)

theorem shl_word (x : U32) (hk : 0 < k) (hk32 : k < 32) (hc : carry.toNat < 2 ^ k) :
    (x <<< k ||| carry).toNat + (x >>> (32 - k)).toNat * 2 ^ 32 = x.toNat * 2 ^ k + carry.toNat ∧
      (x >>> (32 - k)).toNat < 2 ^ k := by
  have hx := x.isLt
  have hpow : 2 ^ 32 = 2 ^ (32 - k) * 2 ^ k := by rw [← pow_add]; congr 1; omega
  have hlow : (x <<< k).toNat = (x.toNat % 2 ^ (32 - k)) <<< k := by
    rw [toNat_shiftLeft, Nat.shiftLeft_eq, Nat.shiftLeft_eq, hpow, Nat.mul_mod_mul_right]
  have hdiv := div_add_mod x.toNat (2 ^ (32 - k))
  rw [toNat_or, hlow, ← Nat.shiftLeft_add_eq_or_of_lt hc, Nat.shiftLeft_eq, toNat_ushiftRight, Nat.shiftRight_eq_div_pow]
  constructor
  · rw [hpow]
    nth_rewrite 3 [← hdiv]
    ring
  · rw [Nat.div_lt_iff_lt_mul (Nat.two_pow_pos _), Nat.mul_comm, ← hpow]
    exact hx

theorem shlBits_returns (hk : k < 32) (ha : HoldsNat a n u) (hfit : u * 2 ^ k < (2 ^ 32) ^ n) :
    (shlBits a n k).Returns (HoldsNat · n (u * 2 ^ k)) := by
  obtain ⟨f, rfl, rfl⟩ := ha
  unfold shlBits
  by_cases hpos : k > 0
  · rw [if_pos hpos]
    refine (count_returns (fun i s => ∃ f' carry, s = (ofFn n f', carry) ∧ carry.toNat < 2 ^ k ∧
      (∀ j, i ≤ j → f' j = f j) ∧ limbVal f' i + carry.toNat * (2 ^ 32) ^ i = limbVal f i * 2 ^ k)
      ⟨f, 0, rfl, Nat.two_pow_pos k, fun _ _ => rfl, by simp [limbVal]⟩ ?_).bind ?_
    · rintro i hi _ ⟨f', carry, rfl, hcarry, hrest, hval⟩
      obtain ⟨hword, hnext⟩ := shl_word (f i) hpos hk hcarry
      unfold shlStep
      rw [read_ofFn hi, done_bind]
      dsimp only
      rw [write_ofFn _ hi, done_bind, hrest i (le_refl i)]
      refine .done ⟨_, _, rfl, hnext, ?_, ?_⟩
      · intro j hj
        rw [update_of_ne (by omega)]
        exact hrest j (by omega)
      · have hmul := congrArg (· * (2 ^ 32) ^ i) hword
        simp only [Nat.add_mul, Nat.mul_assoc] at hmul
        rw [limbVal, limbVal_update_of_le _ (Nat.le_refl i), update_self, limbVal, Nat.add_mul,
          pow_succ' (2 ^ 32) i, mul_assoc (f i).toNat, mul_comm ((2 ^ 32) ^ i) (2 ^ k)]
        omega
    · rintro _ ⟨f', carry, rfl, -, -, hval⟩
      refine .done ⟨f', rfl, ?_⟩
      -- a carry that is left would make the value too large
      rcases Nat.eq_zero_or_pos carry.toNat with hzero | hone
      · rw [hzero] at hval
        omega
      · have := Nat.le_mul_of_pos_left ((2 ^ 32) ^ n) hone
        omega
  · obtain rfl : k = 0 := by omega
    rw [if_neg hpos, pow_zero, mul_one]
    exact .done (holdsNat_ofFn f n)

theorem shlLimbs_returns {bits : Nat} (ha : HoldsNat a n u) (hbits : bits ≤ 32 * n)
    (hfit : u * 2 ^ bits < (2 ^ 32) ^ n) : (shlLimbs a n bits).Returns (HoldsNat · n (u * 2 ^ bits)) := by
  have hsplit : u * 2 ^ bits = u * (2 ^ 32) ^ (bits / 32) * 2 ^ (bits % 32) := by
    rw [mul_assoc, ← pow_mul, ← pow_add, div_add_mod]
  rw [hsplit] at hfit ⊢
  refine (shlWords_returns ha (by omega) ?_).bind fun a' ha' => shlBits_returns (by omega) ha' hfit
  exact Nat.lt_of_le_of_lt (Nat.le_mul_of_pos_right _ (Nat.two_pow_pos _)) hfit

/-! ## The highest bit -/

theorem topBit_returns {x : U32} (hx : x ≠ 0) (hk : x.toNat < 2 ^ (k + 1)) :
    (topBit x k).Returns fun t => 2 ^ t ≤ x.toNat ∧ x.toNat < 2 ^ (t + 1) := by
  have hpos : 0 < x.toNat := pos_of_ne_zero fun h => hx (eq_of_toNat_eq h)
  have hbit : ∀ m, x >>> m &&& 1 = 0 ↔ x.toNat / 2 ^ m % 2 = 0 := by
    intro m
    rw [← toNat_inj, toNat_and, toNat_ushiftRight, shiftRight_eq_div_pow,
      show (1 : U32).toNat = 1 from rfl, and_one_is_mod]
    rfl
  induction k with
  | zero =>
    unfold topBit
    rw [if_neg (by rw [hbit, pow_zero]; omega)]
    exact .done (by omega)
  | succ k ih =>
    unfold topBit
    have hdiv : x.toNat / 2 ^ (k + 1) < 2 := by
      rw [Nat.div_lt_iff_lt_mul (Nat.two_pow_pos _), ← Nat.pow_succ']
      exact hk
    have hself := div_mul_le_self x.toNat (2 ^ (k + 1))
    have hbits := hbit (k + 1)
    have hsmall : x.toNat / 2 ^ (k + 1) = 0 → x.toNat < 2 ^ (k + 1) := (Nat.div_eq_zero_iff_lt (Nat.two_pow_pos _)).mp
    generalize x.toNat / 2 ^ (k + 1) = q at hdiv hself hbits hsmall
    obtain rfl | rfl : q = 0 ∨ q = 1 := by omega
    · rw [if_pos (hbits.mpr rfl)]
      exact ih (hsmall rfl)
    · rw [if_neg (hbits.not.mpr (by decide))]
      exact .done ⟨by omega, hk⟩

/-- What `highest_bit_index` finds. -/
def TopBit (u : Nat) (t : Int) : Prop := (u = 0 ∧ t = -1) ∨ ∃ k : Nat, t = k ∧ 2 ^ k ≤ u ∧ u < 2 ^ (k + 1)

theorem highestBitIndex_ofFn (hi : i ≤ n) : (highestBitIndex (ofFn n f) i).Returns (TopBit (limbVal f i)) := by
  induction i with
  | zero => exact .done (.inl ⟨rfl, rfl⟩)
  | succ i ih =>
    unfold highestBitIndex
    rw [read_ofFn (by omega), done_bind]
    have hlt := limbVal_lt f i
    by_cases hne : f i ≠ 0
    · rw [if_pos hne]
      refine (topBit_returns hne (f i).isLt).bind fun bit hbit => .done (.inr ⟨_, rfl, ?_, ?_⟩)
      · have := mul_le_mul_right ((2 ^ 32) ^ i) hbit.1
        rw [limbVal, mul_comm i, pow_add, pow_mul, mul_comm]
        omega
      · have := mul_le_mul_right ((2 ^ 32) ^ i) (succ_le_of_lt hbit.2)
        rw [limbVal, add_assoc, mul_comm i, pow_add, pow_mul, mul_comm ((2 ^ 32) ^ i)]
        rw [Nat.succ_mul] at this
        omega
    · rw [if_neg hne]
      refine (ih (by omega)).mono fun t ht => ?_
      rw [limbVal, not_not.mp hne]
      simpa using ht

theorem highestBitIndex_returns (ha : HoldsNat a n u) : (highestBitIndex a n).Returns (TopBit u) := by
  obtain ⟨f, rfl, rfl⟩ := ha
  exact highestBitIndex_ofFn (le_refl n)

/-! ## Multiplication -/

theorem toNat_halves (p : U64) : ((p &&& 0xFFFFFFFF).setWidth 32).toNat + (p >>> 32).toNat * 2 ^ 32 = p.toNat := by
  rw [toNat_setWidth, toNat_and, toNat_ushiftRight, shiftRight_eq_div_pow,
    show (0xFFFFFFFF : U64).toNat = 2 ^ 32 - 1 from rfl, and_two_pow_sub_one_eq_mod, mod_mod]
  omega

theorem mul_word (x y o : U32) {carry : U64} (hc : carry.toNat < 2 ^ 32) :
    (x.setWidth 64 * y.setWidth 64 + o.setWidth 64 + carry : U64).toNat = x.toNat * y.toNat + o.toNat + carry.toNat := by
  have hmul : x.toNat * y.toNat ≤ (2 ^ 32 - 1) * (2 ^ 32 - 1) := Nat.mul_le_mul (by omega) (by omega)
  have hwide : ∀ z : U32, (z.setWidth 64).toNat = z.toNat := fun z => by
    rw [toNat_setWidth]
    exact mod_eq_of_lt (by have := z.isLt; omega)
  rw [toNat_add, toNat_add, toNat_mul, hwide, hwide, hwide]
  omega

variable {N bn : Nat}

/-- The inner loop adds a multiple of `b`, moved up by `i` words. -/
theorem mulRow_inner {x : U32} (hN : i + bn ≤ N) : (Exec.count bn (mulStep x (ofFn bn g) i) (ofFn N f, 0)).Returns fun s =>
      ∃ f', s.1 = ofFn N f' ∧ s.2.toNat < 2 ^ 32 ∧
        limbVal f' N + s.2.toNat * (2 ^ 32) ^ (i + bn) = limbVal f N + x.toNat * limbVal g bn * (2 ^ 32) ^ i := by
  refine count_returns (fun j (s : Limbs × U64) => ∃ f', s.1 = ofFn N f' ∧ s.2.toNat < 2 ^ 32 ∧
    limbVal f' N + s.2.toNat * (2 ^ 32) ^ (i + j) = limbVal f N + x.toNat * limbVal g j * (2 ^ 32) ^ i)
    ⟨f, rfl, Nat.two_pow_pos 32, by simp [limbVal]⟩ ?_
  rintro j hj ⟨_, carry⟩ ⟨f', rfl, hcarry, hval⟩
  unfold mulStep
  rw [read_ofFn hj, done_bind]
  dsimp only
  rw [read_ofFn (by omega), done_bind, write_ofFn _ (by omega), done_bind]
  have hword := mul_word x (g j) (f' (i + j)) hcarry
  have hhalves := toNat_halves (x.setWidth 64 * (g j).setWidth 64 + (f' (i + j)).setWidth 64 + carry)
  rw [hword] at hhalves
  refine .done ⟨_, rfl, ?_, ?_⟩
  · dsimp only
    omega
  · dsimp only
    have hupd := limbVal_update (f := f') (((x.setWidth 64 * (g j).setWidth 64 + (f' (i + j)).setWidth 64 + carry) &&&
      0xFFFFFFFF).setWidth 32) (show i + j < N by omega)
    have hmul := congrArg (· * (2 ^ 32) ^ (i + j)) hhalves
    have hpow : x.toNat * (g j).toNat * (2 ^ 32) ^ (i + j) = x.toNat * ((g j).toNat * (2 ^ 32) ^ j) * (2 ^ 32) ^ i := by
      ring
    simp only [Nat.add_mul, Nat.mul_assoc] at hmul hpow
    rw [limbVal, Nat.mul_add, Nat.add_mul, ← Nat.add_assoc i j 1, pow_succ' (2 ^ 32) (i + j)]
    simp only [mul_assoc] at hval ⊢
    omega

/-- **The carry chain** ends inside the array if the result fits. -/
theorem carryLoop_returns {fuel idx : Nat} {carry : U64} (hfuel : N < fuel + idx) (hidx : idx ≤ N)
    (hcarry : carry.toNat < 2 ^ 32) (hval : limbVal f N + carry.toNat * (2 ^ 32) ^ idx = v) (hfit : v < (2 ^ 32) ^ N)
    : (carryLoop fuel (ofFn N f) idx carry).Returns (HoldsNat · N v) := by
  induction fuel generalizing f idx carry with
  | zero => omega
  | succ fuel ih =>
    unfold carryLoop
    by_cases hzero : carry = 0
    · rw [if_pos hzero]
      refine .done ⟨f, rfl, ?_⟩
      rw [← hval, hzero]
      simp
    · rw [if_neg hzero]
      have hpos : 0 < carry.toNat := pos_of_ne_zero fun h => hzero (eq_of_toNat_eq h)
      have hlt : idx < N := by
        refine (Nat.pow_lt_pow_iff_right (show 1 < 2 ^ 32 by decide)).mp ?_
        have := Nat.le_mul_of_pos_left ((2 ^ 32) ^ idx) hpos
        omega
      have hsum : ((f idx).setWidth 64 + carry : U64).toNat = (f idx).toNat + carry.toNat := by
        rw [toNat_add, toNat_setWidth]
        omega
      have hhalves := toNat_halves ((f idx).setWidth 64 + carry)
      have hupd := limbVal_update (f := f) ((((f idx).setWidth 64 + carry) &&& 0xFFFFFFFF).setWidth 32) hlt
      have hmul := congrArg (· * (2 ^ 32) ^ idx) (hhalves.trans hsum)
      simp only [Nat.add_mul, Nat.mul_assoc] at hmul
      rw [read_ofFn hlt, done_bind]
      dsimp only
      rw [write_ofFn _ hlt, done_bind]
      refine ih (by omega) (by omega) ?_ ?_
      · have := (f idx).isLt
        omega
      · rw [pow_succ' (2 ^ 32) idx]
        omega

theorem mulRow_returns {an : Nat} (hi : i < an) {f' : Nat → U32} (hval : limbVal f' (an + bn) = limbVal f i * limbVal g bn) :
    (mulRow (ofFn an f) (ofFn bn g) an bn i (ofFn (an + bn) f')).Returns
      (HoldsNat · (an + bn) (limbVal f (i + 1) * limbVal g bn)) := by
  unfold mulRow
  rw [read_ofFn hi, done_bind]
  refine (mulRow_inner (by omega)).bind ?_
  rintro ⟨_, carry⟩ ⟨f'', rfl, hcarry, hrow⟩
  refine carryLoop_returns (by omega) (by omega) hcarry (hrow.trans ?_) ?_
  · rw [hval, limbVal]
    ring
  · have hf : limbVal f (i + 1) < (2 ^ 32) ^ an :=
      Nat.lt_of_lt_of_le (limbVal_lt f (i + 1)) (Nat.pow_le_pow_right (by decide) hi)
    rw [pow_add]
    exact mul_lt_mul'' hf (limbVal_lt g bn)

theorem mulLimbs_returns {out : Limbs} {an : Nat} (hout : out.length = an + bn) (ha : HoldsNat a an u)
    (hb : HoldsNat b bn v) : (mulLimbs out a an b bn).Returns (HoldsNat · (an + bn) (u * v)) := by
  obtain ⟨f, rfl, rfl⟩ := ha
  obtain ⟨g, rfl, rfl⟩ := hb
  have hzero : Exec.count (an + bn) (fun k (out : Limbs) => out.write k 0) out = .done (ofFn (an + bn) fun _ => 0) :=
    count_write_all (fun _ => .done 0) hout fun _ _ => rfl
  unfold mulLimbs
  rw [hzero, done_bind]
  refine count_returns (fun i s => HoldsNat s (an + bn) (limbVal f i * limbVal g bn))
    ⟨_, rfl, by rw [limbVal_zero fun _ _ => rfl, limbVal, Nat.zero_mul]⟩ ?_
  rintro i hi _ ⟨f', rfl, hval⟩
  exact mulRow_returns hi hval

/-! ## Division -/

variable {m : Nat} {wide mod out : Limbs}

variable {modN : Nat}

theorem extendMod_returns (hm : HoldsNat mod modN m) (hN : modN ≤ wideLimbs) :
    (extendMod mod modN wideLimbs).Returns (HoldsNat · wideLimbs m) := by
  obtain ⟨f, rfl, rfl⟩ := hm
  let f' : Nat → U32 := fun i => if i < modN then f i else 0
  have hlen : (unset wideLimbs : Limbs).length = wideLimbs := length_unset _
  have hcopy := count_write (f := f') (ofFn modN f).read (hlen.symm ▸ hN) fun i hi => by
    rw [read_ofFn hi]
    exact congrArg Exec.done (if_pos hi).symm
  have hzeros := count_fill (f := f') (a := unset wideLimbs) (fun _ => .done 0) (k := modN)
    (m := wideLimbs - modN) (by omega) fun i _ => congrArg Exec.done (if_neg (by omega)).symm
  unfold extendMod
  rw [hcopy, done_bind]
  refine returns_iff.mpr ⟨_, hzeros, f', ?_, ?_⟩
  · rw [Nat.add_sub_cancel' hN, fill_range hlen]
  · rw [limbVal_of_zeros hN fun i hi _ => if_neg (by omega), limbVal_congr fun i hi => if_pos hi]

theorem copyOutLimbs_returns (hw : HoldsNat wide N u) (hN : modN ≤ N) (hlt : u < (2 ^ 32) ^ modN)
    (hout : out.length = modN) : (copyOutLimbs wide modN out).Returns (HoldsNat · modN u) := by
  obtain ⟨f, rfl, rfl⟩ := hw
  unfold copyOutLimbs
  rw [count_write_all _ hout fun i hi => read_ofFn (by omega)]
  exact .done ⟨f, rfl, limbVal_eq_of_lt hN hlt⟩

/-- A round of the division: the remainder comes below the shifted modulus. -/
theorem reduceStep_returns {r : Nat} (hw : HoldsNat wide n r) (hm : HoldsNat mod n (m * 2 ^ s)) (hr : r < 2 * (m * 2 ^ s)) :
    (reduceStep n s wide mod).Returns fun p => ∃ r' < m * 2 ^ s, r' % m = r % m ∧ HoldsNat p.1 n r' ∧
      HoldsNat p.2 n (m * 2 ^ (s - 1)) := by
  have hsub : ∀ cmp : Int, (0 ≤ cmp ↔ m * 2 ^ s ≤ r) →
      (subWhenGe n wide mod cmp).Returns fun w => ∃ r' < m * 2 ^ s, r' % m = r % m ∧ HoldsNat w n r' := by
    intro cmp hcmp
    unfold subWhenGe
    by_cases hge : cmp ≥ 0
    · rw [if_pos hge]
      have hle := hcmp.mp hge
      refine (subLimbs_returns hw hm hle).mono fun w hw' => ⟨_, by omega, ?_, hw'⟩
      conv_rhs => rw [← Nat.sub_add_cancel hle, Nat.add_mul_mod_self_left]
    · rw [if_neg hge]
      exact .done ⟨r, by omega, rfl, hw⟩
  have hshift : (shr1WhenPos n s mod).Returns (HoldsNat · n (m * 2 ^ (s - 1))) := by
    cases s with
    | zero => exact .done hm
    | succ s =>
      refine (shr1Limbs_returns hm).mono fun a ha => ?_
      rwa [Nat.pow_succ, ← Nat.mul_assoc, Nat.mul_div_cancel _ (by decide)] at ha
  refine (cmpLimbs_returns hw hm).bind fun cmp hcmp => ?_
  refine (hsub cmp hcmp).bind ?_
  rintro w ⟨r', hlt, hmod, hw'⟩
  exact hshift.bind fun a ha => .done ⟨r', hlt, hmod, hw', ha⟩

theorem reduceLoop_returns {r : Nat} (hw : HoldsNat wide n r) (hm : HoldsNat mod n (m * 2 ^ s))
    (hr : r < 2 * (m * 2 ^ s)) : (reduceLoop n s wide mod).Returns (HoldsNat · n (r % m)) := by
  induction s generalizing wide mod r with
  | zero =>
    refine (reduceStep_returns hw hm hr).bind ?_
    rintro p ⟨r', hlt, hmod, hw', -⟩
    rw [pow_zero, mul_one] at hlt
    rw [mod_eq_of_lt hlt] at hmod
    exact .done (hmod ▸ hw')
  | succ s ih =>
    refine (reduceStep_returns hw hm hr).bind ?_
    rintro p ⟨r', hlt, hmod, hw', hm'⟩
    rw [← hmod]
    refine ih hw' hm' ?_
    rw [pow_succ, ← mul_assoc] at hlt
    omega

theorem modReduceWide_returns (hw : HoldsNat wide wideLimbs u) (hm : HoldsNat mod modN m) (hpos : 0 < m)
    (hN : modN ≤ wideLimbs) (hout : out.length = modN) :
    (modReduceWide wide wideLimbs mod modN out).Returns (HoldsNat · modN (u % m)) := by
  have hmlt := hm.lt
  have hrem := mod_lt u hpos
  refine (highestBitIndex_returns hw).bind fun topRem htopRem => (highestBitIndex_returns hm).bind fun topMod htopMod => ?_
  obtain ⟨km, rfl, hkm, hkm'⟩ := htopMod.resolve_left (by omega)
  by_cases hsmall : topRem < 0 ∨ topRem < km
  · -- already below the modulus
    have hlt : u < m := by
      rcases htopRem with ⟨rfl, -⟩ | ⟨k, rfl, -, hk⟩
      · exact hpos
      · have : 2 ^ (k + 1) ≤ 2 ^ km := Nat.pow_le_pow_right (by decide) (by omega)
        omega
    rw [if_pos hsmall, mod_eq_of_lt hlt]
    exact copyOutLimbs_returns hw hN (by omega) hout
  · rw [if_neg hsmall]
    obtain ⟨k, rfl, hk, hk'⟩ := htopRem.resolve_left (by omega)
    obtain ⟨shift, rfl⟩ : ∃ shift, k = km + shift := ⟨k - km, by omega⟩
    have hshift : (((km + shift : Nat) : Int) - (km : Int)).toNat = shift := by omega
    have hulow : 2 ^ (km + shift) < (2 ^ 32) ^ wideLimbs := lt_of_le_of_lt hk hw.lt
    have hexp : km + shift + 1 ≤ 32 * wideLimbs := by
      rw [← pow_mul] at hulow
      exact (Nat.pow_lt_pow_iff_right (by decide)).mp hulow
    -- the shifted modulus has its highest bit where the number has it
    have hlow : 2 ^ (km + shift) ≤ m * 2 ^ shift := by
      rw [pow_add]
      exact mul_le_mul_right _ hkm
    have hfit : m * 2 ^ shift < (2 ^ 32) ^ wideLimbs := by
      rw [← pow_mul]
      refine Nat.lt_of_lt_of_le (Nat.mul_lt_mul_of_pos_right hkm' (Nat.two_pow_pos shift)) ?_
      rw [← pow_add]
      exact Nat.pow_le_pow_right (by decide) (by omega)
    rw [hshift]
    refine (extendMod_returns hm hN).bind fun sm hsm => ?_
    refine (shlLimbs_returns hsm (by omega) hfit).bind fun sm' hsm' => ?_
    refine (reduceLoop_returns hw hsm' (by omega)).bind fun w hw' => ?_
    exact copyOutLimbs_returns hw' hN (by omega) hout

end MinicOs
