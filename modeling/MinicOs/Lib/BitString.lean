import Mathlib.Data.Nat.Bits
import Mathlib.Data.List.TakeDrop
import Mathlib.Tactic.Ring

/-!
# Bit strings

A byte string as the string of its bits, the lowest bit of a byte first, and numbers as bit strings,
written with the lowest bit first (`lsbBits`) or with the highest (`msbBits`).

* `bitsOf_drop`: the bits from a position on.
* `lsbValue_lsbBits`, `msbValue_msbBits`: a number reads back as it was written.
-/

namespace MinicOs

open List Nat

/-- The bits of a byte, lowest first. -/
def byteBits (b : BitVec 8) : List Bool := (List.range 8).map fun i => b.getLsbD i

/-- The bits of a byte string. -/
def bitsOf (bytes : List (BitVec 8)) : List Bool := bytes.flatMap byteBits

@[simp] theorem length_byteBits (b : BitVec 8) : (byteBits b).length = 8 := by simp [byteBits]

@[simp] theorem bitsOf_nil : bitsOf [] = [] := rfl

@[simp] theorem bitsOf_cons (b : BitVec 8) (bytes : List (BitVec 8)) :
    bitsOf (b :: bytes) = byteBits b ++ bitsOf bytes := flatMap_cons

@[simp] theorem bitsOf_append (xs ys : List (BitVec 8)) : bitsOf (xs ++ ys) = bitsOf xs ++ bitsOf ys :=
  flatMap_append

theorem length_flatMap_mul {α β : Type*} {f : α → List β} {k : Nat} {l : List α} (hf : ∀ x ∈ l, (f x).length = k) :
    (l.flatMap f).length = k * l.length := by
  rw [length_flatMap, map_congr_left hf, map_const', sum_replicate_nat, mul_comm]

@[simp] theorem length_bitsOf (bytes : List (BitVec 8)) : (bitsOf bytes).length = 8 * bytes.length :=
  length_flatMap_mul fun b _ => length_byteBits b

theorem flatMap_drop_mul {α β : Type*} {f : α → List β} {k : Nat} (hf : ∀ x, (f x).length = k) (l : List α)
    (i : Nat) : (l.flatMap f).drop (k * i) = (l.drop i).flatMap f := by
  induction i generalizing l with
  | zero => rfl
  | succ i ih =>
    cases l with
    | nil => simp
    | cons x l =>
      rw [flatMap_cons, drop_succ_cons, ← ih l, drop_append, hf,
        drop_of_length_le (by rw [hf, Nat.mul_succ]; omega), nil_append, Nat.mul_succ, Nat.add_sub_cancel]

theorem bitsOf_drop (bytes : List (BitVec 8)) (i : Nat) : (bitsOf bytes).drop (8 * i) = bitsOf (bytes.drop i) :=
  flatMap_drop_mul length_byteBits bytes i

theorem bitsOf_drop_cons {bytes : List (BitVec 8)} {i j : Nat} {b : BitVec 8} (h : bytes[i]? = some b) (hj : j < 8) :
    (bitsOf bytes).drop (8 * i + j) = b.getLsbD j :: (bitsOf bytes).drop (8 * i + j + 1) := by
  obtain ⟨hi, hb⟩ := List.getElem?_eq_some_iff.mp h
  have hlen : 8 * i + j < (bitsOf bytes).length := by
    rw [length_bitsOf]
    omega
  rw [drop_eq_getElem_cons hlen]
  congr 1
  have hdrop : (bitsOf bytes).drop (8 * i) = byteBits b ++ bitsOf (bytes.drop (i + 1)) := by
    rw [bitsOf_drop, drop_eq_getElem_cons hi, hb, bitsOf_cons]
  have hget : (bitsOf bytes)[8 * i + j]? = some (b.getLsbD j) := by
    rw [← getElem?_drop, hdrop, getElem?_append_left (by simpa using hj)]
    simp [byteBits, hj]
  exact (List.getElem?_eq_some_iff.mp hget).2

/-! ## Numbers, lowest bit first -/

/-- The `n` lowest bits of `v`, lowest first. -/
def lsbBits : Nat → Nat → List Bool
  | 0, _ => []
  | n + 1, v => v.bodd :: lsbBits n (v / 2)

/-- The number a bit string stands for, lowest bit first. -/
def lsbValue : List Bool → Nat
  | [] => 0
  | b :: bs => b.toNat + 2 * lsbValue bs

@[simp] theorem length_lsbBits (n v : Nat) : (lsbBits n v).length = n := by
  induction n generalizing v with
  | zero => rfl
  | succ n ih => simp [lsbBits, ih]

theorem lsbValue_lt (bs : List Bool) : lsbValue bs < 2 ^ bs.length := by
  induction bs with
  | nil => simp [lsbValue]
  | cons b bs ih =>
    rw [lsbValue, length_cons, pow_succ]
    have := b.toNat_le
    omega

/-- **A number reads back as it was written.** -/
theorem lsbValue_lsbBits {n v : Nat} (h : v < 2 ^ n) : lsbValue (lsbBits n v) = v := by
  induction n generalizing v with
  | zero =>
    have : v = 0 := by simpa using h
    rw [this]
    rfl
  | succ n ih =>
    rw [lsbBits, lsbValue, ih (by omega)]
    have := bodd_add_div2 v
    exact this

theorem lsbBits_lsbValue (bs : List Bool) : lsbBits bs.length (lsbValue bs) = bs := by
  induction bs with
  | nil => rfl
  | cons b bs ih =>
    have hdiv : (b.toNat + 2 * lsbValue bs) / 2 = lsbValue bs := by
      cases b <;> simp only [Bool.toNat_false, Bool.toNat_true] <;> omega
    rw [length_cons, lsbBits, lsbValue, hdiv, ih]
    cases b <;> simp [bodd_add, bodd_mul]

theorem lsbValue_concat (bs : List Bool) (b : Bool) : lsbValue (bs ++ [b]) = lsbValue bs + 2 ^ bs.length * b.toNat := by
  induction bs with
  | nil => simp [lsbValue]
  | cons c bs ih =>
    rw [cons_append, lsbValue, ih, lsbValue, length_cons, pow_succ]
    ring

theorem lsbBits_add (m n v : Nat) : lsbBits (m + n) v = lsbBits m v ++ lsbBits n (v / 2 ^ m) := by
  induction m generalizing v with
  | zero => simp [lsbBits]
  | succ m ih =>
    rw [Nat.succ_add, lsbBits, ih, lsbBits, cons_append, Nat.div_div_eq_div_mul, pow_succ']

theorem lsbBits_mod (n v : Nat) : lsbBits n (v % 2 ^ n) = lsbBits n v := by
  induction n generalizing v with
  | zero => rfl
  | succ n ih =>
    have hdiv : v % 2 ^ (n + 1) / 2 = v / 2 % 2 ^ n := by
      rw [pow_succ', mod_mul_right_div_self]
    have hodd : (v % 2 ^ (n + 1)).bodd = v.bodd := by
      have h : v % 2 ^ (n + 1) % 2 = v % 2 := by
        rw [pow_succ', mod_mul_right_mod]
      rw [mod_two_of_bodd, mod_two_of_bodd] at h
      cases h1 : (v % 2 ^ (n + 1)).bodd <;> cases h2 : v.bodd <;> simp_all
    rw [lsbBits, lsbBits, hdiv, ih, hodd]

theorem byteBits_eq (b : BitVec 8) : byteBits b = lsbBits 8 b.toNat := by
  revert b
  decide

theorem byteBits_ofNat (v : Nat) : byteBits (BitVec.ofNat 8 v) = lsbBits 8 v := by
  rw [byteBits_eq, BitVec.toNat_ofNat, lsbBits_mod]

theorem lsbBits_sixteen (v : Nat) : lsbBits 16 v = bitsOf [BitVec.ofNat 8 v, BitVec.ofNat 8 (v / 256)] := by
  rw [bitsOf_cons, bitsOf_cons, bitsOf_nil, append_nil, byteBits_ofNat, byteBits_ofNat]
  exact lsbBits_add 8 8 v

/-- Any bit string is written to bytes, the last of them filled up. -/
theorem exists_bytes (bits : List Bool) : ∃ bytes pad, pad.length < 8 ∧ bitsOf bytes = bits ++ pad := by
  by_cases h8 : 8 ≤ bits.length
  · obtain ⟨bytes, pad, hpad, hbits⟩ := exists_bytes (bits.drop 8)
    refine ⟨BitVec.ofNat 8 (lsbValue (bits.take 8)) :: bytes, pad, hpad, ?_⟩
    have htake : byteBits (BitVec.ofNat 8 (lsbValue (bits.take 8))) = bits.take 8 := by
      have hlen : (bits.take 8).length = 8 := by
        rw [length_take]
        omega
      have hround := lsbBits_lsbValue (bits.take 8)
      rw [hlen] at hround
      rw [byteBits_ofNat, hround]
    rw [bitsOf_cons, htake, hbits, ← append_assoc, take_append_drop]
  · by_cases h0 : bits.length = 0
    · exact ⟨[], [], by simp, by rw [length_eq_zero_iff.mp h0]; rfl⟩
    · refine ⟨[BitVec.ofNat 8 (lsbValue (bits ++ List.replicate (8 - bits.length) false))],
        List.replicate (8 - bits.length) false, by rw [length_replicate]; omega, ?_⟩
      have hround := lsbBits_lsbValue (bits ++ List.replicate (8 - bits.length) false)
      rw [length_append, length_replicate, show bits.length + (8 - bits.length) = 8 by omega] at hround
      rw [bitsOf_cons, bitsOf_nil, append_nil, byteBits_ofNat, hround]
termination_by bits.length

theorem byteBits_injective : Function.Injective byteBits := by
  intro a b h
  rw [byteBits_eq, byteBits_eq] at h
  have hv := congrArg lsbValue h
  rw [lsbValue_lsbBits a.isLt, lsbValue_lsbBits b.isLt] at hv
  exact BitVec.eq_of_toNat_eq hv

/-- Bits that begin with those of a byte string belong to bytes that begin with it. -/
theorem bitsOf_eq_append {xs ys : List (BitVec 8)} {r : List Bool} (h : bitsOf xs = bitsOf ys ++ r) :
    ∃ zs, xs = ys ++ zs ∧ r = bitsOf zs := by
  induction ys generalizing xs with
  | nil => exact ⟨xs, rfl, h.symm⟩
  | cons y ys ih =>
    cases xs with
    | nil =>
      have hlen := congrArg List.length h
      rw [length_append, bitsOf_cons, length_append, length_byteBits, bitsOf_nil, length_nil] at hlen
      omega
    | cons x xs =>
      rw [bitsOf_cons, bitsOf_cons, append_assoc] at h
      obtain ⟨hx, hrest⟩ := append_inj h (by simp)
      obtain ⟨zs, rfl, hr⟩ := ih hrest
      exact ⟨zs, by rw [byteBits_injective hx, cons_append], hr⟩

/-! ## Numbers, highest bit first -/

/-- The `n` lowest bits of `v`, highest first. -/
def msbBits : Nat → Nat → List Bool
  | 0, _ => []
  | n + 1, v => msbBits n (v / 2) ++ [v.bodd]

/-- The number a bit string stands for, highest bit first. -/
def msbValue (bs : List Bool) : Nat := bs.foldl (fun v b => 2 * v + b.toNat) 0

@[simp] theorem length_msbBits (n v : Nat) : (msbBits n v).length = n := by
  induction n generalizing v with
  | zero => rfl
  | succ n ih => simp [msbBits, ih]

theorem msbValue_concat (bs : List Bool) (b : Bool) : msbValue (bs ++ [b]) = 2 * msbValue bs + b.toNat := by
  simp [msbValue]

theorem msbValue_msbBits {n v : Nat} (h : v < 2 ^ n) : msbValue (msbBits n v) = v := by
  induction n generalizing v with
  | zero =>
    have : v = 0 := by simpa using h
    rw [this]
    rfl
  | succ n ih =>
    rw [msbBits, msbValue_concat, ih (by omega)]
    have := bodd_add_div2 v
    rw [div2_val] at this
    omega

theorem msbBits_take {m n : Nat} (h : m ≤ n) (v : Nat) : (msbBits n v).take m = msbBits m (v / 2 ^ (n - m)) := by
  obtain ⟨k, rfl⟩ := Nat.exists_eq_add_of_le h
  rw [Nat.add_sub_cancel_left]
  induction k generalizing v with
  | zero => simp [take_of_length_le]
  | succ k ih =>
    rw [show m + (k + 1) = m + k + 1 from rfl, msbBits, take_append_of_le_length (by simp),
      ih _ (by omega), Nat.div_div_eq_div_mul, pow_succ']

end MinicOs
