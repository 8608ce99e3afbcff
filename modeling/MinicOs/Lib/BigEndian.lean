import Mathlib.Data.List.Induction
import Mathlib.Data.Nat.Bits
import Mathlib.Tactic.Ring

/-!
# Fields of a byte string

A field is a run of bytes at a place (`bytesAt`), and as a number it has its highest byte first (`beValue`).
-/

namespace MinicOs

open List Nat

/-- `n` bytes from `p` on. -/
def bytesAt (data : List (BitVec 8)) (p n : Nat) : List (BitVec 8) := (data.drop p).take n

theorem length_bytesAt {data : List (BitVec 8)} {p n : Nat} (h : p + n ≤ data.length) : (bytesAt data p n).length = n := by
  unfold bytesAt
  rw [length_take, length_drop]
  omega

theorem getElem?_bytesAt (data : List (BitVec 8)) (p : Nat) {n i : Nat} (hi : i < n) :
    (bytesAt data p n)[i]? = data[p + i]? := by
  unfold bytesAt
  rw [getElem?_take_of_lt hi, getElem?_drop]

theorem bytesAt_eq {data pre xs rest : List (BitVec 8)} {p : Nat} (h : data.drop p = pre ++ (xs ++ rest)) :
    bytesAt data (p + pre.length) xs.length = xs := by
  unfold bytesAt
  rw [← drop_drop, h, drop_left, take_left]

/-- The bytes from a place on, one after the other. -/
theorem bytesAt_succ {data : List (BitVec 8)} {p n : Nat} (h : p < data.length) :
    bytesAt data p (n + 1) = data.get ⟨p, h⟩ :: bytesAt data (p + 1) n := by
  unfold bytesAt
  rw [drop_eq_getElem_cons h, take_succ_cons]
  rfl

theorem bytesAt_concat {data : List (BitVec 8)} {p n : Nat} (h : p + n < data.length) :
    bytesAt data p n ++ [data.get ⟨p + n, h⟩] = bytesAt data p (n + 1) := by
  unfold bytesAt
  rw [take_add_one, getElem?_drop, getElem?_eq_getElem h]
  rfl

/-- The number that bytes stand for, the highest first. -/
def beValue (bytes : List (BitVec 8)) : Nat := bytes.foldl (fun v b => v * 2 ^ 8 + b.toNat) 0

theorem beValue_lt (bytes : List (BitVec 8)) : beValue bytes < 2 ^ (8 * bytes.length) := by
  unfold beValue
  induction bytes using List.reverseRecOn with
  | nil => simp
  | append_singleton bytes b ih =>
    rw [foldl_append, foldl_cons, foldl_nil, length_append, length_singleton, Nat.mul_add, pow_add]
    omega

theorem beValue_append (xs ys : List (BitVec 8)) : beValue (xs ++ ys) = beValue xs * 2 ^ (8 * ys.length) + beValue ys := by
  unfold beValue
  induction ys using List.reverseRecOn with
  | nil => simp
  | append_singleton ys y ih =>
    rw [← append_assoc, foldl_append, foldl_cons, foldl_nil, ih, foldl_append, foldl_cons,
      foldl_nil, length_append, length_singleton]
    ring

theorem beValue_cons (x : BitVec 8) (ys : List (BitVec 8)) :
    beValue (x :: ys) = x.toNat * 2 ^ (8 * ys.length) + beValue ys := by
  have h := beValue_append [x] ys
  rwa [show beValue [x] = x.toNat from Nat.zero_add _] at h

theorem beValue_bytesAt_lt (data : List (BitVec 8)) (p : Nat) : beValue (bytesAt data p 4) < 2 ^ 32 := by
  refine Nat.lt_of_lt_of_le (beValue_lt _) (Nat.pow_le_pow_right (by omega) ?_)
  unfold bytesAt
  rw [length_take]
  omega

theorem or_bytes (b0 b1 b2 b3 : BitVec 8) :
    b0.toNat <<< 24 ||| b1.toNat <<< 16 ||| b2.toNat <<< 8 ||| b3.toNat = beValue [b0, b1, b2, b3] := by
  have h3 := b3.isLt
  have e3 : b2.toNat <<< 8 ||| b3.toNat = b2.toNat * 2 ^ 8 + b3.toNat := by
    rw [← Nat.shiftLeft_add_eq_or_of_lt h3, Nat.shiftLeft_eq]
  have e2 : b1.toNat <<< 16 ||| (b2.toNat <<< 8 ||| b3.toNat) = b1.toNat * 2 ^ 16 + (b2.toNat * 2 ^ 8 + b3.toNat) := by
    rw [e3, ← Nat.shiftLeft_add_eq_or_of_lt (by omega), Nat.shiftLeft_eq]
  rw [Nat.or_assoc, Nat.or_assoc, e2, ← Nat.shiftLeft_add_eq_or_of_lt (by omega), Nat.shiftLeft_eq]
  simp only [beValue, foldl_cons, foldl_nil]
  omega

theorem or_two_bytes (b0 b1 : BitVec 8) : b0.toNat <<< 8 ||| b1.toNat = beValue [b0, b1] := by
  rw [← Nat.shiftLeft_add_eq_or_of_lt b1.isLt, Nat.shiftLeft_eq]
  simp only [beValue, foldl_cons, foldl_nil]
  omega

theorem bytesAt_bytesAt (data : List (BitVec 8)) (p : Nat) {n i m : Nat} (h : i + m ≤ n) :
    bytesAt data (p + i) m = ((bytesAt data p n).drop i).take m := by
  unfold bytesAt
  rw [drop_take, take_take, drop_drop, min_eq_left (by omega)]

/-! ## The bytes of a number -/

/-- The low `len` bytes of `v`, the highest first. -/
def beBytes (len v : Nat) : List (BitVec 8) := (List.range len).map fun j => BitVec.ofNat 8 (v / 2 ^ (8 * (len - 1 - j)))

@[simp] theorem length_beBytes (len v : Nat) : (beBytes len v).length = len := by
  unfold beBytes
  rw [length_map, length_range]

theorem getElem?_beBytes {len j : Nat} (v : Nat) (h : j < len) :
    (beBytes len v)[j]? = some (BitVec.ofNat 8 (v / 2 ^ (8 * (len - 1 - j)))) := by
  unfold beBytes
  rw [getElem?_map, getElem?_range h]
  rfl

theorem beBytes_succ (len v : Nat) : beBytes (len + 1) v = BitVec.ofNat 8 (v / 2 ^ (8 * len)) :: beBytes len v := by
  unfold beBytes
  rw [range_succ_eq_map, map_cons, map_map]
  refine congrArg₂ _ rfl (map_congr_left fun j hj => ?_)
  show BitVec.ofNat 8 (v / 2 ^ (8 * (len + 1 - 1 - (j + 1)))) = _
  congr 4
  omega

theorem beValue_beBytes (len v : Nat) : beValue (beBytes len v) = v % 2 ^ (8 * len) := by
  induction len with
  | zero => rw [Nat.mul_zero, Nat.pow_zero, Nat.mod_one]; rfl
  | succ len ih =>
    rw [beBytes_succ, beValue_cons, ih, length_beBytes, BitVec.toNat_ofNat, Nat.mul_succ, Nat.pow_add, Nat.mod_mul]
    ring

theorem beBytes_mod (len v : Nat) : beBytes len (v % 2 ^ (8 * len)) = beBytes len v := by
  refine ext_getElem? fun j => ?_
  rcases lt_or_ge j len with hj | hj
  · rw [getElem?_beBytes _ hj, getElem?_beBytes _ hj]
    refine congrArg some (BitVec.eq_of_toNat_eq ?_)
    have hsplit : 8 * len = 8 * (len - 1 - j) + 8 * (j + 1) := by omega
    have hlow : 2 ^ 8 ∣ 2 ^ (8 * (j + 1)) := pow_dvd_pow 2 (by omega)
    rw [BitVec.toNat_ofNat, BitVec.toNat_ofNat, hsplit, pow_add, mod_mul_right_div_self, mod_mod_of_dvd _ hlow]
  · rw [getElem?_eq_none (by rwa [length_beBytes]), getElem?_eq_none (by rwa [length_beBytes])]

/-- **Bytes are the bytes of their number.** -/
theorem beBytes_beValue (bytes : List (BitVec 8)) : beBytes bytes.length (beValue bytes) = bytes := by
  induction bytes with
  | nil => rfl
  | cons b bytes ih =>
    have hlt := beValue_lt bytes
    rw [length_cons, beBytes_succ, beValue_cons]
    refine congrArg₂ _ ?_ (Eq.trans ?_ ih)
    · rw [Nat.mul_comm, Nat.mul_add_div (Nat.two_pow_pos _), Nat.div_eq_of_lt hlt, Nat.add_zero, BitVec.ofNat_toNat,
        BitVec.setWidth_eq]
    · rw [← beBytes_mod, mul_add_mod_self_right, mod_eq_of_lt hlt]

end MinicOs
