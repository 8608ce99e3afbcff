import MinicOs.Security.AesInverse

/-!
# Unwrapping a key

Model of `aes_key_unwrap` of `kernel/security/aes/aes_keywrap.c`, with `a` and the 64-bit blocks of `out` as its state.
`Rfc3394.wrap` is the key wrap of the RFC. The steps of the one undo those of the other, in the opposite order.
-/

namespace MinicOs

open Nat

/-- A block of 64 bits. -/
abbrev Half := Vector U8 8

/-- Blocks of 64 bits. -/
abbrev Halves (n : Nat) := Vector Half n

open List

def defaultIv : Half := Vector.replicate 8 0xA6

theorem Half.lt (i : Fin 8) : i.val < 8 := i.isLt

def xorT (a : Half) (t : Nat) : Half := Vector.ofFn fun i => getElem a i.val (Half.lt i) ^^^ BitVec.ofNat 8 (t >>> (56 - i.val * 8))

def joined (a r : Half) : AesBlock := Vector.ofFn fun i => if h : i.val < 8 then a[i.val] else r[i.val - 8]

theorem Half.lt_block (i : Fin 8) : i.val < 16 := by omega

def firstHalf (b : AesBlock) : Half := Vector.ofFn fun i => getElem b i.val (Half.lt_block i)

def secondHalf (b : AesBlock) : Half := Vector.ofFn fun i => b[8 + i.val]

/-- The block at `8 * k`. -/
def halfAt (bytes : List U8) (k : Nat) : Half := Vector.ofFn fun i => bytes.getD (8 * k + i.val) 0

def halves (n : Nat) (bytes : List U8) : Halves n := Vector.ofFn fun k => halfAt bytes k.val

variable {n : Nat}

/-- The bytes of blocks. -/
def halfBytes (r : Halves n) : List U8 := List.ofFn fun i : Fin (8 * n) => r[i.val / 8][i.val % 8]

variable (roundKeys : RoundKeys)

/-- One round of the inner loop, at `j` and `idx = i + 1`. -/
def unwrapStep (s : Half × Halves n) (p : Fin 6 × Fin n) : Half × Halves n :=
  let a := xorT s.1 ((n * p.1.val + (p.2.val + 1)) % 2 ^ 32)
  let decrypted := aes128DecryptBlock roundKeys (joined a s.2[p.2])
  (firstHalf decrypted, s.2.set p.2 (secondHalf decrypted))

/-- The rounds of `aes_key_unwrap`, from `j = 5` and `idx = n` down. -/
def unwrapOrder (n : Nat) : List (Fin 6 × Fin n) :=
  (List.finRange 6).reverse.flatMap fun j => (List.finRange n).reverse.map fun i => (j, i)

/-- `aes_key_unwrap`: the key, or none for `false`. -/
def aesKeyUnwrap (wrapped : List U8) : Option (List U8) :=
  if wrapped.length < 16 ∨ wrapped.length % 8 ≠ 0 then none
  else
    let n := wrapped.length / 8 - 1
    let s := (unwrapOrder n).foldl (unwrapStep roundKeys) (halfAt wrapped 0, halves n (wrapped.drop 8))
    if s.1 = defaultIv then some (halfBytes s.2) else none

/-! ## The RFC -/

namespace Rfc3394

/-- One step: `A = MSB(64, B) ^ t` and `R[i] = LSB(64, B)`, where `B = AES(K, A | R[i])` and `t = n * j + i`. -/
def wrapStep (s : Half × Halves n) (p : Fin 6 × Fin n) : Half × Halves n :=
  let b := aes128EncryptBlock roundKeys (joined s.1 s.2[p.2])
  (xorT (firstHalf b) (n * p.1.val + (p.2.val + 1)), s.2.set p.2 (secondHalf b))

/-- The steps for `j = 0` to `5` and `i = 1` to `n`. -/
def wrapOrder (n : Nat) : List (Fin 6 × Fin n) := (List.finRange 6).flatMap fun j => (List.finRange n).map fun i => (j, i)

/-- The key wrap of `n` blocks, with the default initial value. -/
def wrap (n : Nat) (key : List U8) : List U8 :=
  let s := (wrapOrder n).foldl (wrapStep roundKeys) (defaultIv, halves n key)
  s.1.toList ++ halfBytes s.2

end Rfc3394

open Rfc3394

/-! ## Bytes and blocks -/

theorem halves_halfBytes (r : Halves n) : halves n (halfBytes r) = r := by
  refine Vector.ext fun k hk => Vector.ext fun i hi => ?_
  have hlt : 8 * k + i < 8 * n := by omega
  unfold halves halfBytes halfAt
  rw [Vector.getElem_ofFn, Vector.getElem_ofFn, getD_eq_getElem _ _ (by rwa [length_ofFn]), List.getElem_ofFn]
  simp only [show (8 * k + i) / 8 = k by omega, show (8 * k + i) % 8 = i by omega]

theorem halfBytes_halves {bytes : List U8} (h : bytes.length = 8 * n) : halfBytes (halves n bytes) = bytes := by
  unfold halves halfBytes halfAt
  refine List.ext_getElem (by rw [length_ofFn, h]) fun i hi _ => ?_
  rw [List.getElem_ofFn, Vector.getElem_ofFn, Vector.getElem_ofFn]
  simp only [div_add_mod, getD_eq_getElem _ _ (show i < bytes.length by omega)]

theorem halfAt_toList_append (a : Half) (bytes : List U8) : halfAt (a.toList ++ bytes) 0 = a := by
  refine Vector.ext fun i hi => ?_
  unfold halfAt
  rw [Vector.getElem_ofFn, Nat.mul_zero, Nat.zero_add, getD_append _ _ _ _ (by simpa using hi),
    getD_eq_getElem _ _ (by simpa using hi)]
  exact Vector.getElem_toList ..

theorem halfAt_append_halves {bytes : List U8} (h : bytes.length = 8 * (n + 1)) :
    (halfAt bytes 0).toList ++ halfBytes (halves n (bytes.drop 8)) = bytes := by
  have htake : (halfAt bytes 0).toList = bytes.take 8 := by
    unfold halfAt
    refine List.ext_getElem (by rw [Vector.length_toList, length_take]; omega) fun i hi _ => ?_
    rw [Vector.length_toList] at hi
    rw [Vector.getElem_toList, Vector.getElem_ofFn, getElem_take]
    simp only [mul_zero, zero_add]
    exact getD_eq_getElem _ _ (by omega)
  rw [htake, halfBytes_halves (by rw [length_drop]; omega), take_append_drop]

/-! ## The steps -/

theorem xorT_xorT (a : Half) (t : Nat) : xorT (xorT a t) t = a := by
  refine Vector.ext fun i hi => ?_
  unfold xorT
  rw [Vector.getElem_ofFn, Vector.getElem_ofFn, BitVec.xor_assoc, BitVec.xor_self, BitVec.xor_zero]

theorem firstHalf_joined (a r : Half) : firstHalf (joined a r) = a := by
  refine Vector.ext fun i hi => ?_
  unfold firstHalf joined
  rw [Vector.getElem_ofFn, Vector.getElem_ofFn, dif_pos hi]

theorem secondHalf_joined (a r : Half) : secondHalf (joined a r) = r := by
  refine Vector.ext fun i hi => ?_
  unfold secondHalf joined
  rw [Vector.getElem_ofFn, Vector.getElem_ofFn, dif_neg (by dsimp only; omega)]
  simp only [Nat.add_sub_cancel_left]

theorem joined_halves (b : AesBlock) : joined (firstHalf b) (secondHalf b) = b := by
  refine Vector.ext fun i hi => ?_
  unfold joined firstHalf secondHalf
  rw [Vector.getElem_ofFn]
  split
  · rw [Vector.getElem_ofFn]
  · rename_i h
    have hge : 8 ≤ i := Nat.le_of_not_lt h
    rw [Vector.getElem_ofFn]
    exact getElem_congr_idx (Nat.add_sub_cancel' hge)

section Inverse

variable (hn : n < 2 ^ 26)

include hn

theorem counter_lt (p : Fin 6 × Fin n) : (n * p.1.val + (p.2.val + 1)) % 2 ^ 32 = n * p.1.val + (p.2.val + 1) := by
  have hj : n * p.1.val ≤ n * 5 := mul_le_mul_left n (by omega)
  exact mod_eq_of_lt (by omega)

theorem unwrapStep_wrapStep (p : Fin 6 × Fin n) (s : Half × Halves n) :
    unwrapStep roundKeys (wrapStep roundKeys s p) p = s := by
  simp only [unwrapStep, wrapStep, counter_lt hn, xorT_xorT, Fin.getElem_fin, Vector.getElem_set_self, joined_halves,
    aes128DecryptBlock_aes128EncryptBlock, firstHalf_joined, secondHalf_joined, Vector.set_set, Vector.set_getElem_self]

theorem wrapStep_unwrapStep (p : Fin 6 × Fin n) (s : Half × Halves n) :
    wrapStep roundKeys (unwrapStep roundKeys s p) p = s := by
  simp only [unwrapStep, wrapStep, counter_lt hn, Fin.getElem_fin, Vector.getElem_set_self, joined_halves,
    aes128EncryptBlock_aes128DecryptBlock, firstHalf_joined, secondHalf_joined, Vector.set_set, xorT_xorT,
    Vector.set_getElem_self]

end Inverse

theorem reverse_wrapOrder (n : Nat) : (wrapOrder n).reverse = unwrapOrder n := by
  unfold unwrapOrder wrapOrder
  rw [reverse_flatMap]
  simp only [map_reverse, Function.comp_def]

/-- **Exactly the wrapped keys are accepted.** -/
theorem aesKeyUnwrap_iff (kek : AesBlock) (wrapped key : List U8) : (∀ n, 1 ≤ n → n < 2 ^ 26 → wrapped.length = 8 * (n + 1) →
      (aesKeyUnwrap (aes128KeyExpand kek) wrapped = some key ↔
        key.length = 8 * n ∧ wrapped = Rfc3394.wrap (aes128KeyExpand kek) n key)) ∧
    (wrapped.length < 16 ∨ wrapped.length % 8 ≠ 0 → aesKeyUnwrap (aes128KeyExpand kek) wrapped = none) := by
  generalize aes128KeyExpand kek = roundKeys
  refine ⟨fun n h1 hn hlen => ?_, fun h => if_pos h⟩
  have hundo := foldl_reverse_foldl (unwrapStep_wrapStep roundKeys hn) (wrapOrder n)
  have hredo := foldl_reverse_foldl (wrapStep_unwrapStep roundKeys hn) (wrapOrder n).reverse
  rw [reverse_reverse] at hredo
  rw [reverse_wrapOrder] at hundo hredo
  unfold aesKeyUnwrap Rfc3394.wrap
  rw [if_neg (by omega), show wrapped.length / 8 - 1 = n by omega]
  dsimp only
  constructor
  · intro h
    split at h
    · rename_i hiv
      obtain rfl := Option.some.inj h
      refine ⟨length_ofFn, ?_⟩
      rw [halves_halfBytes, ← hiv, Prod.mk.eta, hredo, halfAt_append_halves hlen]
    · cases h
  · rintro ⟨hkey, hwrapped⟩
    rw [hwrapped, halfAt_toList_append, drop_left' (Vector.length_toList ..), halves_halfBytes, Prod.mk.eta, hundo,
      if_pos rfl, halfBytes_halves hkey]

theorem aesKeyUnwrap_iff_two :
    let roundKeys := aes128KeyExpand (Vector.replicate 16 1)
    aesKeyUnwrap roundKeys (Rfc3394.wrap roundKeys 2 (replicate 8 2 ++ replicate 8 3)) = some (replicate 8 2 ++ replicate 8 3) := by
  refine ((aesKeyUnwrap_iff (Vector.replicate 16 1) _ _).1 2 (by decide) (by decide) ?_).mpr ⟨rfl, rfl⟩
  rw [Rfc3394.wrap, length_append, Vector.length_toList, halfBytes, length_ofFn]

end MinicOs
