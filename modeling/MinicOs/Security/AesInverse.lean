import Mathlib.Data.FinEnum
import Mathlib.Data.Fintype.EquivFin
import Mathlib.Data.LawfulXor.Basic
import MinicOs.Lib.Chaining
import MinicOs.Security.Aes

/-!
# AES-128 is invertible

Each step of a round has its inverse: the tables, the rotations of the rows, the multiplication of the columns and the
addition of a round key. `gf_mul` is linear in its first argument (`gfMul_xor`), so that the product of the two matrices
is settled byte by byte.
-/

namespace MinicOs

open Vector

/-! ## The tables -/

theorem invSbox_sbox (x : U8) : invSbox (sbox x) = x := by
  revert x
  decide +kernel

-- a permutation of a finite set has one inverse, so the second table needs no check of its own
theorem sbox_invSbox : ∀ x : U8, sbox (invSbox x) = x :=
  Function.LeftInverse.rightInverse_of_injective invSbox_sbox
    (Finite.injective_iff_surjective.mpr (Function.LeftInverse.surjective invSbox_sbox))

variable (s : AesBlock)

theorem invSubBytes_subBytes : invSubBytes (subBytes s) = s := by
  unfold invSubBytes subBytes
  refine Vector.ext fun i hi => ?_
  rw [getElem_map, getElem_map, invSbox_sbox]

theorem subBytes_invSubBytes : subBytes (invSubBytes s) = s := by
  unfold invSubBytes subBytes
  refine Vector.ext fun i hi => ?_
  rw [getElem_map, getElem_map, sbox_invSbox]

/-! ## The rows -/

theorem invShiftRows_shiftRows : invShiftRows (shiftRows s) = s := by
  unfold invShiftRows shiftRows
  refine Vector.ext fun i hi => ?_
  rw [getElem_ofFn, getElem_ofFn]
  exact getElem_congr_idx (by dsimp only; omega)

theorem shiftRows_invShiftRows : shiftRows (invShiftRows s) = s := by
  unfold invShiftRows shiftRows
  refine Vector.ext fun i hi => ?_
  rw [getElem_ofFn, getElem_ofFn]
  exact getElem_congr_idx (by dsimp only; omega)

/-! ## The columns -/

theorem xor_left_comm (x y z : U8) : x ^^^ (y ^^^ z) = y ^^^ (x ^^^ z) := by
  rw [← BitVec.xor_assoc, BitVec.xor_comm x, BitVec.xor_assoc]

/-- The sum of a four by four table, row by row from the diagonal on and column by column. -/
theorem xor_transpose (x00 x01 x02 x03 x10 x11 x12 x13 x20 x21 x22 x23 x30 x31 x32 x33 : U8) :
    x00 ^^^ x01 ^^^ x02 ^^^ x03 ^^^ (x11 ^^^ x12 ^^^ x13 ^^^ x10) ^^^ (x22 ^^^ x23 ^^^ x20 ^^^ x21) ^^^
        (x33 ^^^ x30 ^^^ x31 ^^^ x32) =
      x00 ^^^ x10 ^^^ x20 ^^^ x30 ^^^ (x01 ^^^ x11 ^^^ x21 ^^^ x31) ^^^ (x02 ^^^ x12 ^^^ x22 ^^^ x32) ^^^
        (x03 ^^^ x13 ^^^ x23 ^^^ x33) := by
  simp only [BitVec.xor_assoc, BitVec.xor_comm, xor_left_comm]

/-- `aa` after one round of `gf_mul`. -/
def gfDouble (a : U8) : U8 := if a &&& 0x80 ≠ 0 then a <<< 1 ^^^ 0x1B else a <<< 1

theorem and_high_ne_zero (a : U8) : a &&& 0x80 ≠ 0 ↔ a.msb = true := by
  revert a
  decide +kernel

theorem gfDouble_xor (a b : U8) : gfDouble (a ^^^ b) = gfDouble a ^^^ gfDouble b := by
  unfold gfDouble
  simp only [and_high_ne_zero, BitVec.msb_xor, BitVec.shiftLeft_xor_distrib]
  cases a.msb <;> cases b.msb
  · rfl
  · exact BitVec.xor_assoc ..
  · show a <<< 1 ^^^ b <<< 1 ^^^ 0x1B = a <<< 1 ^^^ 0x1B ^^^ b <<< 1
    ac_rfl
  · show a <<< 1 ^^^ b <<< 1 = a <<< 1 ^^^ 0x1B ^^^ (b <<< 1 ^^^ 0x1B)
    rw [BitVec.xor_assoc, BitVec.xor_comm (b <<< 1)]
    exact congrArg (a <<< 1 ^^^ ·) (xor_cancel_left ..).symm

theorem gfMulStep_eq (r a b : U8) : gfMulStep (r, a, b) = (if b &&& 1 ≠ 0 then r ^^^ a else r, gfDouble a, b >>> 1) := rfl

theorem gfMulStep_xor (r r' a a' b : U8) :
    gfMulStep (r ^^^ r', a ^^^ a', b) = ((gfMulStep (r, a, b)).1 ^^^ (gfMulStep (r', a', b)).1,
      (gfMulStep (r, a, b)).2.1 ^^^ (gfMulStep (r', a', b)).2.1, b >>> 1) := by
  simp only [gfMulStep_eq, gfDouble_xor]
  by_cases hb : b &&& 1 ≠ 0
  · simp only [if_pos hb]
    ac_rfl
  · simp only [if_neg hb]

/-- The rounds of `gf_mul` are linear in `result` and `aa`. -/
theorem gfMulSteps_xor (is : List Nat) (r r' a a' b : U8) : (is.foldl (fun s _ => gfMulStep s) (r ^^^ r', a ^^^ a', b)).1 =
      (is.foldl (fun s _ => gfMulStep s) (r, a, b)).1 ^^^ (is.foldl (fun s _ => gfMulStep s) (r', a', b)).1 := by
  induction is generalizing r r' a a' b with
  | nil => rfl
  | cons i is ih =>
    rw [List.foldl_cons, gfMulStep_xor]
    exact ih ..

/-- **`gf_mul` is linear in its first argument.** -/
theorem gfMul_xor (a b c : U8) : gfMul (a ^^^ b) c = gfMul a c ^^^ gfMul b c := gfMulSteps_xor _ 0 0 a b c

variable (a0 a1 a2 a3 : U8)

/-- The first row of `mix_columns`; the other rows are its rotations. -/
def mixRow : U8 := gfMul a0 2 ^^^ gfMul a1 3 ^^^ a2 ^^^ a3

/-- The first row of `inv_mix_columns`. -/
def invMixRow : U8 := gfMul a0 14 ^^^ gfMul a1 11 ^^^ gfMul a2 13 ^^^ gfMul a3 9

theorem mixColumn_eq : mixColumn a0 a1 a2 a3 =
    #v[mixRow a0 a1 a2 a3, mixRow a1 a2 a3 a0, mixRow a2 a3 a0 a1, mixRow a3 a0 a1 a2] := by
  simp only [mixColumn, mixRow, BitVec.xor_assoc, BitVec.xor_comm, xor_left_comm]

theorem invMixColumn_eq : invMixColumn a0 a1 a2 a3 =
    #v[invMixRow a0 a1 a2 a3, invMixRow a1 a2 a3 a0, invMixRow a2 a3 a0 a1, invMixRow a3 a0 a1 a2] := by
  simp only [invMixColumn, invMixRow, BitVec.xor_assoc, BitVec.xor_comm, xor_left_comm]

/-- The products of the two matrices are sums of bytes that were doubled. -/
theorem gfMul_sums (a : U8) : gfMul a 2 = gfDouble a ∧ gfMul a 3 = a ^^^ gfDouble a ∧
      gfMul a 9 = a ^^^ gfDouble (gfDouble (gfDouble a)) ∧
      gfMul a 11 = a ^^^ gfDouble a ^^^ gfDouble (gfDouble (gfDouble a)) ∧
      gfMul a 13 = a ^^^ gfDouble (gfDouble a) ^^^ gfDouble (gfDouble (gfDouble a)) ∧
      gfMul a 14 = gfDouble a ^^^ gfDouble (gfDouble a) ^^^ gfDouble (gfDouble (gfDouble a)) := by
  refine ⟨?_, ?_, ?_, ?_, ?_, ?_⟩ <;> simp [gfMul, List.range, List.range.loop, gfMulStep_eq]

/-- A row of the product of the matrices, for each of the four bytes of a column. The reduction polynomial plays no part:
the doubled bytes cancel. -/
theorem invMix_mix (x : U8) : gfMul (gfMul x 2) 14 ^^^ gfMul x 11 ^^^ gfMul x 13 ^^^ gfMul (gfMul x 3) 9 = x ∧
      gfMul (gfMul x 3) 14 ^^^ gfMul (gfMul x 2) 11 ^^^ gfMul x 13 ^^^ gfMul x 9 = 0 ∧
      gfMul x 14 ^^^ gfMul (gfMul x 3) 11 ^^^ gfMul (gfMul x 2) 13 ^^^ gfMul x 9 = 0 ∧
      gfMul x 14 ^^^ gfMul x 11 ^^^ gfMul (gfMul x 3) 13 ^^^ gfMul (gfMul x 2) 9 = 0 := by
  obtain ⟨h2, h3, h9, h11, h13, h14⟩ := gfMul_sums x
  obtain ⟨-, -, d9, d11, d13, d14⟩ := gfMul_sums (gfDouble x)
  simp only [h2, h3, h9, h11, h13, h14, gfMul_xor, d9, d11, d13, d14]
  refine ⟨?_, ?_, ?_, ?_⟩ <;> simp [xor_cancel_left, BitVec.xor_comm, BitVec.xor_assoc, xor_left_comm]

theorem mix_invMix (x : U8) : gfMul (gfMul x 14) 2 ^^^ gfMul (gfMul x 9) 3 ^^^ gfMul x 13 ^^^ gfMul x 11 = x ∧
      gfMul (gfMul x 11) 2 ^^^ gfMul (gfMul x 14) 3 ^^^ gfMul x 9 ^^^ gfMul x 13 = 0 ∧
      gfMul (gfMul x 13) 2 ^^^ gfMul (gfMul x 11) 3 ^^^ gfMul x 14 ^^^ gfMul x 9 = 0 ∧
      gfMul (gfMul x 9) 2 ^^^ gfMul (gfMul x 13) 3 ^^^ gfMul x 11 ^^^ gfMul x 14 = 0 := by
  obtain ⟨-, -, h9, h11, h13, h14⟩ := gfMul_sums x
  simp only [h9, h11, h13, h14, (gfMul_sums _).1, (gfMul_sums _).2.1, gfDouble_xor]
  refine ⟨?_, ?_, ?_, ?_⟩ <;> simp [xor_cancel_left, BitVec.xor_comm, BitVec.xor_assoc, xor_left_comm]

/-- The byte on the diagonal comes back, the other three cancel. -/
theorem invMixRow_mixRow :
    invMixRow (mixRow a0 a1 a2 a3) (mixRow a1 a2 a3 a0) (mixRow a2 a3 a0 a1) (mixRow a3 a0 a1 a2) = a0 := by
  simp only [invMixRow, mixRow, gfMul_xor]
  rw [xor_transpose, (invMix_mix a0).1, (invMix_mix a1).2.1, (invMix_mix a2).2.2.1, (invMix_mix a3).2.2.2]
  simp

theorem mixRow_invMixRow :
    mixRow (invMixRow a0 a1 a2 a3) (invMixRow a1 a2 a3 a0) (invMixRow a2 a3 a0 a1) (invMixRow a3 a0 a1 a2) = a0 := by
  simp only [invMixRow, mixRow, gfMul_xor]
  rw [xor_transpose, (mix_invMix a0).1, (mix_invMix a1).2.1, (mix_invMix a2).2.2.1, (mix_invMix a3).2.2.2]
  simp

/-- `g` undoes `f` on a column. -/
def UndoesColumn (g f : U8 → U8 → U8 → U8 → Vector U8 4) : Prop :=
  ∀ a0 a1 a2 a3, ∃ b0 b1 b2 b3, f a0 a1 a2 a3 = #v[b0, b1, b2, b3] ∧ g b0 b1 b2 b3 = #v[a0, a1, a2, a3]

theorem invMixColumn_mixColumn : UndoesColumn invMixColumn mixColumn := by
  intro a0 a1 a2 a3
  refine ⟨_, _, _, _, mixColumn_eq .., ?_⟩
  rw [invMixColumn_eq, invMixRow_mixRow, invMixRow_mixRow a1, invMixRow_mixRow a2, invMixRow_mixRow a3]

theorem mixColumn_invMixColumn : UndoesColumn mixColumn invMixColumn := by
  intro a0 a1 a2 a3
  refine ⟨_, _, _, _, invMixColumn_eq .., ?_⟩
  rw [mixColumn_eq, mixRow_invMixRow, mixRow_invMixRow a1, mixRow_invMixRow a2, mixRow_invMixRow a3]

theorem getElem_onColumns (f : U8 → U8 → U8 → U8 → Vector U8 4) (s : AesBlock) {c r : Nat} (hc : c < 4) (hr : r < 4) :
    (onColumns f s)[4 * c + r] = (f s[4 * c + 0] s[4 * c + 1] s[4 * c + 2] s[4 * c + 3])[r] := by
  have hdiv : (4 * c + r) / 4 = c := by omega
  have hmod : (4 * c + r) % 4 = r := by omega
  unfold onColumns
  simp only [getElem_ofFn, hdiv, hmod]

/-- What undoes a column undoes the state, column by column. -/
theorem UndoesColumn.onColumns {g f : U8 → U8 → U8 → U8 → Vector U8 4} (h : UndoesColumn g f) (s : AesBlock) :
    onColumns g (onColumns f s) = s := by
  refine Vector.ext fun i hi => ?_
  obtain ⟨c, r, hc, hr, rfl⟩ : ∃ c r, c < 4 ∧ r < 4 ∧ i = 4 * c + r := ⟨i / 4, i % 4, by omega, by omega, by omega⟩
  obtain ⟨b0, b1, b2, b3, hf, hg⟩ := h s[4 * c + 0] s[4 * c + 1] s[4 * c + 2] s[4 * c + 3]
  rw [getElem_onColumns g _ hc hr]
  simp only [getElem_onColumns f s hc (by decide : 0 < 4), getElem_onColumns f s hc (by decide : 1 < 4),
    getElem_onColumns f s hc (by decide : 2 < 4), getElem_onColumns f s hc (by decide : 3 < 4), hf]
  show (g b0 b1 b2 b3)[r] = _
  simp only [hg]
  interval_cases r <;> rfl

/-! ## The round keys -/

variable (roundKeys : RoundKeys)

theorem addRoundKey_addRoundKey (s : AesBlock) (round : Fin 11) :
    addRoundKey roundKeys (addRoundKey roundKeys s round) round = s := by
  unfold addRoundKey
  refine Vector.ext fun i hi => ?_
  rw [getElem_ofFn]
  show (Vector.ofFn _)[i] ^^^ _ = s[i]
  rw [getElem_ofFn]
  exact xor_cancel_right _ _

/-! ## Blocks -/

/-- A round of encryption, undone. A round of `aes128_decrypt_block` has the same steps, but it begins with the rows and
the table of the round before. -/
def undoRound (s : AesBlock) (round : Fin 11) : AesBlock :=
  invSubBytes (invShiftRows (invMixColumns (addRoundKey roundKeys s round)))

theorem undoRound_encryptRound (round : Fin 11) (s : AesBlock) :
    undoRound roundKeys (encryptRound roundKeys s round) round = s := by
  unfold undoRound encryptRound
  rw [addRoundKey_addRoundKey, invMixColumns, mixColumns, invMixColumn_mixColumn.onColumns, invShiftRows_shiftRows,
    invSubBytes_subBytes]

theorem encryptRound_undoRound (round : Fin 11) (s : AesBlock) :
    encryptRound roundKeys (undoRound roundKeys s round) round = s := by
  unfold undoRound encryptRound
  rw [subBytes_invSubBytes, shiftRows_invShiftRows, mixColumns, invMixColumns, mixColumn_invMixColumn.onColumns,
    addRoundKey_addRoundKey]

/-- The rounds of decryption, with the rows and the table moved from their start to their end. -/
theorem decryptRounds_eq (rounds : List (Fin 11)) (s : AesBlock) :
    invSubBytes (invShiftRows (rounds.foldl (decryptRound roundKeys) s)) =
      rounds.foldl (undoRound roundKeys) (invSubBytes (invShiftRows s)) := by
  induction rounds generalizing s with
  | nil => rfl
  | cons round rounds ih =>
    rw [List.foldl_cons, List.foldl_cons, ih]
    rfl

/-- Decryption, as the steps of encryption undone one by one. -/
theorem aes128DecryptBlock_eq (x : AesBlock) : aes128DecryptBlock roundKeys x =
    addRoundKey roundKeys (middleRounds.reverse.foldl (undoRound roundKeys)
      (invSubBytes (invShiftRows (addRoundKey roundKeys x aesRounds)))) 0 := by
  unfold aes128DecryptBlock
  dsimp only
  rw [decryptRounds_eq]

theorem aes128DecryptBlock_aes128EncryptBlock (x : AesBlock) :
    aes128DecryptBlock roundKeys (aes128EncryptBlock roundKeys x) = x := by
  rw [aes128DecryptBlock_eq]
  unfold aes128EncryptBlock
  rw [addRoundKey_addRoundKey, invShiftRows_shiftRows, invSubBytes_subBytes,
    foldl_reverse_foldl (undoRound_encryptRound roundKeys), addRoundKey_addRoundKey]

theorem aes128EncryptBlock_aes128DecryptBlock (x : AesBlock) :
    aes128EncryptBlock roundKeys (aes128DecryptBlock roundKeys x) = x := by
  have hrounds := foldl_reverse_foldl (encryptRound_undoRound roundKeys) middleRounds.reverse
  rw [List.reverse_reverse] at hrounds
  rw [aes128DecryptBlock_eq]
  unfold aes128EncryptBlock
  dsimp only
  rw [addRoundKey_addRoundKey, hrounds, subBytes_invSubBytes, shiftRows_invShiftRows, addRoundKey_addRoundKey]

end MinicOs
