import MinicOs.Lib.BigEndian
import MinicOs.Security.AesCbc

/-!
# CCM as the standard has it

NIST SP 800-38C with the formatting of its appendix A, over an arbitrary cipher of 16-byte blocks and for every length `t`
of the code and every length `q` of the length field, in bytes; the nonce has `15 - q` bytes.

The blocks of padded bytes come one at a time (`blocksOf_zeroPad`), and the keystream block by block (`xorStream_drop`).
-/

namespace MinicOs

open List

namespace Ccm

/-! ## Formatting -/

/-- Zeros up to the next multiple of 16 bytes, none where there is nothing to add. -/
def zeroPad (bytes : List U8) : List U8 := bytes ++ List.replicate ((16 - bytes.length % 16) % 16) 0

/-- The first block: the flags, the nonce and the length of the payload. -/
def firstBlock (t q : Nat) (nonce : List U8) (adata : Bool) (payloadLen : Nat) : List U8 :=
  BitVec.ofNat 8 (64 * adata.toNat + 8 * ((t - 2) / 2) + (q - 1)) :: (nonce ++ beBytes q payloadLen)

/-- How the length of the associated data is written before it. -/
def encodeLength (a : Nat) : List U8 :=
  if a < 2 ^ 16 - 2 ^ 8 then beBytes 2 a
  else if a < 2 ^ 32 then [0xFF, 0xFE] ++ beBytes 4 a
  else [0xFF, 0xFF] ++ beBytes 8 a

/-- The associated data, with its length and padded. -/
def formatData (aad : List U8) : List U8 :=
  if aad = [] then [] else zeroPad (encodeLength aad.length ++ aad)

/-- `B_0, …, B_r`. -/
def format (t q : Nat) (nonce aad payload : List U8) : List AesBlock :=
  blocksOf (firstBlock t q nonce (aad ≠ []) payload.length ++ formatData aad ++ zeroPad payload)

/-- `Ctr_j`. -/
def counterBlock (q : Nat) (nonce : List U8) (j : Nat) : AesBlock :=
  blockAt (BitVec.ofNat 8 (q - 1) :: (nonce ++ beBytes q j)) 0

/-! ## Generation and encryption -/

section

variable (ciph : AesBlock → AesBlock)

/-- `Y_i = CIPH(B_i ⊕ Y_{i-1})`, over the blocks that follow. -/
def absorb (y : AesBlock) (blocks : List AesBlock) : AesBlock :=
  blocks.foldl (fun y b => ciph (xorBlock b y)) y

/-- `Y_r`, where `Y_0 = CIPH(B_0)`. -/
def mac : List AesBlock → AesBlock
  | [] => ciph (Vector.replicate 16 0)
  | b :: bs => absorb ciph (ciph b) bs

/-- `S_j ‖ S_{j+1} ‖ …`, `n` blocks. -/
def keystream (q : Nat) (nonce : List U8) (j n : Nat) : List U8 :=
  bytesOf ((List.range n).map fun i => ciph (counterBlock q nonce (j + i)))

/-- The payload with as many bytes of `S_j ‖ S_{j+1} ‖ …`. -/
def xorStream (q : Nat) (nonce : List U8) (j : Nat) (payload : List U8) : List U8 :=
  zipWith (· ^^^ ·) payload (keystream ciph q nonce j ((payload.length + 15) / 16))

/-- The ciphertext, with the keystream from `S_1` on. -/
def ciphertext (q : Nat) (nonce payload : List U8) : List U8 := xorStream ciph q nonce 1 payload

/-- The code: the first `t` bytes of `Y_r`, with those of `S_0`. -/
def tag (t q : Nat) (nonce aad payload : List U8) : List U8 :=
  zipWith (· ^^^ ·) ((mac ciph (format t q nonce aad payload)).toList.take t)
    ((ciph (counterBlock q nonce 0)).toList.take t)

/-! ## Block by block -/

theorem getElem_blockAt (l : List U8) {i : Nat} (hi : i < 16) : (blockAt l 0)[i] = l.getD i 0 := by
  unfold blockAt
  rw [Vector.getElem_ofFn, Nat.mul_zero, Nat.zero_add]

theorem toList_blockAt (l : List U8) : (blockAt l 0).toList = l.take 16 ++ List.replicate (16 - l.length) 0 := by
  refine ext_getElem (by simp; omega) fun i hi _ => ?_
  rw [Vector.length_toList] at hi
  rw [Vector.getElem_toList, getElem_blockAt]
  by_cases h : i < l.length
  · rw [getElem_append_left (by simp; omega), getElem_take, getD_eq_getElem _ _ h]
  · rw [getElem_append_right (by simp; omega), getElem_replicate, getD_eq_default _ _ (by omega)]

variable {l : List U8}

theorem zeroPad_eq (h : l ≠ []) : zeroPad l = (blockAt l 0).toList ++ zeroPad (l.drop 16) := by
  have hpos := length_pos_iff.mpr h
  rw [toList_blockAt]
  unfold zeroPad
  rw [length_drop]
  by_cases hlong : 16 ≤ l.length
  · rw [show 16 - l.length = 0 by omega, replicate_zero, append_nil, ← append_assoc,
      take_append_drop, show (l.length - 16) % 16 = l.length % 16 by omega]
  · rw [take_of_length_le (by omega), drop_eq_nil_of_le (by omega), show l.length - 16 = 0 by omega,
      show (16 - l.length % 16) % 16 = 16 - l.length by omega]
    simp

theorem blocksOf_cons (b : AesBlock) (xs : List U8) : blocksOf (b.toList ++ xs) = b :: blocksOf xs := by
  unfold blocksOf
  rw [length_append, Vector.length_toList, show (16 + xs.length) / 16 = xs.length / 16 + 1 by omega,
    range_succ_eq_map, map_cons, blockAt_append_zero, map_map]
  exact congrArg (b :: ·) (map_congr_left fun k _ => blockAt_append_succ b xs k)

theorem blocksOf_append {xs : List U8} (h : xs.length % 16 = 0) (ys : List U8) :
    blocksOf (xs ++ ys) = blocksOf xs ++ blocksOf ys := by
  obtain ⟨bs, rfl⟩ := exists_bytesOf h
  clear h
  rw [blocksOf_bytesOf]
  induction bs with
  | nil => rfl
  | cons b bs ih =>
    show blocksOf (b.toList ++ bytesOf bs ++ ys) = _
    rw [append_assoc, blocksOf_cons, ih, cons_append]

/-- **The blocks of padded bytes**, the first and those of the rest. -/
theorem blocksOf_zeroPad (h : l ≠ []) : blocksOf (zeroPad l) = blockAt l 0 :: blocksOf (zeroPad (l.drop 16)) := by
  rw [zeroPad_eq h, blocksOf_cons]

theorem length_zeroPad_mod (l : List U8) : (zeroPad l).length % 16 = 0 := by
  unfold zeroPad
  rw [length_append, length_replicate]
  omega

theorem keystream_succ (q : Nat) (nonce : List U8) (j n : Nat) :
    keystream ciph q nonce j (n + 1) = (ciph (counterBlock q nonce j)).toList ++ keystream ciph q nonce (j + 1) n := by
  unfold keystream
  rw [range_succ_eq_map, map_cons, map_map]
  refine congrArg ((ciph (counterBlock q nonce j)).toList ++ bytesOf ·) (map_congr_left fun i _ => ?_)
  show ciph (counterBlock q nonce (j + (i + 1))) = _
  rw [Nat.add_right_comm, Nat.add_assoc]

/-- **The keystream block by block.** -/
theorem xorStream_drop (q : Nat) (nonce : List U8) (j : Nat) (h : l ≠ []) : xorStream ciph q nonce j l =
      zipWith (· ^^^ ·) (l.take 16) (ciph (counterBlock q nonce j)).toList ++
        xorStream ciph q nonce (j + 1) (l.drop 16) := by
  have hpos := length_pos_iff.mpr h
  unfold xorStream
  rw [length_drop, show (l.length + 15) / 16 = (l.length - 16 + 15) / 16 + 1 by omega, keystream_succ]
  by_cases hlong : 16 ≤ l.length
  · rw [← zipWith_append (by rw [length_take, Vector.length_toList]; omega), take_append_drop]
  · rw [drop_eq_nil_of_le (by omega), take_of_length_le (by omega), zipWith_nil_left, append_nil,
      show l.length - 16 = 0 by omega]
    exact congrArg _ (append_nil _)

theorem length_xorStream (q : Nat) (nonce : List U8) (j : Nat) (l : List U8) :
    (xorStream ciph q nonce j l).length = l.length := by
  unfold xorStream keystream
  rw [length_zipWith, length_bytesOf, length_map, length_range]
  omega

/-- **The same keystream takes the ciphertext back.** -/
theorem xorStream_xorStream (q : Nat) (nonce : List U8) (j : Nat) (l : List U8) :
    xorStream ciph q nonce j (xorStream ciph q nonce j l) = l := by
  have hlen := length_xorStream ciph q nonce j l
  refine ext_getElem (by rw [length_xorStream, hlen]) fun i hi hl => ?_
  unfold xorStream at hlen ⊢
  simp only [hlen, getElem_zipWith, BitVec.xor_assoc, BitVec.xor_self, BitVec.xor_zero]

end

end Ccm

end MinicOs
