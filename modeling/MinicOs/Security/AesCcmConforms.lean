import MinicOs.Security.AesCcm
import MinicOs.Security.Sp80038c

/-!
# AES-CCM is the standard's

The loops of `aes_ccm.c` take their input block by block, and so does the standard (`Sp80038c.lean`): after each round what
is left is the padded rest.
-/

namespace MinicOs

open List Nat

variable (roundKeys : RoundKeys) (nonce : CcmNonce) {fuel consumed : Nat} {pre : List U8}

/-! ## The first block and the counters -/

theorem xorBlock_comm (x y : AesBlock) : xorBlock x y = xorBlock y x := by
  refine Vector.ext fun i hi => ?_
  unfold xorBlock
  rw [Vector.getElem_ofFn, Vector.getElem_ofFn]
  exact BitVec.xor_comm _ _

theorem beBytes_two_eq (v : Nat) : beBytes 2 v = [BitVec.ofNat 8 (v >>> 8), BitVec.ofNat 8 v] := by
  rw [beBytes_succ, beBytes_succ, Nat.shiftRight_eq_div_pow, Nat.mul_zero, Nat.pow_zero, Nat.div_one, Nat.mul_one]
  rfl

theorem toList_buildB0 (len : Nat) (adata : Bool) :
    (buildB0 nonce len adata).toList = Ccm.firstBlock 8 2 nonce.toList adata len := by
  unfold buildB0 Ccm.firstBlock
  rw [Vector.toList_append, Vector.toList_append, beBytes_two_eq]
  cases adata <;> rfl

theorem buildA_eq (counter : Nat) : buildA nonce counter = Ccm.counterBlock 2 nonce.toList counter := by
  have htoList : (buildA nonce counter).toList = BitVec.ofNat 8 (2 - 1) :: (nonce.toList ++ beBytes 2 counter) := by
    unfold buildA
    rw [Vector.toList_append, Vector.toList_append, beBytes_two_eq]
    rfl
  unfold Ccm.counterBlock
  rw [← htoList, ← append_nil (buildA nonce counter).toList, blockAt_append_zero]

/-! ## The code -/

theorem zeroBlock_eq : zeroBlock = blockAt [] 0 := by decide

theorem blockAt_set (pre : List U8) (a : U8) : (blockAt pre 0).setIfInBounds pre.length a = blockAt (pre ++ [a]) 0 := by
  refine Vector.ext fun i hi => ?_
  rw [Vector.getElem_setIfInBounds, Ccm.getElem_blockAt, Ccm.getElem_blockAt]
  rcases lt_trichotomy pre.length i with hgt | rfl | hlt
  · rw [if_neg hgt.ne, getD_eq_default _ _ hgt.le, getD_eq_default _ _ (by simp; omega)]
  · rw [if_pos rfl, getD_append_right _ _ _ _ (le_refl _), Nat.sub_self]
    rfl
  · rw [if_neg hlt.ne', getD_append _ _ _ _ hlt]

/-- Bytes after the first sixteen are not in the block. -/
theorem blockAt_append_of_le (h : 16 ≤ pre.length) (rest : List U8) : blockAt (pre ++ rest) 0 = blockAt pre 0 := by
  refine Vector.ext fun i hi => ?_
  rw [Ccm.getElem_blockAt, Ccm.getElem_blockAt, getD_append _ _ _ _ (by omega)]

theorem fillAad_eq (aad : List U8) (hfuel : 16 ≤ pre.length + fuel) :
    ∃ filled, fillAad aad fuel (blockAt pre 0, pre.length, consumed) =
      (blockAt (pre ++ aad.drop consumed) 0, filled, consumed + min (16 - pre.length) (aad.length - consumed)) := by
  induction fuel generalizing pre consumed with
  | zero =>
    refine ⟨pre.length, ?_⟩
    rw [fillAad, blockAt_append_of_le (by omega), show 16 - pre.length = 0 by omega, Nat.zero_min, Nat.add_zero]
  | succ fuel ih =>
    rw [fillAad]
    by_cases hmore : pre.length < 16 ∧ consumed < aad.length
    · obtain ⟨filled, hfill⟩ := @ih (consumed + 1) (pre ++ [aad.getD consumed 0]) (by simp; omega)
      refine ⟨filled, ?_⟩
      rw [if_pos hmore, blockAt_set]
      rw [length_append, length_singleton] at hfill
      rw [hfill, drop_eq_getElem_cons hmore.2, getD_eq_getElem _ _ hmore.2, append_assoc]
      have hcount : consumed + 1 + min (16 - (pre.length + 1)) (aad.length - (consumed + 1)) =
          consumed + min (16 - pre.length) (aad.length - consumed) := by omega
      rw [hcount, singleton_append]
    · refine ⟨pre.length, ?_⟩
      rw [if_neg hmore]
      rcases lt_or_ge pre.length 16 with hshort | hfull
      · have hdone : aad.length ≤ consumed := not_lt.mp fun h => hmore ⟨hshort, h⟩
        rw [drop_eq_nil_of_le hdone, append_nil, Nat.sub_eq_zero_of_le hdone, Nat.min_zero, Nat.add_zero]
      · rw [blockAt_append_of_le hfull, show 16 - pre.length = 0 by omega, Nat.zero_min, Nat.add_zero]

theorem drop_block (aad : List U8) (consumed : Nat) (hpre : pre.length ≤ 16) :
    (pre ++ aad.drop consumed).drop 16 = aad.drop (consumed + min (16 - pre.length) (aad.length - consumed)) := by
  rw [drop_append, drop_eq_nil_of_le hpre, nil_append, drop_drop]
  rcases le_total (16 - pre.length) (aad.length - consumed) with hle | hge
  · rw [min_eq_left hle]
  · rw [min_eq_right hge, drop_eq_nil_of_le (by omega), drop_eq_nil_of_le (by omega)]

theorem absorb_block (x : AesBlock) {l : List U8} (h : l ≠ []) :
    Ccm.absorb (aes128EncryptBlock roundKeys) x (blocksOf (Ccm.zeroPad l)) =
      Ccm.absorb (aes128EncryptBlock roundKeys) (aes128EncryptBlock roundKeys (xorBlock x (blockAt l 0)))
        (blocksOf (Ccm.zeroPad (l.drop 16))) := by
  rw [Ccm.blocksOf_zeroPad h, xorBlock_comm x, Ccm.absorb, Ccm.absorb, foldl_cons]

/-- **The loop over the associated data**, with the bytes `pre` in the block already. -/
theorem macAad_eq (aad : List U8) (x : AesBlock) (hpre : pre.length < 16)
    (hmore : consumed < aad.length ∨ pre = []) (hfuel : aad.length ≤ consumed + fuel) :
    macAad roundKeys aad fuel x (blockAt pre 0, pre.length, consumed) =
      Ccm.absorb (aes128EncryptBlock roundKeys) x (blocksOf (Ccm.zeroPad (pre ++ aad.drop consumed))) := by
  induction fuel generalizing pre consumed x with
  | zero =>
    obtain rfl := hmore.resolve_left (by omega)
    rw [macAad, drop_eq_nil_of_le (by omega)]
    rfl
  | succ fuel ih =>
    rw [macAad]
    by_cases hleft : consumed < aad.length
    · have hne : pre ++ aad.drop consumed ≠ [] := by
        intro hnil
        have hzero := congrArg List.length hnil
        rw [length_append, length_drop, length_nil] at hzero
        omega
      obtain ⟨filled, hfill⟩ := @fillAad_eq 16 consumed pre aad (by omega)
      rw [if_pos hleft, hfill, absorb_block roundKeys x hne, drop_block aad consumed hpre.le, zeroBlock_eq]
      exact @ih _ [] _ (by decide) (Or.inr rfl) (by omega)
    · obtain rfl := hmore.resolve_left hleft
      rw [if_neg hleft, drop_eq_nil_of_le (by omega)]
      rfl

theorem ccmChunk_eq (len consumed : Nat) : ccmChunk len consumed = min 16 (len - consumed) := by
  unfold ccmChunk
  split <;> omega

theorem msgBlock_eq (msg : List U8) (consumed : Nat) : (Vector.ofFn fun i : Fin 16 =>
      if i.val < ccmChunk msg.length consumed then msg.getD (consumed + i.val) 0 else 0) =
    blockAt (msg.drop consumed) 0 := by
  refine Vector.ext fun i hi => ?_
  rw [Vector.getElem_ofFn, Ccm.getElem_blockAt, ccmChunk_eq, getD_eq_getElem?_getD, getD_eq_getElem?_getD, getElem?_drop]
  dsimp only
  split
  · rfl
  · rw [getElem?_eq_none (by omega)]
    rfl

theorem macMsg_eq (msg : List U8) (x : AesBlock) (hfuel : msg.length ≤ consumed + fuel) :
    macMsg roundKeys msg fuel x consumed =
      Ccm.absorb (aes128EncryptBlock roundKeys) x (blocksOf (Ccm.zeroPad (msg.drop consumed))) := by
  induction fuel generalizing consumed x with
  | zero =>
    rw [macMsg, drop_eq_nil_of_le (by omega)]
    rfl
  | succ fuel ih =>
    rw [macMsg]
    by_cases hleft : consumed < msg.length
    · have hdrop := drop_block msg consumed (show ([] : List U8).length ≤ 16 by decide)
      rw [nil_append, length_nil, Nat.sub_zero, ← ccmChunk_eq] at hdrop
      rw [if_pos hleft, absorb_block roundKeys x (mt drop_eq_nil_iff.mp (not_le.mpr hleft)), hdrop]
      dsimp only
      rw [msgBlock_eq]
      refine ih _ ?_
      rw [ccmChunk_eq]
      omega
    · rw [if_neg hleft, drop_eq_nil_of_le (by omega)]
      rfl

/-- **`cbc_mac` is the standard's code** of the formatted input. -/
theorem cbcMac_eq {aad : List U8} (haad : aad.length < 0xFF00) (msg : List U8) : cbcMac roundKeys nonce aad msg =
      Ccm.mac (aes128EncryptBlock roundKeys) (Ccm.format 8 2 nonce.toList aad msg) := by
  have hfirst : Ccm.format 8 2 nonce.toList aad msg =
      buildB0 nonce msg.length (aad.length > 0) ::
        (blocksOf (Ccm.formatData aad) ++ blocksOf (Ccm.zeroPad msg)) := by
    unfold Ccm.format
    rw [← toList_buildB0, append_assoc, Ccm.blocksOf_cons, Ccm.blocksOf_append]
    · simp only [ne_eq, gt_iff_lt, length_pos_iff]
    · unfold Ccm.formatData
      split
      · rfl
      · exact Ccm.length_zeroPad_mod _
  unfold cbcMac
  rw [hfirst, macMsg_eq roundKeys msg _ (by omega), drop_zero]
  refine Eq.trans (congrArg (fun y => Ccm.absorb _ y _) ?_) foldl_append.symm
  unfold Ccm.formatData
  by_cases hempty : aad = []
  · subst hempty
    rfl
  · have hpos := length_pos_iff.mpr hempty
    have hprefix : (zeroBlock.set 0 (BitVec.ofNat 8 (aad.length >>> 8))).set 1 (BitVec.ofNat 8 aad.length) =
        blockAt (beBytes 2 aad.length) 0 := by
      rw [beBytes_two_eq]
      rfl
    rw [if_pos hpos, if_neg hempty, hprefix]
    unfold Ccm.encodeLength
    rw [if_pos (by omega)]
    have hloop := @macAad_eq roundKeys aad.length 0 (beBytes 2 aad.length) aad
      (aes128EncryptBlock roundKeys (buildB0 nonce msg.length (aad.length > 0))) (by rw [length_beBytes]; decide)
      (Or.inl hpos) (by omega)
    exact hloop

/-! ## The keystream -/

theorem ctrBlocks_eq (input : List U8) (counter : Nat) (out : List U8) (hfuel : input.length ≤ consumed + fuel) :
    ctrBlocks roundKeys nonce input fuel consumed counter out =
      out ++ Ccm.xorStream (aes128EncryptBlock roundKeys) 2 nonce.toList counter (input.drop consumed) := by
  induction fuel generalizing consumed counter out with
  | zero =>
    rw [ctrBlocks, drop_eq_nil_of_le (by omega)]
    exact (append_nil out).symm
  | succ fuel ih =>
    rw [ctrBlocks]
    by_cases hleft : consumed < input.length
    · have hdrop := drop_block input consumed (show ([] : List U8).length ≤ 16 by decide)
      rw [nil_append, length_nil, Nat.sub_zero, ← ccmChunk_eq] at hdrop
      rw [if_pos hleft, Ccm.xorStream_drop _ _ _ _ (mt drop_eq_nil_iff.mp (not_le.mpr hleft)), hdrop, ← buildA_eq]
      rw [ih _ _ (by rw [ccmChunk_eq]; omega), append_assoc]
      refine congrArg (fun bytes => out ++ (bytes ++ _)) (ext_getElem ?_ fun i hi _ => ?_)
      · rw [length_map, length_range, length_zipWith, length_take, length_drop, Vector.length_toList, ccmChunk_eq]
        omega
      · rw [length_map, length_range, ccmChunk_eq] at hi
        rw [getElem_map, getElem_range, getElem_zipWith, getElem_take, getElem_drop,
          getD_eq_getElem _ _ (by omega), getD_eq_getElem _ _ (by rw [Vector.length_toList]; omega)]
    · rw [if_neg hleft, drop_eq_nil_of_le (by omega)]
      exact (append_nil out).symm

theorem ctrCrypt_eq (input : List U8) :
    ctrCrypt roundKeys nonce input = Ccm.ciphertext (aes128EncryptBlock roundKeys) 2 nonce.toList input := by
  unfold ctrCrypt
  rw [ctrBlocks_eq roundKeys nonce input _ _ (by omega), drop_zero, nil_append]
  rfl

theorem maskedMac_eq {aad : List U8} (haad : aad.length < 0xFF00) (msg : List U8) :
    (maskedMac roundKeys nonce aad msg).toList = Ccm.tag (aes128EncryptBlock roundKeys) 8 2 nonce.toList aad msg := by
  unfold Ccm.tag
  rw [← cbcMac_eq roundKeys nonce haad, ← buildA_eq]
  refine ext_getElem (by simp) fun i hi _ => ?_
  rw [Vector.getElem_toList, getElem_zipWith, getElem_take, getElem_take, Vector.getElem_toList, Vector.getElem_toList]
  unfold maskedMac micMask
  rw [Vector.getElem_ofFn, Vector.getElem_ofFn]

/-! ## Both ways -/

/-- **`aes_ccm.c` is SP 800-38C** with `t = 8` and `q = 2`: the ciphertext and the code of every message are the standard's,
and a ciphertext is taken back to the one message that has it, accepted exactly with the code of that message. -/
theorem aesCcm_conforms (aad : List U8) (haad : aad.length < 0xFF00) :
    (∀ msg, ((aesCcmEncrypt roundKeys nonce aad msg).1, (aesCcmEncrypt roundKeys nonce aad msg).2.toList) =
      (Ccm.ciphertext (aes128EncryptBlock roundKeys) 2 nonce.toList msg,
        Ccm.tag (aes128EncryptBlock roundKeys) 8 2 nonce.toList aad msg)) ∧ ∀ ciphertext micIn, ∃ msg,
      (∀ m, Ccm.ciphertext (aes128EncryptBlock roundKeys) 2 nonce.toList m = ciphertext ↔ m = msg) ∧
      aesCcmDecrypt roundKeys nonce aad ciphertext micIn =
        (decide (Ccm.tag (aes128EncryptBlock roundKeys) 8 2 nonce.toList aad msg = micIn.toList), msg) := by
  constructor
  · intro msg
    unfold aesCcmEncrypt
    rw [ctrCrypt_eq, maskedMac_eq roundKeys nonce haad]
  · intro ciphertext micIn
    refine ⟨Ccm.ciphertext (aes128EncryptBlock roundKeys) 2 nonce.toList ciphertext, fun m => ⟨?_, ?_⟩, ?_⟩
    · rintro rfl
      exact (Ccm.xorStream_xorStream ..).symm
    · rintro rfl
      exact Ccm.xorStream_xorStream ..
    · unfold aesCcmDecrypt
      dsimp only
      rw [all_mic_eq, maskedMac_eq roundKeys nonce haad, ctrCrypt_eq]

/-- Two bytes of associated data and a message of two blocks. -/
theorem aesCcm_conforms_twoBlocks :
    (aesCcmEncrypt (Vector.replicate 176 0) (Vector.replicate 13 0) [0x08, 0x40] (replicate 20 7)).2.toList =
      Ccm.tag (aes128EncryptBlock (Vector.replicate 176 0)) 8 2 (Vector.replicate 13 (0 : U8)).toList [0x08, 0x40]
        (replicate 20 7) :=
  congrArg Prod.snd
    ((aesCcm_conforms (Vector.replicate 176 0) (Vector.replicate 13 0) [0x08, 0x40] (by decide)).1 (replicate 20 7))

end MinicOs
