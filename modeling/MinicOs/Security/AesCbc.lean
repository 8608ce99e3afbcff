import Mathlib.Order.Bounds.Basic
import MinicOs.Security.AesInverse

/-!
# Cipher block chaining with TLS padding

`aes128_cbc_encrypt` and `aes128_cbc_decrypt` are the chaining of `Lib/Chaining.lean` on the blocks of a buffer
(`aes128CbcEncrypt_eq`, `aes128CbcDecrypt_eq`), so each undoes the other on whole blocks. TLS adds `p + 1` bytes of the
value `p` up to a whole number of blocks (`tlsPadded`).
-/

namespace MinicOs

open List

variable (roundKeys : RoundKeys)

/-! ## Blocks and bytes -/

def bytesOf (bs : List AesBlock) : List U8 := bs.flatMap Vector.toList

/-- The whole blocks of a buffer. -/
def blocksOf (input : List U8) : List AesBlock := (List.range (input.length / 16)).map (blockAt input)

theorem length_bytesOf (bs : List AesBlock) : (bytesOf bs).length = 16 * bs.length := by
  induction bs with
  | nil => rfl
  | cons b bs ih =>
    show (b.toList ++ bytesOf bs).length = _
    rw [length_append, Vector.length_toList, ih, length_cons]
    omega

theorem length_blocksOf (input : List U8) : (blocksOf input).length = input.length / 16 := by
  unfold blocksOf
  rw [length_map, length_range]

theorem blockAt_append_zero (b : AesBlock) (xs : List U8) : blockAt (b.toList ++ xs) 0 = b := by
  refine Vector.ext fun i hi => ?_
  unfold blockAt
  rw [Vector.getElem_ofFn, Nat.mul_zero, Nat.zero_add, getD_append _ _ _ _ (by simpa using hi),
    getD_eq_getElem _ _ (by simpa using hi)]
  exact Vector.getElem_toList ..

theorem blockAt_append_succ (b : AesBlock) (xs : List U8) (k : Nat) : blockAt (b.toList ++ xs) (k + 1) = blockAt xs k := by
  refine Vector.ext fun i hi => ?_
  unfold blockAt
  rw [Vector.getElem_ofFn, Vector.getElem_ofFn, getD_append_right _ _ _ _ (by rw [Vector.length_toList]; dsimp only; omega),
    Vector.length_toList]
  congr 1
  omega

theorem blocksOf_bytesOf (bs : List AesBlock) : blocksOf (bytesOf bs) = bs := by
  unfold blocksOf
  rw [length_bytesOf, Nat.mul_div_cancel_left _ (by decide)]
  induction bs with
  | nil => rfl
  | cons b bs ih =>
    show (List.range (bs.length + 1)).map (blockAt (b.toList ++ bytesOf bs)) = b :: bs
    rw [range_succ_eq_map, map_cons, blockAt_append_zero, map_map]
    refine congrArg (b :: ·) (Eq.trans (map_congr_left fun k _ => ?_) ih)
    exact blockAt_append_succ b _ k

variable {input : List U8}

theorem exists_bytesOf (h : input.length % 16 = 0) : ∃ bs, bytesOf bs = input := by
  obtain ⟨n, hn⟩ : ∃ n, input.length = 16 * n := ⟨input.length / 16, by omega⟩
  clear h
  induction n generalizing input with
  | zero => exact ⟨[], (eq_nil_of_length_eq_zero hn).symm⟩
  | succ n ih =>
    obtain ⟨bs, hbs⟩ := @ih (input.drop 16) (by rw [length_drop]; omega)
    refine ⟨⟨(input.take 16).toArray, by rw [size_toArray, length_take]; omega⟩ :: bs, ?_⟩
    show input.take 16 ++ bytesOf bs = input
    rw [hbs, take_append_drop]

theorem bytesOf_blocksOf (h : input.length % 16 = 0) : bytesOf (blocksOf input) = input := by
  obtain ⟨bs, rfl⟩ := exists_bytesOf h
  rw [blocksOf_bytesOf]

/-! ## Chaining -/

theorem xorBlock_xorBlock (x y : AesBlock) : xorBlock (xorBlock x y) y = x := by
  refine Vector.ext fun i hi => ?_
  unfold xorBlock
  rw [Vector.getElem_ofFn]
  show (Vector.ofFn _)[i] ^^^ _ = x[i]
  rw [Vector.getElem_ofFn]
  exact xor_cancel_right _ _

variable (iv : AesBlock)

theorem aes128CbcEncrypt_eq (input : List U8) : aes128CbcEncrypt roundKeys iv input =
    bytesOf (chain (aes128EncryptBlock roundKeys) xorBlock iv (blocksOf input)) := by
  have hloop : ∀ (is : List Nat) (prev : AesBlock) (out : List U8),
      (is.foldl (cbcEncryptStep roundKeys input) (prev, out)).2 =
        out ++ bytesOf (chain (aes128EncryptBlock roundKeys) xorBlock prev (is.map (blockAt input))) := by
    intro is
    induction is with
    | nil => intro prev out; exact (append_nil out).symm
    | cons i is ih =>
      intro prev out
      rw [foldl_cons, cbcEncryptStep, ih, append_assoc]
      rfl
  exact hloop _ iv []

theorem aes128CbcDecrypt_eq (input : List U8) : aes128CbcDecrypt roundKeys iv input =
    bytesOf (unchain (aes128DecryptBlock roundKeys) xorBlock iv (blocksOf input)) := by
  have hloop : ∀ (is : List Nat) (prev : AesBlock) (out : List U8),
      (is.foldl (cbcDecryptStep roundKeys input) (prev, out)).2 =
        out ++ bytesOf (unchain (aes128DecryptBlock roundKeys) xorBlock prev (is.map (blockAt input))) := by
    intro is
    induction is with
    | nil => intro prev out; exact (append_nil out).symm
    | cons i is ih =>
      intro prev out
      rw [foldl_cons, cbcDecryptStep, ih, append_assoc]
      rfl
  exact hloop _ iv []

theorem length_aes128CbcEncrypt (h : input.length % 16 = 0) :
    (aes128CbcEncrypt roundKeys iv input).length = input.length := by
  rw [aes128CbcEncrypt_eq, length_bytesOf, length_chain, length_blocksOf]
  omega

theorem length_aes128CbcDecrypt (h : input.length % 16 = 0) :
    (aes128CbcDecrypt roundKeys iv input).length = input.length := by
  rw [aes128CbcDecrypt_eq, length_bytesOf, length_unchain, length_blocksOf]
  omega

theorem aes128CbcDecrypt_aes128CbcEncrypt (h : input.length % 16 = 0) :
    aes128CbcDecrypt roundKeys iv (aes128CbcEncrypt roundKeys iv input) = input := by
  rw [aes128CbcDecrypt_eq, aes128CbcEncrypt_eq, blocksOf_bytesOf,
    unchain_chain xorBlock_xorBlock (aes128DecryptBlock_aes128EncryptBlock roundKeys), bytesOf_blocksOf h]

theorem aes128CbcEncrypt_aes128CbcDecrypt (h : input.length % 16 = 0) :
    aes128CbcEncrypt roundKeys iv (aes128CbcDecrypt roundKeys iv input) = input := by
  rw [aes128CbcDecrypt_eq, aes128CbcEncrypt_eq, blocksOf_bytesOf,
    chain_unchain xorBlock_xorBlock (aes128EncryptBlock_aes128DecryptBlock roundKeys), bytesOf_blocksOf h]

/-! ## Padding -/

def tlsPadded (plain : List U8) : List U8 :=
  plain ++ List.replicate (tlsPadLen plain.length + 1) (BitVec.ofNat 8 (tlsPadLen plain.length))

theorem tlsPadLen_le (n : Nat) : tlsPadLen n ≤ 15 := by
  unfold tlsPadLen
  omega

theorem length_tlsPadded (plain : List U8) : (tlsPadded plain).length = plain.length + tlsPadLen plain.length + 1 := by
  unfold tlsPadded
  rw [length_append, length_replicate]
  omega

theorem length_tlsPadded_eq (plain : List U8) : (tlsPadded plain).length = 16 * (plain.length / 16 + 1) := by
  rw [length_tlsPadded]
  unfold tlsPadLen
  omega

/-- `aes128_cbc_encrypt_tls` encrypts the padded plaintext. -/
theorem aes128CbcEncryptTls_eq {plain : List U8} {outCapacity : Nat}
    (hcap : (tlsPadded plain).length ≤ outCapacity) (hmax : (tlsPadded plain).length ≤ aesPkcs7MaxLen) :
    aes128CbcEncryptTls roundKeys iv plain outCapacity = some (aes128CbcEncrypt roundKeys iv (tlsPadded plain)) := by
  rw [length_tlsPadded] at hcap hmax
  unfold aes128CbcEncryptTls
  rw [if_neg (by omega)]
  refine congrArg (fun padded => some (aes128CbcEncrypt roundKeys iv padded)) ?_
  unfold tlsPadded
  rw [replicate_succ', ← append_assoc, show plain.length + tlsPadLen plain.length + 1 - 1 - plain.length =
    tlsPadLen plain.length by omega]

theorem eq_take_append_replicate_iff {xs : List U8} {p : U8} {k : Nat} (hk : k ≤ xs.length) :
    (∀ i < k, xs.getD (xs.length - k + i) 0 = p) ↔ xs = xs.take (xs.length - k) ++ List.replicate k p := by
  constructor
  · intro h
    nth_rewrite 1 [← take_append_drop (xs.length - k) xs]
    refine congrArg (xs.take (xs.length - k) ++ ·) (eq_replicate_iff.mpr ⟨by rw [length_drop]; omega, ?_⟩)
    intro b hb
    obtain ⟨i, hi, rfl⟩ := getElem_of_mem hb
    rw [length_drop] at hi
    rw [getElem_drop, ← getD_eq_getElem _ 0]
    exact h i (by omega)
  · intro h i hi
    rw [h, getD_append_right _ _ _ _ (by rw [length_append, length_take, length_replicate]; omega)]
    rw [getD_eq_getElem _ _ (by simp; omega), getElem_replicate]

theorem padding_any_iff {xs : List U8} {p k : Nat} {b : U8} :
    ((List.range p).any fun i => xs.getD (k + i) 0 != b) = false ↔ ∀ i < p, xs.getD (k + i) 0 = b := by
  rw [any_eq_false]
  simp only [mem_range, bne_iff_ne, ne_eq, not_not]

/-- **What `aes128_cbc_decrypt_tls` accepts**: whole blocks, at most 4096 bytes, that decrypt to a padded plaintext. -/
theorem aes128CbcDecryptTls_iff (input plain : List U8) : aes128CbcDecryptTls roundKeys iv input = some plain ↔
      (0 < input.length ∧ input.length % 16 = 0 ∧ input.length ≤ aesPkcs7MaxLen) ∧
        aes128CbcDecrypt roundKeys iv input = tlsPadded plain := by
  unfold aes128CbcDecryptTls
  dsimp only
  by_cases hlen : input.length = 0 ∨ input.length % 16 ≠ 0 ∨ input.length > aesPkcs7MaxLen
  · rw [if_pos hlen]
    constructor
    · intro h
      exact absurd h (Option.some_ne_none plain).symm
    · rintro ⟨hok, -⟩
      omega
  rw [if_neg hlen]
  have hwhole : input.length % 16 = 0 := by omega
  have hd : (aes128CbcDecrypt roundKeys iv input).length = input.length := length_aes128CbcDecrypt roundKeys iv hwhole
  generalize aes128CbcDecrypt roundKeys iv input = d at hd
  rw [← hd] at hlen hwhole ⊢
  constructor
  · intro h
    split at h
    · exact absurd h (Option.some_ne_none plain).symm
    rename_i hpad
    split at h
    · exact absurd h (Option.some_ne_none plain).symm
    rename_i hany
    rw [Bool.not_eq_true, padding_any_iff] at hany
    generalize hp : d.getD (d.length - 1) 0 = p at hpad hany h
    -- the last byte and the ones that the loop has compared with it
    have hall : ∀ i < p.toNat + 1, d.getD (d.length - (p.toNat + 1) + i) 0 = p := by
      intro i hi
      rcases Nat.lt_succ_iff_lt_or_eq.mp hi with hi | rfl
      · refine Eq.trans ?_ (hany i hi)
        congr 1
        omega
      · refine Eq.trans ?_ hp
        congr 1
        omega
    have hplain : plain = d.take (d.length - (p.toNat + 1)) := (Option.some.inj h).symm
    have hsplit := (eq_take_append_replicate_iff (by omega)).mp hall
    rw [← hplain] at hsplit
    have hpadLen : p.toNat = tlsPadLen plain.length := by
      unfold tlsPadLen
      have := congrArg List.length hsplit
      rw [length_append, length_replicate] at this
      omega
    refine ⟨by omega, ?_⟩
    rw [hsplit, tlsPadded, ← hpadLen, BitVec.ofNat_toNat, BitVec.setWidth_eq]
  · rintro ⟨-, rfl⟩
    have hle := tlsPadLen_le plain.length
    have htotal := length_tlsPadded plain
    have hdrop : (tlsPadded plain).length - (tlsPadLen plain.length + 1) = plain.length := by omega
    have hall := (@eq_take_append_replicate_iff (tlsPadded plain) (BitVec.ofNat 8 (tlsPadLen plain.length))
      (tlsPadLen plain.length + 1) (by omega)).mpr (by
        rw [hdrop, tlsPadded, take_left])
    have hlast : (tlsPadded plain).getD ((tlsPadded plain).length - 1) 0 = BitVec.ofNat 8 (tlsPadLen plain.length) := by
      rw [← hall (tlsPadLen plain.length) (by omega)]
      congr 1
      omega
    have hpNat : (BitVec.ofNat 8 (tlsPadLen plain.length)).toNat = tlsPadLen plain.length := by
      exact Nat.mod_eq_of_lt (by omega)
    rw [hlast, hpNat, if_neg (by omega), if_neg ?_]
    · refine congrArg some ?_
      rw [show (tlsPadded plain).length - tlsPadLen plain.length - 1 = plain.length by omega, tlsPadded, take_left]
    · rw [Bool.not_eq_true, padding_any_iff]
      intro i hi
      rw [← hall i (by omega)]
      congr 1
      omega

/-- **The way there and back** with padding. -/
theorem aes128CbcDecryptTls_padded {plain : List U8} (hmax : (tlsPadded plain).length ≤ aesPkcs7MaxLen) :
    aes128CbcDecryptTls roundKeys iv (aes128CbcEncrypt roundKeys iv (tlsPadded plain)) = some plain := by
  have hlen := length_tlsPadded_eq plain
  have hwhole : (tlsPadded plain).length % 16 = 0 := by omega
  rw [aes128CbcDecryptTls_iff, length_aes128CbcEncrypt roundKeys iv hwhole,
    aes128CbcDecrypt_aes128CbcEncrypt roundKeys iv hwhole]
  exact ⟨⟨by omega, hwhole, hmax⟩, rfl⟩

/-- **AES is invertible, block by block and with the padding of TLS**: the ciphertext of a plaintext of at most 4095 bytes
is as long as the least multiple of 16 above its length, and decrypts to it. -/
theorem aes_invertible :
    (∀ (roundKeys : RoundKeys) (x : AesBlock), aes128DecryptBlock roundKeys (aes128EncryptBlock roundKeys x) = x ∧
        aes128EncryptBlock roundKeys (aes128DecryptBlock roundKeys x) = x) ∧
      ∀ (roundKeys : RoundKeys) (iv : AesBlock) (plain : List U8) (outCapacity : Nat), plain.length ≤ 4095 →
        16 * (plain.length / 16 + 1) ≤ outCapacity →
        ∃ ciphertext, aes128CbcEncryptTls roundKeys iv plain outCapacity = some ciphertext ∧
          IsLeast {m | 16 ∣ m ∧ plain.length < m} ciphertext.length ∧
          aes128CbcDecryptTls roundKeys iv ciphertext = some plain := by
  refine ⟨fun rk x => ⟨aes128DecryptBlock_aes128EncryptBlock rk x, aes128EncryptBlock_aes128DecryptBlock rk x⟩, ?_⟩
  intro rk iv plain outCapacity hplain hcap
  have hlen := length_tlsPadded_eq plain
  have hmax : (tlsPadded plain).length ≤ aesPkcs7MaxLen := by
    rw [hlen, aesPkcs7MaxLen]
    omega
  refine ⟨_, aes128CbcEncryptTls_eq rk iv (hlen ▸ hcap) hmax, ?_, aes128CbcDecryptTls_padded rk iv hmax⟩
  rw [length_aes128CbcEncrypt rk iv (by omega), hlen]
  refine ⟨⟨⟨_, rfl⟩, by omega⟩, ?_⟩
  rintro m ⟨⟨k, rfl⟩, hm⟩
  omega

/-- A plaintext of 16 bytes, into a buffer of 32. -/
theorem aes_invertible_oneBlock : ∃ ciphertext,
    aes128CbcEncryptTls (Vector.replicate 176 0) (Vector.replicate 16 0) (List.replicate 16 7) 32 = some ciphertext ∧
      IsLeast {m | 16 ∣ m ∧ 16 < m} ciphertext.length ∧
      aes128CbcDecryptTls (Vector.replicate 176 0) (Vector.replicate 16 0) ciphertext = some (List.replicate 16 7) :=
  aes_invertible.2 (Vector.replicate 176 0) (Vector.replicate 16 0) (List.replicate 16 7) 32 (by decide) (by decide)

end MinicOs
