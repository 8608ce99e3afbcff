import MinicOs.Security.Aes

/-!
# AES-CCM

Model of `kernel/security/aes/aes_ccm.c`. A buffer that is given with its length is a list of that length, and a block is 16
bytes. A loop that runs while bytes are left is a recursion with fuel, one round for each byte there is: each round takes
one byte at least.
-/

namespace MinicOs

/-- A nonce of `AES_CCM_NONCE_LEN` bytes. -/
abbrev CcmNonce := Vector U8 13

/-- A code of `AES_CCM_MIC_LEN` bytes. -/
abbrev CcmMic := Vector U8 8

def buildB0 (nonce : CcmNonce) (msgLen : Nat) (hasAad : Bool) : AesBlock :=
  ((#v[(if hasAad then 0x40 else 0) ||| (3 <<< 3) ||| 1] : Vector U8 1) ++ nonce ++
    #v[BitVec.ofNat 8 (msgLen >>> 8), BitVec.ofNat 8 msgLen] : Vector U8 (1 + 13 + 2))

def buildA (nonce : CcmNonce) (counter : Nat) : AesBlock :=
  ((#v[0x01] : Vector U8 1) ++ nonce ++ #v[BitVec.ofNat 8 (counter >>> 8), BitVec.ofNat 8 counter] : Vector U8 (1 + 13 + 2))

def zeroBlock : AesBlock := Vector.replicate 16 0

/-- The inner loop over the data to authenticate, on `block`, `filled` and `consumed`. -/
def fillAad (aad : List U8) : Nat → AesBlock × Nat × Nat → AesBlock × Nat × Nat
  | 0, s => s
  | fuel + 1, (block, filled, consumed) =>
    if filled < 16 ∧ consumed < aad.length then
      fillAad aad fuel (block.setIfInBounds filled (aad.getD consumed 0), filled + 1, consumed + 1)
    else (block, filled, consumed)

/-- The loop over the data to authenticate, on `x` and what the inner loop works on. -/
def macAad (roundKeys : RoundKeys) (aad : List U8) : Nat → AesBlock → AesBlock × Nat × Nat → AesBlock
  | 0, x, _ => x
  | fuel + 1, x, (block, filled, consumed) =>
    if consumed < aad.length then
      let (block, _, consumed) := fillAad aad 16 (block, filled, consumed)
      let x := aes128EncryptBlock roundKeys (xorBlock x block)
      macAad roundKeys aad fuel x (zeroBlock, 0, consumed)
    else x

/-- `len - consumed`, and 16 where that is more. -/
def ccmChunk (len consumed : Nat) : Nat := if len - consumed > 16 then 16 else len - consumed

/-- The loop over the message, on `x` and `consumed`. -/
def macMsg (roundKeys : RoundKeys) (msg : List U8) : Nat → AesBlock → Nat → AesBlock
  | 0, x, _ => x
  | fuel + 1, x, consumed =>
    if consumed < msg.length then
      let chunk := ccmChunk msg.length consumed
      let block : AesBlock := Vector.ofFn fun i => if i.val < chunk then msg.getD (consumed + i.val) 0 else 0
      macMsg roundKeys msg fuel (aes128EncryptBlock roundKeys (xorBlock x block)) (consumed + chunk)
    else x

variable (roundKeys : RoundKeys)

def cbcMac (nonce : CcmNonce) (aad msg : List U8) : AesBlock :=
  let x := aes128EncryptBlock roundKeys (buildB0 nonce msg.length (aad.length > 0))
  let x :=
    if aad.length > 0 then
      let block := (zeroBlock.set 0 (BitVec.ofNat 8 (aad.length >>> 8))).set 1 (BitVec.ofNat 8 aad.length)
      macAad roundKeys aad aad.length x (block, 2, 0)
    else x
  macMsg roundKeys msg msg.length x 0

/-- The loop of `ctr_crypt`, on `consumed`, `counter` and what `out` holds. -/
def ctrBlocks (roundKeys : RoundKeys) (nonce : CcmNonce) (input : List U8) : Nat → Nat → Nat → List U8 → List U8
  | 0, _, _, out => out
  | fuel + 1, consumed, counter, out =>
    if consumed < input.length then
      let s := aes128EncryptBlock roundKeys (buildA nonce counter)
      let chunk := ccmChunk input.length consumed
      let bytes := (List.range chunk).map fun i => input.getD (consumed + i) 0 ^^^ s.toList.getD i 0
      ctrBlocks roundKeys nonce input fuel (consumed + chunk) (counter + 1) (out ++ bytes)
    else out

def ctrCrypt (nonce : CcmNonce) (input : List U8) : List U8 :=
  ctrBlocks roundKeys nonce input input.length 0 1 []

def micMask (nonce : CcmNonce) : CcmMic :=
  let s0 := aes128EncryptBlock roundKeys (buildA nonce 0)
  Vector.ofFn fun i => s0[i.val]

/-- The code that both sides compute: `mac[i] ^ mask[i]`. -/
def maskedMac (nonce : CcmNonce) (aad msg : List U8) : CcmMic :=
  let mac := cbcMac roundKeys nonce aad msg
  let mask := micMask roundKeys nonce
  Vector.ofFn fun i => mac[i.val] ^^^ mask[i.val]

/-- `aes_ccm_encrypt`: `out` and `mic_out`. -/
def aesCcmEncrypt (nonce : CcmNonce) (aad plaintext : List U8) : List U8 × CcmMic :=
  (ctrCrypt roundKeys nonce plaintext, maskedMac roundKeys nonce aad plaintext)

/-- `aes_ccm_decrypt`: the result and `out`, which is written whatever the result is. -/
def aesCcmDecrypt (nonce : CcmNonce) (aad ciphertext : List U8) (micIn : CcmMic) : Bool × List U8 :=
  let out := ctrCrypt roundKeys nonce ciphertext
  let mic := maskedMac roundKeys nonce aad out
  ((List.finRange 8).all fun i => mic[i] == micIn[i], out)

theorem all_mic_eq (mic micIn : CcmMic) :
    ((List.finRange 8).all fun i => mic[i] == micIn[i]) = decide (mic.toList = micIn.toList) := by
  rw [Bool.eq_iff_iff, List.all_eq_true, decide_eq_true_iff, Vector.toList_inj]
  constructor
  · intro h
    exact Vector.ext fun i hi => eq_of_beq (h ⟨i, hi⟩ (List.mem_finRange _))
  · rintro rfl i -
    exact beq_self_eq_true _

end MinicOs
