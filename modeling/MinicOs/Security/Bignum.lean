import MinicOs.Lib.Cells
import MinicOs.Security.Sha256

/-!
# Big numbers

Model of `kernel/security/bignum/bignum.c`. An array of limbs is an array of 32-bit words, the lowest first, and every
access to it is checked: one outside the array, or a read of a limb that was not set, is undefined. A `bignum_t` is an
array of 128 limbs. `sub_limbs` is the one call `sub_limbs(wide, wide, ..)`, in which `r` is `a`. A loop that counts down to
zero is a recursion on the counter.
-/

namespace MinicOs

open Exec

abbrev Limbs := Cells U32

def bignumLimbs : Nat := 128

def wideLimbs : Nat := 2 * bignumLimbs

/-- `bignum_zero`, on a `bignum_t`. -/
def bignumZero (n : Limbs) : Exec Limbs := count bignumLimbs (fun i n => n.write i 0) n

def bignumSetU32 (n : Limbs) (value : U32) : Exec Limbs := do
  let n ← bignumZero n
  n.write 0 value

def bignumCopy (dst src : Limbs) : Exec Limbs :=
  count bignumLimbs (fun i dst => src.read i >>= fun v => dst.write i v) dst

/-- The body of `bignum_from_bytes_be`'s loop. -/
def fromBytesStep (bytes : Cells U8) (len i : Nat) (out : Limbs) : Exec Limbs := do
  let b ← bytes.read (len - 1 - i)
  let limb ← out.read (i / 4)
  out.write (i / 4) (limb ||| b.setWidth 32 <<< (i % 4 * 8))

def bignumFromBytesBe (out : Limbs) (bytes : Cells U8) (len : Nat) : Exec Limbs := do
  let out ← bignumZero out
  count len (fromBytesStep bytes len) out

def bignumToBytesBe (n : Limbs) (out : Cells U8) (len : Nat) : Exec (Cells U8) :=
  count len (fun i out => do
    let limb ← n.read (i / 4)
    out.write (len - 1 - i) ((limb >>> (i % 4 * 8) &&& 0xFF).setWidth 8)) out

/-- `cmp_limbs`, from limb `n - 1` down. -/
def cmpLimbs (a b : Limbs) : Nat → Exec Int
  | 0 => return 0
  | i + 1 => do
    let x ← a.read i
    let y ← b.read i
    if x ≠ y then return if x > y then 1 else -1
    cmpLimbs a b i

/-- The body of `sub_limbs`' loop, on the array and `borrow`. -/
def subLimbsStep (b : Limbs) (i : Nat) (s : Limbs × Int) : Exec (Limbs × Int) := do
  let x ← s.1.read i
  let y ← b.read i
  let diff : Int := x.toNat - y.toNat - s.2
  let a ← s.1.write i (BitVec.ofInt 32 (if diff < 0 then diff + 2 ^ 32 else diff))
  return (a, if diff < 0 then 1 else 0)

/-- `sub_limbs` with `r = a`. -/
def subLimbs (a b : Limbs) (n : Nat) : Exec Limbs := do
  let s ← count n (subLimbsStep b) (a, 0)
  return s.1

/-- The loop of `shr1_limbs`, from limb `n - 1` down. -/
def shr1Loop : Nat → Limbs → U32 → Exec Limbs
  | 0, a, _ => return a
  | i + 1, a, carry => do
    let x ← a.read i
    let newCarry := x &&& 1
    let a ← a.write i (x >>> 1 ||| carry <<< 31)
    shr1Loop i a newCarry

def shr1Limbs (a : Limbs) (n : Nat) : Exec Limbs := shr1Loop n a 0

/-- `while (i >= limb_shift) a[i] = a[i - limb_shift]`, for `i` from `limb_shift + k - 1` down. -/
def shlMove (limbShift : Nat) : Nat → Limbs → Exec Limbs
  | 0, a => return a
  | k + 1, a => do
    let x ← a.read k
    let a ← a.write (limbShift + k) x
    shlMove limbShift k a

/-- The body of the loop over the bits of `shl_limbs`, on the array and `carry`. -/
def shlStep (bitShift : Nat) (i : Nat) (s : Limbs × U32) : Exec (Limbs × U32) := do
  let x ← s.1.read i
  let newCarry := x >>> (32 - bitShift)
  let a ← s.1.write i (x <<< bitShift ||| s.2)
  return (a, newCarry)

/-- The first part of `shl_limbs`. -/
def shlWords (a : Limbs) (n limbShift : Nat) : Exec Limbs :=
  if limbShift > 0 then do
    let a ← shlMove limbShift (n - limbShift) a
    count limbShift (fun i a => a.write i 0) a
  else return a

/-- The second part. -/
def shlBits (a : Limbs) (n bitShift : Nat) : Exec Limbs :=
  if bitShift > 0 then do
    let s ← count n (shlStep bitShift) (a, 0)
    return s.1
  else return a

def shlLimbs (a : Limbs) (n bits : Nat) : Exec Limbs := do
  let a ← shlWords a n (bits / 32)
  shlBits a n (bits % 32)

/-- `while (((v >> bit) & 1) == 0) bit = bit - 1`; a negative shift is undefined. -/
def topBit (v : U32) : Nat → Exec Nat
  | 0 => if v >>> 0 &&& 1 = 0 then .undefined else return 0
  | bit + 1 => if v >>> (bit + 1) &&& 1 = 0 then topBit v bit else return bit + 1

/-- `highest_bit_index`, from limb `n - 1` down. -/
def highestBitIndex (a : Limbs) : Nat → Exec Int
  | 0 => return -1
  | i + 1 => do
    let v ← a.read i
    if v ≠ 0 then do
      let bit ← topBit v 31
      return ((i * 32 + bit : Nat) : Int)
    else highestBitIndex a i

/-- The body of the inner loop of `mul_limbs`, on `out` and `carry`; `x` is `a[i]`. -/
def mulStep (x : U32) (b : Limbs) (i j : Nat) (s : Limbs × U64) : Exec (Limbs × U64) := do
  let y ← b.read j
  let o ← s.1.read (i + j)
  let prod := x.setWidth 64 * y.setWidth 64 + o.setWidth 64 + s.2
  let out ← s.1.write (i + j) ((prod &&& 0xFFFFFFFF).setWidth 32)
  return (out, prod >>> 32)

/-- `while (carry != 0)`. A carry that leaves the array is undefined, so that `fuel` above its length plays no part. -/
def carryLoop : Nat → Limbs → Nat → U64 → Exec Limbs
  | 0, _, _, _ => .undefined
  | fuel + 1, out, idx, carry =>
    if carry = 0 then return out
    else do
      let o ← out.read idx
      let sum := o.setWidth 64 + carry
      let out ← out.write idx ((sum &&& 0xFFFFFFFF).setWidth 32)
      carryLoop fuel out (idx + 1) (sum >>> 32)

/-- The body of the outer loop of `mul_limbs`. -/
def mulRow (a b : Limbs) (an bn i : Nat) (out : Limbs) : Exec Limbs := do
  let x ← a.read i
  let s ← count bn (mulStep x b i) (out, 0)
  carryLoop (an + bn + 1) s.1 (i + bn) s.2

def mulLimbs (out a : Limbs) (an : Nat) (b : Limbs) (bn : Nat) : Exec Limbs := do
  let out ← count (an + bn) (fun k out => out.write k 0) out
  count an (mulRow a b an bn) out

/-- `shifted_mod`: the modulus with zeros above it. -/
def extendMod (mod : Limbs) (modN wideN : Nat) : Exec Limbs := do
  let shiftedMod ← count modN (fun i s => mod.read i >>= fun v => s.write i v) (Cells.unset wideLimbs)
  count (wideN - modN) (fun i s => s.write (modN + i) 0) shiftedMod

/-- `if (cmp >= 0) sub_limbs(..)`. -/
def subWhenGe (wideN : Nat) (wide shiftedMod : Limbs) (cmp : Int) : Exec Limbs :=
  if cmp ≥ 0 then subLimbs wide shiftedMod wideN else return wide

/-- `if (s > 0) shr1_limbs(..)`. -/
def shr1WhenPos (wideN s : Nat) (shiftedMod : Limbs) : Exec Limbs :=
  if s > 0 then shr1Limbs shiftedMod wideN else return shiftedMod

/-- One round of the division, on `wide` and `shifted_mod`. -/
def reduceStep (wideN s : Nat) (wide shiftedMod : Limbs) : Exec (Limbs × Limbs) := do
  let cmp ← cmpLimbs wide shiftedMod wideN
  let wide ← subWhenGe wideN wide shiftedMod cmp
  let shiftedMod ← shr1WhenPos wideN s shiftedMod
  return (wide, shiftedMod)

/-- `while (s >= 0)`. -/
def reduceLoop (wideN : Nat) : Nat → Limbs → Limbs → Exec Limbs
  | 0, wide, shiftedMod => do
    let r ← reduceStep wideN 0 wide shiftedMod
    return r.1
  | s + 1, wide, shiftedMod => do
    let r ← reduceStep wideN (s + 1) wide shiftedMod
    reduceLoop wideN s r.1 r.2

/-- `out[i] = wide[i]` for the limbs of the modulus. -/
def copyOutLimbs (wide : Limbs) (modN : Nat) (out : Limbs) : Exec Limbs :=
  count modN (fun i out => wide.read i >>= fun v => out.write i v) out

def modReduceWide (wide : Limbs) (wideN : Nat) (mod : Limbs) (modN : Nat) (out : Limbs) : Exec Limbs := do
  let topRem ← highestBitIndex wide wideN
  let topMod ← highestBitIndex mod modN
  if topRem < 0 ∨ topRem < topMod then copyOutLimbs wide modN out
  else do
    let shiftedMod ← extendMod mod modN wideN
    let shift := (topRem - topMod).toNat
    let shiftedMod ← shlLimbs shiftedMod wideN shift
    let wide ← reduceLoop wideN shift wide shiftedMod
    copyOutLimbs wide modN out

def bignumBitLength (n : Limbs) : Exec Nat := do
  let top ← highestBitIndex n bignumLimbs
  return if top < 0 then 0 else (top + 1).toNat

/-- `bignum_mulmod`; `result` may be one of the factors. -/
def bignumMulmod (result a b mod : Limbs) : Exec Limbs := do
  let wide ← mulLimbs (Cells.unset wideLimbs) a bignumLimbs b bignumLimbs
  let reduced ← modReduceWide wide wideLimbs mod bignumLimbs (Cells.unset bignumLimbs)
  count bignumLimbs (fun i result => reduced.read i >>= fun v => result.write i v) result

def bignumTestBit (n : Limbs) (bitIndex : Nat) : Exec Bool := do
  let limb ← n.read (bitIndex / 32)
  return limb >>> (bitIndex % 32) &&& 1 ≠ 0

/-- `if (bignum_test_bit(..)) bignum_mulmod(&acc, &acc, &b, mod)`. -/
def mulmodWhen (bit : Bool) (acc b mod : Limbs) : Exec Limbs :=
  if bit then bignumMulmod acc acc b mod else return acc

/-- The loop of `bignum_modexp`, from bit `i - 1` down. -/
def modexpLoop (b exp mod : Limbs) : Nat → Limbs → Exec Limbs
  | 0, acc => return acc
  | i + 1, acc => do
    let acc ← bignumMulmod acc acc acc mod
    let bit ← bignumTestBit exp i
    let acc ← mulmodWhen bit acc b mod
    modexpLoop b exp mod i acc

def bignumModexp (result base exp mod : Limbs) : Exec Limbs := do
  let acc ← bignumSetU32 (Cells.unset bignumLimbs) 1
  let b ← bignumCopy (Cells.unset bignumLimbs) base
  let top ← highestBitIndex exp bignumLimbs
  let acc ← modexpLoop b exp mod (top + 1).toNat acc
  bignumCopy result acc

end MinicOs
