import MinicOs.Lib.BigEndian
import MinicOs.Security.Sha256
import Mathlib.Data.Nat.Nth
import Mathlib.Data.Nat.Prime.Basic

/-!
# SHA-256 and HMAC as the standards have them

FIPS 180-4 and RFC 2104, for messages of whole bytes. The constants are those the standard describes: the first 32 bits of
the fractional parts of the cube roots of the first 64 primes, and of the square roots of the first 8.
-/

namespace MinicOs

open Nat

namespace Fips180

/-! ## Functions and constants -/

def ch (x y z : U32) : U32 := (x &&& y) ^^^ (~~~x &&& z)

def maj (x y z : U32) : U32 := (x &&& y) ^^^ (x &&& z) ^^^ (y &&& z)

/-- `Σ0`. -/
def bigSigma0 (x : U32) : U32 := x.rotateRight 2 ^^^ x.rotateRight 13 ^^^ x.rotateRight 22

/-- `Σ1`. -/
def bigSigma1 (x : U32) : U32 := x.rotateRight 6 ^^^ x.rotateRight 11 ^^^ x.rotateRight 25

/-- `σ0`. -/
def smallSigma0 (x : U32) : U32 := x.rotateRight 7 ^^^ x.rotateRight 18 ^^^ (x >>> 3)

/-- `σ1`. -/
def smallSigma1 (x : U32) : U32 := x.rotateRight 17 ^^^ x.rotateRight 19 ^^^ (x >>> 10)

/-- The greatest integer whose `k`-th power is at most `n`. -/
def root (k n : Nat) : Nat := Nat.findGreatest (fun r => r ^ k ≤ n) n

/-- The first 32 bits of the fractional part of the `k`-th root of `p`. -/
def rootFraction (k p : Nat) : U32 := BitVec.ofNat 32 (root k (p * 2 ^ (32 * k)))

/-- The constant `K` of round `t`. -/
noncomputable def roundConstant (t : Nat) : U32 := rootFraction 3 (Nat.nth Nat.Prime t)

/-- The initial hash value. -/
noncomputable def initialHash : Sha256State where
  a := rootFraction 2 (Nat.nth Nat.Prime 0)
  b := rootFraction 2 (Nat.nth Nat.Prime 1)
  c := rootFraction 2 (Nat.nth Nat.Prime 2)
  d := rootFraction 2 (Nat.nth Nat.Prime 3)
  e := rootFraction 2 (Nat.nth Nat.Prime 4)
  f := rootFraction 2 (Nat.nth Nat.Prime 5)
  g := rootFraction 2 (Nat.nth Nat.Prime 6)
  h := rootFraction 2 (Nat.nth Nat.Prime 7)

/-! ## The hash -/

/-- The word `W` of the message schedule, for a block of words `m`. -/
def messageSchedule (m : Nat → U32) (t : Nat) : U32 :=
  if t < 16 then m t
  else
    smallSigma1 (messageSchedule m (t - 2)) + messageSchedule m (t - 7) + smallSigma0 (messageSchedule m (t - 15)) +
      messageSchedule m (t - 16)
termination_by t

/-- A round, with constant `k` and schedule word `w`. -/
def round (k w : U32) (v : Sha256State) : Sha256State :=
  let t1 := v.h + bigSigma1 v.e + ch v.e v.f v.g + k + w
  let t2 := bigSigma0 v.a + maj v.a v.b v.c
  { a := t1 + t2, b := v.a, c := v.b, d := v.c, e := v.d + t1, f := v.e, g := v.f, h := v.g }

/-- The next hash value, after a block of words `m`. -/
noncomputable def nextHash (hash : Sha256State) (m : Nat → U32) : Sha256State :=
  let v := (List.range 64).foldl (fun v t => round (roundConstant t) (messageSchedule m t) v) hash
  { a := v.a + hash.a, b := v.b + hash.b, c := v.c + hash.c, d := v.d + hash.d,
    e := v.e + hash.e, f := v.f + hash.f, g := v.g + hash.g, h := v.h + hash.h }

/-- The zero bytes of the padding: as few as make the length, with the marker and the eight bytes of the bit count, a
multiple of 64. -/
def padZeros (len : Nat) : Nat := (55 + 64 - len % 64) % 64

def pad (message : List U8) : List U8 :=
  message ++ [0x80] ++ List.replicate (padZeros message.length) 0x00 ++ beBytes 8 (8 * message.length)

/-- The words of block `i` of a padded message. -/
def blockWords (padded : List U8) (i t : Nat) : U32 := BitVec.ofNat 32 (beValue (bytesAt padded (64 * i + 4 * t) 4))

/-- The hash value after the first `n` blocks of a padded message. -/
noncomputable def hashBlocks (padded : List U8) (n : Nat) : Sha256State :=
  (List.range n).foldl (fun hash i => nextHash hash (blockWords padded i)) initialHash

/-- The words of a hash value, as bytes. -/
def digestBytes (s : Sha256State) : List U8 := [s.a, s.b, s.c, s.d, s.e, s.f, s.g, s.h].flatMap fun w => beBytes 4 w.toNat

/-- The digest of a message. -/
noncomputable def sha256 (message : List U8) : List U8 :=
  digestBytes (hashBlocks (pad message) ((pad message).length / 64))

/-- A key as a block: hashed if it is longer than one, and filled up with zeros. -/
noncomputable def hmacKey (key : List U8) : List U8 :=
  let key := if key.length > 64 then sha256 key else key
  key ++ List.replicate (64 - key.length) 0x00

/-- `H(K XOR opad, H(K XOR ipad, text))`. -/
noncomputable def hmac (key text : List U8) : List U8 :=
  sha256 ((hmacKey key).map (· ^^^ 0x5C) ++ sha256 ((hmacKey key).map (· ^^^ 0x36) ++ text))

/-! ## The tables -/

theorem root_eq {k n r : Nat} (hk : k ≠ 0) (hle : r ^ k ≤ n) (hlt : n < (r + 1) ^ k) : root k n = r := by
  have hrn : r ≤ n := (le_self_pow hk r).trans hle
  refine le_antisymm (le_of_lt_succ ?_) (le_findGreatest hrn hle)
  have hroot : root k n ^ k ≤ n := findGreatest_spec (P := fun r => r ^ k ≤ n) hrn hle
  exact lt_of_pow_lt_pow_left₀ k (zero_le _) (hroot.trans_lt hlt)

/-- The first 64 primes. -/
def primes : List Nat :=
  [2, 3, 5, 7, 11, 13, 17, 19, 23, 29, 31, 37, 41, 43, 47, 53, 59, 61, 67, 71, 73, 79, 83, 89, 97, 101, 103, 107, 109, 113,
    127, 131, 137, 139, 149, 151, 157, 163, 167, 173, 179, 181, 191, 193, 197, 199, 211, 223, 227, 229, 233, 239, 241, 251,
    257, 263, 269, 271, 277, 281, 283, 293, 307, 311]

/-- Trial division, good for numbers below `19 * 19`. -/
def trial (n : Nat) : Bool := decide (2 ≤ n) && (List.range 19).all fun m => !(decide (2 ≤ m ∧ m < n) && n % m == 0)

theorem prime_iff_trial {n : Nat} (hn : n < 19 * 19) : n.Prime ↔ trial n = true := by
  simp only [trial, Bool.and_eq_true, decide_eq_true_eq, List.all_eq_true, List.mem_range, Bool.not_eq_true',
    Bool.and_eq_false_iff, decide_eq_false_iff_not, beq_eq_false_iff_ne, ne_eq]
  rw [prime_def_le_sqrt]
  refine and_congr_right fun h2 => ⟨fun h m hm => ?_, fun h m hm hle hdvd => ?_⟩
  · by_contra hcon
    rw [not_or, not_not, not_not] at hcon
    obtain ⟨⟨hm2, hmn⟩, hmod⟩ := hcon
    have hprime := prime_def_le_sqrt.mpr ⟨h2, h⟩
    rcases (dvd_prime hprime).mp (dvd_of_mod_eq_zero hmod) with rfl | rfl <;> omega
  · have hsq : m * m ≤ n := le_sqrt.mp hle
    have hm19 : m < 19 := by
      by_contra hge
      have := Nat.mul_le_mul (Nat.le_of_not_lt hge) (Nat.le_of_not_lt hge)
      omega
    have hlt : m < n := by
      have := mul_le_mul_right m hm
      omega
    rcases h m hm19 with hcon | hcon
    · exact hcon ⟨hm, hlt⟩
    · exact hcon (mod_eq_zero_of_dvd hdvd)

/-- There are `t` primes below the one at place `t`. -/
theorem count_primes : ∀ t < 64, Nat.count Nat.Prime (primes.getD t 0) = t := by
  have hgap : ∀ t < 63, primes.getD t 0 + 1 ≤ primes.getD (t + 1) 0 ∧ primes.getD (t + 1) 0 < 19 * 19 ∧
      trial (primes.getD t 0) = true ∧
      ∀ k < primes.getD (t + 1) 0 - (primes.getD t 0 + 1), trial (primes.getD t 0 + 1 + k) = false := by
    decide +kernel
  intro t
  induction t with
  | zero => decide
  | succ t ih =>
    intro ht
    obtain ⟨hle, hsmall, hprime, hnone⟩ := hgap t (by omega)
    have hzero : Nat.count (fun k => (primes.getD t 0 + 1 + k).Prime) (primes.getD (t + 1) 0 - (primes.getD t 0 + 1)) = 0 := by
      refine count_iff_forall_not.mpr fun k hk hp => ?_
      rw [prime_iff_trial (by omega), hnone k hk] at hp
      exact absurd hp (by decide)
    rw [← Nat.add_sub_cancel' hle, Nat.count_add, hzero, Nat.count_succ, if_pos ((prime_iff_trial (by omega)).mpr hprime),
      ih (by omega)]

theorem nth_prime {t : Nat} (ht : t < 64) : Nat.nth Nat.Prime t = primes.getD t 0 := by
  have hall : ∀ t < 64, primes.getD t 0 < 19 * 19 ∧ trial (primes.getD t 0) = true := by decide +kernel
  obtain ⟨hsmall, htrial⟩ := hall t ht
  have hnth := nth_count ((prime_iff_trial hsmall).mpr htrial)
  rwa [count_primes t ht] at hnth

/-- The fraction of a root, given its integer part. -/
theorem rootFraction_eq {k p c : Nat} {f : U32} (hk : k ≠ 0) (hle : (c * 2 ^ 32 + f.toNat) ^ k ≤ p * 2 ^ (32 * k))
    (hlt : p * 2 ^ (32 * k) < (c * 2 ^ 32 + f.toNat + 1) ^ k) : rootFraction k p = f := by
  unfold rootFraction
  rw [root_eq hk hle hlt]
  refine BitVec.eq_of_toNat_eq ?_
  rw [BitVec.toNat_ofNat, mul_add_mod_self_right, mod_eq_of_lt f.isLt]

/-- The integer part of the cube root of one of these primes. -/
def cubeRoot (p : Nat) : Nat := if p < 8 then 1 else if p < 27 then 2 else if p < 64 then 3 else if p < 125 then 4 else
  if p < 216 then 5 else 6

end Fips180

open Fips180

/-- **`K` is the table of the standard.** -/
theorem sha256K_eq {t : Nat} (ht : t < 64) : sha256K.getD t 0 = roundConstant t := by
  have hall : ∀ t < 64, (cubeRoot (primes.getD t 0) * 2 ^ 32 + (sha256K.getD t 0).toNat) ^ 3 ≤ primes.getD t 0 * 2 ^ (32 * 3) ∧
      primes.getD t 0 * 2 ^ (32 * 3) < (cubeRoot (primes.getD t 0) * 2 ^ 32 + (sha256K.getD t 0).toNat + 1) ^ 3 := by
    decide +kernel
  obtain ⟨hle, hlt⟩ := hall t ht
  rw [roundConstant, nth_prime ht, rootFraction_eq (by decide) hle hlt]

/-- **So is the initial hash value.** -/
theorem sha256Init_eq : sha256Init.state = initialHash := by
  have hroot : ∀ t c f, t < 64 ∧ (c * 2 ^ 32 + f.toNat) ^ 2 ≤ primes.getD t 0 * 2 ^ (32 * 2) ∧
      primes.getD t 0 * 2 ^ (32 * 2) < (c * 2 ^ 32 + f.toNat + 1) ^ 2 → rootFraction 2 (Nat.nth Nat.Prime t) = f :=
    fun t c f ⟨ht, hle, hlt⟩ => by rw [nth_prime ht, rootFraction_eq (by decide) hle hlt]
  unfold initialHash
  rw [hroot 0 1 0x6a09e667 (by decide), hroot 1 1 0xbb67ae85 (by decide), hroot 2 2 0x3c6ef372 (by decide),
    hroot 3 2 0xa54ff53a (by decide), hroot 4 3 0x510e527f (by decide), hroot 5 3 0x9b05688c (by decide),
    hroot 6 4 0x1f83d9ab (by decide), hroot 7 4 0x5be0cd19 (by decide)]
  rfl

end MinicOs
