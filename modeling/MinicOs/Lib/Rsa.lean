import Mathlib.Data.Nat.Totient
import Mathlib.FieldTheory.Finite.Basic

/-!
# RSA

Raising to an exponent that is one modulo `lcm (p - 1) (q - 1)` changes nothing modulo `p * q`, also for numbers that are
not coprime to it.
-/

namespace MinicOs

open Nat

variable {p q : Nat}

theorem pow_modEq_self_of_dvd (hp : p.Prime) {k : Nat} (hk : 0 < k) (hdvd : p - 1 ∣ k - 1) (m : Nat) :
    m ^ k ≡ m [MOD p] := by
  by_cases hm : p ∣ m
  · have hzero : m ≡ 0 [MOD p] := (modEq_zero_iff_dvd).mpr hm
    calc m ^ k ≡ 0 ^ k [MOD p] := hzero.pow k
      _ = 0 := Nat.zero_pow hk
      _ ≡ m [MOD p] := hzero.symm
  · obtain ⟨c, hc⟩ := hdvd
    have hcop : Nat.Coprime m p := ((Nat.Prime.coprime_iff_not_dvd hp).mpr hm).symm
    have hfermat : m ^ (p - 1) ≡ 1 [MOD p] := totient_prime hp ▸ Nat.ModEq.pow_totient hcop
    calc m ^ k = (m ^ (p - 1)) ^ c * m := by rw [← pow_mul, ← hc, ← pow_succ, Nat.sub_add_cancel hk]
      _ ≡ 1 ^ c * m [MOD p] := (hfermat.pow c).mul_right m
      _ = m := by rw [one_pow, one_mul]

/-- **Decryption undoes encryption.** -/
theorem rsa_decrypts (hp : p.Prime) (hq : q.Prime) (hne : p ≠ q) {e d : Nat} (hpos : 0 < e * d)
    (hed : e * d ≡ 1 [MOD Nat.lcm (p - 1) (q - 1)]) {m : Nat} (hm : m < p * q) : (m ^ e % (p * q)) ^ d % (p * q) = m := by
  have hdvd : Nat.lcm (p - 1) (q - 1) ∣ e * d - 1 := (modEq_iff_dvd' hpos).mp hed.symm
  have hcop : Nat.Coprime p q := (coprime_primes hp hq).mpr hne
  have hmod : m ^ (e * d) ≡ m [MOD p * q] :=
    (modEq_and_modEq_iff_modEq_mul hcop).mp
      ⟨pow_modEq_self_of_dvd hp hpos ((dvd_lcm_left _ _).trans hdvd) m,
        pow_modEq_self_of_dvd hq hpos ((dvd_lcm_right _ _).trans hdvd) m⟩
  rw [← pow_mod, ← pow_mul]
  exact mod_eq_of_modEq hmod hm

end MinicOs
