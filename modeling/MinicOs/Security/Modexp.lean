import MinicOs.Lib.BigEndian
import MinicOs.Security.BignumArith

/-!
# Modular exponentiation

`bignum_modexp` reads the exponent from its highest bit down: with `i` bits left the accumulator holds the base to the
power of the bits read so far. Bytes come in and go out with the highest first.
-/

namespace MinicOs

open Cells Exec List BitVec Nat

variable {u v m e : Nat} {a b mod exp result : Limbs}

/-- The `bignum_t` of a number. -/
def bignumOf (v : Nat) : Limbs := ofFn bignumLimbs (digit 32 v)

theorem bignum_capacity : (2 ^ 32) ^ bignumLimbs = 2 ^ 4096 := by
  rw [← pow_mul]
  exact congrArg (2 ^ ·) (by decide : 32 * bignumLimbs = 4096)

theorem holdsNat_bignumOf (h : v < 2 ^ 4096) : HoldsNat (bignumOf v) bignumLimbs v :=
  holdsNat_digit (bignum_capacity.symm ▸ h)

theorem HoldsNat.length {w n v : Nat} {a : Cells (BitVec w)} (h : HoldsNat a n v) : a.length = n := by
  obtain ⟨f, rfl, -⟩ := h
  exact length_ofFn n f

theorem bignumZero_returns (hn : a.length = bignumLimbs) : bignumZero a = .done (ofFn bignumLimbs fun _ => 0) :=
  count_write_all (fun _ => .done 0) hn fun _ _ => rfl

theorem bignumSetU32_returns (hn : a.length = bignumLimbs) (x : U32) :
    (bignumSetU32 a x).Returns (HoldsNat · bignumLimbs x.toNat) := by
  unfold bignumSetU32
  rw [bignumZero_returns hn, done_bind, write_ofFn _ (by decide)]
  refine .done ⟨_, rfl, ?_⟩
  have hupd := limbVal_update (f := fun _ => (0 : U32)) x (show 0 < bignumLimbs by decide)
  rw [limbVal_zero fun _ _ => rfl, pow_zero] at hupd
  simpa using hupd

theorem bignumCopy_returns (ha : HoldsNat a bignumLimbs u) (hn : b.length = bignumLimbs) :
    (bignumCopy b a).Returns (HoldsNat · bignumLimbs u) := by
  obtain ⟨f, rfl, rfl⟩ := ha
  unfold bignumCopy
  rw [count_write_all _ hn fun i hi => read_ofFn hi]
  exact .done (holdsNat_ofFn f _)

/-! ## Powers -/

theorem bignumMulmod_returns (ha : HoldsNat a bignumLimbs u) (hb : HoldsNat b bignumLimbs v)
    (hm : HoldsNat mod bignumLimbs m) (hpos : 0 < m) (hres : result.length = bignumLimbs) :
    (bignumMulmod result a b mod).Returns (HoldsNat · bignumLimbs (u * v % m)) := by
  refine (mulLimbs_returns (length_unset _) ha hb).bind fun wide hwide => ?_
  refine (modReduceWide_returns hwide hm hpos (by decide) (length_unset _)).bind fun reduced hreduced => ?_
  exact bignumCopy_returns hreduced hres

theorem bignumTestBit_returns (he : HoldsNat exp bignumLimbs e) {i : Nat} (hi : i < 32 * bignumLimbs) :
    bignumTestBit exp i = .done (e.testBit i) := by
  obtain ⟨f, rfl, rfl⟩ := he
  unfold bignumTestBit
  have hlimb := limbVal_div_mod (f := f) (show i / 32 < bignumLimbs by omega)
  rw [read_ofFn (by omega), done_bind]
  refine congrArg Exec.done ?_
  have hbit : (f (i / 32) >>> (i % 32) &&& 1 ≠ 0) ↔ (f (i / 32)).toNat.testBit (i % 32) = true := by
    rw [ne_eq, ← toNat_inj, toNat_and, toNat_ushiftRight, show (1 : U32).toNat = 1 from rfl,
      Nat.testBit, Nat.and_comm, bne_iff_ne]
    rfl
  rw [← hlimb, testBit_mod_two_pow, ← pow_mul, testBit_div_two_pow, mod_add_div i 32] at hbit
  rw [decide_eq_true (mod_lt i (by decide)), Bool.true_and] at hbit
  rw [Bool.eq_iff_iff, decide_eq_true_iff]
  exact hbit

theorem mulmodWhen_returns (bit : Bool) (ha : HoldsNat a bignumLimbs (u % m)) (hb : HoldsNat b bignumLimbs v)
    (hm : HoldsNat mod bignumLimbs m) (hpos : 0 < m) :
    (mulmodWhen bit a b mod).Returns (HoldsNat · bignumLimbs (u * v ^ bit.toNat % m)) := by
  cases bit with
  | false =>
    rw [Bool.toNat_false, pow_zero, mul_one]
    exact .done ha
  | true =>
    refine (bignumMulmod_returns ha hb hm hpos ha.length).mono fun c hc => ?_
    rwa [Bool.toNat_true, pow_one, ← mod_mul_mod]

theorem modexpLoop_returns (hb : HoldsNat b bignumLimbs v) (he : HoldsNat exp bignumLimbs e)
    (hm : HoldsNat mod bignumLimbs m) (hpos : 0 < m) {i : Nat} (hi : i ≤ 32 * bignumLimbs)
    (ha : HoldsNat a bignumLimbs (v ^ (e / 2 ^ i) % m)) :
    (modexpLoop b exp mod i a).Returns (HoldsNat · bignumLimbs (v ^ e % m)) := by
  induction i generalizing a with
  | zero =>
    rw [Nat.pow_zero, Nat.div_one] at ha
    exact .done ha
  | succ i ih =>
    refine (bignumMulmod_returns ha ha hm hpos ha.length).bind fun acc hacc => ?_
    rw [← mul_mod, ← pow_add] at hacc
    rw [bignumTestBit_returns he (by omega), done_bind]
    refine (mulmodWhen_returns (e.testBit i) hacc hb hm hpos).bind fun acc' hacc' => ih (by omega) ?_
    -- one more bit of the exponent
    have hbit : e / 2 ^ (i + 1) + e / 2 ^ (i + 1) + (e.testBit i).toNat = e / 2 ^ i := by
      have htest : (e.testBit i).toNat = e / 2 ^ i % 2 := toNat_testBit e i
      rw [htest, Nat.pow_succ, ← Nat.div_div_eq_div_mul]
      omega
    rwa [← pow_add, hbit] at hacc'

theorem bignumModexp_returns (hb : HoldsNat b bignumLimbs v) (he : HoldsNat exp bignumLimbs e)
    (hm : HoldsNat mod bignumLimbs m) (hm2 : 2 ≤ m) (hres : result.length = bignumLimbs) :
    (bignumModexp result b exp mod).Returns (HoldsNat · bignumLimbs (v ^ e % m)) := by
  refine (bignumSetU32_returns (length_unset _) 1).bind fun acc hacc => ?_
  refine (bignumCopy_returns hb (length_unset _)).bind fun b' hb' => ?_
  refine (highestBitIndex_returns he).bind fun top htop => ?_
  have hone : (1 : U32).toNat = v ^ 0 % m := by
    rw [pow_zero, mod_eq_of_lt (by omega)]
    rfl
  have hlt := he.lt
  have hstart : e < 2 ^ (top + 1).toNat ∧ (top + 1).toNat ≤ 32 * bignumLimbs := by
    rcases htop with ⟨rfl, rfl⟩ | ⟨k, rfl, hk, hk'⟩
    · exact ⟨by decide, by decide⟩
    · rw [← pow_mul] at hlt
      have := (Nat.pow_lt_pow_iff_right (by decide : 1 < 2)).mp (Nat.lt_of_le_of_lt hk hlt)
      exact ⟨hk', this⟩
  rw [hone, ← div_eq_of_lt hstart.1] at hacc
  refine (modexpLoop_returns hb' he hm (by omega) hstart.2 hacc).bind fun acc' hacc' => ?_
  exact bignumCopy_returns hacc' hres

/-! ## Bytes -/

/-- A byte is put above the bytes that are there. -/
theorem or_byte {x : U32} {b : U8} {k : Nat} (hk : k < 4) (hx : x.toNat < 2 ^ (k * 8)) :
    (x ||| b.setWidth 32 <<< (k * 8)).toNat = x.toNat + b.toNat * 2 ^ (k * 8) := by
  have hb := b.isLt
  have hwide : (b.setWidth 32).toNat = b.toNat := by
    rw [toNat_setWidth]
    omega
  have hshift : (b.setWidth 32 <<< (k * 8)).toNat = b.toNat <<< (k * 8) := by
    rw [toNat_shiftLeft, hwide, Nat.shiftLeft_eq]
    refine mod_eq_of_lt ?_
    calc b.toNat * 2 ^ (k * 8) < 2 ^ 8 * 2 ^ (k * 8) := Nat.mul_lt_mul_of_pos_right hb (Nat.two_pow_pos _)
      _ = 2 ^ (8 + k * 8) := by rw [pow_add]
      _ ≤ 2 ^ 32 := Nat.pow_le_pow_right (by decide) (by omega)
  rw [toNat_or, hshift, Nat.or_comm, ← Nat.shiftLeft_add_eq_or_of_lt hx, Nat.shiftLeft_eq, Nat.add_comm]

theorem bignumFromBytesBe_returns {bytes : Cells U8} {xs : List U8} (hbytes : bytes.Starts xs)
    (hlen : xs.length ≤ 4 * bignumLimbs) (hn : a.length = bignumLimbs) :
    (bignumFromBytesBe a bytes xs.length).Returns (HoldsNat · bignumLimbs (beValue xs)) := by
  unfold bignumFromBytesBe
  rw [bignumZero_returns hn, done_bind]
  -- after `i` rounds the last `i` bytes are in
  refine (count_returns (fun i out => HoldsNat out bignumLimbs (beValue (xs.drop (xs.length - i)))) ?_ ?_).mono ?_
  · refine ⟨_, rfl, ?_⟩
    rw [Nat.sub_zero, drop_length, limbVal_zero fun _ _ => rfl]
    rfl
  · rintro i hi _ ⟨f, rfl, hval⟩
    have hidx : xs.length - 1 - i < xs.length := by omega
    have hlimb : i / 4 < bignumLimbs := by omega
    have hdrop : xs.drop (xs.length - (i + 1)) = xs.get ⟨_, hidx⟩ :: xs.drop (xs.length - i) := by
      rw [show xs.length - (i + 1) = xs.length - 1 - i by omega, drop_eq_getElem_cons hidx,
        show xs.length - 1 - i + 1 = xs.length - i by omega]
      rfl
    have hdropLen : (xs.drop (xs.length - i)).length = i := by
      rw [length_drop]
      omega
    have hpow : 2 ^ (8 * i) = 2 ^ (i % 4 * 8) * (2 ^ 32) ^ (i / 4) := by
      rw [← pow_mul, ← pow_add]
      congr 1
      omega
    have hsmall : (f (i / 4)).toNat < 2 ^ (i % 4 * 8) := by
      have hlt := beValue_lt (xs.drop (xs.length - i))
      rw [← limbVal_div_mod hlimb, hval]
      refine Nat.lt_of_le_of_lt (Nat.mod_le _ _) ((Nat.div_lt_iff_lt_mul (Nat.pow_pos (by decide))).mpr ?_)
      rwa [hdropLen, hpow] at hlt
    unfold fromBytesStep
    rw [hbytes.read (getElem?_eq_getElem hidx), done_bind, read_ofFn hlimb, done_bind, write_ofFn _ hlimb]
    refine .done ⟨_, rfl, ?_⟩
    have hupd := limbVal_update (f := f) (f (i / 4) ||| (xs.get ⟨_, hidx⟩).setWidth 32 <<< (i % 4 * 8)) hlimb
    rw [or_byte (by omega) hsmall, Nat.add_mul, hval, Nat.mul_assoc, ← hpow] at hupd
    rw [hdrop, beValue_cons, hdropLen]
    have hget : xs.get ⟨xs.length - 1 - i, hidx⟩ = xs[xs.length - 1 - i] := rfl
    rw [hget] at hupd ⊢
    omega
  · intro c hc
    rwa [Nat.sub_self, drop_zero] at hc

theorem byte_of_word (x : Nat) {k : Nat} (hk : k < 4) : x % 2 ^ 32 / 2 ^ (k * 8) % 2 ^ 8 = x / 2 ^ (k * 8) % 2 ^ 8 := by
  have hsplit : 2 ^ 32 = 2 ^ (k * 8) * 2 ^ (32 - k * 8) := by
    rw [← pow_add]
    congr 1
    omega
  have hlow : 2 ^ 8 ∣ 2 ^ (32 - k * 8) := pow_dvd_pow 2 (by omega)
  rw [hsplit, mod_mul_right_div_self, mod_mod_of_dvd _ hlow]

theorem bignumToBytesBe_returns {out : Cells U8} {len : Nat} (ha : HoldsNat a bignumLimbs v) (hlen : len ≤ 4 * bignumLimbs)
    (hout : len ≤ out.length) :
    (bignumToBytesBe a out len).Returns fun c => c.length = out.length ∧ c.Starts (beBytes len v) := by
  obtain ⟨f, rfl, rfl⟩ := ha
  refine (count_returns (fun i (bytes : Cells U8) => bytes.length = out.length ∧ ∀ j < len, len - i ≤ j →
    bytes[j]? = some ((beBytes len (limbVal f bignumLimbs))[j]?)) ⟨rfl, fun j hj hj' => by omega⟩ ?_).mono ?_
  · rintro i hi c ⟨hc, hset⟩
    have hlimb : i / 4 < bignumLimbs := by omega
    rw [read_ofFn hlimb, done_bind, write_eq _ (by omega)]
    refine .done ⟨by rw [length_set, hc], fun j hj hj' => ?_⟩
    rw [getElem?_write (by omega)]
    split
    · rename_i heq
      subst heq
      rw [getElem?_beBytes _ hj]
      refine congrArg (fun x => some (some x)) (eq_of_toNat_eq ?_)
      have hword := limbVal_div_mod (f := f) hlimb
      have hpow : 2 ^ (8 * i) = (2 ^ 32) ^ (i / 4) * 2 ^ (i % 4 * 8) := by
        rw [← pow_mul, ← pow_add]
        congr 1
        omega
      rw [toNat_setWidth, toNat_and, toNat_ushiftRight, ← hword, shiftRight_eq_div_pow,
        show (0xFF : U32).toNat = 2 ^ 8 - 1 from rfl, and_two_pow_sub_one_eq_mod, mod_mod, toNat_ofNat,
        show len - 1 - (len - 1 - i) = i by omega, hpow, ← Nat.div_div_eq_div_mul]
      exact byte_of_word _ (by omega)
    · exact hset j hj (by omega)
  · rintro c ⟨hc, hset⟩
    refine ⟨hc, starts_of_getElem? fun j hj => ?_⟩
    rw [length_beBytes] at hj
    exact hset j hj (by omega)

/-! ## Exactness -/

/-- An array whose first cells, all it has, are `xs`. -/
theorem Cells.eq_ofList {α : Type} {c : Cells α} {xs : List α} (h : c.Starts xs) (hlen : c.length = xs.length) :
    c = ofList xs :=
  (List.IsPrefix.eq_of_length h (by rw [length_map, hlen])).symm

/-- **Modular exponentiation is exact**, with all accesses inside the arrays, and bytes come back from the number they
make. -/
theorem bignum_exact : (∀ (base exp m : Nat) (result : Limbs), base < 2 ^ 4096 → exp < 2 ^ 4096 → 2 ≤ m → m < 2 ^ 4096 →
      result.length = bignumLimbs →
      bignumModexp result (bignumOf base) (bignumOf exp) (bignumOf m) = .done (bignumOf (base ^ exp % m))) ∧
    ∀ bytes : List U8, bytes.length ≤ 512 → (bignumFromBytesBe (unset bignumLimbs) (ofList bytes) bytes.length >>= fun n =>
        bignumToBytesBe n (unset bytes.length) bytes.length) = .done (ofList bytes) := by
  constructor
  · intro base exp m result hbase hexp hm2 hm hres
    obtain ⟨r, hr, hval⟩ := returns_iff.mp (bignumModexp_returns (holdsNat_bignumOf hbase) (holdsNat_bignumOf hexp)
      (holdsNat_bignumOf hm) hm2 hres)
    rw [hr, hval.eq]
    rfl
  · intro bytes hlen
    obtain ⟨n, hn, hval⟩ := returns_iff.mp (bignumFromBytesBe_returns (starts_ofList bytes) hlen (length_unset bignumLimbs))
    have hout : bytes.length ≤ (unset bytes.length : Cells U8).length := by rw [length_unset]
    obtain ⟨c, hc, hsize, hstarts⟩ := returns_iff.mp (bignumToBytesBe_returns hval hlen hout)
    rw [beBytes_beValue] at hstarts
    rw [hn, done_bind, hc, eq_ofList hstarts (by rw [hsize, length_unset])]

/-- Seven to the power of five modulo thirteen, and three bytes. -/
theorem bignum_exact_small :
    bignumModexp (unset bignumLimbs) (bignumOf 7) (bignumOf 5) (bignumOf 13) = .done (bignumOf (7 ^ 5 % 13)) ∧
      (bignumFromBytesBe (unset bignumLimbs) (ofList [1, 0, 1]) 3 >>= fun n =>
        bignumToBytesBe n (unset 3) 3) = .done (ofList [1, 0, 1]) := by
  have hsmall : ∀ n x, x < n → x < 2 ^ n := fun _ _ hx => hx.trans Nat.lt_two_pow_self
  obtain ⟨hpow, hbytes⟩ := bignum_exact
  exact ⟨hpow _ _ _ _ (hsmall 4096 7 (by decide)) (hsmall 4096 5 (by decide)) (by decide) (hsmall 4096 13 (by decide))
    (length_unset _), hbytes [1, 0, 1] (by decide)⟩

end MinicOs
