import MinicOs.Lib.Rsa
import MinicOs.Net.TlsRecord
import MinicOs.Security.Modexp
import Mathlib.NumberTheory.LucasLehmer

/-!
# The key exchange

`send_client_key_exchange` encrypts the pre-master secret with the key of the server. The block begins with a zero byte
and a 2, so as a number it is below every modulus of as many bytes (`pkcs1Block_lt`), and whoever has the private exponent
gets the block back (`rsa_decrypts`).
-/

namespace MinicOs

open List Exec Cells Nat

/-! ## The block -/

theorem nonzeroRandom_eq {n : Nat} {random ps rest : List U8} (h : nonzeroRandom n random = .done (ps, rest)) :
    ps.length = n ∧ (0 : U8) ∉ ps := by
  fun_induction nonzeroRandom n random generalizing ps rest with
  | case1 random =>
    obtain ⟨rfl, -⟩ := Prod.mk.inj (done.inj h)
    exact ⟨rfl, not_mem_nil⟩
  | case2 n => simp at h
  | case3 n random ih => exact ih h
  | case4 n b random hb ih =>
    obtain ⟨⟨bs, rest'⟩, hbs, hdone⟩ := bind_eq_done.mp h
    obtain ⟨rfl, -⟩ := Prod.mk.inj (done.inj hdone)
    obtain ⟨hlen, hzero⟩ := ih hbs
    refine ⟨by rw [length_cons, hlen], fun hmem => ?_⟩
    rcases mem_cons.mp hmem with h0 | hmem
    · exact hb h0.symm
    · exact hzero hmem

theorem length_pkcs1Block (ps pms : List U8) : (pkcs1Block ps pms).length = 3 + ps.length + pms.length := by
  unfold pkcs1Block
  simp only [length_append, length_cons, length_nil]
  omega

/-- **The block is below the modulus**: its highest byte is zero and the next one is small. -/
theorem pkcs1Block_lt (ps pms : List U8) : beValue (pkcs1Block ps pms) < 2 ^ (8 * ((pkcs1Block ps pms).length - 1)) := by
  have hcons : pkcs1Block ps pms = 0x00 :: 0x02 :: (ps ++ [0x00] ++ pms) := by
    unfold pkcs1Block
    simp only [cons_append, nil_append, append_assoc]
  rw [hcons, beValue_cons]
  have hlt := beValue_lt (0x02 :: (ps ++ [0x00] ++ pms))
  rw [show (0x00 : U8).toNat = 0 from rfl, zero_mul, zero_add]
  rwa [length_cons, Nat.add_sub_cancel]

/-! ## The power -/

variable {n k : Nat} {serverModulus : Limbs}

theorem bignumBitLength_returns (hn : HoldsNat serverModulus bignumLimbs n) :
    (bignumBitLength serverModulus).Returns fun b => ∀ j, 2 ^ j ≤ n ↔ j < b := by
  refine (highestBitIndex_returns hn).bind fun top htop => .done fun j => ?_
  rcases htop with ⟨rfl, rfl⟩ | ⟨t, rfl, hlow, hhigh⟩
  · rw [if_pos (by decide)]
    exact iff_of_false (Nat.not_le.mpr (Nat.two_pow_pos j)) (Nat.not_lt_zero j)
  · rw [if_neg (by omega), show ((t : Int) + 1).toNat = t + 1 by omega]
    constructor
    · intro hj
      exact (Nat.pow_lt_pow_iff_right (by decide)).mp (Nat.lt_of_le_of_lt hj hhigh)
    · intro hj
      exact (Nat.pow_le_pow_right (by decide) (Nat.le_of_lt_succ hj)).trans hlow

theorem rsaEncrypt_returns (hn : HoldsNat serverModulus bignumLimbs n) (hn2 : 2 ≤ n) (e : U32) {block : List U8}
    (hlen : block.length ≤ 512) :
    rsaEncrypt serverModulus e block = .done (beBytes block.length (beValue block ^ e.toNat % n)) := by
  have hroom : (unset 512 : Cells U8).length = 512 := length_unset 512
  obtain ⟨base, hbase, hbaseVal⟩ := returns_iff.mp (bignumFromBytesBe_returns
    (starts_fill (unset 512) block) hlen (length_unset bignumLimbs))
  obtain ⟨exp, hexp, hexpVal⟩ := returns_iff.mp (bignumSetU32_returns (length_unset bignumLimbs) e)
  obtain ⟨r, hr, hrVal⟩ := returns_iff.mp (bignumModexp_returns hbaseVal hexpVal hn hn2 (length_unset bignumLimbs))
  obtain ⟨c, hc, -, hstarts⟩ := returns_iff.mp (bignumToBytesBe_returns hrVal hlen (hroom.symm ▸ hlen))
  have hcontents := contents_take hstarts
  rw [length_beBytes] at hcontents
  unfold rsaEncrypt
  rw [hbase, done_bind, hexp, done_bind, hr, done_bind, hc, done_bind, hcontents]

/-- The ClientKeyExchange with the ciphertext `c`, for a modulus of `k` bytes. -/
def exchangeMessage (k c : Nat) : List U8 :=
  [tlsHandshakeClientKeyExchange, 0] ++ beBytes 2 (k + 2) ++ (beBytes 2 k ++ beBytes k c)

theorem length_exchangeMessage (k c : Nat) : (exchangeMessage k c).length = k + 6 := by
  unfold exchangeMessage
  simp only [length_append, length_beBytes, length_cons, length_nil]
  omega

theorem sendClientKeyExchange_eq {conn : TlsConn} {e : U32} {pms ps random : List U8}
    (hn : HoldsNat serverModulus bignumLimbs n) (hk : 59 ≤ k) (hk' : k ≤ 512) (hlow : 2 ^ (8 * (k - 1)) ≤ n)
    (hhigh : n < 2 ^ (8 * k)) (hpms : pms.length = 48) (hps : nonzeroRandom (k - 3 - 48) conn.random = .done (ps, random)) :
    let msg := exchangeMessage k (beValue (pkcs1Block ps pms) ^ e.toNat % n)
    let sent := conn.tcp.send (recordHeader tlsContentHandshake (k + 6) ++ msg)
    sendClientKeyExchange conn serverModulus e pms = .done (sent.1, { conn with
      random := random
      transcript := sha256Update conn.transcript msg
      tcp := sent.2 }) := by
  have hn2 : 2 ≤ n := by
    have hpow : 2 ^ 1 ≤ 2 ^ (8 * (k - 1)) := Nat.pow_le_pow_right (by decide) (by omega)
    omega
  obtain ⟨hpsLen, -⟩ := nonzeroRandom_eq hps
  have hblock : (pkcs1Block ps pms).length = k := by
    rw [length_pkcs1Block, hpsLen, hpms]
    omega
  -- the length of the modulus in bytes
  obtain ⟨b, hb, hbits⟩ := returns_iff.mp (bignumBitLength_returns hn)
  have hbk : (b + 7) / 8 = k := by
    have hlt := (hbits _).mp hlow
    have hle := mt (hbits (8 * k)).mpr (not_le.mpr hhigh)
    omega
  have henc := rsaEncrypt_returns hn hn2 e (hblock.symm ▸ hk')
  rw [hblock] at henc
  have hbody : (beBytes 2 k ++ beBytes k (beValue (pkcs1Block ps pms) ^ e.toNat % n)).length = k + 2 := by
    rw [length_append, length_beBytes, length_beBytes, add_comm]
  have hmsg := length_exchangeMessage k (beValue (pkcs1Block ps pms) ^ e.toNat % n)
  unfold sendClientKeyExchange
  rw [hb, done_bind]
  dsimp only
  rw [hbk, if_neg (by omega), hps, done_bind, henc, done_bind, ← beBytes_two,
    handshakeMessage_eq _ (by rw [hbody]; omega), hbody]
  rw [← exchangeMessage, tlsSendRecord_eq _ _ (by rw [hmsg]; unfold tlsMaxRecordLen; omega), hmsg]

theorem exponents_pos {p q e d : Nat} (hne : p ≠ q) (hed : e * d ≡ 1 [MOD Nat.lcm (p - 1) (q - 1)]) : 0 < e * d := by
  by_contra hzero
  rw [Nat.eq_zero_of_not_pos hzero] at hed
  have hone : Nat.lcm (p - 1) (q - 1) = 1 := Nat.dvd_one.mp ((Nat.modEq_zero_iff_dvd).mp hed.symm)
  have hp1 := Nat.dvd_one.mp (hone ▸ Nat.dvd_lcm_left (p - 1) (q - 1))
  have hq1 := Nat.dvd_one.mp (hone ▸ Nat.dvd_lcm_right (p - 1) (q - 1))
  omega

/-- **The server can decrypt the key exchange**: the record that is sent carries a ciphertext of as many bytes as the
modulus, and its power with the private exponent is `00 02 PS 00 PMS`. -/
theorem keyExchange_decrypts (p q d : Nat) (e : U32) (k : Nat) (hp : p.Prime) (hq : q.Prime) (hne : p ≠ q)
    (hk : 59 ≤ k) (hk' : k ≤ 512) (hlow : 2 ^ (8 * (k - 1)) ≤ p * q) (hhigh : p * q < 2 ^ (8 * k))
    (hed : e.toNat * d ≡ 1 [MOD Nat.lcm (p - 1) (q - 1)]) (pms : List U8) (hpms : pms.length = 48) (conn : TlsConn)
    (ps random : List U8) (hloop : nonzeroRandom (k - 3 - 48) conn.random = .done (ps, random)) :
    ∃ sent conn' ciphertext, sendClientKeyExchange conn (bignumOf (p * q)) e pms = .done (sent, conn') ∧
      conn'.tcp.outgoing = conn.tcp.outgoing ++ [recordHeader tlsContentHandshake (k + 6) ++
        ([tlsHandshakeClientKeyExchange, 0] ++ beBytes 2 (k + 2) ++ beBytes 2 k ++ ciphertext)] ∧
      ciphertext.length = k ∧ beBytes k (beValue ciphertext ^ d % (p * q)) = [0x00, 0x02] ++ ps ++ [0x00] ++ pms ∧
      8 ≤ ps.length ∧ (0 : U8) ∉ ps := by
  have hn : HoldsNat (bignumOf (p * q)) bignumLimbs (p * q) :=
    holdsNat_bignumOf (lt_of_lt_of_le hhigh (pow_le_pow_right₀ (by decide) (by omega)))
  have hsend := sendClientKeyExchange_eq (e := e) hn hk hk' hlow hhigh hpms hloop
  obtain ⟨hpsLen, hzero⟩ := nonzeroRandom_eq hloop
  have hblock : (pkcs1Block ps pms).length = k := by
    rw [length_pkcs1Block, hpsLen, hpms]
    omega
  have hlt : beValue (pkcs1Block ps pms) < p * q := by
    have := pkcs1Block_lt ps pms
    rw [hblock] at this
    exact this.trans_le hlow
  refine ⟨_, _, _, hsend, ?_, length_beBytes k (beValue (pkcs1Block ps pms) ^ e.toNat % (p * q)), ?_, by omega, hzero⟩
  · simp only [TcpLink.send, exchangeMessage, append_assoc]
  -- the power is below the modulus, so its bytes are all there
  have hpow : beValue (pkcs1Block ps pms) ^ e.toNat % (p * q) < 2 ^ (8 * k) :=
    (mod_lt _ (zero_lt_of_lt hlt)).trans hhigh
  rw [beValue_beBytes, mod_eq_of_lt hpow, rsa_decrypts hp hq hne (exponents_pos hne hed) hed hlt]
  have hbytes := beBytes_beValue (pkcs1Block ps pms)
  rwa [hblock] at hbytes

/-- The private exponent for 65537 and the modulus `3 (2^521 - 1)`. -/
def mersennePrivate : Nat :=
  5155328233496318390256865764810548697290840245466729669258087920880340553538954146776874404297340568416582885358721232128614872261196790492751513654940106623

/-- A key of 66 bytes. -/
theorem keyExchange_decrypts_mersenne : ∃ sent conn' ciphertext,
      sendClientKeyExchange (zeroKeyConn ⟨[], [], [], [true]⟩ (List.replicate 15 1)) (bignumOf (mersenne 521 * 3)) 65537
        (List.replicate 48 7) = .done (sent, conn') ∧
      conn'.tcp.outgoing = [] ++ [recordHeader tlsContentHandshake (66 + 6) ++
        ([tlsHandshakeClientKeyExchange, 0] ++ beBytes 2 (66 + 2) ++ beBytes 2 66 ++ ciphertext)] ∧
      ciphertext.length = 66 ∧ beBytes 66 (beValue ciphertext ^ mersennePrivate % (mersenne 521 * 3)) =
        [0x00, 0x02] ++ List.replicate 15 1 ++ [0x00] ++ List.replicate 48 7 ∧
      8 ≤ (List.replicate 15 (1 : U8)).length ∧ (0 : U8) ∉ List.replicate 15 (1 : U8) :=
  keyExchange_decrypts (mersenne 521) 3 mersennePrivate 65537 66
    (lucas_lehmer_sufficiency _ (by norm_num) (by norm_num)) prime_three (by decide +kernel) (by decide) (by decide)
    (by decide +kernel) (by decide +kernel) (by decide +kernel) (List.replicate 48 7) rfl _ (List.replicate 15 1) [] rfl

end MinicOs
