import MinicOs.Security.X509Reads

/-!
# A key comes from inside the certificate

A header with a length near `2^31` can make `x509_extract_rsa_pubkey` read one byte behind the certificate
(`x509_reads_outside`), but then it gives up: the INTEGER is too long. So a key that is returned depends on the bytes of
the certificate only.
-/

namespace MinicOs

open Exec Int

variable {buf buf' : Cells U8} {cert : List U8} {out modulus : Limbs} {o total : Int} {t : Tlv}

/-- An element ends in the container, as far as the sum of `int`s says. -/
theorem i32_le_of_done (h : asn1ReadTlv buf o total = .done t) : i32 (t.valueOffset + t.len) ≤ total := by
  unfold asn1ReadTlv at h
  split at h
  · simp at h
  · obtain ⟨tag, -, h⟩ := bind_eq_done.mp h
    split at h
    · simp at h
    · obtain ⟨first, -, h⟩ := bind_eq_done.mp h
      obtain ⟨⟨length, pos⟩, -, h⟩ := bind_eq_done.mp h
      dsimp only at h
      unfold asn1Check at h
      split at h
      · simp at h
      · rename_i hcheck
        obtain rfl := done.inj h
        dsimp only
        omega

/-- The element that was expected is one that was read. -/
theorem asn1ReadTlv_of_expect {expected : U8} (h : asn1Expect expected buf o total = .done t) :
    asn1ReadTlv buf o total = .done t := by
  obtain ⟨t', hread, htag⟩ := bind_eq_done.mp (show (asn1ReadTlv buf o total >>= _) = _ from h)
  split at htag
  · simp at htag
  · rwa [done.inj htag] at hread

section Local

variable (h : buf.Starts cert) (h' : buf'.Starts cert) (ht : total ≤ cert.length)

include h h' ht

theorem asn1ReadTlv_congr (o : Int) : asn1ReadTlv buf o total = asn1ReadTlv buf' o total := by
  by_cases hbounds : o < 0 ∨ o ≥ total
  · unfold asn1ReadTlv
    rw [if_pos hbounds, if_pos hbounds]
  · obtain ⟨k, rfl⟩ := eq_ofNat_of_zero_le (show 0 ≤ o by omega)
    obtain ⟨n, rfl⟩ := eq_ofNat_of_zero_le (show 0 ≤ total by omega)
    rw [asn1ReadTlv_eq h (by omega), asn1ReadTlv_eq h' (by omega)]

theorem asn1Expect_congr (expected : U8) (o : Int) : asn1Expect expected buf o total = asn1Expect expected buf' o total := by
  unfold asn1Expect
  rw [asn1ReadTlv_congr h h' ht]

omit h' in
/-- An element that is reported, and whose length is small, lies in its container. -/
theorem asn1ReadTlv_small (hlen : cert.length < 2 ^ 30) (hread : asn1ReadTlv buf o total = .done t) (hsmall : t.len < 2 ^ 30) :
    ∃ n : Nat, total = n ∧ t.Inside n := by
  have hbounds : 0 ≤ o ∧ o < total := by
    unfold asn1ReadTlv at hread
    split at hread
    · simp at hread
    · omega
  obtain ⟨k, rfl⟩ := eq_ofNat_of_zero_le hbounds.1
  obtain ⟨n, rfl⟩ := eq_ofNat_of_zero_le (show 0 ≤ total by omega)
  rw [asn1ReadTlv_eq h (by omega)] at hread
  cases hx : derHeader ((cert.take n).drop k) with
  | none =>
    rw [hx] at hread
    simp at hread
  | some x =>
    obtain ⟨-, hsize⟩ := DerHeader.size_bounds hx
    rw [List.length_drop, List.length_take] at hsize
    rw [hx] at hread
    dsimp only at hread
    rw [asn1Check_eq _ (by omega) (by omega) (DerHeader.length_lt hx)] at hread
    split at hread
    · obtain rfl := done.inj hread
      dsimp only at hsmall
      exact ⟨n, rfl, _, _, _, rfl, by omega⟩
    · simp at hread

omit ht in
/-- The magnitude of an INTEGER is read the same way from both buffers. -/
theorem stripSign_congr {n : Nat} (hn : n ≤ cert.length) (hin : t.Inside n) : stripSign buf t = stripSign buf' t := by
  obtain ⟨tag, value, len, rfl, hle⟩ := hin
  unfold stripSign
  split
  · rename_i hlong
    dsimp only at hlong ⊢
    rw [readAt_starts h (show value < cert.length by omega), readAt_starts h' (show value < cert.length by omega)]
  · rfl

/-- An INTEGER whose magnitude is not too long for a bignum is read the same way from both buffers, and its magnitude lies
in the certificate. -/
theorem integer_local (hlen : cert.length < 2 ^ 30) {r : Int × Int}
    (hread : (asn1Expect asn1TagInteger buf o total >>= stripSign buf) = .done r) (hsmall : r.2 ≤ 512) :
    (asn1Expect asn1TagInteger buf' o total >>= stripSign buf') = .done r ∧
      ∃ bytes len : Nat, r = (↑bytes, ↑len) ∧ bytes + len ≤ cert.length := by
  obtain ⟨t, hexpect, hstrip⟩ := bind_eq_done.mp hread
  have hlong : t.len ≤ r.2 + 1 := by
    unfold stripSign at hstrip
    split at hstrip
    · obtain ⟨b, -, hstrip⟩ := bind_eq_done.mp hstrip
      split at hstrip
      · obtain rfl := done.inj hstrip
        omega
      · obtain rfl := done.inj hstrip
        omega
    · obtain rfl := done.inj hstrip
      omega
  obtain ⟨n, rfl, hin⟩ := asn1ReadTlv_small h ht hlen (asn1ReadTlv_of_expect hexpect) (by omega)
  refine ⟨?_, ?_⟩
  · rw [← asn1Expect_congr h h' ht, hexpect, done_bind, ← stripSign_congr h h' (by omega) hin, hstrip]
  · obtain ⟨bytes, len, hr, hle⟩ := (stripSign_sound h (show n ≤ cert.length by omega) hin).of_done hstrip
    exact ⟨bytes, len, hr, by omega⟩

theorem readMagnitude_local {β : Type} {bad : Int → Prop} [DecidablePred bad] {read : Cells U8 → Nat → Exec β}
    {val : Nat → β} (hr : MagnitudeReader bad read val) (hlen : cert.length < 2 ^ 30) {v : β}
    (hread : readMagnitude bad read buf o total = .done v) : readMagnitude bad read buf' o total = .done v := by
  unfold readMagnitude at hread ⊢
  obtain ⟨t, hexpect, hread⟩ := bind_eq_done.mp hread
  obtain ⟨r, hstrip, hread⟩ := bind_eq_done.mp hread
  dsimp only at hread
  split at hread
  · simp at hread
  · rename_i hsmall
    obtain ⟨hlocal, bytes, len, rfl, hle⟩ := integer_local h h' ht hlen (bind_eq_done.mpr ⟨t, hexpect, hstrip⟩)
      (hr.le _ hsmall)
    obtain ⟨t', hexpect', hstrip'⟩ := bind_eq_done.mp hlocal
    rw [hexpect', done_bind, hstrip', done_bind]
    dsimp only at hread hsmall ⊢
    rw [toNat_natCast, hr.at h hle hsmall] at hread
    rw [if_neg hsmall, toNat_natCast, hr.at h' hle hsmall, hread]

theorem skipVersion_congr (o : Int) : skipVersion buf o total = skipVersion buf' o total := by
  unfold skipVersion
  rw [asn1ReadTlv_congr h h' ht]
  refine bind_congr fun t => ?_
  split
  · rw [asn1ReadTlv_congr h h' ht]
  · rfl

theorem skipFields_congr (n : Nat) (o : Int) : skipFields buf total n o = skipFields buf' total n o := by
  induction n generalizing o with
  | zero => rfl
  | succ n ih =>
    rw [skipFields, skipFields, asn1ReadTlv_congr h h' ht]
    exact bind_congr fun t => ih _

end Local

section Key

variable (h : buf.Starts cert) (h' : buf'.Starts cert) (hlen : cert.length < 2 ^ 30) (hout : out.length = bignumLimbs)

include h h' hlen hout

theorem readRsaKey_local {r : Limbs × U32} (ht : i32 (t.valueOffset + t.len) ≤ cert.length)
    (hread : readRsaKey buf t out = .done r) : readRsaKey buf' t out = .done r := by
  have hsum : i32 (i32 (t.valueOffset + 1) + (t.len - 1)) = i32 (t.valueOffset + t.len) := by
    unfold i32
    rw [bmod_add_bmod]
    congr 1
    omega
  unfold readRsaKey at hread ⊢
  split at hread
  · simp at hread
  · rename_i hpos
    rw [if_neg hpos]
    dsimp only at hread ⊢
    rw [hsum] at hread ⊢
    obtain ⟨key, hkey, hread⟩ := bind_eq_done.mp hread
    obtain ⟨modulus, hmodulus, hread⟩ := bind_eq_done.mp hread
    obtain ⟨m, hm, hread⟩ := bind_eq_done.mp hread
    obtain ⟨exponent, hexponent, hread⟩ := bind_eq_done.mp hread
    have hend := (i32_le_of_done (asn1ReadTlv_of_expect hkey)).trans ht
    have hmodulus' : readIntegerBignum buf' _ _ out = _ := readMagnitude_local h h' hend (bignum_reader hout) hlen hmodulus
    have hexponent' : readIntegerU32 buf' _ _ = _ := readMagnitude_local h h' hend u32_reader hlen hexponent
    rw [← asn1Expect_congr h h' ht, hkey, done_bind, hmodulus', done_bind, ← asn1ReadTlv_congr h h' hend, hm, done_bind,
      hexponent', done_bind]
    exact hread

/-- **A key comes from inside the certificate.** -/
theorem x509ExtractRsaPubkey_local {r : Limbs × U32} (hread : x509ExtractRsaPubkey buf cert.length out = .done r) :
    x509ExtractRsaPubkey buf' cert.length out = .done r := by
  unfold x509ExtractRsaPubkey at hread ⊢
  obtain ⟨root, hroot, hread⟩ := bind_eq_done.mp hread
  obtain ⟨tbs, htbs, hread⟩ := bind_eq_done.mp hread
  obtain ⟨serial, hserial, hread⟩ := bind_eq_done.mp hread
  obtain ⟨cursor, hcursor, hread⟩ := bind_eq_done.mp hread
  obtain ⟨spki, hspki, hread⟩ := bind_eq_done.mp hread
  obtain ⟨algorithm, halgorithm, hread⟩ := bind_eq_done.mp hread
  obtain ⟨key, hkey, hread⟩ := bind_eq_done.mp hread
  have hwhole : ((cert.length : Nat) : Int) ≤ cert.length := le_refl _
  have htbsEnd := i32_le_of_done (asn1ReadTlv_of_expect htbs)
  have hspkiEnd := (i32_le_of_done (asn1ReadTlv_of_expect hspki)).trans htbsEnd
  have hkeyEnd := (i32_le_of_done (asn1ReadTlv_of_expect hkey)).trans hspkiEnd
  rw [← asn1Expect_congr h h' hwhole, hroot, done_bind, ← asn1Expect_congr h h' hwhole, htbs, done_bind]
  dsimp only
  rw [← skipVersion_congr h h' htbsEnd, hserial, done_bind, ← skipFields_congr h h' htbsEnd, hcursor, done_bind,
    ← asn1Expect_congr h h' htbsEnd, hspki, done_bind,
    ← asn1ReadTlv_congr h h' hspkiEnd, halgorithm, done_bind, ← asn1Expect_congr h h' hspkiEnd, hkey, done_bind]
  exact readRsaKey_local h h' hlen hout hkeyEnd hread

end Key

end MinicOs
