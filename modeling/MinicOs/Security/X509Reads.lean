import MinicOs.Lib.Der
import MinicOs.Security.Modexp
import MinicOs.Security.X509

/-!
# What the DER reader reads

`asn1_read_tlv` reads the header of an element (`asn1ReadTlv_eq`) and then compares where the value would end with the end
of the container. The sum is an `int`: if it passes `2^31` it is negative, and the test lets the element through.
-/

namespace MinicOs

open List Exec Cells Nat Int

variable {buf : Cells U8} {data : List U8} {total o : Nat}

/-! ## One element -/

theorem readAt_starts (h : buf.Starts data) {i : Nat} (hi : i < data.length) :
    readAt buf (i : Int) = .done (data.get ⟨i, hi⟩) := by
  unfold readAt
  exact h.read (getElem?_eq_getElem hi)

theorem shift_or_byte (v : Nat) (b : U8) :
    (BitVec.ofNat 32 v <<< 8 ||| b.setWidth 32 : U32) = BitVec.ofNat 32 (v * 2 ^ 8 + b.toNat) := by
  refine BitVec.eq_of_toNat_eq ?_
  have hb := b.isLt
  have hshift : (v % 2 ^ 32) <<< 8 % 2 ^ 32 = (v % 2 ^ 24) <<< 8 := by
    omega
  rw [BitVec.toNat_or, BitVec.toNat_shiftLeft, BitVec.toNat_ofNat, hshift, BitVec.toNat_setWidth,
    mod_eq_of_lt (by omega : b.toNat < 2 ^ 32), ← shiftLeft_add_eq_or_of_lt hb, BitVec.toNat_ofNat,
    Nat.shiftLeft_eq]
  omega

theorem asn1LengthBytes_eq (h : buf.Starts data) (ht : total ≤ data.length) (n v : Nat) {pos : Nat} (hpos : pos ≤ total) :
    asn1LengthBytes buf total n pos (BitVec.ofNat 32 v) = if pos + n ≤ total then
        .done (BitVec.ofNat 32 (v * 2 ^ (8 * n) + beValue (bytesAt data pos n)), ((pos + n : Nat) : Int)) else .refused := by
  induction n generalizing pos v with
  | zero =>
    rw [if_pos (by omega), asn1LengthBytes]
    simp [bytesAt, beValue]
  | succ n ih =>
    rw [asn1LengthBytes]
    by_cases hlt : pos < total
    · have hread := readAt_starts h (show pos < data.length by omega)
      rw [if_neg (by omega), hread, done_bind, shift_or_byte, ← cast_succ, ih _ hlt]
      by_cases hn : pos + (n + 1) ≤ total
      · rw [if_pos (by omega), if_pos hn, bytesAt_succ (by omega), beValue_cons,
          length_bytesAt (by omega : pos + 1 + n ≤ data.length)]
        have hvalue : ∀ b x, (v * 2 ^ 8 + b) * 2 ^ (8 * n) + x = v * 2 ^ (8 * (n + 1)) + (b * 2 ^ (8 * n) + x) := by
          intro b x
          ring
        rw [hvalue, show pos + 1 + n = pos + (n + 1) by omega]
      · rw [if_neg (by omega), if_neg hn]
    · rw [if_pos (by omega), if_neg (by omega)]

theorem and_0x80_eq_zero (b : U8) : b &&& 0x80 = 0 ↔ b.toNat < 128 := by
  revert b
  decide +kernel

theorem toNat_and_0x7F (b : U8) : ¬ b.toNat < 128 → (b &&& 0x7F).toNat = b.toNat - 128 := by
  revert b
  decide +kernel

theorem asn1Length_eq (h : buf.Starts data) (ht : total ≤ data.length) (tag first : U8) (ho : o + 2 ≤ total) :
    asn1Length buf total first ((o + 2 : Nat) : Int) =
      match derHeader (tag :: first :: (data.take total).drop (o + 2)) with
      | none => .refused
      | some x => .done (BitVec.ofNat 32 x.length, ((o + x.size : Nat) : Int)) := by
  unfold asn1Length
  rw [derHeader]
  by_cases hshort : first.toNat < 128
  · rw [if_pos ((and_0x80_eq_zero first).mpr hshort), if_pos hshort]
    refine congrArg Exec.done (Prod.ext (BitVec.eq_of_toNat_eq ?_) rfl)
    rw [BitVec.toNat_setWidth, BitVec.toNat_ofNat]
  · rw [if_neg (mt (and_0x80_eq_zero first).mp hshort), if_neg hshort]
    rw [toNat_and_0x7F first hshort]
    generalize first.toNat - 128 = n
    have hrest : ((data.take total).drop (o + 2)).length = total - (o + 2) := by
      rw [length_drop, length_take, min_eq_left ht]
    by_cases hn : n = 0 ∨ n > 4
    · rw [if_pos hn, if_neg (by omega)]
    · have hbytes := asn1LengthBytes_eq h ht n 0 ho
      rw [if_neg hn, hrest, show (0 : U32) = BitVec.ofNat 32 0 from rfl, hbytes]
      by_cases hroom : o + 2 + n ≤ total
      · rw [if_pos hroom, if_pos (by omega), Nat.zero_mul, Nat.zero_add, drop_take, take_take,
          min_eq_left (by omega), add_assoc]
        rfl
      · rw [if_neg hroom, if_neg (by omega)]

/-- **`asn1_read_tlv`**: the header is read from what the container has from `o` on, and then checked. -/
theorem asn1ReadTlv_eq (h : buf.Starts data) (ht : total ≤ data.length) (o : Nat) :
    asn1ReadTlv buf o total =
      match derHeader ((data.take total).drop o) with
      | none => .refused
      | some x => asn1Check total x.tag (BitVec.ofNat 32 x.length) ((o + x.size : Nat) : Int) := by
  unfold asn1ReadTlv
  by_cases h0 : o < total
  · have hread := readAt_starts h (show o < data.length by omega)
    rw [if_neg (by omega), hread, done_bind, drop_eq_getElem_cons (by rw [length_take]; omega)]
    by_cases h1 : o + 1 < total
    · have hread' := readAt_starts h (show o + 1 < data.length by omega)
      rw [cast_succ] at hread'
      rw [if_neg (by omega), hread', done_bind, drop_eq_getElem_cons (by rw [length_take]; omega),
        getElem_take, getElem_take]
      have hlen := asn1Length_eq h ht (data.get ⟨o, by omega⟩) (data.get ⟨o + 1, by omega⟩) (show o + 2 ≤ total by omega)
      simp only [get_eq_getElem] at hlen ⊢
      rw [show (o : Int) + 2 = ((o + 2 : Nat) : Int) from rfl, hlen]
      cases hx : derHeader (data[o] :: data[o + 1] :: (data.take total).drop (o + 2)) with
      | none => rfl
      | some x =>
        obtain ⟨_, _, hcons, -⟩ := derHeader_eq_some hx
        rw [(List.cons.inj hcons).1]
        rfl
    · rw [if_pos (by omega), drop_of_length_le (by rw [length_take]; omega)]
      rfl
  · rw [if_pos (by omega), drop_of_length_le (by rw [length_take]; omega)]
    rfl

theorem i32_natCast {n : Nat} (h : n < 2 ^ 31) : i32 n = n := by
  unfold i32
  rw [bmod_def]
  split <;> omega

/-- **The check of the end**: it lets a value through that ends in the container, or so far behind it that the sum is
negative. -/
theorem asn1Check_eq (tag : U8) {p length : Nat} (ht : total < 2 ^ 31) (hp : p ≤ total) (hlen : length < 2 ^ 32) :
    asn1Check total tag (BitVec.ofNat 32 length) p =
      if length < 2 ^ 31 ∧ (p + length ≤ total ∨ 2 ^ 31 ≤ p + length) then .done ⟨tag, length, p⟩ else .refused := by
  unfold asn1Check
  have htoNat : (BitVec.ofNat 32 length).toNat = length := by
    rw [BitVec.toNat_ofNat, mod_eq_of_lt hlen]
  by_cases hpos : length < 2 ^ 31
  · have hint : (BitVec.ofNat 32 length).toInt = length := by
      rw [BitVec.toInt_eq_toNat_of_lt (by omega), htoNat]
    rw [hint]
    by_cases hwrap : 2 ^ 31 ≤ p + length
    · have hneg : i32 ((p : Int) + length) < 0 := by
        unfold i32
        rw [bmod_def]
        split <;> omega
      rw [if_neg (by omega), if_pos ⟨hpos, Or.inr hwrap⟩]
      rfl
    · rw [← natCast_add, i32_natCast (by omega)]
      by_cases hend : p + length ≤ total
      · rw [if_neg (by omega), if_pos ⟨hpos, Or.inl hend⟩]
        rfl
      · rw [if_pos (by omega), if_neg (by omega)]
  · have hint : (BitVec.ofNat 32 length).toInt < 0 := by
      rw [BitVec.toInt_eq_toNat_cond, htoNat]
      split <;> omega
    rw [if_pos (Or.inl hint), if_neg (by omega)]

/-! ## Containment -/

/-- No length in the buffer ends past `2^31`. -/
def LengthsFit (data : List U8) : Prop :=
  ∀ o < data.length, ∀ x ∈ derHeader (data.drop o), x.length < 2 ^ 31 → o + x.size + x.length < 2 ^ 31

instance (data : List U8) : Decidable (LengthsFit data) := by
  unfold LengthsFit
  infer_instance

/-- The value lies in the container. -/
def Tlv.Inside (total : Nat) (t : Tlv) : Prop :=
  ∃ (tag : U8) (value len : Nat), t = ⟨tag, len, value⟩ ∧ value + len ≤ total

theorem i32_end {value len : Nat} (hle : value + len ≤ total) (ht : total < 2 ^ 31) :
    i32 ((value : Int) + len) = ((value + len : Nat) : Int) := by
  rw [← natCast_add, i32_natCast (by omega)]

theorem stripSign_sound (h : buf.Starts data) (ht : total ≤ data.length) {t : Tlv} (hin : t.Inside total) :
    (stripSign buf t).Sound fun r => ∃ bytes len : Nat, r = (↑bytes, ↑len) ∧ bytes + len ≤ total := by
  obtain ⟨tag, value, len, rfl, hle⟩ := hin
  unfold stripSign
  split
  · rename_i hlong
    dsimp only at hlong ⊢
    rw [readAt_starts h (show value < data.length by omega), done_bind]
    split
    · refine .done ⟨value + 1, len - 1, Prod.ext ?_ ?_, by omega⟩
      · rw [natCast_succ]
      · rw [Nat.cast_sub (by omega)]
        rfl
    · exact .done ⟨value, len, rfl, hle⟩
  · exact .done ⟨value, len, rfl, hle⟩

theorem pointerAt_starts (h : buf.Starts data) (i : Nat) : (pointerAt buf (i : Int)).Starts (data.drop i) := by
  unfold pointerAt
  exact h.drop i

theorem readU32Loop_eq {bytes : Cells U8} {xs : List U8} (h : bytes.Starts xs) :
    readU32Loop bytes xs.length = .done (BitVec.ofNat 32 (beValue xs)) := by
  have hcount := @Exec.count_eq U32 (fun i value => do
    let b ← bytes.read i
    return value <<< 8 ||| b.setWidth 32) (fun i => BitVec.ofNat 32 (beValue (xs.take i))) xs.length fun i hi => by
      rw [h.read (getElem?_eq_getElem hi), done_bind, shift_or_byte, take_add_one, getElem?_eq_getElem hi, beValue_append]
      simp [beValue]
  rwa [take_length] at hcount

/-- What both readers of an INTEGER do: unless its length is `bad`, the magnitude goes to `read`. -/
def readMagnitude {β : Type} (bad : Int → Prop) [DecidablePred bad] (read : Cells U8 → Nat → Exec β)
    (data : Cells U8) (offset totalLen : Int) : Exec β := do
  let t ← asn1Expect asn1TagInteger data offset totalLen
  let (bytes, len) ← stripSign data t
  if bad len then .refused else read (pointerAt data bytes) len.toNat

/-- A reader that takes magnitudes of 512 bytes at most, and makes `val` of their number. -/
structure MagnitudeReader {β : Type} (bad : Int → Prop) (read : Cells U8 → Nat → Exec β) (val : Nat → β) : Prop where
  le : ∀ len, ¬ bad len → len ≤ 512
  eq : ∀ {c : Cells U8} {xs : List U8}, c.Starts xs → ¬ bad xs.length → read c xs.length = .done (val (beValue xs))

theorem bignum_reader {out : Limbs} (hout : out.length = bignumLimbs) :
    MagnitudeReader (· > ((bignumLimbs * 4 : Nat) : Int)) (bignumFromBytesBe out) bignumOf where
  le len hlen := by
    rw [show bignumLimbs * 4 = 512 from rfl] at hlen
    omega
  eq {c xs} hc hxs := by
    obtain ⟨m, hm, hval⟩ := returns_iff.mp (bignumFromBytesBe_returns hc (by omega) hout)
    rw [hm, hval.eq]
    rfl

theorem u32_reader : MagnitudeReader (fun len => len ≤ 0 ∨ len > 4) readU32Loop (BitVec.ofNat 32) where
  le len hlen := by omega
  eq hc _ := readU32Loop_eq hc

variable {β : Type} {bad : Int → Prop} {read : Cells U8 → Nat → Exec β} {val : Nat → β}

theorem MagnitudeReader.at (hr : MagnitudeReader bad read val) (h : buf.Starts data) {bytes len : Nat}
    (hle : bytes + len ≤ data.length) (hlen : ¬ bad len) :
    read (pointerAt buf bytes) len = .done (val (beValue ((data.drop bytes).take len))) := by
  have hcount : ((data.drop bytes).take len).length = len := by
    rw [length_take, length_drop]
    omega
  have heq := hr.eq ((pointerAt_starts h bytes).take len)
  rw [hcount] at heq
  exact heq hlen

section Contained

variable {out : Limbs} (h : buf.Starts data) (hlen : data.length < 2 ^ 31) (hfit : LengthsFit data)
  (ht : total ≤ data.length)

include h hlen hfit ht

/-- **An element that is reported lies in its container.** -/
theorem asn1ReadTlv_sound (o : Nat) : (asn1ReadTlv buf o total).Sound (Tlv.Inside total) := by
  rw [asn1ReadTlv_eq h ht]
  cases hx : derHeader ((data.take total).drop o) with
  | none => exact .refused
  | some x =>
    obtain ⟨hpos, hsize⟩ := DerHeader.size_bounds hx
    rw [length_drop, length_take] at hsize
    have hwhole : derHeader (data.drop o) = some x := by
      have happ := derHeader_append hx (data.drop total)
      rwa [← drop_append_of_le_length (by rw [length_take]; omega), take_append_drop] at happ
    dsimp only
    rw [asn1Check_eq _ (by omega) (by omega) (DerHeader.length_lt hx)]
    split
    · rename_i hcheck
      have hend := hfit o (by omega) x hwhole hcheck.1
      exact .done ⟨_, _, _, rfl, by omega⟩
    · exact .refused

theorem asn1Expect_sound (expected : U8) (o : Nat) : (asn1Expect expected buf o total).Sound (Tlv.Inside total) := by
  refine (asn1ReadTlv_sound h hlen hfit ht o).bind fun t hin => ?_
  split
  · exact .refused
  · exact .done hin

theorem readMagnitude_sound [DecidablePred bad] (hr : MagnitudeReader bad read val) (o : Nat) :
    (readMagnitude bad read buf o total).Sound fun _ => True := by
  refine (asn1Expect_sound h hlen hfit ht _ o).bind fun t hin => ?_
  refine (stripSign_sound h ht hin).bind ?_
  rintro _ ⟨bytes, len, rfl, hle⟩
  refine .guard fun hsmall => ?_
  rw [toNat_natCast, hr.at h (by omega) hsmall]
  exact .done trivial

theorem skipVersion_sound (o : Nat) : (skipVersion buf o total).Sound (Tlv.Inside total) := by
  refine (asn1ReadTlv_sound h hlen hfit ht o).bind fun t hin => ?_
  split
  · obtain ⟨tag, value, len, rfl, hle⟩ := hin
    rw [i32_end hle (by omega)]
    exact asn1ReadTlv_sound h hlen hfit ht _
  · exact .done hin

theorem skipFields_sound (n cursor : Nat) : (skipFields buf total n cursor).Sound fun c : Int => ∃ c' : Nat, c = c' := by
  induction n generalizing cursor with
  | zero => exact .done ⟨cursor, rfl⟩
  | succ n ih =>
    refine (asn1ReadTlv_sound h hlen hfit ht cursor).bind ?_
    rintro _ ⟨tag, value, len, rfl, hle⟩
    rw [i32_end hle (by omega)]
    exact ih _

theorem readRsaKey_sound {t : Tlv} (hin : t.Inside total) (hout : out.length = bignumLimbs) :
    (readRsaKey buf t out).Sound fun _ => True := by
  obtain ⟨tag, value, len, rfl, hle⟩ := hin
  unfold readRsaKey
  dsimp only
  split
  · exact .refused
  · rename_i hpos
    rw [show (value : Int) + 1 = ((value + 1 : Nat) : Int) from rfl, i32_natCast (by omega),
      show (len : Int) - 1 = ((len - 1 : Nat) : Int) by omega, i32_end (show value + 1 + (len - 1) ≤ total by omega) (by omega)]
    refine (asn1Expect_sound h hlen hfit (by omega) _ _).bind ?_
    rintro _ ⟨keyTag, keyValue, keyLen, rfl, hkey⟩
    rw [i32_end hkey (by omega)]
    refine (readMagnitude_sound h hlen hfit (by omega) (bignum_reader hout) _).bind fun modulus _ => ?_
    refine (asn1ReadTlv_sound h hlen hfit (by omega) _).bind ?_
    rintro _ ⟨mTag, mValue, mLen, rfl, hm⟩
    rw [i32_end hm (by omega)]
    exact (readMagnitude_sound h hlen hfit (by omega) u32_reader _).bind fun _ _ => .done trivial

omit ht in
/-- **No byte outside the certificate is read.** -/
theorem x509ExtractRsaPubkey_sound (hout : out.length = bignumLimbs) :
    (x509ExtractRsaPubkey buf data.length out).Sound fun _ => True := by
  refine (asn1Expect_sound h hlen hfit (le_refl _) _ 0).bind ?_
  rintro _ ⟨certTag, cert, certLen, rfl, hcert⟩
  refine (asn1Expect_sound h hlen hfit (le_refl _) _ _).bind ?_
  rintro _ ⟨tbsTag, tbs, tbsLen, rfl, htbs⟩
  rw [i32_end htbs hlen]
  refine (skipVersion_sound h hlen hfit htbs _).bind ?_
  rintro _ ⟨serialTag, serial, serialLen, rfl, hserial⟩
  rw [i32_end hserial (by omega)]
  refine (skipFields_sound h hlen hfit htbs 4 _).bind ?_
  rintro _ ⟨cursor, rfl⟩
  refine (asn1Expect_sound h hlen hfit htbs _ _).bind ?_
  rintro _ ⟨spkiTag, spki, spkiLen, rfl, hspki⟩
  rw [i32_end hspki (by omega)]
  refine (asn1ReadTlv_sound h hlen hfit (by omega) _).bind ?_
  rintro _ ⟨algTag, alg, algLen, rfl, halg⟩
  rw [i32_end halg (by omega)]
  refine (asn1Expect_sound h hlen hfit (by omega) _ _).bind fun key hkey => ?_
  exact readRsaKey_sound h hlen hfit (by omega) hkey hout

end Contained

/-- **Containment in the certificate**: what `asn1_read_tlv` reports lies in the container and no byte outside the buffer
is read, exactly for the buffers in which no length ends past `2^31`. -/
theorem x509_inside_iff (data : List U8) (hlen : data.length < 2 ^ 31) :
    ((∀ (offset totalLen : Int) (t : Tlv), totalLen ≤ data.length → asn1ReadTlv (ofList data) offset totalLen = .done t →
        0 ≤ t.valueOffset ∧ 0 ≤ t.len ∧ t.valueOffset + t.len ≤ totalLen) ∧
      ∀ modulusOut : Limbs, modulusOut.length = bignumLimbs →
        x509ExtractRsaPubkey (ofList data) data.length modulusOut ≠ .undefined) ↔ LengthsFit data := by
  constructor
  · rintro ⟨hinside, -⟩ o ho x hx hpos
    by_contra hpast
    obtain ⟨-, hsize⟩ := DerHeader.size_bounds hx
    rw [length_drop] at hsize
    -- the element is let through, with the whole buffer as its container
    have hdone : asn1ReadTlv (ofList data) o data.length = .done ⟨x.tag, x.length, ((o + x.size : Nat) : Int)⟩ := by
      rw [asn1ReadTlv_eq (starts_ofList data) (le_refl _), take_length, hx]
      dsimp only
      rw [asn1Check_eq _ hlen (by omega) (DerHeader.length_lt hx), if_pos ⟨hpos, Or.inr (by omega)⟩]
    have hend := (hinside o data.length _ (le_refl _) hdone).2.2
    dsimp only at hend
    omega
  · intro hfit
    refine ⟨fun offset totalLen t htotal hdone => ?_, fun out hout => ?_⟩
    · have hbounds : 0 ≤ offset ∧ offset < totalLen := by
        unfold asn1ReadTlv at hdone
        split at hdone
        · simp at hdone
        · omega
      obtain ⟨o, rfl⟩ := eq_ofNat_of_zero_le hbounds.1
      obtain ⟨total, rfl⟩ := eq_ofNat_of_zero_le (show 0 ≤ totalLen by omega)
      obtain ⟨tag, value, len, rfl, hle⟩ := (asn1ReadTlv_sound (starts_ofList data) hlen hfit (by omega) o).of_done hdone
      exact ⟨natCast_nonneg _, natCast_nonneg _, by dsimp only; omega⟩
    · exact (x509ExtractRsaPubkey_sound (starts_ofList data) hlen hfit hout).ne_undefined

/-- A certificate with the modulus 197, the exponent 65537, a version, extensions, and lengths in all three forms. -/
def smallCertificate : List U8 :=
  [0x30, 0x82, 0x00, 0x2C, 0x30, 0x81, 0x24, 0xA0, 0x03, 0x02, 0x01, 0x02, 0x02, 0x01, 0x07, 0x30, 0x00, 0x30, 0x00,
    0x30, 0x00, 0x30, 0x00, 0x30, 0x10, 0x30, 0x00, 0x03, 0x0C, 0x00, 0x30, 0x09, 0x02, 0x02, 0x00, 0xC5, 0x02, 0x03,
    0x01, 0x00, 0x01, 0xA3, 0x00, 0x30, 0x00, 0x03, 0x01, 0x00]

theorem x509_inside_iff_small : LengthsFit smallCertificate ∧
    x509ExtractRsaPubkey (ofList smallCertificate) smallCertificate.length (unset bignumLimbs) ≠ .undefined := by
  have hfit : LengthsFit smallCertificate := by decide +kernel
  exact ⟨hfit, ((x509_inside_iff smallCertificate (by decide)).mpr hfit).2 _ (length_unset _)⟩

/-- **A length that makes the sum negative**: the element is reported although its value would end far behind the
container, and the first byte of the value, one past the end of the certificate, is read. -/
theorem x509_reads_outside : asn1ReadTlv (ofList [0x30, 0x84, 0x7F, 0xFF, 0xFF, 0xFF]) 0 6 = .done ⟨0x30, 2 ^ 31 - 1, 6⟩ ∧
      x509ExtractRsaPubkey (ofList [0x30, 0x1C, 0x30, 0x1A, 0x02, 0x01, 0x01, 0x30, 0x00, 0x30, 0x00, 0x30, 0x00,
        0x30, 0x00, 0x30, 0x0D, 0x30, 0x00, 0x03, 0x09, 0x00, 0x30, 0x06, 0x02, 0x84, 0x7F, 0xFF, 0xFF, 0xFF]) 30
        (unset bignumLimbs) = .undefined :=
  ⟨by decide +kernel, by decide +kernel⟩

end MinicOs
