import MinicOs.Security.X509Reads

/-!
# The key of a certificate

A certificate is nested elements: the certificate, its `tbsCertificate`, the fields of that one after the other, and inside
`subjectPublicKeyInfo` a BIT STRING with the RSA key. `Span` says what bytes a container has from an offset on; an element
at its start is read with its value and its rest (`Span.element`), and the descent of `x509_extract_rsa_pubkey` goes from
span to span.
-/

namespace MinicOs

open List Exec Cells Nat

/-! ## Certificates -/

/-- One element, of any tag. -/
def SomeElement (bytes : List U8) : Prop := ∃ tag value, DerElement tag value bytes

/-- `RSAPublicKey ::= SEQUENCE { modulus INTEGER, publicExponent INTEGER }`. -/
def RsaPublicKey (n e : Nat) (bytes : List U8) : Prop :=
  ∃ modulus modulusBytes exponent exponentBytes, DerInteger n modulus ∧ DerInteger e exponent ∧
    DerElement asn1TagInteger modulus modulusBytes ∧ DerElement asn1TagInteger exponent exponentBytes ∧
    DerElement asn1TagSequence (modulusBytes ++ exponentBytes) bytes

/-- `SubjectPublicKeyInfo ::= SEQUENCE { algorithm, subjectPublicKey BIT STRING }`, with no unused bits. -/
def SubjectPublicKeyInfo (n e : Nat) (bytes : List U8) : Prop :=
  ∃ algorithm key keyBits, SomeElement algorithm ∧ RsaPublicKey n e key ∧
    DerElement asn1TagBitString (0x00 :: key) keyBits ∧ DerElement asn1TagSequence (algorithm ++ keyBits) bytes

/-- `TBSCertificate`: an optional version, the serial number, the signature algorithm, issuer, validity, subject and
`subjectPublicKeyInfo`; unique identifiers and extensions may follow. -/
def TbsCertificate (n e : Nat) (bytes : List U8) : Prop :=
  ∃ version serial serialBytes signature issuer validity subject spki trailing,
    (version = [] ∨ ∃ value, DerElement asn1TagContext0Constructed value version) ∧
    DerElement asn1TagInteger serial serialBytes ∧ SomeElement signature ∧ SomeElement issuer ∧ SomeElement validity ∧
    SomeElement subject ∧ SubjectPublicKeyInfo n e spki ∧
    DerElement asn1TagSequence
      (version ++ (serialBytes ++ (signature ++ (issuer ++ (validity ++ (subject ++ (spki ++ trailing))))))) bytes

/-- `Certificate ::= SEQUENCE { tbsCertificate, signatureAlgorithm, signatureValue }`. -/
def Certificate (n e : Nat) (bytes : List U8) : Prop :=
  ∃ tbs signature, TbsCertificate n e tbs ∧ DerElement asn1TagSequence (tbs ++ signature) bytes

/-! ## Spans -/

/-- The container that ends at `total` has the bytes `l` from `o` on. -/
structure Span (data : List U8) (o total : Nat) (l : List U8) : Prop where
  start : o ≤ total
  stop : total ≤ data.length
  eq : (data.take total).drop o = l

variable {buf : Cells U8} {data value bytes rest l : List U8} {total o p : Nat} {tag : U8}

theorem Span.length (h : Span data o total l) : o + l.length = total := by
  have := h.start
  have := h.stop
  rw [← h.eq, length_drop, length_take]
  omega

theorem Span.whole (data : List U8) : Span data 0 data.length data :=
  ⟨zero_le _, le_refl _, by rw [take_length, drop_zero]⟩

theorem Span.skip (h : Span data o total (bytes ++ rest)) : Span data (o + bytes.length) total rest := by
  have hlen := h.length
  rw [length_append] at hlen
  exact ⟨by omega, h.stop, by rw [← drop_drop, h.eq, drop_left]⟩

theorem Span.first (h : Span data o total (bytes ++ rest)) : Span data o (o + bytes.length) bytes := by
  have hlen := h.length
  have hstop := h.stop
  rw [length_append] at hlen
  refine ⟨by omega, by omega, ?_⟩
  have htake : ((data.take total).drop o).take bytes.length = bytes := by rw [h.eq, take_left]
  rw [drop_take, take_take, min_eq_left (by omega)] at htake
  rw [drop_take, Nat.add_sub_cancel_left, htake]

theorem Span.last (h : Span data o total l) : Span data o total (l ++ []) := by rwa [append_nil]

section Descent

variable (hbuf : buf.Starts data) (hlen : data.length < 2 ^ 31)

include hbuf hlen

/-- **An element at the start of a span is read**: its value is a span, and so is what is behind it. -/
theorem Span.element (h : Span data o total (bytes ++ rest)) (he : DerElement tag value bytes) :
    ∃ p : Nat, asn1ReadTlv buf o total = .done ⟨tag, value.length, p⟩ ∧ Span data p (p + value.length) value ∧
      Span data (p + value.length) total rest := by
  obtain ⟨x, hx, rfl, hlength, hdrop, hsize⟩ := he.header
  have hend := h.length
  have hstop := h.stop
  have hsplit : bytes = bytes.take x.size ++ value := by rw [← hdrop, take_append_drop]
  have hfirst : (bytes.take x.size).length = x.size := by
    rw [length_take]
    omega
  rw [length_append] at hend
  refine ⟨o + x.size, ?_, ?_, ?_⟩
  · rw [asn1ReadTlv_eq hbuf h.stop, h.eq, hx rest]
    dsimp only
    rw [hlength, asn1Check_eq _ (by omega) (by omega) (by omega), if_pos ⟨by omega, Or.inl (by omega)⟩]
  · have hspan : Span data o (o + x.size + value.length) (bytes.take x.size ++ value) := by
      rw [← hsplit, add_assoc, hsize]
      exact h.first
    have hvalue := hspan.skip
    rwa [hfirst] at hvalue
  · have hskip := h.skip
    rwa [← hsize, ← add_assoc] at hskip

theorem Span.expect (h : Span data o total (bytes ++ rest)) (he : DerElement tag value bytes) :
    ∃ p : Nat, asn1Expect tag buf o total = .done ⟨tag, value.length, p⟩ ∧ Span data p (p + value.length) value ∧
      Span data (p + value.length) total rest := by
  obtain ⟨p, hread, hvalue, hrest⟩ := h.element hbuf hlen he
  refine ⟨p, ?_, hvalue, hrest⟩
  unfold asn1Expect
  rw [hread, done_bind, if_neg (not_not_intro rfl)]
  rfl

omit hlen in
theorem Span.stripSign (h : Span data p (p + value.length) value) (hne : value ≠ []) (tag : U8) :
    ∃ b : Nat, stripSign buf ⟨tag, value.length, p⟩ = .done (↑b, ↑(derMagnitude value).length) ∧
      (pointerAt buf b).Starts (derMagnitude value) := by
  have hstop := h.stop
  have hdata : (data.drop p).take value.length = value := by
    have heq := h.eq
    rwa [drop_take, Nat.add_sub_cancel_left] at heq
  have hstarts : ∀ i, (pointerAt buf ((p + i : Nat) : Int)).Starts (value.drop i) := by
    intro i
    have hpointer := (pointerAt_starts hbuf (p + i)).take (value.length - i)
    rwa [← drop_drop, ← drop_take, hdata] at hpointer
  unfold MinicOs.stripSign
  match value, hne with
  | [b], _ => exact ⟨p, rfl, hstarts 0⟩
  | b :: b' :: rest, _ =>
    have hfirst : data[p]? = some b := by
      have hget := congrArg (·[0]?) hdata
      simpa using hget
    obtain ⟨hlt, hb⟩ := List.getElem?_eq_some_iff.mp hfirst
    rw [if_pos (by simp), readAt_starts hbuf hlt, done_bind, get_eq_getElem, hb, derMagnitude]
    split
    · refine ⟨p + 1, congrArg Exec.done (Prod.ext rfl ?_), hstarts 1⟩
      simp
    · exact ⟨p, rfl, hstarts 0⟩

variable {n e : Nat} {out : Limbs}

theorem Span.readMagnitude {β : Type} {bad : Int → Prop} [DecidablePred bad] {read : Cells U8 → Nat → Exec β}
    {val : Nat → β} (hr : MagnitudeReader bad read val) (h : Span data o total (bytes ++ rest))
    (he : DerElement asn1TagInteger value bytes) (hn : DerInteger n value) (hsmall : ¬ bad (derMagnitude value).length) :
    readMagnitude bad read buf o total = .done (val n) := by
  obtain ⟨p, hread, hvalue, -⟩ := h.expect hbuf hlen he
  obtain ⟨b, hstrip, hstarts⟩ := hvalue.stripSign hbuf hn.nonempty asn1TagInteger
  unfold MinicOs.readMagnitude
  rw [hread, done_bind, hstrip, done_bind]
  dsimp only
  rw [if_neg hsmall, Int.toNat_natCast, hr.eq hstarts hsmall, beValue_derMagnitude, hn.value_eq]

/-! ## The descent -/

theorem Span.skipVersion {version : List U8} {serial : List U8} (h : Span data o total (version ++ (bytes ++ rest)))
    (hversion : version = [] ∨ ∃ value, DerElement asn1TagContext0Constructed value version)
    (he : DerElement asn1TagInteger serial bytes) :
    ∃ p : Nat, skipVersion buf o total = .done ⟨asn1TagInteger, serial.length, p⟩ ∧
      Span data (p + serial.length) total rest := by
  unfold MinicOs.skipVersion
  rcases hversion with rfl | ⟨value, hversion⟩
  · rw [nil_append] at h
    obtain ⟨p, hread, -, hrest⟩ := h.element hbuf hlen he
    rw [hread, done_bind, if_neg (show asn1TagInteger ≠ asn1TagContext0Constructed by decide)]
    exact ⟨p, rfl, hrest⟩
  · obtain ⟨q, hread, -, hnext⟩ := h.element hbuf hlen hversion
    obtain ⟨p, hread', -, hrest⟩ := hnext.element hbuf hlen he
    have hstop := hnext.start.trans hnext.stop
    rw [hread, done_bind, if_pos rfl, i32_end (le_refl _) (by omega), hread']
    exact ⟨p, rfl, hrest⟩

theorem Span.skipField (h : Span data o total (bytes ++ rest)) (he : SomeElement bytes) (k : Nat) :
    ∃ q : Nat, skipFields buf total (k + 1) o = skipFields buf total k q ∧ Span data q total rest := by
  obtain ⟨tag, value, he⟩ := he
  obtain ⟨p, hread, -, hrest⟩ := h.element hbuf hlen he
  have hstop := hrest.start.trans hrest.stop
  refine ⟨p + value.length, ?_, hrest⟩
  rw [skipFields, hread, done_bind, i32_end (le_refl _) (by omega)]

theorem Span.readRsaKey {key : List U8} (h : Span data p (p + (0x00 :: key).length) (0x00 :: key))
    (hkey : RsaPublicKey n e key) (hn : n < 2 ^ 4096) (he : e < 2 ^ 32) (hout : out.length = bignumLimbs) :
    readRsaKey buf ⟨asn1TagBitString, (0x00 :: key).length, p⟩ out = .done (bignumOf n, BitVec.ofNat 32 e) := by
  obtain ⟨modulus, modulusBytes, exponent, exponentBytes, hmodulus, hexponent, hmBytes, heBytes, hseq⟩ := hkey
  have hstop := h.stop
  rw [length_cons] at hstop h ⊢
  have hinner : Span data (p + 1) (p + 1 + key.length) key := by
    rw [show p + 1 + key.length = p + (key.length + 1) by omega]
    exact @Span.skip data [0x00] key _ p h
  obtain ⟨q, hread, hfields, -⟩ := hinner.last.expect hbuf hlen hseq
  obtain ⟨-, hcount⟩ := hmodulus.length_magnitude ((show 4096 = 8 * 512 from rfl) ▸ hn) (by decide)
  have hbignum : readIntegerBignum buf _ _ out = _ :=
    hfields.readMagnitude hbuf hlen (bignum_reader hout) hmBytes hmodulus (by unfold bignumLimbs; omega)
  obtain ⟨r, hread', -, hrest⟩ := hfields.element hbuf hlen hmBytes
  obtain ⟨hpos, hcount'⟩ := hexponent.length_magnitude (show e < 2 ^ (8 * 4) from he) (by decide)
  have hu32 : readIntegerU32 buf _ _ = _ := hrest.last.readMagnitude hbuf hlen u32_reader heBytes hexponent (by omega)
  have hend := hfields.stop
  have hstop' := hrest.start
  unfold MinicOs.readRsaKey
  dsimp only
  rw [if_neg (by omega), show (p : Int) + 1 = ((p + 1 : Nat) : Int) from rfl, i32_natCast (by omega),
    show ((key.length + 1 : Nat) : Int) - 1 = (key.length : Int) by omega,
    i32_end (le_refl (p + 1 + key.length)) (by omega), hread, done_bind]
  dsimp only
  rw [i32_end (le_refl _) (by omega), hbignum, done_bind, hread', done_bind]
  dsimp only
  rw [i32_end (le_refl _) (by omega), hu32]
  rfl

end Descent

/-- The key of a certificate at the start of a buffer. -/
theorem Certificate.extract {n e : Nat} {cert : List U8} (hcert : Certificate n e cert) (hbuf : buf.Starts cert)
    (hlen : cert.length < 2 ^ 31) (hn : n < 2 ^ 4096) (he : e < 2 ^ 32) {modulusOut : Limbs}
    (hout : modulusOut.length = bignumLimbs) :
    x509ExtractRsaPubkey buf cert.length modulusOut = .done (bignumOf n, BitVec.ofNat 32 e) := by
  obtain ⟨tbs, signatureValue, htbs, hseq⟩ := hcert
  obtain ⟨version, serial, serialBytes, signature, issuer, validity, subject, spki, trailing, hversion, hserial, hsignature,
    hissuer, hvalidity, hsubject, hspki, htbsSeq⟩ := htbs
  obtain ⟨algorithm, key, keyBits, ⟨algTag, algValue, halgorithm⟩, hkey, hbits, hspkiSeq⟩ := hspki
  -- the certificate and its first child, both in the whole buffer
  obtain ⟨p, hcertRead, hcertSpan, hcertEnd⟩ := (Span.whole cert).last.expect hbuf hlen hseq
  rw [show p + (tbs ++ signatureValue).length = cert.length by have := hcertEnd.length; simpa using this] at hcertSpan
  obtain ⟨q, htbsRead, htbsSpan, -⟩ := hcertSpan.expect hbuf hlen htbsSeq
  have htbsStop := htbsSpan.stop
  -- the fields before the key
  obtain ⟨r, hserialRead, hafterSerial⟩ := htbsSpan.skipVersion hbuf hlen hversion hserial
  obtain ⟨c1, hskip1, hspan1⟩ := hafterSerial.skipField hbuf hlen hsignature 3
  obtain ⟨c2, hskip2, hspan2⟩ := hspan1.skipField hbuf hlen hissuer 2
  obtain ⟨c3, hskip3, hspan3⟩ := hspan2.skipField hbuf hlen hvalidity 1
  obtain ⟨c4, hskip4, hspan4⟩ := hspan3.skipField hbuf hlen hsubject 0
  -- `subjectPublicKeyInfo`
  obtain ⟨k, hspkiRead, hspkiSpan, -⟩ := hspan4.expect hbuf hlen hspkiSeq
  obtain ⟨a, halgRead, -, hbitsSpan⟩ := hspkiSpan.element hbuf hlen halgorithm
  obtain ⟨b, hbitsRead, hkeySpan, -⟩ := hbitsSpan.last.expect hbuf hlen hbits
  have hkeyRead := hkeySpan.readRsaKey hbuf hlen hkey hn he hout
  have hserialStop := hafterSerial.start
  have hspkiStop := hspkiSpan.stop
  have halgStop := hbitsSpan.start
  unfold x509ExtractRsaPubkey
  rw [show (0 : Int) = ((0 : Nat) : Int) from rfl, hcertRead, done_bind, htbsRead, done_bind]
  dsimp only
  rw [i32_end (le_refl _) (by omega), hserialRead, done_bind]
  rw [i32_end (le_refl _) (by omega), hskip1, hskip2, hskip3, hskip4, skipFields, pure_eq, done_bind, hspkiRead,
    done_bind]
  rw [i32_end (le_refl _) (by omega), halgRead, done_bind]
  rw [i32_end (le_refl _) (by omega), hbitsRead, done_bind, hkeyRead]

/-- **The key of a certificate is extracted**, with the modulus and the exponent it has. -/
theorem x509ExtractRsaPubkey_eq (n e : Nat) (cert : List U8) (hcert : Certificate n e cert) (hlen : cert.length < 2 ^ 31)
    (hn : n < 2 ^ 4096) (he : e < 2 ^ 32) (modulusOut : Limbs) (hout : modulusOut.length = bignumLimbs) :
    x509ExtractRsaPubkey (ofList cert) cert.length modulusOut = .done (bignumOf n, BitVec.ofNat 32 e) :=
  hcert.extract (starts_ofList cert) hlen hn he hout

theorem smallCertificate_ok : Certificate 197 65537 smallCertificate := by
  have hmodulus : DerInteger 197 [0x00, 0xC5] := by
    refine ⟨by decide, by decide, by decide, fun b rest h => ?_⟩
    obtain ⟨-, h⟩ := cons.inj h
    rw [← (cons.inj h).1]
    decide
  have hexponent : DerInteger 65537 [0x01, 0x00, 0x01] :=
    ⟨by decide, by decide, by decide, fun b rest h => absurd (cons.inj h).1 (by decide)⟩
  have hempty : SomeElement [0x30, 0x00] := ⟨0x30, [], .short (by decide)⟩
  have hkey : RsaPublicKey 197 65537 _ :=
    ⟨_, _, _, _, hmodulus, hexponent, .short (by decide), .short (by decide), .short (by decide)⟩
  have hspki : SubjectPublicKeyInfo 197 65537 _ := ⟨_, _, _, hempty, hkey, .short (by decide), .short (by decide)⟩
  have htbs : TbsCertificate 197 65537 _ :=
    ⟨_, [0x07], _, _, _, _, _, _, [0xA3, 0x00], Or.inr ⟨[0x02, 0x01, 0x02], .short (by decide)⟩, .short (by decide),
      hempty, hempty, hempty, hempty, hspki, .long 1 (by decide) (by decide) (by decide)⟩
  exact ⟨_, [0x30, 0x00, 0x03, 0x01, 0x00], htbs, .long 2 (by decide) (by decide) (by decide)⟩

theorem x509ExtractRsaPubkey_small :
    x509ExtractRsaPubkey (ofList smallCertificate) smallCertificate.length (unset bignumLimbs) =
      .done (bignumOf 197, BitVec.ofNat 32 65537) := by
  have hsmall : ∀ n x, x < n → x < 2 ^ n := fun _ _ hx => hx.trans Nat.lt_two_pow_self
  exact x509ExtractRsaPubkey_eq 197 65537 smallCertificate smallCertificate_ok (by decide) (hsmall 4096 197 (by decide))
    (by decide) _ (length_unset _)

end MinicOs
