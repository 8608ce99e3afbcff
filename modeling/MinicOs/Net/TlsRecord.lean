import MinicOs.Net.Stream
import MinicOs.Net.Tls
import MinicOs.Security.AesCbc

/-!
# Records

A record is protected by a MAC over its sequence number, type, version, length and content (`recordMac`), padding, and
AES-CBC with an IV that is sent along (`sealRecord`). `send_encrypted_record` hands over exactly that
(`sendEncryptedRecord_eq`), and `receive_encrypted_record` accepts exactly what decrypts to a padded content with its MAC
(`openRecord_eq`). A content of more than 1200 bytes does not fit the buffer of the MAC (`openRecord_undefined`).
-/

namespace MinicOs

open List Exec Cells Nat Prod

/-- Bytes that go behind those of a buffer, read back as one list. -/
theorem append_contents {src : Cells U8} {p : Nat} {xs : List U8} (n : Nat) (zs : List U8)
    (hsrc : ∀ i (hi : i < xs.length), src.read (p + i) = .done (xs.get ⟨i, hi⟩)) (hroom : zs.length + xs.length ≤ n) :
    ∃ dst, copyCells src p ((unset n).fill zs) zs.length xs.length = .done dst ∧ dst.Starts (zs ++ xs) ∧
      contents (dst.take (zs.length + xs.length)) = .done (zs ++ xs) := by
  obtain ⟨dst, hcopy, hstarts, -⟩ := copyCells_eq hsrc (starts_fill (unset n) zs)
    (by rw [length_fill (by rw [length_unset]; omega), length_unset]; exact hroom)
  have hcontents := contents_take hstarts
  rw [length_append] at hcontents
  exact ⟨dst, hcopy, hstarts, hcontents⟩

theorem Cells.Starts.read_zero_add {src : Cells U8} {xs : List U8} (h : src.Starts xs) (i : Nat) (hi : i < xs.length) :
    src.read (0 + i) = .done (xs.get ⟨i, hi⟩) := by
  rw [Nat.zero_add]
  exact h.read (getElem?_eq_getElem hi)

theorem copyCells_unset {n : Nat} {xs : List U8} (h : xs.length ≤ n) :
    ∃ dst, copyCells (ofList xs) 0 (unset n) 0 xs.length = .done dst ∧ dst.Starts xs ∧ dst.length = n := by
  obtain ⟨dst, hcopy, hstarts, hlen⟩ := @copyCells_eq (ofList xs) (unset n) xs [] 0
    (starts_ofList xs).read_zero_add nil_prefix (by rw [length_unset, length_nil]; omega)
  exact ⟨dst, hcopy, hstarts, hlen.trans (length_unset n)⟩

theorem beBytes_two (len : Nat) : beBytes 2 len = [BitVec.ofNat 8 (len >>> 8), BitVec.ofNat 8 (len &&& 0xFF)] := by
  have hlow : BitVec.ofNat 8 (len % 2 ^ 8) = BitVec.ofNat 8 len := BitVec.eq_of_toNat_eq (by simp)
  rw [and_two_pow_sub_one_eq_mod len 8, hlow, shiftRight_eq_div_pow]
  show [BitVec.ofNat 8 (len / 2 ^ 8), BitVec.ofNat 8 (len / 2 ^ 0)] = _
  rw [Nat.pow_zero, Nat.div_one]

theorem recordHeader_eq (contentType : U8) (len : Nat) :
    recordHeader contentType len = [contentType, 0x03, 0x03] ++ beBytes 2 len := by
  rw [beBytes_two]
  rfl

theorem handshakeMessage_eq (msgType : U8) {body : List U8} (hlen : body.length < 2 ^ 16) :
    handshakeMessage msgType body = [msgType, 0] ++ beBytes 2 body.length ++ body := by
  rw [beBytes_two]
  unfold handshakeMessage
  rw [shiftRight_eq_div_pow body.length 16, div_eq_of_lt hlen]
  rfl

/-- **What is handed to TCP.** -/
theorem tlsSendRecord_eq (conn : TlsConn) (contentType : U8) {data : List U8} (hlen : data.length ≤ tlsMaxRecordLen + 96) :
    tlsSendRecord conn contentType data = .done ((conn.tcp.send (recordHeader contentType data.length ++ data)).1,
        { conn with tcp := (conn.tcp.send (recordHeader contentType data.length ++ data)).2 }) := by
  have hheader : (recordHeader contentType data.length).length = 5 := rfl
  obtain ⟨record, hcopy, -, hcontents⟩ := append_contents tlsRecordBufLen
    (recordHeader contentType data.length) (starts_ofList data).read_zero_add
    (by rw [hheader]; unfold tlsRecordBufLen; omega)
  rw [hheader] at hcopy hcontents
  unfold tlsSendRecord
  dsimp only
  rw [hcopy, done_bind, hcontents, done_bind]
  rfl

/-! ## Reading from TCP -/

variable {t t' : TcpLink}

/-- From `t` to `t'`, `xs` was read and nothing was sent. -/
structure TcpLink.Took (t : TcpLink) (xs : List U8) (t' : TcpLink) : Prop where
  incoming : t.incoming = xs ++ t'.incoming
  outgoing : t'.outgoing = t.outgoing

theorem TcpLink.Took.trans {t1 t2 t3 : TcpLink} {xs ys : List U8} (h : t1.Took xs t2) (h' : t2.Took ys t3) :
    t1.Took (xs ++ ys) t3 :=
  ⟨by rw [h.incoming, h'.incoming, append_assoc], h'.outgoing.trans h.outgoing⟩

variable {len : Nat} {xs : List U8} {r : Option (List U8)}

theorem TcpLink.receive_took {n : Nat} (h : t.receive n = (r, t')) : t.Took (r.getD []) t' ∧ (r.getD []).length ≤ n := by
  unfold TcpLink.receive at h
  split at h
  · cases h
    exact ⟨⟨rfl, rfl⟩, zero_le n⟩
  · cases h
    exact ⟨⟨rfl, rfl⟩, zero_le n⟩
  · cases h
    refine ⟨⟨(take_append_drop _ _).symm, rfl⟩, ?_⟩
    rw [Option.getD_some, length_take]
    omega

/-- The loop reads all that it was asked for, or gives up on the way. -/
theorem readExactLoop_took {fuel : Nat} {got : List U8} (hgot : got.length ≤ len)
    (h : readExactLoop len fuel t got = (r, t')) :
    ∃ chunk, t.Took chunk t' ∧ ∀ xs, r = some xs → xs = got ++ chunk ∧ xs.length = len := by
  fun_induction readExactLoop len fuel t got with
  | case1 t got hlt =>
    cases h
    exact ⟨[], ⟨rfl, rfl⟩, by simp⟩
  | case2 t got hge =>
    cases h
    exact ⟨[], ⟨rfl, rfl⟩, by rintro xs ⟨⟩; exact ⟨(append_nil _).symm, by omega⟩⟩
  | case3 fuel t got hlt t1 hreceive =>
    cases h
    exact ⟨[], (TcpLink.receive_took hreceive).1, by simp⟩
  | case4 fuel t got hlt chunk t1 hreceive ih =>
    obtain ⟨htook, hchunk⟩ := TcpLink.receive_took hreceive
    rw [Option.getD_some] at htook hchunk
    obtain ⟨chunk', htook', hall⟩ := ih (by rw [length_append]; omega) h
    refine ⟨chunk ++ chunk', htook.trans htook', fun xs hxs => ?_⟩
    rw [← append_assoc]
    exact hall xs hxs
  | case5 fuel t got hge =>
    cases h
    exact ⟨[], ⟨rfl, rfl⟩, by rintro xs ⟨⟩; exact ⟨(append_nil _).symm, by omega⟩⟩

/-- **What was read are the next bytes of the stream.** -/
theorem tcpReadExact_took (h : tcpReadExact t len = (some xs, t')) : xs.length = len ∧ t.Took xs t' := by
  obtain ⟨chunk, htook, hall⟩ := readExactLoop_took (zero_le len) h
  obtain ⟨rfl, hlen⟩ := hall xs rfl
  exact ⟨hlen, htook⟩

/-- The bytes of a record whose version may be any. -/
def recordBytes (contentType major minor : U8) (payload : List U8) : List U8 :=
  [contentType, major, minor] ++ beBytes 2 payload.length ++ payload

theorem tlsReadRecord_took {max : Nat} {contentType : U8} {payload : List U8}
    (h : tlsReadRecord t max = (some (contentType, payload), t')) :
    payload.length ≤ max ∧ ∃ major minor, t.Took (recordBytes contentType major minor payload) t' := by
  unfold tlsReadRecord at h
  split at h
  · exact absurd (mk.inj h).1 (by simp)
  · rename_i header t1 hheader
    obtain ⟨hlen, htook⟩ := tcpReadExact_took hheader
    dsimp only at h
    split at h
    · exact absurd (mk.inj h).1 (by simp)
    · rename_i hmax
      split at h
      · exact absurd (mk.inj h).1 (by simp)
      · rename_i payload' t2 hpayload
        obtain ⟨hlen', htook'⟩ := tcpReadExact_took hpayload
        obtain ⟨hrecord, rfl⟩ := mk.inj h
        obtain ⟨htype, rfl⟩ := mk.inj (Option.some.inj hrecord)
        refine ⟨by omega, ?_⟩
        match header, hlen with
        | [b0, b1, b2, b3, b4], _ =>
          obtain rfl : b0 = contentType := htype
          have hvalue : payload'.length = beValue [b3, b4] := hlen'.trans (or_two_bytes b3 b4)
          refine ⟨b1, b2, ?_⟩
          unfold recordBytes
          rw [hvalue, show beBytes 2 (beValue [b3, b4]) = [b3, b4] from beBytes_beValue [b3, b4]]
          exact htook.trans htook'

/-- TCP hands over a record, its header and then the rest: no call fails before it is complete. -/
def TcpLink.Delivers (t : TcpLink) (record : List U8) (t' : TcpLink) : Prop :=
  ∃ t1, tcpReadExact t 5 = (some (record.take 5), t1) ∧
    tcpReadExact t1 (record.length - 5) = (some (record.drop 5), t')

theorem TcpLink.Delivers.read {contentType major minor : U8} {payload : List U8} {max : Nat}
    (h : t.Delivers (recordBytes contentType major minor payload) t') (hmax : payload.length ≤ max)
    (hlen : payload.length < 2 ^ 16) : tlsReadRecord t max = (some (contentType, payload), t') := by
  obtain ⟨t1, hheader, hpayload⟩ := h
  have hvalue : beValue (beBytes 2 payload.length) = payload.length := by
    rw [beValue_beBytes, mod_eq_of_lt hlen]
  unfold recordBytes at hheader hpayload
  rw [beBytes_two] at hheader hpayload hvalue
  unfold tlsReadRecord
  rw [hheader]
  simp only [cons_append, nil_append, take_succ_cons, getD_cons_succ, getD_cons_zero,
    length_cons, drop_succ_cons, drop_zero] at hpayload ⊢
  rw [show payload.length + 1 + 1 + 1 + 1 + 1 - 5 = payload.length from rfl] at hpayload
  rw [or_two_bytes, hvalue, if_neg (by omega), hpayload]

theorem tcpReadExact_ready {rest : List U8} {answers : List (Option Nat)} {outgoing : List (List U8)}
    {accepts : List Bool} (hxs : xs ≠ []) :
    tcpReadExact ⟨xs ++ rest, some xs.length :: answers, outgoing, accepts⟩ xs.length =
      (some xs, ⟨rest, answers, outgoing, accepts⟩) := by
  have hpos : 0 < xs.length := length_pos_iff.mpr hxs
  unfold tcpReadExact
  rw [length_cons, readExactLoop, length_nil, if_pos hpos]
  unfold TcpLink.receive
  dsimp only
  rw [Nat.sub_zero, Nat.min_self, take_left, drop_left, nil_append]
  cases answers with
  | nil => rw [length_nil, readExactLoop, if_neg (lt_irrefl _)]
  | cons k answers => rw [length_cons, readExactLoop, if_neg (lt_irrefl _)]

/-- TCP that hands over the header and the payload of a record in one call each. -/
theorem TcpLink.delivers_ready (contentType major minor : U8) {payload : List U8} (rest : List U8) (answers : List (Option Nat))
    (outgoing : List (List U8)) (accepts : List Bool) (hpayload : payload ≠ []) :
    TcpLink.Delivers ⟨recordBytes contentType major minor payload ++ rest, some 5 :: some payload.length :: answers, outgoing,
      accepts⟩ (recordBytes contentType major minor payload) ⟨rest, answers, outgoing, accepts⟩ := by
  have hrecord : recordBytes contentType major minor payload = ([contentType, major, minor] ++ beBytes 2 payload.length) ++
      payload := rfl
  have hheader : ([contentType, major, minor] ++ beBytes 2 payload.length).length = 5 := rfl
  refine ⟨⟨payload ++ rest, some payload.length :: answers, outgoing, accepts⟩, ?_, ?_⟩
  · rw [hrecord, append_assoc, take_left' hheader]
    exact tcpReadExact_ready (by simp)
  · rw [hrecord, length_append, hheader, Nat.add_sub_cancel_left, drop_left' hheader]
    exact tcpReadExact_ready hpayload

/-! ## Protection -/

section Seal

variable (roundKeys : RoundKeys) (macKey : List U8) (seqNum : U64) (contentType : U8)

/-- HMAC-SHA256 over `seq || type || 0x0303 || length || content`. -/
def recordMac (content : List U8) : List U8 :=
  hmacSha256 macKey (beBytes 8 seqNum.toNat ++ [contentType, 0x03, 0x03] ++ beBytes 2 content.length ++ content)

@[simp] theorem length_recordMac (content : List U8) : (recordMac macKey seqNum contentType content).length = 32 := hmacSha256_length _ _

/-- The fragment of an honest sender: the IV, and the encryption of the content, its MAC and the padding. -/
def sealRecord (iv : AesBlock) (content : List U8) : List U8 :=
  iv.toList ++
    aes128CbcEncrypt roundKeys iv (tlsPadded (content ++ recordMac macKey seqNum contentType content))

theorem macHeader_eq (len : Nat) :
    macHeader seqNum contentType len = beBytes 8 seqNum.toNat ++ [contentType, 0x03, 0x03] ++ beBytes 2 len := by
  unfold macHeader
  rw [recordHeader_eq, append_assoc]
  refine congrArg (· ++ _) (map_congr_left fun k hk => BitVec.eq_of_toNat_eq ?_)
  rw [BitVec.toNat_setWidth, BitVec.toNat_and, BitVec.toNat_ushiftRight, show (0xFF : U64).toNat = 2 ^ 8 - 1 from rfl,
    Nat.and_two_pow_sub_one_eq_mod, Nat.mod_mod, BitVec.toNat_ofNat, Nat.shiftRight_eq_div_pow, Nat.mul_comm]

theorem computeRecordMac_eq {content : Cells U8} (h : content.Starts xs) (hlen : xs.length ≤ tlsMaxRecordLen) :
    computeRecordMac macKey seqNum contentType xs.length content = .done (recordMac macKey seqNum contentType xs) := by
  have hheader : (macHeader seqNum contentType xs.length).length = 13 := rfl
  obtain ⟨record, hcopy, -, hcontents⟩ := @append_contents content 0 xs (13 + tlsMaxRecordLen)
    (macHeader seqNum contentType xs.length)
    h.read_zero_add (by rw [hheader]; omega)
  rw [hheader] at hcopy hcontents
  unfold computeRecordMac
  dsimp only
  rw [hcopy, done_bind, hcontents, done_bind, macHeader_eq]
  rfl

/-- **A content that is too long for the MAC.** -/
theorem computeRecordMac_undefined (content : Cells U8) (hlen : tlsMaxRecordLen < len) :
    computeRecordMac macKey seqNum contentType len content = .undefined := by
  unfold computeRecordMac
  dsimp only
  generalize hdst : (unset (13 + tlsMaxRecordLen)).fill (macHeader seqNum contentType len) = dst
  have hsize : dst.length = 13 + tlsMaxRecordLen := by
    rw [← hdst, length_fill (by rw [length_unset]; show 13 ≤ _; omega), length_unset]
  rw [(copyCells_checks content 0 dst 13 len).eq_undefined fun hroom => ?_, undefined_bind]
  have hlast := (hroom (len - 1) (by omega)).2
  omega

theorem length_tlsPadded_mac (content : List U8) :
    (tlsPadded (content ++ recordMac macKey seqNum contentType content)).length = 16 * ((content.length + 32) / 16 + 1) := by
  rw [length_tlsPadded_eq, length_append, length_recordMac]

theorem length_sealRecord (iv : AesBlock) (content : List U8) :
    (sealRecord roundKeys macKey seqNum contentType iv content).length = 16 + 16 * ((content.length + 32) / 16 + 1) := by
  have hpadded := length_tlsPadded_mac macKey seqNum contentType content
  unfold sealRecord
  rw [length_append, Vector.length_toList, length_aes128CbcEncrypt _ _ (by omega), hpadded]

end Seal

/-! ## Sending -/

variable {content : List U8}

theorem plainRecord_eq {mac : List U8} (hcontent : content.length ≤ tlsMaxRecordLen) (hmac : mac.length = 32) :
    plainRecord content mac = .done (content ++ mac) := by
  obtain ⟨plain, hcopy, hstarts, hplain⟩ := copyCells_unset (show content.length ≤ tlsMaxRecordLen + 32 by omega)
  obtain ⟨plain', hcopy', hstarts', -⟩ := copyCells_eq (starts_ofList mac).read_zero_add hstarts (by omega)
  have hcontents := contents_take hstarts'
  rw [length_append, hmac] at hcontents
  rw [hmac] at hcopy'
  unfold plainRecord
  rw [hcopy, done_bind, hcopy', done_bind, hcontents]

theorem fragmentOf_eq (iv : AesBlock) {ciphertext : List U8} (hlen : ciphertext.length ≤ tlsCiphertextLen) :
    fragmentOf iv ciphertext = .done (iv.toList ++ ciphertext) := by
  have hiv : iv.toList.length = 16 := Vector.length_toList
  obtain ⟨fragment, hcopy, -, hcontents⟩ := append_contents tlsFragmentLen iv.toList (starts_ofList ciphertext).read_zero_add
    (by rw [hiv]; unfold tlsFragmentLen; unfold tlsCiphertextLen at hlen; omega)
  rw [hiv] at hcopy hcontents
  unfold fragmentOf
  dsimp only
  rw [hcopy, done_bind, hcontents]

theorem sendEncryptedRecord_eq (conn : TlsConn) (contentType : U8) {random : List U8} {iv : AesBlock}
    (hlen : content.length ≤ tlsMaxRecordLen) (hrandom : conn.random = iv.toList ++ random) :
    let fragment := sealRecord conn.clientRoundKeys conn.clientWriteMacKey conn.clientSeqNum contentType iv content
    let sent := conn.tcp.send (recordBytes contentType 0x03 0x03 fragment)
    sendEncryptedRecord conn contentType content =
      .done (sent.1, { conn with random := random, clientSeqNum := conn.clientSeqNum + 1, tcp := sent.2 }) := by
  have hfragment := length_sealRecord conn.clientRoundKeys conn.clientWriteMacKey conn.clientSeqNum contentType iv content
  have hmax : tlsMaxRecordLen = 1200 := rfl
  have hmac := length_recordMac conn.clientWriteMacKey conn.clientSeqNum contentType content
  have hpadded := length_tlsPadded_mac conn.clientWriteMacKey conn.clientSeqNum contentType content
  have hiv : iv.toList.length = 16 := Vector.length_toList
  have hcipher : (aes128CbcEncrypt conn.clientRoundKeys iv
      (tlsPadded (content ++ recordMac conn.clientWriteMacKey conn.clientSeqNum contentType content))).length ≤
        tlsCiphertextLen := by
    rw [length_aes128CbcEncrypt _ _ (by omega), hpadded]
    unfold tlsCiphertextLen
    omega
  unfold sendEncryptedRecord
  rw [computeRecordMac_eq _ _ _ (starts_ofList content) hlen, done_bind, plainRecord_eq hlen hmac, done_bind,
    fillRandom, hrandom, if_pos (by rw [length_append]; omega), take_left' hiv, drop_left' hiv, pure_eq, done_bind]
  dsimp only
  rw [← append_nil iv.toList, blockAt_append_zero, aes128CbcEncryptTls_eq _ _
    (by rw [hpadded]; unfold tlsCiphertextLen; omega) (by rw [hpadded]; unfold aesPkcs7MaxLen; omega)]
  dsimp only
  rw [fragmentOf_eq iv hcipher, done_bind]
  change tlsSendRecord _ _ (sealRecord conn.clientRoundKeys conn.clientWriteMacKey conn.clientSeqNum contentType iv content) = _
  rw [tlsSendRecord_eq _ _ (by omega), recordHeader_eq]
  rfl

/-! ## Receiving -/

variable {conn : TlsConn} {contentType : U8} {plain raw : List U8} {maxContentLen : Nat}

/-- **What `receive_encrypted_record` does with the decrypted bytes**: it compares the last 32 with the MAC of the others,
and hands out as much as fits. -/
theorem openRecord_eq (hmin : 32 ≤ plain.length) (hmax : plain.length ≤ tlsMaxRecordLen + 32) :
    openRecord conn contentType plain maxContentLen = .done (if plain.drop (plain.length - 32) =
          recordMac conn.serverWriteMacKey conn.serverSeqNum contentType (plain.take (plain.length - 32)) then
        some ((plain.take (plain.length - 32)).take maxContentLen) else none) := by
  obtain ⟨decrypted, hcopy, hstarts, -⟩ := copyCells_unset (show plain.length ≤ tlsMaxRecordLen + 64 by omega)
  have hcontent : (plain.take (plain.length - 32)).length = plain.length - 32 := by
    rw [length_take]
    omega
  have hu16 : u16 (plain.length - 32) = plain.length - 32 := mod_eq_of_lt (by unfold tlsMaxRecordLen at hmax; omega)
  have hmac := computeRecordMac_eq conn.serverWriteMacKey conn.serverSeqNum contentType (hstarts.take (plain.length - 32))
    (by omega)
  rw [hcontent] at hmac
  have hsame := @cellsAre_eq decrypted plain hstarts (plain.length - 32) (recordMac conn.serverWriteMacKey conn.serverSeqNum
    contentType (plain.take (plain.length - 32))) (by rw [length_recordMac]; omega)
  have htail : bytesAt plain (plain.length - 32) 32 = plain.drop (plain.length - 32) :=
    take_of_length_le (by rw [length_drop]; omega)
  rw [length_recordMac, htail] at hsame
  obtain ⟨out, hout, hcontents⟩ := copyOut_eq (hstarts.take (plain.length - 32)).read_zero_add maxContentLen
  rw [hcontent] at hout hcontents
  unfold openRecord tlsCiphertextLen
  rw [hcopy, done_bind]
  dsimp only
  rw [hu16, hmac, done_bind, hsame, done_bind]
  by_cases hequal : plain.drop (plain.length - 32) =
      recordMac conn.serverWriteMacKey conn.serverSeqNum contentType (plain.take (plain.length - 32))
  · rw [if_pos (decide_eq_true hequal), if_pos hequal, hout, done_bind, hcontents]
    rfl
  · rw [if_neg (by rw [decide_eq_true_iff]; exact hequal), if_neg hequal]
    rfl

theorem openRecord_undefined (hmin : tlsMaxRecordLen + 32 < plain.length) (hmax : plain.length ≤ tlsCiphertextLen) :
    openRecord conn contentType plain maxContentLen = .undefined := by
  obtain ⟨decrypted, hcopy, -⟩ := copyCells_unset hmax
  have hu16 : u16 (plain.length - 32) = plain.length - 32 :=
    mod_eq_of_lt (by unfold tlsCiphertextLen tlsMaxRecordLen at hmax; omega)
  unfold openRecord
  rw [hcopy, done_bind]
  dsimp only
  rw [hu16, computeRecordMac_undefined _ _ _ _ (by omega), undefined_bind]

theorem toList_blockAt_zero (h : 16 ≤ raw.length) : (blockAt raw 0).toList = raw.take 16 := by
  have hsize : (raw.take 16).length = 16 := by
    rw [length_take]
    omega
  obtain ⟨bs, hbs⟩ := exists_bytesOf (show (raw.take 16).length % 16 = 0 by rw [hsize])
  have hone : bs.length = 1 := by
    have hcount := length_bytesOf bs
    rw [hbs, hsize] at hcount
    omega
  obtain ⟨b, rfl⟩ := length_eq_one_iff.mp hone
  have hb : b.toList = raw.take 16 := (append_nil b.toList).symm.trans hbs
  have hraw : raw = b.toList ++ raw.drop 16 := by rw [hb, take_append_drop]
  rw [← hb, hraw, blockAt_append_zero]

/-- The bytes a record decrypts to fit the buffer for them. -/
theorem decryptRecord_eq {roundKeys : RoundKeys} (h : decryptRecord roundKeys raw = some plain)
    (hlen : raw.length ≤ tlsFragmentLen) : 32 ≤ plain.length ∧ plain.length ≤ tlsCiphertextLen ∧
      ∃ iv : AesBlock, raw = iv.toList ++ aes128CbcEncrypt roundKeys iv (tlsPadded plain) ∧
        aes128CbcDecrypt roundKeys iv (raw.drop 16) = tlsPadded plain := by
  unfold decryptRecord at h
  split at h
  · simp at h
  · rename_i hraw
    split at h
    · simp at h
    · rename_i plain' hdecrypt
      split at h
      · simp at h
      · rename_i hmac
        cases h
        obtain ⟨⟨-, hwhole, -⟩, hpadded⟩ := (aes128CbcDecryptTls_iff _ _ _ _).mp hdecrypt
        have hsize := length_aes128CbcDecrypt roundKeys (blockAt raw 0) hwhole
        rw [hpadded, length_tlsPadded, length_drop] at hsize
        refine ⟨by omega, by unfold tlsFragmentLen at hlen; unfold tlsCiphertextLen; omega, blockAt raw 0, ?_, hpadded⟩
        rw [← hpadded, aes128CbcEncrypt_aes128CbcDecrypt _ _ hwhole, toList_blockAt_zero (by omega), take_append_drop]

theorem decryptRecord_seal (roundKeys : RoundKeys) (macKey : List U8) (seqNum : U64) (contentType : U8)
    (iv : AesBlock) (hlen : content.length ≤ tlsCiphertextLen) :
    decryptRecord roundKeys (sealRecord roundKeys macKey seqNum contentType iv content) =
      some (content ++ recordMac macKey seqNum contentType content) := by
  have hmax : tlsCiphertextLen = 1264 := rfl
  have hsize := length_sealRecord roundKeys macKey seqNum contentType iv content
  have hpadded := length_tlsPadded_mac macKey seqNum contentType content
  unfold decryptRecord
  rw [if_neg (by omega)]
  unfold sealRecord
  rw [blockAt_append_zero, drop_left' Vector.length_toList,
    aes128CbcDecryptTls_padded _ _ (by rw [hpadded]; unfold aesPkcs7MaxLen; omega)]
  dsimp only
  rw [if_neg (by rw [length_append, length_recordMac]; omega)]

section Honest

variable {tcp : TcpLink} {iv : AesBlock} {content : List U8} (hread : tlsReadRecord conn.tcp tlsFragmentLen =
  (some (contentType, sealRecord conn.serverRoundKeys conn.serverWriteMacKey conn.serverSeqNum contentType iv content), tcp))

include hread

theorem receiveEncryptedRecord_seal (hlen : content.length ≤ tlsMaxRecordLen) :
    receiveEncryptedRecord conn maxContentLen = .done (some (contentType, content.take maxContentLen),
      { conn with tcp := tcp, serverSeqNum := conn.serverSeqNum + 1 }) := by
  have hsize : (content ++ recordMac conn.serverWriteMacKey conn.serverSeqNum contentType content).length - 32 =
      content.length := by
    rw [length_append, length_recordMac, Nat.add_sub_cancel]
  have hopen := @openRecord_eq conn contentType
    (content ++ recordMac conn.serverWriteMacKey conn.serverSeqNum contentType content) maxContentLen
    (by rw [length_append, length_recordMac]; omega) (by rw [length_append, length_recordMac]; omega)
  rw [hsize, drop_left, take_left, if_pos rfl] at hopen
  unfold receiveEncryptedRecord
  rw [hread]
  dsimp only
  rw [decryptRecord_seal _ _ _ _ _ (hlen.trans (le_add_right _ _))]
  dsimp only
  rw [hopen, done_bind]
  rfl

/-- A record of an honest sender whose content is longer than the buffer of the MAC. -/
theorem receiveEncryptedRecord_long (hlong : tlsMaxRecordLen < content.length)
    (hlen : content.length + 32 ≤ tlsCiphertextLen) : receiveEncryptedRecord conn maxContentLen = .undefined := by
  unfold receiveEncryptedRecord
  rw [hread]
  dsimp only
  rw [decryptRecord_seal _ _ _ _ _ (by omega)]
  dsimp only
  rw [openRecord_undefined (by rw [length_append, length_recordMac]; omega)
    (by rw [length_append, length_recordMac]; omega), undefined_bind]

end Honest

/-- **What is accepted is what an honest sender makes.** -/
theorem receiveEncryptedRecord_accepts {bytes : List U8} {conn' : TlsConn}
    (h : receiveEncryptedRecord conn maxContentLen = .done (some (contentType, bytes), conn')) :
    ∃ (raw : List U8) (tcp : TcpLink) (iv : AesBlock) (content : List U8),
      tlsReadRecord conn.tcp tlsFragmentLen = (some (contentType, raw), tcp) ∧ content.length ≤ tlsMaxRecordLen ∧
      raw = sealRecord conn.serverRoundKeys conn.serverWriteMacKey conn.serverSeqNum contentType iv content ∧
      aes128CbcDecrypt conn.serverRoundKeys iv (raw.drop 16) =
        tlsPadded (content ++ recordMac conn.serverWriteMacKey conn.serverSeqNum contentType content) ∧
      bytes = content.take maxContentLen ∧ conn' = { conn with tcp := tcp, serverSeqNum := conn.serverSeqNum + 1 } := by
  unfold receiveEncryptedRecord at h
  split at h
  · exact absurd (done.inj h) (by simp)
  · rename_i ct raw tcp hread
    obtain ⟨hraw, -⟩ := tlsReadRecord_took hread
    split at h
    · exact absurd (done.inj h) (by simp)
    · rename_i plain hdecrypt
      obtain ⟨hmin, hmax, iv, hseal, hplain⟩ := decryptRecord_eq hdecrypt hraw
      rcases lt_or_ge (tlsMaxRecordLen + 32) plain.length with hlong | hshort
      · rw [openRecord_undefined hlong hmax] at h
        simp at h
      · rw [openRecord_eq hmin hshort, done_bind] at h
        by_cases hmac : plain.drop (plain.length - 32) =
            recordMac conn.serverWriteMacKey conn.serverSeqNum ct (plain.take (plain.length - 32))
        · rw [if_pos hmac] at h
          obtain ⟨hrecord, rfl⟩ := mk.inj (done.inj h)
          obtain ⟨rfl, rfl⟩ := mk.inj (Option.some.inj hrecord)
          have hsplit : plain = plain.take (plain.length - 32) ++ recordMac conn.serverWriteMacKey conn.serverSeqNum ct
              (plain.take (plain.length - 32)) := by
            rw [← hmac, take_append_drop]
          refine ⟨raw, tcp, iv, plain.take (plain.length - 32), hread, ?_, ?_, ?_, rfl, rfl⟩
          · rw [length_take]
            omega
          · unfold sealRecord
            rw [← hsplit]
            exact hseal
          · rw [← hsplit]
            exact hplain
        · rw [if_neg hmac] at h
          exact absurd (done.inj h) (by simp)

/-! ## Both ends -/

/-- Two ends hold the same keys and count the same records. -/
structure SameKeys (sender receiver : TlsConn) : Prop where
  roundKeys : receiver.serverRoundKeys = sender.clientRoundKeys
  macKey : receiver.serverWriteMacKey = sender.clientWriteMacKey
  seqNum : receiver.serverSeqNum = sender.clientSeqNum

/-- **Records come through, and only those.** A record of at most 1200 bytes is received with its type and content, and
both ends count it. A record that is accepted decrypts to a content, its MAC and the padding, and its fragment is the one
that a sender with the same keys and that IV hands over for this content. -/
theorem record_roundtrip : (∀ (sender receiver : TlsConn) (contentType : U8) (content : List U8) (maxContentLen : Nat),
      SameKeys sender receiver → content.length ≤ 1200 → content.length ≤ maxContentLen → 16 ≤ sender.random.length →
      ∃ sent sender' record, sendEncryptedRecord sender contentType content = .done (sent, sender') ∧
        sender'.tcp.outgoing = sender.tcp.outgoing ++ [record] ∧ sender'.clientSeqNum = sender.clientSeqNum + 1 ∧
        ∀ tcp', receiver.tcp.Delivers record tcp' →
          receiveEncryptedRecord receiver maxContentLen = .done (some (contentType, content),
            { receiver with tcp := tcp', serverSeqNum := receiver.serverSeqNum + 1 })) ∧
    ∀ (receiver receiver' : TlsConn) (maxContentLen : Nat) (contentType : U8) (bytes : List U8),
      receiveEncryptedRecord receiver maxContentLen = .done (some (contentType, bytes), receiver') →
      ∃ fragment tcp' iv content,
        tlsReadRecord receiver.tcp tlsFragmentLen = (some (contentType, fragment), tcp') ∧ content.length ≤ 1200 ∧
        bytes = content.take maxContentLen ∧ fragment.take 16 = iv.toList ∧
        aes128CbcDecrypt receiver.serverRoundKeys iv (fragment.drop 16) =
          tlsPadded (content ++ recordMac receiver.serverWriteMacKey receiver.serverSeqNum contentType content) ∧
        ∀ sender random, SameKeys sender receiver → sender.random = iv.toList ++ random →
          ∃ sent sender', sendEncryptedRecord sender contentType content = .done (sent, sender') ∧
            sender'.tcp.outgoing = sender.tcp.outgoing ++ [recordBytes contentType 0x03 0x03 fragment] := by
  constructor
  · intro sender receiver contentType content maxContentLen hkeys hlen hfits hrandom
    have hiv : sender.random = (blockAt sender.random 0).toList ++ sender.random.drop 16 := by
      rw [toList_blockAt_zero hrandom, take_append_drop]
    refine ⟨_, _, _, sendEncryptedRecord_eq sender contentType hlen hiv, rfl, rfl, fun tcp' hdelivers => ?_⟩
    have hsize := length_sealRecord sender.clientRoundKeys sender.clientWriteMacKey sender.clientSeqNum contentType
      (blockAt sender.random 0) content
    have hread := hdelivers.read (show _ ≤ tlsFragmentLen by rw [hsize]; unfold tlsFragmentLen tlsMaxRecordLen; omega)
      (by omega)
    rw [← hkeys.roundKeys, ← hkeys.macKey, ← hkeys.seqNum] at hread
    have hreceive := @receiveEncryptedRecord_seal receiver contentType maxContentLen tcp' _ content hread hlen
    rwa [take_of_length_le hfits] at hreceive
  · intro receiver receiver' maxContentLen contentType bytes haccept
    obtain ⟨fragment, tcp, iv, content, hread, hlen, hseal, hplain, hbytes, -⟩ := receiveEncryptedRecord_accepts haccept
    refine ⟨fragment, tcp, iv, content, hread, hlen, hbytes, ?_, hplain, fun sender random hkeys hrandom => ?_⟩
    · rw [hseal]
      unfold sealRecord
      rw [take_left' Vector.length_toList]
    · refine ⟨_, _, sendEncryptedRecord_eq sender contentType hlen hrandom, ?_⟩
      rw [hseal, hkeys.roundKeys, hkeys.macKey, hkeys.seqNum]
      rfl

/-- A connection whose record keys are all zero. -/
def zeroKeyConn (tcp : TcpLink) (random : List U8) : TlsConn where
  tcp := tcp
  random := random
  clientRandom := List.replicate 32 0
  serverRandom := List.replicate 32 0
  masterSecret := List.replicate 48 0
  clientWriteMacKey := List.replicate 32 0
  serverWriteMacKey := List.replicate 32 0
  clientWriteKey := Vector.replicate 16 0
  serverWriteKey := Vector.replicate 16 0
  clientRoundKeys := aes128KeyExpand (Vector.replicate 16 0)
  serverRoundKeys := aes128KeyExpand (Vector.replicate 16 0)
  clientSeqNum := 0
  serverSeqNum := 0
  transcript := sha256Init

/-- The sender of three bytes of application data. -/
def threeSender : TlsConn := zeroKeyConn ⟨[], [], [], [true]⟩ (List.replicate 16 9)

/-- What it makes of them. -/
def threeFragment : List U8 :=
  sealRecord threeSender.clientRoundKeys threeSender.clientWriteMacKey 0 tlsContentApplicationData
    (blockAt (List.replicate 16 9) 0) [1, 2, 3]

/-- The receiver, to which TCP hands over the record in two calls. -/
def threeReceiver : TlsConn :=
  zeroKeyConn ⟨recordBytes tlsContentApplicationData 0x03 0x03 threeFragment ++ [],
    [some 5, some threeFragment.length], [], []⟩ []

theorem record_roundtrip_three : ∃ sent sender' record,
    sendEncryptedRecord threeSender tlsContentApplicationData [1, 2, 3] = .done (sent, sender') ∧
      sender'.tcp.outgoing = [record] ∧ sender'.clientSeqNum = 1 ∧
      receiveEncryptedRecord threeReceiver 100 = .done (some (tlsContentApplicationData, [1, 2, 3]),
        { threeReceiver with tcp := ⟨[], [], [], []⟩, serverSeqNum := 1 }) := by
  have hrandom : (List.replicate 16 9 : List U8) = (blockAt (List.replicate 16 9) 0).toList ++ [] := by
    rfl
  obtain ⟨sent, sender', record, hsend, hout, hseq, hreceive⟩ := record_roundtrip.1 threeSender threeReceiver
    tlsContentApplicationData [1, 2, 3] 100 ⟨rfl, rfl, rfl⟩ (by decide) (by decide) (by decide)
  refine ⟨sent, sender', record, hsend, hout, hseq, hreceive _ ?_⟩
  have hsame := hsend.symm.trans (sendEncryptedRecord_eq threeSender tlsContentApplicationData (by decide) hrandom)
  obtain ⟨-, rfl⟩ := mk.inj (done.inj hsame)
  obtain rfl := (cons.inj hout).1
  exact TcpLink.delivers_ready tlsContentApplicationData 0x03 0x03 [] [] [] [] (by
    intro hnil
    have hsize := congrArg List.length hnil
    exact absurd hsize (by decide))

end MinicOs
