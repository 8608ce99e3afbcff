import MinicOs.Net.Handshake
import MinicOs.Net.KeyExchange
import MinicOs.Security.X509Extract

/-!
# Handshakes that succeed

A peer that sends a ServerHello, a Certificate and a ServerHelloDone in one record, and then ChangeCipherSpec and the
Finished of the transcript, is accepted, whatever its ServerHello asks for.
-/

namespace MinicOs

open List Exec

/-! ## The flight -/

variable {tcp : TcpLink}

section Flight

variable {recordBuf : Cells U8} {payload : List U8} {s : ServerFlight}

theorem length_handshakeMsg_bytes (m : HandshakeMsg) : m.bytes.length = 4 + m.body.length := by
  unfold HandshakeMsg.bytes
  rw [length_append, length_append, length_beBytes]
  rfl

theorem flightMessage_helloDone (bodyOff : Nat) :
    flightMessage recordBuf bodyOff tlsHandshakeServerHelloDone s = .done { s with gotDone := true } := by
  rfl

section Message

variable {pre rest : List U8} {m : HandshakeMsg} (hpayload : payload = pre ++ (m.bytes ++ rest))

include hpayload

theorem message_length : payload.length = pre.length + 4 + m.body.length + rest.length := by
  rw [hpayload, length_append, length_append, length_handshakeMsg_bytes]
  omega

theorem message_bytes : bytesAt payload pre.length (4 + m.body.length) = m.bytes := by
  have hat := bytesAt_eq (show payload.drop pre.length = [] ++ (m.bytes ++ rest) by
    rw [hpayload, drop_left, nil_append])
  rwa [length_handshakeMsg_bytes] at hat

theorem message_type (hlt : pre.length < payload.length) : payload.get ⟨pre.length, hlt⟩ = m.msgType := by
  subst hpayload
  simp only [HandshakeMsg.bytes, get_eq_getElem, cons_append, nil_append, getElem_append_right (Nat.le_refl _),
    Nat.sub_self, getElem_cons_zero]

theorem message_hsLen (hbody : m.body.length < 2 ^ 24) : beValue (bytesAt payload (pre.length + 1) 3) = m.body.length := by
  have hat := bytesAt_eq (show payload.drop pre.length = [m.msgType] ++ (beBytes 3 m.body.length ++ (m.body ++ rest)) by
    rw [hpayload, drop_left]
    simp only [HandshakeMsg.bytes, append_assoc])
  rw [length_beBytes] at hat
  rw [show pre.length + 1 = pre.length + [m.msgType].length from rfl, hat, beValue_beBytes, Nat.mod_eq_of_lt hbody]

theorem message_body : bytesAt payload (pre.length + 4) m.body.length = m.body :=
  bytesAt_eq (show payload.drop pre.length = ([m.msgType] ++ beBytes 3 m.body.length) ++ (m.body ++ rest) by
    rw [hpayload, drop_left]
    simp only [HandshakeMsg.bytes, append_assoc])

theorem flightMessages_cons (fuel : Nat) (h : recordBuf.Starts payload) (hbody : m.body.length < 2 ^ 24) :
    flightMessages recordBuf payload.length (fuel + 1) pre.length s = flightMessage recordBuf (pre.length + 4) m.msgType
        { s with conn := { s.conn with transcript := sha256Update s.conn.transcript m.bytes } } >>=
      flightMessages recordBuf payload.length fuel (pre ++ m.bytes).length := by
  have hlen := message_length hpayload
  rw [flightMessages, if_pos (by omega), if_neg (by omega), read_starts h (by omega), done_bind,
    message_type hpayload (by omega), cellsU24_eq h (by omega), done_bind, message_hsLen hpayload hbody]
  rw [if_neg (by omega), cellsBytes_eq h (by omega), done_bind, message_bytes hpayload, length_append,
    length_handshakeMsg_bytes]

theorem flightMessage_serverHello (h : recordBuf.Starts payload) (hlong : 34 ≤ m.body.length) :
    flightMessage recordBuf (pre.length + 4) tlsHandshakeServerHello s =
      .done { s with conn := { s.conn with serverRandom := bytesAt m.body 2 32 } } := by
  have hlen := message_length hpayload
  rw [flightMessage, if_pos rfl, cellsBytes_eq h (by omega), bytesAt_body (message_body hpayload) (by omega)]
  rfl

theorem flightMessage_certificate {n e : Nat} (h : recordBuf.Starts payload) (hinside : m.CertInside)
    (hcert : Certificate n e m.certificate) (hmax : m.body.length < 2 ^ 24) (hn : n < 2 ^ 4096) (he : e < 2 ^ 32)
    (hout : s.serverModulus.length = bignumLimbs) : flightMessage recordBuf (pre.length + 4) tlsHandshakeCertificate s =
      .done { s with serverModulus := bignumOf n, serverExponent := BitVec.ofNat 32 e, gotCert := true } := by
  obtain ⟨hsix, hinside⟩ := hinside
  have hlen := message_length hpayload
  have hcertLen : m.certificate.length = m.certLen := length_bytesAt hinside
  have hstarts : Cells.Starts (recordBuf.drop (pre.length + 4 + 6)) m.certificate := by
    have htake := (h.drop (pre.length + 4 + 6)).take m.certLen
    rwa [show (payload.drop (pre.length + 4 + 6)).take m.certLen = m.certificate from
      bytesAt_body (message_body hpayload) hinside] at htake
  have hextract := hcert.extract hstarts (by omega) hn he hout
  rw [hcertLen] at hextract
  rw [flightMessage, if_neg (by decide), if_pos rfl, cellsU24_eq h (by omega), bytesAt_body (message_body hpayload) (by omega),
    done_bind, show beValue (bytesAt m.body 3 3) = m.certLen from rfl, hextract]
  rfl

end Message

/-- A flight in one record: a ServerHello, the certificate of a key and the last message. -/
structure ShortFlight (hello cert last : HandshakeMsg) (n e : Nat) (payload : List U8) : Prop where
  helloType : hello.msgType = tlsHandshakeServerHello
  random : 34 ≤ hello.body.length
  certType : cert.msgType = tlsHandshakeCertificate
  inside : cert.CertInside
  key : Certificate n e cert.certificate
  exponent : e < 2 ^ 32
  lastType : last.msgType = tlsHandshakeServerHelloDone
  bytes : payload = hello.bytes ++ (cert.bytes ++ last.bytes)
  fits : payload.length ≤ tlsMaxRecordLen

section Three

variable {hello cert last : HandshakeMsg} {n e : Nat}

theorem flightMessages_three (h : ShortFlight hello cert last n e payload) (hn : n < 2 ^ 4096)
    (hstarts : recordBuf.Starts payload) (hout : s.serverModulus.length = bignumLimbs) :
    flightMessages recordBuf payload.length payload.length 0 s = .done {
      conn := { s.conn with transcript := sha256Update s.conn.transcript payload, serverRandom := bytesAt hello.body 2 32 }
      serverModulus := bignumOf n, serverExponent := BitVec.ofNat 32 e, gotDone := true, gotCert := true } := by
  obtain ⟨hhello, hrandom, hcertType, hinside, hcert, he, hlast, hpayload, hlen⟩ := h
  have hmax : tlsMaxRecordLen = 1200 := rfl
  have h0 : payload = [] ++ (hello.bytes ++ (cert.bytes ++ last.bytes)) := by rw [hpayload, nil_append]
  have h1 : payload = ([] ++ hello.bytes) ++ (cert.bytes ++ last.bytes) := by rw [hpayload, nil_append]
  have h2 : payload = (([] ++ hello.bytes) ++ cert.bytes) ++ (last.bytes ++ []) := by
    rw [hpayload, nil_append, append_nil, append_assoc]
  have hlen0 := message_length h0
  have hlen1 := message_length h1
  have hlen2 := message_length h2
  obtain ⟨fuel, hfuel⟩ : ∃ fuel, payload.length = fuel + 1 + 1 + 1 + 1 := ⟨payload.length - 4, by omega⟩
  have hend : ¬ ((([] ++ hello.bytes) ++ cert.bytes) ++ last.bytes).length < payload.length := by
    rw [h2, append_nil]
    exact Nat.lt_irrefl _
  have htranscript : sha256Update s.conn.transcript payload =
      sha256Update (sha256Update (sha256Update s.conn.transcript hello.bytes) cert.bytes) last.bytes := by
    rw [sha256Update_append, sha256Update_append, hpayload]
  rw [htranscript]
  nth_rewrite 2 [hfuel]
  rw [show (0 : Nat) = ([] : List U8).length from rfl, flightMessages_cons h0 _ hstarts (by omega), hhello,
    flightMessage_serverHello h0 hstarts hrandom, done_bind]
  rw [flightMessages_cons h1 _ hstarts (by omega), hcertType, flightMessage_certificate h1 hstarts hinside hcert (by omega) hn he,
    done_bind]
  · dsimp only
    rw [flightMessages_cons h2 _ hstarts (by omega), hlast, flightMessage_helloDone, done_bind]
    generalize sha256Update (sha256Update (sha256Update s.conn.transcript hello.bytes) cert.bytes) last.bytes = transcript
    rw [flightMessages, if_neg hend]
    rfl
  · exact hout

theorem receiveServerFlight_eq {conn : TlsConn} (h : ShortFlight hello cert last n e payload) (hn : n < 2 ^ 4096)
    (hread : tlsReadRecord conn.tcp tlsMaxRecordLen = (some (tlsContentHandshake, payload), tcp)) :
    receiveServerFlight conn = .done {
      conn := { conn with
        tcp := tcp, transcript := sha256Update conn.transcript payload, serverRandom := bytesAt hello.body 2 32 }
      serverModulus := bignumOf n, serverExponent := BitVec.ofNat 32 e, gotDone := true, gotCert := true } := by
  unfold receiveServerFlight
  rw [flightRecords, if_neg Bool.false_ne_true, hread]
  dsimp only
  rw [if_neg (by decide), flightMessages_three h hn (Cells.starts_fill _ _) (Cells.length_unset _), done_bind]
  generalize sha256Update conn.transcript payload = transcript
  rw [flightRecords_done rfl, done_bind, if_pos rfl]
  rfl

end Three

end Flight

/-! ## The other steps -/

section Steps

variable {conn : TlsConn} {random : List U8}

def clientHello (clientRandom : List U8) : List U8 :=
  handshakeMessage tlsHandshakeClientHello (clientHelloBody clientRandom)

theorem fillRandom_append {xs ys : List U8} {n : Nat} (h : xs.length = n) : fillRandom (xs ++ ys) n = .done (xs, ys) := by
  subst h
  rw [fillRandom, if_pos (by rw [length_append]; omega), take_left, drop_left]
  rfl

variable {accepts : List Bool}

theorem TcpLink.send_true (h : tcp.accepts = true :: accepts) (data : List U8) :
    tcp.send data = (true, ⟨tcp.incoming, tcp.answers, tcp.outgoing ++ [data], accepts⟩) := by
  rw [TcpLink.send, h]
  rfl

theorem sendClientHello_eq (tcp : TcpLink) {clientRandom : List U8} (hrandom : conn.random = clientRandom ++ random)
    (hlen : clientRandom.length = 32) (haccepts : tcp.accepts = true :: accepts) :
    ∃ conn' outgoing, sendClientHello (tlsStart tcp conn) = .done (true, conn') ∧ conn' = { conn with
      tcp := ⟨tcp.incoming, tcp.answers, outgoing, accepts⟩
      clientRandom := clientRandom
      random := random
      clientSeqNum := 0
      serverSeqNum := 0
      transcript := sha256Update sha256Init (clientHello clientRandom) } := by
  have hsize : (clientHello clientRandom).length ≤ tlsMaxRecordLen + 96 := by
    rw [clientHello, length_handshakeMessage, clientHelloBody]
    simp only [length_append, length_cons, length_nil, hlen]
    decide
  refine ⟨_, tcp.outgoing ++ [recordBytes tlsContentHandshake 0x03 0x03 (clientHello clientRandom)], ?_, rfl⟩
  unfold sendClientHello
  rw [show (tlsStart tcp conn).random = clientRandom ++ random from hrandom, fillRandom_append hlen, done_bind]
  dsimp only [tlsStart]
  rw [← clientHello]
  generalize sha256Update sha256Init (clientHello clientRandom) = transcript
  rw [tlsSendRecord_eq _ _ hsize, recordHeader_append, TcpLink.send_true haccepts]

theorem sendChangeCipherSpec_eq (conn : TlsConn) (haccepts : conn.tcp.accepts = true :: accepts) :
    ∃ outgoing, sendChangeCipherSpec conn =
      .done (true, { conn with tcp := ⟨conn.tcp.incoming, conn.tcp.answers, outgoing, accepts⟩ }) := by
  refine ⟨conn.tcp.outgoing ++ [recordBytes tlsContentChangeCipherSpec 0x03 0x03 [0x01]], ?_⟩
  unfold sendChangeCipherSpec
  rw [tlsSendRecord_eq _ _ (by decide), recordHeader_append, TcpLink.send_true haccepts]

def clientFinished (conn : TlsConn) : List U8 :=
  handshakeMessage tlsHandshakeFinished (verifyData conn labelClientFinished)

theorem sendFinished_eq (conn : TlsConn) {iv : AesBlock} (hrandom : conn.random = iv.toList ++ random)
    (haccepts : conn.tcp.accepts = true :: accepts) : ∃ outgoing, sendFinished conn = .done (true, { conn with
      tcp := ⟨conn.tcp.incoming, conn.tcp.answers, outgoing, accepts⟩
      random := random
      clientSeqNum := conn.clientSeqNum + 1
      transcript := sha256Update conn.transcript (clientFinished conn) }) := by
  have hlen : (clientFinished conn).length ≤ tlsMaxRecordLen := by
    rw [clientFinished, length_handshakeMessage, verifyData, length_tlsPrf]
    decide
  unfold sendFinished
  dsimp only
  rw [← clientFinished]
  generalize clientFinished conn = finished at hlen
  generalize sha256Update conn.transcript finished = transcript
  have hsend := sendEncryptedRecord_eq { conn with transcript := transcript } tlsContentHandshake hlen hrandom
  dsimp only at hsend
  rw [TcpLink.send_true haccepts] at hsend
  exact ⟨_, hsend⟩

def serverFinished (conn : TlsConn) : List U8 :=
  [tlsHandshakeFinished, 0x00, 0x00, 0x0C] ++ verifyData conn labelServerFinished

theorem receiveServerFinished_eq {t1 t2 : TcpLink} {iv : AesBlock}
    (hccs : conn.tcp.Delivers (recordBytes tlsContentChangeCipherSpec 0x03 0x03 [0x01]) t1)
    (hfinished : t1.Delivers (recordBytes tlsContentHandshake 0x03 0x03 (sealRecord conn.serverRoundKeys
      conn.serverWriteMacKey conn.serverSeqNum tlsContentHandshake iv (serverFinished conn))) t2) :
    receiveServerFinished conn = .done { conn with tcp := t2, serverSeqNum := conn.serverSeqNum + 1 } := by
  have hlen : (serverFinished conn).length = 16 := by
    rfl
  have hsize := length_sealRecord conn.serverRoundKeys conn.serverWriteMacKey conn.serverSeqNum tlsContentHandshake iv
    (serverFinished conn)
  rw [hlen] at hsize
  have hread : tlsReadRecord t1 tlsFragmentLen = _ := hfinished.read (by rw [hsize]; decide) (by rw [hsize]; decide)
  have hreceive : receiveEncryptedRecord { conn with tcp := t1 } 64 = _ :=
    receiveEncryptedRecord_seal hread (show (serverFinished conn).length ≤ tlsMaxRecordLen by rw [hlen]; decide)
  rw [take_of_length_le (by omega)] at hreceive
  have hverify : (serverFinished conn).drop 4 = verifyData conn labelServerFinished := rfl
  have hhead : (serverFinished conn).headD 0 = tlsHandshakeFinished := rfl
  generalize serverFinished conn = finished at hreceive hlen hverify hhead
  unfold receiveServerFinished
  rw [hccs.read (by decide) (by decide)]
  dsimp only
  rw [if_neg (by decide), hreceive, done_bind]
  dsimp only
  rw [if_neg (by rw [hlen, hhead]; decide), if_pos hverify]
  rfl

end Steps

/-! ## The whole handshake -/

/-- The keys and the Finished do not depend on TCP and on the random bytes. -/
theorem clientFinished_frame (conn : TlsConn) (tcp : TcpLink) (random : List U8) :
    clientFinished { conn with tcp := tcp, random := random } = clientFinished conn := by
  unfold clientFinished verifyData
  dsimp only

theorem deriveKeys_frame (conn : TlsConn) (tcp : TcpLink) (random pms : List U8) :
    deriveKeys { conn with tcp := tcp, random := random } pms =
      { deriveKeys conn pms with tcp := tcp, random := random } := by
  unfold deriveKeys
  dsimp only

theorem orRefuse_true (conn : TlsConn) : orRefuse (.done (true, conn)) = .done conn := rfl

/-- The connection when the Finished of the peer is due, after a handshake with these parts. -/
def finishedConn (conn : TlsConn) (clientRandom serverRandom pms flight exchange random : List U8) : TlsConn :=
  let exchanged := deriveKeys { conn with
    clientRandom := clientRandom
    serverRandom := serverRandom
    clientSeqNum := 0
    serverSeqNum := 0
    transcript := sha256Update (sha256Update (sha256Update sha256Init (clientHello clientRandom)) flight) exchange } pms
  { exchanged with
    transcript := sha256Update exchanged.transcript (clientFinished exchanged)
    clientSeqNum := 1
    random := random }

/-- What a peer sends at the end, under the keys of the connection. -/
def serverEnding (finished : TlsConn) (iv : AesBlock) : List U8 :=
  recordBytes tlsContentChangeCipherSpec 0x03 0x03 [0x01] ++
    (recordBytes tlsContentHandshake 0x03 0x03 (sealRecord finished.serverRoundKeys finished.serverWriteMacKey 0
      tlsContentHandshake iv (serverFinished finished)) ++ [])

/-- TCP with a peer that sends `flight` and this end, when all calls succeed. -/
def peerLink (flight : List U8) (finished : TlsConn) (iv : AesBlock) : TcpLink where
  incoming := recordBytes tlsContentHandshake 0x03 0x03 flight ++ serverEnding finished iv
  answers := [some 5, some flight.length, some 5, some 1, some 5, some 80]
  outgoing := []
  accepts := [true, true, true, true]

theorem receiveServerFinished_ending (finished : TlsConn) (hseq : finished.serverSeqNum = 0) (iv : AesBlock)
    (outgoing : List (List U8)) : ∃ conn', receiveServerFinished { finished with
      tcp := ⟨serverEnding finished iv, [some 5, some 1, some 5, some 80], outgoing, []⟩ } = .done conn' := by
  have hsize := length_sealRecord finished.serverRoundKeys finished.serverWriteMacKey 0 tlsContentHandshake iv
    (serverFinished finished)
  have hlen : (serverFinished finished).length = 16 := by
    rfl
  rw [hlen] at hsize
  have hccs := @TcpLink.delivers_ready tlsContentChangeCipherSpec 0x03 0x03 [0x01]
    (recordBytes tlsContentHandshake 0x03 0x03 (sealRecord finished.serverRoundKeys finished.serverWriteMacKey 0
      tlsContentHandshake iv (serverFinished finished)) ++ []) [some 5, some 80] outgoing [] (by decide)
  have hfinished := @TcpLink.delivers_ready tlsContentHandshake 0x03 0x03 (sealRecord finished.serverRoundKeys
    finished.serverWriteMacKey 0 tlsContentHandshake iv (serverFinished finished)) [] [] outgoing [] (by
      intro hnil
      rw [hnil] at hsize
      exact absurd hsize (by decide))
  rw [hsize] at hfinished
  refine ⟨_, @receiveServerFinished_eq _ _ ⟨[], [], outgoing, []⟩ iv hccs ?_⟩
  rw [hseq]
  exact hfinished

section Run

variable {hello cert last : HandshakeMsg} {n e : Nat} {flight : List U8} (h : ShortFlight hello cert last n e flight)
  {k : Nat} (hk : 59 ≤ k) (hk' : k ≤ 512) (hlow : 2 ^ (8 * (k - 1)) ≤ n) (hhigh : n < 2 ^ (8 * k))
  {conn : TlsConn} {clientRandom pms ps random : List U8} {iv : AesBlock}
  (hconn : conn.random = clientRandom ++ (pms ++ (ps ++ (iv.toList ++ random)))) (hclient : clientRandom.length = 32)
  (hpms : pms.length = 46) (hps : nonzeroRandom (k - 3 - 48) (ps ++ (iv.toList ++ random)) = .done (ps, iv.toList ++ random))
  {exchange : List U8} (hexchange : exchangeMessage k (beValue (pkcs1Block ps ([0x03, 0x03] ++ pms)) ^
    (BitVec.ofNat 32 e).toNat % n) = exchange)

include h hk hk' hlow hhigh hconn hclient hpms hps hexchange

theorem tlsConnect_until_finished (rest : List U8) (answers : List (Option Nat)) :
    ∃ outgoing, tlsConnect (some ⟨recordBytes tlsContentHandshake 0x03 0x03 flight ++ rest,
        some 5 :: some flight.length :: answers, [], [true, true, true, true]⟩) conn =
      receiveServerFinished { finishedConn conn clientRandom (bytesAt hello.body 2 32) ([0x03, 0x03] ++ pms) flight
        exchange random with tcp := ⟨rest, answers, outgoing, []⟩ } := by
  have hn : n < 2 ^ 4096 := hhigh.trans_le (pow_le_pow_right₀ (by decide) (by omega))
  have hpms' : ([0x03, 0x03] ++ pms : List U8).length = 48 := by
    rw [length_append, hpms]
    rfl
  have hnonempty : flight ≠ [] := by
    rw [h.bytes]
    simp [HandshakeMsg.bytes]
  obtain ⟨conn1, outgoing1, h1, hconn1⟩ := sendClientHello_eq ⟨recordBytes tlsContentHandshake 0x03 0x03 flight ++ rest,
    some 5 :: some flight.length :: answers, [], [true, true, true, true]⟩ hconn hclient rfl
  have hread := (TcpLink.delivers_ready tlsContentHandshake 0x03 0x03 rest answers outgoing1 [true, true, true]
    hnonempty).read h.fits (h.fits.trans_lt (by decide))
  have hread1 : tlsReadRecord conn1.tcp tlsMaxRecordLen =
      (some (tlsContentHandshake, flight), ⟨rest, answers, outgoing1, [true, true, true]⟩) := by
    rw [hconn1]
    exact hread
  have h2 := receiveServerFlight_eq h hn hread1
  have h3 : fillRandom conn1.random 46 = .done (pms, ps ++ (iv.toList ++ random)) := by
    rw [hconn1]
    exact fillRandom_append hpms
  have hctx1 : conn1.transcript = sha256Update sha256Init (clientHello clientRandom) := by rw [hconn1]
  generalize hctx2 : sha256Update conn1.transcript flight = ctx2 at h2
  have h4 : sendClientKeyExchange { conn1 with
      tcp := ⟨rest, answers, outgoing1, [true, true, true]⟩
      transcript := ctx2
      serverRandom := bytesAt hello.body 2 32
      random := ps ++ (iv.toList ++ random) } (bignumOf n) (BitVec.ofNat 32 e) ([0x03, 0x03] ++ pms) = _ :=
    sendClientKeyExchange_eq (holdsNat_bignumOf hn) hk hk' hlow hhigh hpms' hps
  rw [TcpLink.send_true rfl, hexchange] at h4
  generalize hctx3 : sha256Update ctx2 exchange = ctx3 at h4
  obtain ⟨exchanged, hexchanged⟩ : ∃ c : TlsConn, c = deriveKeys { conn with
    clientRandom := clientRandom
    serverRandom := bytesAt hello.body 2 32
    clientSeqNum := 0
    serverSeqNum := 0
    transcript := ctx3 } ([0x03, 0x03] ++ pms) := ⟨_, rfl⟩
  obtain ⟨conn3, h4, hconn3⟩ : ∃ c, _ = Exec.done (true, c) ∧ c = _ := ⟨_, h4, rfl⟩
  have hderived : deriveKeys conn3 ([0x03, 0x03] ++ pms) =
      { exchanged with tcp := conn3.tcp, random := iv.toList ++ random } := by
    rw [hexchanged, ← deriveKeys_frame, hconn3, hconn1]
  obtain ⟨outgoing5, h5⟩ := sendChangeCipherSpec_eq (deriveKeys conn3 ([0x03, 0x03] ++ pms))
    (show _ = [true, true] by rw [hderived, hconn3])
  obtain ⟨outgoing6, h6⟩ := sendFinished_eq { deriveKeys conn3 ([0x03, 0x03] ++ pms) with
    tcp := ⟨rest, answers, outgoing5, [true]⟩ } (show _ = iv.toList ++ random by rw [hderived]) rfl
  have htcp3 : (deriveKeys conn3 ([0x03, 0x03] ++ pms)).tcp.incoming = rest ∧
      (deriveKeys conn3 ([0x03, 0x03] ++ pms)).tcp.answers = answers := by
    rw [hderived, hconn3]
    exact ⟨rfl, rfl⟩
  rw [htcp3.1, htcp3.2] at h5
  refine ⟨outgoing6, ?_⟩
  unfold tlsConnect
  dsimp only
  rw [← tlsStart, h1, orRefuse_true, done_bind, h2, done_bind, h3, done_bind]
  rw [h4, orRefuse_true, done_bind, h5, orRefuse_true, done_bind, h6, orRefuse_true, done_bind]
  have hseq : exchanged.clientSeqNum + 1 = 1 := by
    rw [hexchanged]
    rfl
  unfold finishedConn
  rw [← hctx1, hctx2, hctx3, ← hexchanged, hderived]
  rw [hseq, clientFinished_frame exchanged ⟨rest, answers, outgoing5, [true]⟩ (iv.toList ++ random)]

/-- **Any ServerHello is accepted**: a peer with a key that sends its flight in one record, and then ChangeCipherSpec and the
Finished of the transcript, has a connection. -/
theorem tlsConnect_accepts (iv' : AesBlock) :
    let finished := finishedConn conn clientRandom (bytesAt hello.body 2 32) ([0x03, 0x03] ++ pms) flight exchange random
    ∃ conn', tlsConnect (some (peerLink flight finished iv')) conn = .done conn' := by
  intro finished
  obtain ⟨outgoing, hrun⟩ := tlsConnect_until_finished h hk hk' hlow hhigh hconn hclient hpms hps hexchange
    (serverEnding finished iv') [some 5, some 1, some 5, some 80]
  rw [peerLink, hrun]
  exact receiveServerFinished_ending _ rfl iv' outgoing

end Run

/-! ## A peer -/

/-- A modulus of 59 bytes. -/
def peerModulus : Nat := 2 ^ 464

/-- A certificate with this modulus and the exponent 65537. -/
def peerCertificate : List U8 :=
  [0x30, 0x58, 0x30, 0x56, 0x02, 0x01, 0x07, 0x30, 0x00, 0x30, 0x00, 0x30, 0x00, 0x30, 0x00, 0x30, 0x49, 0x30, 0x00, 0x03, 0x45,
    0x00, 0x30, 0x42, 0x02, 0x3B] ++ (0x01 :: List.replicate 58 0x00) ++ [0x02, 0x03, 0x01, 0x00, 0x01]

theorem peerCertificate_ok : Certificate peerModulus 65537 peerCertificate := by
  have hmodulus : DerInteger peerModulus (0x01 :: List.replicate 58 0x00) :=
    ⟨by decide, by decide +kernel, by decide, fun b rest h => absurd (List.cons.inj h).1 (by decide)⟩
  have hexponent : DerInteger 65537 [0x01, 0x00, 0x01] :=
    ⟨by decide, by decide, by decide, fun b rest h => absurd (List.cons.inj h).1 (by decide)⟩
  have hempty : SomeElement [0x30, 0x00] := ⟨0x30, [], .short (by decide)⟩
  have hkey : RsaPublicKey peerModulus 65537 _ :=
    ⟨_, _, _, _, hmodulus, hexponent, .short (by decide), .short (by decide), .short (by decide)⟩
  have hspki : SubjectPublicKeyInfo peerModulus 65537 _ :=
    ⟨_, _, _, hempty, hkey, .short (by decide), .short (by decide)⟩
  have htbs : TbsCertificate peerModulus 65537 _ :=
    ⟨[], [0x07], _, _, _, _, _, _, [], Or.inl rfl, .short (by decide), hempty, hempty, hempty, hempty, hspki,
      .short (by decide)⟩
  exact ⟨_, [], htbs, .short (by decide)⟩

def peerCert : HandshakeMsg := ⟨tlsHandshakeCertificate, [0x00, 0x00, 0x5D, 0x00, 0x00, 0x5A] ++ peerCertificate⟩

def peerDone : HandshakeMsg := ⟨tlsHandshakeServerHelloDone, []⟩

/-- A client with enough random bytes. -/
def readyClient : TlsConn := zeroKeyConn ⟨[], [], [], []⟩ (List.replicate 102 0x01)

/-- Its flight, after `hello`. -/
def peerFlight (hello : HandshakeMsg) : List U8 := hello.bytes ++ (peerCert.bytes ++ peerDone.bytes)

/-- The peer, for this client. -/
def helloPeer (hello : HandshakeMsg) : TcpLink :=
  peerLink (peerFlight hello) (finishedConn readyClient (List.replicate 32 0x01) (bytesAt hello.body 2 32)
    ([0x03, 0x03] ++ List.replicate 46 0x01) (peerFlight hello)
    (exchangeMessage 59 (beValue (pkcs1Block (List.replicate 8 0x01) ([0x03, 0x03] ++ List.replicate 46 0x01)) ^
      (BitVec.ofNat 32 65537).toNat % peerModulus)) []) (Vector.replicate 16 0)

theorem helloPeer_accepted (hello : HandshakeMsg) (htype : hello.msgType = tlsHandshakeServerHello)
    (hmin : 34 ≤ hello.body.length) (hmax : hello.body.length ≤ 1000) :
    (∃ conn', tlsConnect (some (helloPeer hello)) readyClient = .done conn') ∧
      ∃ rest, serverFlight (helloPeer hello).incoming = some ([hello, peerCert, peerDone], rest) := by
  have hlen : (peerFlight hello).length ≤ tlsMaxRecordLen := by
    unfold peerFlight
    simp only [length_append, length_handshakeMsg_bytes]
    rw [show peerCert.body.length = 96 from rfl, show peerDone.body.length = 0 from rfl]
    unfold tlsMaxRecordLen
    omega
  constructor
  · have hrandom : readyClient.random = List.replicate 32 0x01 ++ (List.replicate 46 0x01 ++ (List.replicate 8 0x01 ++
        ((Vector.replicate 16 0x01 : AesBlock).toList ++ []))) := by decide
    exact tlsConnect_accepts ⟨htype, hmin, rfl, ⟨by decide, by decide⟩, peerCertificate_ok, by decide, rfl, rfl, hlen⟩
      (by decide) (by decide) (by decide +kernel) (by decide +kernel) hrandom (by decide) (by decide) rfl rfl _
  · have hparse : parseMessages (peerFlight hello) = some [hello, peerCert, peerDone] := by
      unfold peerFlight
      rw [parseMessages_cons _ _ (by omega), parseMessages_cons _ _ (by decide),
        ← append_nil peerDone.bytes, parseMessages_cons _ _ (by decide), parseMessages]
      rfl
    exact ⟨_, (serverFlight_record 0x03 0x03 hlen hparse).trans (if_pos (by simp [peerDone]))⟩

end MinicOs
