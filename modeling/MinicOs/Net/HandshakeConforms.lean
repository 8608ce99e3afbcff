import MinicOs.Net.HandshakeAccepts

/-!
# What a handshake guarantees

A handshake should be one ServerHello that chooses what the ClientHello offered, one Certificate and one ServerHelloDone,
and the Finished of the transcript. The Finished is checked; about the flight the code only knows that a Certificate and a
ServerHelloDone were in it.
-/

namespace MinicOs

open List Exec

/-- A ServerHello of TLS 1.2 that chooses the suite of the ClientHello and no compression. The session id in front of them
has the length that byte 34 gives. -/
structure HelloOk (hello : HandshakeMsg) : Prop where
  version : bytesAt hello.body 0 2 = [0x03, 0x03]
  cipherSuite : bytesAt hello.body (35 + (hello.body.getD 34 0).toNat) 2 = [0x00, 0x3C]
  compression : bytesAt hello.body (37 + (hello.body.getD 34 0).toNat) 1 = [0x00]

/-- What the code takes for granted about a flight: three messages, the first of them such a ServerHello, the last of them
not a Certificate, and a certificate that lies in the second. -/
def FlightOk (messages : List HandshakeMsg) : Prop :=
  ∃ hello cert last, messages = [hello, cert, last] ∧ hello.msgType = tlsHandshakeServerHello ∧ HelloOk hello ∧
    cert.CertInside ∧ last.msgType ≠ tlsHandshakeCertificate

/-- The flight that `tls_connect` reads. -/
def FlightOf (tcp : TcpLink) (conn : TlsConn) (flight : ServerFlight) : Prop :=
  ∃ conn1, sendClientHello (tlsStart tcp conn) = .done (true, conn1) ∧ receiveServerFlight conn1 = .done flight

/-- A ServerHello, a Certificate and a ServerHelloDone, with the random value and the key that the connection uses in their
bodies. -/
def FlightConforms (tcp : TcpLink) (conn conn' : TlsConn) (messages : List HandshakeMsg) : Prop :=
  ∃ hello cert last flight, messages = [hello, cert, last] ∧ hello.msgType = tlsHandshakeServerHello ∧
    cert.msgType = tlsHandshakeCertificate ∧ last.msgType = tlsHandshakeServerHelloDone ∧ HelloOk hello ∧
    conn'.serverRandom = bytesAt hello.body 2 32 ∧ cert.CertInside ∧ FlightOf tcp conn flight ∧
    x509ExtractRsaPubkey (Cells.ofList cert.certificate) cert.certificate.length (Cells.unset bignumLimbs) =
      .done (flight.serverModulus, flight.serverExponent)

/-- ChangeCipherSpec and a Finished under the keys of the connection, with the verify data of its transcript. -/
def FinishedConforms (conn' : TlsConn) (rest : List U8) : Prop :=
  ∃ major minor major' minor' iv len, len.length = 3 ∧
    rest = recordBytes tlsContentChangeCipherSpec major minor [0x01] ++
      (recordBytes tlsContentHandshake major' minor' (sealRecord conn'.serverRoundKeys conn'.serverWriteMacKey 0
        tlsContentHandshake iv (tlsHandshakeFinished :: len ++ verifyData conn' labelServerFinished)) ++ conn'.tcp.incoming)

/-- The transcript is that of the messages which were sent and received. -/
def TranscriptConforms (tcp : TcpLink) (conn' : TlsConn) (messages : List HandshakeMsg) : Prop :=
  ∃ hello exchange finished iv,
    conn'.tcp.outgoing = tcp.outgoing ++ [recordBytes tlsContentHandshake 0x03 0x03 hello,
      recordBytes tlsContentHandshake 0x03 0x03 exchange, recordBytes tlsContentChangeCipherSpec 0x03 0x03 [0x01],
      recordBytes tlsContentHandshake 0x03 0x03 (sealRecord conn'.clientRoundKeys conn'.clientWriteMacKey 0
        tlsContentHandshake iv finished)] ∧
    conn'.transcript = sha256Update sha256Init
      (hello ++ messages.flatMap HandshakeMsg.bytes ++ exchange ++ finished)

/-- A handshake as it should be: on `tcp`, from `conn` to `conn'`, when the peer sent `messages` and then `rest`. -/
structure Conforms (tcp : TcpLink) (conn conn' : TlsConn) (messages : List HandshakeMsg) (rest : List U8) : Prop where
  flight : FlightConforms tcp conn conn' messages
  finished : FinishedConforms conn' rest
  transcript : TranscriptConforms tcp conn' messages

section Connect

variable {tcp : TcpLink} {conn conn' : TlsConn}

theorem sendClientHello_done {sent : Bool} (h : sendClientHello conn = .done (sent, conn')) :
    ∃ hello clientRandom random, conn' = { conn with
      clientRandom := clientRandom, random := random, transcript := sha256Update conn.transcript hello,
      tcp := (conn.tcp.send (recordBytes tlsContentHandshake 0x03 0x03 hello)).2 } := by
  obtain ⟨⟨clientRandom, random⟩, -, h⟩ := bind_eq_done.mp h
  dsimp only at h
  generalize handshakeMessage tlsHandshakeClientHello (clientHelloBody clientRandom) = hello at h
  refine ⟨hello, clientRandom, random, ?_⟩
  generalize sha256Update conn.transcript hello = transcript at h ⊢
  exact tlsSendRecord_done h

theorem sendFinished_done {sent : Bool} (h : sendFinished conn = .done (sent, conn')) :
    ∃ finished iv random, conn' = { conn with
      random := random, clientSeqNum := conn.clientSeqNum + 1, transcript := sha256Update conn.transcript finished,
      tcp := (conn.tcp.send (recordBytes tlsContentHandshake 0x03 0x03 (sealRecord conn.clientRoundKeys
        conn.clientWriteMacKey conn.clientSeqNum tlsContentHandshake iv finished))).2 } := by
  unfold sendFinished at h
  dsimp only at h
  have hlen : (handshakeMessage tlsHandshakeFinished (verifyData conn labelClientFinished)).length ≤ tlsMaxRecordLen := by
    rw [length_handshakeMessage]
    unfold verifyData
    rw [length_tlsPrf]
    decide
  generalize handshakeMessage tlsHandshakeFinished (verifyData conn labelClientFinished) = finished at h hlen
  generalize htranscript : sha256Update conn.transcript finished = transcript at h
  obtain ⟨iv, random, hconn⟩ := sendEncryptedRecord_done hlen h
  refine ⟨finished, iv, random, ?_⟩
  rw [htranscript]
  exact hconn

theorem receiveServerFlight_done {flight : ServerFlight} (h : receiveServerFlight conn = .done flight) :
    ∃ ms, serverFlight conn.tcp.incoming = some (ms, flight.conn.tcp.incoming) ∧
      Processed ms ⟨conn.transcript, conn.serverRandom, Cells.unset bignumLimbs, 0, false, false⟩ flight.view ∧
      flight.conn = { conn with
        tcp := flight.conn.tcp, transcript := flight.conn.transcript, serverRandom := flight.conn.serverRandom } ∧
      flight.gotDone = true ∧ flight.gotCert = true ∧ flight.conn.tcp.outgoing = conn.tcp.outgoing := by
  obtain ⟨s, hloop, h⟩ := bind_eq_done.mp h
  split at h
  · rename_i hcert
    obtain rfl := Exec.done.inj h
    obtain ⟨ms, hms, hprocessed, hrest, hdone, hout⟩ := flightRecords_eq rfl hloop
    exact ⟨ms, hms, hprocessed, hrest, hdone, hcert, hout⟩
  · simp at h

/-- What every handshake that succeeds has in common. -/
theorem tlsConnect_done (h : tlsConnect (some tcp) conn = .done conn') :
    ∃ messages rest transcript flight, serverFlight tcp.incoming = some (messages, rest) ∧ FlightOf tcp conn flight ∧
      Processed messages ⟨transcript, conn.serverRandom, Cells.unset bignumLimbs, 0, false, false⟩ flight.view ∧
      flight.gotDone = true ∧ flight.gotCert = true ∧ conn'.serverRandom = flight.conn.serverRandom ∧
      FinishedConforms conn' rest ∧ TranscriptConforms tcp conn' messages := by
  obtain ⟨conn1, h1, h⟩ := bind_eq_done.mp h
  obtain ⟨flight, h2, h⟩ := bind_eq_done.mp h
  obtain ⟨⟨pms, random⟩, -, h⟩ := bind_eq_done.mp h
  obtain ⟨conn3, h3, h⟩ := bind_eq_done.mp h
  obtain ⟨conn5, h5, h⟩ := bind_eq_done.mp h
  obtain ⟨conn6, h6, h⟩ := bind_eq_done.mp h
  have h1 := orRefuse_done h1
  have h3 := orRefuse_done h3
  have h5 := tlsSendRecord_done (orRefuse_done h5)
  obtain ⟨hello, clientRandom, random1, hconn1⟩ := sendClientHello_done h1
  obtain ⟨messages, hflight, hprocessed, hconn2, hdone, hcert, hout2⟩ := receiveServerFlight_done h2
  obtain ⟨exchange, random3, hconn3⟩ := sendClientKeyExchange_done h3
  obtain ⟨finished, iv, random6, hconn6⟩ := sendFinished_done (orRefuse_done h6)
  obtain ⟨⟨major, minor, major', minor', iv', len, hlen, hrest⟩, hout', hconn'⟩ := receiveServerFinished_done h
  have hserverSeq : conn6.serverSeqNum = 0 := by
    rw [hconn6, h5]
    show conn3.serverSeqNum = 0
    rw [hconn3]
    show flight.conn.serverSeqNum = 0
    rw [hconn2, hconn1]
  have hclientSeq : conn5.clientSeqNum = 0 := by
    rw [h5]
    show conn3.clientSeqNum = 0
    rw [hconn3]
    show flight.conn.clientSeqNum = 0
    rw [hconn2, hconn1]
  have hrandom : conn'.serverRandom = flight.conn.serverRandom := by
    rw [hconn', hconn6, h5]
    show conn3.serverRandom = _
    rw [hconn3]
  have hrest' : flight.conn.tcp.incoming = conn6.tcp.incoming := by
    rw [hconn6, h5]
    show _ = conn3.tcp.incoming
    rw [hconn3]
    rfl
  have htranscript : conn'.transcript = sha256Update (sha256Update flight.conn.transcript exchange) finished := by
    have h6 : conn'.transcript = sha256Update conn5.transcript finished := by rw [hconn', hconn6]
    have h5 : conn5.transcript = conn3.transcript := by
      rw [h5]
      rfl
    have h3 : conn3.transcript = sha256Update flight.conn.transcript exchange := by rw [hconn3]
    rw [h6, h5, h3]
  have htranscript1 : conn1.transcript = sha256Update sha256Init hello := by rw [hconn1]
  have hverify : verifyData conn6 labelServerFinished = verifyData conn' labelServerFinished := by
    unfold verifyData
    rw [hconn']
  have hincoming : conn1.tcp.incoming = tcp.incoming := by
    rw [hconn1]
    rfl
  refine ⟨messages, flight.conn.tcp.incoming, conn1.transcript, flight, hincoming ▸ hflight, ⟨conn1, h1, h2⟩, ?_, hdone, hcert,
    hrandom, ⟨major, minor, major', minor', iv', len, hlen, ?_⟩, hello, exchange, finished, iv, ?_, ?_⟩
  · have hserverRandom : conn1.serverRandom = conn.serverRandom := by rw [hconn1]
    rw [← hserverRandom]
    exact hprocessed
  · have hkeys : conn'.serverRoundKeys = conn6.serverRoundKeys ∧ conn'.serverWriteMacKey = conn6.serverWriteMacKey := by
      rw [hconn']
      exact ⟨rfl, rfl⟩
    rw [hrest', hrest, hserverSeq, hverify, hkeys.1, hkeys.2]
  · have hkeys : conn'.clientRoundKeys = conn5.clientRoundKeys ∧ conn'.clientWriteMacKey = conn5.clientWriteMacKey := by
      rw [hconn', hconn6]
      exact ⟨rfl, rfl⟩
    have hout6 : conn6.tcp.outgoing = conn5.tcp.outgoing ++ [recordBytes tlsContentHandshake 0x03 0x03
        (sealRecord conn5.clientRoundKeys conn5.clientWriteMacKey conn5.clientSeqNum tlsContentHandshake iv finished)] := by
      rw [hconn6]
      rfl
    have hout5 : conn5.tcp.outgoing = conn3.tcp.outgoing ++ [recordBytes tlsContentChangeCipherSpec 0x03 0x03 [0x01]] := by
      rw [h5]
      rfl
    have hout3 : conn3.tcp.outgoing = flight.conn.tcp.outgoing ++ [recordBytes tlsContentHandshake 0x03 0x03 exchange] := by
      rw [hconn3]
      rfl
    have hout1 : conn1.tcp.outgoing = tcp.outgoing ++ [recordBytes tlsContentHandshake 0x03 0x03 hello] := by
      rw [hconn1]
      rfl
    rw [hout', hout6, hclientSeq, hout5, hout3, hout2, hout1, hkeys.1, hkeys.2]
    simp only [append_assoc, cons_append, nil_append]
  · rw [htranscript, sha256Update_append]
    have hview : flight.conn.transcript = _ := hprocessed.transcript
    rw [hview, sha256Update_append, htranscript1, sha256Update_append]
    simp only [append_assoc]

theorem length_of_bytesAt {l xs : List U8} {p n : Nat} (h : bytesAt l p n = xs) (hn : xs.length = n) (hpos : 0 < n) :
    p + n ≤ l.length := by
  have hlen := congrArg List.length h
  rw [hn, bytesAt, length_take, length_drop] at hlen
  omega

/-- **The handshake conforms when the flight does.** -/
theorem tlsConnect_conforms_iff (h : tlsConnect (some tcp) conn = .done conn') :
    ∃ messages rest, serverFlight tcp.incoming = some (messages, rest) ∧
      (Conforms tcp conn conn' messages rest ↔ FlightOk messages) := by
  obtain ⟨messages, rest, transcript, flight, hflight, hof, hprocessed, hdone, hcert, hrandom, hfinished, htranscript⟩ :=
    tlsConnect_done h
  refine ⟨messages, rest, hflight, ?_, ?_⟩
  · rintro ⟨⟨hello, cert, last, -, rfl, hhello, -, hlast, hok, -, hinside, -⟩, -, -⟩
    refine ⟨hello, cert, last, rfl, hhello, hok, hinside, ?_⟩
    rw [hlast]
    decide
  · rintro ⟨hello, cert, last, rfl, hhello, hok, hinside, hlast⟩
    have hsomeDone := hprocessed.gotDone.symm.trans hdone
    have hsomeCert := hprocessed.gotCert.symm.trans hcert
    simp only [any_cons, any_nil, Bool.or_false, Bool.false_or, Bool.or_eq_true, decide_eq_true_eq] at hsomeCert hsomeDone
    rw [hhello] at hsomeCert hsomeDone
    have hcertType := (hsomeCert.resolve_left (by decide)).resolve_right hlast
    rw [hcertType] at hsomeDone
    have hlastType := (hsomeDone.resolve_left (by decide)).resolve_left (by decide)
    have hlastHello : last.msgType ≠ tlsHandshakeServerHello := by
      rw [hlastType]
      decide
    have hcertHello : cert.msgType ≠ tlsHandshakeServerHello := by
      rw [hcertType]
      decide
    have hhelloCert : hello.msgType ≠ tlsHandshakeCertificate := by
      rw [hhello]
      decide
    -- the random value comes from the first message, the key from the second
    obtain _ | ⟨hstep1, _ | ⟨hstep2, _ | ⟨hstep3, _ | _⟩⟩⟩ := hprocessed
    refine ⟨⟨hello, cert, last, flight, rfl, hhello, hcertType, hlastType, hok, ?_, hinside, hof, ?_⟩, hfinished, htranscript⟩
    · rw [hrandom]
      calc flight.view.serverRandom = _ := hstep3.sameRandom hlastHello
        _ = _ := hstep2.sameRandom hcertHello
        _ = bytesAt hello.body 2 32 := hstep1.random hhello (by have := length_of_bytesAt hok.compression rfl (by decide); omega)
    · have hkey := hstep2.key hcertType hinside
      have hsame1 := (hstep1.sameKey hhelloCert).1
      have hsame3 := hstep3.sameKey hlast
      rw [hsame1] at hkey
      have hresult := hkey (Cells.length_unset _)
      rw [← hsame3.1, ← hsame3.2] at hresult
      exact hresult

end Connect

/-- A ServerHello that the client asked for. -/
def goodHello : HandshakeMsg :=
  ⟨tlsHandshakeServerHello, [0x03, 0x03] ++ List.replicate 32 0x00 ++ [0x00, 0x00, 0x3C, 0x00]⟩

theorem tlsConnect_conforms_goodHello :
    ∃ conn' messages rest, tlsConnect (some (helloPeer goodHello)) readyClient = .done conn' ∧
      serverFlight (helloPeer goodHello).incoming = some (messages, rest) ∧ FlightOk messages ∧
      Conforms (helloPeer goodHello) readyClient conn' messages rest := by
  obtain ⟨⟨conn', hconn⟩, rest, hflight⟩ := helloPeer_accepted goodHello rfl (by decide) (by decide)
  obtain ⟨messages, rest', hflight', hiff⟩ := tlsConnect_conforms_iff hconn
  obtain ⟨rfl, rfl⟩ := Prod.mk.inj (Option.some.inj (hflight.symm.trans hflight'))
  have hok : FlightOk [goodHello, peerCert, peerDone] :=
    ⟨_, _, _, rfl, rfl, ⟨by decide, by decide, by decide⟩, ⟨by decide, by decide⟩, by decide⟩
  exact ⟨conn', _, rest, hconn, hflight, hok, hiff.mpr hok⟩

/-- A ServerHello of TLS 1.0 that chooses another suite and compression. -/
def oldHello : HandshakeMsg :=
  ⟨tlsHandshakeServerHello, [0x03, 0x01] ++ List.replicate 32 0x00 ++ [0x00, 0x00, 0x35, 0x01]⟩

/-- The handshake succeeds, although the ServerHello is not one the client asked for. -/
theorem tlsConnect_accepts_oldHello :
    ∃ conn' messages rest, tlsConnect (some (helloPeer oldHello)) readyClient = .done conn' ∧
      serverFlight (helloPeer oldHello).incoming = some (messages, rest) ∧
      ¬ Conforms (helloPeer oldHello) readyClient conn' messages rest := by
  obtain ⟨⟨conn', hconn⟩, rest, hflight⟩ := helloPeer_accepted oldHello rfl (by decide) (by decide)
  refine ⟨conn', _, rest, hconn, hflight, fun hconforms => ?_⟩
  obtain ⟨hello, cert, last, flight, hmessages, -, -, -, hok, -⟩ := hconforms.flight
  obtain ⟨rfl, -⟩ := List.cons.inj hmessages
  exact absurd hok.version (by decide)

end MinicOs
