import MinicOs.Net.TlsRecord
import MinicOs.Security.X509Local

/-!
# The handshake

`receive_server_flight` hashes every handshake message, takes the random value of a ServerHello and the key of a
Certificate wherever they come, and stops at the end of a record with a ServerHelloDone.
-/

namespace MinicOs

open List Exec Cells Nat

/-! ## Messages -/

structure HandshakeMsg where
  msgType : U8
  body : List U8

namespace HandshakeMsg

/-- The message on the wire. -/
def bytes (m : HandshakeMsg) : List U8 := [m.msgType] ++ beBytes 3 m.body.length ++ m.body

/-- The length of the first certificate of a Certificate message. -/
def certLen (m : HandshakeMsg) : Nat := beValue (bytesAt m.body 3 3)

/-- The first certificate lies in the message. -/
def CertInside (m : HandshakeMsg) : Prop := 6 ≤ m.body.length ∧ 6 + m.certLen ≤ m.body.length

/-- The first certificate. -/
def certificate (m : HandshakeMsg) : List U8 := bytesAt m.body 6 m.certLen

end HandshakeMsg

/-- The messages a record is made of. -/
def parseMessages : List U8 → Option (List HandshakeMsg)
  | [] => some []
  | msgType :: b0 :: b1 :: b2 :: rest =>
    if beValue [b0, b1, b2] ≤ rest.length then
      (parseMessages (rest.drop (beValue [b0, b1, b2]))).map (⟨msgType, rest.take (beValue [b0, b1, b2])⟩ :: ·)
    else none
  | _ => none
termination_by l => l.length
decreasing_by
  simp only [length_drop, length_cons]
  omega

/-- The plaintext messages a stream begins with, up to the end of the record with the first ServerHelloDone, and what is
behind them. -/
def serverFlight : List U8 → Option (List HandshakeMsg × List U8)
  | contentType :: _ :: _ :: b3 :: b4 :: rest =>
    if contentType = tlsContentHandshake ∧ beValue [b3, b4] ≤ tlsMaxRecordLen ∧ beValue [b3, b4] ≤ rest.length then
      match parseMessages (rest.take (beValue [b3, b4])) with
      | none => none
      | some ms =>
        if ms.any (·.msgType = tlsHandshakeServerHelloDone) then some (ms, rest.drop (beValue [b3, b4]))
        else (serverFlight (rest.drop (beValue [b3, b4]))).map fun r => (ms ++ r.1, r.2)
    else none
  | _ => none
termination_by l => l.length
decreasing_by
  simp only [length_drop, length_cons]
  omega

theorem parseMessages_cons (m : HandshakeMsg) (rest : List U8) (hlen : m.body.length < 2 ^ 24) :
    parseMessages (m.bytes ++ rest) = (parseMessages rest).map (m :: ·) := by
  obtain ⟨b0, b1, b2, hbytes⟩ : ∃ b0 b1 b2, beBytes 3 m.body.length = [b0, b1, b2] := ⟨_, _, _, rfl⟩
  have hvalue : beValue [b0, b1, b2] = m.body.length := by
    rw [← hbytes, beValue_beBytes, mod_eq_of_lt hlen]
  have hcons : m.bytes ++ rest = m.msgType :: b0 :: b1 :: b2 :: (m.body ++ rest) := by
    unfold HandshakeMsg.bytes
    rw [hbytes]
    simp only [cons_append, nil_append]
  rw [hcons, parseMessages, hvalue, if_pos (by rw [length_append]; omega), take_left, drop_left]

variable {ms : List HandshakeMsg}

theorem serverFlight_record (major minor : U8) {payload rest : List U8} (hlen : payload.length ≤ tlsMaxRecordLen)
    (hms : parseMessages payload = some ms) : serverFlight (recordBytes tlsContentHandshake major minor payload ++ rest) =
      if ms.any (·.msgType = tlsHandshakeServerHelloDone) then some (ms, rest)
      else (serverFlight rest).map fun r => (ms ++ r.1, r.2) := by
  have hmax : tlsMaxRecordLen = 1200 := rfl
  obtain ⟨b3, b4, hbytes⟩ : ∃ b3 b4, beBytes 2 payload.length = [b3, b4] := ⟨_, _, rfl⟩
  have hvalue : beValue [b3, b4] = payload.length := by
    rw [← hbytes, beValue_beBytes, mod_eq_of_lt (by omega)]
  have hcons : recordBytes tlsContentHandshake major minor payload ++ rest =
      tlsContentHandshake :: major :: minor :: b3 :: b4 :: (payload ++ rest) := by
    unfold recordBytes
    rw [hbytes]
    simp only [cons_append, nil_append]
  rw [hcons, serverFlight, hvalue, if_pos ⟨rfl, hlen, by rw [length_append]; omega⟩, take_left, drop_left, hms]

/-! ## What a message does -/

/-- What `receive_server_flight` has found so far, without the connection below it. -/
structure FlightView where
  transcript : Sha256Ctx
  serverRandom : List U8
  serverModulus : Limbs
  serverExponent : U32
  gotDone : Bool
  gotCert : Bool

/-- What a state of `receive_server_flight` has found. -/
def ServerFlight.view (s : ServerFlight) : FlightView :=
  ⟨s.conn.transcript, s.conn.serverRandom, s.serverModulus, s.serverExponent, s.gotDone, s.gotCert⟩

/-- The rest of the connection is the same, except for TCP. -/
def ServerFlight.SameRest (s s' : ServerFlight) : Prop :=
  s'.conn = { s.conn with
    tcp := s'.conn.tcp
    transcript := s'.conn.transcript
    serverRandom := s'.conn.serverRandom }

/-- What a message does. The random value and the key are those of the message if they lie in it. -/
structure MsgStep (m : HandshakeMsg) (v v' : FlightView) : Prop where
  transcript : v'.transcript = sha256Update v.transcript m.bytes
  gotDone : v'.gotDone = (v.gotDone || m.msgType = tlsHandshakeServerHelloDone)
  gotCert : v'.gotCert = (v.gotCert || m.msgType = tlsHandshakeCertificate)
  random : m.msgType = tlsHandshakeServerHello → 34 ≤ m.body.length → v'.serverRandom = bytesAt m.body 2 32
  sameRandom : m.msgType ≠ tlsHandshakeServerHello → v'.serverRandom = v.serverRandom
  key : m.msgType = tlsHandshakeCertificate → m.CertInside → v.serverModulus.length = bignumLimbs →
    x509ExtractRsaPubkey (ofList m.certificate) m.certificate.length v.serverModulus =
      .done (v'.serverModulus, v'.serverExponent)
  sameKey : m.msgType ≠ tlsHandshakeCertificate →
    v'.serverModulus = v.serverModulus ∧ v'.serverExponent = v.serverExponent

/-- What messages do, one after the other. -/
inductive Processed : List HandshakeMsg → FlightView → FlightView → Prop
  | nil (v : FlightView) : Processed [] v v
  | cons {m : HandshakeMsg} {ms : List HandshakeMsg} {v v1 v2 : FlightView} (h : MsgStep m v v1) (hs : Processed ms v1 v2) :
      Processed (m :: ms) v v2

variable {v : FlightView}

theorem Processed.append {ms' : List HandshakeMsg} {v1 v2 : FlightView} (h : Processed ms v v1)
    (h' : Processed ms' v1 v2) : Processed (ms ++ ms') v v2 := by
  induction h with
  | nil v => exact h'
  | cons hm _ ih => exact .cons hm (ih h')

variable {v' : FlightView}

theorem Processed.transcript (h : Processed ms v v') :
    v'.transcript = sha256Update v.transcript (ms.flatMap HandshakeMsg.bytes) := by
  induction h with
  | nil v => rfl
  | cons hm _ ih => rw [ih, hm.transcript, sha256Update_append, flatMap_cons]

theorem Processed.gotDone (h : Processed ms v v') :
    v'.gotDone = (v.gotDone || ms.any (·.msgType = tlsHandshakeServerHelloDone)) := by
  induction h with
  | nil v => rw [any_nil, Bool.or_false]
  | cons hm _ ih => rw [ih, hm.gotDone, any_cons, Bool.or_assoc]

theorem Processed.gotCert (h : Processed ms v v') :
    v'.gotCert = (v.gotCert || ms.any (·.msgType = tlsHandshakeCertificate)) := by
  induction h with
  | nil v => rw [any_nil, Bool.or_false]
  | cons hm _ ih => rw [ih, hm.gotCert, any_cons, Bool.or_assoc]

/-! ## The loop over a record -/

variable {recordBuf : Cells U8} {payload : List U8} {s s' : ServerFlight}

variable {p : Nat}

theorem cellsBytes_eq (h : recordBuf.Starts payload) {n : Nat} (hle : p + n ≤ payload.length) :
    cellsBytes recordBuf p n = .done (bytesAt payload p n) := by
  have hlen := length_bytesAt hle
  have hcontents := contents_take ((h.drop p).take n)
  rw [show ((payload.drop p).take n).length = n from hlen] at hcontents
  unfold cellsBytes
  rw [hcontents, done_bind, show (payload.drop p).take n = bytesAt payload p n from rfl, if_pos hlen]
  rfl

theorem cellsU24_eq (h : recordBuf.Starts payload) (hle : p + 3 ≤ payload.length) :
    cellsU24 recordBuf p = .done (beValue (bytesAt payload p 3)) := by
  unfold cellsU24
  simp (disch := omega) only [read_starts h, done_bind, bytesAt_succ]
  have hvalue := or_bytes 0 (payload.get ⟨p, by omega⟩) (payload.get ⟨p + 1, by omega⟩) (payload.get ⟨p + 2, by omega⟩)
  rw [show (0 : U8).toNat <<< 24 = 0 from rfl, zero_or] at hvalue
  rw [hvalue, beValue_cons 0, show (0 : U8).toNat = 0 from rfl, zero_mul, zero_add]
  rfl

theorem bytesAt_body {m : HandshakeMsg} {bodyOff n : Nat} (hbody : bytesAt payload bodyOff m.body.length = m.body)
    (hle : p + n ≤ m.body.length) : bytesAt payload (bodyOff + p) n = bytesAt m.body p n := by
  rw [bytesAt_bytesAt payload bodyOff hle, hbody]
  rfl

/-- A flag that a message of another type leaves as it is. -/
theorem or_decide_false {b : Bool} {x y : U8} (h : x ≠ y) : b = (b || decide (x = y)) := by
  rw [decide_eq_false h, Bool.or_false]

theorem or_decide_true {b : Bool} {x y : U8} (h : x = y) : true = (b || decide (x = y)) := by
  rw [decide_eq_true h, Bool.or_true]

theorem flightMessage_step {m : HandshakeMsg} {bodyOff : Nat} (h : recordBuf.Starts payload)
    (hlen : payload.length ≤ tlsMaxRecordLen) (hbody : bytesAt payload bodyOff m.body.length = m.body)
    (hend : bodyOff + m.body.length ≤ payload.length) (hstep : flightMessage recordBuf bodyOff m.msgType
      { s with conn := { s.conn with transcript := sha256Update s.conn.transcript m.bytes } } = .done s') :
    MsgStep m s.view s'.view ∧ s.SameRest s' ∧ s'.conn.tcp = s.conn.tcp := by
  generalize hctx : sha256Update s.conn.transcript m.bytes = ctx at hstep
  unfold flightMessage at hstep
  split at hstep
  · rename_i htype
    have hcert : m.msgType ≠ tlsHandshakeCertificate := by
      rw [htype]
      decide
    have hdone : m.msgType ≠ tlsHandshakeServerHelloDone := by
      rw [htype]
      decide
    obtain ⟨serverRandom, hrandom, hresult⟩ := bind_eq_done.mp hstep
    obtain rfl := done.inj hresult
    refine ⟨⟨hctx.symm, or_decide_false hdone, or_decide_false hcert, fun _ hlong => ?_, fun hne => absurd htype hne,
      fun h => absurd h hcert, fun _ => ⟨rfl, rfl⟩⟩, rfl, rfl⟩
    rw [cellsBytes_eq h (by omega), bytesAt_body hbody (by omega)] at hrandom
    exact (done.inj hrandom).symm
  · rename_i hhello
    split at hstep
    · rename_i htype
      have hdone : m.msgType ≠ tlsHandshakeServerHelloDone := by
        rw [htype]
        decide
      obtain ⟨firstCertLen, hfirst, hstep⟩ := bind_eq_done.mp hstep
      obtain ⟨⟨modulus, exponent⟩, hkey, hresult⟩ := bind_eq_done.mp hstep
      obtain rfl := done.inj hresult
      refine ⟨⟨hctx.symm, or_decide_false hdone, or_decide_true htype, fun h => absurd h hhello, fun _ => rfl, ?_,
        fun hne => absurd htype hne⟩, rfl, rfl⟩
      rintro - ⟨hsix, hinside⟩ hmodulus
      rw [cellsU24_eq h (by omega), bytesAt_body hbody (by omega)] at hfirst
      have hcert : bytesAt payload (bodyOff + 6) m.certLen = m.certificate := bytesAt_body hbody (by omega)
      have hcertLen : m.certificate.length = m.certLen := length_bytesAt hinside
      have hstarts : Starts (recordBuf.drop (bodyOff + 6)) m.certificate := by
        rw [← hcert]
        exact (h.drop (bodyOff + 6)).take m.certLen
      have hmax : tlsMaxRecordLen = 1200 := rfl
      rw [← show m.certificate.length = firstCertLen from hcertLen.trans (done.inj hfirst)] at hkey
      exact x509ExtractRsaPubkey_local hstarts (starts_ofList m.certificate) (by omega) hmodulus hkey
    · rename_i hcert
      split at hstep
      · rename_i htype
        obtain rfl := done.inj hstep
        exact ⟨⟨hctx.symm, or_decide_true htype, or_decide_false hcert, fun h => absurd h hhello, fun _ => rfl,
          fun h => absurd h hcert, fun _ => ⟨rfl, rfl⟩⟩, rfl, rfl⟩
      · rename_i hdone
        obtain rfl := done.inj hstep
        exact ⟨⟨hctx.symm, or_decide_false hdone, or_decide_false hcert, fun h => absurd h hhello, fun _ => rfl,
          fun h => absurd h hcert, fun _ => ⟨rfl, rfl⟩⟩, rfl, rfl⟩

theorem ServerFlight.SameRest.trans {s1 : ServerFlight} (h : s.SameRest s1) (h' : s1.SameRest s') : s.SameRest s' := by
  unfold ServerFlight.SameRest at h h' ⊢
  rw [h', h]

theorem message_at {offset hsLen : Nat} (hle : offset + 4 ≤ payload.length)
    (hhsLen : beValue (bytesAt payload (offset + 1) 3) = hsLen) (hend : offset + (4 + hsLen) ≤ payload.length) :
    bytesAt payload offset (4 + hsLen) =
      (⟨payload.get ⟨offset, by omega⟩, bytesAt payload (offset + 4) hsLen⟩ : HandshakeMsg).bytes := by
  have hthree : (bytesAt payload (offset + 1) 3).length = 3 := length_bytesAt (by omega)
  have hbytes := beBytes_beValue (bytesAt payload (offset + 1) 3)
  rw [hthree, hhsLen] at hbytes
  unfold HandshakeMsg.bytes
  rw [length_bytesAt (by omega), hbytes, add_comm 4 hsLen, bytesAt_succ (by omega)]
  unfold bytesAt
  rw [add_comm hsLen 3, take_add, drop_drop]
  rfl

theorem flightMessages_eq {fuel offset : Nat} (h : recordBuf.Starts payload) (hlen : payload.length ≤ tlsMaxRecordLen)
    (hloop : flightMessages recordBuf payload.length fuel offset s = .done s') :
    ∃ ms, parseMessages (payload.drop offset) = some ms ∧ Processed ms s.view s'.view ∧ s.SameRest s' ∧
      s'.conn.tcp = s.conn.tcp := by
  induction fuel generalizing offset s with
  | zero =>
    rw [flightMessages] at hloop
    split at hloop
    · simp at hloop
    · obtain rfl := done.inj hloop
      rw [drop_of_length_le (by omega), parseMessages]
      exact ⟨[], rfl, .nil _, rfl, rfl⟩
  | succ fuel ih =>
    rw [flightMessages] at hloop
    split at hloop
    · split at hloop
      · simp at hloop
      · obtain ⟨hsType, htype, hloop⟩ := bind_eq_done.mp hloop
        obtain ⟨hsLen, hhsLen, hloop⟩ := bind_eq_done.mp hloop
        dsimp only at hloop
        split at hloop
        · simp at hloop
        · obtain ⟨msg, hmsg, hloop⟩ := bind_eq_done.mp hloop
          obtain ⟨s1, hstep, hloop⟩ := bind_eq_done.mp hloop
          rw [read_starts h (by omega)] at htype
          rw [cellsU24_eq h (by omega)] at hhsLen
          rw [cellsBytes_eq h (by omega)] at hmsg
          have hat := message_at (show offset + 4 ≤ payload.length by omega) (done.inj hhsLen) (by omega)
          rw [done.inj htype, done.inj hmsg] at hat
          have hbody : (bytesAt payload (offset + 4) hsLen).length = hsLen := length_bytesAt (by omega)
          rw [hat] at hstep
          obtain ⟨hmsgStep, hrest, htcp⟩ := @flightMessage_step recordBuf payload _ s1
            ⟨hsType, bytesAt payload (offset + 4) hsLen⟩ (offset + 4) h hlen (by rw [hbody]) (by rw [hbody]; omega) hstep
          obtain ⟨ms, hparse, hprocessed, hrest', htcp'⟩ := ih hloop
          refine ⟨_ :: ms, ?_, .cons hmsgStep hprocessed, hrest.trans hrest', htcp'.trans htcp⟩
          have hsplit : payload.drop offset = msg ++ payload.drop (offset + (4 + hsLen)) := by
            rw [← done.inj hmsg, ← drop_drop]
            exact (take_append_drop _ _).symm
          have hbound := beValue_lt (bytesAt payload (offset + 1) 3)
          rw [done.inj hhsLen, length_bytesAt (by omega)] at hbound
          rw [hsplit, hat, parseMessages_cons _ _ (by rw [hbody]; exact hbound), hparse]
          rfl
    · obtain rfl := done.inj hloop
      rw [drop_of_length_le (by omega), parseMessages]
      exact ⟨[], rfl, .nil _, rfl, rfl⟩

theorem flightRecords_done (h : s.gotDone = true) (fuel : Nat) (recordBuf : Cells U8) : flightRecords fuel recordBuf s = .done s := by
  cases fuel with
  | zero => rw [flightRecords, if_pos h]; rfl
  | succ fuel => rw [flightRecords, if_pos h]; rfl

/-- **The flight**: `receive_server_flight` processes the messages that the stream begins with. -/
theorem flightRecords_eq {fuel : Nat} (hdone : s.gotDone = false) (hloop : flightRecords fuel recordBuf s = .done s') :
    ∃ ms, serverFlight s.conn.tcp.incoming = some (ms, s'.conn.tcp.incoming) ∧ Processed ms s.view s'.view ∧
      s.SameRest s' ∧ s'.gotDone = true ∧ s'.conn.tcp.outgoing = s.conn.tcp.outgoing := by
  induction fuel generalizing recordBuf s with
  | zero =>
    rw [flightRecords, if_neg (by rw [hdone]; decide)] at hloop
    simp at hloop
  | succ fuel ih =>
    rw [flightRecords, if_neg (by rw [hdone]; decide)] at hloop
    split at hloop
    · simp at hloop
    · rename_i contentType payload tcp hread
      split at hloop
      · simp at hloop
      · rename_i htype
        obtain ⟨s1, hmessages, hloop⟩ := bind_eq_done.mp hloop
        obtain ⟨hlen, major, minor, htook⟩ := tlsReadRecord_took hread
        rw [not_not.mp htype] at htook
        obtain ⟨ms, hparse, hprocessed, hrest, htcp⟩ := flightMessages_eq (starts_fill _ _) hlen hmessages
        rw [htook.incoming, serverFlight_record major minor hlen hparse]
        have hgot : s1.gotDone = ms.any (·.msgType = tlsHandshakeServerHelloDone) := by
          have hflag := Processed.gotDone (show Processed ms s.view s1.view from hprocessed)
          rwa [show s.view.gotDone = false from hdone, Bool.false_or] at hflag
        have hsent : s1.conn.tcp.outgoing = s.conn.tcp.outgoing := by
          rw [htcp]
          exact htook.outgoing
        cases hany : ms.any (·.msgType = tlsHandshakeServerHelloDone) with
        | true =>
          rw [hany] at hgot
          rw [flightRecords_done hgot] at hloop
          obtain rfl := done.inj hloop
          exact ⟨ms, by rw [if_pos rfl, htcp], hprocessed, hrest, hgot, hsent⟩
        | false =>
          rw [hany] at hgot
          obtain ⟨ms', hflight, hprocessed', hrest', hdone', hsent'⟩ := ih hgot hloop
          rw [htcp] at hflight
          refine ⟨ms ++ ms', ?_, hprocessed.append hprocessed', hrest.trans hrest', hdone', hsent'.trans hsent⟩
          rw [if_neg (by decide), hflight]
          rfl

/-! ## Sending -/

/-- What a connection is when `tls_connect` sends the ClientHello. -/
def tlsStart (tcp : TcpLink) (conn : TlsConn) : TlsConn :=
  { conn with tcp := tcp, transcript := sha256Init, clientSeqNum := 0, serverSeqNum := 0 }

section Sending

variable {conn conn' : TlsConn} {contentType : U8} {data : List U8} {sent : Bool}

theorem recordHeader_append (contentType : U8) (data : List U8) :
    recordHeader contentType data.length ++ data = recordBytes contentType 0x03 0x03 data := by
  rw [recordHeader_eq]
  rfl

theorem tlsSendRecord_done (h : tlsSendRecord conn contentType data = .done (sent, conn')) :
    conn' = { conn with tcp := (conn.tcp.send (recordBytes contentType 0x03 0x03 data)).2 } := by
  rcases lt_or_ge (tlsMaxRecordLen + 96) data.length with hlong | hshort
  · exfalso
    unfold tlsSendRecord at h
    obtain ⟨record, hcopy, -⟩ := bind_eq_done.mp h
    have hsize : (fill (unset tlsRecordBufLen) (recordHeader contentType data.length)).length = tlsRecordBufLen := by
      rw [length_fill (by rw [length_unset]; show 5 ≤ _; decide), length_unset]
    have hchecks := copyCells_checks (ofList data) 0
      (fill (unset tlsRecordBufLen) (recordHeader contentType data.length)) 5 data.length
    rw [hchecks.eq_undefined fun hall => ?_] at hcopy
    · simp at hcopy
    · have hlast := hall (data.length - 1) (by omega)
      rw [hsize] at hlast
      unfold tlsRecordBufLen at hlast
      omega
  · rw [tlsSendRecord_eq _ _ hshort, recordHeader_append] at h
    exact (Prod.mk.inj (done.inj h)).2.symm

theorem length_prfBlocks (secret seed : List U8) (n : Nat) (a : List U8) : (prfBlocks secret seed n a).length = 32 * n := by
  induction n generalizing a with
  | zero => rfl
  | succ n ih =>
    rw [prfBlocks, length_append, hmacSha256_length, ih]
    omega

theorem length_tlsPrf (secret label seed : List U8) (n : Nat) : (tlsPrf secret label seed n).length = n := by
  unfold tlsPrf
  rw [length_take, length_prfBlocks]
  omega

theorem length_handshakeMessage (msgType : U8) (body : List U8) :
    (handshakeMessage msgType body).length = 4 + body.length := by
  unfold handshakeMessage
  rw [length_append]
  rfl

theorem sendEncryptedRecord_done {content : List U8} (hlen : content.length ≤ tlsMaxRecordLen)
    (h : sendEncryptedRecord conn contentType content = .done (sent, conn')) : ∃ iv random, conn' = { conn with
      random := random
      clientSeqNum := conn.clientSeqNum + 1
      tcp := (conn.tcp.send (recordBytes contentType 0x03 0x03 (sealRecord conn.clientRoundKeys conn.clientWriteMacKey
        conn.clientSeqNum contentType iv content))).2 } := by
  by_cases hrandom : 16 ≤ conn.random.length
  · have hiv : conn.random = (blockAt conn.random 0).toList ++ conn.random.drop 16 := by
      rw [toList_blockAt_zero hrandom, take_append_drop]
    rw [sendEncryptedRecord_eq conn contentType hlen hiv] at h
    exact ⟨_, _, (Prod.mk.inj (done.inj h)).2.symm⟩
  · exfalso
    obtain ⟨mac, -, h⟩ := bind_eq_done.mp h
    obtain ⟨plain, -, h⟩ := bind_eq_done.mp h
    rw [fillRandom, if_neg hrandom] at h
    simp at h

theorem orRefuse_done {o : Exec (Bool × TlsConn)} (h : orRefuse o = .done conn') : o = .done (true, conn') := by
  obtain ⟨⟨sent, conn⟩, ho, hresult⟩ := bind_eq_done.mp (show (o >>= _) = _ from h)
  cases sent with
  | false => simp at hresult
  | true => rw [ho, done.inj hresult]

theorem sendClientKeyExchange_done {modulus : Limbs} {exponent : U32} {pms : List U8}
    (h : sendClientKeyExchange conn modulus exponent pms = .done (true, conn')) : ∃ msg random, conn' = { conn with
      random := random
      transcript := sha256Update conn.transcript msg
      tcp := (conn.tcp.send (recordBytes tlsContentHandshake 0x03 0x03 msg)).2 } := by
  obtain ⟨bitLength, -, h⟩ := bind_eq_done.mp h
  dsimp only at h
  split at h
  · exact absurd (done.inj h) (by simp)
  · obtain ⟨⟨ps, random⟩, -, h⟩ := bind_eq_done.mp h
    obtain ⟨ciphertext, -, h⟩ := bind_eq_done.mp h
    generalize handshakeMessage tlsHandshakeClientKeyExchange ([BitVec.ofNat 8 (((bitLength + 7) / 8) >>> 8),
      BitVec.ofNat 8 ((bitLength + 7) / 8 &&& 0xFF)] ++ ciphertext) = msg at h
    refine ⟨msg, random, ?_⟩
    generalize sha256Update conn.transcript msg = transcript at h ⊢
    exact tlsSendRecord_done h

end Sending

/-! ## The end of the handshake -/

/-- A message is its type, its length and its body. -/
theorem header_append_drop {content : List U8} (h : 4 ≤ content.length) :
    content.headD 0 :: (content.drop 1).take 3 ++ content.drop 4 = content := by
  match content, h with
  | _ :: _ :: _ :: _ :: _, _ => rfl

/-- What `receive_server_change_cipher_spec_and_finished` accepts. -/
theorem receiveServerFinished_done {conn conn' : TlsConn} (h : receiveServerFinished conn = .done conn') :
    (∃ major minor major' minor' iv len, len.length = 3 ∧
      conn.tcp.incoming = recordBytes tlsContentChangeCipherSpec major minor [0x01] ++
        (recordBytes tlsContentHandshake major' minor' (sealRecord conn.serverRoundKeys conn.serverWriteMacKey
          conn.serverSeqNum tlsContentHandshake iv (tlsHandshakeFinished :: len ++ verifyData conn labelServerFinished)) ++
          conn'.tcp.incoming)) ∧ conn'.tcp.outgoing = conn.tcp.outgoing ∧
    conn' = { conn with tcp := conn'.tcp, serverSeqNum := conn.serverSeqNum + 1 } := by
  unfold receiveServerFinished at h
  split at h
  · simp at h
  · rename_i contentType payload tcp hread
    obtain ⟨-, major, minor, htook⟩ := tlsReadRecord_took hread
    split at h
    · simp at h
    · rename_i hccs
      rw [not_or, not_not, not_not] at hccs
      obtain ⟨⟨record, conn1⟩, hrecord, h⟩ := bind_eq_done.mp h
      cases record with
      | none => simp at h
      | some record =>
        obtain ⟨contentType', content⟩ := record
        dsimp only at h
        split at h
        · simp at h
        · rename_i hfinished
          rw [not_or, not_or, not_not, not_not, not_not] at hfinished
          obtain ⟨htype, hlen, hhead⟩ := hfinished
          split at h
          · rename_i hverify
            obtain rfl := done.inj h
            obtain ⟨raw, tcp', iv, content', hread', -, hraw, -, htake, hconn⟩ := receiveEncryptedRecord_accepts hrecord
            obtain ⟨-, major', minor', htook'⟩ := tlsReadRecord_took hread'
            have htcp : conn1.tcp = tcp' := by rw [hconn]
            have hall : content = content' := by
              have hlen' : content'.length ≤ 64 := by
                rw [htake, length_take] at hlen
                omega
              rw [htake, take_of_length_le hlen']
            subst htype hall
            refine ⟨⟨major, minor, major', minor', iv, (content.drop 1).take 3, ?_, ?_⟩, ?_, ?_⟩
            · rw [length_take, length_drop]
              omega
            · have hcontent : tlsHandshakeFinished :: (content.drop 1).take 3 ++ verifyData conn labelServerFinished = content := by
                rw [← hverify, ← hhead]
                exact header_append_drop (by omega)
              rw [htook.incoming, hccs.1, hccs.2, hcontent, htcp, htook'.incoming, hraw]
            · rw [htcp]
              exact htook'.outgoing.trans htook.outgoing
            · rw [hconn]
          · simp at h

end MinicOs
