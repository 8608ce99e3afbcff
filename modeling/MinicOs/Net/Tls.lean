import MinicOs.Net.Tcp
import MinicOs.Security.Aes
import MinicOs.Security.X509

/-!
# The TLS client

Model of `kernel/net/tls/tls.c`.

TLS sees TCP through three calls. What `tcp_stream_receive` returns are the next bytes of the peer's stream, at most as
many as it was asked for; how many, and whether a call fails (a timeout, a deadline that has passed, a peer that is
gone), is up to the network: `TcpLink` has the rest of the peer's stream and the answers of the calls to come. What
`tcp_stream_send` is given is kept in order.

`random` is what `random_byte` gives from here on. A loop that draws bytes until it has enough goes on for ever if they
do not come, which is `undefined`.

A buffer on the stack is an array of its size, so that a copy that does not fit is undefined. A function of the handshake
gives up with `refused`; the functions on records give `none`, because the connection goes on after them.
-/

namespace MinicOs

open Cells

/-! ## Below TLS -/

/-- TCP as TLS sees it. -/
structure TcpLink where
  incoming : List U8
  answers : List (Option Nat)
  outgoing : List (List U8)
  accepts : List Bool

/-- `tcp_stream_receive`. -/
def TcpLink.receive (t : TcpLink) (maxLen : Nat) : Option (List U8) × TcpLink :=
  match t.answers with
  | [] => (none, t)
  | none :: answers => (none, { t with answers := answers })
  | some k :: answers =>
    let n := min k maxLen
    (some (t.incoming.take n), { t with incoming := t.incoming.drop n, answers := answers })

/-- `tcp_stream_send`. -/
def TcpLink.send (t : TcpLink) (data : List U8) : Bool × TcpLink :=
  (t.accepts.headD false, { t with outgoing := t.outgoing ++ [data], accepts := t.accepts.tail })

/-- The loop of `tcp_read_exact`, with at most `fuel` calls; each of them uses up an answer. -/
def readExactLoop (len : Nat) : Nat → TcpLink → List U8 → Option (List U8) × TcpLink
  | 0, t, got => if got.length < len then (none, t) else (some got, t)
  | fuel + 1, t, got =>
    if got.length < len then
      match t.receive (len - got.length) with
      | (none, t) => (none, t)
      | (some chunk, t) => readExactLoop len fuel t (got ++ chunk)
    else (some got, t)

def tcpReadExact (t : TcpLink) (len : Nat) : Option (List U8) × TcpLink := readExactLoop len t.answers.length t []

/-! ## Constants -/

def tlsContentChangeCipherSpec : U8 := 20
def tlsContentAlert : U8 := 21
def tlsContentHandshake : U8 := 22
def tlsContentApplicationData : U8 := 23

def tlsHandshakeClientHello : U8 := 1
def tlsHandshakeServerHello : U8 := 2
def tlsHandshakeCertificate : U8 := 11
def tlsHandshakeServerHelloDone : U8 := 14
def tlsHandshakeClientKeyExchange : U8 := 16
def tlsHandshakeFinished : U8 := 20

def tlsMaxRecordLen : Nat := 1200

def tlsRecordBufLen : Nat := 5 + tlsMaxRecordLen + 96

/-- The size of `raw` and of `fragment`. -/
def tlsFragmentLen : Nat := 16 + tlsMaxRecordLen + 64

/-- The size of `ciphertext` and of `decrypted`. -/
def tlsCiphertextLen : Nat := tlsMaxRecordLen + 64

/-- `tls_conn_t`, with what `random_byte` gives next. -/
structure TlsConn where
  tcp : TcpLink
  random : List U8
  clientRandom : List U8
  serverRandom : List U8
  masterSecret : List U8
  clientWriteMacKey : List U8
  serverWriteMacKey : List U8
  clientWriteKey : AesBlock
  serverWriteKey : AesBlock
  clientRoundKeys : RoundKeys
  serverRoundKeys : RoundKeys
  clientSeqNum : U64
  serverSeqNum : U64
  transcript : Sha256Ctx

/-! ## Random bytes -/

def fillRandom (random : List U8) (len : Nat) : Exec (List U8 × List U8) :=
  if len ≤ random.length then return (random.take len, random.drop len) else .undefined

/-- `do b = random_byte(); while (b == 0)`, for `n` bytes. -/
def nonzeroRandom : Nat → List U8 → Exec (List U8 × List U8)
  | 0, random => return ([], random)
  | _ + 1, [] => .undefined
  | n + 1, b :: random =>
    if b = 0 then nonzeroRandom (n + 1) random
    else do
      let (bs, random) ← nonzeroRandom n random
      return (b :: bs, random)

/-! ## Keys -/

/-- `while (produced < out_len)`, for `n` blocks. -/
def prfBlocks (secret seed : List U8) : Nat → List U8 → List U8
  | 0, _ => []
  | n + 1, a => hmacSha256 secret (a ++ seed) ++ prfBlocks secret seed n (hmacSha256 secret a)

def tlsPrf (secret label seedData : List U8) (outLen : Nat) : List U8 :=
  let seed := label ++ seedData
  (prfBlocks secret seed ((outLen + 31) / 32) (hmacSha256 secret seed)).take outLen

/-- `"master secret"`. -/
def labelMasterSecret : List U8 := [109, 97, 115, 116, 101, 114, 32, 115, 101, 99, 114, 101, 116]

/-- `"key expansion"`. -/
def labelKeyExpansion : List U8 := [107, 101, 121, 32, 101, 120, 112, 97, 110, 115, 105, 111, 110]

/-- `"client finished"`. -/
def labelClientFinished : List U8 := [99, 108, 105, 101, 110, 116, 32, 102, 105, 110, 105, 115, 104, 101, 100]

/-- `"server finished"`. -/
def labelServerFinished : List U8 := [115, 101, 114, 118, 101, 114, 32, 102, 105, 110, 105, 115, 104, 101, 100]

/-! ## Records -/

/-- `tls_read_record`: the type and the payload. -/
def tlsReadRecord (t : TcpLink) (maxPayloadLen : Nat) : Option (U8 × List U8) × TcpLink :=
  match tcpReadExact t 5 with
  | (none, t) => (none, t)
  | (some header, t) =>
    let length := (header.getD 3 0).toNat <<< 8 ||| (header.getD 4 0).toNat
    if length > maxPayloadLen then (none, t)
    else
      match tcpReadExact t length with
      | (none, t) => (none, t)
      | (some payload, t) => (some (header.getD 0 0, payload), t)

/-- The first five bytes of a record. -/
def recordHeader (contentType : U8) (len : Nat) : List U8 :=
  [contentType, 0x03, 0x03, BitVec.ofNat 8 (len >>> 8), BitVec.ofNat 8 (len &&& 0xFF)]

variable (conn : TlsConn)

def tlsSendRecord (contentType : U8) (data : List U8) : Exec (Bool × TlsConn) := do
  let record := (unset tlsRecordBufLen).fill (recordHeader contentType data.length)
  let record ← copyCells (ofList data) 0 record 5 data.length
  let bytes ← contents (record.take (5 + data.length))
  let (sent, tcp) := conn.tcp.send bytes
  return (sent, { conn with tcp := tcp })

/-- What goes before the content into the MAC: the sequence number, the type, the version and the length. -/
def macHeader (seqNum : U64) (contentType : U8) (contentLen : Nat) : List U8 :=
  ((List.range 8).map fun k => (seqNum >>> ((7 - k) * 8) &&& 0xFF).setWidth 8) ++
    recordHeader contentType contentLen

def computeRecordMac (macKey : List U8) (seqNum : U64) (contentType : U8) (contentLen : Nat) (content : Cells U8) :
    Exec (List U8) := do
  let macInput := (unset (13 + tlsMaxRecordLen)).fill (macHeader seqNum contentType contentLen)
  let macInput ← copyCells content 0 macInput 13 contentLen
  let bytes ← contents (macInput.take (13 + contentLen))
  return hmacSha256 macKey bytes

/-- `plain`: the content and its MAC. -/
def plainRecord (content mac : List U8) : Exec (List U8) := do
  let plain ← copyCells (ofList content) 0 (unset (tlsMaxRecordLen + 32)) 0 content.length
  let plain ← copyCells (ofList mac) 0 plain content.length 32
  contents (plain.take (content.length + 32))

/-- `fragment`: the IV and the ciphertext. -/
def fragmentOf (iv : AesBlock) (ciphertext : List U8) : Exec (List U8) := do
  let fragment := (unset tlsFragmentLen).fill iv.toList
  let fragment ← copyCells (ofList ciphertext) 0 fragment 16 ciphertext.length
  contents (fragment.take (16 + ciphertext.length))

def sendEncryptedRecord (contentType : U8) (content : List U8) : Exec (Bool × TlsConn) := do
  let mac ← computeRecordMac conn.clientWriteMacKey conn.clientSeqNum contentType content.length (ofList content)
  let plain ← plainRecord content mac
  let (iv, random) ← fillRandom conn.random 16
  match aes128CbcEncryptTls conn.clientRoundKeys (blockAt iv 0) plain tlsCiphertextLen with
  | none => return (false, { conn with random := random })
  | some ciphertext => do
    let fragment ← fragmentOf (blockAt iv 0) ciphertext
    tlsSendRecord { conn with random := random, clientSeqNum := conn.clientSeqNum + 1 } contentType fragment

/-- The part of `receive_encrypted_record` after the decryption; `none` is a wrong MAC. -/
def openRecord (contentType : U8) (plain : List U8) (maxContentLen : Nat) :
    Exec (Option (List U8)) := do
  let decrypted ← copyCells (ofList plain) 0 (unset tlsCiphertextLen) 0 plain.length
  let contentLen := plain.length - 32
  let macExpected ← computeRecordMac conn.serverWriteMacKey conn.serverSeqNum contentType (u16 contentLen) decrypted
  if ← cellsAre decrypted contentLen macExpected then do
    let copyLen := if contentLen > maxContentLen then maxContentLen else contentLen
    let contentOut ← copyCells decrypted 0 (unset maxContentLen) 0 copyLen
    let bytes ← contents (contentOut.take copyLen)
    return some bytes
  else return none

/-- What `receive_encrypted_record` decrypts: `none` if the record is too short or is not padded well, or if there is no
room for a MAC. -/
def decryptRecord (roundKeys : RoundKeys) (raw : List U8) : Option (List U8) :=
  if raw.length < 32 then none
  else
    match aes128CbcDecryptTls roundKeys (blockAt raw 0) (raw.drop 16) with
    | none => none
    | some plain => if plain.length < 32 then none else some plain

/-- `receive_encrypted_record`: the type and the content that fits the buffer of the caller. -/
def receiveEncryptedRecord (maxContentLen : Nat) : Exec (Option (U8 × List U8) × TlsConn) :=
  match tlsReadRecord conn.tcp tlsFragmentLen with
  | (none, tcp) => return (none, { conn with tcp := tcp })
  | (some (contentType, raw), tcp) =>
    match decryptRecord conn.serverRoundKeys raw with
    | none => return (none, { conn with tcp := tcp })
    | some plain => do
      match ← openRecord conn contentType plain maxContentLen with
      | none => return (none, { conn with tcp := tcp })
      | some bytes => return (some (contentType, bytes), { conn with tcp := tcp, serverSeqNum := conn.serverSeqNum + 1 })

def tlsSend (data : List U8) : Exec (Bool × TlsConn) :=
  if data.length > tlsMaxRecordLen then return (false, conn)
  else sendEncryptedRecord conn tlsContentApplicationData data

/-- `tls_receive`, with `rounds` rounds of its loop before the deadline; `none` is `false`. -/
def tlsReceive (conn : TlsConn) (maxLen : Nat) : Nat → Exec (Option (List U8) × TlsConn)
  | 0 => return (none, conn)
  | rounds + 1 => do
    let (record, conn) ← receiveEncryptedRecord conn maxLen
    match record with
    | none => return (none, conn)
    | some (contentType, bytes) =>
      if contentType = tlsContentApplicationData then return (some bytes, conn)
      else if contentType = tlsContentAlert then return (none, conn)
      else tlsReceive conn maxLen rounds

/-! ## Handshake -/

/-- A handshake message: its type, its length on three bytes, and its body. The length is a `u16`, so its highest byte is
zero. -/
def handshakeMessage (msgType : U8) (body : List U8) : List U8 :=
  [msgType, BitVec.ofNat 8 (body.length >>> 16), BitVec.ofNat 8 (body.length >>> 8),
    BitVec.ofNat 8 (body.length &&& 0xFF)] ++ body

def clientHelloBody (clientRandom : List U8) : List U8 :=
  [0x03, 0x03] ++ clientRandom ++
    [0x00, 0x00, 0x02, 0x00, 0x3C, 0x01, 0x00, 0x00, 0x08, 0x00, 0x0D, 0x00, 0x04, 0x00, 0x02, 0x04, 0x01]

def sendClientHello : Exec (Bool × TlsConn) := do
  let (clientRandom, random) ← fillRandom conn.random 32
  let msg := handshakeMessage tlsHandshakeClientHello (clientHelloBody clientRandom)
  let conn := { conn with
    clientRandom := clientRandom
    random := random
    transcript := sha256Update conn.transcript msg }
  tlsSendRecord conn tlsContentHandshake msg

/-- A big-endian `u24`. -/
def cellsU24 (buf : Cells U8) (p : Nat) : Exec Nat := do
  let b0 ← buf.read p
  let b1 ← buf.read (p + 1)
  let b2 ← buf.read (p + 2)
  return b0.toNat <<< 16 ||| b1.toNat <<< 8 ||| b2.toNat

/-- `n` bytes of a buffer. -/
def cellsBytes (buf : Cells U8) (p n : Nat) : Exec (List U8) := contents ((buf.drop p).take n) >>= fun bs =>
  if bs.length = n then return bs else .undefined

/-- What `receive_server_flight` has found so far. -/
structure ServerFlight where
  conn : TlsConn
  serverModulus : Limbs
  serverExponent : U32
  gotDone : Bool
  gotCert : Bool

/-- What a message does, by its type; `bodyOff` is where its body begins. -/
def flightMessage (recordBuf : Cells U8) (bodyOff : Nat) (hsType : U8) (s : ServerFlight) : Exec ServerFlight :=
  if hsType = tlsHandshakeServerHello then do
    let serverRandom ← cellsBytes recordBuf (bodyOff + 2) 32
    return { s with conn := { s.conn with serverRandom := serverRandom } }
  else if hsType = tlsHandshakeCertificate then do
    let firstCertLen ← cellsU24 recordBuf (bodyOff + 3)
    let (modulus, exponent) ← x509ExtractRsaPubkey (recordBuf.drop (bodyOff + 6)) firstCertLen s.serverModulus
    return { s with serverModulus := modulus, serverExponent := exponent, gotCert := true }
  else if hsType = tlsHandshakeServerHelloDone then return { s with gotDone := true }
  else return s

/-- `while (offset < len)`: every message has at least four bytes, so `len` rounds are enough. -/
def flightMessages (recordBuf : Cells U8) (len : Nat) : Nat → Nat → ServerFlight → Exec ServerFlight
  | 0, offset, s => if offset < len then .undefined else return s
  | fuel + 1, offset, s =>
    if offset < len then
      if offset + 4 > len then .refused
      else do
        let hsType ← recordBuf.read offset
        let hsLen ← cellsU24 recordBuf (offset + 1)
        let hsTotal := 4 + hsLen
        if offset + hsTotal > len then .refused
        else do
          let msg ← cellsBytes recordBuf offset hsTotal
          let s := { s with conn := { s.conn with transcript := sha256Update s.conn.transcript msg } }
          let s ← flightMessage recordBuf (offset + 4) hsType s
          flightMessages recordBuf len fuel (offset + hsTotal) s
    else return s

/-- `while (!got_done)`: every record uses up an answer of TCP, so one round more than there are answers is enough. -/
def flightRecords : Nat → Cells U8 → ServerFlight → Exec ServerFlight
  | 0, _, s => if s.gotDone then return s else .undefined
  | fuel + 1, recordBuf, s =>
    if s.gotDone then return s
    else
      match tlsReadRecord s.conn.tcp tlsMaxRecordLen with
      | (none, _) => .refused
      | (some (contentType, payload), tcp) =>
        if contentType ≠ tlsContentHandshake then .refused
        else do
          let recordBuf := recordBuf.fill payload
          let s ← flightMessages recordBuf payload.length payload.length 0 { s with conn := { s.conn with tcp := tcp } }
          flightRecords fuel recordBuf s

def receiveServerFlight : Exec ServerFlight := do
  let s ← flightRecords (conn.tcp.answers.length + 1) (unset tlsMaxRecordLen)
    ⟨conn, unset bignumLimbs, 0, false, false⟩
  if s.gotCert then return s else .refused

/-- The block that is encrypted: `00 02 PS 00 PMS`. -/
def pkcs1Block (ps preMasterSecret : List U8) : List U8 := [0x00, 0x02] ++ ps ++ [0x00] ++ preMasterSecret

/-- The RSA operation of `send_client_key_exchange`. -/
def rsaEncrypt (serverModulus : Limbs) (serverExponent : U32) (block : List U8) : Exec (List U8) := do
  let base ← bignumFromBytesBe (unset bignumLimbs) ((unset 512).fill block) block.length
  let exponentBn ← bignumSetU32 (unset bignumLimbs) serverExponent
  let result ← bignumModexp (unset bignumLimbs) base exponentBn serverModulus
  let ciphertext ← bignumToBytesBe result (unset 512) block.length
  contents (ciphertext.take block.length)

def sendClientKeyExchange (serverModulus : Limbs) (serverExponent : U32) (preMasterSecret : List U8) :
    Exec (Bool × TlsConn) := do
  let bitLength ← bignumBitLength serverModulus
  let modulusLen := (bitLength + 7) / 8
  if modulusLen < 3 + 48 + 8 ∨ modulusLen > 512 then return (false, conn)
  else do
    let (ps, random) ← nonzeroRandom (modulusLen - 3 - 48) conn.random
    let ciphertext ← rsaEncrypt serverModulus serverExponent (pkcs1Block ps preMasterSecret)
    let body := [BitVec.ofNat 8 (modulusLen >>> 8), BitVec.ofNat 8 (modulusLen &&& 0xFF)] ++ ciphertext
    let msg := handshakeMessage tlsHandshakeClientKeyExchange body
    let conn := { conn with random := random, transcript := sha256Update conn.transcript msg }
    tlsSendRecord conn tlsContentHandshake msg

def deriveKeys (preMasterSecret : List U8) : TlsConn :=
  let masterSecret := tlsPrf preMasterSecret labelMasterSecret (conn.clientRandom ++ conn.serverRandom) 48
  let keyBlock := tlsPrf masterSecret labelKeyExpansion (conn.serverRandom ++ conn.clientRandom) 96
  let clientWriteKey := blockAt (keyBlock.drop 64) 0
  let serverWriteKey := blockAt (keyBlock.drop 80) 0
  { conn with
    masterSecret := masterSecret
    clientWriteMacKey := keyBlock.take 32
    serverWriteMacKey := (keyBlock.drop 32).take 32
    clientWriteKey := clientWriteKey
    serverWriteKey := serverWriteKey
    clientRoundKeys := aes128KeyExpand clientWriteKey
    serverRoundKeys := aes128KeyExpand serverWriteKey }

def sendChangeCipherSpec : Exec (Bool × TlsConn) :=
  tlsSendRecord conn tlsContentChangeCipherSpec [0x01]

/-- `verify_data`, from the transcript so far. -/
def verifyData (label : List U8) : List U8 :=
  tlsPrf conn.masterSecret label (sha256Final conn.transcript) 12

def sendFinished : Exec (Bool × TlsConn) :=
  let msg := handshakeMessage tlsHandshakeFinished (verifyData conn labelClientFinished)
  sendEncryptedRecord { conn with transcript := sha256Update conn.transcript msg } tlsContentHandshake msg

/-- `receive_server_change_cipher_spec_and_finished`. -/
def receiveServerFinished : Exec TlsConn :=
  match tlsReadRecord conn.tcp 8 with
  | (none, _) => .refused
  | (some (contentType, payload), tcp) =>
    if contentType ≠ tlsContentChangeCipherSpec ∨ payload ≠ [0x01] then .refused
    else do
      let (record, conn') ← receiveEncryptedRecord { conn with tcp := tcp } 64
      match record with
      | none => .refused
      | some (contentType, content) =>
        if contentType ≠ tlsContentHandshake ∨ content.length ≠ 16 ∨ content.headD 0 ≠ tlsHandshakeFinished then .refused
        else if content.drop 4 = verifyData conn labelServerFinished then return conn' else .refused

/-- `if (!send_..(conn)) return false`. -/
def orRefuse (o : Exec (Bool × TlsConn)) : Exec TlsConn := do
  let (sent, conn) ← o
  if sent then return conn else .refused

/-- `tls_connect`, on what the connection held before; `opened` is what `tcp_stream_open` gives. -/
def tlsConnect (opened : Option TcpLink) (conn : TlsConn) : Exec TlsConn :=
  match opened with
  | none => .refused
  | some tcp => do
    let conn := { conn with tcp := tcp, transcript := sha256Init, clientSeqNum := 0, serverSeqNum := 0 }
    let conn ← orRefuse (sendClientHello conn)
    let flight ← receiveServerFlight conn
    let (pms, random) ← fillRandom flight.conn.random 46
    let preMasterSecret := [0x03, 0x03] ++ pms
    let conn ← orRefuse (sendClientKeyExchange { flight.conn with random := random } flight.serverModulus
      flight.serverExponent preMasterSecret)
    let conn ← orRefuse (sendChangeCipherSpec (deriveKeys conn preMasterSecret))
    let conn ← orRefuse (sendFinished conn)
    receiveServerFinished conn

end MinicOs
