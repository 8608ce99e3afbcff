import MinicOs.Inflate.Inflate

/-!
# The TCP client stream

Model of `tcp_wait_segment`, `tcp_send_reliable`, `tcp_stream_send`, `tcp_stream_receive` and `tcp_server_receive` of
`kernel/net/tcp/tcp.c`.

The network is what `netdev_receive` gives in each round of a waiting loop: a frame, or nothing (an empty one). The
rounds before the time is up are the list that the call is given; a list that is used up is a timeout. Of a frame
the first 1500 bytes are copied into the receive buffer, which keeps what was in it behind them.

Of what is sent only the frame buffer is modelled, whose size the payload can exceed, and whether the device takes
the frame. The header bytes, the MAC addresses and the slot in the connection table are left out, and so is the last
`ACK` of a call, whose outcome is not used.
-/

namespace MinicOs

open Cells

def u16 (n : Nat) : Nat := n % 2 ^ 16

def tcpStreamPendingBufLen : Nat := 1500

/-- The size of `recv_buf` and of `frame`. -/
def frameBufLen : Nat := 1500

def tcpMaxAttempts : Nat := 5

def ipProtocolTcp : U8 := 6

def tcpFlagFin : U8 := 0x01

abbrev Frame := List U8

/-- `tcp_conn_t`. -/
structure TcpConn where
  targetIp : List U8
  targetPort : Nat
  localPort : Nat
  mySeq : Nat
  peerSeq : Nat
  peerFinished : Bool
  pendingBuf : Cells U8
  pendingLen : Nat
  length_ip : targetIp.length = 4

/-- `tcp_segment_info`. -/
structure SegmentInfo where
  seq : Nat
  ack : Nat
  flags : U8
  payloadLen : Nat
  payloadOffset : Nat

/-! ## Waiting for a segment -/

/-- Compare byte after byte, up to the first that differs. -/
def cellsAre (buf : Cells U8) (p : Nat) : List U8 → Exec Bool
  | [] => return true
  | c :: cs => do
    let b ← buf.read p
    if b = c then cellsAre buf (p + 1) cs else return false

/-- A big-endian `u16` in a buffer. -/
def cellsU16 (buf : Cells U8) (p : Nat) : Exec Nat := do
  let b0 ← buf.read p
  let b1 ← buf.read (p + 1)
  return b0.toNat <<< 8 ||| b1.toNat

/-- A big-endian `u32` in a buffer. -/
def cellsU32 (buf : Cells U8) (p : Nat) : Exec Nat := do
  let b0 ← buf.read p
  let b1 ← buf.read (p + 1)
  let b2 ← buf.read (p + 2)
  let b3 ← buf.read (p + 3)
  return b0.toNat <<< 24 ||| b1.toNat <<< 16 ||| b2.toNat <<< 8 ||| b3.toNat

variable (c : TcpConn)

/-- The tests of `tcp_wait_segment`: IPv4, TCP, the address of the peer and the two ports. -/
def segmentMatches (buf : Cells U8) : Exec Bool := do
  if ← cellsAre buf 12 [0x08, 0x00] then do
    let proto ← buf.read (14 + 9)
    if proto ≠ ipProtocolTcp then return false
    else if ← cellsAre buf (14 + 12) c.targetIp then do
      let srcPort ← cellsU16 buf 34
      let dstPort ← cellsU16 buf 36
      return decide (srcPort = c.targetPort ∧ dstPort = c.localPort)
    else return false
  else return false

/-- What `tcp_wait_segment` reports of the segment in the buffer. -/
def segmentInfo (buf : Cells U8) : Exec SegmentInfo := do
  let ipTotalLen ← cellsU16 buf 16
  let seq ← cellsU32 buf 38
  let ack ← cellsU32 buf 42
  let flags ← buf.read 47
  let offsetByte ← buf.read 46
  let tcpHeaderLen := (offsetByte.toNat >>> 4) * 4
  return ⟨seq, ack, flags, u16 (2 ^ 16 + ipTotalLen - 20 - tcpHeaderLen), 34 + tcpHeaderLen⟩

/-- `tcp_wait_segment`, with `g_tcp_debug_drop_count` and the receive buffer; `none` is a timeout. -/
def tcpWaitSegment (c : TcpConn) : List Frame → Nat → Cells U8 → Exec (Option SegmentInfo × Nat × Cells U8)
  | [], drops, buf => return (none, drops, buf)
  | frame :: polls, drops, buf => do
    let buf := buf.fill (frame.take buf.length)
    if frame.length = 0 then tcpWaitSegment c polls drops buf
    else if ← segmentMatches c buf then
      if drops > 0 then tcpWaitSegment c polls (drops - 1) buf
      else do
        let info ← segmentInfo buf
        return (some info, drops, buf)
    else tcpWaitSegment c polls drops buf

/-! ## Sending -/

/-- The loop of `tcp_send_segment` that copies the payload behind the headers. -/
def framePayload (payload : List U8) (i : Nat) (frame : Cells U8) : Exec (Cells U8) := do
  let b ← srcByte payload i
  frame.write (34 + 20 + i) b

/-- `tcp_send_segment`; `taken` is the answer of the device. -/
def tcpSendSegment (payload : List U8) (taken : Bool) : Exec Bool := do
  let _ ← Exec.count payload.length (framePayload payload) (unset frameBufLen)
  return taken

/-- An attempt of `tcp_send_reliable`: the answer of the device, and the rounds of the wait. -/
structure Attempt where
  taken : Bool
  polls : List Frame

/-- `tcp_send_reliable` with `n` attempts left; `none` is `false`. -/
def tcpSendReliable (c : TcpConn) (payload : List U8) (attempts : Nat → Attempt) :
    Nat → Nat → Cells U8 → Exec (Option SegmentInfo × Nat × Cells U8)
  | 0, drops, buf => return (none, drops, buf)
  | n + 1, drops, buf => do
    let attempt := attempts (tcpMaxAttempts - (n + 1))
    let sent ← tcpSendSegment payload attempt.taken
    if sent = false then return (none, drops, buf)
    else do
      let (info, drops, buf) ← tcpWaitSegment c attempt.polls drops buf
      match info with
      | some info => return (some info, drops, buf)
      | none => tcpSendReliable c payload attempts n drops buf

/-! ## The stream -/

/-- `for (i = 0; i < n; i = i + 1) dst[q + i] = src[p + i]`. -/
def copyCells (src : Cells U8) (p : Nat) (dst : Cells U8) (q n : Nat) : Exec (Cells U8) :=
  Exec.count n (fun i dst => do
    let b ← src.read (p + i)
    dst.write (q + i) b) dst

/-- `for (i = 0; i < n; i = i + 1) buf[i] = buf[k + i]`. -/
def moveCells (k n : Nat) (buf : Cells U8) : Exec (Cells U8) :=
  Exec.count n (fun i buf => do
    let b ← buf.read (k + i)
    buf.write i b) buf

/-- What `FIN` does to the connection. -/
def TcpConn.finish (flags : U8) : TcpConn :=
  if flags &&& tcpFlagFin ≠ 0 then { c with peerSeq := u32 (c.peerSeq + 1), peerFinished := true } else c

/-- The payload that came with the answer to a send goes to the pending buffer. -/
def TcpConn.stash (info : SegmentInfo) (recvBuf : Cells U8) : Exec TcpConn :=
  if info.payloadLen > 0 then do
    let space := u16 (2 ^ 16 + tcpStreamPendingBufLen - c.pendingLen)
    let copyLen := if info.payloadLen > space then space else info.payloadLen
    let pendingBuf ← copyCells recvBuf info.payloadOffset c.pendingBuf c.pendingLen copyLen
    return { c with
      pendingBuf := pendingBuf
      pendingLen := u16 (c.pendingLen + copyLen)
      peerSeq := u32 (c.peerSeq + info.payloadLen) }
  else return c

/-- `tcp_stream_send`: its result, the connection and the drop count. -/
def tcpStreamSend (drops : Nat) (data : List U8) (attempts : Nat → Attempt) :
    Exec (Bool × TcpConn × Nat) := do
  let (info, drops, recvBuf) ← tcpSendReliable c data attempts tcpMaxAttempts drops (unset frameBufLen)
  match info with
  | none => return (false, c, drops)
  | some info => do
    let c := { c with mySeq := u32 (c.mySeq + data.length) }
    let c ← c.stash info recvBuf
    return (true, c.finish info.flags, drops)

/-- The branch of `tcp_stream_receive` that drains the pending buffer. -/
def TcpConn.drain (maxLen : Nat) : Exec (List U8 × TcpConn) := do
  let copyLen := if c.pendingLen > maxLen then maxLen else c.pendingLen
  let buf ← copyCells c.pendingBuf 0 (unset maxLen) 0 copyLen
  let remaining := u16 (2 ^ 16 + c.pendingLen - copyLen)
  let pendingBuf ← moveCells copyLen remaining c.pendingBuf
  let bytes ← contents (buf.take copyLen)
  return (bytes, { c with pendingBuf := pendingBuf, pendingLen := remaining })

/-- The bytes for which the caller has no room go to the pending buffer. -/
def TcpConn.keep (info : SegmentInfo) (recvBuf : Cells U8) (copyLen : Nat) : Exec TcpConn :=
  let leftover := u16 (2 ^ 16 + info.payloadLen - copyLen)
  if leftover > 0 ∧ leftover ≤ tcpStreamPendingBufLen then do
    let pendingBuf ← copyCells recvBuf (info.payloadOffset + copyLen) c.pendingBuf 0 leftover
    return { c with pendingBuf := pendingBuf, pendingLen := leftover }
  else return c

/-- The branch of `tcp_stream_receive` for a segment that has arrived. -/
def TcpConn.accept (info : SegmentInfo) (recvBuf : Cells U8) (maxLen : Nat) :
    Exec (List U8 × TcpConn) := do
  let copyLen := if info.payloadLen > maxLen then maxLen else info.payloadLen
  let buf ← copyCells recvBuf info.payloadOffset (unset maxLen) 0 copyLen
  let c ← c.keep info recvBuf copyLen
  let bytes ← contents (buf.take copyLen)
  return (bytes, TcpConn.finish { c with peerSeq := u32 (c.peerSeq + info.payloadLen) } info.flags)

/-- `tcp_stream_receive`: the bytes in the buffer of the caller (`none` is `false`), the connection and the drop
count. -/
def tcpStreamReceive (drops : Nat) (maxLen : Nat) (polls : List Frame) : Exec (Option (List U8) × TcpConn × Nat) :=
  if c.pendingLen > 0 then do
    let (bytes, c) ← c.drain maxLen
    return (some bytes, c, drops)
  else if c.peerFinished = true then return (none, c, drops)
  else do
    let (info, drops, recvBuf) ← tcpWaitSegment c polls drops (unset frameBufLen)
    match info with
    | none => return (none, c, drops)
    | some info => do
      let (bytes, c) ← c.accept info recvBuf maxLen
      return (some bytes, c, drops)

/-! ## Calls -/

/-- A call on the connection. -/
inductive StreamCall
  | send (data : List U8) (attempts : Nat → Attempt)
  | receive (maxLen : Nat) (polls : List Frame)

/-- A connection in use: its state, `g_tcp_debug_drop_count`, and all bytes that `tcp_stream_receive` has returned. -/
structure StreamState where
  conn : TcpConn
  drops : Nat
  received : List U8

def StreamCall.run (s : StreamState) : StreamCall → Exec StreamState
  | .send data attempts => do
    let (_, conn, drops) ← tcpStreamSend s.conn s.drops data attempts
    return { s with conn := conn, drops := drops }
  | .receive maxLen polls => do
    let (bytes, conn, drops) ← tcpStreamReceive s.conn s.drops maxLen polls
    return ⟨conn, drops, s.received ++ bytes.getD []⟩

def runStream (s : StreamState) (calls : List StreamCall) : Exec StreamState := Exec.loop (fun call s => call.run s) calls s

/-! ## Acknowledgements -/

/-- The acknowledgement number of the last segment that a call sends, if it sends one. `tcp_stream_send` sends its data
with the number it has, and an `ACK` when the answer brought something new; `tcp_stream_receive` answers a segment. -/
def StreamCall.ack (s : StreamState) : StreamCall → Exec (Option Nat)
  | .send data attempts => do
    let (info, _, recvBuf) ← tcpSendReliable s.conn data attempts tcpMaxAttempts s.drops (unset frameBufLen)
    match info with
    | none => return if (attempts 0).taken = true then some s.conn.peerSeq else none
    | some info => do
      let c ← s.conn.stash info recvBuf
      return if info.payloadLen > 0 ∨ info.flags &&& tcpFlagFin ≠ 0 then some (c.finish info.flags).peerSeq
        else some s.conn.peerSeq
  | .receive maxLen polls =>
    if s.conn.pendingLen > 0 ∨ s.conn.peerFinished = true then return none
    else do
      let (info, _, recvBuf) ← tcpWaitSegment s.conn polls s.drops (unset frameBufLen)
      match info with
      | none => return none
      | some info => do
        let (_, c) ← s.conn.accept info recvBuf maxLen
        return some c.peerSeq

/-! ## The server -/

/-- `tcp_connection`, as the server uses it. -/
structure TcpConnection where
  localPort : Nat
  remoteIp : List U8
  remotePort : Nat
  mySeq : Nat
  peerSeq : Nat
  length_ip : remoteIp.length = 4

/-- The addresses that `tcp_wait_segment` is given. -/
def TcpConnection.peer (c : TcpConnection) : TcpConn :=
  ⟨c.remoteIp, c.remotePort, c.localPort, c.mySeq, c.peerSeq, false, unset 0, 0, c.length_ip⟩

/-- What a call of `tcp_server_receive` comes to: the bytes in the buffer of the caller, the connection, the
acknowledgement number it sent, and the drop count. -/
structure ServerReceived where
  bytes : List U8
  conn : TcpConnection
  ack : Option Nat
  drops : Nat

/-- The branch of `tcp_server_receive` for a segment that is not a bare `ACK`. -/
def TcpConnection.accept (c : TcpConnection) (info : SegmentInfo) (recvBuf : Cells U8) (maxLen drops : Nat) :
    Exec ServerReceived := do
  let copyLen := if info.payloadLen > maxLen then maxLen else info.payloadLen
  let buf ← copyCells recvBuf info.payloadOffset (unset maxLen) 0 copyLen
  let bytes ← contents (buf.take copyLen)
  let peerSeq := u32 (c.peerSeq + info.payloadLen)
  return {
    bytes := bytes
    conn := { c with peerSeq := if info.flags &&& tcpFlagFin ≠ 0 then u32 (peerSeq + 1) else peerSeq }
    ack := some peerSeq
    drops := drops }

/-- `tcp_server_receive`; the rounds of each wait of its loop are a list, and with no wait left the deadline has
passed. -/
def tcpServerReceive (c : TcpConnection) (maxLen : Nat) : List (List Frame) → Nat → Cells U8 → Exec ServerReceived
  | [], drops, _ => return ⟨[], c, none, drops⟩
  | polls :: waits, drops, recvBuf => do
    let (info, drops, recvBuf) ← tcpWaitSegment c.peer polls drops recvBuf
    match info with
    | none => return ⟨[], c, none, drops⟩
    | some info =>
      if info.payloadLen = 0 ∧ info.flags &&& tcpFlagFin = 0 then tcpServerReceive c maxLen waits drops recvBuf
      else c.accept info recvBuf maxLen drops

end MinicOs
