import MinicOs.Net.Stream

/-!
# What the kernel acknowledges

An acknowledgement number tells the peer that it need not send the bytes below it again. So every such byte should be
with the caller or in the pending buffer.

A run is a list of calls on one connection, with three numbers beside the state: the acknowledgement number sent last,
and how many payload bytes and how many `FIN`s have come. The network is in order and without loss: every segment that
a call takes carries the bytes of the stream from the number of bytes that have come on, at most 1400 of them.
-/

namespace MinicOs

open List Exec Cells Option Nat

variable {S : List U8} {base : Nat} {frame : Frame}

/-- The payload length of a segment that was taken. -/
def payloadOf : Option Frame → Nat
  | none => 0
  | some frame => (infoOf frame).payloadLen

/-- Whether a segment that was taken has `FIN`. -/
def finOf : Option Frame → Nat
  | none => 0
  | some frame => if (infoOf frame).flags &&& tcpFlagFin ≠ 0 then 1 else 0

/-- The next segment of the stream. -/
def Arrives (S : List U8) (base next : Nat) (frame : Frame) : Prop := ∃ n ≤ 1400, Carries S base frame next n

/-! ## The client -/

/-- A client connection in use, with the acknowledgement number sent last and what has come. -/
structure AckState where
  stream : StreamState
  ack : Nat
  next : Nat
  fins : Nat

/-- The segment that a call takes. -/
def StreamCall.takes (s : StreamState) : StreamCall → Option Frame
  | .send _ attempts => (sendTakes s.conn attempts tcpMaxAttempts s.drops).1
  | .receive _ polls =>
    if s.conn.pendingLen > 0 ∨ s.conn.peerFinished = true then none else (waitFor s.conn polls s.drops).1

def AckState.run (a : AckState) (call : StreamCall) : Exec AckState := do
  let ack ← call.ack a.stream
  let stream ← call.run a.stream
  return ⟨stream, ack.getD a.ack, a.next + payloadOf (call.takes a.stream), a.fins + finOf (call.takes a.stream)⟩

def AckState.runAll (a : AckState) (calls : List StreamCall) : Exec AckState := loop (fun call a => a.run call) calls a

/-- The frames of a call have the size that Ethernet asks for, and the segment it takes is the next one. -/
def AckState.InOrder (S : List U8) (base : Nat) (a : AckState) (call : StreamCall) : Prop :=
  (match call with
    | .send _ attempts => ∀ i, FramesOk (attempts i).polls
    | .receive _ polls => FramesOk polls) ∧
  ∀ frame, call.takes a.stream = some frame → Arrives S base a.next frame

/-- The condition on a call: a send fits a frame, and there is room in the pending buffer for the payload of the answer
to it. -/
def AckState.HasRoom (a : AckState) : StreamCall → Prop
  | .send data attempts => data.length ≤ 1446 ∧
      payloadOf (sendTakes a.stream.conn attempts tcpMaxAttempts a.stream.drops).1 ≤
        tcpStreamPendingBufLen - a.stream.conn.pendingLen
  | .receive _ _ => True

/-- Both, for every call of a run. -/
def AckState.Meets (S : List U8) (base : Nat) (a : AckState) (calls : List StreamCall) : Prop :=
  LoopMeets (fun call a => a.run call) (fun call a => a.InOrder S base call ∧ a.HasRoom call) calls a

/-- **Every byte below the acknowledgement number sent last was returned or is pending.** -/
structure AckState.Kept (S : List U8) (base : Nat) (a : AckState) : Prop where
  inside : a.next ≤ S.length
  bytes : ∃ pend, a.stream.conn.Holds pend ∧ a.stream.received ++ pend = S.take a.next
  ack : a.ack = u32 (base + a.next + a.fins)
  peerSeq : a.stream.conn.peerSeq = a.ack

variable {recvBuf : Cells U8}

section Client

variable {a : AckState}

/-- The payload of the next segment, when there is room for it. -/
theorem Arrives.payload (h : Arrives S base a.next frame) (hinside : a.next ≤ S.length) {pend : List U8}
    (hpend : a.stream.conn.Holds pend) (hbytes : a.stream.received ++ pend = S.take a.next)
    (hroom : (infoOf frame).payloadLen ≤ tcpStreamPendingBufLen - a.stream.conn.pendingLen) {recvBuf : Cells U8}
    (hbuf : Starts recvBuf (frame.take frameBufLen)) :
    ∃ xs, Payload frame recvBuf xs ∧ a.next + (infoOf frame).payloadLen ≤ S.length ∧
      a.stream.received ++ (pend ++ xs) = S.take (a.next + (infoOf frame).payloadLen) := by
  obtain ⟨n, hn, hcarries⟩ := h
  have hlen : (infoOf frame).payloadLen = n := hcarries.payloadLen (by omega)
  have hlengths : a.stream.received.length + pend.length = a.next := by
    rw [← length_append, hbytes, length_take, min_eq_left hinside]
  have hnext : MinicOs.InOrder S base a.stream frame := by
    refine ⟨a.next, n, hcarries, .inr ?_, ?_, ?_⟩
    · rw [← hpend.length, hlengths]
    · unfold headerLen frameBufLen
      omega
    · rw [← hlen]
      exact hroom
  have hprefix : a.stream.received ++ pend <+: S := hbytes ▸ take_prefix _ _
  obtain ⟨xs, hxs, -, hlonger⟩ := hnext.payload hpend hprefix hbuf
  have hsum : a.next + (infoOf frame).payloadLen = (a.stream.received ++ pend ++ xs).length := by
    rw [length_append, length_append, hlengths, hxs.length]
  rw [hsum]
  refine ⟨xs, hxs, hlonger.length_le, ?_⟩
  rw [← append_assoc]
  exact prefix_iff_eq_take.mp hlonger

variable {c c' : TcpConn} {info : SegmentInfo}

theorem stash_peerSeq (h : c.stash info recvBuf = .done c') :
    c'.peerSeq = if info.payloadLen > 0 then u32 (c.peerSeq + info.payloadLen) else c.peerSeq := by
  unfold TcpConn.stash at h
  split at h
  · rename_i hpos
    obtain ⟨buf, -, h⟩ := bind_eq_done.mp h
    obtain rfl := done.inj h
    rw [if_pos hpos]
  · rename_i hpos
    obtain rfl := done.inj h
    rw [if_neg hpos]

theorem finish_peerSeq (c : TcpConn) (flags : U8) :
    (c.finish flags).peerSeq = if flags &&& tcpFlagFin ≠ 0 then u32 (c.peerSeq + 1) else c.peerSeq := by
  unfold TcpConn.finish
  split <;> rfl

theorem keep_peerSeq {copyLen : Nat} (h : c.keep info recvBuf copyLen = .done c') : c'.peerSeq = c.peerSeq := by
  unfold TcpConn.keep at h
  dsimp only at h
  split at h
  · obtain ⟨buf, -, h⟩ := bind_eq_done.mp h
    obtain rfl := done.inj h
    rfl
  · obtain rfl := done.inj h
    rfl

variable {maxLen : Nat}

theorem accept_peerSeq {bytes : List U8} (h : c.accept info recvBuf maxLen = .done (bytes, c')) :
    c'.peerSeq = if info.flags &&& tcpFlagFin ≠ 0 then u32 (u32 (c.peerSeq + info.payloadLen) + 1)
      else u32 (c.peerSeq + info.payloadLen) := by
  obtain ⟨buf, -, h⟩ := bind_eq_done.mp h
  obtain ⟨c₁, hkeep, h⟩ := bind_eq_done.mp h
  obtain ⟨bs, -, h⟩ := bind_eq_done.mp h
  obtain ⟨-, rfl⟩ := Prod.mk.inj (done.inj h)
  rw [finish_peerSeq, keep_peerSeq hkeep]

theorem drain_peerSeq {bytes : List U8} (h : c.drain maxLen = .done (bytes, c')) : c'.peerSeq = c.peerSeq := by
  obtain ⟨buf, -, h⟩ := bind_eq_done.mp h
  obtain ⟨pendingBuf, -, h⟩ := bind_eq_done.mp h
  obtain ⟨bs, -, h⟩ := bind_eq_done.mp h
  obtain ⟨-, rfl⟩ := Prod.mk.inj (done.inj h)
  rfl

/-- The number after a payload and perhaps a `FIN`. -/
theorem u32_advance {x base next fins n : Nat} {fin : Prop} [Decidable fin] (h : x = u32 (base + next + fins)) :
    (if fin then u32 (u32 (x + n) + 1) else u32 (x + n)) = u32 (base + (next + n) + (fins + if fin then 1 else 0)) := by
  subst h
  unfold u32
  split <;> omega

theorem u32_of_u32 {x y : Nat} (h : x = u32 y) : u32 x = x := by
  subst h
  unfold u32
  omega

theorem send_kept {data : List U8} {attempts : Nat → Attempt} (h : a.Kept S base)
    (hin : a.InOrder S base (.send data attempts)) (hroom : a.HasRoom (.send data attempts)) :
    (a.run (.send data attempts)).Returns (AckState.Kept S base) := by
  obtain ⟨hpolls, harrives⟩ := hin
  obtain ⟨hdata, hfits⟩ := hroom
  obtain ⟨hinside, ⟨pend, hpend, hbytes⟩, hack, hpeer⟩ := h
  obtain ⟨buf, hsend, htakes⟩ := tcpSendReliable_eq a.stream.conn hdata hpolls tcpMaxAttempts a.stream.drops
    (length_unset frameBufLen)
  simp only [AckState.run, StreamCall.ack, StreamCall.run, StreamCall.takes, tcpStreamSend, hsend, done_bind]
  simp only [StreamCall.takes] at harrives
  rcases htake : sendTakes a.stream.conn attempts tcpMaxAttempts a.stream.drops with ⟨_ | frame, drops⟩
  · simp only [map_none, pure_eq, done_bind]
    refine .done ⟨hinside, ⟨pend, hpend, hbytes⟩, ?_, ?_⟩
    · show Option.getD _ a.ack = u32 (base + (a.next + 0) + (a.fins + 0))
      split
      · exact hpeer.trans hack
      · exact hack
    · show a.stream.conn.peerSeq = Option.getD _ a.ack
      split
      · rfl
      · exact hpeer
  · rw [htake] at htakes hfits harrives
    obtain ⟨-, hbuf⟩ := htakes frame rfl
    obtain ⟨xs, hxs, hxsInside, hlonger⟩ := (harrives frame rfl).payload hinside hpend hbytes hfits hbuf
    have hxsRoom : xs.length ≤ tcpStreamPendingBufLen - a.stream.conn.pendingLen := hxs.length ▸ hfits
    obtain ⟨c, hstash, -⟩ := stash_holds hpend hxs hxsRoom
    have hpend' : TcpConn.Holds { a.stream.conn with mySeq := u32 (a.stream.conn.mySeq + data.length) } pend :=
      ⟨hpend.starts, hpend.length, hpend.size⟩
    obtain ⟨c', hstash', hholds⟩ := stash_holds hpend' hxs hxsRoom
    have hold := u32_of_u32 (hpeer.trans hack)
    have hseq : c.peerSeq = u32 (a.stream.conn.peerSeq + (infoOf frame).payloadLen) := by
      rw [stash_peerSeq hstash]
      split
      · rfl
      · rename_i hzero
        rw [Nat.eq_zero_of_not_pos hzero, Nat.add_zero, hold]
    have hseq' : c'.peerSeq = c.peerSeq := (stash_peerSeq hstash').trans (stash_peerSeq hstash).symm
    have hnew : (c.finish (infoOf frame).flags).peerSeq =
        u32 (base + (a.next + (infoOf frame).payloadLen) + (a.fins + finOf (some frame))) := by
      rw [finish_peerSeq, hseq]
      exact u32_advance (hpeer.trans hack)
    -- without something new the number sent with the data is still the one of the connection
    have hackNew : (if (infoOf frame).payloadLen > 0 ∨ (infoOf frame).flags &&& tcpFlagFin ≠ 0 then
        some (c.finish (infoOf frame).flags).peerSeq else some a.stream.conn.peerSeq) =
        some (c.finish (infoOf frame).flags).peerSeq := by
      split
      · rfl
      · rename_i hnone
        obtain ⟨hzero, hfin⟩ := not_or.mp hnone
        rw [finish_peerSeq, if_neg hfin, hseq, Nat.eq_zero_of_not_pos hzero, Nat.add_zero, hold]
    simp only [map_some, hstash, hstash', pure_eq, done_bind, hackNew, getD_some]
    refine .done ⟨hxsInside, ⟨pend ++ xs, hholds.finish _, hlonger⟩, hnew, ?_⟩
    show (c'.finish (infoOf frame).flags).peerSeq = (c.finish (infoOf frame).flags).peerSeq
    rw [finish_peerSeq, finish_peerSeq, hseq']

theorem receive_kept {polls : List Frame} (h : a.Kept S base) (hin : a.InOrder S base (.receive maxLen polls)) :
    (a.run (.receive maxLen polls)).Returns (AckState.Kept S base) := by
  obtain ⟨hpolls, harrives⟩ := hin
  obtain ⟨hinside, ⟨pend, hpend, hbytes⟩, hack, hpeer⟩ := h
  have hlen := hpend.length
  simp only [StreamCall.takes] at harrives
  by_cases hpos : a.stream.conn.pendingLen > 0
  · obtain ⟨c, hdrain, hholds⟩ := drain_holds hpend maxLen
    simp only [AckState.run, StreamCall.ack, StreamCall.run, StreamCall.takes, tcpStreamReceive, if_pos hpos,
      if_pos (Or.inl hpos), hdrain, pure_eq, done_bind]
    refine .done ⟨hinside, ⟨pend.drop maxLen, hholds, ?_⟩, hack, (drain_peerSeq hdrain).trans hpeer⟩
    show a.stream.received ++ pend.take maxLen ++ pend.drop maxLen = S.take a.next
    rw [append_assoc, take_append_drop]
    exact hbytes
  · obtain rfl : pend = [] := length_eq_zero_iff.mp (by omega)
    have hnothing : a.stream.received ++ [] ++ [] = S.take a.next := (append_nil _).trans hbytes
    by_cases hfin : a.stream.conn.peerFinished = true
    · simp only [AckState.run, StreamCall.ack, StreamCall.run, StreamCall.takes, tcpStreamReceive, if_neg hpos,
        if_pos hfin, if_pos (Or.inr hfin), pure_eq, done_bind]
      exact .done ⟨hinside, ⟨[], hpend, hnothing⟩, hack, hpeer⟩
    · have hwaits : ¬ (a.stream.conn.pendingLen > 0 ∨ a.stream.conn.peerFinished = true) := not_or.mpr ⟨hpos, hfin⟩
      obtain ⟨buf, -, hwait, htakes⟩ :=
        tcpWaitSegment_eq a.stream.conn hpolls a.stream.drops (length_unset frameBufLen)
      rw [if_neg hwaits] at harrives
      simp only [AckState.run, StreamCall.ack, StreamCall.run, StreamCall.takes, tcpStreamReceive, if_neg hpos,
        if_neg hfin, if_neg hwaits, hwait, pure_eq, done_bind]
      rcases htake : waitFor a.stream.conn polls a.stream.drops with ⟨_ | frame, drops⟩
      · exact .done ⟨hinside, ⟨[], hpend, hnothing⟩, hack, hpeer⟩
      · rw [htake] at htakes harrives
        obtain ⟨-, -, hbuf⟩ := htakes frame rfl
        have harr := harrives frame rfl
        have hroom : (infoOf frame).payloadLen ≤ tcpStreamPendingBufLen - a.stream.conn.pendingLen := by
          obtain ⟨n, hn, hcarries⟩ := harr
          rw [hcarries.payloadLen (by omega)]
          unfold tcpStreamPendingBufLen
          omega
        obtain ⟨xs, hxs, hxsInside, hlonger⟩ := harr.payload hinside hpend hbytes hroom hbuf
        obtain ⟨c, haccept, hholds⟩ := accept_holds hpend hxs maxLen
        have hseq := accept_peerSeq haccept
        rw [u32_advance (hpeer.trans hack)] at hseq
        simp only [map_some, haccept, done_bind, getD_some]
        refine .done ⟨hxsInside, ⟨xs.drop maxLen, hholds, ?_⟩, hseq, rfl⟩
        show a.stream.received ++ xs.take maxLen ++ xs.drop maxLen = S.take (a.next + (infoOf frame).payloadLen)
        rw [append_assoc, take_append_drop]
        exact hlonger

theorem AckState.run_kept (call : StreamCall) (a : AckState) (h : a.Kept S base)
    (hm : a.InOrder S base call ∧ a.HasRoom call) : (a.run call).Returns (AckState.Kept S base) := by
  cases call with
  | send data attempts => exact send_kept h hm.1 hm.2
  | receive maxLen polls => exact receive_kept h hm.1

end Client

/-! ## The server -/

/-- A server connection in use: all bytes that `tcp_server_receive` has returned, the acknowledgement number sent last and
what has come. -/
structure ServerState where
  conn : TcpConnection
  drops : Nat
  received : List U8
  ack : Nat
  next : Nat
  fins : Nat

/-- A call of `tcp_server_receive`: the room the caller has, and the rounds of its waits. -/
structure ServerCall where
  maxLen : Nat
  waits : List (List Frame)

/-- A segment that brings nothing. -/
def isBareAck (frame : Frame) : Prop := (infoOf frame).payloadLen = 0 ∧ (infoOf frame).flags &&& tcpFlagFin = 0

instance (frame : Frame) : Decidable (isBareAck frame) := inferInstanceAs (Decidable (_ ∧ _))

/-- The segment that a call answers: the first that is not a bare `ACK`. -/
def serverTakes (c : TcpConn) : List (List Frame) → Nat → Option Frame
  | [], _ => none
  | polls :: waits, drops =>
    match waitFor c polls drops with
    | (none, _) => none
    | (some frame, drops) => if isBareAck frame then serverTakes c waits drops else some frame

def ServerState.run (a : ServerState) (call : ServerCall) : Exec ServerState := do
  let r ← tcpServerReceive a.conn call.maxLen call.waits a.drops (unset frameBufLen)
  let taken := serverTakes a.conn.peer call.waits a.drops
  return ⟨r.conn, r.drops, a.received ++ r.bytes, r.ack.getD a.ack, a.next + payloadOf taken, a.fins + finOf taken⟩

def ServerState.runAll (a : ServerState) (calls : List ServerCall) : Exec ServerState :=
  loop (fun call a => a.run call) calls a

/-- The frames of a call have the size that Ethernet asks for, and the segment it answers is the next one. -/
def ServerState.InOrder (S : List U8) (base : Nat) (a : ServerState) (call : ServerCall) : Prop :=
  (∀ polls ∈ call.waits, FramesOk polls) ∧
  ∀ frame, serverTakes a.conn.peer call.waits a.drops = some frame → Arrives S base a.next frame

/-- The condition on a call: there is room for the whole payload. -/
def ServerState.HasRoom (a : ServerState) (call : ServerCall) : Prop :=
  payloadOf (serverTakes a.conn.peer call.waits a.drops) ≤ call.maxLen

/-- Both, for every call of a run. -/
def ServerState.Meets (S : List U8) (base : Nat) (a : ServerState) (calls : List ServerCall) : Prop :=
  LoopMeets (fun call a => a.run call) (fun call a => a.InOrder S base call ∧ a.HasRoom call) calls a

/-- **Every byte below the acknowledgement number sent last was returned**; the number of a `FIN` may not have been
acknowledged yet. -/
structure ServerState.Kept (S : List U8) (base : Nat) (a : ServerState) : Prop where
  inside : a.next ≤ S.length
  bytes : a.received = S.take a.next
  ack : ∃ fins ≤ a.fins, a.ack = u32 (base + a.next + fins)
  peerSeq : a.conn.peerSeq = u32 (base + a.next + a.fins)

section Server

variable {a : ServerState} {c : TcpConnection} {maxLen : Nat}

/-- **The loop of `tcp_server_receive`** passes over bare `ACK`s. -/
theorem tcpServerReceive_eq {waits : List (List Frame)} (hwaits : ∀ polls ∈ waits, FramesOk polls) (drops : Nat)
    {buf : Cells U8} (hbuf : buf.length = frameBufLen) :
    match serverTakes c.peer waits drops with
    | none => ∃ drops', tcpServerReceive c maxLen waits drops buf = .done ⟨[], c, none, drops'⟩
    | some frame => ∃ drops' buf', Starts buf' (frame.take frameBufLen) ∧
        tcpServerReceive c maxLen waits drops buf = c.accept (infoOf frame) buf' maxLen drops' := by
  induction waits generalizing drops buf with
  | nil => exact ⟨drops, rfl⟩
  | cons polls waits ih =>
    obtain ⟨buf', hlen, hwait, htakes⟩ := tcpWaitSegment_eq c.peer (hwaits polls mem_cons_self) drops hbuf
    rw [serverTakes]
    simp only [tcpServerReceive, hwait, done_bind]
    rcases htake : waitFor c.peer polls drops with ⟨_ | frame, drops'⟩
    · exact ⟨drops', rfl⟩
    · rw [htake] at htakes
      simp only [map_some]
      by_cases hbare : isBareAck frame
      · have hpass : (infoOf frame).payloadLen = 0 ∧ (infoOf frame).flags &&& tcpFlagFin = 0 := hbare
        rw [if_pos hbare, if_pos hpass]
        exact ih (fun p hp => hwaits p (mem_cons_of_mem _ hp)) drops' hlen
      · have hpass : ¬ ((infoOf frame).payloadLen = 0 ∧ (infoOf frame).flags &&& tcpFlagFin = 0) := hbare
        rw [if_neg hbare, if_neg hpass]
        exact ⟨drops', buf', (htakes frame rfl).2.2, rfl⟩

theorem Arrives.read (h : Arrives S base a.next frame) (hinside : a.next ≤ S.length)
    (hbuf : Starts recvBuf (frame.take frameBufLen)) :
    ∃ xs, Payload frame recvBuf xs ∧ a.next + (infoOf frame).payloadLen ≤ S.length ∧
      S.take a.next ++ xs = S.take (a.next + (infoOf frame).payloadLen) := by
  -- the client's lemma, for a connection that has nothing pending
  let client : AckState :=
    ⟨⟨⟨[0, 0, 0, 0], 0, 0, 0, 0, false, unset tcpStreamPendingBufLen, 0, rfl⟩, 0, S.take a.next⟩, 0, a.next, 0⟩
  have hempty : client.stream.conn.Holds [] := ⟨ nil_prefix, rfl, length_unset _⟩
  obtain ⟨n, hn, hcarries⟩ := h
  exact @Arrives.payload S base frame client ⟨n, hn, hcarries⟩ hinside [] hempty (append_nil _) (by
    rw [hcarries.payloadLen (by omega)]
    show n ≤ 1500 - 0
    omega) recvBuf hbuf

theorem server_kept {call : ServerCall} (h : a.Kept S base) (hin : a.InOrder S base call) (hroom : a.HasRoom call) :
    (a.run call).Returns (ServerState.Kept S base) := by
  obtain ⟨hwaits, harrives⟩ := hin
  obtain ⟨hinside, hbytes, hack, hpeer⟩ := h
  have hcall := @tcpServerReceive_eq a.conn call.maxLen call.waits hwaits a.drops (unset frameBufLen)
    (length_unset _)
  unfold ServerState.HasRoom at hroom
  unfold ServerState.run
  cases htake : serverTakes a.conn.peer call.waits a.drops with
  | none =>
    rw [htake] at hcall
    obtain ⟨drops', hrun⟩ := hcall
    rw [hrun, done_bind]
    refine .done ⟨hinside, ?_, hack, hpeer⟩
    show a.received ++ [] = S.take a.next
    rw [append_nil]
    exact hbytes
  | some frame =>
    rw [htake] at hcall hroom
    obtain ⟨drops', buf', hbuf, hrun⟩ := hcall
    obtain ⟨xs, hxs, hxsInside, hlonger⟩ := (harrives frame htake).read hinside hbuf
    -- there is room for the payload, so it is returned
    obtain ⟨buf, hcopy, hcontents⟩ := copyOut_eq hxs.read call.maxLen
    rw [take_of_length_le (hxs.length.symm.trans_le hroom)] at hcontents
    rw [← hxs.length] at hcopy hcontents
    rw [hrun, TcpConnection.accept, hcopy, done_bind, hcontents]
    refine .done ⟨hxsInside, ?_, ⟨a.fins, le_add_right _ _, ?_⟩, u32_advance hpeer⟩
    · show a.received ++ xs = S.take (a.next + (infoOf frame).payloadLen)
      rw [hbytes]
      exact hlonger
    · show u32 (a.conn.peerSeq + (infoOf frame).payloadLen) =
        u32 (base + (a.next + (infoOf frame).payloadLen) + a.fins)
      rw [hpeer]
      unfold u32
      omega

end Server

/-! ## Runs from an open connection -/

/-- A client connection that has just been opened; its `SYN-ACK` was acknowledged. -/
structure AckState.Opened (base : Nat) (a : AckState) : Prop where
  stream : MinicOs.Opened base a.stream
  ack : a.ack = u32 base
  next : a.next = 0
  fins : a.fins = 0

/-- A server connection that has just been accepted; its `SYN` was acknowledged. -/
structure ServerState.Opened (base : Nat) (a : ServerState) : Prop where
  peerSeq : a.conn.peerSeq = u32 base
  received : a.received = []
  ack : a.ack = u32 base
  next : a.next = 0
  fins : a.fins = 0

/-- **What was acknowledged is kept**, in every run of the client and of the server whose calls all meet the
condition. -/
theorem tcp_keeps_acknowledged (S : List U8) (base : Nat) :
    (∀ (a : AckState) (calls : List StreamCall), a.Opened base → a.Meets S base calls →
      ∃ a', a.runAll calls = .done a' ∧ a'.Kept S base) ∧
    ∀ (a : ServerState) (calls : List ServerCall), a.Opened base → a.Meets S base calls →
      ∃ a', a.runAll calls = .done a' ∧ a'.Kept S base := by
  constructor
  · intro a calls hopen hm
    have hstart : a.Kept S base := by
      refine ⟨?_, ⟨[], ⟨ nil_prefix, hopen.stream.pendingLen.symm, hopen.stream.size⟩, ?_⟩, ?_, ?_⟩
      · rw [hopen.next]
        exact zero_le _
      · rw [hopen.stream.received, hopen.next]
        rfl
      · rw [hopen.ack, hopen.next, hopen.fins]
        rfl
      · rw [hopen.stream.peerSeq, hopen.ack]
    exact returns_iff.mp (hm.returns _ AckState.run_kept hstart)
  · intro a calls hopen hm
    have hstart : a.Kept S base := by
      refine ⟨?_, ?_, ⟨0, zero_le _, ?_⟩, ?_⟩
      · rw [hopen.next]
        exact zero_le _
      · rw [hopen.received, hopen.next]
        rfl
      · rw [hopen.ack, hopen.next]
        rfl
      · rw [hopen.peerSeq, hopen.next, hopen.fins]
        rfl
    exact returns_iff.mp (hm.returns _ (fun _ _ h hm => server_kept h hm.1 hm.2) hstart)

/-- A server connection from port 80 of `10.0.2.2` that has just been accepted. -/
def freshServer : ServerState := ⟨⟨0xC000, [10, 0, 2, 2], 80, 2001, 1, freshStream.conn.length_ip⟩, 0, [], 1, 0, 0⟩

/-- The stream `AB` in one segment. -/
def segmentAB : Frame :=
  [0, 0, 0, 0, 0, 0, 0, 0, 0, 0, 0, 0, 0x08, 0x00] ++
  [0x45, 0, 0, 42, 0, 0, 0, 0, 64, 6, 0, 0, 10, 0, 2, 2, 10, 0, 2, 15] ++
  [0, 80, 0xC0, 0, 0, 0, 0, 1, 0, 0, 0x03, 0xE9, 0x50, 0x18, 0x20, 0, 0, 0, 0, 0] ++
  [0x41, 0x42, 0, 0, 0, 0]

theorem segmentAB_carries : Carries [0x41, 0x42] 1 segmentAB 0 2 :=
  ⟨by decide, by decide, by decide, by decide, by decide⟩

/-- A client and a server that receive the two bytes. -/
theorem tcp_keeps_acknowledged_two :
    (∃ a', AckState.runAll ⟨freshStream, 1, 0, 0⟩ [.receive 1 [segmentAB]] = .done a' ∧ a'.Kept [0x41, 0x42] 1) ∧
      ∃ a', freshServer.runAll [⟨2, [[[], segmentAB]]⟩] = .done a' ∧ a'.Kept [0x41, 0x42] 1 := by
  refine ⟨(tcp_keeps_acknowledged [0x41, 0x42] 1).1 _ _ ⟨freshStream_opened, rfl, rfl, rfl⟩
      ⟨⟨⟨?_, ?_⟩, trivial⟩, fun _ _ => trivial⟩, (tcp_keeps_acknowledged [0x41, 0x42] 1).2 _ _ ⟨rfl, rfl, rfl, rfl, rfl⟩
      ⟨⟨⟨?_, ?_⟩, by unfold ServerState.HasRoom; decide⟩, fun _ _ => trivial⟩⟩
  · show FramesOk [segmentAB]
    unfold FramesOk
    decide
  · intro frame hframe
    obtain rfl : segmentAB = frame := some.inj (Eq.trans (by decide) hframe)
    exact ⟨2, by decide, segmentAB_carries⟩
  · show ∀ polls ∈ [[[], segmentAB]], FramesOk polls
    unfold FramesOk
    decide
  · intro frame hframe
    obtain rfl : segmentAB = frame := some.inj (Eq.trans (by decide) hframe)
    exact ⟨2, by decide, segmentAB_carries⟩

/-- **A server with room for one byte acknowledges both**: the second is nowhere. -/
theorem tcpServerReceive_forgets : Carries [0x41, 0x42] 1 segmentAB 0 2 ∧
      (freshServer.runAll [⟨1, [[segmentAB]]⟩] >>= fun a => .done (a.received, a.ack)) = .done ([0x41], 3) :=
  ⟨segmentAB_carries, by decide +kernel⟩

end MinicOs
