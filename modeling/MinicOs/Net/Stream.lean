import MinicOs.Inflate.Correct
import MinicOs.Lib.BigEndian
import MinicOs.Net.Tcp

/-!
# What the client stream returns

`tcp_wait_segment` takes the next segment from the peer whatever its sequence number, so the bytes that
`tcp_stream_receive` returns are a prefix of the peer's stream only as long as the network hands over the segments
in order. Under that condition, and if no buffer is too small (`Meets`), every call keeps the invariant that what was
returned and what is pending are the stream up to a place (`StreamState.Follows`), and in every run of sends and
receives what was returned is a prefix of the stream (`tcpStream_integrity`). A segment that arrives twice is returned
twice (`tcpStream_duplicate`).
-/

namespace MinicOs

open List Exec Cells Nat

/-! ## Frames -/

section Frames

variable {buf : Cells U8} {xs : List U8}

/-- `n` bytes at `p` of a buffer that begins with `xs`. -/
theorem read_starts (h : Starts buf xs) {i : Nat} (hi : i < xs.length) : buf.read i = .done (xs.get ⟨i, hi⟩) :=
  h.read (getElem?_eq_getElem hi)

theorem cellsAre_eq (h : Starts buf xs) {p : Nat} {name : List U8} (hle : p + name.length ≤ xs.length) :
    cellsAre buf p name = .done (decide (bytesAt xs p name.length = name)) := by
  induction name generalizing p with
  | nil => simp [cellsAre, bytesAt]
  | cons c name ih =>
    rw [length_cons] at hle ⊢
    rw [cellsAre, read_starts h (by omega), done_bind, bytesAt_succ (by omega)]
    by_cases hc : xs.get ⟨p, by omega⟩ = c
    · rw [if_pos hc, ih (by omega)]
      simp only [hc, cons.injEq, true_and]
    · rw [if_neg hc]
      simp only [cons.injEq, hc, false_and, decide_false, pure_eq]

variable {p : Nat}

theorem cellsU16_eq (h : Starts buf xs) (hle : p + 2 ≤ xs.length) : cellsU16 buf p = .done (beValue (bytesAt xs p 2)) := by
  unfold cellsU16
  simp (disch := omega) only [read_starts h, done_bind, or_two_bytes, bytesAt_succ]
  rfl

theorem cellsU32_eq (h : Starts buf xs) (hle : p + 4 ≤ xs.length) : cellsU32 buf p = .done (beValue (bytesAt xs p 4)) := by
  unfold cellsU32
  simp (disch := omega) only [read_starts h, done_bind, or_bytes, bytesAt_succ]
  rfl

/-- The frame is a TCP segment from the peer of the connection. -/
@[mk_iff] structure FromPeer (c : TcpConn) (frame : Frame) : Prop where
  ip : bytesAt frame 12 2 = [0x08, 0x00]
  proto : bytesAt frame 23 1 = [ipProtocolTcp]
  source : bytesAt frame 26 4 = c.targetIp
  ports : beValue (bytesAt frame 34 2) = c.targetPort ∧ beValue (bytesAt frame 36 2) = c.localPort

instance (c : TcpConn) (frame : Frame) : Decidable (FromPeer c frame) :=
  decidable_of_iff' _ (fromPeer_iff c frame)

/-- The length of the TCP header of a frame. -/
def headerLen (frame : Frame) : Nat := ((frame.getD 46 0).toNat >>> 4) * 4

/-- What a frame says of its segment. -/
def infoOf (frame : Frame) : SegmentInfo :=
  ⟨beValue (bytesAt frame 38 4), beValue (bytesAt frame 42 4), frame.getD 47 0,
    u16 (2 ^ 16 + beValue (bytesAt frame 16 2) - 20 - headerLen frame), 34 + headerLen frame⟩

variable {frame : Frame}

/-- The first bytes of a frame of the smallest size an Ethernet frame has. -/
theorem bytesAt_take {n : Nat} (h : p + n ≤ 60) : bytesAt (frame.take frameBufLen) p n = bytesAt frame p n := by
  unfold bytesAt
  rw [drop_take, take_take, min_eq_left (by unfold frameBufLen; omega)]

theorem segmentMatches_eq (c : TcpConn) (h : Starts buf (frame.take frameBufLen)) (hlen : 60 ≤ frame.length) :
    segmentMatches c buf = .done (decide (FromPeer c frame)) := by
  have hle : 60 ≤ (frame.take frameBufLen).length := by
    rw [length_take]
    unfold frameBufLen
    omega
  have hproto : bytesAt frame 23 1 = [(frame.take frameBufLen).get ⟨23, by omega⟩] := by
    rw [← bytesAt_take (by omega), bytesAt_succ (by omega)]
    rfl
  have hip := cellsAre_eq h (show 12 + [0x08, (0x00 : U8)].length ≤ _ by simp only [length_cons, length_nil]; omega)
  have hsource := cellsAre_eq h (show 26 + c.targetIp.length ≤ _ by rw [c.length_ip]; omega)
  rw [bytesAt_take (by rw [c.length_ip]; omega), c.length_ip] at hsource
  rw [bytesAt_take (by simp)] at hip
  unfold segmentMatches
  rw [hip, done_bind, read_starts h (show 14 + 9 < _ by omega), hsource, cellsU16_eq h (by omega),
    cellsU16_eq h (by omega), bytesAt_take (by omega), bytesAt_take (by omega)]
  simp only [done_bind, decide_eq_true_eq, fromPeer_iff, hproto, singleton_inj]
  split_ifs <;> simp_all

theorem segmentInfo_eq (h : Starts buf (frame.take frameBufLen)) (hlen : 60 ≤ frame.length) :
    segmentInfo buf = .done (infoOf frame) := by
  have hle : 60 ≤ (frame.take frameBufLen).length := by
    rw [length_take]
    unfold frameBufLen
    omega
  have hbyte : ∀ i (hi : i < 60), buf.read i = .done (frame.getD i 0) := by
    intro i hi
    rw [read_starts h (by omega), getD_eq_getElem _ _ (by omega)]
    exact congrArg Exec.done getElem_take
  unfold segmentInfo
  rw [cellsU16_eq h (by omega), cellsU32_eq h (by omega), cellsU32_eq h (by omega), hbyte 47 (by omega),
    hbyte 46 (by omega), bytesAt_take (by omega), bytesAt_take (by omega), bytesAt_take (by omega)]
  rfl

/-! ## Waiting -/

/-- A round brings nothing or a frame of at least the size that Ethernet asks for. -/
def FramesOk (polls : List Frame) : Prop := ∀ frame ∈ polls, frame = [] ∨ 60 ≤ frame.length

/-- The frame that a wait takes: the first one from the peer after those the debug counter drops. -/
def waitFor (c : TcpConn) : List Frame → Nat → Option Frame × Nat
  | [], drops => (none, drops)
  | frame :: polls, drops =>
    if FromPeer c frame then if drops > 0 then waitFor c polls (drops - 1) else (some frame, drops)
    else waitFor c polls drops

theorem not_fromPeer_nil (c : TcpConn) : ¬ FromPeer c [] := fun h => by
  have := h.ip
  simp [bytesAt] at this

/-- **Waiting**: the frame that is taken is at the start of the receive buffer. -/
theorem tcpWaitSegment_eq (c : TcpConn) {polls : List Frame} (hpolls : FramesOk polls) (drops : Nat)
    (hbuf : buf.length = frameBufLen) : ∃ buf' : Cells U8, buf'.length = frameBufLen ∧ tcpWaitSegment c polls drops buf =
        .done ((waitFor c polls drops).1.map infoOf, (waitFor c polls drops).2, buf') ∧
      ∀ frame, (waitFor c polls drops).1 = some frame →
        frame ∈ polls ∧ FromPeer c frame ∧ Starts buf' (frame.take frameBufLen) := by
  induction polls generalizing drops buf with
  | nil => exact ⟨buf, hbuf, rfl, fun frame h => by simp [waitFor] at h⟩
  | cons frame polls ih =>
    have hlen : (frame.take frameBufLen).length ≤ buf.length := by
      rw [hbuf, length_take]
      exact min_le_left _ _
    have hfill : (fill buf (frame.take frameBufLen)).length = frameBufLen := by rw [length_fill hlen, hbuf]
    have hstarts := starts_fill buf (frame.take frameBufLen)
    -- The rest of the rounds.
    have hgo : ∀ drops', ∃ buf' : Cells U8, buf'.length = frameBufLen ∧
        tcpWaitSegment c polls drops' (fill buf (frame.take frameBufLen)) =
          .done ((waitFor c polls drops').1.map infoOf, (waitFor c polls drops').2, buf') ∧
        ∀ f, (waitFor c polls drops').1 = some f →
          f ∈ frame :: polls ∧ FromPeer c f ∧ Starts buf' (f.take frameBufLen) := by
      intro drops'
      obtain ⟨buf', h1, h2, h3⟩ := ih (fun f hf => hpolls f (mem_cons_of_mem _ hf)) drops' hfill
      exact ⟨buf', h1, h2, fun f hf => ⟨mem_cons_of_mem _ (h3 f hf).1, (h3 f hf).2⟩⟩
    rw [tcpWaitSegment, waitFor]
    simp only [hbuf]
    rcases hpolls frame (mem_cons_self ..) with rfl | h60
    · rw [if_pos length_nil, if_neg (not_fromPeer_nil c)]
      exact hgo drops
    · rw [if_neg (by omega), segmentMatches_eq c hstarts h60, done_bind]
      simp only [decide_eq_true_eq]
      by_cases hpeer : FromPeer c frame
      · rw [if_pos hpeer, if_pos hpeer]
        by_cases hdrops : drops > 0
        · rw [if_pos hdrops, if_pos hdrops]
          exact hgo (drops - 1)
        · rw [if_neg hdrops, if_neg hdrops, segmentInfo_eq hstarts h60]
          refine ⟨_, hfill, rfl, fun f hf => ?_⟩
          cases hf
          exact ⟨mem_cons_self .., hpeer, hstarts⟩
      · rw [if_neg hpeer, if_neg hpeer]
        exact hgo drops

end Frames

/-! ## Sending -/

/-- A payload that the frame buffer has room for. -/
theorem tcpSendSegment_eq {payload : List U8} (h : payload.length ≤ 1446) (taken : Bool) :
    tcpSendSegment payload taken = .done taken := by
  have hloop : (Exec.count payload.length (framePayload payload) (unset frameBufLen)).Returns
      fun frame => frame.length = frameBufLen := by
    refine count_returns (fun _ (frame : Cells U8) => frame.length = frameBufLen) (length_unset _)
      fun i hi frame hlen => ?_
    unfold framePayload
    rw [srcByte_eq hi, done_bind, write_eq _ (by rw [hlen]; unfold frameBufLen; omega)]
    exact .done (by rw [length_set]; exact hlen)
  obtain ⟨frame, heq, -⟩ := returns_iff.mp hloop
  unfold tcpSendSegment
  rw [heq]
  rfl

/-- The frame that `tcp_send_reliable` takes, with `n` attempts left. -/
def sendTakes (c : TcpConn) (attempts : Nat → Attempt) : Nat → Nat → Option Frame × Nat
  | 0, drops => (none, drops)
  | n + 1, drops =>
    let attempt := attempts (tcpMaxAttempts - (n + 1))
    if attempt.taken = false then (none, drops)
    else
      match waitFor c attempt.polls drops with
      | (some frame, drops) => (some frame, drops)
      | (none, drops) => sendTakes c attempts n drops

theorem tcpSendReliable_eq (c : TcpConn) {payload : List U8} (hpayload : payload.length ≤ 1446)
    {attempts : Nat → Attempt} (hpolls : ∀ i, FramesOk (attempts i).polls) (n drops : Nat) {buf : Cells U8}
    (hbuf : buf.length = frameBufLen) : ∃ buf' : Cells U8, tcpSendReliable c payload attempts n drops buf =
        .done ((sendTakes c attempts n drops).1.map infoOf, (sendTakes c attempts n drops).2, buf') ∧
      ∀ frame, (sendTakes c attempts n drops).1 = some frame → FromPeer c frame ∧ Starts buf' (frame.take frameBufLen) := by
  induction n generalizing drops buf with
  | zero => exact ⟨buf, rfl, fun frame h => by simp [sendTakes] at h⟩
  | succ n ih =>
    obtain ⟨buf₁, hlen₁, hwait, htakes⟩ :=
      tcpWaitSegment_eq c (hpolls (tcpMaxAttempts - (n + 1))) drops hbuf
    rw [tcpSendReliable, sendTakes]
    simp only [tcpSendSegment_eq hpayload, done_bind]
    by_cases htaken : (attempts (tcpMaxAttempts - (n + 1))).taken = false
    · rw [if_pos htaken, if_pos htaken]
      exact ⟨buf, rfl, fun frame h => by simp at h⟩
    · rw [if_neg htaken, if_neg htaken, hwait, done_bind]
      rcases hw : waitFor c (attempts (tcpMaxAttempts - (n + 1))).polls drops with ⟨_ | frame, drops'⟩
      · exact ih drops' hlen₁
      · rw [hw] at htakes
        exact ⟨buf₁, rfl, fun f hf => (htakes f hf).2⟩

/-! ## Copying -/

section Copy

variable {src dst : Cells U8} {xs zs : List U8}

theorem starts_iff_fill : Starts dst xs ↔ fill dst xs = dst := by
  constructor
  · rintro ⟨r, rfl⟩
    unfold fill
    rw [drop_append_of_le_length (by simp), drop_of_length_le (by simp), nil_append]
  · intro h
    rw [← h]
    exact starts_fill dst xs

theorem starts_concat (h : Starts dst xs) (hlt : xs.length < dst.length) (v : U8) :
    ∃ dst', dst.write xs.length v = .done dst' ∧ Starts dst' (xs ++ [v]) ∧ dst'.length = dst.length := by
  rw [starts_iff_fill] at h
  refine ⟨fill dst (xs ++ [v]), ?_, starts_fill _ _, length_fill ?_⟩
  · conv_lhs => rw [← h]
    exact write_fill v hlt
  · rw [length_append, length_singleton]
    omega

/-- Bytes of one buffer go behind those of another. -/
theorem copyCells_eq {p : Nat} (hsrc : ∀ i (hi : i < xs.length), src.read (p + i) = .done (xs.get ⟨i, hi⟩))
    (hdst : Starts dst zs) (hroom : zs.length + xs.length ≤ dst.length) :
    ∃ dst', copyCells src p dst zs.length xs.length = .done dst' ∧ Starts dst' (zs ++ xs) ∧ dst'.length = dst.length := by
  have hloop := @Exec.count_returns _ (fun i dst => do
    let b ← src.read (p + i)
    dst.write (zs.length + i) b) (fun i d => Starts d (zs ++ xs.take i) ∧ d.length = dst.length) xs.length dst
    ⟨by rw [take_zero, append_nil]; exact hdst, rfl⟩ (by
      rintro i hi d ⟨hd, hlen⟩
      have hpos : (zs ++ xs.take i).length = zs.length + i := by
        rw [length_append, length_take, min_eq_left (by omega)]
      obtain ⟨d', hwrite, hstarts, hlen'⟩ := starts_concat hd (by omega) (xs.get ⟨i, hi⟩)
      rw [hpos] at hwrite
      rw [hsrc i hi, done_bind, hwrite]
      refine .done ⟨?_, by omega⟩
      rw [append_assoc] at hstarts
      rw [take_add_one, getElem?_eq_getElem hi]
      exact hstarts)
  obtain ⟨d, heq, hd, hlen⟩ := returns_iff.mp hloop
  rw [take_length] at hd
  exact ⟨d, heq, hd, hlen⟩

/-- A copy that ends has stayed inside both buffers. -/
theorem copyCells_checks (src : Cells U8) (p : Nat) (dst : Cells U8) (q n : Nat) :
    (copyCells src p dst q n).Checks (fun d => d.length = dst.length)
      (∀ i < n, p + i < src.length ∧ q + i < dst.length) := by
  refine count_checks rfl fun i hi d hd => ?_
  have hwrite := fun b => (write_checks d (q + i) b).mono (fun d' hd' => hd'.trans hd) fun h => h
  refine ((read_checks src (p + i)).bind fun b _ => hwrite b).mono (fun _ h => h) fun h => ?_
  rw [← hd]
  exact h

/-- The bytes behind the first `k` move to the front. -/
theorem moveCells_eq {k n : Nat} (hdst : Starts dst xs) (hxs : k + n = xs.length) :
    ∃ dst', moveCells k n dst = .done dst' ∧ Starts dst' (xs.drop k) ∧ dst'.length = dst.length := by
  have hle : xs.length ≤ dst.length := by
    have := List.IsPrefix.length_le hdst
    rwa [length_map] at this
  have hloop := @Exec.count_returns _ (fun i buf => do
    let b ← buf.read (k + i)
    buf.write i b) (fun i d => Starts d ((xs.drop k).take i) ∧ d.length = dst.length ∧
      ∀ j, i ≤ j → d[j]? = dst[j]?) n dst
    ⟨ nil_prefix, rfl, fun _ _ => rfl⟩ (by
      rintro i hi d ⟨hd, hlen, hkeep⟩
      have hlt : k + i < xs.length := by omega
      have hpos : ((xs.drop k).take i).length = i := by
        rw [length_take, length_drop]
        omega
      have hget : dst[k + i]? = some (some (xs.get ⟨k + i, hlt⟩)) := hdst.getElem? (getElem?_eq_getElem hlt)
      have hread : d.read (k + i) = .done (xs.get ⟨k + i, hlt⟩) := read_eq (by rw [hkeep _ (by omega), hget])
      obtain ⟨d', hwrite, hstarts, hlen'⟩ := starts_concat hd (by omega) (xs.get ⟨k + i, hlt⟩)
      rw [hpos] at hwrite
      rw [hread, done_bind, hwrite]
      refine .done ⟨?_, by omega, fun j hj => ?_⟩
      · rw [take_add_one, getElem?_drop, getElem?_eq_getElem hlt]
        exact hstarts
      · have hd' : d' = d.set i (some (xs.get ⟨k + i, hlt⟩)) := by
          rw [write_eq _ (by omega)] at hwrite
          exact (done.inj hwrite).symm
        rw [hd', getElem?_set_ne (by omega), hkeep j (by omega)])
  obtain ⟨d, heq, hd, hlen, -⟩ := returns_iff.mp hloop
  rw [take_of_length_le (by rw [length_drop]; omega)] at hd
  exact ⟨d, heq, hd, hlen⟩

theorem contents_take (hdst : Starts dst xs) : contents (dst.take xs.length) = .done xs := by
  obtain ⟨r, rfl⟩ := hdst
  rw [take_append_of_le_length (by simp), take_of_length_le (by simp)]
  exact contents_ofList xs

/-- The number of bytes that are copied to a caller with room for `m`. -/
theorem drop_copyLen (xs : List U8) (m : Nat) : (if xs.length > m then m else xs.length) ≤ xs.length ∧
      xs.drop (if xs.length > m then m else xs.length) = xs.drop m := by
  split
  · exact ⟨by omega, rfl⟩
  · exact ⟨le_refl _, by rw [drop_length, drop_of_length_le (by omega)]⟩

/-- The bytes that are copied to a caller with room for `m`. -/
theorem copyOut_eq {p : Nat} (hsrc : ∀ i (hi : i < xs.length), src.read (p + i) = .done (xs.get ⟨i, hi⟩)) (m : Nat) :
    ∃ buf, copyCells src p (unset m) 0 (if xs.length > m then m else xs.length) = .done buf ∧
      contents (buf.take (if xs.length > m then m else xs.length)) = .done (xs.take m) := by
  have hlen : (xs.take m).length = if xs.length > m then m else xs.length := by
    rw [length_take]
    split <;> omega
  obtain ⟨buf, hcopy, hstarts, -⟩ := @copyCells_eq src (unset m) (xs.take m) [] p
    (fun i hi => by
      rw [hsrc i (by rw [length_take] at hi; omega)]
      simp only [get_eq_getElem, getElem_take])
    nil_prefix (by rw [length_nil, length_unset, length_take]; omega)
  have hcontents := contents_take hstarts
  rw [nil_append, hlen] at hcontents
  rw [length_nil, hlen] at hcopy
  exact ⟨buf, hcopy, hcontents⟩

end Copy

/-! ## The peer's stream -/

section Follow

variable {S : List U8} {base : Nat} {s : StreamState} {frame : Frame}

/-- The frame carries the bytes `offset`, …, `offset + n` of the stream with their true sequence number, and `FIN` only
at the end of the stream. The first byte of the stream has the number `base`. -/
structure Carries (S : List U8) (base : Nat) (frame : Frame) (offset n : Nat) : Prop where
  inside : offset + n ≤ S.length
  seq : beValue (bytesAt frame 38 4) = u32 (base + offset)
  total : beValue (bytesAt frame 16 2) = 20 + headerLen frame + n
  payload : bytesAt frame (34 + headerLen frame) n = (S.drop offset).take n
  fin : frame.getD 47 0 &&& tcpFlagFin ≠ 0 → offset + n = S.length

/-- A segment that is next: its payload, if it has one, starts where what was returned and what is pending end, and
there is room for it in the receive buffer and in the pending buffer. -/
def InOrder (S : List U8) (base : Nat) (s : StreamState) (frame : Frame) : Prop :=
  ∃ offset n, Carries S base frame offset n ∧ (n = 0 ∨ offset = s.received.length + s.conn.pendingLen) ∧
    34 + headerLen frame + n ≤ frameBufLen ∧ n ≤ tcpStreamPendingBufLen - s.conn.pendingLen

/-- The condition on a call: a send is one that fits a frame, frames have at least the size that Ethernet asks for, and
the segment that the call takes is next. -/
def Meets (S : List U8) (base : Nat) (s : StreamState) : StreamCall → Prop
  | .send data attempts => data.length ≤ 1446 ∧ (∀ i, FramesOk (attempts i).polls) ∧
      ∀ frame, (sendTakes s.conn attempts tcpMaxAttempts s.drops).1 = some frame → InOrder S base s frame
  | .receive _ polls => FramesOk polls ∧ (s.conn.pendingLen = 0 → s.conn.peerFinished = false →
      ∀ frame, (waitFor s.conn polls s.drops).1 = some frame → InOrder S base s frame)

/-- The condition on every call of a run. -/
def MeetsAll (S : List U8) (base : Nat) (s : StreamState) (calls : List StreamCall) : Prop :=
  LoopMeets (fun call s => call.run s) (fun call s => Meets S base s call) calls s

/-- The connection holds `pend` in its pending buffer. -/
structure TcpConn.Holds (c : TcpConn) (pend : List U8) : Prop where
  starts : Starts c.pendingBuf pend
  length : pend.length = c.pendingLen
  size : c.pendingBuf.length = tcpStreamPendingBufLen

/-- **The invariant**: what was returned and what is pending are the stream up to a place. -/
def StreamState.Follows (S : List U8) (s : StreamState) : Prop :=
  ∃ pend, s.conn.Holds pend ∧ s.received ++ pend <+: S

variable {c : TcpConn} {pend : List U8}

theorem TcpConn.Holds.le (h : c.Holds pend) : c.pendingLen ≤ tcpStreamPendingBufLen := by
  have := List.IsPrefix.length_le h.starts
  rw [length_map, h.length, h.size] at this
  exact this

theorem TcpConn.Holds.finish (h : c.Holds pend) (flags : U8) : (c.finish flags).Holds pend := by
  unfold TcpConn.finish
  split
  · exact ⟨h.starts, h.length, h.size⟩
  · exact h

/-- The payload of the segment in the receive buffer. -/
structure Payload (frame : Frame) (recvBuf : Cells U8) (xs : List U8) : Prop where
  length : (infoOf frame).payloadLen = xs.length
  read : ∀ i (hi : i < xs.length), recvBuf.read ((infoOf frame).payloadOffset + i) = .done (xs.get ⟨i, hi⟩)
  small : xs.length ≤ tcpStreamPendingBufLen

theorem Carries.payloadLen {offset n : Nat} (h : Carries S base frame offset n) (hn : n < 2 ^ 16) :
    (infoOf frame).payloadLen = n := by
  show u16 (2 ^ 16 + beValue (bytesAt frame 16 2) - 20 - headerLen frame) = n
  rw [h.total]
  unfold u16
  omega

/-- A segment that is next brings the next bytes of the stream. -/
theorem InOrder.payload (h : InOrder S base s frame) {pend : List U8} (hpend : s.conn.Holds pend)
    (hfollows : s.received ++ pend <+: S) {recvBuf : Cells U8} (hbuf : Starts recvBuf (frame.take frameBufLen)) :
    ∃ xs, Payload frame recvBuf xs ∧ xs.length ≤ tcpStreamPendingBufLen - s.conn.pendingLen ∧
      s.received ++ pend ++ xs <+: S := by
  obtain ⟨offset, n, hc, hnext, hfits, hroom⟩ := h
  have hlen : ((S.drop offset).take n).length = n := by
    have := hc.inside
    rw [length_take, length_drop]
    omega
  refine ⟨(S.drop offset).take n, ⟨?_, ?_, ?_⟩, by omega, ?_⟩
  · rw [hlen]
    unfold frameBufLen at hfits
    exact hc.payloadLen (by omega)
  · intro i hi
    rw [hlen] at hi
    refine hbuf.read ?_
    show (frame.take frameBufLen)[34 + headerLen frame + i]? = _
    rw [getElem?_take_of_lt (by omega), ← getElem?_bytesAt frame (34 + headerLen frame) hi, hc.payload,
      getElem?_eq_getElem]
    rfl
  · rw [hlen]
    exact le_trans hroom (sub_le _ _)
  · rcases hnext with rfl | rfl
    · rw [take_zero, append_nil]
      exact hfollows
    · obtain ⟨r, rfl⟩ := hfollows
      rw [← hpend.length, ← length_append, drop_left]
      exact (prefix_append_right_inj _).mpr ( take_prefix _ _)

variable {recvBuf : Cells U8} {xs : List U8}

/-- A payload that came with the answer to a send is pending. -/
theorem stash_holds (hpend : c.Holds pend) (hxs : Payload frame recvBuf xs)
    (hroom : xs.length ≤ tcpStreamPendingBufLen - c.pendingLen) :
    ∃ c', c.stash (infoOf frame) recvBuf = .done c' ∧ c'.Holds (pend ++ xs) := by
  have hlen := hpend.length
  have hsize := hpend.size
  unfold TcpConn.stash
  rw [hxs.length]
  by_cases hpos : xs.length > 0
  · have hspace : u16 (2 ^ 16 + tcpStreamPendingBufLen - c.pendingLen) = tcpStreamPendingBufLen - c.pendingLen := by
      unfold u16 tcpStreamPendingBufLen at *
      omega
    have hsum : u16 (c.pendingLen + xs.length) = c.pendingLen + xs.length := by
      unfold u16 tcpStreamPendingBufLen at *
      omega
    obtain ⟨buf, hcopy, hstarts, hbuf⟩ := copyCells_eq hxs.read hpend.starts (by omega)
    rw [if_pos hpos]
    simp only [hspace]
    rw [if_neg (by omega), ← hlen, hcopy, done_bind, hlen, hsum]
    exact ⟨_, rfl, hstarts, by rw [length_append, hlen], by rw [hbuf, hsize]⟩
  · obtain rfl : xs = [] := length_eq_zero_iff.mp (by omega)
    rw [if_neg hpos, append_nil]
    exact ⟨c, rfl, hpend⟩

theorem send_follows {data : List U8} {attempts : Nat → Attempt} (h : s.Follows S)
    (hm : Meets S base s (.send data attempts)) :
    (StreamCall.run s (.send data attempts)).Returns (StreamState.Follows S) := by
  obtain ⟨hdata, hpolls, hnext⟩ := hm
  obtain ⟨pend, hpend, hprefix⟩ := h
  obtain ⟨buf, hsend, htakes⟩ := tcpSendReliable_eq s.conn hdata hpolls tcpMaxAttempts s.drops
    (length_unset frameBufLen)
  simp only [StreamCall.run, tcpStreamSend, hsend, done_bind]
  rcases htake : sendTakes s.conn attempts tcpMaxAttempts s.drops with ⟨_ | frame, drops⟩
  · exact .done ⟨pend, hpend, hprefix⟩
  · rw [htake] at htakes hnext
    obtain ⟨-, hbuf⟩ := htakes frame rfl
    obtain ⟨xs, hxs, hroom, hlonger⟩ := (hnext frame rfl).payload hpend hprefix hbuf
    have hpend' : TcpConn.Holds { s.conn with mySeq := u32 (s.conn.mySeq + data.length) } pend :=
      ⟨hpend.starts, hpend.length, hpend.size⟩
    obtain ⟨c, hstash, hholds⟩ := stash_holds hpend' hxs hroom
    simp only [Option.map_some, hstash, done_bind]
    refine .done ⟨pend ++ xs, hholds.finish _, ?_⟩
    rw [← append_assoc]
    exact hlonger

theorem drain_holds (hpend : c.Holds pend) (maxLen : Nat) :
    ∃ c', c.drain maxLen = .done (pend.take maxLen, c') ∧ c'.Holds (pend.drop maxLen) := by
  have hle := hpend.le
  have hlen := hpend.length
  obtain ⟨buf, hcopy, hcontents⟩ := @copyOut_eq c.pendingBuf pend 0
    (fun i hi => by
      rw [zero_add]
      exact hpend.starts.read (getElem?_eq_getElem hi)) maxLen
  obtain ⟨hk, hdrop⟩ := drop_copyLen pend maxLen
  unfold TcpConn.drain
  rw [← hlen]
  generalize (if pend.length > maxLen then maxLen else pend.length) = k at *
  have hremaining : u16 (2 ^ 16 + pend.length - k) = pend.length - k := by
    unfold u16 tcpStreamPendingBufLen at *
    omega
  obtain ⟨pendingBuf, hmove, hrest, hsize⟩ :=
    @moveCells_eq c.pendingBuf pend k (pend.length - k) hpend.starts (by omega)
  simp only [hcopy, done_bind, hremaining, hmove, hcontents]
  refine ⟨_, rfl, ?_⟩
  rw [← hdrop]
  exact ⟨hrest, length_drop, hsize.trans hpend.size⟩

theorem keep_holds (hpend : c.Holds []) (hxs : Payload frame recvBuf xs) {k : Nat} (hk : k ≤ xs.length) :
    ∃ c', c.keep (infoOf frame) recvBuf k = .done c' ∧ c'.Holds (xs.drop k) := by
  have hsmall := hxs.small
  have hleftover : u16 (2 ^ 16 + xs.length - k) = (xs.drop k).length := by
    rw [length_drop]
    unfold u16 tcpStreamPendingBufLen at *
    omega
  have hdropLen : (xs.drop k).length = xs.length - k := length_drop
  unfold TcpConn.keep
  rw [hxs.length, hleftover]
  by_cases hpos : (xs.drop k).length > 0
  · obtain ⟨buf, hcopy, hstarts, hsize⟩ := @copyCells_eq recvBuf c.pendingBuf (xs.drop k) []
      ((infoOf frame).payloadOffset + k)
      (fun i hi => by
        rw [add_assoc, hxs.read (k + i) (by omega)]
        simp only [get_eq_getElem, getElem_drop])
      nil_prefix (by rw [hpend.size, length_nil]; omega)
    rw [length_nil] at hcopy
    rw [if_pos ⟨hpos, by omega⟩, hcopy, done_bind]
    exact ⟨_, rfl, hstarts, rfl, hsize.trans hpend.size⟩
  · have hnil : xs.drop k = [] := length_eq_zero_iff.mp (by omega)
    rw [if_neg (by omega), hnil]
    exact ⟨c, rfl, hpend⟩

/-- The payload of a segment is returned, or pending where there is no room. -/
theorem accept_holds (hpend : c.Holds []) (hxs : Payload frame recvBuf xs) (maxLen : Nat) :
    ∃ c', c.accept (infoOf frame) recvBuf maxLen = .done (xs.take maxLen, c') ∧ c'.Holds (xs.drop maxLen) := by
  obtain ⟨buf, hcopy, hcontents⟩ := copyOut_eq hxs.read maxLen
  obtain ⟨hk, hdrop⟩ := drop_copyLen xs maxLen
  unfold TcpConn.accept
  rw [hxs.length]
  generalize (if xs.length > maxLen then maxLen else xs.length) = k at *
  obtain ⟨c', hkeep, hholds⟩ := keep_holds hpend hxs hk
  simp only [hcopy, done_bind, hkeep, hcontents]
  refine ⟨_, rfl, TcpConn.Holds.finish ?_ _⟩
  rw [← hdrop]
  exact ⟨hholds.starts, hholds.length, hholds.size⟩

theorem receive_follows {maxLen : Nat} {polls : List Frame} (h : s.Follows S) (hm : Meets S base s (.receive maxLen polls)) :
    (StreamCall.run s (.receive maxLen polls)).Returns (StreamState.Follows S) := by
  obtain ⟨hpolls, hnext⟩ := hm
  obtain ⟨pend, hpend, hprefix⟩ := h
  have hlen := hpend.length
  by_cases hpos : s.conn.pendingLen > 0
  · obtain ⟨c, hdrain, hholds⟩ := drain_holds hpend maxLen
    simp only [StreamCall.run, tcpStreamReceive, if_pos hpos, hdrain, done_bind]
    refine .done ⟨pend.drop maxLen, hholds, ?_⟩
    show s.received ++ pend.take maxLen ++ pend.drop maxLen <+: S
    rw [append_assoc, take_append_drop]
    exact hprefix
  · obtain rfl : pend = [] := length_eq_zero_iff.mp (by omega)
    have hsame : (⟨s.conn, s.drops, s.received ++ []⟩ : StreamState).Follows S :=
      ⟨[], hpend, by rw [append_nil]; exact hprefix⟩
    by_cases hfin : s.conn.peerFinished = true
    · simp only [StreamCall.run, tcpStreamReceive, if_neg hpos, if_pos hfin]
      exact .done hsame
    · obtain ⟨buf, -, hwait, htakes⟩ := tcpWaitSegment_eq s.conn hpolls s.drops (length_unset frameBufLen)
      simp only [StreamCall.run, tcpStreamReceive, if_neg hpos, if_neg hfin, hwait, done_bind]
      rcases htake : waitFor s.conn polls s.drops with ⟨_ | frame, drops⟩
      · exact .done hsame
      · rw [htake] at htakes hnext
        obtain ⟨-, -, hbuf⟩ := htakes frame rfl
        obtain ⟨xs, hxs, -, hlonger⟩ :=
          (hnext (by omega) (by simpa using hfin) frame rfl).payload hpend hprefix hbuf
        obtain ⟨c, haccept, hholds⟩ := accept_holds hpend hxs maxLen
        simp only [Option.map_some, haccept, done_bind]
        refine .done ⟨xs.drop maxLen, hholds, ?_⟩
        show s.received ++ xs.take maxLen ++ xs.drop maxLen <+: S
        rw [append_assoc, take_append_drop]
        rw [append_nil] at hlonger
        exact hlonger

theorem run_follows (h : s.Follows S) {call : StreamCall} (hm : Meets S base s call) :
    (call.run s).Returns (StreamState.Follows S) := by
  cases call with
  | send data attempts => exact send_follows h hm
  | receive maxLen polls => exact receive_follows h hm

/-- The connection as `tcp_stream_open` leaves it: the next byte of the peer has the number `base`. -/
structure Opened (base : Nat) (s : StreamState) : Prop where
  peerSeq : s.conn.peerSeq = u32 base
  peerFinished : s.conn.peerFinished = false
  pendingLen : s.conn.pendingLen = 0
  size : s.conn.pendingBuf.length = tcpStreamPendingBufLen
  received : s.received = []

/-- **The bytes that `tcp_stream_receive` returns are the stream up to a place**, in every run whose calls all meet the
condition. -/
theorem tcpStream_integrity (S : List U8) (base : Nat) (s : StreamState) (calls : List StreamCall)
    (h : Opened base s) (hm : MeetsAll S base s calls) : ∃ s', runStream s calls = .done s' ∧ s'.received <+: S := by
  have hstart : s.Follows S :=
    ⟨[], ⟨ nil_prefix, h.pendingLen.symm, h.size⟩, by rw [h.received]; exact nil_prefix⟩
  obtain ⟨s', hrun, pend, -, hprefix⟩ := returns_iff.mp (hm.returns _ (fun _ _ h hm => run_follows h hm) hstart)
  exact ⟨s', hrun, (prefix_append _ _).trans hprefix⟩

end Follow

/-! ## Two runs -/

/-- A connection to port 80 of `10.0.2.2` that has just been opened. -/
def freshStream : StreamState :=
  ⟨⟨[10, 0, 2, 2], 80, 0xC000, 1001, 1, false, unset tcpStreamPendingBufLen, 0, by decide⟩, 0, []⟩

/-- A byte with its sequence number, in a frame of the smallest size. -/
def byteSegment (seq byte : U8) : Frame :=
  [0, 0, 0, 0, 0, 0, 0, 0, 0, 0, 0, 0, 0x08, 0x00] ++
  [0x45, 0, 0, 41, 0, 0, 0, 0, 64, 6, 0, 0, 10, 0, 2, 2, 10, 0, 2, 15] ++
  [0, 80, 0xC0, 0, 0, 0, 0, seq, 0, 0, 0x03, 0xE9, 0x50, 0x18, 0x20, 0, 0, 0, 0, 0] ++
  [byte, 0, 0, 0, 0, 0]

/-- The first byte of the stream `AB`. -/
def segmentA : Frame := byteSegment 1 0x41

def segmentB : Frame := byteSegment 2 0x42

theorem segmentA_carries : Carries [0x41, 0x42] 1 segmentA 0 1 :=
  ⟨by decide, by decide, by decide, by decide, by decide⟩

theorem freshStream_opened : Opened 1 freshStream := ⟨rfl, rfl, rfl, length_unset _, rfl⟩

/-- Two receives that take the two segments. -/
theorem tcpStream_integrity_two :
    ∃ s', runStream freshStream [.receive 10 [[], segmentA], .receive 10 [segmentB]] = .done s' ∧
      s'.received <+: [0x41, 0x42] := by
  refine tcpStream_integrity [0x41, 0x42] 1 freshStream _ freshStream_opened
    ⟨⟨by unfold FramesOk; decide, ?_⟩, fun s hs => ⟨⟨by unfold FramesOk; decide, ?_⟩, fun _ _ => trivial⟩⟩
  · intro _ _ frame hframe
    obtain rfl : segmentA = frame := Option.some.inj (Eq.trans (by decide) hframe)
    exact ⟨0, 1, segmentA_carries, .inr rfl, by decide, by decide⟩
  · have hreceived : (StreamCall.run freshStream (.receive 10 [[], segmentA]) >>= fun s => .done s.received) =
      .done [0x41] := by decide +kernel
    dsimp only at hs
    rw [hs, done_bind] at hreceived
    intro hpending _ frame hframe
    obtain rfl : segmentB = frame := by
      simp only [waitFor] at hframe
      split_ifs at hframe
      exact Option.some.inj hframe
    exact ⟨1, 1, ⟨by decide, by decide, by decide, by decide, by decide⟩, .inr (by rw [done.inj hreceived, hpending]; rfl),
      by decide, by rw [hpending]; decide⟩

/-- **A segment that arrives twice is returned twice.** -/
theorem tcpStream_duplicate : Opened 1 freshStream ∧ Carries [0x41, 0x42] 1 segmentA 0 1 ∧
      (runStream freshStream [.receive 10 [segmentA], .receive 10 [segmentA]] >>= fun s => .done s.received) =
        .done [0x41, 0x41] ∧ ¬ [0x41, 0x41] <+: ([0x41, 0x42] : List U8) :=
  ⟨freshStream_opened, segmentA_carries, by decide +kernel, by decide⟩

end MinicOs
