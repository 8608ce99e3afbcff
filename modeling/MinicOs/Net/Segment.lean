import MinicOs.Net.Tcp

/-!
# The payload of a received segment

`tcp_wait_segment` takes the payload length from the headers alone: the total length of the IP header minus 20 and
the length of the TCP header, as a `u16`, and never looks at how many bytes of the frame are in the buffer.
-/

namespace MinicOs

open Exec Cells

variable {c : TcpConn} {polls : List Frame} {drops drops' : Nat} {buf buf' : Cells U8} {info : SegmentInfo}

/-- The wait passes over the rounds before `frame` and takes it: its first bytes are what is then at the start of the
buffer. -/
def Takes (c : TcpConn) (polls : List Frame) (drops : Nat) (buf : Cells U8) (frame : Frame) (buf' : Cells U8) : Prop :=
  ∃ before after drops₁ buf₁, polls = before ++ frame :: after ∧ frame ≠ [] ∧
    tcpWaitSegment c before drops buf = .done (none, drops₁, buf₁) ∧ buf' = buf₁.fill (frame.take frameBufLen)

/-- The lengths that the headers in the buffer give: of the IP packet and of the TCP header. -/
def headerLens (buf : Cells U8) : Exec (Nat × Nat) := do
  let ipTotalLen ← cellsU16 buf 16
  let offsetByte ← buf.read 46
  return (ipTotalLen, (offsetByte.toNat >>> 4) * 4)

/-- A round of the wait passes over the frame, takes it, or does not end well. -/
theorem tcpWaitSegment_round (c : TcpConn) (frame : Frame) (drops : Nat) (buf : Cells U8) :
    (∃ drops₀, ∀ polls, tcpWaitSegment c (frame :: polls) drops buf =
        tcpWaitSegment c polls drops₀ (buf.fill (frame.take buf.length))) ∨
      (frame ≠ [] ∧ ∀ polls, tcpWaitSegment c (frame :: polls) drops buf =
        segmentInfo (buf.fill (frame.take buf.length)) >>= fun info =>
          .done (some info, drops, buf.fill (frame.take buf.length))) ∨
      ∀ polls r, tcpWaitSegment c (frame :: polls) drops buf ≠ .done r := by
  by_cases hlen : frame.length = 0
  · refine .inl ⟨drops, fun polls => ?_⟩
    exact if_pos hlen
  · cases hmatch : segmentMatches c (buf.fill (frame.take buf.length)) with
    | undefined =>
      refine .inr (.inr fun polls r => ?_)
      rw [tcpWaitSegment]
      simp [hlen, hmatch]
    | refused =>
      refine .inr (.inr fun polls r => ?_)
      rw [tcpWaitSegment]
      simp [hlen, hmatch]
    | done ok =>
      cases ok with
      | false =>
        refine .inl ⟨drops, fun polls => ?_⟩
        rw [tcpWaitSegment]
        simp [hlen, hmatch]
      | true =>
        by_cases hdrops : drops > 0
        · refine .inl ⟨drops - 1, fun polls => ?_⟩
          rw [tcpWaitSegment]
          simp [hlen, hmatch, hdrops]
        · refine .inr (.inl ⟨fun hnil => hlen (by rw [hnil]; rfl), fun polls => ?_⟩)
          rw [tcpWaitSegment]
          simp [hlen, hmatch, hdrops]

/-- **The segment a wait reports is in the frame it took last.** -/
theorem tcpWaitSegment_takes (hbuf : buf.length = frameBufLen)
    (h : tcpWaitSegment c polls drops buf = .done (some info, drops', buf')) :
    ∃ frame, Takes c polls drops buf frame buf' ∧ segmentInfo buf' = .done info := by
  induction polls generalizing drops buf with
  | nil => simp [tcpWaitSegment] at h
  | cons frame polls ih =>
    have hle : (frame.take buf.length).length ≤ buf.length := by
      rw [List.length_take]
      exact Nat.min_le_left _ _
    rcases tcpWaitSegment_round c frame drops buf with ⟨drops₀, hpass⟩ | ⟨hne, htake⟩ | hbad
    · rw [hpass] at h
      obtain ⟨f, ⟨before, after, drops₁, buf₁, rfl, hf, hwait, hfill⟩, hinfo⟩ :=
        ih ((length_fill hle).trans hbuf) h
      exact ⟨f, ⟨frame :: before, after, drops₁, buf₁, rfl, hf, by rw [hpass, hwait], hfill⟩, hinfo⟩
    · rw [htake, bind_eq_done] at h
      obtain ⟨i, hi, heq⟩ := h
      obtain ⟨hinfo, -, rfl⟩ : i = info ∧ drops = drops' ∧ buf.fill (frame.take buf.length) = buf' := by
        simpa using heq
      subst hinfo
      exact ⟨frame, ⟨[], polls, drops, buf, rfl, hne, rfl, by rw [hbuf]⟩, hi⟩
    · exact absurd h (hbad polls _)

theorem headerLens_of_segmentInfo (h : segmentInfo buf = .done info) :
    ∃ total headerLen, headerLens buf = .done (total, headerLen) ∧ headerLen ≤ 60 ∧ total < 2 ^ 16 ∧
      info.payloadLen = u16 (2 ^ 16 + total - 20 - headerLen) ∧ info.payloadOffset = 34 + headerLen := by
  obtain ⟨total, htotal, h⟩ := bind_eq_done.mp h
  obtain ⟨seq, -, h⟩ := bind_eq_done.mp h
  obtain ⟨ack, -, h⟩ := bind_eq_done.mp h
  obtain ⟨flags, -, h⟩ := bind_eq_done.mp h
  obtain ⟨offsetByte, hoffset, h⟩ := bind_eq_done.mp h
  obtain rfl := done.inj h
  have hlt : total < 2 ^ 16 := by
    obtain ⟨b0, -, htotal⟩ := bind_eq_done.mp htotal
    obtain ⟨b1, -, htotal⟩ := bind_eq_done.mp htotal
    obtain rfl := done.inj htotal
    refine Nat.or_lt_two_pow ?_ (Nat.lt_of_lt_of_le b1.isLt (by decide))
    omega
  refine ⟨total, (offsetByte.toNat >>> 4) * 4, ?_, ?_, hlt, rfl, rfl⟩
  · unfold headerLens
    rw [htotal, done_bind, hoffset]
    rfl
  · have := offsetByte.isLt
    omega

/-- **When a received payload lies inside its frame**: the IP total length covers the two headers, and the bytes of the
frame that are in the buffer cover the total length. -/
theorem tcpWaitSegment_payload_iff (c : TcpConn) (polls : List Frame) (drops : Nat) (buf : Cells U8) (info : SegmentInfo)
    (drops' : Nat) (buf' : Cells U8) (hbuf : buf.length = frameBufLen)
    (h : tcpWaitSegment c polls drops buf = .done (some info, drops', buf')) :
    ∃ frame total headerLen, Takes c polls drops buf frame buf' ∧ headerLens buf' = .done (total, headerLen) ∧
      (info.payloadOffset + info.payloadLen ≤ (frame.take frameBufLen).length ↔
        20 + headerLen ≤ total ∧ 14 + total ≤ (frame.take frameBufLen).length) := by
  obtain ⟨frame, htakes, hinfo⟩ := tcpWaitSegment_takes hbuf h
  obtain ⟨total, headerLen, hlens, hheader, htotal, hpayload, hoffset⟩ := headerLens_of_segmentInfo hinfo
  refine ⟨frame, total, headerLen, htakes, hlens, ?_⟩
  have hstored : (frame.take frameBufLen).length ≤ 1500 := by
    rw [List.length_take]
    exact Nat.min_le_left _ _
  rw [hpayload, hoffset]
  unfold u16
  generalize (frame.take frameBufLen).length = stored at hstored
  -- a total length that does not cover the headers wraps around to at least 65456
  by_cases hcovers : 20 + headerLen ≤ total
  · have hmod : (2 ^ 16 + total - 20 - headerLen) % 2 ^ 16 = total - 20 - headerLen := by omega
    omega
  · have hmod : (2 ^ 16 + total - 20 - headerLen) % 2 ^ 16 = 2 ^ 16 + total - 20 - headerLen := by omega
    omega

/-- The peer of the two frames below. -/
def examplePeer : TcpConn := ⟨[10, 0, 2, 2], 80, 0xC000, 1001, 1, false, unset 0, 0, rfl⟩

/-- A frame of the smallest size with one byte of payload; the IP header gives the total length. -/
def frameClaiming (hi lo : U8) : Frame :=
  [0, 0, 0, 0, 0, 0, 0, 0, 0, 0, 0, 0, 0x08, 0x00] ++
  [0x45, 0, hi, lo, 0, 0, 0, 0, 64, 6, 0, 0, 10, 0, 2, 2, 10, 0, 2, 15] ++
  [0, 80, 0xC0, 0, 0, 0, 0, 1, 0, 0, 0x03, 0xE9, 0x50, 0x18, 0x20, 0, 0, 0, 0, 0] ++
  [0x41, 0, 0, 0, 0, 0]

deriving instance DecidableEq for SegmentInfo

/-- With a total length of 41 the payload is the one byte. -/
theorem tcpWaitSegment_payload_oneByte : ∃ frame total headerLen,
      Takes examplePeer [[], frameClaiming 0 41] 0 (unset frameBufLen) frame
        ((unset frameBufLen).fill (frameClaiming 0 41)) ∧
      headerLens ((unset frameBufLen).fill (frameClaiming 0 41)) = .done (total, headerLen) ∧
      (54 + 1 ≤ (frame.take frameBufLen).length ↔ 20 + headerLen ≤ total ∧ 14 + total ≤ (frame.take frameBufLen).length) :=
  tcpWaitSegment_payload_iff examplePeer [[], frameClaiming 0 41] 0 (unset frameBufLen) ⟨1, 1001, 0x18, 1, 54⟩ 0
    ((unset frameBufLen).fill (frameClaiming 0 41)) (length_unset _) (by decide +kernel)

/-- **A payload of 1460 bytes in a frame of 60**: only the total length says so. -/
theorem tcpWaitSegment_overlong : (frameClaiming 0x05 0xDC).length = 60 ∧
      (tcpWaitSegment examplePeer [frameClaiming 0x05 0xDC] 0 (unset frameBufLen) >>= fun r =>
        .done (r.1.map fun info => info.payloadOffset + info.payloadLen)) = .done (some 1514) :=
  ⟨by decide, by decide +kernel⟩

end MinicOs
