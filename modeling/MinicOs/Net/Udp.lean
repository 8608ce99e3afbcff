import MinicOs.Net.Stream

/-!
# Receiving a datagram

Model of `udp_receive` of `kernel/net/udp/udp.c`. As for TCP, the network is what `netdev_receive` gives in each round
before the time is up. `reply` is not cleared between the rounds, so behind a short frame the bytes of the frames
before it are still there, and at first whatever was on the stack.

The length that is returned is the one of the UDP header minus 8, as a `u16`, whatever `max_len`, the size of `reply`
and the length of the frame are.
-/

namespace MinicOs

open Exec Cells

def ipProtocolUdp : U8 := 17

/-- The sender and the ports that `udp_receive` waits for. -/
structure UdpPeer where
  srcIp : List U8
  srcPort : Nat
  dstPort : Nat

/-- The tests of `udp_receive`: IPv4, UDP, the address of the sender and the two ports. -/
def UdpPeer.Matches (peer : UdpPeer) (reply : List U8) : Prop :=
  bytesAt reply 12 2 = [0x08, 0x00] ∧ bytesAt reply (14 + 9) 1 = [ipProtocolUdp] ∧
    bytesAt reply (14 + 12) 4 = peer.srcIp ∧ beValue (bytesAt reply 34 2) = peer.srcPort ∧
    beValue (bytesAt reply 36 2) = peer.dstPort

instance (peer : UdpPeer) (reply : List U8) : Decidable (peer.Matches reply) :=
  inferInstanceAs (Decidable (_ ∧ _))

def udpLen (reply : List U8) : Nat := beValue (bytesAt reply 38 2)

/-- The rounds up to the datagram: its frame, and `reply` with it. -/
def udpPoll (peer : UdpPeer) : List Frame → List U8 → Option (Frame × List U8)
  | [], _ => none
  | frame :: polls, reply =>
    let reply := frame.take reply.length ++ reply.drop frame.length
    if frame.length > 0 ∧ peer.Matches reply then some (frame, reply) else udpPoll peer polls reply

/-- `udp_receive`, from the bytes of `reply` on the stack: what is returned, and `out`. -/
def udpReceive (peer : UdpPeer) (maxLen : Nat) (polls : List Frame) (stack : Vector U8 160) : Exec (Nat × Cells U8) :=
  match udpPoll peer polls stack.toList with
  | none => return (0, unset maxLen)
  | some (_, reply) => do
    let payloadLen := u16 (2 ^ 16 + udpLen reply - 8)
    let copyLen := if payloadLen > maxLen then maxLen else payloadLen
    let out ← copyCells (ofList reply) 42 (unset maxLen) 0 copyLen
    return (payloadLen, out)

/-- No access leaves a buffer, and `n > 0` bytes that are returned fit `out` and are the first `n` of the payload in the
frame that was taken, which is one from the peer. -/
def UdpReceived (peer : UdpPeer) (maxLen : Nat) (polls : List Frame) (stack : Vector U8 160) : Prop :=
  (udpReceive peer maxLen polls stack).Returns fun r => 0 < r.1 → r.1 ≤ maxLen ∧
    ∃ frame reply, udpPoll peer polls stack.toList = some (frame, reply) ∧ peer.Matches frame ∧
      42 + r.1 ≤ frame.length ∧ r.2.Starts (bytesAt frame 42 r.1)

variable {peer : UdpPeer} {maxLen : Nat} {polls : List Frame} {frame : Frame} {stack reply : List U8}

/-- The bytes at the start of `reply` are those of the frame that was taken. -/
theorem udpPoll_takes (h : udpPoll peer polls stack = some (frame, reply)) :
    peer.Matches reply ∧ reply.length = stack.length ∧
      ∀ p n, p + n ≤ frame.length → p + n ≤ stack.length → bytesAt reply p n = bytesAt frame p n := by
  induction polls generalizing stack with
  | nil => cases h
  | cons f polls ih =>
    have hlen : (f.take stack.length ++ stack.drop f.length).length = stack.length := by
      rw [List.length_append, List.length_take, List.length_drop]
      omega
    rw [udpPoll] at h
    split at h
    next hf =>
      obtain ⟨rfl, rfl⟩ : f = frame ∧ _ = reply := by simpa using h
      refine ⟨hf.2, hlen, fun p n hp hn => ?_⟩
      unfold bytesAt
      rw [List.drop_append_of_le_length (by rw [List.length_take]; omega), List.take_append_of_le_length
        (by rw [List.length_drop, List.length_take]; omega), List.drop_take, List.take_take, Nat.min_eq_left (by omega)]
    next =>
      have htaken := ih h
      rwa [hlen] at htaken

theorem udpLen_lt (reply : List U8) : udpLen reply < 2 ^ 16 := by
  refine Nat.lt_of_lt_of_le (beValue_lt _) (Nat.pow_le_pow_right (by omega) ?_)
  unfold bytesAt
  rw [List.length_take]
  omega

theorem udpCopy_eq {n : Nat} (hn : n ≤ maxLen) (hreply : 42 + n ≤ reply.length) :
    ∃ out, copyCells (ofList reply) 42 (unset maxLen) 0 n = .done out ∧ out.Starts (bytesAt reply 42 n) := by
  have hlen := length_bytesAt hreply
  obtain ⟨out, hcopy, hstarts, -⟩ := @copyCells_eq (ofList reply) (unset maxLen) (bytesAt reply 42 n) [] 42
    (fun i hi => read_ofList (by rw [← getElem?_bytesAt reply 42 (hlen ▸ hi), List.getElem?_eq_getElem hi]; rfl))
    List.nil_prefix (by rw [hlen, length_unset, List.length_nil]; omega)
  rw [hlen] at hcopy
  exact ⟨out, hcopy, hstarts⟩

/-- **When only received data is returned.** -/
theorem udpReceive_received_iff (peer : UdpPeer) (maxLen : Nat) (polls : List Frame) (stack : Vector U8 160) :
    UdpReceived peer maxLen polls stack ↔ ∀ frame reply, udpPoll peer polls stack.toList = some (frame, reply) →
      udpLen reply = 8 ∨ 8 < udpLen reply ∧ udpLen reply ≤ 8 + maxLen ∧ 34 + udpLen reply ≤ min 160 frame.length := by
  unfold UdpReceived udpReceive
  cases hpoll : udpPoll peer polls stack.toList with
  | none => exact ⟨fun _ frame reply h => (by cases h), fun _ => .done fun h => absurd h (Nat.lt_irrefl 0)⟩
  | some taken =>
    obtain ⟨frame, reply⟩ := taken
    obtain ⟨hmatches, hlen, hbytes⟩ := udpPoll_takes hpoll
    rw [Vector.length_toList] at hlen hbytes
    have hlt := udpLen_lt reply
    dsimp only
    generalize hn : u16 (2 ^ 16 + udpLen reply - 8) = n
    unfold u16 at hn
    constructor
    · intro h _ _ htaken
      cases htaken
      obtain ⟨r, heq, hr⟩ := returns_iff.mp h
      obtain ⟨out, hcopy, hout⟩ := bind_eq_done.mp heq
      obtain rfl := Exec.done.inj hout
      have hfits : 0 < n → n ≤ maxLen ∧ 42 + n ≤ frame.length := by
        intro hpos
        obtain ⟨hmax, _, _, htaken, -, hframe, -⟩ := hr hpos
        cases htaken
        exact ⟨hmax, hframe⟩
      clear hr
      by_cases hzero : n = 0
      · exact .inl (by omega)
      · rw [if_neg (by omega)] at hcopy
        have hlast := ((copyCells_checks _ _ _ _ _).of_done hcopy (n - 1) (by omega)).1
        rw [length_ofList] at hlast
        exact .inr (by omega)
    · intro h
      have hfit := h frame reply rfl
      have hle : n ≤ maxLen ∧ 42 + n ≤ 160 := by omega
      obtain ⟨out, hcopy, hstarts⟩ := udpCopy_eq hle.1 (hlen ▸ hle.2)
      rw [if_neg (by omega), hcopy, done_bind]
      refine .done fun hpos => ⟨hle.1, frame, reply, rfl, ?_, ?_, ?_⟩
      · unfold UdpPeer.Matches at hmatches ⊢
        simpa (disch := omega) only [hbytes] using hmatches
      · dsimp only at hpos ⊢
        omega
      · rw [← hbytes 42 n (by omega) (by omega)]
        exact hstarts

/-- The DNS server of the examples, at port 53. -/
def dnsPeer : UdpPeer := ⟨[10, 0, 2, 3], 53, 12345⟩

/-- A frame of it with 18 bytes of payload; the UDP header gives the length. -/
def datagramClaiming (len : U8) : Frame :=
  [0, 0, 0, 0, 0, 0, 0, 0, 0, 0, 0, 0, 0x08, 0x00] ++
  [0x45, 0, 0, 46, 0, 0, 0, 0, 64, 17, 0, 0, 10, 0, 2, 3, 10, 0, 2, 15] ++
  [0, 53, 0x30, 0x39, 0, len, 0, 0] ++ List.replicate 18 0x41

/-- **A length of 7 makes a payload of 65535 bytes**, which is read beyond `reply`. -/
theorem not_received_short : ¬ UdpReceived dnsPeer 256 [datagramClaiming 7] (Vector.replicate 160 0) := by
  have hread : udpReceive dnsPeer 256 [datagramClaiming 7] (Vector.replicate 160 0) = .undefined := by decide +kernel
  unfold UdpReceived
  rw [hread]
  rintro ⟨⟩

end MinicOs
