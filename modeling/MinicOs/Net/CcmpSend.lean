import MinicOs.Net.Ccmp

/-!
# What protected sending puts on the air

`rtw89_send_data_frame` over any sequence of fewer than `2 ^ 48` calls after a key has been installed. The
receiver is the one of the 802.11 standard: it takes the packet number from the CCMP header, authenticates
the header with the fields that may change masked, and checks the code.
-/

namespace MinicOs

open List

namespace Dot11

/-- The nonce: the priority, the sender and the packet number, its highest byte first. -/
def nonce (frame : List U8) : List U8 :=
  frameTid frame :: (bytesAt frame 10 6 ++ (framePn frame).toList.reverse)

/-- What is authenticated: the frame control field without the bits of the subtype, Retry, Power Management
and More Data, with Protected, and in a QoS frame without Order; the addresses; the fragment number; in a
QoS frame the traffic identifier. -/
def aad (frame : List U8) : List U8 :=
  let fc := frameControl frame &&& 0xC78F ||| 0x4000
  let qos := isQos (frameControl frame)
  u16Bytes (if qos then fc &&& 0x7FFF else fc) ++ bytesAt frame 4 18 ++ [frame.getD 22 0 &&& 0x0F, 0] ++
    if qos then [frameTid frame, 0] else []

/-- The receiver: the third address and the payload of a protected frame whose code is right. -/
def openCcmp (ciph : AesBlock → AesBlock) (frame : List U8) : Option (List U8 × List U8) :=
  let body := frame.drop (hdrLen frame + 8)
  let payload := Ccm.xorStream ciph 2 (nonce frame) 1 (body.take (body.length - 8))
  if isProtected (frameControl frame) = true ∧
      Ccm.tag ciph 8 2 (nonce frame) (aad frame) payload = body.drop (body.length - 8) then
    some (bytesAt frame 16 6, payload)
  else none

end Dot11

/-- The frames that a sequence of calls sends. -/
def sendRun : Radio → List (Mac × List U8) → List (Option (List U8))
  | _, [] => []
  | r, (dst, payload) :: calls =>
    (rtw89SendDataFrame r dst payload).1 :: sendRun (rtw89SendDataFrame r dst payload).2 calls

section Send

variable {r : Radio}

/-- The driver after a protected frame. -/
def Radio.sent (r : Radio) : Radio := { r with dataSeq := r.dataSeq + 1, txPn := pnIncrement r.txPn }

def sealedHeader (r : Radio) (dst : Mac) : List U8 := dot11Hdr 0x4188 r.bssid r.ourMac dst (r.dataSeq <<< 4) ++ [0, 0]

/-- The ciphertext and the code of a protected frame with the next packet number. -/
def sealedBody (r : Radio) (dst : Mac) (payload : List U8) : List U8 :=
  Ccm.ciphertext (aes128EncryptBlock r.roundKeys) 2 (buildCcmpNonce r.ourMac r.sent.txPn 0).toList payload ++
    Ccm.tag (aes128EncryptBlock r.roundKeys) 8 2 (buildCcmpNonce r.ourMac r.sent.txPn 0).toList
      (buildCcmpAad (sealedHeader r dst) 0x4188) payload

def sealedFrame (r : Radio) (dst : Mac) (payload : List U8) : List U8 :=
  sealedHeader r dst ++ ccmpHeader r.sent.txPn ++ sealedBody r dst payload

/-- **The frame a call puts together.** -/
theorem send_eq (hready : r.chipReady = true) (hinst : r.ccmpInstalled = true) (dst : Mac) {payload : List U8}
    (hlen : payload.length ≤ 2358) : rtw89SendDataFrame r dst payload = (some (sealedFrame r dst payload), r.sent) := by
  unfold rtw89SendDataFrame sealedFrame sealedBody
  rw [if_neg (by simp [hready]), if_neg (by omega), if_neg (by simp [hinst])]
  simp only [aesCcmEncrypt, ctrCrypt_eq]
  rw [maskedMac_eq _ _ (by simp [buildCcmpAad, u16Bytes]), append_assoc]
  rfl

theorem toList_buildCcmpNonce (a2 : Mac) (pn : Pn) :
    (buildCcmpNonce a2 pn 0).toList = 0 :: (a2.toList ++ pn.toList.reverse) := by
  unfold buildCcmpNonce
  rw [Vector.toList_append, Vector.toList_append, Vector.toList_reverse]
  rfl

theorem sixBytes (v : Mac) : ∃ a b c d e f, v = #v[a, b, c, d, e, f] := by
  refine ⟨v[0], v[1], v[2], v[3], v[4], v[5], Vector.ext fun i hi => ?_⟩
  interval_cases i <;> rfl

theorem shiftLeft_four_low (v : U16) : (v <<< 4).setWidth 8 &&& 0x0F = (0 : U8) := by
  ext i hi
  match i, hi with
  | 0, _ | 1, _ | 2, _ | 3, _ | 4, _ | 5, _ | 6, _ | 7, _ => simp

/-- The fields of the header that a protected frame begins with. -/
theorem sealedHeader_fields (r : Radio) (dst : Mac) (pn : Pn) (rest : List U8) :
    let frame := sealedHeader r dst ++ ccmpHeader pn ++ rest
    frameControl frame = 0x4188 ∧ frameTid frame = 0 ∧ framePn frame = pn ∧ frame.drop (hdrLen frame + 8) = rest ∧
      bytesAt frame 4 6 = r.bssid.toList ∧ bytesAt frame 16 6 = dst.toList ∧ Dot11.nonce frame = (buildCcmpNonce r.ourMac pn 0).toList ∧
      Dot11.aad frame = buildCcmpAad (sealedHeader r dst) 0x4188 := by
  obtain ⟨a0, a1, a2, a3, a4, a5, ha⟩ := sixBytes r.bssid
  obtain ⟨b0, b1, b2, b3, b4, b5, hb⟩ := sixBytes r.ourMac
  obtain ⟨c0, c1, c2, c3, c4, c5, rfl⟩ := sixBytes dst
  obtain ⟨d0, d1, d2, d3, d4, d5, rfl⟩ := sixBytes pn
  unfold sealedHeader
  rw [ha, hb]
  have hcons : dot11Hdr 0x4188 #v[a0, a1, a2, a3, a4, a5] #v[b0, b1, b2, b3, b4, b5] #v[c0, c1, c2, c3, c4, c5]
      (r.dataSeq <<< 4) ++ ([0, 0] : List U8) ++ ccmpHeader #v[d0, d1, d2, d3, d4, d5] ++ rest =
        0x88 :: 0x41 :: 0 :: 0 :: a0 :: a1 :: a2 :: a3 :: a4 :: a5 :: b0 :: b1 :: b2 :: b3 :: b4 :: b5 :: c0 :: c1 ::
          c2 :: c3 :: c4 :: c5 :: (r.dataSeq <<< 4).setWidth 8 :: ((r.dataSeq <<< 4) >>> 8).setWidth 8 :: 0 :: 0 ::
          d0 :: d1 :: 0 :: 0x20 :: d2 :: d3 :: d4 :: d5 :: rest := rfl
  rw [hcons]
  generalize hframe : (0x88 : U8) :: _ = frame
  have hfc : frameControl frame = 0x4188 := by
    rw [← hframe]
    show (0x41 : U8) ++ (0x88 : U8) = (0x4188 : U16)
    decide
  have hhdr : hdrLen frame = 26 := by
    unfold hdrLen
    rw [hfc]
    decide
  have htid : frameTid frame = 0 := by
    unfold frameTid
    rw [hfc, if_pos (by decide), ← hframe]
    show (0 : U8) &&& 0x0F = 0
    decide
  have hpn : framePn frame = #v[d0, d1, d2, d3, d4, d5] := by
    unfold framePn
    simp only [hhdr]
    simp only [← hframe, getD_cons_succ, getD_cons_zero, Nat.reduceAdd]
  refine ⟨hfc, htid, hpn, ?_, ?_, ?_, ?_, ?_⟩
  · rw [hhdr, ← hframe]
    rfl
  · rw [← hframe]
    rfl
  · rw [← hframe]
    rfl
  · unfold Dot11.nonce
    rw [htid, hpn, toList_buildCcmpNonce, ← hframe]
    rfl
  · unfold Dot11.aad
    rw [htid, hfc, show isQos 0x4188 = true by decide, ← hframe]
    unfold buildCcmpAad vectorAt
    rw [Vector.toList_ofFn]
    show u16Bytes _ ++ _ ++ [(r.dataSeq <<< 4).setWidth 8 &&& 0x0F, 0] ++ _ = _
    rw [shiftLeft_four_low, append_assoc]
    refine congrArg₂ (· ++ ·) (congrArg₂ (· ++ ·) (by decide) rfl) ?_
    show ([0, 0] ++ [0, 0] : List U8) = [0, 0, 0 &&& 0x0F, 0]
    decide

/-- **The receiver opens the frame.** -/
theorem openCcmp_sealedFrame (r : Radio) (dst : Mac) (payload : List U8) :
    Dot11.openCcmp (aes128EncryptBlock r.roundKeys) (sealedFrame r dst payload) = some (dst.toList, payload) := by
  obtain ⟨hfc, -, -, hdrop, -, haddr, hnonce, haad⟩ := sealedHeader_fields r dst r.sent.txPn (sealedBody r dst payload)
  unfold Dot11.openCcmp
  dsimp only
  rw [show sealedHeader r dst ++ ccmpHeader r.sent.txPn ++ sealedBody r dst payload = sealedFrame r dst payload from rfl]
    at hfc hdrop haddr hnonce haad
  generalize sealedFrame r dst payload = frame at *
  rw [hfc, hdrop, haddr, hnonce, haad]
  unfold sealedBody
  generalize buildCcmpAad (sealedHeader r dst) 0x4188 = aad
  generalize (buildCcmpNonce r.ourMac r.sent.txPn 0).toList = nonce
  generalize hmic : Ccm.tag (aes128EncryptBlock r.roundKeys) 8 2 nonce aad payload = mic
  have hmicLen : mic.length = 8 := by
    rw [← hmic]
    simp [Ccm.tag]
  rw [length_append, hmicLen, Nat.add_sub_cancel, take_left, drop_left]
  unfold Ccm.ciphertext
  rw [Ccm.xorStream_xorStream, hmic]
  exact if_pos ⟨by decide, rfl⟩

theorem nonce_sealedFrame (r : Radio) (dst : Mac) (payload : List U8) :
    beValue ((Dot11.nonce (sealedFrame r dst payload)).drop 7) = (pnValue r.txPn + 1) % 2 ^ 48 := by
  obtain ⟨-, -, -, -, -, -, hnonce, -⟩ := sealedHeader_fields r dst r.sent.txPn (sealedBody r dst payload)
  unfold sealedFrame
  rw [hnonce, ← pnValue_pnIncrement, toList_buildCcmpNonce, drop_succ_cons, drop_left' (by simp)]
  rfl

/-- What a sequence of calls sends: frames that open, with packet numbers that count on. -/
theorem sendRun_spec {calls : List (Mac × List U8)} (hready : r.chipReady = true) (hinst : r.ccmpInstalled = true)
    (hcount : pnValue r.txPn + calls.length < 2 ^ 48) (hlen : ∀ c ∈ calls, c.2.length ≤ 2358) :
    ∃ frames, sendRun r calls = frames.map some ∧
      frames.map (fun f => beValue ((Dot11.nonce f).drop 7)) = List.range' (pnValue r.txPn + 1) calls.length ∧
      List.Forall₂ (fun c f => Dot11.openCcmp (aes128EncryptBlock r.roundKeys) f = some (c.1.toList, c.2)) calls frames := by
  induction calls generalizing r with
  | nil => exact ⟨[], rfl, rfl, .nil⟩
  | cons call calls ih =>
    obtain ⟨dst, payload⟩ := call
    rw [length_cons] at hcount
    have hnext : pnValue r.sent.txPn = pnValue r.txPn + 1 := by
      show pnValue (pnIncrement r.txPn) = _
      rw [pnValue_pnIncrement, Nat.mod_eq_of_lt (by omega)]
    obtain ⟨frames, hrun, hnonces, hopen⟩ := ih (r := r.sent) hready hinst (by omega) fun c hc =>
      hlen c (mem_cons_of_mem _ hc)
    rw [hnext] at hnonces
    refine ⟨sealedFrame r dst payload :: frames, ?_, ?_, .cons (openCcmp_sealedFrame r dst payload) hopen⟩
    · unfold sendRun
      rw [send_eq hready hinst dst (hlen _ mem_cons_self), hrun]
      rfl
    · rw [map_cons, nonce_sealedFrame, Nat.mod_eq_of_lt (by omega), hnonces, length_cons, range'_succ]

theorem sendRun_idle (hidle : r.chipReady = false) (calls : List (Mac × List U8)) : ∀ f ∈ sendRun r calls, f = none := by
  induction calls with
  | nil => simp [sendRun]
  | cons call calls ih =>
    have hnone : rtw89SendDataFrame r call.1 call.2 = (none, r) := if_pos hidle
    unfold sendRun
    rw [hnone]
    exact forall_mem_cons.mpr ⟨rfl, ih⟩

end Send

/-- **Protected sending.** Fewer than `2 ^ 48` calls after a key was installed all send a frame once the chip
is ready, no nonce comes twice, and the receiver with the same key gets every destination and payload
back. -/
theorem ccmp_send_opens (r : Radio) (bssid : Mac) (tk : AesBlock) (calls : List (Mac × List U8))
    (hcount : calls.length < 2 ^ 48) (hlen : ∀ c ∈ calls, c.2.length ≤ 2358) :
    (r.chipReady = false ∧ ∀ f ∈ sendRun (rtw89InstallCcmpKey r bssid tk) calls, f = none) ∨
    ∃ frames, sendRun (rtw89InstallCcmpKey r bssid tk) calls = frames.map some ∧ (frames.map Dot11.nonce).Nodup ∧
      List.Forall₂ (fun c f =>
        Dot11.openCcmp (aes128EncryptBlock (aes128KeyExpand tk)) f = some (c.1.toList, c.2)) calls frames := by
  by_cases hready : r.chipReady = true
  · right
    have hzero : pnValue (rtw89InstallCcmpKey r bssid tk).txPn = 0 :=
      show pnValue (Vector.replicate 6 0) = 0 by decide
    obtain ⟨frames, hrun, hnonces, hopen⟩ := sendRun_spec (r := rtw89InstallCcmpKey r bssid tk) hready rfl
      (by rw [hzero]; omega) hlen
    refine ⟨frames, hrun, List.Nodup.of_map (fun n => beValue (n.drop 7)) ?_, hopen⟩
    rw [map_map]
    exact (show frames.map _ = _ from hnonces) ▸ nodup_range'
  · rw [Bool.not_eq_true] at hready
    exact .inl ⟨hready, sendRun_idle (r := rtw89InstallCcmpKey r bssid tk) hready calls⟩

/-- Three frames to two destinations, two of them the same. -/
def threeFrames : List (Mac × List U8) :=
  [(Vector.replicate 6 1, [0x2a]), (Vector.replicate 6 1, [0x2a]), (Vector.replicate 6 2, [1, 2, 3])]

theorem ccmp_send_opens_three : ∃ frames,
    sendRun (rtw89InstallCcmpKey idleRadio (Vector.replicate 6 0) (Vector.replicate 16 0)) threeFrames = frames.map some ∧
      (frames.map Dot11.nonce).Nodup ∧
      List.Forall₂ (fun c f => Dot11.openCcmp (aes128EncryptBlock (aes128KeyExpand (Vector.replicate 16 0))) f =
        some (c.1.toList, c.2)) threeFrames frames :=
  (ccmp_send_opens idleRadio _ _ _ (by decide) (by decide)).resolve_left fun h => Bool.noConfusion h.1

end MinicOs
