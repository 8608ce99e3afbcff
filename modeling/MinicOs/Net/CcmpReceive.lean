import MinicOs.Net.Ccmp

/-!
# What protected reception lets through

`rtw89_recv_data_frame` over any sequence of frames after a key has been installed. What it decrypts is
genuine and in order; but a data frame without the Protected bit is handed out as it is.
-/

namespace MinicOs

open List Function

/-- The nonce of a received frame. -/
def frameNonce (frame : List U8) : CcmNonce := buildCcmpNonce (vectorAt frame 10 6) (framePn frame) (frameTid frame)

def cipherLen (frame : List U8) : Nat := frame.length - hdrLen frame - 8 - 8

/-- The payload is what a protected data frame carries, and the code of the frame is the one of the
payload and the header, under the given key. -/
structure Genuine (roundKeys : RoundKeys) (frame payload : List U8) : Prop where
  data : frameType (frameControl frame) = 2
  sealed : isProtected (frameControl frame) = true
  cipher : Ccm.ciphertext (aes128EncryptBlock roundKeys) 2 (frameNonce frame).toList payload =
    bytesAt frame (hdrLen frame + 8) (cipherLen frame)
  mic : Ccm.tag (aes128EncryptBlock roundKeys) 8 2 (frameNonce frame).toList
    (buildCcmpAad frame (frameControl frame)) payload = (vectorAt frame (hdrLen frame + 8 + cipherLen frame) 8).toList

/-- A data frame in clear with a body, and room for it. -/
def ClearData (frame : List U8) (maxLen : Nat) : Prop :=
  frameType (frameControl frame) = 2 ∧ isProtected (frameControl frame) = false ∧ hdrLen frame < frame.length ∧ 0 < maxLen

/-- The driver after a frame has been decrypted. -/
def Radio.accept (r : Radio) (frame : List U8) : Radio :=
  { r with rxPn := update r.rxPn (frameTid frame) (framePn frame)
           rxPnValid := update r.rxPnValid (frameTid frame) true }

/-- The packet number is new for its traffic identifier. -/
def Radio.Fresh (r : Radio) (frame : List U8) : Prop :=
  r.rxPnValid (frameTid frame) = true → pnValue (r.rxPn (frameTid frame)) < pnValue (framePn frame)

section Receive

variable {r : Radio} {frame : List U8} {maxLen : Nat}

theorem genuine_of_decrypt {out : List U8} (hdata : frameType (frameControl frame) = 2)
    (hsealed : isProtected (frameControl frame) = true)
    (h : aesCcmDecrypt r.roundKeys (frameNonce frame) (buildCcmpAad frame (frameControl frame))
      (bytesAt frame (hdrLen frame + 8) (cipherLen frame)) (vectorAt frame (hdrLen frame + 8 + cipherLen frame) 8) =
        (true, out)) : Genuine r.roundKeys frame out := by
  unfold aesCcmDecrypt at h
  dsimp only at h
  rw [all_mic_eq, Prod.mk.injEq, decide_eq_true_iff, maskedMac_eq _ _ (by simp [buildCcmpAad, u16Bytes])] at h
  obtain ⟨hmic, rfl⟩ := h
  refine ⟨hdata, hsealed, ?_, hmic⟩
  rw [ctrCrypt_eq]
  exact Ccm.xorStream_xorStream ..

/-- What is fresh after a frame was accepted is newer than it, or has another traffic identifier. -/
theorem Radio.Fresh.of_accept {later : List U8} (hfresh : r.Fresh frame) (h : (r.accept frame).Fresh later) :
    r.Fresh later ∧ (frameTid frame = frameTid later → pnValue (framePn frame) < pnValue (framePn later)) := by
  unfold Radio.Fresh Radio.accept at h
  by_cases htid : frameTid later = frameTid frame
  · simp only [htid, update_self] at h
    have hlt := h trivial
    refine ⟨fun hvalid => ?_, fun _ => hlt⟩
    rw [htid] at hvalid ⊢
    exact (hfresh hvalid).trans hlt
  · simp only [update_of_ne htid] at h
    exact ⟨h, fun heq => absurd heq.symm htid⟩

variable (hinst : r.ccmpInstalled = true)
include hinst

/-- **What a received frame comes to.** Nothing is returned and nothing changes; or a frame in clear is
returned as it is; or a genuine frame with a new packet number is returned, and the number kept. -/
theorem recv_cases : ((rtw89RecvDataFrame r frame maxLen).1.payload = [] ∧ (rtw89RecvDataFrame r frame maxLen).2 = r ∧
        (r.chipReady = true → ¬ ClearData frame maxLen)) ∨
      ((rtw89RecvDataFrame r frame maxLen).1.payload = (frame.drop (hdrLen frame)).take maxLen ∧
        (rtw89RecvDataFrame r frame maxLen).2 = r ∧ r.chipReady = true ∧ ClearData frame maxLen) ∨
      (Genuine r.roundKeys frame (rtw89RecvDataFrame r frame maxLen).1.payload ∧ r.Fresh frame ∧
        (rtw89RecvDataFrame r frame maxLen).2 = r.accept frame) := by
  have hle : 24 ≤ hdrLen frame := by
    unfold hdrLen
    split <;> omega
  unfold rtw89RecvDataFrame
  by_cases hearly : r.chipReady = false ∨ frame.length < 24 ∨ frameType (frameControl frame) ≠ 2 ∨
      frame.length < hdrLen frame
  · rw [if_pos hearly]
    refine .inl ⟨rfl, rfl, ?_⟩
    rintro hready ⟨hdata, -, hlen, -⟩
    rcases hearly with h | h | h | h
    · exact absurd (hready.symm.trans h) (by simp)
    · omega
    · exact h hdata
    · omega
  rw [if_neg hearly]
  simp only [not_or, not_lt, not_not] at hearly
  obtain ⟨hready, -, hdata, hlen⟩ := hearly
  by_cases hclear : isProtected (frameControl frame) = false
  · rw [if_pos (.inl hclear)]
    by_cases hbody : hdrLen frame < frame.length ∧ 0 < maxLen
    · exact .inr (.inl ⟨rfl, rfl, by simpa using hready, hdata, hclear, hbody⟩)
    · refine .inl ⟨?_, rfl, fun _ h => hbody h.2.2⟩
      by_cases hmax : maxLen = 0
      · rw [hmax]
        rfl
      · rw [drop_eq_nil_of_le (by omega)]
        exact take_nil
  rw [if_neg (by simp [hclear, hinst])]
  split
  · exact .inl ⟨rfl, rfl, fun _ h => hclear h.2.1⟩
  rename_i hpass
  simp only [not_or, not_and, Bool.not_eq_false] at hpass
  split
  · exact .inl ⟨rfl, rfl, fun _ h => hclear h.2.1⟩
  · rename_i out hdec
    refine .inr (.inr ⟨genuine_of_decrypt hdata (by simpa using hclear) hdec, fun hvalid => ?_, rfl⟩)
    exact (pnGreaterFrom_iff (by simp)).mp (hpass.2.2.1 hvalid)

/-! ## Sequences of frames -/

/-- The frames and what is returned for each. -/
def recvRun : Radio → List (List U8 × Nat) → List (List U8 × List U8)
  | _, [] => []
  | r, (frame, maxLen) :: calls =>
    (frame, (rtw89RecvDataFrame r frame maxLen).1.payload) :: recvRun (rtw89RecvDataFrame r frame maxLen).2 calls

/-- All that is returned is genuine, and the packet numbers of one traffic identifier grow. -/
structure ReceivesProtected (roundKeys : RoundKeys) (returned : List (List U8 × List U8)) : Prop where
  genuine : ∀ p ∈ returned, p.2 ≠ [] → Genuine roundKeys p.1 p.2
  ordered : returned.Pairwise fun p q => p.2 ≠ [] → q.2 ≠ [] → frameTid p.1 = frameTid q.1 →
    pnValue (framePn p.1) < pnValue (framePn q.1)

theorem recv_keeps : (rtw89RecvDataFrame r frame maxLen).2.ccmpInstalled = true ∧
      (rtw89RecvDataFrame r frame maxLen).2.roundKeys = r.roundKeys ∧
      (rtw89RecvDataFrame r frame maxLen).2.chipReady = r.chipReady := by
  rcases recv_cases hinst with ⟨-, h, -⟩ | ⟨-, h, -⟩ | ⟨-, -, h⟩
  · rw [h]
    exact ⟨hinst, rfl, rfl⟩
  · rw [h]
    exact ⟨hinst, rfl, rfl⟩
  · rw [h]
    exact ⟨hinst, rfl, rfl⟩

/-- Without frames in clear, all that is returned is genuine, newer than what was kept, and in order. -/
theorem recvRun_protected {calls : List (List U8 × Nat)} (hclear : r.chipReady = true → ∀ c ∈ calls, ¬ ClearData c.1 c.2) :
    ReceivesProtected r.roundKeys (recvRun r calls) ∧ ∀ p ∈ recvRun r calls, p.2 ≠ [] → r.Fresh p.1 := by
  induction calls generalizing r with
  | nil => exact ⟨⟨by simp [recvRun], .nil⟩, by simp [recvRun]⟩
  | cons call calls ih =>
    obtain ⟨frame, maxLen⟩ := call
    obtain ⟨hinst', hkeys, hready'⟩ := @recv_keeps r frame maxLen hinst
    have ih := ih hinst' fun hr c hc => hclear (hready' ▸ hr) c (mem_cons_of_mem _ hc)
    obtain ⟨⟨hgenuine, hordered⟩, hfresh⟩ := ih
    have hcases := @recv_cases r frame maxLen hinst
    unfold recvRun
    generalize rtw89RecvDataFrame r frame maxLen = out at *
    rcases hcases with ⟨hnil, hsame, -⟩ | ⟨-, -, hready, hdata⟩ | ⟨hgen, hnew, hacc⟩
    · rw [hsame] at hgenuine hordered hfresh ⊢
      rw [hnil]
      refine ⟨⟨forall_mem_cons.mpr ⟨fun h => absurd rfl h, hgenuine⟩, ?_⟩, ?_⟩
      · exact pairwise_cons.mpr ⟨fun q _ h => absurd rfl h, hordered⟩
      · exact forall_mem_cons.mpr ⟨fun h => absurd rfl h, hfresh⟩
    · exact absurd hdata (hclear hready (frame, maxLen) mem_cons_self)
    · rw [hacc] at hgenuine hordered hfresh ⊢
      refine ⟨⟨forall_mem_cons.mpr ⟨fun _ => hgen, hgenuine⟩, ?_⟩, ?_⟩
      · exact pairwise_cons.mpr ⟨fun q hq _ hne => (hnew.of_accept (hfresh q hq hne)).2, hordered⟩
      · exact forall_mem_cons.mpr ⟨fun _ => hnew, fun q hq hne => (hnew.of_accept (hfresh q hq hne)).1⟩

theorem recvRun_clear {calls : List (List U8 × Nat)} (hready : r.chipReady = true)
    {c : List U8 × Nat} (hc : c ∈ calls) (hclear : ClearData c.1 c.2) :
    (c.1, (c.1.drop (hdrLen c.1)).take c.2) ∈ recvRun r calls := by
  induction calls generalizing r with
  | nil => simp at hc
  | cons call calls ih =>
    unfold recvRun
    rcases mem_cons.mp hc with rfl | hc
    · rcases recv_cases hinst with ⟨-, -, h⟩ | ⟨h, -⟩ | ⟨h, -⟩
      · exact absurd hclear (h hready)
      · rw [h]
        exact mem_cons_self
      · exact absurd (h.sealed.symm.trans hclear.2.1) (by simp)
    · obtain ⟨hinst', -, hready'⟩ := @recv_keeps r call.1 call.2 hinst
      exact mem_cons_of_mem _ (ih hinst' (hready'.trans hready) hc)

end Receive

/-- **What reception lets through.** After a key has been installed, all that is returned is genuine under
that key and in order, exactly if the frames hold no data frame in clear. -/
theorem receives_protected_iff (r : Radio) (bssid : Mac) (tk : AesBlock) (calls : List (List U8 × Nat)) :
    ReceivesProtected (aes128KeyExpand tk) (recvRun (rtw89InstallCcmpKey r bssid tk) calls) ↔
      (r.chipReady = true → ∀ c ∈ calls, ¬ ClearData c.1 c.2) := by
  constructor
  · intro h hready c hc hclear
    have hmem := recvRun_clear (r := rtw89InstallCcmpKey r bssid tk) rfl hready hc hclear
    have hne : (c.1.drop (hdrLen c.1)).take c.2 ≠ [] := by
      have := hclear.2.2
      rw [← length_pos_iff, length_take, length_drop]
      omega
    exact absurd ((h.genuine _ hmem hne).sealed.symm.trans hclear.2.1) (by simp)
  · intro h
    exact (recvRun_protected (r := rtw89InstallCcmpKey r bssid tk) rfl h).1

/-- A data frame in clear, of a header and one byte, is accepted under any key. -/
theorem recv_accepts_clear : ¬ ReceivesProtected (aes128KeyExpand (Vector.replicate 16 0))
    (recvRun (rtw89InstallCcmpKey idleRadio (Vector.replicate 6 0) (Vector.replicate 16 0))
      [(0x08 :: List.replicate 24 0, 1)]) := by
  intro h
  have hsealed := (h.genuine (0x08 :: List.replicate 24 0, [0]) mem_cons_self (by simp)).sealed
  exact absurd hsealed (by decide)

end MinicOs
