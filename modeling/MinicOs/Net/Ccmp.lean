import MinicOs.Security.AesCcmConforms

/-!
# Protected data frames

Model of the CCMP part of `kernel/net/rtw89/rtw89.c`: the packet numbers, what is authenticated and the
nonce of a frame, and `rtw89_send_data_frame` and `rtw89_recv_data_frame`. A frame is the list of its
bytes; what the radio does with a frame that is sent, and where a received one comes from, is not part of
the model.
-/

namespace MinicOs

open Nat

abbrev U16 := BitVec 16

abbrev Mac := Vector U8 6

/-- A packet number, its lowest byte first. -/
abbrev Pn := Vector U8 6

/-- The driver's globals. -/
structure Radio where
  chipReady : Bool
  ourMac : Mac
  ccmpInstalled : Bool
  bssid : Mac
  roundKeys : RoundKeys
  txPn : Pn
  rxPn : U8 → Pn
  rxPnValid : U8 → Bool
  dataSeq : U16

/-- A driver that has just been started. -/
def idleRadio : Radio where
  chipReady := true
  ourMac := Vector.replicate 6 0
  ccmpInstalled := false
  bssid := Vector.replicate 6 0
  roundKeys := Vector.replicate 176 0
  txPn := Vector.replicate 6 0
  rxPn := fun _ => Vector.replicate 6 0
  rxPnValid := fun _ => false
  dataSeq := 0

def rtw89SetBssid (r : Radio) (bssid : Mac) : Radio := { r with bssid := bssid }

def rtw89InstallCcmpKey (r : Radio) (bssid : Mac) (tk : AesBlock) : Radio :=
  { rtw89SetBssid r bssid with
    roundKeys := aes128KeyExpand tk, txPn := Vector.replicate 6 0, rxPnValid := fun _ => false, ccmpInstalled := true }

/-- The loop of `pn_increment` over the bytes that are left. -/
def pnCarry : List U8 → List U8
  | [] => []
  | b :: bs => if b + 1 ≠ 0 then (b + 1) :: bs else (b + 1) :: pnCarry bs

theorem length_pnCarry (bs : List U8) : (pnCarry bs).length = bs.length := by
  induction bs with
  | nil => rfl
  | cons b bs ih =>
    unfold pnCarry
    split
    · rfl
    · rw [List.length_cons, ih, List.length_cons]

def pnIncrement (pn : Pn) : Pn := ⟨(pnCarry pn.toList).toArray, by simp [length_pnCarry]⟩

/-- The loop of `pn_greater`, the highest byte first. -/
def pnGreaterFrom : List U8 → List U8 → Bool
  | a :: as, b :: bs => if a ≠ b then b < a else pnGreaterFrom as bs
  | _, _ => false

def pnGreater (a b : Pn) : Bool := pnGreaterFrom a.toList.reverse b.toList.reverse

/-- The 48-bit number. -/
def pnValue (pn : Pn) : Nat := beValue pn.toList.reverse

/-! ## Frames -/

/-- A little-endian field of two bytes. -/
def u16Bytes (v : U16) : List U8 := [v.setWidth 8, (v >>> 8).setWidth 8]

/-- `n` bytes from `p` on. -/
def vectorAt (frame : List U8) (p n : Nat) : Vector U8 n := Vector.ofFn fun i => frame.getD (p + i) 0

/-- `h->frame_control`. -/
def frameControl (frame : List U8) : U16 := frame.getD 1 0 ++ frame.getD 0 0

/-- `type`. -/
def frameType (fc : U16) : U16 := (fc >>> 2) &&& 0x3

/-- `(subtype & 0x8) != 0`. -/
def isQos (fc : U16) : Bool := ((fc >>> 4) &&& 0xF) &&& 0x8 ≠ 0

/-- `protected_frame`. -/
def isProtected (fc : U16) : Bool := fc &&& 0x4000 ≠ 0

def hdrLen (frame : List U8) : Nat := if isQos (frameControl frame) then 26 else 24

/-- `tid`. -/
def frameTid (frame : List U8) : U8 := if isQos (frameControl frame) then frame.getD 24 0 &&& 0x0F else 0

/-- The packet number behind a header of the given length. -/
def framePn (frame : List U8) : Pn :=
  let byte := fun i => frame.getD (hdrLen frame + i) 0
  #v[byte 0, byte 1, byte 4, byte 5, byte 6, byte 7]

def buildCcmpAad (header : List U8) (fc : U16) : List U8 :=
  u16Bytes (fc &&& ~~~(0x3800 : U16)) ++ (vectorAt header 4 18).toList ++
    [0, 0, header.getD 24 0 &&& 0x0F, 0]

def buildCcmpNonce (a2 : Mac) (pn : Pn) (tid : U8) : CcmNonce :=
  ((#v[tid &&& 0x0F] : Vector U8 1) ++ a2 ++ pn.reverse : Vector U8 (1 + 6 + 6))

/-- A `dot11_hdr` without a duration. -/
def dot11Hdr (fc : U16) (addr1 addr2 addr3 : Mac) (seqCtrl : U16) : List U8 :=
  u16Bytes fc ++ [0, 0] ++ addr1.toList ++ addr2.toList ++ addr3.toList ++ u16Bytes seqCtrl

/-- The CCMP header: the packet number, and ExtIV with key 0. -/
def ccmpHeader (pn : Pn) : List U8 := [pn[0], pn[1], 0, 0x20, pn[2], pn[3], pn[4], pn[5]]

/-- `rtw89_send_data_frame`: the frame that `rtw89_data_send` is given. -/
def rtw89SendDataFrame (r : Radio) (dst : Mac) (payload : List U8) : Option (List U8) × Radio :=
  if r.chipReady = false then (none, r)
  else if 24 + 2 + 8 + payload.length + 8 > 2400 then (none, r)
  else
    -- QoS data to the access point
    let fc : U16 := 0x0188
    let seqCtrl := r.dataSeq <<< 4
    let r := { r with dataSeq := r.dataSeq + 1 }
    if r.ccmpInstalled = false then (some (dot11Hdr fc r.bssid r.ourMac dst seqCtrl ++ [0, 0] ++ payload), r)
    else
      let r := { r with txPn := pnIncrement r.txPn }
      let fc := fc ||| 0x4000
      let header := dot11Hdr fc r.bssid r.ourMac dst seqCtrl ++ [0, 0]
      let (body, mic) := aesCcmEncrypt r.roundKeys (buildCcmpNonce r.ourMac r.txPn 0) (buildCcmpAad header fc) payload
      (some (header ++ ccmpHeader r.txPn ++ body ++ mic.toList), r)

/-- What `rtw89_recv_data_frame` hands out: `src_mac_out`, and as many bytes of `payload_out` as it
returns. -/
structure Received where
  src : Option Mac
  payload : List U8

/-- `rtw89_recv_data_frame`, on the frame that `rtw89_rx_poll` has copied, none if it is empty. -/
def rtw89RecvDataFrame (r : Radio) (frame : List U8) (maxLen : Nat) : Received × Radio :=
  let fc := frameControl frame
  let hdr := hdrLen frame
  let tid := frameTid frame
  let src := vectorAt frame 16 6
  let pn := framePn frame
  let cipherLen := frame.length - hdr - 8 - 8
  if r.chipReady = false ∨ frame.length < 24 ∨ frameType fc ≠ 2 ∨ frame.length < hdr then (⟨none, []⟩, r)
  else if isProtected fc = false ∨ r.ccmpInstalled = false then (⟨some src, (frame.drop hdr).take maxLen⟩, r)
  else if frame.length < hdr + 8 + 8 ∨ tid > 7 ∨ (r.rxPnValid tid ∧ pnGreater pn (r.rxPn tid) = false) ∨
      cipherLen > maxLen then (⟨some src, []⟩, r)
  else
    match aesCcmDecrypt r.roundKeys (buildCcmpNonce (vectorAt frame 10 6) pn tid) (buildCcmpAad frame fc)
        (bytesAt frame (hdr + 8) cipherLen) (vectorAt frame (hdr + 8 + cipherLen) 8) with
    | (false, _) => (⟨some src, []⟩, r)
    | (true, out) =>
      (⟨some src, out⟩, { r with rxPn := Function.update r.rxPn tid pn
                                 rxPnValid := Function.update r.rxPnValid tid true })

/-! ## Packet numbers -/

theorem beValue_concat (bs : List U8) (b : U8) : beValue (bs ++ [b]) = beValue bs * 2 ^ 8 + b.toNat := by
  rw [beValue_append]
  show _ * 2 ^ 8 + (0 * 2 ^ 8 + b.toNat) = _
  rw [zero_mul, zero_add]

/-- **The carry counts**, around the end of the bytes. -/
theorem beValue_pnCarry (bs : List U8) : beValue (pnCarry bs).reverse = (beValue bs.reverse + 1) % 2 ^ (8 * bs.length) := by
  induction bs with
  | nil => rfl
  | cons b bs ih =>
    have hlt := beValue_lt bs.reverse
    have hadd : (b + 1).toNat = (b.toNat + 1) % 2 ^ 8 := BitVec.toNat_add b 1
    rw [List.length_reverse] at hlt
    rw [List.length_cons, mul_succ, pow_add, List.reverse_cons, beValue_concat]
    unfold pnCarry
    by_cases hc : b + 1 = 0
    · have hzero : (b + 1).toNat = 0 := congrArg BitVec.toNat hc
      have hmax : beValue bs.reverse * 2 ^ 8 + b.toNat + 1 = (beValue bs.reverse + 1) * 2 ^ 8 := by omega
      rw [if_neg (not_not.mpr hc), List.reverse_cons, beValue_concat, ih, hzero, hmax, mul_mod_mul_right, add_zero]
    · have hne : (b + 1).toNat ≠ 0 := fun h => hc (BitVec.eq_of_toNat_eq h)
      rw [if_pos hc, List.reverse_cons, beValue_concat, hadd, mod_eq_of_lt (show b.toNat + 1 < 2 ^ 8 by omega),
        mod_eq_of_lt (by omega)]
      omega

theorem pnValue_pnIncrement (pn : Pn) : pnValue (pnIncrement pn) = (pnValue pn + 1) % 2 ^ 48 := by
  have h := beValue_pnCarry pn.toList
  rw [Vector.length_toList] at h
  exact h

theorem pnGreaterFrom_iff {as bs : List U8} (h : as.length = bs.length) :
    pnGreaterFrom as bs = true ↔ beValue bs < beValue as := by
  induction as generalizing bs with
  | nil =>
    rw [List.length_nil, eq_comm, List.length_eq_zero_iff] at h
    simp [h, pnGreaterFrom]
  | cons a as ih =>
    cases bs with
    | nil => simp at h
    | cons b bs =>
      have hlen : as.length = bs.length := by simpa using h
      have ha := beValue_lt as
      have hb := beValue_lt bs
      rw [pnGreaterFrom, beValue_cons, beValue_cons, hlen]
      rw [hlen] at ha
      by_cases hab : a = b
      · rw [if_neg (not_not.mpr hab), ih hlen, hab]
        omega
      · have hne : a.toNat ≠ b.toNat := fun hh => hab (BitVec.eq_of_toNat_eq hh)
        rw [if_pos hab, decide_eq_true_iff, BitVec.lt_def]
        constructor
        · intro hlt
          have := mul_le_mul_right (2 ^ (8 * bs.length)) hlt
          rw [succ_mul] at this
          omega
        · intro hlt
          by_contra hnot
          have := mul_le_mul_right (2 ^ (8 * bs.length)) (show a.toNat + 1 ≤ b.toNat by omega)
          rw [succ_mul] at this
          omega

end MinicOs
