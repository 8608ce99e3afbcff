import MinicOs.Net.CcmpSend

/-!
# Joining a network

Model of `dot11_connect_stage1` of `kernel/net/rtw89/dot11.c`. The frames are what `rtw89_rx_poll` gives in each round of
the two waiting loops before the time is up, at most 300 bytes or nothing (an empty list); a loop ends with the first frame
it accepts. Of the two requests only whether the driver takes them is modelled.

Neither loop looks at the addresses of a frame or at the algorithm of an authentication frame, so any station can answer.
-/

namespace MinicOs

open List

def dot11SubtypeAuth : U16 := 0xB

def dot11SubtypeAssocResp : U16 := 0x1

def readU16le (buf : List U8) (p : Nat) : U16 := buf.getD (p + 1) 0 ++ buf.getD p 0

/-- A management frame of a subtype, with its first 30 bytes. -/
def isMgmt (subtype : U16) (buf : List U8) : Bool :=
  30 ≤ buf.length && frameType (frameControl buf) = 0 && (frameControl buf >>> 4) &&& 0xF = subtype

/-- An authentication frame with the sequence number 2. -/
def isAuthReply (buf : List U8) : Bool := isMgmt dot11SubtypeAuth buf && readU16le buf 26 = 2

/-- `dot11_assoc_status`. -/
inductive AssocStatus
  | authFailed | assocFailed | associated

/-- `dot11_connect_stage1`, with the frames of the first loop and of the second. -/
def dot11ConnectStage1 (authSent assocSent : Bool) (authPolls assocPolls : List (List U8)) : AssocStatus :=
  if authSent = false then .authFailed
  else
    match authPolls.find? isAuthReply with
    | none => .authFailed
    | some buf =>
      if readU16le buf 28 ≠ 0 then .authFailed
      else if assocSent = false then .assocFailed
      else
        match assocPolls.find? (isMgmt dot11SubtypeAssocResp) with
        | none => .assocFailed
        | some buf => if readU16le buf 26 = 0 then .associated else .assocFailed

/-! ## Who answers -/

/-- The frame was sent by the network and to us: `addr1`, `addr2` and `addr3`. -/
def FromNetwork (bssid ourMac : Mac) (buf : List U8) : Prop :=
  vectorAt buf 4 6 = ourMac ∧ vectorAt buf 10 6 = bssid ∧ vectorAt buf 16 6 = bssid

instance (bssid ourMac : Mac) (buf : List U8) : Decidable (FromNetwork bssid ourMac buf) :=
  inferInstanceAs (Decidable (_ ∧ _))

/-- The network has answered: an open-system authentication (algorithm 0) and then an association, both with success. -/
def Joined (bssid ourMac : Mac) (authPolls assocPolls : List (List U8)) : Prop :=
  (∃ buf ∈ authPolls, FromNetwork bssid ourMac buf ∧ isAuthReply buf = true ∧ readU16le buf 24 = 0 ∧ readU16le buf 28 = 0) ∧
    ∃ buf ∈ assocPolls, FromNetwork bssid ourMac buf ∧ isMgmt dot11SubtypeAssocResp buf = true ∧ readU16le buf 26 = 0

/-- Only the network answers, and with the open system. -/
structure OnlyNetwork (bssid ourMac : Mac) (authPolls assocPolls : List (List U8)) : Prop where
  auth : ∀ buf ∈ authPolls, isAuthReply buf = true → FromNetwork bssid ourMac buf ∧ readU16le buf 24 = 0
  assoc : ∀ buf ∈ assocPolls, isMgmt dot11SubtypeAssocResp buf = true → FromNetwork bssid ourMac buf

theorem find?_filter_of_imp {α : Type*} {p q : α → Bool} {l : List α} (h : ∀ a ∈ l, q a = true → p a = true) :
    (l.filter p).find? q = l.find? q := by
  induction l with
  | nil => rfl
  | cons a l ih =>
    have hl := ih fun b hb => h b (mem_cons_of_mem a hb)
    cases hq : q a with
    | true => rw [filter_cons_of_pos (h a mem_cons_self hq), find?_cons_of_pos hq, find?_cons_of_pos hq]
    | false =>
      rw [find?_cons_of_neg (by rw [hq]; decide), ← hl, filter_cons]
      split
      · rw [find?_cons_of_neg (by rw [hq]; decide)]
      · rfl

/-- **The association is with the network** that was asked, if only it answers; without the frames of other stations the
result is the same. -/
theorem dot11ConnectStage1_belongs (bssid ourMac : Mac) (authSent assocSent : Bool)
    {authPolls assocPolls : List (List U8)} (h : OnlyNetwork bssid ourMac authPolls assocPolls) :
    (dot11ConnectStage1 authSent assocSent authPolls assocPolls = .associated → Joined bssid ourMac authPolls assocPolls) ∧
      dot11ConnectStage1 authSent assocSent (authPolls.filter (FromNetwork bssid ourMac ·))
          (assocPolls.filter (FromNetwork bssid ourMac ·)) = dot11ConnectStage1 authSent assocSent authPolls assocPolls := by
  constructor
  · intro hassoc
    unfold dot11ConnectStage1 at hassoc
    split at hassoc
    · cases hassoc
    cases ha : authPolls.find? isAuthReply with
    | none => simp [ha] at hassoc
    | some a =>
      cases hb : assocPolls.find? (isMgmt dot11SubtypeAssocResp) with
      | none => simp only [ha, hb] at hassoc; split_ifs at hassoc
      | some b =>
        simp only [ha, hb] at hassoc
        split_ifs at hassoc with h28 hs h26
        have hma := mem_of_find?_eq_some ha
        have hmb := mem_of_find?_eq_some hb
        obtain ⟨hnet, h24⟩ := h.auth a hma (find?_some ha)
        exact ⟨⟨a, hma, hnet, find?_some ha, h24, not_not.mp h28⟩, b, hmb, h.assoc b hmb (find?_some hb), find?_some hb, h26⟩
  · unfold dot11ConnectStage1
    rw [find?_filter_of_imp fun a ha hq => decide_eq_true (h.auth a ha hq).1,
      find?_filter_of_imp fun b hb hq => decide_eq_true (h.assoc b hb hq)]

/-- A management frame to station 1, with three fields. -/
def mgmtFrame (subtype : U8) (bssid : Mac) (fields : List U8) : List U8 :=
  [subtype <<< 4, 0, 0, 0] ++ replicate 6 1 ++ bssid.toList ++ bssid.toList ++ [0, 0] ++ fields

theorem dot11ConnectStage1_belongs_open :
    Joined (Vector.replicate 6 2) (Vector.replicate 6 1) [[], mgmtFrame 0xB (Vector.replicate 6 2) [0, 0, 2, 0, 0, 0]]
      [mgmtFrame 1 (Vector.replicate 6 2) [0, 0, 0, 0, 0, 0]] :=
  (dot11ConnectStage1_belongs _ _ true true ⟨by decide, by decide⟩).1 rfl

/-- Station 3 answers in place of the network 2, and the client is associated. -/
theorem dot11ConnectStage1_stranger :
    let auth := [mgmtFrame 0xB (Vector.replicate 6 3) [0, 0, 2, 0, 0, 0]]
    let assoc := [mgmtFrame 1 (Vector.replicate 6 3) [0, 0, 0, 0, 0, 0]]
    dot11ConnectStage1 true true auth assoc = .associated ∧
      ¬ Joined (Vector.replicate 6 2) (Vector.replicate 6 1) auth assoc ∧
      dot11ConnectStage1 true true (auth.filter (FromNetwork (Vector.replicate 6 2) (Vector.replicate 6 1) ·))
        (assoc.filter (FromNetwork (Vector.replicate 6 2) (Vector.replicate 6 1) ·)) = .authFailed := by
  refine ⟨rfl, ?_, rfl⟩
  rintro ⟨⟨buf, hbuf, hnet, -⟩, -⟩
  rw [mem_singleton.mp hbuf] at hnet
  exact absurd hnet (by decide)

end MinicOs
