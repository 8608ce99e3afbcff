import MinicOs.Net.Dot11Join

/-!
# The Wi-Fi manager

Model of `kernel/net/rtw89/wifi_manager.c`: looking up a network, joining it and, where it advertises RSN,
installing the key of the handshake. What the air answers at each stage is a parameter of a call.
Connections to networks without RSN leave the key of an earlier one installed.
-/

namespace MinicOs

/-- `wifi_network`; the name up to its end. -/
structure WifiNetwork where
  ssid : List U8
  bssid : Mac
  hasRsn : Bool

inductive WifiState
  | idle | connecting | connected | failedAuth | failedAssoc | failedWrongPassword | failedTimeout
deriving DecidableEq

/-- `wpa2_status`, with the `tk_out` of a handshake that is done. -/
inductive HandshakeResult
  | ok (tk : AesBlock)
  | micFail
  | timeout

/-- What a call meets: the networks a scan finds, whether the driver takes the requests, the frames of the
two waiting loops, and the handshake. -/
structure Air where
  scan : List WifiNetwork
  authSent : Bool
  assocSent : Bool
  authPolls : List (List U8)
  assocPolls : List (List U8)
  handshake : HandshakeResult

/-- The globals of the manager, and those of the driver. -/
structure WifiManager where
  radio : Radio
  state : WifiState
  connectedSsid : List U8
  scanCache : List WifiNetwork

variable (m : WifiManager)

def findCachedNetwork (ssid : List U8) : Option WifiNetwork := m.scanCache.find? (·.ssid = ssid)

/-- The `WIFI_SCAN_MAX_NETWORKS` networks that `dot11_scan` keeps. -/
def dot11Scan (found : List WifiNetwork) : WifiManager := { m with scanCache := found.take 16 }

/-- `dot11_connect_stage1` of a call: nothing is sent before the chip is ready. -/
def connectStage1 (air : Air) : AssocStatus :=
  dot11ConnectStage1 (m.radio.chipReady && air.authSent) (m.radio.chipReady && air.assocSent) air.authPolls air.assocPolls

/-- `wifi_manager_connect` from a network that was found on. -/
def joinNetwork (ssid : List U8) (net : WifiNetwork) (air : Air) : WifiManager :=
  match connectStage1 m air with
  | .authFailed => { m with state := .failedAuth }
  | .assocFailed => { m with state := .failedAssoc }
  | .associated =>
    if net.hasRsn = false then
      { m with radio := rtw89SetBssid m.radio net.bssid, connectedSsid := ssid.take 32, state := .connected }
    else
      match air.handshake with
      | .micFail => { m with state := .failedWrongPassword }
      | .timeout => { m with state := .failedTimeout }
      | .ok tk =>
        { m with radio := rtw89InstallCcmpKey m.radio net.bssid tk, connectedSsid := ssid.take 32, state := .connected }

/-- The network a call looks up, after a scan where it is not known. -/
def lookUp (ssid : List U8) (air : Air) : Option WifiNetwork × WifiManager :=
  match findCachedNetwork m ssid with
  | some net => (some net, m)
  | none => (findCachedNetwork (dot11Scan m air.scan) ssid, dot11Scan m air.scan)

def wifiManagerConnect (ssid : List U8) (air : Air) : WifiManager :=
  match lookUp { m with state := .connecting } ssid air with
  | (none, m) => { m with state := .failedTimeout }
  | (some net, m) => joinNetwork m ssid net air

/-- `wifi_manager_send_eth`, up to its call of `rtw89_send_data_frame`: the destination and the payload. -/
def wifiManagerSendEth (frame : List U8) : Option (Mac × List U8) :=
  if frame.length < 14 then none
  else if 8 + (frame.length - 14) > 2400 then none
  else some (vectorAt frame 0 6, [0xAA, 0xAA, 0x03, 0x00, 0x00, 0x00, frame.getD 12 0, frame.getD 13 0] ++ frame.drop 14)

/-- The driver's one caller passes so few bytes that the `u32` sum in `rtw89_send_data_frame` does not wrap. -/
theorem wifiManagerSendEth_length {frame payload : List U8} {dst : Mac}
    (h : wifiManagerSendEth frame = some (dst, payload)) : 24 + 2 + 8 + payload.length + 8 < 2 ^ 32 := by
  unfold wifiManagerSendEth at h
  split_ifs at h
  obtain ⟨-, rfl⟩ := Prod.mk.inj (Option.some.inj h)
  simp only [List.length_append, List.length_cons, List.length_nil, List.length_drop]
  omega

/-! ## Connections -/

/-- A connection that was made: the network, and the key of its handshake where it has RSN. -/
structure Connection where
  network : WifiNetwork
  tk : Option AesBlock

/-- The connection a call makes, if it does. -/
def established (ssid : List U8) (air : Air) : Option Connection :=
  match (lookUp m ssid air).1, connectStage1 m air with
  | some net, .associated =>
    if net.hasRsn = false then some ⟨net, none⟩
    else
      match air.handshake with
      | .ok tk => some ⟨net, some tk⟩
      | _ => none
  | _, _ => none

/-- What the rest of the kernel asks of the manager. -/
inductive WifiEvent
  | scan (found : List WifiNetwork)
  | connect (ssid : List U8) (air : Air)
  | send (dst : Mac) (payload : List U8)
  | receive (frame : List U8) (maxLen : Nat)

/-- The manager and the connections made so far, the last one first. -/
structure WifiRun where
  manager : WifiManager
  made : List Connection

def WifiRun.step (w : WifiRun) : WifiEvent → WifiRun
  | .scan found => { w with manager := dot11Scan w.manager found }
  | .connect ssid air =>
    ⟨wifiManagerConnect w.manager ssid air, (established w.manager ssid air).toList ++ w.made⟩
  | .send dst payload =>
    { w with manager := { w.manager with radio := (rtw89SendDataFrame w.manager.radio dst payload).2 } }
  | .receive frame maxLen =>
    { w with manager := { w.manager with radio := (rtw89RecvDataFrame w.manager.radio frame maxLen).2 } }

/-- Every data frame goes to the access point of the connection, and is protected exactly if that network
has RSN, so that the key of the connection's handshake opens it. -/
def Follows (c : Connection) : Prop :=
  ∀ dst payload frame, (rtw89SendDataFrame m.radio dst payload).1 = some frame →
    bytesAt frame 4 6 = c.network.bssid.toList ∧ isProtected (frameControl frame) = c.network.hasRsn ∧
      (c.network.hasRsn = true → ∃ tk, c.tk = some tk ∧
        Dot11.openCcmp (aes128EncryptBlock (aes128KeyExpand tk)) frame = some (dst.toList, payload))

/-- A driver that has sent nothing yet. -/
def wifiBoot (radio : Radio) : WifiRun :=
  ⟨⟨{ radio with ccmpInstalled := false }, .idle, [], []⟩, []⟩

/-! ## What a run keeps -/

/-- A key is installed exactly if a connection with RSN was made; while connected, the address is the one
of the last connection, and so is the key if that has RSN. -/
structure WifiRun.Inv (w : WifiRun) : Prop where
  installed : w.manager.radio.ccmpInstalled = w.made.any (·.network.hasRsn)
  connected : w.manager.state = .connected → w.manager.radio.chipReady = true ∧
    ∃ c earlier, w.made = c :: earlier ∧ w.manager.radio.bssid = c.network.bssid ∧
      (c.network.hasRsn = true → ∃ tk, c.tk = some tk ∧ w.manager.radio.roundKeys = aes128KeyExpand tk)

section Run

variable {w : WifiRun}

/-- The fields of the connection are the same. -/
def Radio.SameLink (r r' : Radio) : Prop :=
  r'.ccmpInstalled = r.ccmpInstalled ∧ r'.chipReady = r.chipReady ∧ r'.bssid = r.bssid ∧ r'.roundKeys = r.roundKeys

theorem WifiRun.Inv.congr {m : WifiManager} (h : w.Inv) (hstate : m.state = .connected → w.manager.state = .connected)
    (hlink : w.manager.radio.SameLink m.radio) : WifiRun.Inv ⟨m, w.made⟩ := by
  obtain ⟨hinst, hready, hbssid, hkeys⟩ := hlink
  refine ⟨hinst.trans h.installed, fun hc => ?_⟩
  rw [hready, hbssid, hkeys]
  exact h.connected (hstate hc)

theorem lookUp_radio (m : WifiManager) (ssid : List U8) (air : Air) : (lookUp m ssid air).2.radio = m.radio := by
  unfold lookUp
  split <;> rfl

/-- **What `wifi_manager_connect` does**: it fails and leaves the driver alone, or makes a connection. -/
theorem connect_cases (m : WifiManager) (ssid : List U8) (air : Air) :
    (established m ssid air = none ∧ (wifiManagerConnect m ssid air).radio = m.radio ∧
        (wifiManagerConnect m ssid air).state ≠ .connected) ∨
      ∃ net, (wifiManagerConnect m ssid air).state = .connected ∧ m.radio.chipReady = true ∧
        ((net.hasRsn = false ∧ established m ssid air = some ⟨net, none⟩ ∧
            (wifiManagerConnect m ssid air).radio = rtw89SetBssid m.radio net.bssid) ∨
          ∃ tk, net.hasRsn = true ∧ established m ssid air = some ⟨net, some tk⟩ ∧
            (wifiManagerConnect m ssid air).radio = rtw89InstallCcmpKey m.radio net.bssid tk) := by
  have hradio := lookUp_radio { m with state := .connecting } ssid air
  have hnet : (lookUp { m with state := .connecting } ssid air).1 = (lookUp m ssid air).1 := by
    unfold lookUp findCachedNetwork
    dsimp only
    split <;> rfl
  unfold wifiManagerConnect established
  rw [← hnet]
  rcases hl : lookUp { m with state := .connecting } ssid air with ⟨net, m'⟩
  rw [hl] at hradio
  cases net with
  | none => exact .inl ⟨rfl, hradio, by simp⟩
  | some net =>
    have hstage : connectStage1 m' air = connectStage1 m air := by
      unfold connectStage1
      rw [show m'.radio = m.radio from hradio]
    dsimp only
    unfold joinNetwork
    rw [hstage]
    cases hs : connectStage1 m air with
    | authFailed | assocFailed => exact .inl ⟨rfl, hradio, by simp⟩
    | associated =>
      have hready : m.radio.chipReady = true := by
        by_contra hno
        unfold connectStage1 dot11ConnectStage1 at hs
        rw [if_pos (by simp [hno])] at hs
        simp at hs
      dsimp only at hradio ⊢
      by_cases hrsn : net.hasRsn = false
      · rw [if_pos hrsn, if_pos hrsn, hradio]
        exact .inr ⟨net, rfl, hready, .inl ⟨hrsn, rfl, rfl⟩⟩
      · rw [if_neg hrsn, if_neg hrsn]
        cases air.handshake with
        | micFail | timeout => exact .inl ⟨rfl, hradio, by simp⟩
        | ok tk =>
          rw [hradio]
          exact .inr ⟨net, rfl, hready, .inr ⟨tk, by simpa using hrsn, rfl, rfl⟩⟩

theorem send_keeps (r : Radio) (dst : Mac) (payload : List U8) : r.SameLink (rtw89SendDataFrame r dst payload).2 := by
  unfold rtw89SendDataFrame
  dsimp only
  split_ifs <;> exact ⟨rfl, rfl, rfl, rfl⟩

theorem recv_keeps_link (r : Radio) (frame : List U8) (maxLen : Nat) : r.SameLink (rtw89RecvDataFrame r frame maxLen).2 := by
  unfold rtw89RecvDataFrame
  dsimp only
  split_ifs
  · exact ⟨rfl, rfl, rfl, rfl⟩
  · exact ⟨rfl, rfl, rfl, rfl⟩
  · exact ⟨rfl, rfl, rfl, rfl⟩
  · split <;> exact ⟨rfl, rfl, rfl, rfl⟩

theorem WifiRun.Inv.step (h : w.Inv) (e : WifiEvent) : (w.step e).Inv := by
  cases e with
  | scan found => exact h.congr id ⟨rfl, rfl, rfl, rfl⟩
  | send dst payload => exact h.congr id (send_keeps _ dst payload)
  | receive frame maxLen => exact h.congr id (recv_keeps_link _ frame maxLen)
  | connect ssid air =>
    show WifiRun.Inv ⟨wifiManagerConnect w.manager ssid air, (established w.manager ssid air).toList ++ w.made⟩
    rcases connect_cases w.manager ssid air with ⟨hnone, hradio, hstate⟩ |
      ⟨net, hstate, hready, ⟨hrsn, hmade, hradio⟩ | ⟨tk, hrsn, hmade, hradio⟩⟩
    · rw [hnone]
      exact h.congr (fun hc => absurd hc hstate) (hradio ▸ ⟨rfl, rfl, rfl, rfl⟩)
    · rw [hmade]
      refine ⟨?_, fun _ => ⟨by rw [hradio]; exact hready, _, w.made, rfl, by rw [hradio]; rfl, fun hr => ?_⟩⟩
      · rw [hradio]
        show w.manager.radio.ccmpInstalled = (net.hasRsn || w.made.any _)
        rw [hrsn, Bool.false_or]
        exact h.installed
      · exact absurd (hr.symm.trans hrsn) (by simp)
    · rw [hmade]
      refine ⟨?_, fun _ => ⟨by rw [hradio]; exact hready, _, w.made, rfl, by rw [hradio]; rfl,
        fun _ => ⟨tk, rfl, by rw [hradio]; rfl⟩⟩⟩
      rw [hradio]
      show true = (net.hasRsn || w.made.any _)
      rw [hrsn, Bool.true_or]

theorem WifiRun.inv (radio : Radio) (events : List WifiEvent) : (events.foldl WifiRun.step (wifiBoot radio)).Inv := by
  induction events using List.reverseRecOn with
  | nil => exact ⟨rfl, fun h => absurd h (show WifiState.idle ≠ .connected by decide)⟩
  | append_singleton events e ih =>
    rw [List.foldl_append]
    exact ih.step e

/-! ## Frames of a connection -/

/-- A frame that is sent is protected exactly if a key is installed, and then opens with it. -/
theorem send_frame {r : Radio} {dst : Mac} {payload frame : List U8}
    (h : (rtw89SendDataFrame r dst payload).1 = some frame) :
    bytesAt frame 4 6 = r.bssid.toList ∧ isProtected (frameControl frame) = r.ccmpInstalled ∧ (r.ccmpInstalled = true →
        Dot11.openCcmp (aes128EncryptBlock r.roundKeys) frame = some (dst.toList, payload)) := by
  have hready : r.chipReady = true := by
    by_contra hno
    unfold rtw89SendDataFrame at h
    rw [if_pos (by simpa using hno)] at h
    simp at h
  have hlen : payload.length ≤ 2358 := by
    by_contra hno
    unfold rtw89SendDataFrame at h
    rw [if_neg (by simp [hready]), if_pos (by omega)] at h
    simp at h
  by_cases hinst : r.ccmpInstalled = true
  · rw [send_eq hready hinst dst hlen] at h
    cases h
    obtain ⟨hfc, -, -, -, hbssid, -⟩ := sealedHeader_fields r dst r.sent.txPn (sealedBody r dst payload)
    refine ⟨hbssid, ?_, fun _ => openCcmp_sealedFrame r dst payload⟩
    unfold sealedFrame
    rw [hfc, hinst]
    decide
  · unfold rtw89SendDataFrame at h
    rw [if_neg (by simp [hready]), if_neg (by omega), if_pos (by simpa using hinst)] at h
    cases h
    obtain ⟨a0, a1, a2, a3, a4, a5, ha⟩ := sixBytes r.bssid
    refine ⟨?_, ?_, fun hyes => absurd hyes hinst⟩
    · dsimp only
      rw [ha]
      rfl
    · rw [show r.ccmpInstalled = false by simpa using hinst]
      show isProtected (((0x0188 : U16) >>> 8).setWidth 8 ++ (0x0188 : U16).setWidth 8) = false
      decide

theorem send_something {r : Radio} (hready : r.chipReady = true) : ∃ dst payload frame,
    (rtw89SendDataFrame r dst payload).1 = some frame := by
  refine ⟨Vector.replicate 6 0, [], ?_⟩
  unfold rtw89SendDataFrame
  rw [if_neg (by simp [hready]), if_neg (by simp)]
  dsimp only
  split <;> exact ⟨_, rfl⟩

end Run

/-- **Frames follow the current connection** exactly if it has RSN, or no connection before it had: a key
that was installed once stays. -/
theorem wifi_follows_iff (radio : Radio) (events : List WifiEvent)
    (h : (events.foldl WifiRun.step (wifiBoot radio)).manager.state = .connected) :
    ∃ c earlier, (events.foldl WifiRun.step (wifiBoot radio)).made = c :: earlier ∧
      (Follows (events.foldl WifiRun.step (wifiBoot radio)).manager c ↔
        (c.network.hasRsn = true ∨ ∀ d ∈ earlier, d.network.hasRsn = false)) := by
  obtain ⟨hinst, hconn⟩ := WifiRun.inv radio events
  generalize events.foldl WifiRun.step (wifiBoot radio) = w at *
  obtain ⟨hready, c, earlier, hmade, hbssid, hkeys⟩ := hconn h
  refine ⟨c, earlier, hmade, ?_⟩
  rw [hmade, List.any_cons] at hinst
  have hgoal : Follows w.manager c ↔ w.manager.radio.ccmpInstalled = c.network.hasRsn := by
    constructor
    · intro hf
      obtain ⟨dst, payload, frame, hframe⟩ := send_something hready
      exact (send_frame hframe).2.1.symm.trans (hf dst payload frame hframe).2.1
    · intro heq dst payload frame hframe
      obtain ⟨haddr, hprot, hopen⟩ := send_frame hframe
      refine ⟨haddr.trans (by rw [hbssid]), hprot.trans heq, fun hrsn => ?_⟩
      obtain ⟨tk, htk, hround⟩ := hkeys hrsn
      exact ⟨tk, htk, hround ▸ hopen (heq.trans hrsn)⟩
  rw [hgoal, hinst]
  cases hrsn : c.network.hasRsn with
  | true => simp
  | false => simp

/-- Joining the one network that a scan finds. -/
def joining (hasRsn : Bool) : WifiEvent :=
  .connect [0x61] ⟨[⟨[0x61], Vector.replicate 6 2, hasRsn⟩], true, true,
    [mgmtFrame 0xB (Vector.replicate 6 2) [0, 0, 2, 0, 0, 0]], [mgmtFrame 1 (Vector.replicate 6 2) [0, 0, 0, 0, 0, 0]],
    .ok (Vector.replicate 16 0)⟩

/-- Three connections, the second one without RSN, and frames between them. -/
def threeConnections : List WifiEvent :=
  [joining true, .send (Vector.replicate 6 3) [1], .scan [], joining false, .send (Vector.replicate 6 3) [2], .scan [],
    joining true]

theorem wifi_follows_three : ∃ w : WifiRun, w = threeConnections.foldl WifiRun.step (wifiBoot idleRadio) ∧
    ∃ c earlier, w.made = c :: earlier ∧ earlier.map (·.network.hasRsn) = [false, true] ∧ Follows w.manager c := by
  obtain ⟨c, earlier, hmade, hfollows⟩ := wifi_follows_iff idleRadio threeConnections rfl
  refine ⟨_, rfl, c, earlier, hmade, ?_, hfollows.mpr (.inl ?_)⟩ <;> obtain ⟨rfl, rfl⟩ := List.cons.inj hmade <;> rfl

/-- After a network with RSN, the frames to one without, which a new scan finds, are still protected. -/
theorem wifi_keeps_key : ∃ w : WifiRun, w = [joining true, .scan [], joining false].foldl WifiRun.step (wifiBoot idleRadio) ∧
    w.manager.state = .connected ∧ ∃ c earlier, w.made = c :: earlier ∧ ¬ Follows w.manager c := by
  refine ⟨_, rfl, rfl, _, _, rfl, fun hf => ?_⟩
  obtain ⟨dst, payload, frame, hframe⟩ := @send_something
    ([joining true, .scan [], joining false].foldl WifiRun.step (wifiBoot idleRadio)).manager.radio rfl
  have hprot := (send_frame hframe).2.1.symm.trans (hf dst payload frame hframe).2.1
  exact absurd (show true = false from hprot) (by simp)

end MinicOs
