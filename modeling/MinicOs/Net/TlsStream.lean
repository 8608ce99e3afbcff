import MinicOs.Net.TlsRecord

/-!
# What `tls_receive` returns

The peer sends records of application data. A call of `tls_receive` takes one record and hands out what fits the buffer of
the caller; the rest of the record is gone. The MAC of a record is computed in a buffer for 1200 bytes of content, while
records with up to 1231 bytes are read.

As long as every record has at most 1200 bytes and the caller of `tls_receive` has room for the next one, and TCP does not
give up in the middle of a record (`TlsReader.Meets`), every call keeps the invariant that what was returned and what is
still to come are the contents of the records (`TlsReader.call_returns`).
-/

namespace MinicOs

open List Exec

/-! ## The stream of the peer -/

/-- A record the peer sends: its IV and its content. -/
abbrev SealedData := AesBlock × List U8

/-- The record on the wire. -/
def wireRecord (roundKeys : RoundKeys) (macKey : List U8) (seqNum : U64) (r : SealedData) : List U8 :=
  recordBytes tlsContentApplicationData 0x03 0x03 (sealRecord roundKeys macKey seqNum tlsContentApplicationData r.1 r.2)

/-- The records, with sequence numbers from `seqNum` on. -/
def wire (roundKeys : RoundKeys) (macKey : List U8) : U64 → List SealedData → List U8
  | _, [] => []
  | seqNum, r :: rs => wireRecord roundKeys macKey seqNum r ++ wire roundKeys macKey (seqNum + 1) rs

/-- The application data in the records. -/
def contentsOf (rs : List SealedData) : List U8 := (rs.map Prod.snd).flatten

/-- TCP hands over the whole record, or nothing of it. -/
def TcpLink.Whole (t : TcpLink) (record : List U8) : Prop :=
  (∃ t', t.Delivers record t') ∨ ((tcpReadExact t 5).1 = none ∧ (tcpReadExact t 5).2.incoming = t.incoming)

variable {t : TcpLink}

theorem TcpLink.Delivers.incoming {t' : TcpLink} {record rest : List U8} (h : t.Delivers record t')
    (hrest : t.incoming = record ++ rest) : t'.incoming = rest := by
  obtain ⟨t1, hheader, hpayload⟩ := h
  have htook := (tcpReadExact_took hheader).2.trans (tcpReadExact_took hpayload).2
  rw [htook.incoming, take_append_drop] at hrest
  exact append_cancel_left hrest

theorem tlsReadRecord_end (h : t.incoming = []) (max : Nat) : ∃ t', tlsReadRecord t max = (none, t') ∧ t'.incoming = [] := by
  cases hread : tcpReadExact t 5 with
  | mk header t' =>
    cases header with
    | none =>
      obtain ⟨chunk, htook, -⟩ := readExactLoop_took (Nat.zero_le 5) hread
      refine ⟨t', ?_, (append_eq_nil_iff.mp (htook.incoming.symm.trans h)).2⟩
      unfold tlsReadRecord
      rw [hread]
    | some header =>
      obtain ⟨hlen, htook⟩ := tcpReadExact_took hread
      rw [(append_eq_nil_iff.mp (htook.incoming.symm.trans h)).1] at hlen
      exact absurd hlen (by decide)

/-! ## Calls -/

/-- The reader: its connection, the records that were not read yet, and what was returned. -/
structure TlsReader where
  conn : TlsConn
  pending : List SealedData
  returned : List U8

/-- A call of `tls_receive` for `maxLen` bytes that goes through its loop at most `rounds` times. -/
def TlsReader.call (s : TlsReader) (maxLen rounds : Nat) : Exec TlsReader := do
  let (bytes, conn) ← tlsReceive s.conn maxLen rounds
  return { conn := conn
           pending := if bytes.isSome then s.pending.tail else s.pending
           returned := s.returned ++ bytes.getD [] }

/-- The stream goes on with the records that were not read yet. -/
def TlsReader.Ready (s : TlsReader) : Prop :=
  s.conn.tcp.incoming = wire s.conn.serverRoundKeys s.conn.serverWriteMacKey s.conn.serverSeqNum s.pending

/-- The condition on a call: the next record is not too long for the receiver nor for its caller, and TCP does not give up
in the middle of it. -/
def TlsReader.Meets (s : TlsReader) (maxLen : Nat) : Prop :=
  ∀ r rs, s.pending = r :: rs → r.2.length ≤ 1200 ∧ r.2.length ≤ maxLen ∧
    s.conn.tcp.Whole (wireRecord s.conn.serverRoundKeys s.conn.serverWriteMacKey s.conn.serverSeqNum r)

/-- Nothing is lost by a call. -/
def TlsReader.Keeps (s s' : TlsReader) : Prop :=
  s'.returned ++ contentsOf s'.pending = s.returned ++ contentsOf s.pending

variable {conn : TlsConn} {tcp : TcpLink} {s : TlsReader} {maxLen : Nat}

variable {r : SealedData}

theorem TlsReader.call_fails (hready : s.Ready) (h : tlsReadRecord s.conn.tcp tlsFragmentLen = (none, tcp))
    (hincoming : tcp.incoming = s.conn.tcp.incoming) (maxLen rounds : Nat) :
    (s.call maxLen (rounds + 1)).Returns fun s' => s'.Ready ∧ s.Keeps s' := by
  have hreceive : receiveEncryptedRecord s.conn maxLen = .done (none, { s.conn with tcp := tcp }) := by
    unfold receiveEncryptedRecord
    rw [h]
    rfl
  rw [TlsReader.call, tlsReceive, hreceive, done_bind]
  exact .done ⟨hincoming.trans hready, congrArg (· ++ _) (append_nil _)⟩

/-- TCP has the next record: the call returns what fits. -/
theorem TlsReader.call_record {rs : List SealedData} (hpending : s.pending = r :: rs) (hlen : r.2.length ≤ tlsMaxRecordLen)
    (h : s.conn.tcp.Delivers (wireRecord s.conn.serverRoundKeys s.conn.serverWriteMacKey s.conn.serverSeqNum r) tcp)
    (maxLen rounds : Nat) : s.call maxLen (rounds + 1) =
      .done ⟨{ s.conn with tcp := tcp, serverSeqNum := s.conn.serverSeqNum + 1 }, rs, s.returned ++ r.2.take maxLen⟩ := by
  have hsize := length_sealRecord s.conn.serverRoundKeys s.conn.serverWriteMacKey s.conn.serverSeqNum
    tlsContentApplicationData r.1 r.2
  have hmax : tlsMaxRecordLen = 1200 := rfl
  have hread := h.read (show _ ≤ tlsFragmentLen by rw [hsize]; unfold tlsFragmentLen; omega) (by omega)
  rw [TlsReader.call, tlsReceive, receiveEncryptedRecord_seal hread hlen, done_bind, hpending]
  rfl

/-- **What one call does**: it returns the next record, or nothing. -/
theorem TlsReader.call_returns (hready : s.Ready) (hmeets : s.Meets maxLen) (rounds : Nat) :
    (s.call maxLen rounds).Returns fun s' => s'.Ready ∧ s.Keeps s' := by
  cases rounds with
  | zero =>
    exact .done ⟨hready, congrArg (· ++ _) (append_nil _)⟩
  | succ rounds =>
    cases hpending : s.pending with
    | nil =>
      have hnil : s.conn.tcp.incoming = [] := by
        rw [hready, hpending, wire]
      obtain ⟨tcp, hread, hincoming⟩ := tlsReadRecord_end hnil tlsFragmentLen
      exact TlsReader.call_fails hready hread (hincoming.trans hnil.symm) _ _
    | cons r rs =>
      obtain ⟨hlen, hfits, ⟨tcp, hdelivers⟩ | ⟨hnone, hincoming⟩⟩ := hmeets r rs hpending
      · have hrest : s.conn.tcp.incoming = wireRecord s.conn.serverRoundKeys s.conn.serverWriteMacKey s.conn.serverSeqNum r ++
            wire s.conn.serverRoundKeys s.conn.serverWriteMacKey (s.conn.serverSeqNum + 1) rs := by
          rw [hready, hpending, wire]
        rw [TlsReader.call_record hpending hlen hdelivers, take_of_length_le hfits]
        refine .done ⟨hdelivers.incoming hrest, ?_⟩
        unfold TlsReader.Keeps contentsOf
        rw [hpending]
        simp
      · have hread : tlsReadRecord s.conn.tcp tlsFragmentLen = (none, (tcpReadExact s.conn.tcp 5).2) := by
          unfold tlsReadRecord
          rw [show tcpReadExact s.conn.tcp 5 = (none, (tcpReadExact s.conn.tcp 5).2) from Prod.ext hnone rfl]
        exact TlsReader.call_fails hready hread hincoming _ _

/-! ## Runs -/

/-- Calls, one after the other: the room each has and its rounds. -/
def TlsReader.run : List (Nat × Nat) → TlsReader → Exec TlsReader := loop fun call s => s.call call.1 call.2

/-- Every call of the run meets the condition. -/
def TlsReader.AllMeet : List (Nat × Nat) → TlsReader → Prop :=
  LoopMeets (fun call s => s.call call.1 call.2) fun call s => s.Meets call.1

theorem TlsReader.run_returns {calls : List (Nat × Nat)} (hready : s.Ready) (hmeets : TlsReader.AllMeet calls s) :
    (TlsReader.run calls s).Returns fun s' => s'.Ready ∧ s.Keeps s' := by
  refine hmeets.returns _ (fun call s1 ⟨hready1, hkeeps1⟩ hfirst => ?_) ⟨hready, rfl⟩
  exact (TlsReader.call_returns hready1 hfirst call.2).mono fun s' ⟨hready', hkeeps'⟩ =>
    ⟨hready', Eq.trans hkeeps' hkeeps1⟩

/-- **Nothing is lost and nothing overruns a buffer**, in every run of calls that meet the condition: each of them ends, and
what was returned by then is a prefix of the contents of the records. -/
theorem tlsReceive_stream (conn : TlsConn) (records : List SealedData) (calls : List (Nat × Nat))
    (hwire : conn.tcp.incoming = wire conn.serverRoundKeys conn.serverWriteMacKey conn.serverSeqNum records)
    (hmeets : TlsReader.AllMeet calls ⟨conn, records, []⟩) :
    ∃ s, TlsReader.run calls ⟨conn, records, []⟩ = .done s ∧ s.returned <+: contentsOf records := by
  obtain ⟨s, hrun, -, hkeeps⟩ := returns_iff.mp (TlsReader.run_returns (s := ⟨conn, records, []⟩) hwire hmeets)
  exact ⟨s, hrun, contentsOf s.pending, hkeeps⟩

/-- TCP that hands over every record at once, its header and then the rest. -/
def promptLink (roundKeys : RoundKeys) (macKey : List U8) (seqNum : U64) (rs : List SealedData) : TcpLink :=
  ⟨wire roundKeys macKey seqNum rs, rs.flatMap fun r => [some 5, some (16 + 16 * ((r.2.length + 32) / 16 + 1))], [], []⟩

theorem promptLink_delivers (roundKeys : RoundKeys) (macKey : List U8) (seqNum : U64) (r : SealedData) (rs : List SealedData) :
    (promptLink roundKeys macKey seqNum (r :: rs)).Delivers (wireRecord roundKeys macKey seqNum r)
      (promptLink roundKeys macKey (seqNum + 1) rs) := by
  have hsize := length_sealRecord roundKeys macKey seqNum tlsContentApplicationData r.1 r.2
  have hready := @TcpLink.delivers_ready tlsContentApplicationData 0x03 0x03
    (sealRecord roundKeys macKey seqNum tlsContentApplicationData r.1 r.2) (wire roundKeys macKey (seqNum + 1) rs)
    (rs.flatMap fun r => [some 5, some (16 + 16 * ((r.2.length + 32) / 16 + 1))]) [] [] (by
      intro hnil
      rw [hnil, length_nil] at hsize
      omega)
  rw [hsize] at hready
  exact hready

/-- A reader with keys that are zero, the records of its peer, and what was returned. -/
def promptReader (seqNum : U64) (rs : List SealedData) (returned : List U8) : TlsReader :=
  ⟨{ zeroKeyConn (promptLink (aes128KeyExpand (Vector.replicate 16 0)) (List.replicate 32 0) seqNum rs) [] with
    serverSeqNum := seqNum }, rs, returned⟩

theorem promptReader_call (seqNum : U64) (rs : List SealedData) (returned : List U8) (maxLen rounds : Nat)
    (hlen : r.2.length ≤ tlsMaxRecordLen) : (promptReader seqNum (r :: rs) returned).call maxLen (rounds + 1) =
      .done (promptReader (seqNum + 1) rs (returned ++ r.2.take maxLen)) :=
  TlsReader.call_record rfl hlen (promptLink_delivers _ _ seqNum r rs) maxLen rounds

def twoBytes : SealedData := (Vector.replicate 16 7, [1, 2])

def oneByte : SealedData := (Vector.replicate 16 7, [3])

theorem promptReader_meets {seqNum : U64} {r : SealedData} {rs : List SealedData} {returned : List U8}
    (hlen : r.2.length ≤ 4) : (promptReader seqNum (r :: rs) returned).Meets 4 := by
  intro r' rs' hpending
  obtain ⟨rfl, rfl⟩ := List.cons.inj hpending
  exact ⟨hlen.trans (by decide), hlen, Or.inl ⟨_, promptLink_delivers _ _ _ _ _⟩⟩

theorem promptReader_allMeet {r r' : SealedData} (hlen : r.2.length ≤ 4) (hlen' : r'.2.length ≤ 4) :
    TlsReader.AllMeet [(4, 1), (4, 1)] (promptReader 0 [r, r'] []) := by
  refine ⟨promptReader_meets hlen, fun s hs => ?_⟩
  dsimp only at hs
  rw [promptReader_call 0 _ _ _ _ (hlen.trans (by decide))] at hs
  cases hs
  exact ⟨promptReader_meets hlen', fun _ _ => trivial⟩

/-- Two records, each read with room for four bytes. -/
theorem tlsReceive_stream_two : ∃ s, TlsReader.run [(4, 1), (4, 1)] (promptReader 0 [twoBytes, oneByte] []) = .done s ∧
    s.returned <+: contentsOf [twoBytes, oneByte] :=
  tlsReceive_stream _ [twoBytes, oneByte] [(4, 1), (4, 1)] rfl (promptReader_allMeet (by decide) (by decide))

/-- **Bytes are lost, and a buffer is overrun.** Of a record of two bytes a caller with room for one gets the first, and the
next call goes on with the next record. A record of 1201 bytes is written behind the buffer of the MAC. -/
theorem tlsReceive_loses :
    (∃ s, TlsReader.run [(1, 1), (1, 1)] (promptReader 0 [twoBytes, oneByte] []) = .done s ∧ s.returned = [1, 3] ∧
      contentsOf [twoBytes, oneByte] = [1, 2, 3]) ∧
      TlsReader.run [(2000, 1)] (promptReader 0 [(Vector.replicate 16 7, List.replicate 1201 0)] []) = .undefined := by
  constructor
  · refine ⟨promptReader 2 [] [1, 3], ?_, rfl, rfl⟩
    rw [TlsReader.run, loop, promptReader_call 0 _ _ _ _ (by decide), done_bind, loop,
      promptReader_call _ _ _ _ _ (by decide), done_bind, loop]
    rfl
  · have hsize := length_sealRecord (aes128KeyExpand (Vector.replicate 16 0)) (List.replicate 32 0) 0 tlsContentApplicationData
      (Vector.replicate 16 7) (List.replicate 1201 0)
    rw [length_replicate] at hsize
    have hread := (promptLink_delivers (aes128KeyExpand (Vector.replicate 16 0)) (List.replicate 32 0) 0
      (Vector.replicate 16 7, List.replicate 1201 0) []).read (show _ ≤ tlsFragmentLen by rw [hsize]; decide) (by rw [hsize]; decide)
    have hlong := @receiveEncryptedRecord_long
      (promptReader 0 [(Vector.replicate 16 7, List.replicate 1201 0)] []).conn tlsContentApplicationData 2000 _ _ _ hread
      (by rw [length_replicate]; decide) (by rw [length_replicate]; decide)
    rw [TlsReader.run, loop, TlsReader.call, tlsReceive, hlong]
    rfl

/-! ## Both ends -/

/-- Calls of `tls_send`, one after the other. -/
def tlsSendAll : List (List U8) → TlsConn → Exec TlsConn
  | [], conn => return conn
  | data :: rest, conn => do
    let (_, conn) ← tlsSend conn data
    tlsSendAll rest conn

/-- What the calls hand to TCP: a record for each of the data that are not too long. -/
theorem tlsSendAll_wire : ∀ (datas : List (List U8)) (conn : TlsConn), 16 * datas.length ≤ conn.random.length →
    ∃ conn' records, tlsSendAll datas conn = .done conn' ∧ records.map Prod.snd = datas.filter (·.length ≤ tlsMaxRecordLen) ∧
      conn'.tcp.outgoing.flatten = conn.tcp.outgoing.flatten ++
        wire conn.clientRoundKeys conn.clientWriteMacKey conn.clientSeqNum records
  | [], conn, _ => ⟨conn, [], rfl, rfl, (append_nil _).symm⟩
  | data :: rest, conn, hrandom => by
    rw [length_cons] at hrandom
    rw [tlsSendAll, tlsSend, filter_cons]
    by_cases hlen : data.length ≤ tlsMaxRecordLen
    · have hiv : conn.random = (blockAt conn.random 0).toList ++ conn.random.drop 16 := by
        rw [toList_blockAt_zero (by omega), take_append_drop]
      rw [if_neg (by omega), sendEncryptedRecord_eq conn _ hlen hiv, done_bind, if_pos (decide_eq_true hlen)]
      obtain ⟨conn', records, hsend, hdata, hout⟩ := tlsSendAll_wire rest { conn with
        random := conn.random.drop 16
        clientSeqNum := conn.clientSeqNum + 1
        tcp := (conn.tcp.send (wireRecord conn.clientRoundKeys conn.clientWriteMacKey conn.clientSeqNum
          (blockAt conn.random 0, data))).2 } (by rw [length_drop]; omega)
      refine ⟨conn', (blockAt conn.random 0, data) :: records, hsend, congrArg (data :: ·) hdata, hout.trans ?_⟩
      rw [TcpLink.send, wire, flatten_append, flatten_singleton, append_assoc]
    · -- refused, and nothing is sent
      rw [if_pos (by omega), if_neg (by simpa using hlen)]
      exact tlsSendAll_wire rest conn (by omega)

/-- **From one end to the other.** Of the data given to `tls_send` in any sequence of calls those of at most 1200 bytes are
sent, and the calls of `tls_receive` at a peer with the same keys return them in order, from the start, while they meet the
condition. -/
theorem tls_end_to_end (sender : TlsConn) (datas : List (List U8)) (hnew : sender.tcp.outgoing = [])
    (hrandom : 16 * datas.length ≤ sender.random.length) : ∃ sender' records, tlsSendAll datas sender = .done sender' ∧
      records.map Prod.snd = datas.filter (·.length ≤ tlsMaxRecordLen) ∧ sender'.tcp.outgoing.flatten =
        wire sender.clientRoundKeys sender.clientWriteMacKey sender.clientSeqNum records ∧
      ∀ receiver calls, SameKeys sender receiver → receiver.tcp.incoming = sender'.tcp.outgoing.flatten →
        TlsReader.AllMeet calls ⟨receiver, records, []⟩ → ∃ s, TlsReader.run calls ⟨receiver, records, []⟩ = .done s ∧
          s.returned <+: (datas.filter (·.length ≤ tlsMaxRecordLen)).flatten := by
  obtain ⟨sender', records, hsend, hdata, hout⟩ := tlsSendAll_wire datas sender hrandom
  rw [hnew, flatten_nil, nil_append] at hout
  refine ⟨sender', records, hsend, hdata, hout, fun receiver calls hkeys hincoming hmeets => ?_⟩
  rw [hout, ← hkeys.roundKeys, ← hkeys.macKey, ← hkeys.seqNum] at hincoming
  obtain ⟨s, hrun, -, hkeeps⟩ := returns_iff.mp (@TlsReader.run_returns ⟨receiver, records, []⟩ _ hincoming hmeets)
  exact ⟨s, hrun, contentsOf s.pending, by rw [← hdata]; exact hkeeps⟩

/-- Two messages sent, and read with room for four bytes each. -/
theorem tls_end_to_end_two : ∃ sender' records s,
    tlsSendAll [[1, 2], [3]] (zeroKeyConn ⟨[], [], [], []⟩ (replicate 32 7)) = .done sender' ∧
      (promptReader 0 records []).conn.tcp.incoming = sender'.tcp.outgoing.flatten ∧
      TlsReader.run [(4, 1), (4, 1)] (promptReader 0 records []) = .done s ∧ s.returned <+: [1, 2, 3] := by
  obtain ⟨sender', records, hsend, hdata, hout, hreceive⟩ :=
    tls_end_to_end (zeroKeyConn ⟨[], [], [], []⟩ (replicate 32 7)) [[1, 2], [3]] rfl (by decide)
  obtain ⟨r, rest, rfl, hr, hrest⟩ := map_eq_cons_iff.mp (hdata.trans (show _ = [1, 2] :: [[3]] by decide))
  obtain ⟨r', rest, rfl, hr', hrest⟩ := map_eq_cons_iff.mp hrest
  obtain rfl := map_eq_nil_iff.mp hrest
  obtain ⟨s, hrun, hprefix⟩ := hreceive (promptReader 0 [r, r'] []).conn [(4, 1), (4, 1)] ⟨rfl, rfl, rfl⟩ hout.symm
    (promptReader_allMeet (by rw [hr]; decide) (by rw [hr']; decide))
  exact ⟨sender', [r, r'], s, hsend, hout.symm, hrun, hprefix⟩

end MinicOs
