import MinicOs.Net.Handshake
import MinicOs.Security.Sha256Conforms

/-!
# The key schedule of TLS

`tls_prf` makes its output block by block; `derive_keys` cuts the key block up, and `send_finished` hashes a copy of the
transcript. `Rfc5246` has the pseudorandom function as the RFC defines it, over HMAC-SHA256.
-/

namespace MinicOs

open List

/-! ## The RFC -/

namespace Rfc5246

/-- `A(i)`. -/
noncomputable def seedChain (secret seed : List U8) : Nat → List U8
  | 0 => seed
  | i + 1 => Fips180.hmac secret (seedChain secret seed i)

/-- The first `n` blocks of `P_SHA256`. -/
noncomputable def pHash (secret seed : List U8) (n : Nat) : List U8 :=
  (List.range n).flatMap fun i => Fips180.hmac secret (seedChain secret seed (i + 1) ++ seed)

/-- `PRF(secret, label, seed)`, the first `len` bytes. -/
noncomputable def prf (secret label seed : List U8) (len : Nat) : List U8 :=
  (pHash secret (label ++ seed) ((len + 31) / 32)).take len

end Rfc5246

open Rfc5246

/-! ## The loop -/

/-- `while (produced < out_len)`: `a`, and the bytes in `out` so far. -/
def prfLoop (secret seed : List U8) (outLen : Nat) (a out : List U8) : List U8 :=
  if out.length < outLen then
    let hmacOut := hmacSha256 secret (a ++ seed)
    let copyLen := if out.length + 32 > outLen then outLen - out.length else 32
    prfLoop secret seed outLen (hmacSha256 secret a) (out ++ hmacOut.take copyLen)
  else out
termination_by outLen - out.length
decreasing_by
  rw [length_append, length_take, hmacSha256_length]
  split <;> omega

/-- `tls_prf`. The label and the seed are put together in `seed[128]`, and `input` has 32 bytes more. -/
def tlsPrfRun (secret label seedData : List U8) (outLen : Nat) : Exec (List U8) :=
  let seed := label ++ seedData
  if seed.length > 128 then .undefined else .done (prfLoop secret seed outLen (hmacSha256 secret seed) [])

variable (secret seed : List U8)

theorem seedChain_succ (i : Nat) : hmacSha256 secret (seedChain secret seed i) = seedChain secret seed (i + 1) := hmacSha256_eq _ _

theorem pHash_succ (i : Nat) :
    pHash secret seed (i + 1) = pHash secret seed i ++ hmacSha256 secret (seedChain secret seed (i + 1) ++ seed) := by
  rw [pHash, range_succ, flatMap_append, flatMap_singleton, hmacSha256_eq]
  rfl

theorem length_pHash (n : Nat) : (pHash secret seed n).length = 32 * n := by
  induction n with
  | zero => rfl
  | succ n ih =>
    rw [pHash_succ, length_append, ih, hmacSha256_length]
    omega

theorem prfLoop_eq (outLen : Nat) : ∀ n i, i + n = (outLen + 31) / 32 →
    prfLoop secret seed outLen (seedChain secret seed (i + 1)) ((pHash secret seed i).take outLen) =
      (pHash secret seed (i + n)).take outLen := by
  intro n
  induction n with
  | zero =>
    intro i hi
    rw [prfLoop, if_neg (by rw [length_take, length_pHash]; omega)]
    rfl
  | succ n ih =>
    intro i hi
    have hfull : (pHash secret seed i).take outLen = pHash secret seed i :=
      take_of_length_le (by rw [length_pHash]; omega)
    have hround : pHash secret seed i ++ (hmacSha256 secret (seedChain secret seed (i + 1) ++ seed)).take
        (if 32 * i + 32 > outLen then outLen - 32 * i else 32) = (pHash secret seed (i + 1)).take outLen := by
      rw [pHash_succ, take_append, length_pHash, hfull]
      split
      · rfl
      · rw [take_of_length_le (by rw [hmacSha256_length]), take_of_length_le (by rw [hmacSha256_length]; omega)]
    rw [prfLoop, hfull, if_pos (by rw [length_pHash]; omega), length_pHash]
    dsimp only
    rw [hround, seedChain_succ, ih (i + 1) (by omega), Nat.add_right_comm, Nat.add_assoc]

theorem prfBlocks_eq (n : Nat) : ∀ i, pHash secret seed i ++ prfBlocks secret seed n (seedChain secret seed (i + 1)) =
    pHash secret seed (i + n) := by
  induction n with
  | zero => exact fun i => append_nil _
  | succ n ih =>
    intro i
    rw [prfBlocks, ← append_assoc, ← pHash_succ, seedChain_succ, ih (i + 1), Nat.add_right_comm, Nat.add_assoc]

theorem tlsPrf_eq (label seedData : List U8) (outLen : Nat) :
    tlsPrf secret label seedData outLen = prf secret label seedData outLen := by
  have hblocks := prfBlocks_eq secret (label ++ seedData) ((outLen + 31) / 32) 0
  rw [← seedChain_succ, Nat.zero_add, show pHash secret (label ++ seedData) 0 = [] from rfl, nil_append] at hblocks
  unfold tlsPrf prf
  rw [← hblocks]
  rfl

/-- **The loop of `tls_prf`**, while the label and the seed fit. -/
theorem tlsPrfRun_eq {label seedData : List U8} (h : label.length + seedData.length ≤ 128) (outLen : Nat) :
    tlsPrfRun secret label seedData outLen = .done (tlsPrf secret label seedData outLen) := by
  have hloop := prfLoop_eq secret (label ++ seedData) outLen ((outLen + 31) / 32) 0 (Nat.zero_add _)
  rw [← seedChain_succ, Nat.zero_add, show pHash secret (label ++ seedData) 0 = [] from rfl, take_nil] at hloop
  unfold tlsPrfRun
  rw [if_neg (by rw [length_append]; omega), tlsPrf_eq, prf, ← hloop]
  rfl

/-! ## The keys -/

/-- The keys of a connection are those of the RFC: the master secret, and the four parts of the key block in order. -/
def KeysConform (conn : TlsConn) (preMasterSecret : List U8) (keys : TlsConn) : Prop :=
  keys.masterSecret = prf preMasterSecret labelMasterSecret (conn.clientRandom ++ conn.serverRandom) 48 ∧
    keys.clientWriteMacKey.length = 32 ∧ keys.serverWriteMacKey.length = 32 ∧
    keys.clientWriteMacKey ++ (keys.serverWriteMacKey ++ (keys.clientWriteKey.toList ++ keys.serverWriteKey.toList)) =
      prf keys.masterSecret labelKeyExpansion (conn.serverRandom ++ conn.clientRandom) 96

theorem deriveKeys_conform (conn : TlsConn) (preMasterSecret : List U8) :
    KeysConform conn preMasterSecret (deriveKeys conn preMasterSecret) := by
  unfold KeysConform deriveKeys
  dsimp only
  rw [← tlsPrf_eq, ← tlsPrf_eq]
  generalize hmaster : tlsPrf preMasterSecret labelMasterSecret (conn.clientRandom ++ conn.serverRandom) 48 = master
  have hlen := length_tlsPrf master labelKeyExpansion (conn.serverRandom ++ conn.clientRandom) 96
  generalize tlsPrf master labelKeyExpansion (conn.serverRandom ++ conn.clientRandom) 96 = block at hlen ⊢
  refine ⟨rfl, by rw [length_take]; omega, by rw [length_take, length_drop]; omega, ?_⟩
  have hlast : (block.drop 80).take 16 = block.drop 80 := take_of_length_le (by rw [length_drop]; omega)
  rw [toList_blockAt_zero (by rw [length_drop]; omega), toList_blockAt_zero (by rw [length_drop]; omega), hlast,
    show block.drop 80 = (block.drop 64).drop 16 by rw [drop_drop], take_append_drop,
    show block.drop 64 = (block.drop 32).drop 32 by rw [drop_drop], take_append_drop, take_append_drop]

/-- **The key schedule is that of RFC 5246**: the pseudorandom function for labels and seeds that fit, the keys, and the
Finished, which is sent with the verify data of the messages so far and is all that is added to the transcript. -/
theorem keySchedule_conforms (secret label seedData : List U8) (outLen : Nat)
    (hfit : label.length + seedData.length ≤ 128) (conn : TlsConn) (preMasterSecret messages : List U8) :
    tlsPrfRun secret label seedData outLen = .done (prf secret label seedData outLen) ∧
      KeysConform conn preMasterSecret (deriveKeys conn preMasterSecret) ∧
      (conn.transcript = sha256Update sha256Init messages →
        let msg := handshakeMessage tlsHandshakeFinished
          (prf conn.masterSecret labelClientFinished (Fips180.sha256 messages) 12)
        sendFinished conn =
          sendEncryptedRecord { conn with transcript := sha256Update conn.transcript msg } tlsContentHandshake msg) := by
  refine ⟨?_, deriveKeys_conform conn preMasterSecret, fun htranscript => ?_⟩
  · rw [tlsPrfRun_eq secret hfit, tlsPrf_eq]
  · have hverify : verifyData conn labelClientFinished =
        prf conn.masterSecret labelClientFinished (Fips180.sha256 messages) 12 := by
      rw [verifyData, tlsPrf_eq, htranscript, sha256Final_eq]
    unfold sendFinished
    rw [hverify]

/-- With four bytes of messages before the Finished, and an output of two blocks. -/
theorem keySchedule_conforms_four :
    let conn := { zeroKeyConn ⟨[], [], [], []⟩ [] with transcript := sha256Update sha256Init [1, 0, 0, 0] }
    let msg := handshakeMessage tlsHandshakeFinished
      (prf conn.masterSecret labelClientFinished (Fips180.sha256 [1, 0, 0, 0]) 12)
    tlsPrfRun [0x01] [0x61] [0x02, 0x03] 40 = .done (prf [0x01] [0x61] [0x02, 0x03] 40) ∧ sendFinished conn =
      sendEncryptedRecord { conn with transcript := sha256Update conn.transcript msg } tlsContentHandshake msg := by
  have h := keySchedule_conforms [0x01] [0x61] [0x02, 0x03] 40 (by decide)
    { zeroKeyConn ⟨[], [], [], []⟩ [] with transcript := sha256Update sha256Init [1, 0, 0, 0] } [] [1, 0, 0, 0]
  exact ⟨h.1, h.2.2 rfl⟩

end MinicOs
