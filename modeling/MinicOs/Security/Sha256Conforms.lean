import MinicOs.Security.Fips180

/-!
# The hash is the one of the standard

`sha256_update` takes the message byte by byte and compresses whenever its buffer is full; `sha256_final` puts the padding
through the same loop.
-/

namespace MinicOs

open List Nat

open Fips180 (blockWords hashBlocks messageSchedule nextHash pad padZeros digestBytes roundConstant)

/-! ## A block -/

variable {n : Nat}

theorem rotr_eq (x : U32) (hn : n < 32) : rotr x n = x.rotateRight n := by
  rw [rotr, BitVec.rotateRight_def, mod_eq_of_lt hn]

variable {block : List U8} {t : Nat}

theorem blockWord_eq (h : 4 * t + 4 ≤ block.length) :
    blockWord block t = BitVec.ofNat 32 (beValue (bytesAt block (4 * t) 4)) := by
  have hget : ∀ i (hi : i < block.length), block.getD i 0 = block.get ⟨i, hi⟩ := fun i hi => by
    rw [getD_eq_getElem?_getD, getElem?_eq_getElem hi]
    rfl
  have hshift : ∀ (b : U8) (k : Nat), k ≤ 24 → (b.setWidth 32 <<< k : U32).toNat = b.toNat <<< k := fun b k hk => by
    have hb := b.isLt
    have hpow : 2 ^ k ≤ 2 ^ 24 := Nat.pow_le_pow_right (by decide) hk
    rw [BitVec.toNat_shiftLeft, BitVec.toNat_setWidth_of_le (by decide), Nat.shiftLeft_eq]
    refine mod_eq_of_lt ?_
    calc b.toNat * 2 ^ k < 2 ^ 8 * 2 ^ k := Nat.mul_lt_mul_of_pos_right hb (Nat.two_pow_pos k)
      _ ≤ 2 ^ 8 * 2 ^ 24 := mul_le_mul_left _ hpow
  unfold blockWord
  rw [mul_comm t 4]
  simp (disch := omega) only [hget, bytesAt_succ]
  refine BitVec.eq_of_toNat_eq ?_
  rw [BitVec.toNat_or, BitVec.toNat_or, BitVec.toNat_or, hshift _ _ (by decide), hshift _ _ (by decide),
    hshift _ _ (by decide), BitVec.toNat_setWidth_of_le (by decide), or_bytes, BitVec.toNat_ofNat]
  exact (mod_eq_of_lt (beValue_lt _)).symm

theorem messageSchedule_lt (m : Nat → U32) (ht : t < 16) : messageSchedule m t = m t := by
  rw [messageSchedule, if_pos ht]

theorem messageSchedule_ge (m : Nat → U32) (ht : 16 ≤ t) : messageSchedule m t =
    Fips180.smallSigma1 (messageSchedule m (t - 2)) + messageSchedule m (t - 7) +
      Fips180.smallSigma0 (messageSchedule m (t - 15)) + messageSchedule m (t - 16) := by
  rw [messageSchedule, if_neg (by omega)]

/-- The words of the schedule so far. -/
def scheduleUpTo (m : Nat → U32) (n : Nat) : List U32 := (List.range n).map (messageSchedule m)

theorem scheduleStep_eq (m : Nat → U32) (hn : 16 ≤ n) : scheduleStep (scheduleUpTo m n) = scheduleUpTo m (n + 1) := by
  have hlen : (scheduleUpTo m n).length = n := by rw [scheduleUpTo, length_map, length_range]
  have hget : ∀ i < n, (scheduleUpTo m n).getD i 0 = messageSchedule m i := fun i hi => by
    rw [scheduleUpTo, getD_eq_getElem?_getD, getElem?_map, getElem?_range hi]
    rfl
  unfold scheduleStep
  dsimp only
  simp (disch := omega) only [hlen, hget]
  rw [scheduleUpTo, scheduleUpTo, range_succ, map_append, map_singleton, messageSchedule_ge m hn]
  refine congrArg (fun w => _ ++ [w]) ?_
  unfold Fips180.smallSigma0 Fips180.smallSigma1
  ac_rfl

variable {m : Nat → U32}

/-- The loops over `w` compute the message schedule. -/
theorem schedule_eq (h : ∀ t < 16, blockWord block t = m t) : schedule block = scheduleUpTo m 64 := by
  have hloop : ∀ n, (List.range n).foldl (fun w _ => scheduleStep w) (scheduleUpTo m 16) = scheduleUpTo m (16 + n) := by
    intro n
    induction n with
    | zero => rfl
    | succ n ih => rw [range_succ, foldl_append, ih, foldl_cons, foldl_nil, scheduleStep_eq m (by omega)]; rfl
  rw [← hloop 48]
  refine congrArg (List.foldl _ · _) (map_congr_left fun t ht => ?_)
  rw [h t (mem_range.mp ht), messageSchedule_lt m (mem_range.mp ht)]

theorem sha256Round_eq (k w : U32) (s : Sha256State) : sha256Round s (k, w) = Fips180.round k w s := by
  unfold sha256Round Fips180.round Fips180.bigSigma0 Fips180.bigSigma1 Fips180.ch Fips180.maj
  simp (disch := decide) only [rotr_eq]

/-- **A block** gives the next hash value. -/
theorem sha256ProcessBlock_eq (h : ∀ t < 16, blockWord block t = m t) (s : Sha256State) :
    sha256ProcessBlock s block = nextHash s m := by
  have hzip : sha256K.zip (schedule block) = (List.range 64).map fun t => (roundConstant t, messageSchedule m t) := by
    have hK : sha256K = (List.range 64).map roundConstant := by
      refine ext_getElem (by decide) fun t ht _ => ?_
      have ht' : t < 64 := ht
      rw [getElem_map, getElem_range, ← sha256K_eq ht', getD_eq_getElem?_getD, getElem?_eq_getElem ht]
      rfl
    rw [schedule_eq h, hK, scheduleUpTo, zip_map']
  unfold sha256ProcessBlock nextHash
  rw [hzip, foldl_map]
  simp only [sha256Round_eq]
  generalize (List.range 64).foldl (fun v t => Fips180.round (roundConstant t) (messageSchedule m t) v) s = v
  simp only [BitVec.add_comm]

/-! ## Bytes -/

theorem messageSchedule_congr {m' : Nat → U32} (h : ∀ t < 16, m t = m' t) (t : Nat) :
    messageSchedule m t = messageSchedule m' t := by
  induction t using Nat.strong_induction_on with
  | _ t ih =>
    rcases lt_or_ge t 16 with ht | ht
    · rw [messageSchedule_lt m ht, messageSchedule_lt m' ht, h t ht]
    · rw [messageSchedule_ge m ht, messageSchedule_ge m' ht, ih _ (by omega), ih _ (by omega), ih _ (by omega),
        ih _ (by omega)]

theorem hashBlocks_succ (data : List U8) (n : Nat) :
    hashBlocks data (n + 1) = nextHash (hashBlocks data n) (blockWords data n) := by
  rw [hashBlocks, hashBlocks, range_succ, foldl_append, foldl_cons, foldl_nil]

theorem hashBlocks_append {data : List U8} (xs : List U8) (h : 64 * n ≤ data.length) :
    hashBlocks (data ++ xs) n = hashBlocks data n := by
  induction n with
  | zero => rw [hashBlocks, hashBlocks, range_zero, foldl_nil, foldl_nil]
  | succ n ih =>
    rw [hashBlocks_succ, hashBlocks_succ, ih (by omega)]
    have hwords : ∀ t < 16, blockWords (data ++ xs) n t = blockWords data n t := by
      intro t ht
      unfold blockWords bytesAt
      rw [drop_append_of_le_length (by omega), take_append_of_le_length (by rw [length_drop]; omega)]
    rw [nextHash, nextHash, funext (messageSchedule_congr hwords)]

/-- What a context holds after some bytes. -/
noncomputable def afterBytes (data : List U8) : Sha256Ctx where
  state := hashBlocks data (data.length / 64)
  bitCount := BitVec.ofNat 64 (8 * data.length)
  buffer := data.drop (64 * (data.length / 64))

theorem sha256Push_afterBytes (data : List U8) (b : U8) : sha256Push (afterBytes data) b = afterBytes (data ++ [b]) := by
  have hbuffer : (afterBytes data).buffer ++ [b] = (data ++ [b]).drop (64 * (data.length / 64)) := by
    rw [drop_append_of_le_length (by omega)]
    rfl
  have hlen : ((data ++ [b]).drop (64 * (data.length / 64))).length = data.length % 64 + 1 := by
    rw [length_drop, length_append, length_singleton]
    omega
  have hcount : (afterBytes data).bitCount + 8 = BitVec.ofNat 64 (8 * (data ++ [b]).length) := by
    rw [length_append, length_singleton, Nat.mul_succ, BitVec.ofNat_add]
    rfl
  unfold sha256Push
  dsimp only
  rw [hbuffer, hlen, hcount]
  rcases eq_or_ne (data.length % 64 + 1) 64 with hfull | hroom
  · have hdiv : (data ++ [b]).length / 64 = data.length / 64 + 1 := by
      rw [length_append, length_singleton]
      omega
    have hwords : ∀ t < 16, blockWord ((data ++ [b]).drop (64 * (data.length / 64))) t =
        blockWords (data ++ [b]) (data.length / 64) t := by
      intro t ht
      rw [blockWord_eq (by omega), blockWords, bytesAt, bytesAt, drop_drop]
    rw [if_pos hfull, sha256ProcessBlock_eq hwords]
    show (⟨nextHash (hashBlocks data (data.length / 64)) (blockWords (data ++ [b]) (data.length / 64)), _, []⟩ : Sha256Ctx) =
      ⟨hashBlocks (data ++ [b]) _, _, (data ++ [b]).drop _⟩
    rw [hdiv, hashBlocks_succ, hashBlocks_append [b] (by omega),
      drop_of_length_le (by rw [length_append, length_singleton]; omega)]
  · have hdiv : (data ++ [b]).length / 64 = data.length / 64 := by
      rw [length_append, length_singleton]
      omega
    rw [if_neg hroom]
    unfold afterBytes
    rw [hdiv, hashBlocks_append [b] (by omega)]

/-- **After any bytes**: the hash of the full blocks, the bit count, and the rest in the buffer. -/
theorem sha256Update_init (data : List U8) : sha256Update sha256Init data = afterBytes data := by
  induction data using reverseRecOn with
  | nil =>
    show sha256Init = afterBytes []
    unfold afterBytes hashBlocks
    rw [length_nil, Nat.zero_div, range_zero, foldl_nil, ← sha256Init_eq]
    rfl
  | append_singleton data b ih =>
    rw [← sha256Update_append, ih]
    exact sha256Push_afterBytes data b

/-! ## The padding -/

theorem sha256PadZeros_eq {fuel : Nat} {ctx : Sha256Ctx} (hlt : ctx.buffer.length < 64)
    (hfuel : (56 + 64 - ctx.buffer.length) % 64 < fuel) :
    sha256PadZeros fuel ctx = sha256Update ctx (List.replicate ((56 + 64 - ctx.buffer.length) % 64) 0) := by
  induction fuel generalizing ctx with
  | zero => exact absurd hfuel (not_lt_zero _)
  | succ fuel ih =>
    rw [sha256PadZeros]
    split
    · rename_i h56
      rw [h56]
      rfl
    · rename_i h56
      have hlen : (sha256Update ctx [0]).buffer.length = (ctx.buffer.length + 1) % 64 := sha256Push_length hlt 0
      have hzeros : (56 + 64 - ctx.buffer.length) % 64 = (56 + 64 - (ctx.buffer.length + 1) % 64) % 64 + 1 := by omega
      rw [ih (by omega) (by omega), hlen, hzeros, sha256Update_append, replicate_succ]
      rfl

theorem wordBytes_eq (w : U32) : wordBytes w = beBytes 4 w.toNat := by
  have hbyte : ∀ k, (w >>> k).setWidth 8 = BitVec.ofNat 8 (w.toNat / 2 ^ k) := fun k => by
    refine BitVec.eq_of_toNat_eq ?_
    rw [BitVec.toNat_setWidth, BitVec.toNat_ushiftRight, shiftRight_eq_div_pow, BitVec.toNat_ofNat]
  have hlow : w.setWidth 8 = BitVec.ofNat 8 (w.toNat / 2 ^ 0) := by
    rw [Nat.pow_zero, Nat.div_one, BitVec.ofNat_toNat]
  unfold wordBytes
  rw [hbyte, hbyte, hbyte, hlow]
  rfl

theorem lengthBytes_eq (n : Nat) :
    (List.range 8).map (fun i => (BitVec.ofNat 64 n >>> (56 - i * 8)).setWidth 8) = beBytes 8 n := by
  rw [← beBytes_mod 8 n]
  refine map_congr_left fun i hi => BitVec.eq_of_toNat_eq ?_
  rw [BitVec.toNat_setWidth, BitVec.toNat_ushiftRight, BitVec.toNat_ofNat, shiftRight_eq_div_pow, BitVec.toNat_ofNat]
  have hshift : 56 - i * 8 = 8 * (8 - 1 - i) := by omega
  rw [hshift]

/-- **The digest** is that of the standard. -/
theorem sha256Final_eq (message : List U8) : sha256Final (sha256Update sha256Init message) = Fips180.sha256 message := by
  have hmarker : (sha256Update (sha256Update sha256Init message) [0x80]).buffer.length = (message.length + 1) % 64 := by
    rw [sha256Update_append, sha256Update_init]
    show (drop _ _).length = _
    rw [length_drop, length_append, length_singleton]
    omega
  have hcount : (sha256Update sha256Init message).bitCount = BitVec.ofNat 64 (8 * message.length) := by
    rw [sha256Update_init]
    rfl
  have hzeros : (56 + 64 - (message.length + 1) % 64) % 64 = padZeros message.length := by
    unfold padZeros
    omega
  unfold sha256Final
  dsimp only
  rw [hcount, lengthBytes_eq, sha256PadZeros_eq (by omega) (by omega), hmarker, hzeros, sha256Update_append,
    sha256Update_append, sha256Update_append, ← append_assoc, ← append_assoc]
  rw [show message ++ [0x80] ++ List.replicate (padZeros message.length) 0 ++ beBytes 8 (8 * message.length) = pad message
    from rfl, sha256Update_init]
  exact flatMap_congr fun w _ => wordBytes_eq w

/-- The chunks of a message, one after the other. -/
theorem foldl_sha256Update (ctx : Sha256Ctx) (chunks : List (List U8)) :
    chunks.foldl sha256Update ctx = sha256Update ctx chunks.flatten := by
  induction chunks generalizing ctx with
  | nil => rfl
  | cons chunk chunks ih => rw [foldl_cons, ih, flatten_cons, sha256Update_append]

/-- **HMAC** is that of the RFC. -/
theorem hmacSha256_eq (key data : List U8) : hmacSha256 key data = Fips180.hmac key data := by
  have hkey : (if 64 < key.length then sha256 key else key) = if key.length > 64 then Fips180.sha256 key else key := by
    rw [sha256, sha256Final_eq]
  unfold hmacSha256 Fips180.hmac Fips180.hmacKey
  dsimp only
  rw [hkey, sha256Update_append, sha256Update_append, sha256Final_eq, sha256Final_eq]

/-- **SHA-256 and HMAC-SHA256 are those of the standards**: for every message, cut in any way, and for every key. -/
theorem sha256_conforms (chunks : List (List U8)) (key data : List U8) :
    sha256Final (chunks.foldl sha256Update sha256Init) = Fips180.sha256 chunks.flatten ∧
      hmacSha256 key data = Fips180.hmac key data := by
  refine ⟨?_, hmacSha256_eq key data⟩
  rw [foldl_sha256Update, sha256Final_eq]

end MinicOs
