import Mathlib.Data.Nat.Bitwise
import Mathlib.Tactic.IntervalCases

/-!
# Page-table words

The 64-bit words of `kernel/mm/paging/paging.c`: an entry holds a frame address (bits 12 to 62),
twelve low flag bits (`present` 0, `writable` 1, `user` 2) and `PAGE_NX` (bit 63). A pointer to a
4 KB frame is its physical address, `frameAddr f`; `frameNum` takes the frame back, so a table
pointer indexes the frame-by-frame memory of `Paging.lean`.

Two masks strip an entry: `entry & ~0xFFF` (`tablePtr`), which keeps `PAGE_NX`, and
`entry & ~(0xFFF | PAGE_NX)` (`leafPaddr`), which does not. On an entry without `PAGE_NX` they
agree; on one with it the first is not the frame's address any more, and it is what
`free_address_space` hands to the COW table.
-/

namespace MinicOs

open BitVec Nat

abbrev U64 := BitVec 64

abbrev U8 := BitVec 8

/-- `PAGE_NX`: bit 63. -/
def pageNx : U64 := 0x8000000000000000#64

variable (e : U64)

/-- `entry & 1`. -/
def present : Bool := e &&& 1#64 != 0#64

/-- The user bit, `entry & 4`. -/
def userBit : Bool := e &&& 4#64 != 0#64

/-- The writable bit, `entry & 2`. -/
def writableBit : Bool := e &&& 2#64 != 0#64

/-- `entry & ~0xFFF`: the next table's address. -/
def tablePtr : U64 := e &&& ~~~0xFFF#64

/-- `entry & ~(0xFFF | PAGE_NX)`: the address of the frame a leaf maps. -/
def leafPaddr : U64 := e &&& ~~~(0xFFF#64 ||| pageNx)

/-- `entry & (0xFFF | PAGE_NX)`: the flag bits of a leaf. -/
def leafFlags : U64 := e &&& (0xFFF#64 ||| pageNx)

/-- The leaf `map_page_in` writes: `(paddr & ~0xFFF) | (flags & (0xFFF | PAGE_NX)) | 0x01`. -/
def mkLeaf (paddr flags : U64) : U64 :=
  (paddr &&& ~~~0xFFF#64) ||| (flags &&& (0xFFF#64 ||| pageNx)) ||| 0x01#64

/-- The entry `table_get_or_create` writes: `new_table | 0x07`. -/
def mkTable (ptr : U64) : U64 := ptr ||| 0x07#64

/-- The physical address of frame `f`. -/
def frameAddr (f : Nat) : U64 := BitVec.ofNat 64 (f * 4096)

/-- The frame a physical address lies in. -/
def frameNum (a : U64) : Nat := a.toNat / 4096

/-! ## Bits -/

theorem getLsbD_lowMask {k : Nat} (hk : k ≤ 64) (i : Nat) : (BitVec.ofNat 64 (2 ^ k - 1)).getLsbD i = decide (i < k) := by
  rw [getLsbD_ofNat, testBit_two_pow_sub_one]
  grind

theorem getLsbD_low12 (i : Nat) : (0xFFF#64).getLsbD i = decide (i < 12) := @getLsbD_lowMask 12 (by decide) i

theorem getLsbD_bit {w : Nat} (k : Nat) (hk : k < w) (i : Nat) : (BitVec.ofNat w (2 ^ k)).getLsbD i = decide (i = k) := by
  rw [getLsbD_ofNat, testBit_two_pow]
  grind

theorem getLsbD_pageNx (i : Nat) : pageNx.getLsbD i = decide (i = 63) := getLsbD_bit 63 (by decide) i

theorem and_bit_ne_zero {w : Nat} (e : BitVec w) (k : Nat) (hk : k < w) :
    (e &&& BitVec.ofNat w (2 ^ k) != 0#w) = e.getLsbD k := by
  have htwo : BitVec.ofNat w (2 ^ k) = BitVec.twoPow w k := eq_of_toNat_eq (by
    rw [toNat_ofNat, toNat_twoPow])
  have hne : BitVec.twoPow w k ≠ 0#w := fun h => by simpa [hk] using congrArg (BitVec.getLsbD · k) h
  rw [htwo, and_twoPow]
  cases e.getLsbD k <;> simp [hne]

theorem present_eq : present e = e.getLsbD 0 := and_bit_ne_zero e 0 (by decide)

theorem userBit_eq : userBit e = e.getLsbD 2 := and_bit_ne_zero e 2 (by decide)

theorem writableBit_eq : writableBit e = e.getLsbD 1 := and_bit_ne_zero e 1 (by decide)

theorem getLsbD_tablePtr (i : Nat) : (tablePtr e).getLsbD i = (e.getLsbD i && decide (12 ≤ i)) := by
  unfold tablePtr
  rw [getLsbD_and, getLsbD_not, getLsbD_low12]
  grind

theorem getLsbD_leafPaddr (i : Nat) : (leafPaddr e).getLsbD i = (e.getLsbD i && decide (12 ≤ i) && decide (i ≠ 63)) := by
  unfold leafPaddr
  rw [getLsbD_and, getLsbD_not, getLsbD_or, getLsbD_low12, getLsbD_pageNx]
  grind

theorem getLsbD_leafFlags (i : Nat) : (leafFlags e).getLsbD i = (e.getLsbD i && (decide (i < 12) || decide (i = 63))) := by
  unfold leafFlags
  rw [getLsbD_and, getLsbD_or, getLsbD_low12, getLsbD_pageNx]

theorem getLsbD_mkLeaf (a fl : U64) (i : Nat) : (mkLeaf a fl).getLsbD i = ((a.getLsbD i && decide (12 ≤ i)) ||
      (fl.getLsbD i && (decide (i < 12) || decide (i = 63))) || decide (i = 0)) := by
  have h1 : (0x01#64).getLsbD i = decide (i = 0) := getLsbD_bit 0 (by decide) i
  have h2 := getLsbD_tablePtr a i
  have h3 := getLsbD_leafFlags fl i
  unfold tablePtr at h2
  unfold leafFlags at h3
  unfold mkLeaf
  rw [getLsbD_or, getLsbD_or, h1, h2, h3]

theorem getLsbD_mkTable (a : U64) (i : Nat) : (mkTable a).getLsbD i = (a.getLsbD i || decide (i < 3)) := by
  exact (getLsbD_or ..).trans (congrArg _ (@getLsbD_lowMask 3 (by decide) i))

theorem getLsbD_frameAddr (f i : Nat) :
    (frameAddr f).getLsbD i = (decide (i < 64) && decide (12 ≤ i) && f.testBit (i - 12)) := by
  unfold frameAddr
  rw [getLsbD_ofNat, show (4096 : Nat) = 2 ^ 12 by rfl, testBit_mul_two_pow]
  cases decide (i < 64) <;> cases decide (12 ≤ i) <;> rfl

/-! ## Frame numbers -/

/-- Addresses that agree from bit 12 up lie in one frame. -/
theorem frameNum_congr {a b : U64} (h : ∀ i, 12 ≤ i → a.getLsbD i = b.getLsbD i) : frameNum a = frameNum b := by
  unfold frameNum
  apply eq_of_testBit_eq
  intro i
  rw [show (4096 : Nat) = 2 ^ 12 by rfl, testBit_div_two_pow, testBit_div_two_pow]
  exact h (i + 12) (by omega)

variable {f : Nat}

@[simp] theorem frameNum_frameAddr (hf : f < 2 ^ 52) : frameNum (frameAddr f) = f := by
  unfold frameNum frameAddr
  rw [toNat_ofNat, mod_eq_of_lt (by omega)]
  omega

theorem frameAddr_eq_zero (hf : f < 2 ^ 52) : frameAddr f = 0#64 ↔ f = 0 := by
  constructor
  · intro h
    rw [← frameNum_frameAddr hf, h]
    decide
  · rintro rfl
    decide

theorem frameAddr_frameNum {a : U64} (h : ∀ i, i < 12 → a.getLsbD i = false) : frameAddr (frameNum a) = a := by
  refine eq_of_getLsbD_eq fun i hi => ?_
  unfold frameNum
  rw [getLsbD_frameAddr, show (4096 : Nat) = 2 ^ 12 by rfl, testBit_div_two_pow]
  by_cases h12 : 12 ≤ i
  · simp [hi, h12, BitVec.getLsbD, Nat.sub_add_cancel h12]
  · simp [h12, h i (by omega)]

theorem tablePtr_eq : tablePtr e = frameAddr (frameNum (tablePtr e)) :=
  (frameAddr_frameNum fun i hi => by rw [getLsbD_tablePtr]; simp [show ¬ 12 ≤ i by omega]).symm

/-! ## Leaves -/

/-- The frame a leaf maps. -/
def leafFrame : Nat := frameNum (leafPaddr e)

theorem leafFrame_mkLeaf (hf : f < 2 ^ 51) (fl : U64) : leafFrame (mkLeaf (frameAddr f) fl) = f := by
  conv_rhs => rw [← frameNum_frameAddr (f := f) (by omega)]
  refine frameNum_congr fun i hi => ?_
  rw [getLsbD_leafPaddr, getLsbD_mkLeaf]
  by_cases h63 : i = 63
  · subst h63
    rw [getLsbD_frameAddr, testBit_eq_false_of_lt (by omega)]
    simp
  · grind

@[simp] theorem present_mkLeaf (a fl : U64) : present (mkLeaf a fl) = true := by
  rw [present_eq, getLsbD_mkLeaf]
  simp

theorem userBit_mkLeaf (a fl : U64) : userBit (mkLeaf a fl) = userBit fl := by
  rw [userBit_eq, userBit_eq, getLsbD_mkLeaf]
  simp

theorem writableBit_mkLeaf (a fl : U64) : writableBit (mkLeaf a fl) = writableBit fl := by
  rw [writableBit_eq, writableBit_eq, getLsbD_mkLeaf]
  simp

/-- `flags & ~0x02`: what the fork walk keeps of a leaf's flags. -/
def cowFlags : U64 := leafFlags e &&& ~~~0x02#64

theorem cowFlags_bits : writableBit (cowFlags e) = false ∧ userBit (cowFlags e) = userBit e := by
  rw [writableBit_eq, userBit_eq, userBit_eq, cowFlags, getLsbD_and, getLsbD_and, getLsbD_leafFlags, getLsbD_leafFlags]
  simp

theorem leafPaddr_eq : leafPaddr e = frameAddr (leafFrame e) :=
  (frameAddr_frameNum fun i hi => by simp [getLsbD_leafPaddr, show ¬ 12 ≤ i by omega]).symm

/-! ## Table entries -/

@[simp] theorem present_mkTable (a : U64) : present (mkTable a) = true := by
  rw [present_eq, getLsbD_mkTable]
  simp

@[simp] theorem frameNum_tablePtr_mkTable (hf : f < 2 ^ 52) : frameNum (tablePtr (mkTable (frameAddr f))) = f := by
  conv_rhs => rw [← frameNum_frameAddr hf]
  refine frameNum_congr fun i hi => ?_
  rw [getLsbD_tablePtr, getLsbD_mkTable]
  grind

theorem tablePtr_mkTable (f : Nat) : tablePtr (mkTable (frameAddr f)) = frameAddr f := by
  refine eq_of_getLsbD_eq fun i _ => ?_
  rw [getLsbD_tablePtr, getLsbD_mkTable, getLsbD_frameAddr]
  grind

@[simp] theorem present_zero : present 0#64 = false := by decide

/-! ## Bytes of a word -/

/-- Byte `k` of a word, little-endian. -/
def getByte (w : U64) (k : Nat) : U8 := w.extractLsb' (8 * k) 8

/-- The word with byte `k` replaced. -/
def setByte (w : U64) (k : Nat) (b : U8) : U64 :=
  (w &&& ~~~(0xFF#64 <<< (8 * k))) ||| (b.setWidth 64 <<< (8 * k))

theorem getLsbD_setByte (w : U64) (k : Nat) (b : U8) (i : Nat) (hi : i < 64) : (setByte w k b).getLsbD i =
      if 8 * k ≤ i ∧ i < 8 * k + 8 then b.getLsbD (i - 8 * k) else w.getLsbD i := by
  unfold setByte
  rw [getLsbD_or, getLsbD_and, getLsbD_not, getLsbD_shiftLeft, getLsbD_shiftLeft,
    show (0xFF#64).getLsbD (i - 8 * k) = _ from @getLsbD_lowMask 8 (by decide) _, getLsbD_setWidth]
  grind

@[simp] theorem getByte_setByte_self (w : U64) (k : Nat) (hk : k < 8) (b : U8) : getByte (setByte w k b) k = b := by
  apply eq_of_getLsbD_eq
  intro i hi
  unfold getByte
  rw [getLsbD_extractLsb', getLsbD_setByte w k b (8 * k + i) (by omega)]
  simp [hi]

theorem getByte_setByte_ne (w : U64) {j k : Nat} (hj : j < 8) (b : U8) (h : j ≠ k) :
    getByte (setByte w k b) j = getByte w j := by
  apply eq_of_getLsbD_eq
  intro i hi
  unfold getByte
  rw [getLsbD_extractLsb', getLsbD_extractLsb', getLsbD_setByte w k b (8 * j + i) (by omega), if_neg (by omega)]

end MinicOs
