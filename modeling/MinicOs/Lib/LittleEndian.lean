import Mathlib.Algebra.Group.Nat.Defs
import Mathlib.Data.List.GetD

/-!
# Little-endian words

A 32-bit word as its four bytes, lowest first.
-/

namespace MinicOs

/-- The little-endian `u32` in the first four bytes. -/
def readU32 (bs : List (BitVec 8)) : Nat :=
  (bs.getD 0 0).toNat + 256 * ((bs.getD 1 0).toNat + 256 * ((bs.getD 2 0).toNat + 256 * (bs.getD 3 0).toNat))

/-- The four little-endian bytes of a `u32`. -/
def writeU32 (n : Nat) : List (BitVec 8) :=
  [BitVec.ofNat 8 n, BitVec.ofNat 8 (n / 256), BitVec.ofNat 8 (n / 65536), BitVec.ofNat 8 (n / 16777216)]

theorem readU32_lt (bs : List (BitVec 8)) : readU32 bs < 2 ^ 32 := by
  unfold readU32
  omega

@[simp] theorem length_writeU32 (n : Nat) : (writeU32 n).length = 4 := rfl

theorem readU32_writeU32_append (n : Nat) (rest : List (BitVec 8)) : readU32 (writeU32 n ++ rest) = n % 2 ^ 32 := by
  unfold readU32 writeU32
  simp only [List.cons_append, List.getD_cons_zero, List.getD_cons_succ, BitVec.toNat_ofNat]
  omega

end MinicOs
