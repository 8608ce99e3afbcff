import MinicOs.Lib.BitString
import MinicOs.Lib.Exec
import MinicOs.Mm.Word

/-!
# The bit reader

Model of `bitreader` of `kernel/inflate/inflate.c`. A reader is a place in the bit string of its
data, `rest` is what lies ahead, and a read past the end sets `error`.
-/

namespace MinicOs

open List Nat

/-- `bitreader`; the place is never past the end of the data. -/
structure BitReader where
  data : List U8
  bytePos : Nat
  bitPos : Nat
  error : Bool
  bitPos_lt : bitPos < 8
  pos_le : 8 * bytePos + bitPos ≤ 8 * data.length

/-- `src[i]`. -/
def srcByte (data : List U8) (i : Nat) : Exec U8 :=
  match data[i]? with
  | some b => .done b
  | none => .undefined

namespace BitReader

/-- The reader one bit further. -/
def advance (br : BitReader) (h : br.bytePos < br.data.length) : BitReader :=
  if h8 : br.bitPos + 1 = 8 then
    { br with
      bytePos := br.bytePos + 1
      bitPos := 0
      bitPos_lt := by omega
      pos_le := by omega }
  else
    { br with
      bitPos := br.bitPos + 1
      bitPos_lt := by have := br.bitPos_lt; omega
      pos_le := by have := br.bitPos_lt; omega }

/-- `br_getbit`. -/
def getBit (br : BitReader) : Exec (Nat × BitReader) :=
  if h : br.bytePos < br.data.length then do
    let byte ← srcByte br.data br.bytePos
    return ((byte.toNat >>> br.bitPos) &&& 1, br.advance h)
  else return (0, { br with error := true })

/-- The loop of `br_getbits`, with `n` bits to go. -/
def getBitsFrom (br : BitReader) (v i : Nat) : Nat → Exec (Nat × BitReader)
  | 0 => return (v, br)
  | n + 1 => do
    let (bit, br) ← br.getBit
    getBitsFrom br (v ||| (bit <<< i)) (i + 1) n

/-- `br_getbits`. -/
def getBits (br : BitReader) (n : Nat) : Exec (Nat × BitReader) := br.getBitsFrom 0 0 n

/-- `br_align`. -/
def align (br : BitReader) : BitReader :=
  if h : br.bitPos ≠ 0 then
    { br with
      bytePos := br.bytePos + 1
      bitPos := 0
      bitPos_lt := by omega
      pos_le := by have := br.pos_le; have := br.bitPos_lt; omega }
  else br

def start (src : List U8) : BitReader where
  data := src
  bytePos := 0
  bitPos := 0
  error := false
  bitPos_lt := by omega
  pos_le := by omega

/-! ## The place in the data -/

/-- The number of bits behind the reader. -/
def pos (br : BitReader) : Nat := 8 * br.bytePos + br.bitPos

/-- The bits ahead of the reader. -/
def rest (br : BitReader) : List Bool := (bitsOf br.data).drop br.pos

/-- `n` bits further in the same data. -/
structure Reads (br : BitReader) (n : Nat) (br' : BitReader) : Prop where
  data : br'.data = br.data
  error : br'.error = br.error
  pos : br'.pos = br.pos + n

/-- Without an error the reader is in `data`, ahead of these bits. -/
structure Ahead (br : BitReader) (data : List U8) (bits : List Bool) : Prop where
  data : br.data = data
  error : br.error = false
  rest : br.rest = bits

variable {br br' br'' : BitReader} {n m : Nat} {data : List U8} {bs r : List Bool}

theorem length_rest (br : BitReader) : br.rest.length = 8 * br.data.length - br.pos := by
  unfold rest
  rw [length_drop, length_bitsOf]

theorem Reads.rest (h : br.Reads n br') : br'.rest = br.rest.drop n := by
  unfold BitReader.rest
  rw [h.data, h.pos, drop_drop]

theorem Reads.ahead (h : br.Reads bs.length br') (ha : br.Ahead data (bs ++ r)) : br'.Ahead data r :=
  ⟨h.data.trans ha.data, h.error.trans ha.error, by rw [h.rest, ha.rest, drop_left]⟩

theorem Ahead.pos_add (h : br.Ahead data bs) : br.pos + bs.length = 8 * data.length := by
  have hlen := br.length_rest
  have hle := br.pos_le
  rw [h.rest, h.data] at hlen
  rw [h.data] at hle
  unfold pos at hlen ⊢
  omega

theorem advance_reads (h : br.bytePos < br.data.length) : br.Reads 1 (br.advance h) := by
  unfold advance
  split
  · rename_i h8
    exact ⟨rfl, rfl, by show 8 * (br.bytePos + 1) + 0 = 8 * br.bytePos + br.bitPos + 1; omega⟩
  · exact ⟨rfl, rfl, rfl⟩

theorem getBit_of_lt (h : br.bytePos < br.data.length) :
    ∃ b : Bool, br.getBit = .done (b.toNat, br.advance h) ∧ br.rest = b :: (br.advance h).rest := by
  have hbyte : br.data[br.bytePos]? = some br.data[br.bytePos] := getElem?_eq_getElem h
  refine ⟨br.data[br.bytePos].getLsbD br.bitPos, ?_, ?_⟩
  · unfold getBit srcByte
    rw [dif_pos h, hbyte]
    show Exec.done (_, _) = _
    rw [and_one_is_mod, shiftRight_eq_div_pow, ← BitVec.testBit_toNat, testBit_eq_decide_div_mod_eq]
    generalize br.data[br.bytePos].toNat / 2 ^ br.bitPos = v
    have := mod_two_eq_zero_or_one v
    rcases this with h | h <;> simp [h]
  · have hrest : (br.advance h).rest = br.rest.drop 1 := (advance_reads h).rest
    rw [hrest]
    unfold rest pos
    rw [bitsOf_drop_cons hbyte br.bitPos_lt]
    rfl

/-! ## Reading what is there -/

theorem Ahead.getBit {b : Bool} (h : br.Ahead data (b :: r)) :
    ∃ br', br.getBit = .done (b.toNat, br') ∧ br'.Ahead data r := by
  have hlt : br.bytePos < br.data.length := by
    have hlen := h.pos_add
    rw [length_cons, ← h.data] at hlen
    unfold pos at hlen
    omega
  obtain ⟨b', hget, hrest⟩ := getBit_of_lt hlt
  obtain ⟨rfl, -⟩ := List.cons.inj (hrest.symm.trans h.rest)
  exact ⟨_, hget, @Reads.ahead _ _ _ [b'] _ (advance_reads hlt) h⟩

theorem or_shiftLeft (bs : List Bool) (b : Bool) : lsbValue bs ||| (b.toNat <<< bs.length) = lsbValue (bs ++ [b]) := by
  rw [lsbValue_concat, Nat.or_comm, ← Nat.shiftLeft_add_eq_or_of_lt (lsbValue_lt bs), Nat.shiftLeft_eq]
  ring

theorem Ahead.getBitsFrom (pre : List Bool) (h : br.Ahead data (bs ++ r)) :
    ∃ br', br.getBitsFrom (lsbValue pre) pre.length bs.length = .done (lsbValue (pre ++ bs), br') ∧ br'.Ahead data r := by
  induction bs generalizing br pre with
  | nil => exact ⟨br, by rw [append_nil]; rfl, h⟩
  | cons b bs ih =>
    obtain ⟨br₁, hbit, h₁⟩ := h.getBit
    obtain ⟨br₂, hbits, h₂⟩ := ih (pre ++ [b]) h₁
    refine ⟨br₂, ?_, h₂⟩
    rw [length_cons, BitReader.getBitsFrom, hbit, Exec.done_bind]
    show br₁.getBitsFrom (lsbValue pre ||| (b.toNat <<< pre.length)) (pre.length + 1) bs.length = _
    rw [or_shiftLeft, show pre.length + 1 = (pre ++ [b]).length by simp, hbits, append_assoc]
    rfl

theorem Ahead.getBits {v : Nat} (h : br.Ahead data (lsbBits n v ++ r)) (hv : v < 2 ^ n) :
    ∃ br', br.getBits n = .done (v, br') ∧ br'.Ahead data r := by
  obtain ⟨br', hget, h'⟩ := h.getBitsFrom []
  rw [length_lsbBits, nil_append, lsbValue_lsbBits hv] at hget
  exact ⟨br', hget, h'⟩

theorem align_reads (br : BitReader) : br.Reads (br.rest.length % 8) br.align := by
  have hlen := br.length_rest
  have hle := br.pos_le
  have hlt := br.bitPos_lt
  unfold align
  unfold pos at hlen
  split
  · refine ⟨rfl, rfl, ?_⟩
    show 8 * (br.bytePos + 1) + 0 = 8 * br.bytePos + br.bitPos + br.rest.length % 8
    omega
  · refine ⟨rfl, rfl, ?_⟩
    show br.pos = br.pos + br.rest.length % 8
    omega

theorem align_bitPos (br : BitReader) : br.align.bitPos = 0 := by
  unfold align
  split
  · rfl
  · rename_i h
    simpa using h

/-! ## Reading anything -/

/-- The reader stays in its data; without an error it has moved on by `n` bits. -/
structure Advances (br : BitReader) (n : Nat) (br' : BitReader) : Prop where
  data : br'.data = br.data
  pos_le : br.pos ≤ br'.pos
  exact : br'.error = false → br.error = false ∧ br'.pos = br.pos + n

theorem Advances.refl (br : BitReader) : br.Advances 0 br := ⟨rfl, le_refl _, fun h => ⟨h, rfl⟩⟩

theorem Advances.trans (h : br.Advances n br') (h' : br'.Advances m br'') : br.Advances (n + m) br'' := by
  refine ⟨h'.data.trans h.data, h.pos_le.trans h'.pos_le, fun herr => ?_⟩
  obtain ⟨h1, h2⟩ := h'.exact herr
  obtain ⟨h3, h4⟩ := h.exact h1
  exact ⟨h3, by omega⟩

theorem Reads.advances (h : br.Reads n br') : br.Advances n br' :=
  ⟨h.data, by rw [h.pos]; omega, fun herr => ⟨h.error ▸ herr, h.pos⟩⟩

theorem getBit_sound (br : BitReader) : br.getBit.Sound fun r => r.1 < 2 ∧ br.Advances 1 r.2 := by
  by_cases h : br.bytePos < br.data.length
  · obtain ⟨b, hget, -⟩ := getBit_of_lt h
    rw [hget]
    exact .done ⟨Bool.toNat_lt b, (advance_reads h).advances⟩
  · rw [getBit, dif_neg h]
    exact .done ⟨zero_lt_two, rfl, le_refl _, fun herr => absurd herr (by simp)⟩

theorem getBitsFrom_sound (br : BitReader) (v i n : Nat) (hv : v < 2 ^ i) :
    (br.getBitsFrom v i n).Sound fun r => r.1 < 2 ^ (i + n) ∧ br.Advances n r.2 := by
  induction n generalizing br v i with
  | zero => exact .done ⟨hv, Advances.refl br⟩
  | succ n ih =>
    refine (getBit_sound br).bind fun r hr => ?_
    obtain ⟨hbit, hadv⟩ := hr
    have hshift : r.1 <<< i < 2 ^ (i + 1) := by
      rw [shiftLeft_eq, pow_succ, mul_comm]
      exact Nat.mul_lt_mul_of_pos_left hbit (Nat.two_pow_pos i)
    have hor : v ||| (r.1 <<< i) < 2 ^ (i + 1) :=
      Nat.or_lt_two_pow (hv.trans (Nat.pow_lt_pow_right (by decide) (by omega))) hshift
    refine (ih r.2 _ (i + 1) hor).mono fun q hq => ⟨?_, ?_⟩
    · rw [show i + (n + 1) = i + 1 + n by omega]
      exact hq.1
    · have := hadv.trans hq.2
      rwa [add_comm] at this

theorem getBits_sound (br : BitReader) (n : Nat) : (br.getBits n).Sound fun r => r.1 < 2 ^ n ∧ br.Advances n r.2 := by
  have h := getBitsFrom_sound br 0 0 n (by decide)
  rwa [zero_add] at h

end BitReader

end MinicOs
