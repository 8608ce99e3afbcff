import MinicOs.Lib.Canonical

/-!
# The DEFLATE format

What a compressed stream is, after RFC 1951: blocks of literals and back-references (`Block`), the bits
they are written as (`streamBits`) and the bytes they stand for (`expandBlocks`). Nothing here is taken
from the decompressor.

Section numbers are those of the RFC. Codes are written with their highest bit first, all other numbers
with their lowest bit first (3.1.1).
-/

namespace MinicOs.Rfc1951

open Nat

abbrev Byte := BitVec 8

/-! ## Literals and back-references (3.2.5) -/

/-- The first length of length code `257 + i`. -/
def lengthStart (i : Nat) : Nat :=
  if i < 8 then i + 3 else if i < 28 then 3 + (4 + i % 4) * 2 ^ ((i - 4) / 4) else 258

/-- The extra bits of length code `257 + i`. -/
def lengthBits (i : Nat) : Nat := if i < 8 then 0 else if i < 28 then (i - 4) / 4 else 0

/-- The first distance of distance code `i`. -/
def distStart (i : Nat) : Nat := if i < 4 then i + 1 else 1 + (2 + i % 2) * 2 ^ ((i - 2) / 2)

/-- The extra bits of distance code `i`. -/
def distBits (i : Nat) : Nat := if i < 4 then 0 else (i - 2) / 2

/-- The last of the codes `0` to `n` that does not start after `v`. -/
def pick (start : Nat → Nat) (v : Nat) : Nat → Nat
  | 0 => 0
  | n + 1 => if start (n + 1) ≤ v then n + 1 else pick start v n

/-- The code of a length, counted from `257`. -/
def lengthCode (length : Nat) : Nat := pick lengthStart length 28

def distCode (distance : Nat) : Nat := pick distStart distance 29

/-- An element of a block. -/
inductive Item
  | literal (b : Byte)
  | copy (length distance : Nat)

/-- The bytes that start `distance` back, again and again if there are fewer than `length` (3.2.3). -/
def copyBack (out : List Byte) (length distance : Nat) : List Byte :=
  (List.range length).map fun i => out.getD (out.length - distance + i % distance) 0

/-- What an element adds to the output. -/
def Item.expand (out : List Byte) : Item → List Byte
  | .literal b => out ++ [b]
  | .copy length distance => out ++ copyBack out length distance

/-- The bits of an element, under the code lengths of literals and lengths and of distances. -/
def Item.bits (lit dist : List Nat) : Item → List Bool
  | .literal b => codeword lit b.toNat
  | .copy length distance =>
    let i := lengthCode length
    let j := distCode distance
    codeword lit (257 + i) ++ lsbBits (lengthBits i) (length - lengthStart i) ++
      codeword dist j ++ lsbBits (distBits j) (distance - distStart j)

/-- An element can be written: its codes exist, and a back-reference is to the output. -/
def Item.Valid (lit dist : List Nat) (out : List Byte) : Item → Prop
  | .literal b => lit.getD b.toNat 0 ≠ 0
  | .copy length distance =>
    (3 ≤ length ∧ length ≤ 258) ∧ (1 ≤ distance ∧ distance ≤ 32768) ∧ distance ≤ out.length ∧
      lit.getD (257 + lengthCode length) 0 ≠ 0 ∧ dist.getD (distCode distance) 0 ≠ 0

/-- What the elements of a block add to the output. -/
def expandItems (out : List Byte) (items : List Item) : List Byte := items.foldl Item.expand out

/-- The elements of a block can be written one after the other. -/
def ItemsValid (lit dist : List Nat) : List Byte → List Item → Prop
  | _, [] => True
  | out, item :: items => item.Valid lit dist out ∧ ItemsValid lit dist (item.expand out) items

/-- The elements of a block and the end-of-block code. -/
def itemsBits (lit dist : List Nat) (items : List Item) : List Bool :=
  items.flatMap (Item.bits lit dist) ++ codeword lit 256

/-- Code lengths for the elements of a block. -/
structure CodesValid (lit dist : List Nat) : Prop where
  lit_le : ∀ l ∈ lit, l ≤ 15
  dist_le : ∀ l ∈ dist, l ≤ 15
  lit_kraft : Kraft 15 lit
  dist_kraft : Kraft 15 dist
  ends : lit.getD 256 0 ≠ 0

/-! ## Fixed codes (3.2.6) -/

/-- The code lengths of literals and lengths. -/
def fixedLit : List Nat :=
  (List.range 288).map fun s => if s ≤ 143 then 8 else if s ≤ 255 then 9 else if s ≤ 279 then 7 else 8

/-- The code lengths of distances. -/
def fixedDist : List Nat := List.replicate 32 5

/-! ## Dynamic codes (3.2.7) -/

/-- The order in which the lengths of the code-length code are written. -/
def order : List Nat := [16, 17, 18, 0, 8, 7, 9, 6, 10, 5, 11, 4, 12, 3, 13, 2, 14, 1, 15]

/-- An element of the written code lengths. -/
inductive Run
  | length (l : Nat)
  | again (n : Nat)
  | zeros (n : Nat)
  | manyZeros (n : Nat)

/-- The symbol of the code-length code. -/
def Run.symbol : Run → Nat
  | .length l => l
  | .again _ => 16
  | .zeros _ => 17
  | .manyZeros _ => 18

/-- The extra bits after the symbol. -/
def Run.extra : Run → List Bool
  | .length _ => []
  | .again n => lsbBits 2 (n - 3)
  | .zeros n => lsbBits 3 (n - 3)
  | .manyZeros n => lsbBits 7 (n - 11)

/-- What an element adds to the lengths. -/
def Run.expand (xs : List Nat) : Run → List Nat
  | .length l => xs ++ [l]
  | .again n => xs ++ List.replicate n (xs.getLastD 0)
  | .zeros n => xs ++ List.replicate n 0
  | .manyZeros n => xs ++ List.replicate n 0

/-- An element can be written after the lengths `xs`. -/
def Run.Valid (xs : List Nat) : Run → Prop
  | .length l => l ≤ 15
  | .again n => xs ≠ [] ∧ 3 ≤ n ∧ n ≤ 6
  | .zeros n => 3 ≤ n ∧ n ≤ 10
  | .manyZeros n => 11 ≤ n ∧ n ≤ 138

/-- The elements can be written one after the other, under the lengths `cl` of the code-length code. -/
def RunsValid (cl : List Nat) : List Nat → List Run → Prop
  | _, [] => True
  | xs, run :: runs => (run.Valid xs ∧ cl.getD run.symbol 0 ≠ 0) ∧ RunsValid cl (run.expand xs) runs

/-- The head of a block with dynamic codes. -/
structure Header where
  lit : List Nat
  dist : List Nat
  cl : List Nat
  clCount : Nat
  runs : List Run

def Header.bits (h : Header) : List Bool :=
  lsbBits 5 (h.lit.length - 257) ++ lsbBits 5 (h.dist.length - 1) ++ lsbBits 4 (h.clCount - 4) ++
    (order.take h.clCount).flatMap (fun s => lsbBits 3 (h.cl.getD s 0)) ++
    h.runs.flatMap fun run => codeword h.cl run.symbol ++ run.extra

/-- The head describes the codes of its block. -/
structure Header.Valid (h : Header) : Prop where
  lit_length : 257 ≤ h.lit.length ∧ h.lit.length ≤ 286
  dist_length : 1 ≤ h.dist.length ∧ h.dist.length ≤ 32
  cl_length : h.cl.length = 19
  cl_le : ∀ l ∈ h.cl, l ≤ 7
  cl_kraft : Kraft 7 h.cl
  clCount_le : 4 ≤ h.clCount ∧ h.clCount ≤ 19
  clRest : ∀ s ∈ order.drop h.clCount, h.cl.getD s 0 = 0
  runs_valid : RunsValid h.cl [] h.runs
  runs_eq : h.runs.foldl Run.expand [] = h.lit ++ h.dist
  codes : CodesValid h.lit h.dist

/-! ## Blocks (3.2.3, 3.2.4) -/

/-- A block; a stored one has bits that fill up the byte its header ends in. -/
inductive Block
  | stored (pad : List Bool) (bytes : List Byte)
  | fixed (items : List Item)
  | dynamic (header : Header) (items : List Item)

def Block.bits (final : Bool) : Block → List Bool
  | .stored pad bytes =>
    final :: lsbBits 2 0 ++ pad ++ lsbBits 16 bytes.length ++ lsbBits 16 (2 ^ 16 - 1 - bytes.length) ++
      bitsOf bytes
  | .fixed items => final :: lsbBits 2 1 ++ itemsBits fixedLit fixedDist items
  | .dynamic header items => final :: lsbBits 2 2 ++ header.bits ++ itemsBits header.lit header.dist items

def Block.expand (out : List Byte) : Block → List Byte
  | .stored _ bytes => out ++ bytes
  | .fixed items => expandItems out items
  | .dynamic _ items => expandItems out items

/-- A block can be written `offset` bits after the start of the stream. -/
def Block.Valid (offset : Nat) (out : List Byte) : Block → Prop
  | .stored pad bytes => pad.length < 8 ∧ (offset + 3 + pad.length) % 8 = 0 ∧ bytes.length < 2 ^ 16
  | .fixed items => ItemsValid fixedLit fixedDist out items
  | .dynamic header items => header.Valid ∧ ItemsValid header.lit header.dist out items

/-- The bits of a stream: the last block is marked as final. -/
def streamBits : List Block → List Bool
  | [] => []
  | [b] => b.bits true
  | b :: bs => b.bits false ++ streamBits bs

/-- The bytes of a stream. -/
def expandBlocks (out : List Byte) (blocks : List Block) : List Byte := blocks.foldl Block.expand out

/-- The blocks can be written one after the other. -/
def BlocksValid : Nat → List Byte → List Block → Prop
  | _, _, [] => True
  | offset, out, b :: bs => b.Valid offset out ∧ BlocksValid (offset + (b.bits false).length) (b.expand out) bs

structure Stream where
  blocks : List Block
  ne_nil : blocks ≠ []
  valid : BlocksValid 0 [] blocks

def Stream.bits (s : Stream) : List Bool := streamBits s.blocks

def Stream.expand (s : Stream) : List Byte := expandBlocks [] s.blocks

/-- The stream is written to the bytes `src`: its bits, and others that fill up the last byte. -/
def Stream.WrittenTo (s : Stream) (src : List Byte) : Prop :=
  ∃ pad : List Bool, pad.length < 8 ∧ bitsOf src = s.bits ++ pad

/-! ## The code of a length or a distance -/

section Pick

variable {start extra : Nat → Nat} {n v : Nat}

theorem pick_le (start : Nat → Nat) (v n : Nat) : pick start v n ≤ n := by
  induction n with
  | zero => exact le_refl 0
  | succ n ih =>
    unfold pick
    split
    · exact le_refl _
    · exact ih.trans (le_succ n)

/-- The value is at the start of its code or after it, and before the next. -/
theorem pick_spec (h0 : start 0 ≤ v) :
    start (pick start v n) ≤ v ∧ (pick start v n < n → v < start (pick start v n + 1)) := by
  induction n with
  | zero => exact ⟨h0, fun h => absurd h (by simp [pick])⟩
  | succ n ih =>
    unfold pick
    split
    · rename_i h
      exact ⟨h, fun h' => absurd h' (by omega)⟩
    · rename_i h
      refine ⟨ih.1, fun _ => ?_⟩
      rcases lt_or_ge (pick start v n) n with hlt | hge
      · exact ih.2 hlt
      · rw [le_antisymm (pick_le start v n) hge]
        exact Nat.lt_of_not_le h

theorem pick_extra (h0 : start 0 ≤ v) (hnext : ∀ i < n, start (i + 1) ≤ start i + 2 ^ extra i)
    (hlast : v < start n + 2 ^ extra n) : v - start (pick start v n) < 2 ^ extra (pick start v n) := by
  obtain ⟨hle, hlt⟩ := @pick_spec start n v h0
  rcases lt_or_ge (pick start v n) n with h | h
  · have := hlt h
    have := hnext _ h
    omega
  · have heq : pick start v n = n := le_antisymm (pick_le start v n) h
    rw [heq] at hle ⊢
    omega

end Pick

theorem lengthCode_spec {length : Nat} (h3 : 3 ≤ length) (h258 : length ≤ 258) :
    lengthCode length < 29 ∧ lengthStart (lengthCode length) ≤ length ∧
      length - lengthStart (lengthCode length) < 2 ^ lengthBits (lengthCode length) := by
  have hnext : ∀ i < 28, lengthStart (i + 1) ≤ lengthStart i + 2 ^ lengthBits i := by decide
  refine ⟨lt_succ_of_le (pick_le _ _ _), (@pick_spec lengthStart 28 length h3).1, ?_⟩
  exact pick_extra h3 hnext (lt_succ_of_le h258)

theorem distCode_spec {distance : Nat} (h1 : 1 ≤ distance) (hmax : distance ≤ 32768) :
    distCode distance < 30 ∧ distStart (distCode distance) ≤ distance ∧
      distance - distStart (distCode distance) < 2 ^ distBits (distCode distance) := by
  have hnext : ∀ i < 29, distStart (i + 1) ≤ distStart i + 2 ^ distBits i := by decide
  refine ⟨lt_succ_of_le (pick_le _ _ _), (@pick_spec distStart 29 distance h1).1, ?_⟩
  exact pick_extra h1 hnext (lt_succ_of_le hmax)

end MinicOs.Rfc1951
