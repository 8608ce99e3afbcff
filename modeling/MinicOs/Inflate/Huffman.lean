import MinicOs.Inflate.Reader
import MinicOs.Lib.Canonical
import MinicOs.Lib.Cells

/-!
# Huffman tables

Model of `huffman_build` and `huffman_decode` of `kernel/inflate/inflate.c`. No `int` overflows: the
numbers are at most fifteen doublings of the number of symbols.
-/

namespace MinicOs

open List Cells Exec Nat

def maxBits : Nat := 15

def maxLitSymbols : Nat := 288

structure HuffmanTable where
  count : Cells Nat
  symbol : Cells Nat

/-- `count[lengths[i]] = count[lengths[i]] + 1`. -/
def countLength (lengths : Cells Nat) (i : Nat) (count : Cells Nat) : Exec (Cells Nat) := do
  let l ← lengths.read i
  let n ← count.read l
  count.write l (n + 1)

/-- `offsets[len + 1] = offsets[len] + count[len]`, for `len` one above `k`. -/
def sumOffset (count : Cells Nat) (k : Nat) (offsets : Cells Nat) : Exec (Cells Nat) := do
  let o ← offsets.read (k + 1)
  let c ← count.read (k + 1)
  offsets.write (k + 2) (o + c)

/-- `symbol[offsets[lengths[i]]] = i`, and the offset moves on. -/
def placeSymbol (lengths : Cells Nat) (i : Nat) (s : Cells Nat × Cells Nat) :
    Exec (Cells Nat × Cells Nat) := do
  let (offsets, symbol) := s
  let l ← lengths.read i
  if l ≠ 0 then do
    let o ← offsets.read l
    let symbol ← symbol.write o i
    let offsets ← offsets.write l (o + 1)
    return (offsets, symbol)
  else return (offsets, symbol)

def huffmanBuild (lengths : Cells Nat) (numSymbols : Nat) : Exec HuffmanTable := do
  let count ← loop (countLength lengths) (List.range numSymbols)
    (ofList (List.replicate (maxBits + 1) 0))
  let count ← count.write 0 0
  let offsets ← (unset (maxBits + 2)).write 1 0
  let offsets ← loop (sumOffset count) (List.range maxBits) offsets
  let placed ← loop (placeSymbol lengths) (List.range numSymbols) (offsets, unset maxLitSymbols)
  return { count := count, symbol := placed.2 }

/-- `a[i]` with an index that is an `int`. -/
def readInt (a : Cells Nat) (i : Int) : Exec Nat := if i < 0 then .undefined else a.read i.toNat

/-- The loop of `huffman_decode` from length `len` on, with `n` lengths to go; `none` is `-1`. -/
def huffmanDecodeFrom (h : HuffmanTable) (br : BitReader) (code first index len : Nat) :
    Nat → Exec (Option Nat × BitReader)
  | 0 => return (none, br)
  | n + 1 => do
    let (bit, br) ← br.getBit
    let code := code ||| bit
    if br.error = true then return (none, br)
    else
      let count ← h.count.read len
      if (code : Int) - first < count then do
        let sym ← readInt h.symbol (index + ((code : Int) - first))
        return (some sym, br)
      else huffmanDecodeFrom h br (code <<< 1) ((first + count) <<< 1) (index + count) (len + 1) n

def huffmanDecode (h : HuffmanTable) (br : BitReader) : Exec (Option Nat × BitReader) :=
  huffmanDecodeFrom h br 0 0 0 1 maxBits

/-! ## What is built -/

/-- The table of the canonical code of `lengths`. -/
structure HuffmanTable.Represents (h : HuffmanTable) (lengths : List Nat) : Prop where
  count : ∀ l, 1 ≤ l → l ≤ maxBits → h.count[l]? = some (some (codesOf lengths l))
  symbol : ∀ s l, lengths[s]? = some l → l ≠ 0 →
    h.symbol[firstIndex lengths l + rank lengths s]? = some (some s)

variable {l : Nat}

section Build

variable {cells : Cells Nat} {lengths : List Nat}

variable {i : Nat}

theorem count_take_succ (h : lengths[i]? = some l) (k : Nat) :
    (lengths.take (i + 1)).count k = (lengths.take i).count k + if k = l then 1 else 0 := by
  rw [take_add_one, h, count_append]
  grind

theorem countLengths_returns (hc : cells.Starts lengths) (hle : ∀ l ∈ lengths, l ≤ maxBits) :
    (loop (countLength cells) (List.range lengths.length) (ofList (List.replicate (maxBits + 1) 0))).Returns fun count =>
        count.length = maxBits + 1 ∧ ∀ l ≤ maxBits, count[l]? = some (some (lengths.count l)) := by
  refine (loop_returns (fun i (count : Cells Nat) => count.length = maxBits + 1 ∧
      ∀ l ≤ maxBits, count[l]? = some (some ((lengths.take i).count l))) ?_ ?_).mono ?_
  · refine ⟨rfl, fun l hl => ?_⟩
    have : l < maxBits + 1 := by omega
    simp [ofList, this]
  · rintro i hi count ⟨hlen, hcount⟩
    have hget : lengths[i]? = some lengths[i] := getElem?_eq_getElem hi
    have hmax : lengths[i] ≤ maxBits := hle _ (getElem_mem hi)
    unfold countLength
    rw [hc.read hget, done_bind, read_eq (hcount _ hmax), done_bind, write_eq _ (by omega)]
    refine .done ⟨by rw [length_set]; exact hlen, fun l hl => ?_⟩
    rw [getElem?_write (by omega), count_take_succ hget]
    by_cases hl' : l = lengths[i]
    · rw [if_pos hl', if_pos hl', hl']
    · rw [if_neg hl', if_neg hl', hcount l hl]
      rfl
  · intro count hcount
    rwa [take_length] at hcount

theorem sumOffsets_returns {count offsets : Cells Nat}
    (hcount : ∀ l, 1 ≤ l → l ≤ maxBits → count[l]? = some (some (codesOf lengths l)))
    (hlen : offsets.length = maxBits + 2) (h1 : offsets[1]? = some (some 0)) :
    (loop (sumOffset count) (List.range maxBits) offsets).Returns fun offsets => offsets.length = maxBits + 2 ∧
        ∀ l, 1 ≤ l → l ≤ maxBits → offsets[l]? = some (some (firstIndex lengths l)) := by
  refine (loop_returns (fun i (offsets : Cells Nat) => offsets.length = maxBits + 2 ∧
      ∀ l, 1 ≤ l → l ≤ i + 1 → offsets[l]? = some (some (firstIndex lengths l))) ?_ ?_).mono ?_
  · refine ⟨hlen, fun l hl1 hl2 => ?_⟩
    rw [show l = 1 by omega, h1]
    rfl
  · rintro i hi offsets ⟨hlen, hoff⟩
    unfold sumOffset
    rw [read_eq (hoff (i + 1) (by omega) (by omega)), done_bind,
      read_eq (hcount (i + 1) (by omega) (by omega)), done_bind, write_eq _ (by omega)]
    refine .done ⟨by rw [length_set]; exact hlen, fun l hl1 hl2 => ?_⟩
    rw [getElem?_write (by omega)]
    by_cases hl : l = i + 2
    · rw [if_pos hl, hl]
      rfl
    · rw [if_neg hl]
      exact hoff l hl1 (by omega)
  · rintro offsets ⟨hlen, hoff⟩
    exact ⟨hlen, fun l hl1 hl2 => hoff l hl1 (by omega)⟩

/-- What is placed when the first `i` symbols are. -/
structure Placed (lengths : List Nat) (i : Nat) (s : Cells Nat × Cells Nat) : Prop where
  offsets_length : s.1.length = maxBits + 2
  symbol_length : s.2.length = maxLitSymbols
  offsets : ∀ l, 1 ≤ l → l ≤ maxBits →
    s.1[l]? = some (some (firstIndex lengths l + (lengths.take i).count l))
  symbol : ∀ j < i, ∀ l, lengths[j]? = some l → l ≠ 0 →
    s.2[firstIndex lengths l + rank lengths j]? = some (some j)

theorem rank_eq (h : lengths[i]? = some l) : rank lengths i = (lengths.take i).count l := by
  unfold rank
  rw [getD_eq_getElem?_getD, h]
  rfl

/-- Of two symbols with one length the earlier has the lower rank. -/
theorem rank_lt_rank {j : Nat} (hij : j < i) (hj : lengths[j]? = some l) (hi : lengths[i]? = some l) :
    rank lengths j < rank lengths i := by
  rw [rank_eq hj, rank_eq hi]
  have hsucc := count_take_succ hj l
  rw [if_pos rfl] at hsucc
  have hsub : (lengths.take (j + 1)).count l ≤ (lengths.take i).count l := by
    refine List.Sublist.count_le l ?_
    have htake : lengths.take (j + 1) = (lengths.take i).take (j + 1) := by
      rw [take_take, min_eq_left (succ_le_of_lt hij)]
    rw [htake]
    exact take_sublist _ _
  omega

theorem placeSymbol_returns {s : Cells Nat × Cells Nat} (hc : cells.Starts lengths) (hle : ∀ l ∈ lengths, l ≤ maxBits)
    (hn : lengths.length ≤ maxLitSymbols) (hi : i < lengths.length) (hs : Placed lengths i s) :
    (placeSymbol cells i s).Returns (Placed lengths (i + 1)) := by
  have hget : lengths[i]? = some lengths[i] := getElem?_eq_getElem hi
  have hmax : lengths[i] ≤ maxBits := hle _ (getElem_mem hi)
  unfold placeSymbol
  simp only [hc.read hget, done_bind]
  by_cases h0 : lengths[i] = 0
  · rw [if_neg (by simpa using h0)]
    refine .done ⟨hs.offsets_length, hs.symbol_length, fun l hl1 hl2 => ?_, fun j hj l hl hl0 => ?_⟩
    · rw [count_take_succ hget, if_neg (by omega)]
      exact hs.offsets l hl1 hl2
    · rcases Nat.lt_succ_iff_lt_or_eq.mp hj with hj' | rfl
      · exact hs.symbol j hj' l hl hl0
      · exact absurd (Option.some.inj (hget.symm.trans hl)) (by omega)
  · have hrank : rank lengths i < codesOf lengths lengths[i] := rank_lt hget h0
    have hplace : firstIndex lengths lengths[i] + (lengths.take i).count lengths[i] < maxLitSymbols := by
      have htotal := firstIndex_le lengths (lengths[i] + 1)
      rw [firstIndex] at htotal
      rw [← rank_eq hget]
      omega
    rw [if_pos h0, read_eq (hs.offsets _ (by omega) hmax), done_bind,
      write_eq _ (by rw [hs.symbol_length]; exact hplace), done_bind,
      write_eq _ (by rw [hs.offsets_length]; omega), done_bind]
    refine .done ⟨by rw [length_set]; exact hs.offsets_length,
      by rw [length_set]; exact hs.symbol_length, fun l hl1 hl2 => ?_, fun j hj l hl hl0 => ?_⟩
    · rw [getElem?_write (by rw [hs.offsets_length]; omega), count_take_succ hget]
      by_cases hl : l = lengths[i]
      · rw [if_pos hl, if_pos hl, hl, add_assoc]
      · rw [if_neg hl, if_neg hl]
        exact hs.offsets l hl1 hl2
    · rw [getElem?_write (by rw [hs.symbol_length]; exact hplace), ← rank_eq hget]
      rcases Nat.lt_succ_iff_lt_or_eq.mp hj with hj' | rfl
      · -- an earlier symbol has another place
        have hne : l ≠ lengths[i] ∨ rank lengths j ≠ rank lengths i := by
          by_cases hl' : l = lengths[i]
          · exact Or.inr (Nat.ne_of_lt (rank_lt_rank hj' (hl' ▸ hl) hget))
          · exact Or.inl hl'
        rw [if_neg (place_ne (rank_lt hl hl0) hrank rfl rfl hne)]
        exact hs.symbol j hj' l hl hl0
      · have hl' : lengths[j] = l := Option.some.inj (hget.symm.trans hl)
        rw [hl', if_pos rfl]

/-- **The table represents the code of the lengths.** -/
theorem huffmanBuild_returns (hc : cells.Starts lengths) (hle : ∀ l ∈ lengths, l ≤ maxBits)
    (hn : lengths.length ≤ maxLitSymbols) : (huffmanBuild cells lengths.length).Returns fun h => h.Represents lengths := by
  refine (countLengths_returns hc hle).bind fun count ⟨hlen, hcount⟩ => ?_
  rw [write_eq _ (by omega), done_bind]
  have hcount' : ∀ l, 1 ≤ l → l ≤ maxBits → (count.set 0 (some 0))[l]? = some (some (codesOf lengths l)) := by
    intro l hl1 hl2
    rw [getElem?_write (by omega), if_neg (by omega), hcount l hl2, codesOf_pos (by omega)]
  refine (sumOffsets_returns hcount' (by simp) rfl).bind fun offsets ⟨holen, hoff⟩ => ?_
  refine (loop_returns (Placed lengths) ⟨holen, length_unset _, fun l hl1 hl2 => ?_,
    fun j hj => absurd hj (by omega)⟩ fun i hi s hs => placeSymbol_returns hc hle hn hi hs).bind
    fun placed hplaced => ?_
  · rw [hoff l hl1 hl2]
    rfl
  · refine .done ⟨hcount', fun s l hs hl => hplaced.symbol s ?_ l hs hl⟩
    exact (List.getElem?_eq_some_iff.mp hs).1

end Build

/-! ## What is decoded -/

section Decode

variable {h : HuffmanTable} {lengths : List Nat} {br : BitReader} {data : List U8}

/-- The code read so far is not below the first one of its length, whatever the lengths are: so the
index is one of a code. -/
theorem huffmanDecodeFrom_sound (hh : h.Represents lengths) (n : Nat) {code len : Nat} (hlen : len + n = maxBits + 1)
    (h1 : 1 ≤ len) (hcode : firstCode lengths len ≤ code) (heven : code % 2 = 0) :
    (huffmanDecodeFrom h br code (firstCode lengths len) (firstIndex lengths len) len n).Sound fun r =>
      br.data = r.2.data ∧ br.pos ≤ r.2.pos ∧
        ∀ s ∈ r.1, s < lengths.length ∧ br.error = false ∧ r.2.error = false ∧ br.pos < r.2.pos := by
  induction n generalizing br code len with
  | zero => exact .done ⟨rfl, le_refl _, fun s hs => absurd hs (by simp)⟩
  | succ n ih =>
    refine (br.getBit_sound).bind fun r ⟨hbit, hadv⟩ => ?_
    simp only
    by_cases herr : r.2.error = true
    · rw [if_pos herr]
      exact .done ⟨hadv.data.symm, hadv.pos_le, fun s hs => absurd hs (by simp)⟩
    obtain ⟨herr0, hpos⟩ := hadv.exact (by simpa using herr)
    rw [if_neg herr, read_eq (hh.count len h1 (by omega)), done_bind]
    have hor : code ||| r.1 = code + r.1 := by
      obtain ⟨k, rfl⟩ : ∃ k, code = 2 * k := ⟨code / 2, by omega⟩
      have := shiftLeft_add_eq_or_of_lt (show r.1 < 2 ^ 1 from hbit) k
      exact this.symm
    rw [hor]
    by_cases hin : ((code + r.1 : Nat) : Int) - (firstCode lengths len : Nat) < (codesOf lengths len : Nat)
    · rw [if_pos hin]
      -- the code is the one of rank `k` among those of length `len`
      obtain ⟨k, hk⟩ : ∃ k, code + r.1 = firstCode lengths len + k := Nat.exists_eq_add_of_le (by omega)
      obtain ⟨s, hs, hrank⟩ := @exists_symbol lengths len k (by omega) (by omega)
      have hindex : (firstIndex lengths len : Int) + (((code + r.1 : Nat) : Int) - firstCode lengths len) =
          (firstIndex lengths len + rank lengths s : Nat) := by omega
      unfold readInt
      rw [hindex, if_neg (by omega), Int.toNat_natCast, read_eq (hh.symbol s len hs (by omega)),
        done_bind]
      refine .done ⟨hadv.data.symm, hadv.pos_le, fun s' hs' => ?_⟩
      obtain rfl : s = s' := Option.some.inj hs'
      exact ⟨(List.getElem?_eq_some_iff.mp hs).1, herr0, by simpa using herr,
        show br.pos < r.2.pos by omega⟩
    · rw [if_neg hin]
      have hfirst : (firstCode lengths len + codesOf lengths len) <<< 1 = firstCode lengths (len + 1) := by
        rw [firstCode, shiftLeft_eq]
        omega
      have hnext : firstCode lengths (len + 1) ≤ 2 * (code + r.1) := by
        omega
      refine (@ih r.2 (2 * (code + r.1)) (len + 1) (by omega) (by omega) hnext (by omega)).mono fun q hq => ?_
      obtain ⟨hdata, hle, hsym⟩ := hq
      refine ⟨hadv.data.symm.trans hdata, by omega, fun s hs => ?_⟩
      obtain ⟨hs1, -, hs3, hs4⟩ := hsym s hs
      exact ⟨hs1, herr0, hs3, by omega⟩

theorem huffmanDecode_sound (hh : h.Represents lengths) :
    (huffmanDecode h br).Sound fun r => br.data = r.2.data ∧ br.pos ≤ r.2.pos ∧
      ∀ s ∈ r.1, s < lengths.length ∧ br.error = false ∧ r.2.error = false ∧ br.pos < r.2.pos :=
  huffmanDecodeFrom_sound hh maxBits rfl (le_refl 1) (le_refl _) rfl

theorem msbValue_take {m n v : Nat} (hm : m ≤ n) (hv : v < 2 ^ n) : msbValue ((msbBits n v).take m) = v / 2 ^ (n - m) := by
  rw [msbBits_take hm, msbValue_msbBits]
  rw [Nat.div_lt_iff_lt_mul (Nat.two_pow_pos _), ← pow_add, Nat.add_sub_cancel' hm]
  exact hv

theorem huffmanDecodeFrom_codeword (hh : h.Represents lengths) (hk : Kraft maxBits lengths) {s : Nat}
    (hs : lengths[s]? = some l) (hl : l ≠ 0) (hl15 : l ≤ maxBits) {post r : List Bool} (pre : List Bool) {n : Nat}
    (hword : codeword lengths s = pre ++ post) (hpost : post ≠ []) (hn : pre.length + n = maxBits)
    (ha : br.Ahead data (post ++ r)) : ∃ br', huffmanDecodeFrom h br (2 * msbValue pre) (firstCode lengths (pre.length + 1))
        (firstIndex lengths (pre.length + 1)) (pre.length + 1) n = .done (some s, br') ∧ br'.Ahead data r := by
  have hcode : codeOf lengths s < 2 ^ l := code_lt hk hs hl hl15
  have hd : lengths.getD s 0 = l := by rw [getD_eq_getElem?_getD, hs]; rfl
  have hbits : pre ++ post = msbBits l (codeOf lengths s) := by rw [← hword, codeword, hd]
  have hl' : pre.length + post.length = l := by
    have := congrArg List.length hbits
    rwa [length_append, length_msbBits] at this
  have hfirst : firstCode lengths l ≤ codeOf lengths s := by
    unfold codeOf
    rw [hd]
    omega
  induction post generalizing br pre n with
  | nil => exact absurd rfl hpost
  | cons b post ih =>
    rw [length_cons] at hl'
    obtain ⟨n, rfl⟩ : ∃ m, n = m + 1 := ⟨n - 1, by omega⟩
    obtain ⟨br₁, hget, h₁⟩ := ha.getBit
    have hor : 2 * msbValue pre ||| b.toNat = msbValue (pre ++ [b]) := by
      have := shiftLeft_add_eq_or_of_lt (show b.toNat < 2 ^ 1 from Bool.toNat_lt b) (msbValue pre)
      rw [shiftLeft_eq, pow_one, mul_comm] at this
      rw [msbValue_concat, this]
    -- the bits read so far are the first ones of the code
    have hvalue : msbValue (pre ++ [b]) = codeOf lengths s / 2 ^ (l - (pre.length + 1)) := by
      rw [← msbValue_take (by omega) hcode, ← hbits, show pre ++ b :: post = (pre ++ [b]) ++ post by simp,
        take_left' (by simp)]
    unfold huffmanDecodeFrom
    rw [hget, done_bind]
    simp only [h₁.error]
    rw [if_neg (by simp), read_eq (hh.count _ (by omega) (by omega)), done_bind, hor, hvalue]
    cases post with
    | nil =>
      have hlast : pre.length + 1 = l := by simpa using hl'
      rw [hlast, Nat.sub_self, pow_zero, Nat.div_one]
      have hrank := rank_lt hs hl
      have hdiff : (codeOf lengths s : Int) - firstCode lengths l = rank lengths s := by
        unfold codeOf
        rw [hd]
        omega
      rw [hdiff, if_pos (by omega)]
      unfold readInt
      rw [if_neg (by omega), show (firstIndex lengths l : Int) + rank lengths s =
        (firstIndex lengths l + rank lengths s : Nat) by omega, Int.toNat_natCast,
        read_eq (hh.symbol s l hs hl), done_bind]
      exact ⟨br₁, rfl, h₁⟩
    | cons b' post =>
      rw [length_cons] at hl'
      have hbig : firstCode lengths (pre.length + 1) + codesOf lengths (pre.length + 1) ≤
          codeOf lengths s / 2 ^ (l - (pre.length + 1)) := by
        rw [Nat.le_div_iff_mul_le (Nat.two_pow_pos _)]
        exact (firstCode_shift_le (by omega)).trans hfirst
      rw [if_neg (by omega), ← hvalue]
      have hshift : msbValue (pre ++ [b]) <<< 1 = 2 * msbValue (pre ++ [b]) := by
        omega
      have hnext : (firstCode lengths (pre.length + 1) + codesOf lengths (pre.length + 1)) <<< 1 =
          firstCode lengths ((pre ++ [b]).length + 1) := by
        rw [length_append, length_singleton, shiftLeft_eq, pow_one, mul_comm]
        rfl
      have hindex : firstIndex lengths (pre.length + 1) + codesOf lengths (pre.length + 1) =
          firstIndex lengths ((pre ++ [b]).length + 1) := by
        rw [length_append, length_singleton]
        rfl
      have hplen : pre.length + 1 + 1 = (pre ++ [b]).length + 1 := by
        rw [length_append, length_singleton]
      rw [hshift, hnext, hindex, hplen]
      exact @ih br₁ (pre ++ [b]) n (by rw [hword]; simp) (by simp)
        (by rw [length_append, length_singleton]; omega) h₁ (by rw [← hbits]; simp)
        (by rw [length_append, length_singleton, length_cons]; omega)

/-- **Decoding a codeword** gives its symbol. -/
theorem huffmanDecode_codeword (hh : h.Represents lengths) (hle : ∀ l ∈ lengths, l ≤ 15) (hk : Kraft 15 lengths)
    {s : Nat} (hs : lengths.getD s 0 ≠ 0) {r : List Bool} (ha : br.Ahead data (codeword lengths s ++ r)) :
    ∃ br', huffmanDecode h br = .done (some s, br') ∧ br'.Ahead data r := by
  have hlt : s < lengths.length := by
    by_contra hge
    exact hs (getD_eq_default _ _ (Nat.le_of_not_lt hge))
  have hne : codeword lengths s ≠ [] := by
    intro hnil
    have := congrArg List.length hnil
    rw [codeword, length_msbBits] at this
    exact hs this
  rw [getD_eq_getElem _ _ hlt] at hs
  exact huffmanDecodeFrom_codeword hh hk (getElem?_eq_getElem hlt) hs (hle _ (getElem_mem hlt)) [] rfl hne
    (by simp [maxBits]) ha

end Decode

end MinicOs
