import MinicOs.Inflate.Inflate
import MinicOs.Inflate.Rfc1951

/-!
# Decompressing anything

On every input `inflate` ends, and every access it makes is inside its array and to a cell that was set:
the outcome is never `undefined`. What carries this is that the lengths a table is built from are never
above fifteen (`readLengths_sound`), so that the table represents them even if they are not those of a
code; that the bytes written so far are those from the start of the buffer to `dst_pos`
(`Inflater.Wrote`); and that every symbol takes a bit of the input (`inflateSymbol_sound`).
-/

namespace MinicOs

open List Exec Cells Nat BitReader

/-- The reader is further in the same data. -/
structure BitReader.Onward (br br' : BitReader) : Prop where
  data : br'.data = br.data
  pos_le : br.pos ≤ br'.pos

variable {n : Nat}

namespace BitReader

variable {br br' br'' : BitReader}

theorem Onward.refl (br : BitReader) : br.Onward br := ⟨rfl, le_refl _⟩

theorem Onward.trans (h : br.Onward br') (h' : br'.Onward br'') : br.Onward br'' :=
  ⟨h'.data.trans h.data, h.pos_le.trans h'.pos_le⟩

theorem Advances.onward (h : br.Advances n br') : br.Onward br' := ⟨h.data, h.pos_le⟩

theorem pos_le_data (br : BitReader) : br.pos ≤ 8 * br.data.length := br.pos_le

end BitReader

/-! ## The tables of a block -/

variable {m : Nat} {xs : List Nat}

section Tables

variable {br : BitReader}

/-- Lengths a table can be built from. -/
def HuffmanTable.Built (h : HuffmanTable) (n : Nat) : Prop :=
  ∃ lengths : List Nat, h.Represents lengths ∧ lengths.length ≤ n

theorem HuffmanTable.Built.mono {h : HuffmanTable} (hh : h.Built n) (hnm : n ≤ m) : h.Built m := by
  obtain ⟨lengths, hrep, hlen⟩ := hh
  exact ⟨lengths, hrep, hlen.trans hnm⟩

theorem huffmanBuild_built {cells : Cells Nat} {lengths : List Nat} (hc : cells.Starts lengths)
    (hle : ∀ l ∈ lengths, l ≤ maxBits) (hn : lengths.length = n) (hmax : n ≤ maxLitSymbols) :
    (huffmanBuild cells n).Returns fun h => h.Built n := by
  subst hn
  exact (huffmanBuild_returns hc hle hmax).mono fun h hh => ⟨lengths, hh, le_refl _⟩

theorem fixedLitLengths_le : ∀ l ∈ fixedLitLengths, l ≤ maxBits := by
  intro l hl
  simp only [fixedLitLengths, mem_append, mem_replicate] at hl
  show l ≤ 15
  omega

theorem fixedDistLengths_le : ∀ l ∈ fixedDistLengths, l ≤ maxBits := by
  intro l hl
  rw [eq_of_mem_replicate hl]
  decide

theorem length_fixedLitLengths : fixedLitLengths.length = maxLitSymbols := by
  unfold fixedLitLengths
  rw [length_append, length_append, length_append, length_replicate, length_replicate, length_replicate, length_replicate]
  rfl

theorem length_fixedDistLengths : fixedDistLengths.length = maxDistSymbols := length_replicate

theorem huffmanBuild_fixed {lengths : List Nat} {n : Nat} (hle : ∀ l ∈ lengths, l ≤ maxBits)
    (hn : lengths.length = n) (hmax : n ≤ maxLitSymbols) :
    (huffmanBuild (ofList lengths) n).Returns fun h => h.Represents lengths := by
  subst hn
  exact huffmanBuild_returns (starts_ofList lengths) hle hmax

theorem buildFixedTables_returns :
    buildFixedTables.Returns fun t => t.1.Represents fixedLitLengths ∧ t.2.Represents fixedDistLengths := by
  have hlit := @huffmanBuild_fixed fixedLitLengths maxLitSymbols fixedLitLengths_le length_fixedLitLengths
    (le_refl _)
  have hdist := @huffmanBuild_fixed fixedDistLengths maxDistSymbols fixedDistLengths_le length_fixedDistLengths
    (by decide)
  refine hlit.bind fun lit h1 => hdist.bind fun dist h2 => ?_
  exact .done ⟨h1, h2⟩

theorem readClLengths_sound {n : Nat} (hn : n ≤ maxClSymbols) :
    (loop readClLength (List.range n) (ofList (List.replicate maxClSymbols 0), br)).Sound fun r =>
      ∃ xs : List Nat, r.1 = ofList xs ∧ xs.length = maxClSymbols ∧ (∀ x ∈ xs, x ≤ maxBits) ∧ br.Onward r.2 := by
  refine loop_sound (fun _ (r : Cells Nat × BitReader) => ∃ xs : List Nat, r.1 = ofList xs ∧
    xs.length = maxClSymbols ∧ (∀ x ∈ xs, x ≤ maxBits) ∧ br.Onward r.2) ?_ ?_
  · refine ⟨_, rfl, length_replicate, fun x hx => ?_, Onward.refl br⟩
    rw [eq_of_mem_replicate hx]
    exact zero_le _
  · rintro i hi ⟨cl, br₁⟩ ⟨xs, rfl, hlen, hle, hon⟩
    refine (br₁.getBits_sound 3).bind fun r ⟨hv, hadv⟩ => ?_
    have hplace : ∃ place, clOrder[i]? = some place ∧ place < maxClSymbols := by
      have : ∀ j < maxClSymbols, ∃ place, clOrder[j]? = some place ∧ place < maxClSymbols := by decide
      exact this i (by omega)
    obtain ⟨place, hp, hlt⟩ := hplace
    simp only
    rw [read_ofList hp, done_bind, write_ofList _ (by omega), done_bind]
    refine .done ⟨_, rfl, by rw [length_set]; exact hlen, fun x hx => ?_, hon.trans hadv.onward⟩
    rcases mem_or_eq_of_mem_set hx with hx | rfl
    · exact hle x hx
    · exact le_trans (le_of_lt hv) (by decide)

/-- The cells, and the number of them that are set. -/
def filled (a : Cells Nat) (xs : List Nat) : Cells Nat × Nat := (a.fill xs, xs.length)

variable {total : Nat}

theorem repeatLength_eq {a : Cells Nat} {value : Nat} (ha : total ≤ a.length) (rep : Nat) (hxs : xs.length ≤ total) :
    repeatLength value total rep (filled a xs) =
      .done (filled a (xs ++ List.replicate (min rep (total - xs.length)) value)) := by
  induction rep generalizing xs with
  | zero => simp [repeatLength]
  | succ rep ih =>
    show (if xs.length < total then _ else _) = _
    by_cases hlt : xs.length < total
    · rw [if_pos hlt, write_fill value (by omega), done_bind]
      have hnext := @ih (xs ++ [value]) (by rw [length_append, length_singleton]; omega)
      rw [show filled a (xs ++ [value]) = (a.fill (xs ++ [value]), xs.length + 1) by
        unfold filled; rw [length_append, length_singleton]] at hnext
      rw [hnext, append_assoc, length_append, length_singleton]
      have hmin : min (rep + 1) (total - xs.length) = min rep (total - (xs.length + 1)) + 1 := by omega
      rw [hmin, replicate_succ]
      rfl
    · rw [if_neg hlt, show total - xs.length = 0 by omega, min_zero]
      simp [filled]

/-- The lengths so far: none is above fifteen, and there are not too many. -/
structure Lengths (total : Nat) (xs : List Nat) : Prop where
  le : ∀ x ∈ xs, x ≤ maxBits
  length_le : xs.length ≤ total

theorem Lengths.repeat {value rep : Nat} (h : Lengths total xs) (hv : value ≤ maxBits) :
    Lengths total (xs ++ List.replicate (min rep (total - xs.length)) value) := by
  constructor
  · intro x hx
    rcases mem_append.mp hx with hx | hx
    · exact h.le x hx
    · rw [eq_of_mem_replicate hx]
      exact hv
  · have := h.length_le
    rw [length_append, length_replicate]
    omega

theorem readLengthSymbol_sound {a : Cells Nat} {sym : Nat} (ha : total ≤ a.length) (hxs : Lengths total xs)
    (hlt : xs.length < total) : (readLengthSymbol total sym (a.fill xs) xs.length br).Sound fun r =>
      (∃ ys, r.1 = filled a ys ∧ Lengths total ys ∧ xs.length < ys.length) ∧ br.Onward r.2 := by
  -- a length that is repeated at least once
  have hrep : ∀ value rep (br' : BitReader), value ≤ maxBits → 0 < rep → br.Onward br' →
      (repeatLength value total rep (a.fill xs, xs.length) >>= fun s => .done (s, br')).Sound fun r =>
        (∃ ys, r.1 = filled a ys ∧ Lengths total ys ∧ xs.length < ys.length) ∧ br.Onward r.2 := by
    intro value rep br' hv hrep hon
    rw [← filled, repeatLength_eq ha rep hxs.length_le, done_bind]
    refine .done ⟨⟨_, rfl, hxs.repeat hv, ?_⟩, hon⟩
    rw [length_append, length_replicate]
    omega
  unfold readLengthSymbol
  split
  · rename_i h16
    rw [write_fill sym (by omega), done_bind]
    refine .done ⟨⟨xs ++ [sym], by simp [filled], ⟨fun x hx => ?_, ?_⟩, by simp⟩, Onward.refl br⟩
    · rcases mem_append.mp hx with hx | hx
      · exact hxs.le x hx
      · rw [mem_singleton.mp hx]
        exact le_of_lt_succ h16
    · rw [length_append, length_singleton]
      omega
  split
  · split
    · exact .refused
    · rename_i h0
      refine (br.getBits_sound 2).bind fun r ⟨_, hadv⟩ => ?_
      have hprev : xs.length - 1 < xs.length := by omega
      simp only
      rw [read_fill hprev, done_bind]
      exact hrep _ (r.1 + 3) r.2 (hxs.le _ (get_mem xs _)) (by omega) hadv.onward
  split
  · refine (br.getBits_sound 3).bind fun r ⟨_, hadv⟩ => ?_
    exact hrep 0 (r.1 + 3) r.2 (zero_le _) (by omega) hadv.onward
  · refine (br.getBits_sound 7).bind fun r ⟨_, hadv⟩ => ?_
    exact hrep 0 (r.1 + 11) r.2 (zero_le _) (by omega) hadv.onward

/-- **The code lengths** are all read, and none is above fifteen. -/
theorem readLengths_sound {cl : HuffmanTable} {n : Nat} (hcl : cl.Built n) {a : Cells Nat} {total : Nat}
    (ha : total ≤ a.length) (fuel : Nat) {xs : List Nat} (hxs : Lengths total xs) (hfuel : total - xs.length < fuel) :
    (readLengths cl total fuel (filled a xs, br)).Sound fun r =>
      (∃ ys, r.1 = filled a ys ∧ (∀ y ∈ ys, y ≤ maxBits) ∧ ys.length = total) ∧ br.Onward r.2 := by
  induction fuel generalizing xs br with
  | zero => exact absurd hfuel (by omega)
  | succ fuel ih =>
    show (if xs.length < total then _ else _ : Exec _).Sound _
    by_cases hlt : xs.length < total
    · rw [if_pos hlt]
      obtain ⟨lengths, hrep, hn⟩ := hcl
      have hround : (readLength cl total (filled a xs, br)).Sound fun r =>
          (∃ ys, r.1 = filled a ys ∧ Lengths total ys ∧ xs.length < ys.length) ∧ br.Onward r.2 := by
        refine (huffmanDecode_sound hrep).bind fun r ⟨hdata, hpos, _⟩ => ?_
        obtain ⟨sym, br₁⟩ := r
        cases sym with
        | none => exact .refused
        | some sym =>
          refine (readLengthSymbol_sound ha hxs hlt).bind fun q ⟨hq, hon⟩ => ?_
          split
          · exact .refused
          · exact .done ⟨hq, Onward.trans ⟨hdata.symm, hpos⟩ hon⟩
      refine hround.bind fun r ⟨⟨ys, hr, hys, hmore⟩, hon⟩ => ?_
      obtain ⟨r1, br₁⟩ := r
      subst hr
      exact (@ih br₁ ys hys (by omega)).mono fun q hq => ⟨hq.1, hon.trans hq.2⟩
    · rw [if_neg hlt]
      have := hxs.length_le
      exact .done ⟨⟨xs, rfl, hxs.le, by omega⟩, Onward.refl br⟩

theorem readDynamicTables_sound (br : BitReader) : (readDynamicTables br).Sound fun r =>
    r.1.1.Built maxLitSymbols ∧ r.1.2.Built maxLitSymbols ∧ br.Onward r.2 := by
  refine (br.getBits_sound 5).bind fun r₁ ⟨hlit, hadv₁⟩ => ?_
  refine (r₁.2.getBits_sound 5).bind fun r₂ ⟨hdist, hadv₂⟩ => ?_
  refine (r₂.2.getBits_sound 4).bind fun r₃ ⟨hclen, hadv₃⟩ => ?_
  have hon₃ : br.Onward r₃.2 := (hadv₁.onward.trans hadv₂.onward).trans hadv₃.onward
  refine .guard fun _ => ?_
  refine (@readClLengths_sound r₃.2 (r₃.1 + 4) (by show r₃.1 + 4 ≤ 19; omega)).bind fun r₄ hr₄ => ?_
  obtain ⟨xs, hxs, hlen, hle, hon₄⟩ := hr₄
  refine .guard fun _ => ?_
  rw [hxs]
  refine (huffmanBuild_built (starts_ofList xs) hle hlen (by decide)).sound.bind fun cl hcl => ?_
  refine .guard fun htotal => ?_
  have hroom : r₁.1 + 257 + (r₂.1 + 1) ≤ (unset (maxLitSymbols + maxDistSymbols) : Cells Nat).length := by
    rw [length_unset]
    omega
  refine (@readLengths_sound r₄.2 cl maxClSymbols hcl (unset (maxLitSymbols + maxDistSymbols)) _ hroom _ []
    ⟨by simp, zero_le _⟩ (lt_succ_of_le (sub_le _ _))).bind fun r₅ hr₅ => ?_
  obtain ⟨⟨ys, hys, hyle, hylen⟩, hon₅⟩ := hr₅
  obtain ⟨⟨lengths, k⟩, br₅⟩ := r₅
  cases hys
  -- the lengths of the literals, then those of the distances
  have hstarts := starts_fill (unset (maxLitSymbols + maxDistSymbols)) ys
  have htake : (ys.take (r₁.1 + 257)).length = r₁.1 + 257 := by
    rw [length_take]
    omega
  have hdrop : (ys.drop (r₁.1 + 257)).length = r₂.1 + 1 := by
    rw [length_drop]
    omega
  have hmax : r₁.1 + 257 ≤ maxLitSymbols := by
    show _ ≤ 288
    omega
  have hmax' : r₂.1 + 1 ≤ maxLitSymbols := by
    show _ ≤ 288
    omega
  refine (huffmanBuild_built (hstarts.take _) (fun l hl => hyle l (mem_of_mem_take hl)) htake
    hmax).sound.bind fun lit hlit' => ?_
  refine (huffmanBuild_built (hstarts.drop _) (fun l hl => hyle l (mem_of_mem_drop hl)) hdrop
    hmax').sound.bind fun dist hdist' => ?_
  exact .done ⟨hlit'.mono hmax, hdist'.mono hmax', (hon₃.trans hon₄).trans hon₅⟩

end Tables

/-! ## The buffer -/

/-- The state in which `out` was written to the buffer `dst`. -/
def Inflater.at (br : BitReader) (dst : Cells U8) (out : List U8) : Inflater :=
  { br := br, dst := dst.fill out, dstPos := out.length }

@[simp] theorem Inflater.at_br (br : BitReader) (dst : Cells U8) (out : List U8) : (Inflater.at br dst out).br = br := rfl

theorem Inflater.at_append {br : BitReader} {dst : Cells U8} {out more : List U8} {n : Nat} (h : more.length = n) :
    { br := br, dst := dst.fill (out ++ more), dstPos := out.length + n } = Inflater.at br dst (out ++ more) := by
  unfold Inflater.at
  rw [length_append, h]

section Buffer

variable {dst : Cells U8} {out : List U8}

theorem srcByte_eq {data : List U8} {i : Nat} (h : i < data.length) : srcByte data i = .done (data.get ⟨i, h⟩) := by
  unfold srcByte
  rw [getElem?_eq_getElem h]
  rfl

theorem storedBytes_eq {data : List U8} {p : Nat} (hp : p + n ≤ data.length) (hn : out.length + n ≤ dst.length) :
    loop (storedByte data p out.length) (List.range n) (dst.fill out) = .done (dst.fill (out ++ (data.drop p).take n)) := by
  have hloop := @count_eq _ (storedByte data p out.length) (fun i => dst.fill (out ++ (data.drop p).take i)) n
    fun i hi => by
      have hlen : (out ++ (data.drop p).take i).length = out.length + i := by
        rw [length_append, length_take, length_drop]
        omega
      have hp : p + i < data.length := by omega
      unfold storedByte
      rw [srcByte_eq hp, done_bind, ← hlen, write_fill _ (by omega)]
      have hget : (data.drop p)[i]? = some (data.get ⟨p + i, hp⟩) := by
        rw [getElem?_drop, getElem?_eq_getElem hp]
        rfl
      rw [take_add_one, hget, append_assoc]
      rfl
  rwa [Exec.count, ← range_eq_range', take_zero, append_nil] at hloop

theorem copyBytes_eq {distance : Nat} (h1 : 1 ≤ distance) (hd : distance ≤ out.length) (hn : out.length + n ≤ dst.length) :
    loop (copyByte (out.length - distance) out.length) (List.range n) (dst.fill out) =
      .done (dst.fill (out ++ Rfc1951.copyBack out n distance)) := by
  have hloop := @count_eq _ (copyByte (out.length - distance) out.length)
    (fun i => dst.fill (out ++ Rfc1951.copyBack out i distance)) n fun i hi => by
      have hback : (Rfc1951.copyBack out i distance).length = i := by simp [Rfc1951.copyBack]
      have hlen : (out ++ Rfc1951.copyBack out i distance).length = out.length + i := by
        rw [length_append, hback]
      have hsrc : out.length - distance + i < (out ++ Rfc1951.copyBack out i distance).length := by omega
      -- a byte that was itself copied was copied from one distance before
      have hget : (out ++ Rfc1951.copyBack out i distance).get ⟨_, hsrc⟩ =
          out.getD (out.length - distance + i % distance) 0 := by
        have hget? : (out ++ Rfc1951.copyBack out i distance)[out.length - distance + i]? =
            some (out.getD (out.length - distance + i % distance) 0) := by
          rcases lt_or_ge i distance with hlt | hge
          · have hin : out.length - distance + i < out.length := by omega
            rw [getElem?_append_left hin, mod_eq_of_lt hlt, getElem?_eq_getElem hin,
              getD_eq_getElem?_getD, getElem?_eq_getElem hin]
            rfl
          · rw [getElem?_append_right (by omega),
              show out.length - distance + i - out.length = i - distance by omega]
            unfold Rfc1951.copyBack
            rw [getElem?_map, getElem?_range (by omega), Option.map_some, ← mod_eq_sub_mod hge]
        exact (List.getElem?_eq_some_iff.mp hget?).2
      unfold copyByte
      rw [read_fill hsrc, done_bind, hget, ← hlen, write_fill _ (by omega)]
      unfold Rfc1951.copyBack
      rw [range_succ, map_append, append_assoc]
      rfl
  rwa [Exec.count, ← range_eq_range', show Rfc1951.copyBack out 0 distance = [] from rfl, append_nil] at hloop

theorem u32_eq {n : Nat} (h : n < 2 ^ 32) : u32 n = n := mod_eq_of_lt h

end Buffer

/-! ## The blocks -/

section Blocks

variable {br : BitReader} {dst : Cells U8} {out : List U8}

/-- What a step leaves: more bytes in the same buffer, and the reader further on. -/
def Wrote (br : BitReader) (dst : Cells U8) (s : Inflater) : Prop :=
  ∃ br' out', s = Inflater.at br' dst out' ∧ out'.length ≤ dst.length ∧ br.Onward br'

theorem Wrote.after {br' : BitReader} {s : Inflater} (h : Wrote br' dst s) (hon : br.Onward br') : Wrote br dst s := by
  obtain ⟨br'', out', hs, hout, hon'⟩ := h
  exact ⟨br'', out', hs, hout, hon.trans hon'⟩

theorem storedLength_sound (hsrc : br.data.length < 2 ^ 31) :
    (storedLength br).Sound fun n => n < 2 ^ 16 ∧ br.bytePos + 4 ≤ br.data.length := by
  have hpos := br.pos_le
  refine .guard fun h4 => ?_
  rw [u32_eq (by omega)] at h4
  rw [srcByte_eq (show br.bytePos < br.data.length by omega), done_bind,
    srcByte_eq (show br.bytePos + 1 < br.data.length by omega), done_bind,
    srcByte_eq (show br.bytePos + 2 < br.data.length by omega), done_bind,
    srcByte_eq (show br.bytePos + 3 < br.data.length by omega), done_bind]
  refine .guard fun _ => ?_
  refine .done ⟨or_lt_two_pow ((BitVec.isLt _).trans (by decide)) ?_, by omega⟩
  rw [shiftLeft_eq]
  exact mul_lt_mul_of_pos_right (BitVec.isLt _) (by decide)

/-- The tables of lengths and distances are read where they have entries. -/
theorem table_read {i : Nat} (h : i < xs.length) : (ofList xs).read i = .done (xs.get ⟨i, h⟩) := by
  refine read_ofList ?_
  rw [getElem?_eq_getElem h]
  rfl

theorem blockTables_sound (btype : Nat) (br : BitReader) : (blockTables btype br).Sound fun r =>
    r.1.1.Built maxLitSymbols ∧ r.1.2.Built maxLitSymbols ∧ br.Onward r.2 := by
  unfold blockTables
  split
  · refine buildFixedTables_returns.sound.bind fun t ⟨hlit, hdist⟩ => ?_
    refine .done ⟨⟨_, hlit, ?_⟩, ⟨_, hdist, ?_⟩, Onward.refl br⟩
    · rw [length_fixedLitLengths]
    · rw [length_fixedDistLengths]
      decide
  · exact readDynamicTables_sound br

variable (hdst : dst.length + 2 ^ 16 ≤ 2 ^ 32) (hout : out.length ≤ dst.length)

include hdst hout

theorem inflateBlockStored_sound (hsrc : br.data.length < 2 ^ 31) :
    (inflateBlockStored (Inflater.at br dst out)).Sound (Wrote br dst) := by
  have hread := br.align_reads
  have hdata : br.align.data = br.data := hread.data
  have hbit := br.align_bitPos
  refine (storedLength_sound (by rw [Inflater.at_br, hdata]; exact hsrc)).bind fun lenv ⟨hlt, h4⟩ => ?_
  change br.align.bytePos + 4 ≤ br.align.data.length at h4
  rw [← hdata] at hsrc
  refine .guard fun hfit => ?_
  change ¬ u32 (br.align.bytePos + 4 + lenv) > br.align.data.length at hfit
  rw [u32_eq (by omega)] at hfit
  refine .guard fun hroom => ?_
  change ¬ u32 (out.length + lenv) > (dst.fill out).length at hroom
  rw [u32_eq (by omega), length_fill hout] at hroom
  change (loop (storedByte br.align.data (br.align.bytePos + 4) out.length) (List.range lenv) (dst.fill out) >>=
    fun d => br.align.seek (br.align.bytePos + 4 + lenv) >>= fun b =>
      .done { br := b, dst := d, dstPos := out.length + lenv }).Sound (Wrote br dst)
  rw [storedBytes_eq (show br.align.bytePos + 4 + lenv ≤ br.align.data.length by omega) (by omega), done_bind]
  have hlen : ((br.align.data.drop (br.align.bytePos + 4)).take lenv).length = lenv := by
    rw [length_take, length_drop]
    omega
  unfold BitReader.seek
  rw [dif_pos (show br.align.bytePos + 4 + lenv ≤ br.align.data.length by omega), done_bind]
  refine .done ⟨_, _, Inflater.at_append hlen, ?_, hdata, ?_⟩
  · rw [length_append, hlen]
    omega
  · have hle : br.pos ≤ br.align.pos := by
      rw [hread.pos]
      omega
    refine hle.trans ?_
    show 8 * br.align.bytePos + br.align.bitPos ≤ 8 * (br.align.bytePos + 4 + lenv) + 0
    omega

variable {dist : HuffmanTable}

theorem inflateCopy_sound {lidx : Nat} (hdist : dist.Built n) (hl : lidx < 29) :
    (inflateCopy dist (Inflater.at br dst out) lidx).Sound (Wrote br dst) := by
  obtain ⟨lengths, hrep, -⟩ := hdist
  unfold inflateCopy
  rw [table_read (show lidx < lengthBase.length from hl), done_bind,
    table_read (show lidx < lengthExtra.length from hl), done_bind]
  refine (br.getBits_sound _).bind fun r₁ ⟨hmore, hadv₁⟩ => ?_
  refine (huffmanDecode_sound hrep).bind fun r₂ ⟨hdata₂, hpos₂, _⟩ => ?_
  obtain ⟨dsym, br₂⟩ := r₂
  cases dsym with
  | none => exact .refused
  | some dsym =>
    refine .guard fun h30 => ?_
    have h30' : dsym < distBase.length := by show dsym < 30; omega
    have h30'' : dsym < distExtra.length := h30'
    rw [table_read h30', done_bind, table_read h30'', done_bind]
    refine (br₂.getBits_sound _).bind fun r₃ ⟨_, hadv₃⟩ => ?_
    refine .guard fun _ => .guard fun hdistance => ?_
    have hbase : 1 ≤ distBase.get ⟨dsym, h30'⟩ := by
      have : ∀ i : Fin distBase.length, 1 ≤ distBase.get i := by decide
      exact this ⟨dsym, h30'⟩
    have hlength : lengthBase.get ⟨lidx, hl⟩ + r₁.1 < 2 ^ 16 := by
      have h1 : ∀ i : Fin lengthBase.length, lengthBase.get i ≤ 258 := by decide
      have h2 : ∀ i : Fin lengthExtra.length, 2 ^ lengthExtra.get i ≤ 32 := by decide
      have := h1 ⟨lidx, hl⟩
      have := h2 ⟨lidx, hl⟩
      omega
    change ¬ distBase.get ⟨dsym, h30'⟩ + r₃.1 > out.length at hdistance
    refine .guard fun hroom => ?_
    change ¬ u32 (out.length + (lengthBase.get ⟨lidx, hl⟩ + r₁.1)) > (dst.fill out).length at hroom
    rw [u32_eq (by omega), length_fill hout] at hroom
    change ((loop (copyByte (out.length - _) out.length) _ (dst.fill out)) >>= _ : Exec _).Sound _
    rw [copyBytes_eq (by omega) (by omega) (by omega), done_bind]
    have hback : (Rfc1951.copyBack out (lengthBase.get ⟨lidx, hl⟩ + r₁.1)
        (distBase.get ⟨dsym, h30'⟩ + r₃.1)).length = lengthBase.get ⟨lidx, hl⟩ + r₁.1 := by
      simp [Rfc1951.copyBack]
    refine .done ⟨r₃.2, _, Inflater.at_append hback, ?_, ?_⟩
    · rw [length_append, hback]
      omega
    · exact (hadv₁.onward.trans ⟨hdata₂.symm, hpos₂⟩).trans hadv₃.onward

/-- **One symbol** takes a bit at least. -/
theorem inflateSymbol_sound {lit : HuffmanTable} (hlit : lit.Built n) (hdist : dist.Built m) :
    (inflateSymbol lit dist (Inflater.at br dst out)).Sound fun r => Wrote br dst r.2 ∧ br.pos < r.2.br.pos := by
  obtain ⟨lengths, hrep, -⟩ := hlit
  refine (huffmanDecode_sound hrep).bind fun r ⟨hdata, hpos, hsym⟩ => ?_
  obtain ⟨sym, br₁⟩ := r
  cases sym with
  | none => exact .refused
  | some sym =>
    obtain ⟨-, -, -, hlt⟩ := hsym sym rfl
    have hon : br.Onward br₁ := ⟨hdata.symm, hpos⟩
    simp only
    split
    · split
      · exact .refused
      · rename_i hroom
        change ¬ out.length ≥ (dst.fill out).length at hroom
        rw [length_fill hout] at hroom
        change ((dst.fill out).write out.length _ >>= _ : Exec _).Sound _
        rw [write_fill _ (by omega), done_bind]
        refine .done ⟨⟨br₁, out ++ [BitVec.ofNat 8 sym], Inflater.at_append rfl, ?_, hon⟩, hlt⟩
        · rw [length_append, length_singleton]
          omega
    split
    · exact .done ⟨⟨br₁, out, rfl, hout, hon⟩, hlt⟩
    split
    · exact .refused
    · rename_i h29
      refine (inflateCopy_sound hdst hout hdist (by omega)).bind fun s hs => ?_
      obtain ⟨br₂, out', rfl, hout', hon'⟩ := hs
      exact .done ⟨⟨br₂, out', rfl, hout', hon.trans hon'⟩, lt_of_lt_of_le hlt hon'.pos_le⟩

/-- The symbols of a block, with more rounds than there are bits left. -/
theorem inflateBlockHuffman_sound {lit : HuffmanTable} (hlit : lit.Built n) (hdist : dist.Built m) (fuel : Nat)
    (hfuel : 8 * br.data.length < fuel + br.pos) :
    (inflateBlockHuffman lit dist fuel (Inflater.at br dst out)).Sound (Wrote br dst) := by
  induction fuel generalizing br out with
  | zero =>
    have := br.pos_le_data
    omega
  | succ fuel ih =>
    refine (inflateSymbol_sound hdst hout hlit hdist).bind fun r ⟨hwrote, hlt⟩ => ?_
    obtain ⟨last, s⟩ := r
    simp only
    split
    · exact .done hwrote
    · obtain ⟨br', out', rfl, hout', hon⟩ := hwrote
      have hlt' : br.pos < br'.pos := hlt
      have hdata := hon.data
      exact (ih hout' (by rw [hdata]; omega)).mono fun s hs => hs.after hon

theorem inflateBlock_sound (btype : Nat) (hsrc : br.data.length < 2 ^ 31) :
    (inflateBlock btype (Inflater.at br dst out)).Sound (Wrote br dst) := by
  unfold inflateBlock
  split
  · exact inflateBlockStored_sound hdst hout hsrc
  split
  · refine (blockTables_sound btype br).bind fun r ⟨hlit, hdist, hon⟩ => ?_
    obtain ⟨⟨lit, dist⟩, br₁⟩ := r
    have hsound := inflateBlockHuffman_sound hdst hout hlit hdist (8 * br₁.data.length + 1)
      (show 8 * br₁.data.length < 8 * br₁.data.length + 1 + br₁.pos by omega)
    exact hsound.mono fun s hs => hs.after hon
  · exact .refused

/-- The blocks, with more rounds than there are bits left. -/
theorem inflateBlocks_sound (fuel : Nat) (hsrc : br.data.length < 2 ^ 31) (hfuel : 8 * br.data.length < fuel + br.pos) :
    (inflateBlocks fuel (Inflater.at br dst out)).Sound (Wrote br dst) := by
  induction fuel generalizing br out with
  | zero =>
    have := br.pos_le_data
    omega
  | succ fuel ih =>
    refine .guard fun _ => ?_
    refine (br.getBit_sound).bind fun r₁ ⟨_, hadv₁⟩ => ?_
    refine (r₁.2.getBits_sound 2).bind fun r₂ ⟨_, hadv₂⟩ => ?_
    refine .guard fun herr => ?_
    have hon : br.Onward r₂.2 := hadv₁.onward.trans hadv₂.onward
    obtain ⟨-, hpos⟩ := (hadv₁.trans hadv₂).exact (by simpa using herr)
    refine (@inflateBlock_sound r₂.2 dst out hdst hout r₂.1 (by rw [hon.data]; exact hsrc)).bind fun s hs => ?_
    obtain ⟨br', out', rfl, hout', hon'⟩ := hs
    have hdata := hon'.data.trans hon.data
    split
    · exact .done ⟨br', out', rfl, hout', hon.trans hon'⟩
    · have hle := hon'.pos_le
      exact (ih hout' (by rw [hdata]; exact hsrc) (by rw [hdata]; omega)).mono fun s hs => hs.after (hon.trans hon')

end Blocks

/-- `inflate` on any input, with a buffer that ends a block before the last `u32`. -/
theorem inflate_sound {src : List U8} {dst : Cells U8} (hsrc : src.length < 2 ^ 31)
    (hdst : dst.length + 2 ^ 16 ≤ 2 ^ 32) : (inflate src dst).Sound fun r =>
      ∃ out : List U8, r.1 = dst.fill out ∧ r.2 = out.length ∧ out.length ≤ dst.length := by
  have h := @inflateBlocks_sound (BitReader.start src) dst [] hdst (zero_le _) (8 * src.length + 1) hsrc
    (lt_succ_self _)
  refine h.bind fun s hs => ?_
  obtain ⟨br, out, rfl, hout, -⟩ := hs
  exact .done ⟨out, rfl, rfl, hout⟩

/-- **`inflate` on any input** ends without an access outside an array or to a cell that was not set; if
it returns `true`, it has written the bytes up to `*out_len`, which is not above `dst_cap`, and left the
others alone. -/
theorem inflate_safe (src : List U8) (dst : Cells U8) (hsrc : src.length < 2 ^ 31) (hdst : dst.length < 2 ^ 31) :
    inflate src dst ≠ .undefined ∧ ∀ r, inflate src dst = .done r →
      r.2 ≤ dst.length ∧ ∃ out : List U8, out.length = r.2 ∧ r.1 = dst.fill out := by
  have h := @inflate_sound src dst hsrc (by omega)
  refine ⟨h.ne_undefined, fun r hr => ?_⟩
  obtain ⟨out, hfill, hlen, hle⟩ := h.of_done hr
  exact ⟨by omega, out, hlen.symm, hfill⟩

/-- A dynamic block whose code-length code has nineteen codes of one bit. -/
def oversubscribed : List U8 := [0x05, 0xe0, 0x93, 0x24, 0x49, 0x92, 0x24, 0x49, 0x92, 0x24, 0x49, 0x92]

theorem inflate_safe_oversubscribed : (oversubscribed.length < 2 ^ 31 ∧ (unset 4 : Cells U8).length < 2 ^ 31) ∧
    inflate oversubscribed (unset 4) ≠ .undefined ∧
      ∀ r, inflate oversubscribed (unset 4) = .done r → r.2 ≤ (unset 4 : Cells U8).length ∧
        ∃ out : List U8, out.length = r.2 ∧ r.1 = fill (unset 4) out :=
  ⟨by decide, inflate_safe oversubscribed (unset 4) (by decide) (by decide)⟩

end MinicOs
