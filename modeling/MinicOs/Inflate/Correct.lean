import MinicOs.Inflate.Safety

/-!
# Decompressing what was compressed

`inflate` inverts the format of `Rfc1951.lean`. Each part of the decompressor, ahead of the bits of its
counterpart, reads exactly these bits and does what they stand for.
-/

namespace MinicOs

open Rfc1951 List Exec Cells Nat

variable {n : Nat} {r : List Bool} {data : List U8}

/-! ## Literals and back-references -/

/-- Tables of the codes of a block. -/
structure TablesOf (lit dist : HuffmanTable) (L D : List Nat) : Prop where
  lit : lit.Represents L
  dist : dist.Represents D
  codes : CodesValid L D

variable {items : List Item}

section Items

variable {br : BitReader} {dst : Cells U8} {out : List U8} {lit dist : HuffmanTable} {L D : List Nat}

theorem lengthTables : ∀ i < 29, lengthBase[i]? = some (lengthStart i) ∧ lengthExtra[i]? = some (lengthBits i) := by
  decide

theorem distTables : ∀ i < 30, distBase[i]? = some (distStart i) ∧ distExtra[i]? = some (distBits i) := by
  decide

/-- A back-reference, after the symbol of its length. -/
theorem inflateCopy_eq (ht : TablesOf lit dist L D) {length distance : Nat} (h3 : 3 ≤ length) (h258 : length ≤ 258)
    (h1 : 1 ≤ distance) (hmax : distance ≤ 32768) (hd : distance ≤ out.length) (hcode : D.getD (distCode distance) 0 ≠ 0)
    (ha : br.Ahead data (lsbBits (lengthBits (lengthCode length)) (length - lengthStart (lengthCode length)) ++
      (codeword D (distCode distance) ++
        (lsbBits (distBits (distCode distance)) (distance - distStart (distCode distance)) ++ r))))
    (hroom : out.length + length ≤ dst.length) (hdst : dst.length < 2 ^ 32) :
    ∃ br', inflateCopy dist (Inflater.at br dst out) (lengthCode length) =
        .done (Inflater.at br' dst (out ++ copyBack out length distance)) ∧ br'.Ahead data r := by
  obtain ⟨hl29, hlstart, hlmore⟩ := lengthCode_spec h3 h258
  obtain ⟨hd30, hdstart, hdmore⟩ := distCode_spec h1 hmax
  obtain ⟨hbase, hextra⟩ := lengthTables _ hl29
  obtain ⟨hdbase, hdextra⟩ := distTables _ hd30
  obtain ⟨br₁, hget₁, h₁⟩ := ha.getBits hlmore
  obtain ⟨br₂, hget₂, h₂⟩ := huffmanDecode_codeword ht.dist ht.codes.dist_le ht.codes.dist_kraft hcode h₁
  obtain ⟨br₃, hget₃, h₃⟩ := h₂.getBits hdmore
  have hlength : lengthStart (lengthCode length) + (length - lengthStart (lengthCode length)) = length := by omega
  have hdistance : distStart (distCode distance) + (distance - distStart (distCode distance)) = distance := by omega
  have hback : (copyBack out length distance).length = length := by simp [copyBack]
  refine ⟨br₃, ?_, h₃⟩
  unfold inflateCopy
  rw [read_ofList hbase, done_bind, read_ofList hextra, done_bind, Inflater.at_br, hget₁, done_bind]
  simp only [hget₂, done_bind]
  rw [if_neg (by omega), read_ofList hdbase, done_bind, read_ofList hdextra, done_bind, hget₃,
    done_bind]
  simp only [hlength, hdistance]
  have hback' : ¬ distance > (Inflater.at br dst out).dstPos := not_lt.mpr hd
  have hfits : ¬ u32 ((Inflater.at br dst out).dstPos + length) > (Inflater.at br dst out).dst.length := by
    show ¬ u32 (out.length + length) > (dst.fill out).length
    rw [u32_eq (by omega), length_fill (by omega)]
    omega
  rw [if_neg (by simp [h₃.error]), if_neg hback', if_neg hfits]
  change (loop (copyByte (out.length - distance) out.length) (List.range length) (dst.fill out) >>= fun d =>
    .done (Inflater.mk br₃ d (out.length + length))) = _
  rw [copyBytes_eq h1 hd hroom, done_bind, Inflater.at_append hback]

theorem inflateSymbol_item (ht : TablesOf lit dist L D) {item : Item} (hv : item.Valid L D out)
    (ha : br.Ahead data (item.bits L D ++ r)) (hroom : (item.expand out).length ≤ dst.length)
    (hdst : dst.length < 2 ^ 32) : ∃ br', inflateSymbol lit dist (Inflater.at br dst out) =
        .done (false, Inflater.at br' dst (item.expand out)) ∧ br'.Ahead data r := by
  cases item with
  | literal b =>
    obtain ⟨br₁, hget, h₁⟩ := huffmanDecode_codeword ht.lit ht.codes.lit_le ht.codes.lit_kraft hv ha
    have hroom' : out.length + 1 ≤ dst.length := by
      have : (out ++ [b]).length = out.length + 1 := by simp
      exact this ▸ hroom
    refine ⟨br₁, ?_, h₁⟩
    unfold inflateSymbol
    rw [Inflater.at_br, hget, done_bind]
    have hfits : ¬ (Inflater.at br dst out).dstPos ≥ (Inflater.at br dst out).dst.length := by
      show ¬ out.length ≥ (dst.fill out).length
      rw [length_fill (by omega)]
      omega
    simp only
    rw [if_pos b.isLt, if_neg hfits, BitVec.ofNat_toNat, BitVec.setWidth_eq]
    change ((dst.fill out).write out.length b >>= fun d => .done (false, Inflater.mk br₁ d (out.length + 1))) = _
    rw [write_fill b (by omega), done_bind, @Inflater.at_append _ _ _ [b] 1 rfl]
    rfl
  | copy length distance =>
    obtain ⟨⟨h3, h258⟩, ⟨h1, hmax⟩, hd, hlit, hdist⟩ := hv
    simp only [Item.bits, append_assoc] at ha
    obtain ⟨br₁, hget, h₁⟩ := huffmanDecode_codeword ht.lit ht.codes.lit_le ht.codes.lit_kraft hlit ha
    have hroom' : out.length + length ≤ dst.length := by
      have : (out ++ copyBack out length distance).length = out.length + length := by simp [copyBack]
      exact this ▸ hroom
    obtain ⟨hl29, -⟩ := lengthCode_spec h3 h258
    obtain ⟨br₂, hcopy, h₂⟩ := inflateCopy_eq ht h3 h258 h1 hmax hd hdist h₁ hroom' hdst
    refine ⟨br₂, ?_, h₂⟩
    unfold inflateSymbol
    rw [Inflater.at_br, hget, done_bind]
    simp only
    rw [if_neg (by omega), if_neg (by omega), if_neg (by omega), Nat.add_sub_cancel_left]
    change (inflateCopy dist (Inflater.at br₁ dst out) (lengthCode length) >>= fun s => .done (false, s)) = _
    rw [hcopy, done_bind]
    rfl

theorem expandItems_length_le (out : List U8) (items : List Item) : out.length ≤ (expandItems out items).length := by
  induction items generalizing out with
  | nil => exact le_refl _
  | cons item items ih =>
    refine le_trans ?_ (ih (item.expand out))
    cases item <;> simp [Item.expand]

theorem inflateBlockHuffman_items (ht : TablesOf lit dist L D) (hdst : dst.length < 2 ^ 32)
    (hv : ItemsValid L D out items) (ha : br.Ahead data (itemsBits L D items ++ r))
    (hroom : (expandItems out items).length ≤ dst.length) {fuel : Nat} (hfuel : items.length < fuel) :
    ∃ br', inflateBlockHuffman lit dist fuel (Inflater.at br dst out) =
        .done (Inflater.at br' dst (expandItems out items)) ∧ br'.Ahead data r := by
  obtain ⟨fuel, rfl⟩ : ∃ k, fuel = k + 1 := ⟨fuel - 1, by omega⟩
  induction items generalizing br out fuel with
  | nil =>
    obtain ⟨br₁, hget, h₁⟩ := huffmanDecode_codeword ht.lit ht.codes.lit_le ht.codes.lit_kraft ht.codes.ends ha
    refine ⟨br₁, ?_, h₁⟩
    unfold inflateBlockHuffman inflateSymbol
    rw [Inflater.at_br, hget, done_bind]
    rfl
  | cons item items ih =>
    rw [show itemsBits L D (item :: items) = item.bits L D ++ itemsBits L D items by
      simp only [itemsBits, flatMap_cons, append_assoc], append_assoc] at ha
    have hgrow := expandItems_length_le (item.expand out) items
    obtain ⟨br₁, hsym, h₁⟩ := inflateSymbol_item ht hv.1 ha (hgrow.trans hroom) hdst
    rw [length_cons] at hfuel
    obtain ⟨fuel, rfl⟩ : ∃ k, fuel = k + 1 := ⟨fuel - 1, by omega⟩
    obtain ⟨br₂, hblock, h₂⟩ := ih hv.2 h₁ hroom fuel (by omega)
    refine ⟨br₂, ?_, h₂⟩
    rw [inflateBlockHuffman, hsym, done_bind]
    exact hblock

end Items

/-! ## The codes of a dynamic block -/

section Header

variable {br : BitReader}

variable {cl : List Nat}

theorem readClLengths_eq (h19 : cl.length = 19) (h7 : ∀ l ∈ cl, l ≤ 7) (hn : n ≤ 19)
    (hzero : ∀ s ∈ order.drop n, cl.getD s 0 = 0)
    (ha : br.Ahead data ((order.take n).flatMap (fun s => lsbBits 3 (cl.getD s 0)) ++ r)) :
    ∃ br', loop readClLength (List.range n) (ofList (List.replicate maxClSymbols 0), br) =
        .done (ofList cl, br') ∧ br'.Ahead data r := by
  have hsmall : ∀ s, cl.getD s 0 < 2 ^ 3 := by
    intro s
    rw [getD_eq_getElem?_getD]
    cases hs : cl[s]? with
    | none => decide
    | some l => exact lt_succ_of_le (h7 l (mem_of_getElem? hs))
  let I (i : Nat) (q : Cells Nat × BitReader) : Prop := ∃ xs : List Nat, q.1 = ofList xs ∧ xs.length = 19 ∧
    (∀ s < 19, xs.getD s 0 = if s ∈ order.take i then cl.getD s 0 else 0) ∧
      q.2.Ahead data (((order.take n).drop i).flatMap (fun s => lsbBits 3 (cl.getD s 0)) ++ r)
  have hloop : (loop readClLength (List.range n) (ofList (List.replicate maxClSymbols 0), br)).Returns (I n) := by
    refine loop_returns I ?_ ?_
    · refine ⟨_, rfl, length_replicate, fun s hs => ?_, ha⟩
      rw [take_zero, if_neg (by simp), getD_eq_getElem?_getD, getElem?_replicate,
        if_pos (show s < maxClSymbols from hs)]
      rfl
    · rintro i hi ⟨cells, b⟩ ⟨xs, rfl, hlen, hxs, hb⟩
      have hi19 : i < order.length := by show i < 19; omega
      obtain ⟨place, hplace, hlt⟩ : ∃ place, order[i]? = some place ∧ place < 19 := by
        have : ∀ j < 19, ∃ place, order[j]? = some place ∧ place < 19 := by decide
        exact this i hi19
      -- what is ahead is the length at that place
      have hin : i < (order.take n).length := by
        rw [length_take]
        omega
      have hhere : (order.take n)[i] = place := by
        have : (order.take n)[i]? = some place := by rw [getElem?_take_of_lt hi, hplace]
        exact (List.getElem?_eq_some_iff.mp this).2
      rw [drop_eq_getElem_cons hin, hhere, flatMap_cons, append_assoc] at hb
      obtain ⟨b', hget, hb'⟩ := hb.getBits (hsmall place)
      unfold readClLength
      rw [hget, done_bind]
      simp only
      rw [read_ofList (show clOrder[i]? = some place from hplace), done_bind, write_ofList _ (by omega), done_bind]
      refine .done ⟨_, rfl, by rw [length_set]; exact hlen, fun s hs => ?_, hb'⟩
      have hmem : s ∈ order.take (i + 1) ↔ s ∈ order.take i ∨ s = place := by
        rw [take_add_one, hplace, mem_append]
        simp
      rw [getD_eq_getElem?_getD, getElem?_set]
      by_cases hs' : place = s
      · rw [if_pos hs', if_pos (by omega), if_pos (hmem.mpr (Or.inr hs'.symm)), hs']
        rfl
      · rw [if_neg hs', ← getD_eq_getElem?_getD, hxs s hs]
        by_cases hin : s ∈ order.take i
        · rw [if_pos hin, if_pos (hmem.mpr (Or.inl hin))]
        · rw [if_neg hin, if_neg fun h => (hmem.mp h).elim hin fun h => hs' h.symm]
  obtain ⟨⟨cells, b⟩, hdone, xs, rfl, hlen, hxs, hb⟩ := returns_iff.mp hloop
  rw [drop_of_length_le (length_take_le _ _)] at hb
  refine ⟨b, ?_, hb⟩
  rw [hdone]
  have heq : xs = cl := by
    refine ext_getElem (by omega) fun s h1 h2 => ?_
    have hs := hxs s (by omega)
    rw [getD_eq_getElem?_getD, getElem?_eq_getElem h1] at hs
    have hcl : cl.getD s 0 = cl[s] := by rw [getD_eq_getElem?_getD, getElem?_eq_getElem h2]; rfl
    change xs[s] = _ at hs
    rw [hs, hcl]
    by_cases hin : s ∈ order.take n
    · rw [if_pos hin]
    · have hall : ∀ k < 19, k ∈ order := by decide
      have hdrop : s ∈ order.drop n := by
        have := hall s (by omega)
        rw [← take_append_drop n order, mem_append] at this
        exact this.resolve_left hin
      rw [if_neg hin, ← hcl, hzero s hdrop]
  rw [heq]

variable {xs : List Nat}

theorem readLengthSymbol_run {a : Cells Nat} {total : Nat} {run : Run} (ha : total ≤ a.length) (hv : run.Valid xs)
    (hroom : (run.expand xs).length ≤ total) (hb : br.Ahead data (run.extra ++ r)) :
    ∃ br', readLengthSymbol total run.symbol (a.fill xs) xs.length br = .done (filled a (run.expand xs), br') ∧
      br'.Ahead data r := by
  -- a length that is repeated `n` times, of which the stream says `n - base`
  have hrep : ∀ value w base n, base ≤ n → n - base < 2 ^ w → xs.length + n ≤ total →
      br.Ahead data (lsbBits w (n - base) ++ r) → ∃ br', br.getBits w = .done (n - base, br') ∧ br'.Ahead data r ∧
        repeatLength value total (n - base + base) (a.fill xs, xs.length) =
          .done (filled a (xs ++ List.replicate n value)) := by
    intro value w base n hbase hlt hn hb
    obtain ⟨br', hget, hb'⟩ := hb.getBits hlt
    refine ⟨br', hget, hb', ?_⟩
    rw [Nat.sub_add_cancel hbase, show (a.fill xs, xs.length) = filled a xs from rfl, repeatLength_eq ha n (by omega),
      min_eq_left (by omega)]
  cases run with
  | length l =>
    have hl : l < 16 := lt_succ_of_le hv
    rw [show (Run.expand xs (.length l)).length = xs.length + 1 by simp [Run.expand]] at hroom
    refine ⟨br, ?_, hb⟩
    unfold readLengthSymbol
    rw [if_pos (show (Run.length l).symbol < 16 from hl), write_fill _ (by omega), done_bind]
    simp [filled, Run.expand, Run.symbol]
  | again n =>
    obtain ⟨hne, h3, h6⟩ := hv
    have hpos : xs.length - 1 < xs.length := by
      have := length_pos_iff.mpr hne
      omega
    have hlast : xs.get ⟨xs.length - 1, hpos⟩ = xs.getLastD 0 := by
      rw [getLastD_eq_getLast?, getLast?_eq_getElem?, getElem?_eq_getElem hpos]
      rfl
    rw [show (Run.expand xs (.again n)).length = xs.length + n by simp [Run.expand]] at hroom
    obtain ⟨br', hget, hb', heq⟩ := hrep (xs.getLastD 0) 2 3 n h3 (by omega) hroom hb
    refine ⟨br', ?_, hb'⟩
    rw [readLengthSymbol, if_neg (by simp [Run.symbol]), if_pos (by rfl), if_neg (by omega), hget, done_bind]
    simp only
    rw [read_fill hpos, done_bind, hlast, heq, done_bind]
    rfl
  | zeros n =>
    rw [show (Run.expand xs (.zeros n)).length = xs.length + n by simp [Run.expand]] at hroom
    obtain ⟨br', hget, hb', heq⟩ := hrep 0 3 3 n hv.1 (by have := hv.2; omega) hroom hb
    refine ⟨br', ?_, hb'⟩
    rw [readLengthSymbol, if_neg (by simp [Run.symbol]), if_neg (by simp [Run.symbol]), if_pos (by rfl), hget,
      done_bind]
    simp only [heq, done_bind]
    rfl
  | manyZeros n =>
    rw [show (Run.expand xs (.manyZeros n)).length = xs.length + n by simp [Run.expand]] at hroom
    obtain ⟨br', hget, hb', heq⟩ := hrep 0 7 11 n hv.1 (by have := hv.2; omega) hroom hb
    refine ⟨br', ?_, hb'⟩
    rw [readLengthSymbol, if_neg (by simp [Run.symbol]), if_neg (by simp [Run.symbol]), if_neg (by simp [Run.symbol]),
      hget, done_bind]
    simp only [heq, done_bind]
    rfl

theorem Run.length_lt {run : Run} (hv : run.Valid xs) : xs.length < (run.expand xs).length := by
  cases run with
  | length l => simp [Run.expand]
  | again n => simp only [Run.expand, length_append, length_replicate]; have := hv.2.1; omega
  | zeros n => simp only [Run.expand, length_append, length_replicate]; have := hv.1; omega
  | manyZeros n => simp only [Run.expand, length_append, length_replicate]; have := hv.1; omega

theorem expandRuns_length_le {runs : List Run} (hv : RunsValid cl xs runs) :
    xs.length ≤ (runs.foldl Run.expand xs).length := by
  induction runs generalizing xs with
  | nil => exact le_refl _
  | cons run runs ih => exact (le_of_lt (Run.length_lt hv.1.1)).trans (ih hv.2)

theorem readLengths_runs {h : HuffmanTable} (hh : h.Represents cl) (hle : ∀ l ∈ cl, l ≤ 15) (hk : Kraft 15 cl)
    {a : Cells Nat} {total : Nat} (ha : total ≤ a.length) {runs : List Run} (hv : RunsValid cl xs runs)
    (htotal : (runs.foldl Run.expand xs).length = total)
    (hb : br.Ahead data ((runs.flatMap fun run => codeword cl run.symbol ++ run.extra) ++ r)) {fuel : Nat}
    (hfuel : total - xs.length < fuel) :
    ∃ br', readLengths h total fuel (filled a xs, br) = .done (filled a (runs.foldl Run.expand xs), br') ∧
      br'.Ahead data r := by
  obtain ⟨fuel, rfl⟩ : ∃ k, fuel = k + 1 := ⟨fuel - 1, by omega⟩
  induction runs generalizing br xs fuel with
  | nil =>
    refine ⟨br, ?_, hb⟩
    show (if xs.length < total then _ else _) = _
    rw [if_neg (by rw [← htotal]; exact lt_irrefl _)]
    rfl
  | cons run runs ih =>
    obtain ⟨⟨hrun, hcode⟩, hruns⟩ := hv
    have hgrow := Run.length_lt hrun
    have hgrow' := expandRuns_length_le hruns
    rw [foldl_cons] at htotal
    rw [flatMap_cons, append_assoc, append_assoc] at hb
    obtain ⟨br₁, hdec, h₁⟩ := huffmanDecode_codeword hh hle hk hcode hb
    obtain ⟨br₂, hsym, h₂⟩ := readLengthSymbol_run ha hrun (by omega) h₁
    obtain ⟨fuel, rfl⟩ : ∃ k, fuel = k + 1 := ⟨fuel - 1, by omega⟩
    obtain ⟨br₃, hrec, h₃⟩ := ih hruns htotal h₂ fuel (by omega)
    refine ⟨br₃, ?_, h₃⟩
    rw [readLengths, if_pos (show (filled a xs).2 < total by show xs.length < total; omega)]
    have hround : readLength h total (filled a xs, br) = .done (filled a (run.expand xs), br₂) := by
      unfold readLength
      rw [hdec, done_bind]
      show (readLengthSymbol total run.symbol (a.fill xs) xs.length br₁ >>= _) = _
      rw [hsym, done_bind, if_neg (by simp [h₂.error])]
      rfl
    rw [hround, done_bind]
    exact hrec

theorem readDynamicTables_header {hd : Rfc1951.Header} (hv : hd.Valid) (hb : br.Ahead data (hd.bits ++ r)) :
    ∃ lit dist br', readDynamicTables br = .done ((lit, dist), br') ∧ TablesOf lit dist hd.lit hd.dist ∧
      br'.Ahead data r := by
  obtain ⟨hlit257, hlit286⟩ := hv.lit_length
  obtain ⟨hdist1, hdist32⟩ := hv.dist_length
  obtain ⟨hcl4, hcl19⟩ := hv.clCount_le
  have hcl15 : ∀ l ∈ hd.cl, l ≤ 15 := fun l hl => (hv.cl_le l hl).trans (by decide)
  unfold Header.bits at hb
  simp only [append_assoc] at hb
  obtain ⟨br₁, hget₁, h₁⟩ := hb.getBits (show hd.lit.length - 257 < 2 ^ 5 by omega)
  obtain ⟨br₂, hget₂, h₂⟩ := h₁.getBits (show hd.dist.length - 1 < 2 ^ 5 by omega)
  obtain ⟨br₃, hget₃, h₃⟩ := h₂.getBits (show hd.clCount - 4 < 2 ^ 4 by omega)
  obtain ⟨br₄, hget₄, h₄⟩ := readClLengths_eq hv.cl_length hv.cl_le hcl19 hv.clRest h₃
  obtain ⟨cl, hbuild, hrep⟩ := returns_iff.mp (huffmanBuild_fixed hcl15 hv.cl_length (by decide))
  have htotal : (hd.runs.foldl Run.expand []).length = hd.lit.length + hd.dist.length := by
    rw [hv.runs_eq, length_append]
  have hroom : hd.lit.length + hd.dist.length ≤
      (unset (maxLitSymbols + maxDistSymbols) : Cells Nat).length := by
    rw [length_unset]
    show _ ≤ 288 + 30
    omega
  obtain ⟨br₅, hget₅, h₅⟩ := readLengths_runs hrep hcl15 (hv.cl_kraft.widen hv.cl_le (by decide)) hroom
    hv.runs_valid htotal h₄ (lt_succ_of_le (sub_le _ _))
  rw [hv.runs_eq] at hget₅
  have hstarts := starts_fill (unset (maxLitSymbols + maxDistSymbols)) (hd.lit ++ hd.dist)
  obtain ⟨lit, hlit, hlrep⟩ := returns_iff.mp (@huffmanBuild_returns _ hd.lit
    (by have := hstarts.take hd.lit.length; rwa [take_left] at this) hv.codes.lit_le
    (by show hd.lit.length ≤ 288; omega))
  obtain ⟨dist, hdist, hdrep⟩ := returns_iff.mp (@huffmanBuild_returns _ hd.dist
    (by have := hstarts.drop hd.lit.length; rwa [drop_left] at this) hv.codes.dist_le
    (by show hd.dist.length ≤ 288; omega))
  refine ⟨lit, dist, br₅, ?_, ⟨hlrep, hdrep, hv.codes⟩, h₅⟩
  unfold readDynamicTables
  rw [hget₁, done_bind]
  simp only [hget₂, hget₃, done_bind, h₃.error]
  rw [if_neg (by simp), show hd.clCount - 4 + 4 = hd.clCount by omega, hget₄, done_bind]
  simp only [h₄.error]
  rw [if_neg (by simp), show huffmanBuild (ofList hd.cl) maxClSymbols = .done cl from hbuild, done_bind,
    show hd.lit.length - 257 + 257 = hd.lit.length by omega, show hd.dist.length - 1 + 1 = hd.dist.length by omega,
    if_neg (show ¬ hd.lit.length + hd.dist.length > maxLitSymbols + maxDistSymbols by
      show ¬ hd.lit.length + hd.dist.length > 288 + 30; omega)]
  change (readLengths cl (hd.lit.length + hd.dist.length) (hd.lit.length + hd.dist.length + 1)
    (filled (unset (maxLitSymbols + maxDistSymbols)) [], br₄) >>= _) = _
  rw [hget₅, done_bind]
  change (huffmanBuild (fill (unset (maxLitSymbols + maxDistSymbols)) (hd.lit ++ hd.dist))
      hd.lit.length >>= fun lit => huffmanBuild (drop hd.lit.length
      (fill (unset (maxLitSymbols + maxDistSymbols)) (hd.lit ++ hd.dist))) hd.dist.length >>= fun dist =>
        .done ((lit, dist), br₅)) = _
  rw [hlit, done_bind, hdist, done_bind]

end Header

/-! ## Stored blocks -/

section Stored

variable {br : BitReader} {dst : Cells U8} {out : List U8}

theorem srcByte_of_getElem? {data : List U8} {i : Nat} {b : U8} (h : data[i]? = some b) : srcByte data i = .done b := by
  unfold srcByte
  rw [h]

theorem word_of_bytes (h : n < 2 ^ 16) : (BitVec.ofNat 8 n).toNat ||| ((BitVec.ofNat 8 (n / 256)).toNat <<< 8) = n := by
  rw [Nat.or_comm, ← Nat.shiftLeft_add_eq_or_of_lt (BitVec.isLt _), Nat.shiftLeft_eq, BitVec.toNat_ofNat, BitVec.toNat_ofNat]
  omega

theorem storedLength_eq (hsrc : br.data.length < 2 ^ 31) (hn : n < 2 ^ 16) {rest : List U8}
    (hdata : br.data.drop br.bytePos = BitVec.ofNat 8 n :: BitVec.ofNat 8 (n / 256) ::
      BitVec.ofNat 8 (2 ^ 16 - 1 - n) :: BitVec.ofNat 8 ((2 ^ 16 - 1 - n) / 256) :: rest) : storedLength br = .done n := by
  have hget : ∀ k, br.data[br.bytePos + k]? = (br.data.drop br.bytePos)[k]? := fun k => by rw [getElem?_drop]
  have hlen : br.bytePos + 4 ≤ br.data.length := by
    have := congrArg List.length hdata
    rw [length_drop] at this
    simp only [length_cons] at this
    omega
  have hmask : (2 ^ 32 - 1 - n) &&& 0xFFFF = 2 ^ 16 - 1 - n := by
    rw [show (0xFFFF : Nat) = 2 ^ 16 - 1 from rfl, and_two_pow_sub_one_eq_mod]
    omega
  unfold storedLength
  rw [if_neg (by rw [u32_eq (by omega)]; omega),
    srcByte_of_getElem? (by rw [← add_zero br.bytePos, hget, hdata]; rfl), done_bind,
    srcByte_of_getElem? (by rw [hget, hdata]; rfl), done_bind,
    srcByte_of_getElem? (by rw [hget, hdata]; rfl), done_bind,
    srcByte_of_getElem? (by rw [hget, hdata]; rfl), done_bind]
  simp only
  rw [word_of_bytes hn, word_of_bytes (by omega), hmask, if_neg (by simp)]
  rfl

variable {bytes : List U8} {pad : List Bool}

section Block

variable (hsrc : data.length < 2 ^ 31) (hdst : dst.length < 2 ^ 32) (hn : bytes.length < 2 ^ 16)
  (hpad : pad.length < 8) (hr : r.length % 8 = 0) (hb : br.Ahead data (pad ++ (lsbBits 16 bytes.length ++
    (lsbBits 16 (2 ^ 16 - 1 - bytes.length) ++ (bitsOf bytes ++ r)))))

include hsrc hn hpad hr hb

/-- What lies ahead when a stored block does, and the reader has moved to the next byte. -/
theorem stored_ahead : br.align.data = data ∧ br.align.error = false ∧ storedLength br.align = .done bytes.length ∧
    br.align.bytePos + 4 + bytes.length ≤ data.length ∧
      ∃ zs, data.drop (br.align.bytePos + 4) = bytes ++ zs ∧ r = bitsOf zs := by
  have halign := br.align_reads
  have hlen : br.rest.length % 8 = pad.length := by
    rw [hb.rest]
    simp only [length_append, length_lsbBits, length_bitsOf]
    omega
  rw [hlen] at halign
  obtain ⟨rfl, herr, hrest⟩ := halign.ahead hb
  -- the reader is at the start of a byte, so what is ahead are bytes
  have hbytes : br.align.rest = bitsOf (br.align.data.drop br.align.bytePos) := by
    unfold BitReader.rest BitReader.pos
    rw [br.align_bitPos, add_zero, bitsOf_drop]
  rw [hbytes, lsbBits_sixteen, lsbBits_sixteen, ← append_assoc, ← append_assoc, ← bitsOf_append, ← bitsOf_append] at hrest
  obtain ⟨zs, hdata, hzs⟩ := bitsOf_eq_append hrest
  refine ⟨rfl, herr, storedLength_eq hsrc hn hdata, ?_, zs, by rw [← drop_drop, hdata]; rfl, hzs⟩
  have := congrArg List.length hdata
  rw [length_drop] at this
  simp only [length_append, length_cons, length_nil] at this
  omega

theorem inflateBlockStored_fits (hfits : ¬ u32 (out.length + bytes.length) > (dst.fill out).length) :
    inflateBlockStored (Inflater.at br dst out) =
      (loop (storedByte br.align.data (br.align.bytePos + 4) out.length) (List.range bytes.length)
        (dst.fill out) >>= fun d => br.align.seek (br.align.bytePos + 4 + bytes.length) >>= fun b =>
          .done (Inflater.mk b d (out.length + bytes.length))) := by
  obtain ⟨rfl, -, hlength, hfit, -⟩ := stored_ahead hsrc hn hpad hr hb
  unfold inflateBlockStored
  rw [Inflater.at_br]
  simp only [hlength, done_bind]
  rw [if_neg (by rw [u32_eq (by omega)]; omega)]
  exact if_neg hfits

include hdst

theorem inflateBlockStored_eq (hroom : (out ++ bytes).length ≤ dst.length) :
    ∃ br', inflateBlockStored (Inflater.at br dst out) = .done (Inflater.at br' dst (out ++ bytes)) ∧ br'.Ahead data r := by
  rw [length_append] at hroom
  rw [inflateBlockStored_fits hsrc hn hpad hr hb (by rw [u32_eq (by omega), length_fill (by omega)]; omega)]
  obtain ⟨rfl, herr, -, hfit, zs, hzs, rfl⟩ := stored_ahead hsrc hn hpad hr hb
  rw [storedBytes_eq hfit hroom, done_bind, hzs, take_left]
  unfold BitReader.seek
  rw [dif_pos hfit, done_bind]
  refine ⟨_, congrArg Exec.done (Inflater.at_append rfl), rfl, herr, ?_⟩
  show drop (8 * (br.align.bytePos + 4 + bytes.length)) (bitsOf br.align.data) = _
  rw [bitsOf_drop, ← drop_drop, hzs, drop_left]

/-- A stored block behind a full buffer whose end, as a `u32`, is no longer behind the buffer: the block is taken to
fit, and its first byte is written outside. -/
theorem inflateBlockStored_wraps (hfull : out.length = dst.length) (hwrap : 2 ^ 32 ≤ dst.length + bytes.length) :
    inflateBlockStored (Inflater.at br dst out) = .undefined := by
  obtain ⟨rfl, -, -, hfit, -⟩ := stored_ahead hsrc hn hpad hr hb
  have hlen : (dst.fill out).length = dst.length := length_fill (by omega)
  have hfirst : storedByte br.align.data (br.align.bytePos + 4) out.length 0 (dst.fill out) = .undefined := by
    unfold storedByte
    rw [srcByte_eq (by omega), done_bind]
    exact if_neg (by rw [hlen]; omega)
  rw [inflateBlockStored_fits hsrc hn hpad hr hb (by unfold u32; omega),
    show bytes.length = (bytes.length - 1) + 1 by omega, range_succ_eq_map, loop, hfirst]
  rfl

end Block

end Stored

/-! ## Fixed codes -/

section Fixed

theorem fixedLit_eq : fixedLit = fixedLitLengths := by decide +kernel

/-- The codes of one length are the numbers of the symbols. -/
theorem codeword_replicate {s : Nat} (h : s < n) : codeword (List.replicate n 5) s = msbBits 5 s := by
  have hget : (List.replicate n 5).getD s 0 = 5 := by
    rw [getD_eq_getElem?_getD, getElem?_replicate, if_pos h]
    rfl
  have hcount : ∀ l, l ≠ 5 → codesOf (List.replicate n 5) l = 0 := by
    intro l hl
    unfold codesOf
    split
    · rfl
    · rw [count_replicate, if_neg (by simpa using Ne.symm hl)]
  have hfirst : firstCode (List.replicate n 5) 5 = 0 := by
    simp [firstCode, hcount]
  unfold codeword codeOf rank
  rw [hget, hfirst, take_replicate, count_replicate_self, min_eq_left (le_of_lt h), zero_add]

theorem fixed_codes : CodesValid fixedLit fixedDistLengths where
  lit_le := by
    rw [fixedLit_eq]
    exact fixedLitLengths_le
  dist_le := fixedDistLengths_le
  lit_kraft := by decide +kernel
  dist_kraft := by decide +kernel
  ends := by decide +kernel

/-- The two distance codes that have no use make no difference. -/
theorem item_fixed {out : List U8} {item : Item} (hv : item.Valid fixedLit fixedDist out) :
    item.Valid fixedLit fixedDistLengths out ∧ item.bits fixedLit fixedDistLengths = item.bits fixedLit fixedDist := by
  cases item with
  | literal b => exact ⟨hv, rfl⟩
  | copy length distance =>
    obtain ⟨hl, hd, hback, hlit, -⟩ := hv
    obtain ⟨hd30, -⟩ := distCode_spec hd.1 hd.2
    refine ⟨⟨hl, hd, hback, hlit, ?_⟩, ?_⟩
    · rw [getD_eq_getElem?_getD, fixedDistLengths, getElem?_replicate,
        if_pos (show distCode distance < maxDistSymbols from hd30)]
      decide
    · simp only [Item.bits, fixedDistLengths, fixedDist]
      rw [codeword_replicate (show distCode distance < maxDistSymbols from hd30), codeword_replicate (by omega)]

theorem items_fixed {out : List U8} (hv : ItemsValid fixedLit fixedDist out items) :
    ItemsValid fixedLit fixedDistLengths out items ∧
      itemsBits fixedLit fixedDistLengths items = itemsBits fixedLit fixedDist items := by
  induction items generalizing out with
  | nil => exact ⟨trivial, rfl⟩
  | cons item items ih =>
    obtain ⟨hitem, hbits⟩ := item_fixed hv.1
    obtain ⟨hitems, hbits'⟩ := ih hv.2
    refine ⟨⟨hitem, hitems⟩, ?_⟩
    unfold itemsBits at hbits' ⊢
    rw [flatMap_cons, flatMap_cons, hbits, append_assoc, append_assoc, hbits']

end Fixed

/-! ## Streams -/

section Blocks

variable {br : BitReader} {dst : Cells U8} {out : List U8}

def blockType : Block → Nat
  | .stored _ _ => 0
  | .fixed _ => 1
  | .dynamic _ _ => 2

/-- The bits of a block after its type. -/
def blockBody : Block → List Bool
  | .stored pad bytes =>
    pad ++ (lsbBits 16 bytes.length ++ (lsbBits 16 (2 ^ 16 - 1 - bytes.length) ++ bitsOf bytes))
  | .fixed items => itemsBits fixedLit fixedDist items
  | .dynamic header items => header.bits ++ itemsBits header.lit header.dist items

theorem Block.bits_eq (final : Bool) (b : Block) : b.bits final = final :: (lsbBits 2 (blockType b) ++ blockBody b) := by
  cases b <;> simp only [Block.bits, blockType, blockBody, append_assoc, cons_append]

theorem Block.length_bits (final : Bool) (b : Block) : (b.bits final).length = 3 + (blockBody b).length := by
  rw [Block.bits_eq, length_cons, length_append, length_lsbBits]
  omega

theorem length_le_itemsBits {L D : List Nat} (hv : ItemsValid L D out items) :
    items.length ≤ (itemsBits L D items).length := by
  induction items generalizing out with
  | nil => exact zero_le _
  | cons item items ih =>
    have hone : 1 ≤ (item.bits L D).length := by
      cases item with
      | literal b =>
        have : L.getD b.toNat 0 ≠ 0 := hv.1
        simp only [Item.bits, codeword, length_msbBits]
        omega
      | copy length distance =>
        obtain ⟨-, -, -, hlit, -⟩ := hv.1
        simp only [Item.bits, codeword, length_msbBits, length_append]
        omega
    have := ih hv.2
    unfold itemsBits at this ⊢
    simp only [flatMap_cons, length_append, length_cons] at this ⊢
    omega

/-- The elements of a block fit the rounds that are granted. -/
theorem items_fuel {L D : List Nat} (hv : ItemsValid L D out items) (hb : br.Ahead data (itemsBits L D items ++ r)) :
    items.length < 8 * br.data.length + 1 := by
  have h1 := length_le_itemsBits hv
  have h2 := hb.pos_add
  rw [length_append, ← hb.data] at h2
  omega

theorem inflateBlock_block (hsrc : data.length < 2 ^ 31) (hdst : dst.length < 2 ^ 32) {offset : Nat} {b : Block}
    (hv : b.Valid offset out) (hpos : br.pos = offset + 3) (hb : br.Ahead data (blockBody b ++ r))
    (hroom : (b.expand out).length ≤ dst.length) :
    ∃ br', inflateBlock (blockType b) (Inflater.at br dst out) = .done (Inflater.at br' dst (b.expand out)) ∧
      br'.Ahead data r := by
  cases b with
  | stored pad bytes =>
    obtain ⟨hpad8, hpad, hn⟩ := hv
    simp only [blockBody, append_assoc] at hb
    have hlen := hb.pos_add
    simp only [length_append, length_lsbBits, length_bitsOf] at hlen
    exact inflateBlockStored_eq hsrc hdst hn hpad8 (by omega) hb hroom
  | fixed items =>
    obtain ⟨hitems, hbits⟩ := items_fixed hv
    obtain ⟨⟨lit, dist⟩, htables, hlit, hdist⟩ := returns_iff.mp buildFixedTables_returns
    have ht : TablesOf lit dist fixedLit fixedDistLengths := ⟨by rw [fixedLit_eq]; exact hlit, hdist, fixed_codes⟩
    change br.Ahead data (itemsBits fixedLit fixedDist items ++ r) at hb
    rw [← hbits] at hb
    obtain ⟨br', heq, h'⟩ := inflateBlockHuffman_items ht hdst hitems hb hroom (items_fuel hitems hb)
    refine ⟨br', ?_, h'⟩
    unfold inflateBlock blockTables
    rw [if_neg (by simp [blockType]), if_pos (by simp [blockType]), if_pos (by simp [blockType]), htables]
    exact heq
  | dynamic header items =>
    obtain ⟨hhead, hitems⟩ := hv
    simp only [blockBody, append_assoc] at hb
    obtain ⟨lit, dist, br₁, htables, ht, h₁⟩ := readDynamicTables_header hhead hb
    obtain ⟨br', heq, h'⟩ := inflateBlockHuffman_items ht hdst hitems h₁ hroom (items_fuel hitems h₁)
    refine ⟨br', ?_, h'⟩
    unfold inflateBlock blockTables
    rw [if_neg (by simp [blockType]), if_pos (by simp [blockType]), if_neg (by simp [blockType]), Inflater.at_br,
      htables, done_bind]
    exact heq

theorem inflateBlocks_head {b : Block} {final : Bool} (hb : br.Ahead data (b.bits final ++ r)) (dst : Cells U8)
    (out : List U8) (fuel : Nat) : ∃ br', inflateBlocks (fuel + 1) (Inflater.at br dst out) =
        (inflateBlock (blockType b) (Inflater.at br' dst out) >>= fun s =>
          if final = true then .done s else inflateBlocks fuel s) ∧ br'.Ahead data (blockBody b ++ r) := by
  rw [Block.bits_eq, cons_append, append_assoc] at hb
  obtain ⟨br₁, hget₁, h₁⟩ := hb.getBit
  obtain ⟨br₂, hget₂, h₂⟩ := h₁.getBits (by cases b <;> simp [blockType])
  refine ⟨br₂, ?_, h₂⟩
  rw [inflateBlocks, if_neg (by rw [Inflater.at_br, hb.error]; simp), Inflater.at_br, hget₁, done_bind]
  simp only [hget₂, done_bind, h₂.error]
  cases final <;> rfl

theorem inflateBlocks_step (hsrc : data.length < 2 ^ 31) (hdst : dst.length < 2 ^ 32) {b : Block} {final : Bool}
    (hv : b.Valid br.pos out) (hb : br.Ahead data (b.bits final ++ r)) (hroom : (b.expand out).length ≤ dst.length)
    (fuel : Nat) : ∃ br', inflateBlocks (fuel + 1) (Inflater.at br dst out) =
        (if final = true then .done (Inflater.at br' dst (b.expand out))
          else inflateBlocks fuel (Inflater.at br' dst (b.expand out))) ∧ br'.Ahead data r := by
  obtain ⟨br₁, hhead, h₁⟩ := inflateBlocks_head hb dst out fuel
  have hpos : br₁.pos = br.pos + 3 := by
    have h2 := hb.pos_add
    have h3 := h₁.pos_add
    rw [length_append, Block.length_bits] at h2
    rw [length_append] at h3
    omega
  obtain ⟨br₂, heq, h₂⟩ := inflateBlock_block hsrc hdst hv hpos h₁ hroom
  exact ⟨br₂, by rw [hhead, heq, done_bind], h₂⟩

theorem expandBlocks_length_le (out : List U8) (blocks : List Block) : out.length ≤ (expandBlocks out blocks).length := by
  induction blocks generalizing out with
  | nil => exact le_refl _
  | cons b blocks ih =>
    refine le_trans ?_ (ih (b.expand out))
    cases b with
    | stored pad bytes => simp [Block.expand]
    | fixed items => exact expandItems_length_le out items
    | dynamic header items => exact expandItems_length_le out items

theorem inflateBlocks_stream (hdst : dst.length < 2 ^ 32) {blocks : List Block} (hne : blocks ≠ [])
    (hsrc : data.length < 2 ^ 31) (hv : BlocksValid br.pos out blocks) (hb : br.Ahead data (streamBits blocks ++ r))
    (hroom : (expandBlocks out blocks).length ≤ dst.length) {fuel : Nat} (hfuel : blocks.length ≤ fuel) :
    ∃ br', inflateBlocks fuel (Inflater.at br dst out) = .done (Inflater.at br' dst (expandBlocks out blocks)) := by
  induction blocks generalizing br out fuel with
  | nil => exact absurd rfl hne
  | cons b blocks ih =>
    obtain ⟨hvalid, hblocks⟩ := hv
    have hgrow := expandBlocks_length_le (b.expand out) blocks
    have hroom' : (b.expand out).length ≤ dst.length := hgrow.trans hroom
    rw [length_cons] at hfuel
    obtain ⟨fuel, rfl⟩ : ∃ k, fuel = k + 1 := ⟨fuel - 1, by omega⟩
    cases blocks with
    | nil =>
      obtain ⟨br', heq, -⟩ := inflateBlocks_step hsrc hdst hvalid hb hroom' fuel
      exact ⟨br', heq⟩
    | cons b' blocks =>
      rw [show streamBits (b :: b' :: blocks) = b.bits false ++ streamBits (b' :: blocks) from rfl, append_assoc] at hb
      obtain ⟨br₁, heq, h₁⟩ := inflateBlocks_step hsrc hdst hvalid hb hroom' fuel
      have hpos : br₁.pos = br.pos + (b.bits false).length := by
        have h2 := hb.pos_add
        have h3 := h₁.pos_add
        rw [length_append] at h2
        omega
      obtain ⟨br', heq'⟩ := ih (by simp) (by rw [hpos]; exact hblocks) h₁ hroom (le_of_succ_le_succ hfuel)
      refine ⟨br', ?_⟩
      rw [heq, if_neg (by simp)]
      exact heq'

theorem length_le_streamBits (blocks : List Block) : blocks.length ≤ (streamBits blocks).length := by
  induction blocks with
  | nil => exact zero_le _
  | cons b blocks ih =>
    cases blocks with
    | nil =>
      rw [show streamBits [b] = b.bits true from rfl, Block.length_bits, length_singleton]
      omega
    | cons b' blocks =>
      rw [show streamBits (b :: b' :: blocks) = b.bits false ++ streamBits (b' :: blocks) from rfl,
        length_append, Block.length_bits]
      simp only [length_cons] at ih ⊢
      omega

end Blocks

/-- `inflate` of a stream, with other bits after it. -/
theorem inflate_stream {s : Stream} {src : List U8} {dst : Cells U8} (hsrc : src.length < 2 ^ 31)
    (hbits : bitsOf src = s.bits ++ r) (hroom : s.expand.length ≤ dst.length) (hdst : dst.length < 2 ^ 32) :
    inflate src dst = .done (dst.fill s.expand, s.expand.length) := by
  have hfuel : s.blocks.length ≤ 8 * src.length + 1 := by
    have h1 := length_le_streamBits s.blocks
    have h2 := congrArg List.length hbits
    rw [length_bitsOf, length_append] at h2
    unfold Stream.bits at h2
    omega
  have hstart : (BitReader.start src).Ahead src (streamBits s.blocks ++ r) := ⟨rfl, rfl, hbits⟩
  obtain ⟨br', heq⟩ := @inflateBlocks_stream _ _ (BitReader.start src) dst [] hdst _ s.ne_nil hsrc s.valid hstart hroom _ hfuel
  change (inflateBlocks (8 * src.length + 1) (Inflater.at (BitReader.start src) dst []) >>= _) = _
  rw [heq, done_bind]
  rfl

/-- **`inflate` inverts the format**: of every stream that is written to fewer than `2 ^ 31` bytes it
writes exactly what the stream stands for, and `*out_len` is its length. -/
theorem inflate_correct (s : Stream) (src : List U8) (hwritten : s.WrittenTo src) (hsrc : src.length < 2 ^ 31)
    (dst : Cells U8) (hroom : s.expand.length ≤ dst.length) (hdst : dst.length < 2 ^ 31) :
    inflate src dst = .done (dst.fill s.expand, s.expand.length) := by
  obtain ⟨pad, -, hbits⟩ := hwritten
  exact inflate_stream hsrc hbits hroom (by omega)

/-- A fixed-Huffman block of eight equal letters: a literal and a copy that overlaps itself. -/
def eightLetters : Stream where
  blocks := [.fixed [.literal 0x61, .copy 7 1]]
  ne_nil := by simp
  valid := by
    have hlit : Item.Valid fixedLit fixedDist [] (.literal 0x61) :=
      show fixedLit.getD 97 0 ≠ 0 by decide +kernel
    have hcopy : Item.Valid fixedLit fixedDist [0x61] (.copy 7 1) :=
      ⟨by decide, by decide, by decide, by decide +kernel, by decide +kernel⟩
    exact ⟨⟨hlit, hcopy, trivial⟩, trivial⟩

theorem inflate_correct_eightLetters : (eightLetters.WrittenTo [0x4b, 0x84, 0x02, 0x00] ∧
        eightLetters.expand.length ≤ (unset 9 : Cells U8).length) ∧ inflate [0x4b, 0x84, 0x02, 0x00] (unset 9) =
        .done ((unset 9).fill (List.replicate 8 0x61), 8) :=
  ⟨⟨⟨[false, false], by decide, by decide +kernel⟩, by decide +kernel⟩,
    inflate_correct eightLetters [0x4b, 0x84, 0x02, 0x00] ⟨[false, false], by decide, by decide +kernel⟩ (by decide)
      (unset 9) (by decide +kernel) (by decide)⟩

end MinicOs
