import MinicOs.Gfx.Png
import MinicOs.Gfx.PngFormat
import MinicOs.Inflate.Safety

/-!
# The rows of a PNG picture

`adler32_of`, `defilter` and the loops that unpack the pixels, on the rows of a picture.
-/

namespace MinicOs

open PngFormat List Exec Cells Nat

/-! ## The checksum -/

theorem adlerSum_concat (xs : List U8) (b : U8) : adlerSum (xs ++ [b]) = adlerSum xs + b.toNat := by
  unfold adlerSum
  rw [map_append, List.sum_append]
  simp only [map_cons, map_nil, sum_cons, sum_nil]
  omega

/-- The two sums after `n` bytes. -/
def adlerSums (xs : List U8) (n : Nat) : Nat × Nat :=
  (adlerSum (xs.take n) % 65521, ((List.range n).map fun i => adlerSum (xs.take (i + 1))).sum % 65521)

theorem adlerByte_eq {xs : List U8} {n : Nat} (h : n < xs.length) :
    adlerByte (ofList xs) n (adlerSums xs n) = .done (adlerSums xs (n + 1)) := by
  have htake : xs.take (n + 1) = xs.take n ++ [xs.get ⟨n, h⟩] := take_succ_eq_append_getElem h
  have hsum : (adlerSum (xs.take n) % 65521 + (xs.get ⟨n, h⟩).toNat) % 65521 = adlerSum (xs.take (n + 1)) % 65521 := by
    rw [htake, adlerSum_concat, mod_add_mod]
  unfold adlerByte
  rw [read_ofList (getElem?_eq_getElem h), done_bind]
  simp only [adlerSums]
  rw [range_succ, map_append, List.sum_append, map_singleton, sum_singleton, add_mod _ (adlerSum _), ← hsum]
  rfl

/-- **`adler32_of`** is the checksum of the format. -/
theorem adler32Of_eq (xs : List U8) : adler32Of (Cells.ofList xs) xs.length = .done (adler32 xs) := by
  have hloop := count_eq (adlerSums xs) fun n hn => adlerByte_eq hn
  have hlt : adlerSum xs % 65521 < 2 ^ 16 := lt_of_lt_of_le (mod_lt _ (by omega)) (by omega)
  change (Exec.count xs.length (adlerByte (ofList xs)) (adlerSums xs 0) >>= fun s => _) = _
  rw [hloop, done_bind]
  simp only [adlerSums, take_length, adler32]
  rw [← Nat.shiftLeft_add_eq_or_of_lt hlt, Nat.shiftLeft_eq]
  rfl

/-! ## Filters -/

theorem paethPredictor_eq (a b c : U8) : paethPredictor a b c = Filter.nearest a b c := by
  have habs : ∀ x : Int, (if x < 0 then -x else x) = (x.natAbs : Int) := fun x => by split <;> omega
  unfold paethPredictor Filter.nearest
  simp only [habs, cast_le]

theorem recon_code (f : Filter) (v a b c : U8) : recon f.code (v - f.predict a b c) a b c = .done v := by
  cases f with
  | none => simp [recon, Filter.code, Filter.predict]
  | sub | up | average => exact congrArg Exec.done (BitVec.sub_add_cancel ..)
  | paeth =>
    rw [Filter.predict, ← paethPredictor_eq]
    exact congrArg Exec.done (BitVec.sub_add_cancel ..)

variable {x y width : Nat}

section Defilter

variable {bpp : Nat} {f : Filter} {above row pre rest : List U8} {upRow : Option Nat}

theorem length_filterRow (f : Filter) (bpp : Nat) (above row : List U8) :
    (filterRow f bpp above row).length = row.length := by
  unfold filterRow
  rw [length_map, length_range]

/-- The buffer when `x` bytes of the row are reconstructed. -/
def halfway (f : Filter) (bpp : Nat) (above row pre rest : List U8) (x : Nat) : List U8 :=
  pre ++ f.code :: (row.take x ++ ((filterRow f bpp above row).drop x ++ rest))

/-- The row above: none, or one that stands in the buffer at `upRow`. -/
def Above (pre : List U8) (stride : Nat) (above : List U8) : Option Nat → Prop
  | none => above = []
  | some up => above.length = stride ∧ ∀ i < stride, pre[up + i]? = above[i]?

theorem getElem?_after (pre xs : List U8) (t : U8) (i : Nat) : (pre ++ t :: xs)[pre.length + 1 + i]? = xs[i]? := by
  rw [getElem?_append_right (by omega), show pre.length + 1 + i - pre.length = i + 1 by omega,
    getElem?_cons_succ]

theorem getD_eq {xs : List U8} {i : Nat} (h : i < xs.length) : xs[i]? = some (xs.getD i 0) := by
  rw [getD_eq_getElem _ _ h, getElem?_eq_getElem h]

theorem take_succ_getD {α : Type*} {l : List α} {n : Nat} (d : α) (h : n < l.length) :
    l.take (n + 1) = l.take n ++ [l.getD n d] := by
  rw [take_succ_eq_append_getElem h, getD_eq_getElem _ _ h]

/-- The byte to the left was reconstructed before. -/
theorem halfway_left (hbpp : 0 < bpp) (hx : x < row.length) :
    leftByte (ofList (halfway f bpp above row pre rest x)) bpp (pre.length + 1) x = .done (leftOf bpp row x) := by
  unfold leftByte leftOf
  by_cases h : bpp ≤ x
  · rw [if_pos h, if_pos h]
    refine read_ofList ?_
    unfold halfway
    rw [getElem?_after, getElem?_append_left (by rw [length_take]; omega),
      getElem?_take_of_lt (by omega), getD_eq (by omega)]
  · rw [if_neg h, if_neg h]

theorem halfway_above {i up : Nat} (hup : Above pre row.length above (some up)) (hi : i < row.length) :
    (ofList (halfway f bpp above row pre rest x)).read (up + i) = .done (above.getD i 0) := by
  obtain ⟨hlen, hget⟩ := hup
  have h : pre[up + i]? = some (above.getD i 0) := (hget i hi).trans (getD_eq (by omega))
  obtain ⟨hlt, -⟩ := List.getElem?_eq_some_iff.mp h
  refine read_ofList ?_
  unfold halfway
  rw [getElem?_append_left hlt, h]

theorem halfway_byte (hx : x < row.length) : (halfway f bpp above row pre rest x)[pre.length + 1 + x]? =
      some (row.getD x 0 - prediction f bpp above row x) := by
  have hlen : (row.take x).length = x := by
    rw [length_take]
    omega
  unfold halfway
  rw [getElem?_after, getElem?_append_right (by omega), hlen, Nat.sub_self,
    getElem?_append_left (by rw [length_drop, length_filterRow]; omega), getElem?_drop, add_zero]
  unfold filterRow
  rw [getElem?_map, getElem?_range hx]
  rfl

theorem halfway_set (hx : x < row.length) : (halfway f bpp above row pre rest x).set (pre.length + 1 + x) (row.getD x 0) =
      halfway f bpp above row pre rest (x + 1) := by
  have hlen : (row.take x).length = x := by
    rw [length_take]
    omega
  unfold halfway
  rw [set_append_right _ _ (by omega), show pre.length + 1 + x - pre.length = x + 1 by omega, set_cons_succ,
    set_append_right _ _ (by omega), hlen, Nat.sub_self, drop_eq_getElem_cons (by rw [length_filterRow]; exact hx),
    cons_append, set_cons_zero, take_succ_getD 0 hx, append_assoc]
  rfl

theorem defilterByte_eq (hbpp : 0 < bpp) (hx : x < row.length) (hup : Above pre row.length above upRow) :
    defilterByte bpp pre.length upRow f.code x (ofList (halfway f bpp above row pre rest x)) =
      .done (ofList (halfway f bpp above row pre rest (x + 1))) := by
  have hlt : pre.length + 1 + x < (halfway f bpp above row pre rest x).length :=
    (List.getElem?_eq_some_iff.mp (halfway_byte hx)).1
  have hwrite : ∀ a b c, prediction f bpp above row x = f.predict a b c →
      (do let v ← recon f.code (row.getD x 0 - prediction f bpp above row x) a b c
          (ofList (halfway f bpp above row pre rest x)).write (pre.length + 1 + x) v) =
        .done (ofList (halfway f bpp above row pre rest (x + 1))) := fun a b c h => by
    rw [h, recon_code, done_bind, write_ofList _ hlt, halfway_set hx]
  unfold defilterByte
  simp only [halfway_left hbpp hx, read_ofList (halfway_byte hx), done_bind]
  cases upRow with
  | none =>
    obtain rfl : above = [] := hup
    exact hwrite _ 0 0 (by simp [prediction, leftOf])
  | some up =>
    have hcorner : leftByte (ofList (halfway f bpp above row pre rest x)) bpp up x =
        .done (leftOf bpp above x) := by
      unfold leftByte leftOf
      by_cases h : bpp ≤ x
      · rw [if_pos h, if_pos h, halfway_above hup (by omega)]
      · rw [if_neg h, if_neg h]
    simp only [upByte, upLeftByte, hcorner, halfway_above hup hx, done_bind]
    exact hwrite _ _ _ rfl

theorem defilterRow_eq (hbpp : 0 < bpp) (hpre : pre.length = y * (1 + row.length))
    (hlt : pre.length + (1 + row.length) < 2 ^ 32)
    (hup : Above pre row.length above (if y = 0 then none else some ((y - 1) * (1 + row.length) + 1))) :
    defilterRow bpp row.length y (ofList (pre ++ f.code :: (filterRow f bpp above row ++ rest))) =
      .done (ofList (pre ++ f.code :: (row ++ rest))) := by
  have hstride : u32 (1 + row.length) = 1 + row.length := u32_eq (by omega)
  have hrow : u32 (y * (1 + row.length)) = pre.length := by rw [← hpre, u32_eq (by omega)]
  have hupRow : (if y = 0 then none else some (u32 (u32 ((y - 1) * (1 + row.length)) + 1))) =
      if y = 0 then none else some ((y - 1) * (1 + row.length) + 1) := by
    have hle : (y - 1) * (1 + row.length) ≤ y * (1 + row.length) := mul_le_mul_right _ (by omega)
    have hup32 : u32 ((y - 1) * (1 + row.length)) = (y - 1) * (1 + row.length) := u32_eq (by omega)
    rw [hup32, u32_eq (by omega)]
  have hloop := count_eq (fun x => ofList (halfway f bpp above row pre rest x))
    fun x hx => defilterByte_eq hbpp hx hup
  have hdone : halfway f bpp above row pre rest row.length = pre ++ f.code :: (row ++ rest) := by
    unfold halfway
    rw [take_length, ← length_filterRow f bpp above row, drop_length, nil_append]
  have hread : (ofList (pre ++ f.code :: (filterRow f bpp above row ++ rest))).read pre.length =
      .done f.code := by
    refine read_ofList ?_
    rw [getElem?_append_right (Nat.le_refl _), Nat.sub_self, getElem?_cons_zero]
  unfold defilterRow
  simp only [hstride, hrow, hread, done_bind, hupRow]
  rw [← hdone]
  exact hloop

/-- The rows after their filter types. -/
def plain (rows : List (Filter × List U8)) : List U8 := rows.flatMap fun r => r.1.code :: r.2

theorem plain_append (rows rows' : List (Filter × List U8)) : plain (rows ++ rows') = plain rows ++ plain rows' :=
  flatMap_append

theorem plain_singleton (r : Filter × List U8) : plain [r] = r.1.code :: r.2 := by
  simp [plain]

variable {rows : List (Filter × List U8)} {stride : Nat}

theorem length_plain (h : ∀ r ∈ rows, r.2.length = stride) : (plain rows).length = rows.length * (1 + stride) := by
  rw [plain, length_flatMap_mul fun r hr => by rw [length_cons, h r hr, add_comm], mul_comm]

theorem length_scanlines (h : ∀ r ∈ rows, r.2.length = stride) :
    (scanlines bpp above rows).length = rows.length * (1 + stride) := by
  induction rows generalizing above with
  | nil => simp [scanlines]
  | cons r rows ih =>
    rw [scanlines, cons_append, length_cons, length_append, length_filterRow, h r (mem_cons_self ..),
      ih fun r' hr' => h r' (mem_cons_of_mem _ hr'), length_cons, add_mul]
    omega

def rowAbove (rows : List (Filter × List U8)) : Nat → List U8
  | 0 => []
  | y + 1 => (rows.getD y (.none, [])).2

/-- The buffer when `y` rows are reconstructed. -/
def rowsDone (bpp : Nat) (rows : List (Filter × List U8)) (y : Nat) : List U8 :=
  plain (rows.take y) ++ scanlines bpp (rowAbove rows y) (rows.drop y)

theorem rowAbove_above (h : ∀ r ∈ rows, r.2.length = stride) (hy : y < rows.length) :
    Above (plain (rows.take y)) stride (rowAbove rows y) (if y = 0 then none else some ((y - 1) * (1 + stride) + 1)) := by
  cases y with
  | zero => rfl
  | succ y =>
    have hmem : rows.getD y (.none, []) ∈ rows := by
      rw [getD_eq_getElem _ _ (by omega)]
      exact getElem_mem _
    have hlen : (plain (rows.take y)).length = y * (1 + stride) := by
      rw [length_plain fun r hr => h r (mem_of_mem_take hr), length_take, min_eq_left (by omega)]
    rw [if_neg (by omega), Nat.add_sub_cancel, ← hlen]
    refine ⟨h _ hmem, fun i _ => ?_⟩
    rw [take_succ_getD (.none, []) (by omega), plain_append, plain_singleton, getElem?_after]
    rfl

theorem defilterRow_rows (hbpp : 0 < bpp) (h : ∀ r ∈ rows, r.2.length = stride)
    (hlt : rows.length * (1 + stride) < 2 ^ 32) (hy : y < rows.length) :
    defilterRow bpp stride y (Cells.ofList (rowsDone bpp rows y)) = .done (Cells.ofList (rowsDone bpp rows (y + 1))) := by
  rcases hr : rows.getD y (.none, []) with ⟨f, row⟩
  have hdrop : rows.drop y = (f, row) :: rows.drop (y + 1) := by
    rw [drop_eq_getElem_cons hy, ← hr, getD_eq_getElem _ _ hy]
  have hmem : (f, row) ∈ rows := mem_of_mem_drop (hdrop ▸ mem_cons_self ..)
  obtain rfl : row.length = stride := h _ hmem
  have hpre : (plain (rows.take y)).length = y * (1 + row.length) := by
    rw [length_plain fun r hr => h r (mem_of_mem_take hr), length_take, min_eq_left (by omega)]
  have hle : (y + 1) * (1 + row.length) ≤ rows.length * (1 + row.length) := mul_le_mul_right _ hy
  have hbefore : rowsDone bpp rows y = plain (rows.take y) ++ f.code :: (filterRow f bpp (rowAbove rows y) row ++
      scanlines bpp row (rows.drop (y + 1))) := by
    unfold rowsDone
    rw [hdrop]
    rfl
  have hafter : rowsDone bpp rows (y + 1) = plain (rows.take y) ++ f.code :: (row ++
      scanlines bpp row (rows.drop (y + 1))) := by
    have habove : rowAbove rows (y + 1) = row := by rw [rowAbove, hr]
    unfold rowsDone
    rw [habove, take_succ_getD (.none, []) hy, hr, plain_append, plain_singleton, append_assoc]
    rfl
  rw [hbefore, hafter]
  refine defilterRow_eq hbpp hpre ?_ (rowAbove_above h hy)
  rw [Nat.add_mul, Nat.one_mul] at hle
  omega

/-- **`defilter`** on the filtered rows of a picture gives the rows. -/
theorem defilter_scanlines (hbpp : 0 < bpp) (h : ∀ r ∈ rows, r.2.length = bpp * width) (hne : rows ≠ [])
    (hlt : rows.length * (1 + bpp * width) < 2 ^ 32) :
    defilter (ofList (scanlines bpp [] rows)) width rows.length bpp = .done (ofList (plain rows)) := by
  have hpos : 0 < rows.length := length_pos_of_ne_nil hne
  have hle : 1 * (1 + bpp * width) ≤ rows.length * (1 + bpp * width) := mul_le_mul_right _ hpos
  have hloop := count_eq (fun y => ofList (rowsDone bpp rows y))
    fun y hy => defilterRow_rows hbpp h hlt hy
  have hdone : rowsDone bpp rows rows.length = plain rows := by
    unfold rowsDone
    rw [take_length, drop_length, scanlines, append_nil]
  unfold defilter
  rw [u32_eq (by omega), ← hdone]
  exact hloop

end Defilter

/-! ## Pixels -/

section Unpack

variable {alpha : Bool} {raw : Cells U8} {row : List Pixel}

theorem length_pixelBytes (alpha : Bool) (p : Pixel) : (p.bytes alpha).length = bpp alpha := by
  cases alpha <;> rfl

theorem length_rowBytes (alpha : Bool) (row : List Pixel) :
    (row.flatMap (Pixel.bytes alpha)).length = bpp alpha * row.length :=
  length_flatMap_mul fun p _ => length_pixelBytes alpha p

theorem getElem?_rowBytes {j : Nat} (hx : x < row.length) (hj : j < bpp alpha) :
    (row.flatMap (Pixel.bytes alpha))[x * bpp alpha + j]? = ((row.get ⟨x, hx⟩).bytes alpha)[j]? := by
  have hdrop := flatMap_drop_mul (length_pixelBytes alpha) row x
  rw [mul_comm, ← getElem?_drop, hdrop, drop_eq_getElem_cons hx, flatMap_cons,
    getElem?_append_left (by rw [length_pixelBytes]; exact hj)]
  rfl

/-- The shifts of `png_decode` put the channels side by side. -/
theorem or_channels (r g b : U8) :
    r.setWidth 32 <<< 16 ||| g.setWidth 32 <<< 8 ||| b.setWidth 32 = (0 : U8) ++ r ++ g ++ b := by
  refine BitVec.eq_of_toNat_eq ?_
  have hr32 : (r.toNat % 2 ^ 32) <<< 16 % 2 ^ 32 = r.toNat <<< 8 <<< 8 := by
    rw [← Nat.shiftLeft_add, Nat.mod_eq_of_lt (show r.toNat < 2 ^ 32 by omega), Nat.shiftLeft_eq, Nat.mod_eq_of_lt (by omega)]
  have hg32 : (g.toNat % 2 ^ 32) <<< 8 % 2 ^ 32 = g.toNat <<< 8 := by
    rw [Nat.mod_eq_of_lt (show g.toNat < 2 ^ 32 by omega), Nat.shiftLeft_eq, Nat.mod_eq_of_lt (by omega)]
  simp only [BitVec.toNat_or, BitVec.toNat_shiftLeft, BitVec.toNat_setWidth, BitVec.toNat_append, Nat.shiftLeft_or_distrib]
  rw [hr32, hg32, mod_eq_of_lt (show b.toNat < 2 ^ 32 by omega)]
  simp

theorem unpackPixel_eq {prow total : Nat} {cs : List (BitVec 32)} (hx : x < row.length)
    (hrow : ∀ k v, (row.flatMap (Pixel.bytes alpha))[k]? = some v → raw.read (prow + k) = .done v)
    (hcs : cs.length = y * width + x) (htotal : cs.length < total) (hlt : total < 2 ^ 32)
    (hstride : bpp alpha * row.length < 2 ^ 32) : unpackPixel raw width (bpp alpha) y prow x (fill (unset total) cs) =
      .done (fill (unset total) (cs ++ [(row.get ⟨x, hx⟩).colour alpha])) := by
  generalize hp : row.get ⟨x, hx⟩ = p
  -- The channels are where the source looks for them.
  have hread : ∀ j < bpp alpha, ∀ v, (p.bytes alpha)[j]? = some v →
      raw.read (prow + u32 (x * bpp alpha + j)) = .done v := by
    intro j hj v hv
    have hle : (x + 1) * bpp alpha ≤ row.length * bpp alpha := mul_le_mul_right _ hx
    rw [Nat.add_mul, Nat.one_mul, Nat.mul_comm row.length] at hle
    rw [u32_eq (by omega)]
    refine hrow _ _ ?_
    rw [getElem?_rowBytes hx hj, hp, hv]
  have hwrite : ∀ c, (fill (unset total) cs).write (u32 (y * width + x)) c =
      .done (fill (unset total) (cs ++ [c])) := fun c => by
    rw [u32_eq (by omega), ← hcs, write_fill _ (by rw [length_unset]; exact htotal)]
  unfold unpackPixel isClear
  cases alpha with
  | false =>
    have h0 := hread 0 (by decide) p.r rfl
    have h1 := hread 1 (by decide) p.g rfl
    have h2 := hread 2 (by decide) p.b rfl
    rw [add_zero] at h0
    rw [h0, h1, h2, if_neg (by decide)]
    simp only [done_bind, pure_eq, hwrite, or_channels]
    simp [Pixel.colour]
  | true =>
    have h0 := hread 0 (by decide) p.r rfl
    have h1 := hread 1 (by decide) p.g rfl
    have h2 := hread 2 (by decide) p.b rfl
    have h3 := hread 3 (by decide) p.a rfl
    rw [add_zero] at h0
    rw [h0, h1, h2, if_pos (by decide), h3]
    simp only [done_bind, pure_eq, hwrite, or_channels]
    simp [Pixel.colour, imageTransparent]

theorem unpackRow_eq {total : Nat} {cs : List (BitVec 32)} {pre rest : List U8} {t : U8}
    (hraw : raw = ofList (pre ++ t :: (row.flatMap (Pixel.bytes alpha) ++ rest)))
    (hpre : pre.length = y * (1 + bpp alpha * row.length)) (hlt : pre.length + (1 + bpp alpha * row.length) < 2 ^ 32)
    (hcs : cs.length = y * row.length) (htotal : cs.length + row.length ≤ total) (htotal32 : total < 2 ^ 32) :
    unpackRow raw row.length (bpp alpha) (bpp alpha * row.length) y (fill (unset total) cs) =
      .done (fill (unset total) (cs ++ row.map (Pixel.colour alpha))) := by
  have hprow : u32 (u32 (y * u32 (1 + bpp alpha * row.length)) + 1) = pre.length + 1 := by
    rw [@u32_eq (1 + bpp alpha * row.length) (by omega), ← hpre, @u32_eq pre.length (by omega), u32_eq (by omega)]
  have hrow : ∀ k v, (row.flatMap (Pixel.bytes alpha))[k]? = some v → raw.read (pre.length + 1 + k) = .done v := by
    intro k v hv
    rw [hraw]
    refine read_ofList ?_
    obtain ⟨hk, -⟩ := List.getElem?_eq_some_iff.mp hv
    rw [getElem?_after, getElem?_append_left hk, hv]
  have hstep : ∀ x < row.length, unpackPixel raw row.length (bpp alpha) y (pre.length + 1) x
      (fill (unset total) (cs ++ (row.take x).map (Pixel.colour alpha))) =
        .done (fill (unset total) (cs ++ (row.take (x + 1)).map (Pixel.colour alpha))) := by
    intro x hx
    have hlen : (cs ++ (row.take x).map (Pixel.colour alpha)).length = cs.length + x := by
      rw [length_append, length_map, length_take, min_eq_left (by omega)]
    rw [unpackPixel_eq hx hrow (by omega) (by omega) htotal32 (by omega), append_assoc,
      take_succ_eq_append_getElem hx, map_append]
    rfl
  have hloop := count_eq
    (fun x => fill (unset total) (cs ++ (row.take x).map (Pixel.colour alpha))) hstep
  unfold unpackRow
  rw [hprow]
  simpa using hloop

def bytesOfRow (alpha : Bool) (r : Filter × List Pixel) : Filter × List U8 := (r.1, r.2.flatMap (Pixel.bytes alpha))

/-- The colours of the first rows. -/
def coloursOf (alpha : Bool) (rows : List (Filter × List Pixel)) : List (BitVec 32) :=
  rows.flatMap fun r => r.2.map (Pixel.colour alpha)

theorem length_coloursOf {rows : List (Filter × List Pixel)} (h : ∀ r ∈ rows, r.2.length = width) :
    (coloursOf alpha rows).length = rows.length * width := by
  rw [coloursOf, length_flatMap_mul fun r hr => by rw [length_map, h r hr], mul_comm]

theorem unpackRows_eq {rows : List (Filter × List Pixel)} (h : ∀ r ∈ rows, r.2.length = width)
    (hlt : rows.length * (1 + bpp alpha * width) < 2 ^ 32) (hpixels : rows.length * width < 2 ^ 32) : Exec.count rows.length
        (unpackRow (ofList (plain (rows.map (bytesOfRow alpha)))) width (bpp alpha) (bpp alpha * width))
        (unset (rows.length * width)) = .done (ofList (coloursOf alpha rows)) := by
  have hbytes : ∀ r ∈ rows.map (bytesOfRow alpha), r.2.length = bpp alpha * width := by
    intro r hr
    obtain ⟨r', hr', rfl⟩ := mem_map.mp hr
    rw [bytesOfRow, length_rowBytes, h r' hr']
  have hstep : ∀ y < rows.length,
      unpackRow (ofList (plain (rows.map (bytesOfRow alpha)))) width (bpp alpha) (bpp alpha * width) y
        (fill (unset (rows.length * width)) (coloursOf alpha (rows.take y))) =
          .done (fill (unset (rows.length * width)) (coloursOf alpha (rows.take (y + 1)))) := by
    intro y hy
    rcases hr : rows.get ⟨y, hy⟩ with ⟨f, row⟩
    have hdrop : rows.drop y = (f, row) :: rows.drop (y + 1) := by
      rw [drop_eq_getElem_cons hy, ← hr]
      rfl
    have htake : rows.take (y + 1) = rows.take y ++ [(f, row)] := hr ▸ take_succ_eq_append_getElem hy
    obtain rfl : row.length = width := h _ (hr ▸ get_mem ..)
    have hcs : (coloursOf alpha (rows.take y)).length = y * row.length := by
      rw [length_coloursOf fun r hr => h r (mem_of_mem_take hr), length_take, min_eq_left (by omega)]
    have hpre : (plain ((rows.take y).map (bytesOfRow alpha))).length = y * (1 + bpp alpha * row.length) := by
      rw [map_take, length_plain fun r hr => hbytes r (mem_of_mem_take hr), ← map_take,
        length_map, length_take, min_eq_left (by omega)]
    have hraw : plain (rows.map (bytesOfRow alpha)) = plain ((rows.take y).map (bytesOfRow alpha)) ++ f.code ::
        (row.flatMap (Pixel.bytes alpha) ++ plain ((rows.drop (y + 1)).map (bytesOfRow alpha))) := by
      conv_lhs => rw [← take_append_drop y rows, map_append, plain_append, hdrop]
      rfl
    have hnext : coloursOf alpha (rows.take (y + 1)) =
        coloursOf alpha (rows.take y) ++ row.map (Pixel.colour alpha) := by
      unfold coloursOf
      rw [htake, flatMap_append, flatMap_singleton]
    have hle : (y + 1) * (1 + bpp alpha * row.length) ≤ rows.length * (1 + bpp alpha * row.length) :=
      mul_le_mul_right _ hy
    have hle' : (y + 1) * row.length ≤ rows.length * row.length := mul_le_mul_right _ hy
    rw [Nat.add_mul, Nat.one_mul] at hle hle'
    rw [hnext]
    exact unpackRow_eq (by rw [hraw]) hpre (by omega) hcs (by omega) hpixels
  have hloop := count_eq
    (fun y => fill (unset (rows.length * width)) (coloursOf alpha (rows.take y))) hstep
  have hfull : fill (unset (rows.length * width)) (coloursOf alpha rows) =
      ofList (coloursOf alpha rows) :=
    fill_eq_ofList (by rw [length_coloursOf h, length_unset])
  rw [take_length, hfull] at hloop
  exact hloop

end Unpack

end MinicOs
