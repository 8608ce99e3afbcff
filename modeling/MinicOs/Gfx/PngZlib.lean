import MinicOs.Gfx.PngChunks
import MinicOs.Gfx.PngRows
import MinicOs.Inflate.Correct

/-!
# The zlib stream of a PNG file

What `png_decode` does with the data of the `IDAT` chunks when it is a zlib stream: `inflate`, and the comparison of
the checksums (`inflateIdat_eq`). Of a DEFLATE stream that expands to the rows the rows are the result
(`inflateIdat_stream`).
-/

namespace MinicOs

open PngFormat List Cells

section Zlib

variable {cmf flg : U8} {packed : List U8} {check : Nat}

theorem length_zlibOf (cmf flg : U8) (packed : List U8) (check : Nat) :
    (zlibOf cmf flg packed check).length = packed.length + 6 := by
  unfold zlibOf
  rw [length_append, length_append, length_be32]
  simp only [length_cons, length_nil]
  omega

theorem readAdler_eq (hcheck : check < 2 ^ 32) :
    readU32be (ofList (zlibOf cmf flg packed check)).read (packed.length + 2) = .done check := by
  have hbyte : ∀ i b, (be32 check)[i]? = some b →
      (ofList (zlibOf cmf flg packed check)).read (packed.length + 2 + i) = .done b := by
    intro i b hb
    refine read_ofList ?_
    have hpre : ([cmf, flg] ++ packed).length = packed.length + 2 := by
      rw [length_append]
      simp only [length_cons, length_nil]
      omega
    unfold zlibOf
    rw [getElem?_append_right (by omega), hpre, Nat.add_sub_cancel_left, hb]
  refine (@readU32be_of _ (packed.length + 2) _ _ _ _ (hbyte 0 _ rfl) (hbyte 1 _ rfl) (hbyte 2 _ rfl)
    (hbyte 3 _ rfl)).trans ?_
  exact congrArg Exec.done (beValue_be32 hcheck)

/-- **The data of the `IDAT` chunks**, when it is a zlib stream. -/
theorem inflateIdat_eq (hdeflate : cmf.toNat % 16 = 8) (hdict : flg.getLsbD 5 = false) (hcheck : check < 2 ^ 32)
    (rawSize : Nat) :
    inflateIdat ⟨true, true, true⟩ (ofList (zlibOf cmf flg packed check)) (packed.length + 6) rawSize = (do
      let (raw, inflatedLen) ← inflate packed (unset rawSize)
      if inflatedLen ≠ rawSize then .refused
      else do
        let computedAdler ← adler32Of raw rawSize
        if check ≠ computedAdler then .refused else return raw) := by
  have hcmf : cmf &&& 0x0F = 8 := by
    refine BitVec.eq_of_toNat_eq ?_
    exact (Nat.and_two_pow_sub_one_eq_mod cmf.toNat 4).trans hdeflate
  have hflg : flg &&& 0x20 = 0 := by
    rw [show (0x20 : U8) = BitVec.twoPow 8 5 from rfl, BitVec.and_twoPow, hdict]
    rfl
  have hpacked : ((zlibOf cmf flg packed check).drop 2).take (packed.length + 6 - 2 - 4) = packed := by
    rw [show (zlibOf cmf flg packed check).drop 2 = packed ++ be32 check from rfl,
      show packed.length + 6 - 2 - 4 = packed.length by omega, take_left]
  unfold inflateIdat
  rw [read_ofList (show (zlibOf cmf flg packed check)[0]? = some cmf from rfl),
    read_ofList (show (zlibOf cmf flg packed check)[1]? = some flg from rfl)]
  simp only [Exec.done_bind]
  rw [if_neg (by rw [hcmf, hflg]; simp), if_neg (by simp), contents_ofList, Exec.done_bind, hpacked,
    show packed.length + 6 - 4 = packed.length + 2 by omega, readAdler_eq hcheck]
  rfl

theorem adler32_lt (xs : List U8) : adler32 xs < 2 ^ 32 := by
  unfold adler32
  omega

theorem inflateIdat_stream {s : Rfc1951.Stream} (hdeflate : cmf.toNat % 16 = 8) (hdict : flg.getLsbD 5 = false)
    (hwritten : s.WrittenTo packed) (hpacked : packed.length < 2 ^ 31) (hraw : s.expand.length < 2 ^ 32) :
    inflateIdat ⟨true, true, true⟩ (ofList (zlibOf cmf flg packed (adler32 s.expand))) (packed.length + 6)
      s.expand.length = .done (ofList s.expand) := by
  obtain ⟨pad, -, hbits⟩ := hwritten
  rw [inflateIdat_eq hdeflate hdict (adler32_lt _),
    inflate_stream hpacked hbits (by rw [length_unset]) (by rw [length_unset]; exact hraw), Exec.done_bind]
  simp only [ne_eq, not_true, if_false]
  rw [fill_eq_ofList (by rw [length_unset]), adler32Of_eq, Exec.done_bind, if_neg (by simp)]
  rfl

end Zlib

end MinicOs
