import Mathlib.Order.Interval.Finset.Nat
import MinicOs.Mm.FrameCount
import MinicOs.Mm.HeapHeaders

/-!
# When `kalloc` is safe

A `kalloc` is safe if it returns, touches no header beyond the heap, and hands out a block as large
as asked for, or `NULL`. On a well-tiled heap it is safe whatever the frames are like exactly when
the request does not wrap in the rounding and a block fits, or the cap leaves room for one, or the
request is so close to `2^64` that the mapping runs out of frames.

Otherwise the heap grows up to its cap, `heap_grow` then answers `true` without having grown, and
the header of the block that was not added is written at `g_heap_size`.
-/

namespace MinicOs

open List Nat

/-! ## Running out of frames -/

theorem growPage_freeFrames_lt {gPml4 : U64} {size j : Nat} {ph ph' : Phys}
    (h : growPage gPml4 size j ph = (true, ph')) : ph'.frames.freeFrames + 1 ≤ ph.frames.freeFrames := by
  unfold growPage at h
  simp only at h
  split at h
  · simp at h
  · rename_i h0
    have hm := mapPageIn_freeFrames_le { ph with frames := (allocFrame ph.frames).2 } gPml4
      (BitVec.ofNat 64 (heapBase + size + j * 4096)) (allocFrame ph.frames).1 (0x02#64 ||| pageNx)
    have hpos := freeFrames_pos_of_alloc h0
    have ha := allocFrame_freeFrames ph.frames
    split at h
    · rw [h] at hm
      simp only at hm
      omega
    · simp at h

/-- **More pages than frames** cannot be mapped. -/
theorem growLoop_fails {gPml4 : U64} {size p : Nat} (hp : totalFrames < p) (ph : Phys) :
    ∃ ph', loopOk (growPage gPml4 size) (range p) ph = (false, ph') := by
  cases hl : loopOk (growPage gPml4 size) (range p) ph with
  | mk ok ph' =>
    cases ok with
    | false => exact ⟨ph', rfl⟩
    | true =>
      have := loopOk_range (I := fun j s => s.frames.freeFrames + j ≤ ph.frames.freeFrames)
        (fun j _ s s' hs hb => by
          have := growPage_freeFrames_lt hb
          omega) hl (le_of_eq (add_zero _))
      have := freeFrames_le ph.frames
      omega

/-! ## An environment with room -/

/-- Frames 0 to 7 are in use, frame 1 holds a PML4 whose heap tables are there, and `k` frames are
free. -/
structure Roomy (k : Nat) (ph : Phys) : Prop where
  bits : ∀ f < 8, ph.frames.bitmap f = true
  pml4 : ph.mem 1 0 = mkTable (frameAddr 2)
  pdpt : ph.mem 2 1 = mkTable (frameAddr 3)
  pd : ∀ i, ph.mem 3 i = mkTable (frameAddr 4)
  room : k ≤ ph.frames.freeFrames

/-- Tables that lead from frame 1 over 2 and 3 to 4, and all frames from 8 on free. -/
def roomyPhys : Phys :=
  { mem := fun f _ => mkTable (frameAddr (f + 1)),
    frames := { bitmap := fun f => decide (f < 8), freeCount := 262136 } }

theorem roomyPhys_roomy : Roomy 262136 roomyPhys := by
  refine ⟨fun f hf => by simpa [roomyPhys] using hf, rfl, rfl, fun _ => rfl, ?_⟩
  have hsub : Finset.Ico 8 totalFrames ⊆
      (Finset.range totalFrames).filter fun f => roomyPhys.frames.bitmap f = false := fun f hf => by
    rw [Finset.mem_Ico] at hf
    rw [Finset.mem_filter, Finset.mem_range]
    refine ⟨hf.2, ?_⟩
    show decide (f < 8) = false
    simpa using hf.1
  refine le_trans (le_of_eq ?_) (Finset.card_le_card hsub)
  rw [card_Ico]
  rfl

theorem Roomy.growPage {k size j : Nat} {ph : Phys} (h : Roomy (k + 1) ph) (hj : size + 4096 * j < 16781312) :
    ∃ ph', MinicOs.growPage (frameAddr 1) size j ph = (true, ph') ∧ Roomy k ph' := by
  obtain ⟨h4, h3⟩ := idx_heap (a := heapBase + size + j * 4096) (by omega) (by omega)
  have hn1 : frameNum (frameAddr 1) = 1 := frameNum_frameAddr (by decide)
  have hn2 : frameNum (frameAddr 2) = 2 := frameNum_frameAddr (by decide)
  have hn3 : frameNum (frameAddr 3) = 3 := frameNum_frameAddr (by decide)
  have hn4 : frameNum (frameAddr 4) = 4 := frameNum_frameAddr (by decide)
  have hz : ∀ f, 0 < f → f < 8 → frameAddr f ≠ 0#64 := fun f h0 h8 =>
    frameAddr_ne_zero (by have : totalFrames = 262144 := rfl; omega) h0
  rcases allocFrame_cases (h.bits 0 (by decide)) with ⟨n, hfree, hn0, halloc⟩ | ⟨hnone, -⟩
  swap
  · have := h.room
    rw [freeFrames_eq_zero.mpr hnone] at this
    omega
  have hget : ∀ (p : Phys) f i t, p.mem (frameNum (frameAddr f)) i = mkTable (frameAddr t) →
      tableGetOrCreate p (frameAddr f) i = (frameAddr t, p) := fun p f i t he => by
    unfold tableGetOrCreate
    simp only [he, present_mkTable, if_true, tablePtr_mkTable]
  unfold MinicOs.growPage
  simp only [halloc, if_neg (frameAddr_ne_zero hfree.lt hn0)]
  generalize BitVec.ofNat 64 (heapBase + size + j * 4096) = v at h4 h3
  generalize hm : ph.mem.store 4 (idx1 v) (mkLeaf (frameAddr n) (0x02#64 ||| pageNx)) = m
  have hkeep : ∀ f i, f ≠ 4 → m f i = ph.mem f i := fun f i hf => by
    rw [← hm]
    exact store_of_ne _ fun e => hf e.1
  have htake := freeFrames_take hfree
  have hroom := h.room
  refine ⟨{ mem := m, frames := ph.frames.take n }, ?_, fun f hf => ?_,
    (hkeep 1 0 (by decide)).trans h.pml4, (hkeep 2 1 (by decide)).trans h.pdpt,
    fun i => (hkeep 3 i (by decide)).trans (h.pd i), show k ≤ (ph.frames.take n).freeFrames by omega⟩
  · unfold mapPageIn
    simp only [h4, h3, hget { ph with frames := ph.frames.take n } 1 0 2 (by rw [hn1]; exact h.pml4),
      hget { ph with frames := ph.frames.take n } 2 1 3 (by rw [hn2]; exact h.pdpt),
      hget { ph with frames := ph.frames.take n } 3 (idx2 v) 4 (by rw [hn3]; exact h.pd _),
      if_neg (hz 2 (by decide) (by decide)), if_neg (hz 3 (by decide) (by decide)),
      if_neg (hz 4 (by decide) (by decide)), hn4, if_true, hm]
  · show (ph.frames.take n).bitmap f = true
    rw [take_bitmap]
    split
    · rfl
    · exact h.bits f hf

theorem Roomy.growLoop {size p : Nat} (hp : size + 4096 * p ≤ 16781312) : ∀ {k : Nat} {ph : Phys}, Roomy (k + p) ph →
    ∃ ph', loopOk (MinicOs.growPage (frameAddr 1) size) (range p) ph = (true, ph') ∧ Roomy k ph' := by
  induction p with
  | zero =>
    intro k ph h
    exact ⟨ph, by rw [range_zero, loopOk_nil], h⟩
  | succ p ih =>
    intro k ph h
    rw [show k + (p + 1) = (k + 1) + p by omega] at h
    obtain ⟨ph1, hl, h1⟩ := ih (by omega) h
    obtain ⟨ph2, hg, h2⟩ := @Roomy.growPage k size p ph1 h1 (by omega)
    refine ⟨ph2, ?_, h2⟩
    rw [range_succ, loopOk_append, hl]
    simp only
    rw [loopOk_cons_true hg, loopOk_nil]

/-! ## The chunk of a request near `2^64` -/

section Chunk

variable {h : HeapMem} {m : Nat}

/-- Close to `2^64`: nothing is cut off, since the sum with the size wraps, or the rest is. -/
theorem growChunk64_huge (hcap : h.cap = 16777216) (hsize : h.size ≤ h.cap)
    (hlo : 2 ^ 64 - 2 ^ 24 - 4096 < m) (hhi : m ≤ 2 ^ 64 - 4096) :
    2 ^ 64 - 2 ^ 24 ≤ growChunk64 h m ∨ (h.size < h.cap ∧ growChunk64 h m = h.cap - h.size) := by
  obtain ⟨c, h1, -, -, h4, h5, heq⟩ := growChunk64_eq hsize hcap.le hhi
  rw [heq]
  split <;> omega

/-- In the last page below `2^64` the rounding wraps to nothing. -/
theorem growChunk64_wrap (hsize : h.size ≤ h.cap) (hcap : h.cap = 16777216)
    (hlo : 2 ^ 64 - 4096 < m) (hhi : m < 2 ^ 64) : growChunk64 h m = 0 := by
  unfold growChunk64
  simp only [if_neg (show ¬ m < 65536 by omega), if_pos (show m % 4096 ≠ 0 by omega)]
  have h0 : add64 m (4096 - m % 4096) = 0 := by
    unfold add64
    omega
  rw [h0, add64_of_lt (by omega)]
  exact if_neg (by omega)

end Chunk

/-! ## Safe calls -/

/-- What a safe call comes to: `NULL`, or a block of the size asked for below `g_heap_size`. -/
def Kalloc.Good (size : Nat) (h : HeapMem) : Kalloc → Prop
  | .null => True
  | .block o => size ≤ (h.hdr o).size ∧ o + headerSize + (h.hdr o).size ≤ h.size
  | .outside _ => False

/-- `kalloc` returns, and stays inside the heap. -/
def KallocOk (gPml4 : U64) (ph : Phys) (h : HeapMem) (size : Nat) : Prop :=
  ∃ fuel r ph' h', kalloc64 gPml4 fuel ph h size = some (r, ph', h') ∧ r.Good size h'

/-- A heap whose headers tile it, within its cap of 16 MB. -/
structure WellTiled (h : HeapMem) (l : List BlockHeader) : Prop where
  spelled : Spelled h l
  mult : ∀ b ∈ l, 16 ∣ b.size
  inited : h.inited = true
  cap : h.cap = 16777216

section Safe

variable {h : HeapMem} {l : List BlockHeader} {gPml4 : U64} {ph : Phys} {size n : Nat}

theorem good_of_taken {l1 l2 : List BlockHeader} {b : BlockHeader} (hn : size ≤ n)
    (hs : Spelled h (l1 ++ splitBlock n b ++ l2)) (hb : Fits n b) : Kalloc.Good size h (.block (extent blockLen l1)) := by
  obtain ⟨rest, hl⟩ : ∃ rest, l1 ++ splitBlock n b ++ l2 = l1 ++ takenBlock n b :: rest := by
    rw [append_assoc]
    rcases splitBlock_cases n b with heq | ⟨r, -, -, heq⟩
    · exact ⟨l2, by rw [heq]; rfl⟩
    · exact ⟨r :: l2, by rw [heq]; rfl⟩
  rw [hl] at hs
  have htile := hs.tile
  simp only [extent_append, extent, blockLen] at htile
  simp only [Kalloc.Good, hs.spells.head]
  exact ⟨hn.trans (le_takenBlock hb), by omega⟩

theorem kalloc_of_fits (hs : Spelled h l) {inner fuel : Nat} (hin : l.length < inner) (hn : size ≤ n)
    (hfit : ∃ b ∈ l, Fits n b) : ∃ o h', kallocLoop64 gPml4 n inner (fuel + 1) ph h = some (.block o, ph, h') ∧
      h'.size = h.size ∧ Kalloc.Good size h' (.block o) := by
  cases ht : takeBlock n l with
  | none =>
    obtain ⟨b, hb, hfit⟩ := hfit
    exact absurd hfit (takeBlock_eq_none.mp ht b hb)
  | some p =>
    obtain ⟨o, l'⟩ := p
    obtain ⟨h', hk, hs', hsize, -⟩ := @kallocLoop64_take h n gPml4 inner fuel ph l o l' hs ht hin
    obtain ⟨l1, b, l2, rfl, -, hb, rfl, rfl⟩ := takeBlock_eq_some ht
    exact ⟨_, h', hk, hsize, good_of_taken hn hs' hb⟩

/-- **Room below the cap**: one round of growth is enough. -/
theorem kalloc_of_room (hw : WellTiled h l) (hn : size ≤ n) (hnone : takeBlock n l = none)
    (hroom : n + headerSize ≤ h.cap - h.size) :
    ∃ r ph' h', kallocLoop64 gPml4 n (l.length + 2) (l.length + 2) ph h = some (r, ph', h') ∧ r.Good size h' := by
  have hcap := hw.cap
  have hhs : headerSize = 16 := rfl
  have hadd : add64 n headerSize = n + headerSize := add64_of_lt (by omega)
  obtain ⟨hg1, hg2, -⟩ := growChunk64_small (h := h) (show h.size ≤ h.cap by omega) (by omega)
    (show add64 n headerSize < 2 ^ 63 by rw [hadd]; omega)
  generalize hc : growChunk64 h (add64 n headerSize) = c at hg1 hg2
  rw [hadd] at hg2
  rcases @kallocLoop64_round h n gPml4 (l.length + 2) (l.length + 1) ph l c hw.spelled hnone (by omega)
    hc (by omega) with ⟨ph1, -, hk⟩ | ⟨ph1, -, ⟨hlt, -⟩ | ⟨-, hk⟩⟩
  · exact ⟨_, _, _, hk, trivial⟩
  · omega
  · have hs1 := grown_spelled hw.spelled (show headerSize ≤ c by omega) (by omega)
    obtain ⟨o, h', hk', -, hgood⟩ := @kalloc_of_fits _ _ gPml4 ph1 size n hs1 (l.length + 2) l.length
      (by simp) hn ⟨freshBlock c, by simp, rfl, show n ≤ c - headerSize by omega⟩
    exact ⟨_, _, _, hk.trans hk', hgood⟩

/-- Growth that runs out of frames ends the call. -/
theorem kallocLoop64_null (hs : Spelled h l) (hnone : takeBlock n l = none) {inner fuel : Nat} (hin : l.length < inner)
    (hc : 1073741824 < growChunk64 h (add64 n headerSize)) :
    ∃ ph', kallocLoop64 gPml4 n inner (fuel + 1) ph h = some (.null, ph', h) := by
  have htot : totalFrames = 262144 := rfl
  obtain ⟨ph', hl⟩ := @growLoop_fails gPml4 h.size
    ((growChunk64 h (add64 n headerSize) + 4095) / 4096) (by omega) ph
  refine ⟨ph', ?_⟩
  rw [kallocLoop64_grow hs hnone hin]
  unfold heapGrow64
  simp only [hl]

/-- **Close to `2^64`** the frames run out, at once or after the rest of the heap is mapped. -/
theorem kalloc_of_huge (hw : WellTiled h l) (h16 : 16 ∣ n) (hlo : 2 ^ 64 - 2 ^ 24 - 4096 < n + headerSize)
    (hhi : n + headerSize ≤ 2 ^ 64 - 4096) :
    ∃ ph' h', kallocLoop64 gPml4 n (l.length + 3) (l.length + 3) ph h = some (.null, ph', h') := by
  have hcap := hw.cap
  have hsmall := hw.spelled.small
  have htile := hw.spelled.tile
  have hhs : headerSize = 16 := rfl
  have hadd : add64 n headerSize = n + headerSize := add64_of_lt (by omega)
  have hnone : takeBlock n l = none := by
    rw [takeBlock_eq_none]
    intro b hb hfit
    obtain ⟨l1, l2, rfl⟩ := append_of_mem hb
    rw [extent_append] at htile
    simp only [extent] at htile
    have hlen : blockLen b = headerSize + b.size := rfl
    have := hfit.2
    omega
  rw [← hadd] at hlo hhi
  rcases growChunk64_huge hcap (show h.size ≤ h.cap by omega) hlo hhi with hbig | ⟨hlt, hrest⟩
  · obtain ⟨ph', hk⟩ := @kallocLoop64_null h l gPml4 ph n hw.spelled hnone (l.length + 3) (l.length + 2)
      (by omega) (by omega)
    exact ⟨ph', h, hk⟩
  have hdvd : 16 ∣ h.size := htile ▸ extent_dvd hw.mult
  rcases @kallocLoop64_round h n gPml4 (l.length + 3) (l.length + 2) ph l _ hw.spelled hnone (by omega)
    hrest (by omega) with ⟨ph1, -, hk⟩ | ⟨ph1, -, ⟨hlt', -⟩ | ⟨hge, hk⟩⟩
  · exact ⟨ph1, h, hk⟩
  · omega
  -- Now the heap is at its cap, and the sum wraps.
  have hs1 := grown_spelled hw.spelled hge (by omega)
  have hcap1 : (h.grown (h.cap - h.size)).cap = 16777216 := hcap
  have hsize1 : (h.grown (h.cap - h.size)).size = h.size + (h.cap - h.size) := rfl
  rcases growChunk64_huge hcap1 (by omega) hlo hhi with hbig | ⟨hlt1, -⟩
  · obtain ⟨ph', hk'⟩ := @kallocLoop64_null _ _ gPml4 ph1 n hs1 (takeBlock_grown hnone (by omega)) (l.length + 3)
      (l.length + 1) (by simp) (by omega)
    exact ⟨ph', _, hk.trans hk'⟩
  · omega

/-! ## Unsafe calls -/

/-- **A request that no growth can meet** ends with a header outside the heap, if there are frames
enough: each round adds a block that is too small, and at the cap none at all. -/
theorem kalloc_outside {size0 : Nat} (hbig : 16777216 - size0 < n + headerSize)
    (hchunk : ∀ h : HeapMem, h.cap = 16777216 → size0 ≤ h.size → h.size ≤ 16777216 →
      h.size + growChunk64 h (add64 n headerSize) ≤ 16777216 ∧ (4096 ∣ growChunk64 h (add64 n headerSize) ∨
          growChunk64 h (add64 n headerSize) = 16777216 - h.size)) :
    ∀ {fuel inner : Nat} {ph ph' : Phys} {h h' : HeapMem} {l : List BlockHeader} {r : Kalloc},
      Spelled h l → takeBlock n l = none → h.cap = 16777216 → size0 ≤ h.size →
      Roomy ((16777216 - h.size + 4095) / 4096) ph → l.length + fuel < inner →
      kallocLoop64 (frameAddr 1) n inner fuel ph h = some (r, ph', h') → ∃ o, r = .outside o
  | 0, _, _, _, _, _, _, _, _, _, _, _, _, _, heq => absurd heq (by simp [kallocLoop64])
  | fuel + 1, inner, ph, ph', h, h', l, r, hs, hnone, hcap, hsize, hroom, hin, heq => by
    have hsmall := hs.small
    have hhs : headerSize = 16 := rfl
    obtain ⟨hc1, hc2⟩ := hchunk h hcap hsize hsmall
    generalize hc : growChunk64 h (add64 n headerSize) = c at hc1 hc2
    -- The pages of this round are there, and enough stay for the next ones.
    obtain ⟨k, hk, hkle⟩ : ∃ k, k + (c + 4095) / 4096 = (16777216 - h.size + 4095) / 4096 ∧
        (16777216 - (h.size + c) + 4095) / 4096 ≤ k := by
      refine ⟨(16777216 - h.size + 4095) / 4096 - (c + 4095) / 4096, ?_, ?_⟩ <;> omega
    rw [← hk] at hroom
    obtain ⟨ph1, hl, hroom1⟩ := @Roomy.growLoop h.size _ (by omega) k ph hroom
    rcases @kallocLoop64_round h n (frameAddr 1) inner fuel ph l c hs hnone (by omega) hc hc1 with
      ⟨ph2, hl', -⟩ | ⟨ph2, hl', ⟨-, h2, hk'⟩ | ⟨hge, hk'⟩⟩
    · rw [hl] at hl'
      simp at hl'
    · rw [hk'] at heq
      cases heq
      exact ⟨_, rfl⟩
    · rw [hl, Prod.mk.injEq] at hl'
      obtain ⟨-, rfl⟩ := hl'
      rw [hk'] at heq
      refine kalloc_outside hbig hchunk (grown_spelled hs hge hc1) (takeBlock_grown hnone (by omega)) hcap
        (show size0 ≤ h.size + c by omega) ?_ ?_ heq
      · exact ⟨hroom1.bits, hroom1.pml4, hroom1.pdpt, hroom1.pd, le_trans hkle hroom1.room⟩
      · rw [length_append, length_singleton]
        omega

/-- With room, a request that rounds to nothing is met by a block, or goes outside. -/
theorem kalloc_wrapped (hw : WellTiled h l) {fuel inner : Nat} {ph' : Phys} {h' : HeapMem} {r : Kalloc}
    (heq : kallocLoop64 (frameAddr 1) 0 inner fuel roomyPhys h = some (r, ph', h')) :
    (∃ o, r = .block o ∧ h'.size ≤ 16777216) ∨ ∃ o, r = .outside o := by
  have heq := kallocLoop64_mono heq (show fuel ≤ fuel + l.length + 2 by omega)
    (le_add_right inner (l.length + 2))
  have hsmall := hw.spelled.small
  have hcap := hw.cap
  cases ht : takeBlock 0 l with
  | some p =>
    obtain ⟨o, l'⟩ := p
    obtain ⟨h1, hk, -, hsize, -⟩ := @kallocLoop64_take h 0 (frameAddr 1) (inner + (l.length + 2))
      (fuel + l.length + 1) roomyPhys l o l' hw.spelled ht (by omega)
    rw [hk] at heq
    obtain ⟨rfl, -, rfl⟩ := heq
    exact Or.inl ⟨o, rfl, by omega⟩
  | none =>
    obtain ⟨hg1, -⟩ := growChunk64_small (h := h) (show h.size ≤ h.cap by omega) (by omega)
      (show add64 0 headerSize < 2 ^ 63 by decide)
    generalize hc : growChunk64 h (add64 0 headerSize) = c at hg1
    have hroom : Roomy (262136 - (c + 4095) / 4096 + (c + 4095) / 4096) roomyPhys := by
      rw [Nat.sub_add_cancel (by omega)]
      exact roomyPhys_roomy
    obtain ⟨ph1, hl, -⟩ := @Roomy.growLoop h.size _ (by omega) _ _ hroom
    rcases @kallocLoop64_round h 0 (frameAddr 1) (inner + (l.length + 2)) (fuel + l.length + 1)
      roomyPhys l c hw.spelled ht (by omega) hc (by omega) with
      ⟨ph2, hl', -⟩ | ⟨ph2, -, ⟨-, h2, hk⟩ | ⟨hge, hk⟩⟩
    · rw [hl] at hl'
      simp at hl'
    · rw [hk] at heq
      cases heq
      exact Or.inr ⟨_, rfl⟩
    · have hs1 := grown_spelled hw.spelled hge (by omega)
      obtain ⟨o, h2, hk', hsize, -⟩ := @kalloc_of_fits _ _ (frameAddr 1) ph2 0 0 hs1
        (inner + (l.length + 2)) (fuel + l.length) (by simp; omega) le_rfl
        ⟨freshBlock c, by simp, rfl, zero_le _⟩
      rw [hk, hk'] at heq
      obtain ⟨rfl, -, rfl⟩ := heq
      refine Or.inl ⟨o, rfl, ?_⟩
      rw [hsize]
      show h.size + c ≤ 16777216
      omega

/-- The request does not wrap in the rounding, and a block fits, or the cap leaves room for one, or
it is within 16 MB of `2^64`, but not in the last page. -/
def KallocSafe (h : HeapMem) (l : List BlockHeader) (size : Nat) : Prop :=
  size ≤ 2 ^ 64 - 16 ∧ ((∃ b ∈ l, Fits (roundSize size) b) ∨ roundSize size + headerSize ≤ h.cap - h.size ∨
    (2 ^ 64 - 2 ^ 24 - 4096 < roundSize size + headerSize ∧ roundSize size + headerSize ≤ 2 ^ 64 - 4096))

theorem KallocSafe.ok (hw : WellTiled h l) (hsafe : KallocSafe h l size) : KallocOk gPml4 ph h size := by
  obtain ⟨hle, hcases⟩ := hsafe
  obtain ⟨hn, h16, -⟩ := roundSize_of_le hle
  have hfits : (∃ b ∈ l, Fits (roundSize size) b) → KallocOk gPml4 ph h size := fun hfit => by
    obtain ⟨o, h', hk, -, hgood⟩ := @kalloc_of_fits h l gPml4 ph size _ hw.spelled (l.length + 1)
      l.length (by omega) hn hfit
    exact ⟨l.length + 1, _, _, _, (kalloc64_inited hw.inited _).trans hk, hgood⟩
  rcases hcases with hfit | hroom | ⟨hlo, hhi⟩
  · exact hfits hfit
  · cases ht : takeBlock (roundSize size) l with
    | some p =>
      obtain ⟨l1, b, l2, rfl, -, hb, -, -⟩ := takeBlock_eq_some ht
      exact hfits ⟨b, by simp, hb⟩
    | none =>
      obtain ⟨r, ph', h', hk, hgood⟩ := @kalloc_of_room h l gPml4 ph size _ hw hn ht hroom
      exact ⟨l.length + 2, r, ph', h', (kalloc64_inited hw.inited _).trans hk, hgood⟩
  · obtain ⟨ph', h', hk⟩ := @kalloc_of_huge h l gPml4 ph _ hw h16 hlo hhi
    exact ⟨l.length + 3, _, ph', h', (kalloc64_inited hw.inited _).trans hk, trivial⟩

/-- With room for everything the heap may map, an unsafe request does harm. -/
theorem not_ok_of_not_safe (hw : WellTiled h l) (hsize : size < 2 ^ 64)
    (hsafe : ¬ KallocSafe h l size) : ¬ KallocOk (frameAddr 1) roomyPhys h size := by
  rintro ⟨fuel, r, ph', h', heq, hgood⟩
  rw [kalloc64_inited hw.inited] at heq
  have hcap := hw.cap
  have hhs : headerSize = 16 := rfl
  by_cases hle : size ≤ 2 ^ 64 - 16
  swap
  · have hzero : roundSize size = 0 := by
      unfold roundSize add64
      split <;> omega
    rw [hzero] at heq
    rcases kalloc_wrapped hw heq with ⟨o, rfl, hs'⟩ | ⟨o, rfl⟩
    · obtain ⟨h1, h2⟩ : size ≤ (h'.hdr o).size ∧ o + headerSize + (h'.hdr o).size ≤ h'.size := hgood
      omega
    · exact hgood
  obtain ⟨hn, h16, hn64⟩ := roundSize_of_le hle
  obtain ⟨hfit, hrest⟩ := not_or.mp fun hc => hsafe ⟨hle, hc⟩
  generalize roundSize size = n at *
  have hnone : takeBlock n l = none := takeBlock_eq_none.mpr fun b hb hf => hfit ⟨b, hb, hf⟩
  have hbig : 16777216 - h.size < n + headerSize := by omega
  have hroom : Roomy ((16777216 - h.size + 4095) / 4096) roomyPhys :=
    ⟨roomyPhys_roomy.bits, rfl, rfl, fun _ => rfl, le_trans (by omega) roomyPhys_roomy.room⟩
  have heq := kallocLoop64_mono heq le_rfl (le_add_right fuel (l.length + fuel + 1))
  suffices hchunk : ∀ h1 : HeapMem, h1.cap = 16777216 → h.size ≤ h1.size → h1.size ≤ 16777216 →
      h1.size + growChunk64 h1 (add64 n headerSize) ≤ 16777216 ∧
        (4096 ∣ growChunk64 h1 (add64 n headerSize) ∨ growChunk64 h1 (add64 n headerSize) = 16777216 - h1.size) by
    obtain ⟨o, rfl⟩ := kalloc_outside hbig hchunk hw.spelled hnone hcap le_rfl hroom (by omega) heq
    exact hgood
  intro h1 hcap1 hlo1 hhi1
  -- the request plus a header is small, in the last page, or the whole of `2^64`
  by_cases hlow : n + headerSize ≤ 2 ^ 64 - 2 ^ 24 - 4096
  · -- more than the cap leaves, but not so much that it wraps
    obtain ⟨c, hc, -, h3, -, -, heq⟩ := @growChunk64_eq h1 (n + headerSize) (by omega) hcap1.le (by omega)
    rw [add64_of_lt (by omega), heq, if_pos (by omega)]
    omega
  by_cases htop : n + headerSize < 2 ^ 64
  · rw [growChunk64_wrap (by omega) hcap1 (by rw [add64_of_lt htop]; omega)
      (by rw [add64_of_lt htop]; omega)]
    omega
  · have hadd : add64 n headerSize = 0 := by
      unfold add64
      omega
    -- asked for nothing, the heap grows by 64 KB or up to its cap
    obtain ⟨c, -, -, h3, -, h5, heq⟩ := @growChunk64_eq h1 0 (by omega) hcap1.le (by omega)
    rw [hadd, heq]
    split <;> omega

/-- **When `kalloc` is safe**, on a well-tiled heap, whatever the frames and tables are like. -/
theorem kalloc_safe_iff (hw : WellTiled h l) (hsize : size < 2 ^ 64) :
    (∀ gPml4 ph, KallocOk gPml4 ph h size) ↔ KallocSafe h l size := by
  refine ⟨fun hall => ?_, fun hsafe _ _ => hsafe.ok hw⟩
  by_contra hsafe
  exact not_ok_of_not_safe hw hsize hsafe (hall _ _)

end Safe

/-! ## A heap at its cap -/

/-- A heap of 16 MB in one block. -/
def cappedHeap (free : Bool) : HeapMem :=
  { hdr := fun _ => { size := 16777200, free := free }, size := 16777216, cap := 16777216,
    inited := true }

theorem cappedHeap_wellTiled (free : Bool) :
    WellTiled (cappedHeap free) [{ size := 16777200, free := free }] where
  spelled :=
    { spells := ⟨rfl, trivial⟩
      tile := by simp only [extent, blockLen, headerSize, cappedHeap]
      small := by simp only [cappedHeap, le_refl] }
  mult := fun b hb => by
    obtain rfl := mem_singleton.mp hb
    exact ⟨1048575, by norm_num⟩
  inited := rfl
  cap := rfl

theorem kalloc_safe_iff_capped : KallocOk (frameAddr 1) roomyPhys (cappedHeap true) 100 :=
  (kalloc_safe_iff (cappedHeap_wellTiled true) (by decide)).mpr
    ⟨by decide, Or.inl ⟨_, mem_singleton.mpr rfl, rfl, by decide⟩⟩ (frameAddr 1) roomyPhys

/-- With the heap full and at its cap, `heap_grow` adds nothing and answers `true`, and `kalloc`
writes a header at the end of the heap. -/
theorem kalloc_leaves_heap : WellTiled (cappedHeap false) [{ size := 16777200, free := false }] ∧
    kalloc64 (frameAddr 1) 2 roomyPhys (cappedHeap false) 1 =
      some (.outside 16777216, roomyPhys, cappedHeap false) ∧
    ¬ KallocOk (frameAddr 1) roomyPhys (cappedHeap false) 1 := by
  refine ⟨cappedHeap_wellTiled false, ?_, not_ok_of_not_safe (cappedHeap_wellTiled false) (by decide) ?_⟩
  · have hgrow : heapGrow64 (frameAddr 1) roomyPhys (cappedHeap false) (add64 16 headerSize) =
        (true, roomyPhys, cappedHeap false) := by
      have hchunk : growChunk64 (cappedHeap false) (add64 16 headerSize) = 0 := by decide
      unfold heapGrow64
      simp only [hchunk]
      rfl
    rw [kalloc64_inited rfl, show roundSize 1 = 16 from rfl]
    unfold kallocLoop64
    rw [hgrow]
    rfl
  · rintro ⟨-, ⟨b, hb, hfit⟩ | hroom | ⟨hlo, -⟩⟩
    · obtain rfl := mem_singleton.mp hb
      exact absurd hfit.1 (by decide)
    · exact absurd hroom (by decide)
    · exact absurd hlo (by decide)

end MinicOs
