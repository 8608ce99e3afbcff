import MinicOs.Mm.Heap

/-!
# The number of free frames

How many frames are free after each function that takes or gives back frames. `alloc_frame` takes
one if it can; nothing that maps pages gives back more than the frame it took itself. These bounds
hold in every state, whatever the tables in memory look like.
-/

namespace MinicOs

/-! ## The frame count through the allocator -/

theorem allocFrame_freeFrames (fr : Frames) : (allocFrame fr).2.freeFrames = fr.freeFrames - 1 := by
  rcases allocFrame_takes fr with ⟨f, hf, h, -⟩ | ⟨hnone, h⟩
  · rw [h, ← freeFrames_take hf, Nat.add_sub_cancel]
  · rw [h, freeFrames_eq_zero.mpr hnone]

theorem freeFrames_pos_of_alloc {fr : Frames} (h : (allocFrame fr).1 ≠ 0#64) : 0 < fr.freeFrames := by
  rcases allocFrame_takes fr with ⟨f, hf, -⟩ | ⟨-, h0⟩
  · exact Nat.pos_of_ne_zero fun h0 => freeFrames_eq_zero.mp h0 f hf
  · exact absurd (by rw [h0]) h

/-- The allocator after `n` calls of `alloc_frame`. -/
def Frames.allocs (fr : Frames) : Nat → Frames
  | 0 => fr
  | n + 1 => (allocFrame (fr.allocs n)).2

theorem allocs_add (fr : Frames) (n : Nat) : ∀ m, fr.allocs (n + m) = (fr.allocs n).allocs m
  | 0 => rfl
  | m + 1 => by
    show (allocFrame (fr.allocs (n + m))).2 = (allocFrame ((fr.allocs n).allocs m)).2
    rw [allocs_add fr n m]

theorem freeFrames_allocs (fr : Frames) : ∀ n, (fr.allocs n).freeFrames = fr.freeFrames - n
  | 0 => (Nat.sub_zero _).symm
  | n + 1 => by
    show (allocFrame (fr.allocs n)).2.freeFrames = _
    rw [allocFrame_freeFrames, freeFrames_allocs fr n]
    omega

theorem freeFrame_freeFrames_le (fr : Frames) (a : U64) : (freeFrame fr a).freeFrames ≤ fr.freeFrames + 1 := by
  unfold freeFrame
  simp only
  split
  · rename_i hb
    by_cases hlt : frameNum a % 2 ^ 32 < totalFrames
    · exact le_of_eq (freeFrames_give hlt hb)
    · refine le_trans (Finset.card_le_card fun g hg => ?_) (Nat.le_add_right _ 1)
      rw [Finset.mem_filter, Finset.mem_range] at hg ⊢
      refine ⟨hg.1, ?_⟩
      rw [← hg.2, give_bitmap, if_neg (by omega)]
  · omega

/-- A frame that was taken and given back, with others taken in between. -/
theorem freeFrame_alloc_le {fr fr' : Frames} (h0 : (allocFrame fr).1 ≠ 0#64)
    (h : fr'.freeFrames ≤ (allocFrame fr).2.freeFrames) (a : U64) : (freeFrame fr' a).freeFrames ≤ fr.freeFrames := by
  have h1 := freeFrame_freeFrames_le fr' a
  have h2 := freeFrames_pos_of_alloc h0
  rw [allocFrame_freeFrames] at h
  omega

/-! ## Mapping -/

theorem tableGetOrCreate_allocs (ph : Phys) (t : U64) (i : Nat) :
    ∃ n, (tableGetOrCreate ph t i).2.frames = ph.frames.allocs n := by
  unfold tableGetOrCreate
  simp only
  split
  · exact ⟨0, rfl⟩
  · split <;> exact ⟨1, rfl⟩

theorem mapPageIn_allocs (ph : Phys) (pml4 v paddr flags : U64) :
    ∃ n, (mapPageIn ph pml4 v paddr flags).2.frames = ph.frames.allocs n := by
  obtain ⟨n3, h3⟩ := tableGetOrCreate_allocs ph pml4 (idx4 v)
  unfold mapPageIn
  simp only
  split
  · exact ⟨n3, h3⟩
  · obtain ⟨n2, h2⟩ := tableGetOrCreate_allocs (tableGetOrCreate ph pml4 (idx4 v)).2
      (tableGetOrCreate ph pml4 (idx4 v)).1 (idx3 v)
    rw [h3, ← allocs_add] at h2
    split
    · exact ⟨n3 + n2, h2⟩
    · obtain ⟨n1, h1⟩ := tableGetOrCreate_allocs (tableGetOrCreate
        (tableGetOrCreate ph pml4 (idx4 v)).2 (tableGetOrCreate ph pml4 (idx4 v)).1 (idx3 v)).2
        (tableGetOrCreate (tableGetOrCreate ph pml4 (idx4 v)).2 (tableGetOrCreate ph pml4 (idx4 v)).1 (idx3 v)).1 (idx2 v)
      rw [h2, ← allocs_add] at h1
      split <;> exact ⟨n3 + n2 + n1, h1⟩

theorem mapPageIn_freeFrames_le (ph : Phys) (pml4 v paddr flags : U64) :
    (mapPageIn ph pml4 v paddr flags).2.frames.freeFrames ≤ ph.frames.freeFrames := by
  obtain ⟨n, hn⟩ := mapPageIn_allocs ph pml4 v paddr flags
  rw [hn, freeFrames_allocs]
  exact Nat.sub_le _ _

/-- The first allocation of an address space is never undone. -/
theorem cloneAddressSpace_allocs (ph : Phys) (gPml4 : U64) :
    ∃ n, (cloneAddressSpace ph gPml4).2.frames = ph.frames.allocs (n + 1) := by
  unfold cloneAddressSpace
  simp only
  split
  · exact ⟨0, rfl⟩
  · split <;> exact ⟨1, rfl⟩

/-! ## The heap -/

theorem growPage_freeFrames_le (gPml4 : U64) (size j : Nat) (ph : Phys) :
    (growPage gPml4 size j ph).2.frames.freeFrames ≤ ph.frames.freeFrames := by
  have ha := le_of_eq_of_le (allocFrame_freeFrames ph.frames) (Nat.sub_le _ 1)
  unfold growPage
  simp only
  split
  · exact ha
  · rename_i h0
    have hm := mapPageIn_freeFrames_le { ph with frames := (allocFrame ph.frames).2 } gPml4
      (BitVec.ofNat 64 (heapBase + size + j * 4096)) (allocFrame ph.frames).1 (0x02#64 ||| pageNx)
    split
    · exact hm.trans ha
    · exact freeFrame_alloc_le h0 hm _

theorem heapGrow_freeFrames_le (ph : Phys) (gPml4 : U64) (h : Heap) (n : Nat) :
    (heapGrow ph gPml4 h n).2.1.frames.freeFrames ≤ ph.frames.freeFrames := by
  have hl := loopOk_inv (P := fun s : Phys => s.frames.freeFrames ≤ ph.frames.freeFrames)
    (l := List.range ((growChunk h n + 4095) / 4096))
    (fun j _ s hs => (growPage_freeFrames_le gPml4 h.size j s).trans hs) le_rfl
  unfold heapGrow
  simp only
  cases hr : loopOk (growPage gPml4 h.size) (List.range ((growChunk h n + 4095) / 4096)) ph with
  | mk ok ph' =>
    rw [hr] at hl
    cases ok <;> exact hl

theorem kallocLoop_freeFrames_le {gPml4 : U64} {size : Nat} :
    ∀ {fuel : Nat} {ph ph' : Phys} {h h' : Heap} {a : U64},
      kallocLoop gPml4 size fuel ph h = some (a, ph', h') →
      ph'.frames.freeFrames ≤ ph.frames.freeFrames
  | 0, _, _, _, _, _, heq => absurd heq (by simp [kallocLoop])
  | fuel + 1, ph, ph', h, h', a, heq => by
    unfold kallocLoop at heq
    split at heq
    · cases heq
      rfl
    · split at heq
      · simp at heq
      · have hg := heapGrow_freeFrames_le ph gPml4 h (size + headerSize)
        split at heq
        · rename_i ph1 h1 hgrow
          cases heq
          rwa [hgrow] at hg
        · rename_i ph1 h1 hgrow
          rw [hgrow] at hg
          exact (kallocLoop_freeFrames_le heq).trans hg

end MinicOs
