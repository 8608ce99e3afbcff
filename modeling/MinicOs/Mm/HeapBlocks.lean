import Mathlib.Data.List.Chain
import MinicOs.Lib.Chain
import MinicOs.Mm.Heap

/-!
# The heap as a list of blocks

What `kalloc` and `kfree` do to the list of blocks that the headers spell. `splitBlock` is what
`kalloc` makes of the block it takes; `absorb` and `joinLast` are the forward and the backward
coalescing of `kfree`. `Blocks size l` is the shape the list keeps: it covers the heap, no two free
blocks are neighbours, and the last block has room for a pointer into it.
-/

namespace MinicOs

open List

/-- The bytes a block takes, its header included. -/
def blockLen (b : BlockHeader) : Nat := headerSize + b.size

theorem blockLen_pos (b : BlockHeader) : 0 < blockLen b := by
  unfold blockLen headerSize
  omega

theorem extent_dvd : ∀ {l : List BlockHeader}, (∀ b ∈ l, 16 ∣ b.size) → 16 ∣ extent blockLen l
  | [], _ => by simp [extent]
  | b :: bs, h => by
    have h1 := h b (by simp)
    have h2 := extent_dvd fun c hc => h c (mem_cons_of_mem b hc)
    simp only [extent, blockLen, headerSize]
    omega

/-! ## Taking a block -/

/-- `kalloc` takes the block: it is free and large enough. -/
def Fits (size : Nat) (b : BlockHeader) : Prop := b.free = true ∧ size ≤ b.size

instance (size : Nat) (b : BlockHeader) : Decidable (Fits size b) := inferInstanceAs (Decidable (_ ∧ _))

/-- What is left of a block `kalloc` takes. -/
def splitBlock (size : Nat) (b : BlockHeader) : List BlockHeader :=
  if size + headerSize + 16 ≤ b.size then
    [{ size := size, free := false }, { size := b.size - size - headerSize, free := true }]
  else [{ b with free := false }]

variable {b : BlockHeader} {size : Nat}

theorem extent_splitBlock : extent blockLen (splitBlock size b) = blockLen b := by
  unfold splitBlock
  split
  · simp only [extent, blockLen, headerSize] at *
    omega
  · rfl

theorem takeBlock_cons_of_fits (bs : List BlockHeader) (h : Fits size b) :
    takeBlock size (b :: bs) = some (0, splitBlock size b ++ bs) := by
  unfold takeBlock splitBlock
  rw [if_pos (show b.free = true ∧ size ≤ b.size from h)]
  split <;> rfl

theorem takeBlock_cons_of_not (bs : List BlockHeader) (h : ¬ Fits size b) :
    takeBlock size (b :: bs) = (takeBlock size bs).map fun r => (blockLen b + r.1, b :: r.2) := by
  rw [takeBlock, if_neg (show ¬ (b.free = true ∧ size ≤ b.size) from h)]
  rfl

theorem takeBlock_eq_none : ∀ {l : List BlockHeader},
    takeBlock size l = none ↔ ∀ b ∈ l, ¬ Fits size b
  | [] => by simp [takeBlock]
  | b :: bs => by
    by_cases h : Fits size b
    · rw [takeBlock_cons_of_fits bs h]
      simp [h]
    · rw [takeBlock_cons_of_not bs h, Option.map_eq_none_iff, takeBlock_eq_none]
      simp [h]

/-- **The search loop takes the first block that fits.** -/
theorem takeBlock_eq_some {o : Nat} {l' : List BlockHeader} : ∀ {l : List BlockHeader},
    takeBlock size l = some (o, l') → ∃ l1 b l2, l = l1 ++ b :: l2 ∧ (∀ c ∈ l1, ¬ Fits size c) ∧
      Fits size b ∧ o = extent blockLen l1 ∧ l' = l1 ++ splitBlock size b ++ l2
  | [], h => absurd h (by simp [takeBlock])
  | b :: bs, h => by
    by_cases hb : Fits size b
    · rw [takeBlock_cons_of_fits bs hb] at h
      cases h
      exact ⟨[], b, bs, rfl, by simp, hb, rfl, rfl⟩
    · rw [takeBlock_cons_of_not bs hb] at h
      obtain ⟨⟨o1, l1'⟩, h1, h2⟩ := Option.map_eq_some_iff.mp h
      obtain ⟨l1, c, l2, rfl, hl1, hc, rfl, rfl⟩ := takeBlock_eq_some h1
      cases h2
      refine ⟨b :: l1, c, l2, rfl, ?_, hc, rfl, rfl⟩
      intro d hd
      rcases mem_cons.mp hd with rfl | hd
      · exact hb
      · exact hl1 d hd

/-- The search passes over blocks that do not fit. -/
theorem takeBlock_append {size : Nat} {l' : List BlockHeader} : ∀ {l : List BlockHeader},
    (∀ b ∈ l, ¬ Fits size b) →
      takeBlock size (l ++ l') = (takeBlock size l').map fun r => (extent blockLen l + r.1, l ++ r.2)
  | [], _ => by
    simp only [nil_append, extent, Nat.zero_add]
    cases takeBlock size l' <;> rfl
  | b :: bs, h => by
    rw [cons_append, takeBlock_cons_of_not _ (h b (by simp)),
      takeBlock_append fun c hc => h c (by simp [hc])]
    cases takeBlock size l' with
    | none => rfl
    | some r => simp only [Option.map_some, extent, cons_append, Nat.add_assoc]

/-! ## Giving a block back -/

/-- The forward coalescing of `kfree`: the block takes in the free blocks right after it. -/
def absorb : BlockHeader → List BlockHeader → BlockHeader × List BlockHeader
  | b, [] => (b, [])
  | b, c :: cs =>
    if c.free = true then absorb { b with size := b.size + headerSize + c.size } cs else (b, c :: cs)

/-- The backward coalescing of `kfree`: the block goes into the one before it, if that is free. -/
def joinLast (l : List BlockHeader) (b : BlockHeader) : List BlockHeader :=
  match l.getLast? with
  | some p =>
    if p.free = true then l.dropLast ++ [{ p with size := p.size + headerSize + b.size }] else l ++ [b]
  | none => [b]

/-- The blocks after `kfree` of the block `b` between `l1` and `l2`. -/
def freeBlock (l1 : List BlockHeader) (b : BlockHeader) (l2 : List BlockHeader) : List BlockHeader :=
  joinLast l1 (absorb { b with free := true } l2).1 ++ (absorb { b with free := true } l2).2

theorem joinLast_append (l : List BlockHeader) (p b : BlockHeader) : joinLast (l ++ [p]) b =
    if p.free = true then l ++ [{ p with size := p.size + headerSize + b.size }]
    else l ++ [p] ++ [b] := by
  unfold joinLast
  rw [getLast?_concat, dropLast_concat]

theorem extent_joinLast (l : List BlockHeader) (b : BlockHeader) :
    extent blockLen (joinLast l b) = extent blockLen l + blockLen b := by
  rcases eq_nil_or_concat l with rfl | ⟨l0, p, rfl⟩
  · simp [joinLast, extent]
  · rw [concat_eq_append, joinLast_append]
    split <;> simp only [extent_append, extent, blockLen] <;> omega

/-! ## The shape of the list -/

/-- Not both of two neighbours are free. -/
def Apart (a b : BlockHeader) : Prop := ¬ (a.free = true ∧ b.free = true)

/-- The blocks cover the heap in multiples of 16 bytes, free blocks are apart, and the last block
is not empty. -/
structure Blocks (size : Nat) (l : List BlockHeader) : Prop where
  tile : extent blockLen l = size
  mult : ∀ b ∈ l, 16 ∣ b.size
  apart : l.IsChain Apart
  last : ∃ b ∈ l.getLast?, 16 ≤ b.size

variable {l l1 l2 : List BlockHeader}

theorem Blocks.ne_nil (h : Blocks size l) : l ≠ [] := by
  rintro rfl
  obtain ⟨b, hb, -⟩ := h.last
  simp at hb

/-- The block `kalloc` hands out. -/
def takenBlock (size : Nat) (b : BlockHeader) : BlockHeader :=
  { size := if size + headerSize + 16 ≤ b.size then size else b.size, free := false }

theorem le_takenBlock (h : Fits size b) : size ≤ (takenBlock size b).size := by
  unfold takenBlock
  have := h.2
  split <;> simp_all

/-- What `kalloc` takes comes first, and behind it at most one free block, with room. -/
theorem splitBlock_cases (size : Nat) (b : BlockHeader) :
    splitBlock size b = [takenBlock size b] ∨ ∃ r : BlockHeader, r.free = true ∧ 16 ≤ r.size ∧
      splitBlock size b = [takenBlock size b, r] := by
  unfold splitBlock takenBlock
  split
  · exact .inr ⟨_, rfl, show 16 ≤ b.size - size - headerSize by omega, rfl⟩
  · exact .inl rfl

theorem splitBlock_mult (hsize : 16 ∣ size) (hb : 16 ∣ b.size) : ∀ c ∈ splitBlock size b, 16 ∣ c.size := by
  unfold splitBlock
  split
  · simp only [mem_cons, not_mem_nil, or_false, forall_eq_or_imp, forall_eq, headerSize]
    omega
  · simpa using hb

/-- **Taking a block keeps the shape**, even a block whose left neighbour is free. -/
theorem blocks_split {n : Nat} (htile : extent blockLen (l1 ++ b :: l2) = size)
    (hmult : ∀ c ∈ l1 ++ b :: l2, 16 ∣ c.size) (hn : 16 ∣ n) (hfit : Fits n b) (h1 : l1.IsChain Apart)
    (h2 : (b :: l2).IsChain Apart) (hlast : ∃ c ∈ (b :: l2).getLast?, 16 ≤ c.size) :
    Blocks size (l1 ++ splitBlock n b ++ l2) := by
  obtain ⟨hhead, h2⟩ := isChain_cons.mp h2
  have hfree : ∀ y ∈ l2.head?, y.free = false := fun y hy => by
    cases hf : y.free with
    | false => rfl
    | true => exact absurd ⟨hfit.1, hf⟩ (hhead y hy)
  refine ⟨?_, fun c hc => ?_, ?_, ?_⟩
  · rw [← htile, extent_append, extent_append, extent_append, extent_splitBlock]
    simp only [extent]
    omega
  · rcases mem_append.mp hc with hc | hc
    · rcases mem_append.mp hc with hc | hc
      · exact hmult c (by simp [hc])
      · exact splitBlock_mult hn (hmult b (by simp)) c hc
    · exact hmult c (by simp [hc])
  · -- the block that was taken is apart from both its neighbours
    have htaken : ∀ {rest : List BlockHeader}, rest.IsChain Apart → (l1 ++ takenBlock n b :: rest).IsChain Apart := by
      refine fun h => isChain_append.mpr ⟨h1, isChain_cons.mpr ⟨fun y _ hx => Bool.noConfusion hx.1, h⟩, ?_⟩
      rintro x _ y ⟨⟩ hx
      exact Bool.noConfusion hx.2
    rw [append_assoc]
    rcases splitBlock_cases n b with heq | ⟨r, hr, -, heq⟩
    · rw [heq]
      exact htaken h2
    · rw [heq]
      refine htaken (isChain_cons.mpr ⟨fun y hy hx => ?_, h2⟩)
      rw [hfree y hy] at hx
      exact Bool.noConfusion hx.2
  · cases l2 with
    | cons c cs =>
      rw [getLast?_append_of_ne_nil _ (by simp)]
      rwa [getLast?_cons_cons] at hlast
    | nil =>
      rw [append_nil]
      obtain ⟨c, hc, h16⟩ := hlast
      obtain rfl : b = c := by simpa using hc
      rcases splitBlock_cases n b with heq | ⟨r, -, hr, heq⟩
      · rw [heq, getLast?_concat]
        refine ⟨_, rfl, ?_⟩
        unfold splitBlock at heq
        split at heq
        · simp at heq
        · rename_i hlt
          unfold takenBlock
          simp only [if_neg hlt]
          exact h16
      · rw [heq, getLast?_append_of_ne_nil _ (by simp)]
        exact ⟨r, rfl, hr⟩

/-! ## Freeing keeps the shape -/

/-- What forward coalescing makes of a free block followed by `l2`: a free block at least as large,
followed by blocks that are apart from it, and the same bytes in all. -/
theorem absorb_spec : ∀ {l2 : List BlockHeader} {b : BlockHeader}, b.free = true →
    (absorb b l2).1.free = true ∧ b.size ≤ (absorb b l2).1.size ∧
      extent blockLen ((absorb b l2).1 :: (absorb b l2).2) = extent blockLen (b :: l2) ∧
      (absorb b l2).2 <:+ l2 ∧ (∀ y ∈ (absorb b l2).2.head?, y.free = false) ∧
      ((∀ c ∈ b :: l2, 16 ∣ c.size) → 16 ∣ (absorb b l2).1.size)
  | [], b, hb => ⟨hb, le_rfl, rfl, suffix_rfl, by simp [absorb], fun h => h b (by simp)⟩
  | c :: cs, b, hb => by
    unfold absorb
    by_cases hc : c.free = true
    · rw [if_pos hc]
      have hb' : ({ b with size := b.size + headerSize + c.size } : BlockHeader).free = true := hb
      obtain ⟨h1, h2, h3, h4, h5, h6⟩ := @absorb_spec cs _ hb'
      refine ⟨h1, by simp only at h2; omega, ?_, h4.trans (suffix_cons c cs), h5, fun hm => ?_⟩
      · rw [h3]
        simp only [extent, blockLen]
        omega
      · refine h6 fun d hd => ?_
        have hbm := hm b (by simp)
        have hcm := hm c (by simp)
        rcases mem_cons.mp hd with rfl | hd
        · show 16 ∣ b.size + headerSize + c.size
          unfold headerSize
          omega
        · exact hm d (by simp [hd])
    · rw [if_neg hc]
      refine ⟨hb, le_rfl, rfl, suffix_rfl, fun y hy => ?_, fun h => h b (by simp)⟩
      obtain rfl : c = y := by simpa using hy
      simpa using hc

/-- What backward coalescing makes of blocks that are apart and a free block after them. -/
theorem joinLast_spec (hb : b.free = true) (hl : l.IsChain Apart) : (joinLast l b).IsChain Apart ∧
      (∃ c ∈ (joinLast l b).getLast?, c.free = true ∧ b.size ≤ c.size) ∧
      ((∀ c ∈ l ++ [b], 16 ∣ c.size) → ∀ c ∈ joinLast l b, 16 ∣ c.size) := by
  rcases eq_nil_or_concat l with rfl | ⟨l0, p, rfl⟩
  · exact ⟨List.IsChain.singleton b, ⟨b, rfl, hb, le_rfl⟩, fun h => h⟩
  rw [concat_eq_append] at hl ⊢
  rw [joinLast_append]
  rw [isChain_append] at hl
  obtain ⟨h0, -, hp⟩ := hl
  by_cases hf : p.free = true
  · rw [if_pos hf]
    refine ⟨isChain_append.mpr ⟨h0, List.IsChain.singleton _, fun x hx y hy => ?_⟩,
      ⟨_, getLast?_concat, hf, ?_⟩, fun hm c hc => ?_⟩
    · obtain rfl : _ = y := by simpa using hy
      exact hp x hx p (by simp)
    · show b.size ≤ p.size + headerSize + b.size
      omega
    · rcases mem_append.mp hc with hc | hc
      · exact hm c (by simp [hc])
      · rw [mem_singleton.mp hc]
        have h1 := hm p (by simp)
        have h2 := hm b (by simp)
        show 16 ∣ p.size + headerSize + b.size
        unfold headerSize
        omega
  · rw [if_neg hf]
    refine ⟨isChain_append.mpr ⟨?_, List.IsChain.singleton b, fun x hx y _ hxy => ?_⟩,
      ⟨b, getLast?_concat, hb, le_rfl⟩, fun hm => hm⟩
    · exact isChain_append.mpr ⟨h0, List.IsChain.singleton p, hp⟩
    · obtain rfl : p = x := by simpa using hx
      exact hf hxy.1

theorem extent_freeBlock (l1 : List BlockHeader) (b : BlockHeader) (l2 : List BlockHeader) :
    extent blockLen (freeBlock l1 b l2) = extent blockLen (l1 ++ b :: l2) := by
  obtain ⟨-, -, h, -⟩ := @absorb_spec l2 { b with free := true } rfl
  have hb : blockLen ({ b with free := true } : BlockHeader) = blockLen b := rfl
  unfold freeBlock
  rw [extent_append, extent_append, extent_joinLast]
  simp only [extent] at h ⊢
  omega

/-- **Freeing a block keeps the shape.** -/
theorem blocks_free (h : Blocks size (l1 ++ b :: l2)) : Blocks size (freeBlock l1 b l2) := by
  obtain ⟨h1, h2, -⟩ := isChain_append.mp h.apart
  obtain ⟨-, h2⟩ := isChain_cons.mp h2
  have hb : ({ b with free := true } : BlockHeader).free = true := rfl
  obtain ⟨ha1, ha2, ha3, ha4, ha5, ha6⟩ := @absorb_spec l2 _ hb
  obtain ⟨hj1, ⟨c, hc, -, hcs⟩, hj4⟩ := joinLast_spec ha1 h1
  have hmb : ∀ c ∈ ({ b with free := true } : BlockHeader) :: l2, 16 ∣ c.size := fun c hc => by
    rcases mem_cons.mp hc with rfl | hc
    · exact h.mult b (by simp)
    · exact h.mult c (by simp [hc])
  refine ⟨?_, fun d hd => ?_, ?_, ?_⟩
  · rw [extent_freeBlock]
    exact h.tile
  · rcases mem_append.mp hd with hd | hd
    · refine hj4 (fun e he => ?_) d hd
      rcases mem_append.mp he with he | he
      · exact h.mult e (by simp [he])
      · rw [mem_singleton.mp he]
        exact ha6 hmb
    · exact hmb d (mem_cons_of_mem _ (ha4.subset hd))
  · refine isChain_append.mpr ⟨hj1, h2.suffix ha4, fun x _ y hy hxy => ?_⟩
    rw [ha5 y hy] at hxy
    exact Bool.noConfusion hxy.2
  · unfold freeBlock
    obtain ⟨e, he, h16⟩ := h.last
    rw [getLast?_append_of_ne_nil _ (by simp)] at he
    cases hl : (absorb { b with free := true } l2).2 with
    | cons d ds =>
      refine ⟨e, ?_, h16⟩
      obtain ⟨pre, hpre⟩ := ha4
      rw [hl] at hpre
      rw [getLast?_append_of_ne_nil _ (by simp)]
      rwa [← hpre, ← cons_append, getLast?_append_of_ne_nil _ (by simp)] at he
    | nil =>
      -- Everything behind was taken in: the block itself was the last, or it grew by a header.
      rw [append_nil]
      refine ⟨c, hc, le_trans ?_ hcs⟩
      rw [hl] at ha3
      cases l2 with
      | nil =>
        obtain rfl : b = e := by simpa using he
        exact h16
      | cons d ds =>
        simp only [extent, blockLen, headerSize] at ha3
        omega

/-! ## The blocks in use -/

/-- The blocks in use, with their offsets. -/
def used (a : Nat) (l : List BlockHeader) : List (Nat × BlockHeader) :=
  (placed blockLen a l).filter fun p => !p.2.free

theorem mem_used {a o : Nat} : (o, b) ∈ used a l ↔ (o, b) ∈ placed blockLen a l ∧ b.free = false := by
  unfold used
  simp

theorem used_append (a : Nat) (l l' : List BlockHeader) :
    used a (l ++ l') = used a l ++ used (a + extent blockLen l) l' := by
  unfold used
  rw [placed_append, filter_append]

theorem used_cons (a : Nat) (b : BlockHeader) (l : List BlockHeader) :
    used a (b :: l) = (if b.free = true then [] else [(a, b)]) ++ used (a + blockLen b) l := by
  unfold used
  simp only [placed, filter_cons]
  cases b.free <;> simp

theorem used_split {n : Nat} (h : Fits n b) : used 0 (l1 ++ splitBlock n b ++ l2) =
      used 0 l1 ++ (extent blockLen l1, takenBlock n b) :: used (extent blockLen l1 + blockLen b) l2 ∧
    used 0 (l1 ++ b :: l2) = used 0 l1 ++ used (extent blockLen l1 + blockLen b) l2 := by
  constructor
  · rw [append_assoc, used_append, used_append, extent_splitBlock, Nat.zero_add]
    refine congrArg (used 0 l1 ++ ·) ?_
    rcases splitBlock_cases n b with heq | ⟨r, hr, -, heq⟩
    · rw [heq, used_cons]
      rfl
    · rw [heq, used_cons, used_cons, if_pos hr]
      rfl
  · rw [used_append, used_cons, if_pos h.1, Nat.zero_add]
    rfl

/-- Freeing a block removes it from those in use. -/
theorem used_absorb : ∀ {l2 : List BlockHeader} {b : BlockHeader} (a : Nat), b.free = true →
    used (a + blockLen (absorb b l2).1) (absorb b l2).2 = used (a + blockLen b) l2
  | [], _, _, _ => rfl
  | c :: cs, b, a, hb => by
    unfold absorb
    by_cases hc : c.free = true
    · have hb' : ({ b with size := b.size + headerSize + c.size } : BlockHeader).free = true := hb
      rw [if_pos hc, used_absorb a hb', used_cons, if_pos hc, nil_append]
      refine congrArg (used · cs) ?_
      simp only [blockLen]
      omega
    · rw [if_neg hc]

theorem used_joinLast (hb : b.free = true) : used 0 (joinLast l b) = used 0 l := by
  rcases eq_nil_or_concat l with rfl | ⟨l0, p, rfl⟩
  · simp [joinLast, hb, used, placed]
  · rw [concat_eq_append, joinLast_append]
    by_cases hf : p.free = true
    · rw [if_pos hf, used_append, used_append, used_cons, used_cons, if_pos hf, if_pos hf]
      rfl
    · rw [if_neg hf, used_append 0 (l0 ++ [p]), used_cons, if_pos hb]
      simp [used, placed]

theorem used_free (hb : b.free = false) :
    used 0 (freeBlock l1 b l2) = used 0 l1 ++ used (extent blockLen l1 + blockLen b) l2 ∧ used 0 (l1 ++ b :: l2) =
      used 0 l1 ++ (extent blockLen l1, b) :: used (extent blockLen l1 + blockLen b) l2 := by
  have hb' : ({ b with free := true } : BlockHeader).free = true := rfl
  obtain ⟨ha1, -⟩ := @absorb_spec l2 _ hb'
  constructor
  · unfold freeBlock
    rw [used_append, used_joinLast ha1, extent_joinLast, Nat.zero_add, used_absorb _ hb']
    rfl
  · rw [used_append, used_cons, if_neg (by simp [hb]), Nat.zero_add]
    rfl

/-- **With no block in use the heap is one free block.** -/
theorem Blocks.single (h : Blocks size l) (hu : used 0 l = []) : l = [{ size := size - headerSize, free := true }] := by
  have hall : ∀ b ∈ l, b.free = true := fun b hb => by
    cases hf : b.free with
    | true => rfl
    | false =>
      obtain ⟨l1, l2, rfl⟩ := append_of_mem hb
      have : (0 + extent blockLen l1, b) ∈ used 0 (l1 ++ b :: l2) :=
        mem_used.mpr ⟨mem_placed.mpr ⟨l1, l2, rfl, rfl⟩, hf⟩
      rw [hu] at this
      simp at this
  cases l with
  | nil => exact absurd rfl h.ne_nil
  | cons b bs =>
    cases bs with
    | nil =>
      have htile := h.tile
      have hb := hall b (by simp)
      cases b
      simp only [extent, blockLen, headerSize] at htile hb ⊢
      simp only [cons.injEq, BlockHeader.mk.injEq, and_true]
      exact ⟨by omega, hb⟩
    | cons c cs =>
      have := (isChain_cons_cons.mp h.apart).1
      exact absurd ⟨hall b (by simp), hall c (by simp)⟩ this

end MinicOs
