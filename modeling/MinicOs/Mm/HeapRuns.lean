import MinicOs.Mm.HeapHeaders

/-!
# Runs of the heap

What every sequence of `kalloc` and `kfree` calls keeps. The state is the heap with its headers and,
beside it, the pointers handed out and not yet given back, each with the size asked for. A run starts
after `heap_init`; between calls the rest of the kernel may do anything to frames and tables.
-/

namespace MinicOs

open List Function Relation

/-- The dimensions of an initialised heap. -/
structure HeapDims (h : HeapMem) : Prop where
  inited : h.inited = true
  cap : h.cap = 16777216
  size_le : h.size ≤ h.cap
  pages : 4096 ∣ h.size

variable {l : List BlockHeader} {n : Nat}

/-- **A `kalloc` that returns**: `NULL` and the heap as it was, or the first block that fits, which
may be the part the heap has grown by. -/
theorem kallocLoop64_cases {gPml4 : U64} {inner fuel : Nat} {ph ph' : Phys} {h h' : HeapMem} {r : Kalloc}
    (hs : Spelled h l) (hb : Blocks h.size l) (hd : HeapDims h) (hn : n < 2 ^ 62) (h16 : 16 ∣ n)
    (heq : kallocLoop64 gPml4 n inner fuel ph h = some (r, ph', h')) (hr : ∀ o, r ≠ .outside o) :
    (r = .null ∧ h' = h) ∨ ∃ l1 b l2, r = .block (extent blockLen l1) ∧ Fits n b ∧
      Spelled h' (l1 ++ splitBlock n b ++ l2) ∧ Blocks h'.size (l1 ++ splitBlock n b ++ l2) ∧
      HeapDims h' ∧ used 0 (l1 ++ b :: l2) = used 0 l := by
  -- Enough fuel for two rounds over the blocks.
  have heq := kallocLoop64_mono heq (Nat.le_add_right fuel 3) (Nat.le_add_right inner (l.length + 3))
  have hin : l.length < inner + (l.length + 3) := by omega
  have hcap := hd.cap
  have hle := hd.size_le
  have hpages := hd.pages
  have hhs : headerSize = 16 := rfl
  cases ht : takeBlock n l with
  | some p =>
    obtain ⟨o, l'⟩ := p
    obtain ⟨h1, hk, hs1, hsize, hc1, hi1⟩ := @kallocLoop64_take h n gPml4 _ (fuel + 2) ph l o l' hs ht hin
    rw [hk] at heq
    obtain ⟨rfl, -, rfl⟩ := heq
    obtain ⟨l1, b, l2, rfl, -, hfit, rfl, rfl⟩ := takeBlock_eq_some ht
    obtain ⟨ha1, ha2, -⟩ := isChain_append.mp hb.apart
    refine Or.inr ⟨l1, b, l2, rfl, hfit, hs1, ?_, ⟨hi1.trans hd.inited, hc1.trans hcap, ?_, ?_⟩, rfl⟩
    · rw [hsize]
      refine blocks_split hb.tile hb.mult h16 hfit ha1 ha2 ?_
      have := hb.last
      rwa [getLast?_append_of_ne_nil _ (by simp)] at this
    · rw [hsize, hc1]; exact hle
    · rw [hsize]; exact hpages
  | none =>
    have hnone := takeBlock_eq_none.mp ht
    have hadd : add64 n headerSize = n + headerSize := add64_of_lt (by omega)
    obtain ⟨hg1, hg2, hg3, hg4⟩ := growChunk64_small hle (by omega)
      (show add64 n headerSize < 2 ^ 63 by rw [hadd]; omega)
    generalize hc : growChunk64 h (add64 n headerSize) = c at hg1 hg2 hg3 hg4
    have h4096 := hg4 hpages (by rw [hcap]; decide)
    rcases @kallocLoop64_round h n gPml4 _ (fuel + 2) ph l c hs ht hin hc (by omega) with
      ⟨ph1, -, hk⟩ | ⟨ph1, -, ⟨-, h1, hk⟩ | ⟨hge, hk⟩⟩
    · rw [hk] at heq
      cases heq
      exact Or.inl ⟨rfl, rfl⟩
    · rw [hk] at heq
      cases heq
      exact absurd rfl (hr _)
    rw [hk] at heq
    have hs1 := grown_spelled hs hge (by omega)
    have hlen1 : (l ++ [freshBlock c]).length < inner + (l.length + 3) := by
      simp only [length_append, length_singleton]
      omega
    by_cases hfit : n ≤ c - headerSize
    · -- The new block is taken.
      have hfit : Fits n (freshBlock c) := ⟨rfl, hfit⟩
      have ht1 := @takeBlock_append n [freshBlock c] l hnone
      rw [takeBlock_cons_of_fits [] hfit, Option.map_some] at ht1
      obtain ⟨h2, hk2, hs2, hsize, hc2, hi2⟩ := @kallocLoop64_take _ n gPml4 _ (fuel + 1) ph1 _ _ _ hs1 ht1 hlen1
      rw [hk2] at heq
      obtain ⟨rfl, -, rfl⟩ := heq
      have hs2' : Spelled h' (l ++ splitBlock n (freshBlock c) ++ []) := by
        rw [append_assoc]
        exact hs2
      refine Or.inr ⟨l, freshBlock c, [], rfl, hfit, hs2', ?_, ⟨hi2.trans hd.inited, hc2.trans hcap, ?_, ?_⟩, ?_⟩
      · refine blocks_split (hs1.tile.trans hsize.symm) (fun b hm => ?_) h16 hfit hb.apart
          (List.IsChain.singleton _) ⟨_, rfl, show 16 ≤ c - headerSize by omega⟩
        rcases mem_append.mp hm with hm | hm
        · exact hb.mult b hm
        · rw [mem_singleton.mp hm]
          show 16 ∣ c - headerSize
          omega
      · rw [hsize, hc2]
        exact hg1
      · rw [hsize]
        exact Nat.dvd_add hpages h4096
      · rw [used_append, used_cons, if_pos (show (freshBlock c).free = true from rfl)]
        exact append_nil _
    · -- The cap left too little: the next round writes outside the heap.
      have hsz : (h.grown c).size = h.size + c := rfl
      have hcp : (h.grown c).cap = h.cap := rfl
      have hc0 : growChunk64 (h.grown c) (add64 n headerSize) = 0 := by
        have := (@growChunk64_small (h.grown c) (add64 n headerSize) (by omega) (by omega) (by omega)).1
        omega
      rcases @kallocLoop64_round _ n gPml4 _ (fuel + 1) ph1 _ 0 hs1 (takeBlock_grown ht (by omega)) hlen1 hc0
        hs1.small with ⟨ph2, hl, -⟩ | ⟨ph2, -, ⟨-, h2, hk2⟩ | ⟨hge2, -⟩⟩
      · simp at hl
      · rw [hk2] at heq
        cases heq
        exact absurd rfl (hr _)
      · omega

/-! ## Runs -/

/-- The heap, and the live pointers with the sizes asked for. -/
structure HeapState where
  heap : HeapMem
  live : Nat → Option Nat

/-- The state `heap_init` leaves. -/
def HeapStart (s : HeapState) : Prop :=
  ∃ gPml4 ph ph' h, h.size = 0 ∧ heapInit gPml4 ph h = (true, ph', s.heap) ∧ s.live = fun _ => none

/-- One call that returns: `kalloc` of less than 4 GB, `kfree` of `NULL` or of a live pointer. -/
inductive HeapStep : HeapState → HeapState → Prop
  | kallocNull {gPml4 : U64} {fuel size : Nat} {ph ph' : Phys} {h h' : HeapMem} {live : Nat → Option Nat} :
      size < 2 ^ 32 → kalloc64 gPml4 fuel ph h size = some (.null, ph', h') →
      HeapStep ⟨h, live⟩ ⟨h', live⟩
  | kallocBlock {gPml4 : U64} {fuel size o : Nat} {ph ph' : Phys} {h h' : HeapMem}
      {live : Nat → Option Nat} :
      size < 2 ^ 32 → kalloc64 gPml4 fuel ph h size = some (.block o, ph', h') →
      HeapStep ⟨h, live⟩ ⟨h', update live (heapBase + o + headerSize) (some size)⟩
  | kfreeNull {fuel : Nat} {h h' : HeapMem} {live : Nat → Option Nat} :
      kfree fuel h 0 = some h' → HeapStep ⟨h, live⟩ ⟨h', live⟩
  | kfree {fuel p n : Nat} {h h' : HeapMem} {live : Nat → Option Nat} :
      live p = some n → kfree fuel h p = some h' →
      HeapStep ⟨h, live⟩ ⟨h', update live p none⟩

/-- The live pointers are those of the blocks in use, which are as large as asked for. -/
structure LiveIs (live : Nat → Option Nat) (u : List (Nat × BlockHeader)) : Prop where
  block : ∀ p n, live p = some n → ∃ o b, p = heapBase + o + headerSize ∧ (o, b) ∈ u ∧ n ≤ b.size
  live : ∀ o b, (o, b) ∈ u → ∃ n, live (heapBase + o + headerSize) = some n

/-- What every call keeps. -/
structure HeapInv (s : HeapState) (l : List BlockHeader) : Prop where
  dims : HeapDims s.heap
  spelled : Spelled s.heap l
  blocks : Blocks s.heap.size l
  live : LiveIs s.live (used 0 l)

variable {s : HeapState}

theorem heapInit_start (h : HeapStart s) : HeapInv s [{ size := s.heap.size - headerSize, free := true }] := by
  obtain ⟨gPml4, ph, ph', ⟨hdr, size, cap, inited⟩, hz, hinit, hlive⟩ := h
  obtain rfl : size = 0 := hz
  unfold heapInit heapGrow64 at hinit
  have hchunk : growChunk64 { hdr := hdr, size := 0, cap := 16777216, inited := inited } 65536 =
      65536 := by
    unfold growChunk64
    simp only
    decide
  simp only [if_true, hchunk] at hinit
  split at hinit
  · simp [headerSize] at hinit
  · simp only [show headerSize ≤ add64 0 65536 by decide, if_true, Prod.mk.injEq, true_and] at hinit
    obtain ⟨-, hheap⟩ := hinit
    have hsize : s.heap.size = 65536 := by
      rw [← hheap]
      show add64 0 65536 = 65536
      decide
    have hhdr : s.heap.hdr 0 = { size := 65520, free := true } := by
      rw [← hheap]
      show update hdr 0 { size := sub64 (add64 0 65536) headerSize, free := true } 0 = _
      rw [update_self]
      decide
    rw [hsize]
    refine ⟨⟨by rw [← hheap], by rw [← hheap]; rfl, ?_, by rw [hsize]; decide⟩,
      ⟨⟨hhdr, trivial⟩, by rw [hsize]; rfl, by rw [hsize]; decide⟩, ⟨by rw [hsize]; rfl, ?_,
      List.IsChain.singleton _, ⟨_, rfl, by decide⟩⟩, ?_⟩
    · rw [hsize, ← hheap]
      show 65536 ≤ 16777216
      decide
    · intro b hb
      rw [mem_singleton.mp hb]
      decide
    · rw [hlive]
      exact ⟨fun p n hp => absurd hp (by simp), fun o b hb => absurd hb (by simp [used, placed])⟩

/-- A pointer is set, and the blocks in use are the same but at its offset. -/
theorem LiveIs.set {live : Nat → Option Nat} {u u' : List (Nat × BlockHeader)} {o : Nat} {v : Option Nat}
    (h : LiveIs live u) (hsame : ∀ x : Nat × BlockHeader, x.1 ≠ o → (x ∈ u' ↔ x ∈ u))
    (hblock : ∀ size, v = some size → ∃ b, (o, b) ∈ u' ∧ size ≤ b.size) (hlive : ∀ b, (o, b) ∈ u' → v ≠ none) :
    LiveIs (update live (heapBase + o + headerSize) v) u' where
  block := by
    intro p k hp
    rw [update_apply] at hp
    split at hp
    next heq =>
      obtain ⟨b, hb, hle⟩ := hblock k hp
      exact ⟨o, b, heq, hb, hle⟩
    next hne =>
      obtain ⟨o', c, rfl, hc, hle⟩ := h.block p k hp
      exact ⟨o', c, rfl, (hsame _ fun heq => hne (by rw [← heq])).mpr hc, hle⟩
  live := by
    intro o' c hc
    by_cases heq : o' = o
    · rw [heq, update_self]
      exact Option.ne_none_iff_exists'.mp (hlive c (heq ▸ hc))
    · rw [update_of_ne (by omega)]
      exact h.live o' c ((hsame _ heq).mp hc)

/-- A block in use has its place in the list, with something behind its header. -/
theorem HeapInv.locate (h : HeapInv s l) {p : Nat} (hp : s.live p = some n) :
    ∃ l1 b l2, l = l1 ++ b :: l2 ∧ b.free = false ∧ n ≤ b.size ∧
      p = heapBase + extent blockLen l1 + headerSize ∧ 0 < b.size + extent blockLen l2 := by
  obtain ⟨o, b, rfl, hb, hle⟩ := h.live.block p n hp
  obtain ⟨hpl, hfree⟩ := mem_used.mp hb
  obtain ⟨l1, l2, rfl, rfl⟩ := mem_placed.mp hpl
  refine ⟨l1, b, l2, rfl, hfree, hle, by rw [Nat.zero_add], ?_⟩
  cases l2 with
  | nil =>
    obtain ⟨c, hc, h16⟩ := h.blocks.last
    obtain rfl : b = c := by simpa using hc
    omega
  | cons c cs =>
    have := blockLen_pos c
    simp only [extent]
    omega

/-- **One call keeps the heap sound.** -/
theorem HeapInv.step {s s' : HeapState} {l : List BlockHeader} (h : HeapInv s l) (hst : HeapStep s s') :
    ∃ l', HeapInv s' l' := by
  cases hst with
  | kallocNull hsize hk =>
    obtain ⟨-, h16, hlt⟩ := roundSize_of_le (hsize.le.trans (by decide))
    rw [kalloc64_inited h.dims.inited] at hk
    rcases kallocLoop64_cases h.spelled h.blocks h.dims (by omega) h16 hk (by simp) with
      ⟨-, rfl⟩ | ⟨l1, b, l2, hr, -⟩
    · exact ⟨l, h⟩
    · simp at hr
  | kallocBlock hsize hk =>
    obtain ⟨hle, h16, hlt⟩ := roundSize_of_le (hsize.le.trans (by decide))
    rw [kalloc64_inited h.dims.inited] at hk
    rcases kallocLoop64_cases h.spelled h.blocks h.dims (by omega) h16 hk (by simp) with
      ⟨hr, -⟩ | ⟨l1, b, l2, hr, hfit, hs, hb, hd, hu⟩
    · simp at hr
    · obtain rfl := Kalloc.block.inj hr
      obtain ⟨hu', hu''⟩ := @used_split b l1 l2 _ hfit
      have hlive := h.live
      rw [← hu, hu''] at hlive
      refine ⟨_, hd, hs, hb, ?_⟩
      rw [hu']
      refine hlive.set (fun x hx => by simp [Prod.ext_iff, hx]) (fun k hk => ?_) (by simp)
      obtain rfl := Option.some.inj hk
      exact ⟨takenBlock _ b, by simp, hle.trans (le_takenBlock hfit)⟩
  | kfreeNull hk =>
    unfold kfree at hk
    simp only [if_true, Option.some.injEq] at hk
    subst hk
    exact ⟨l, h⟩
  | kfree hp hk =>
    rename_i fuel p n hm hm' live
    obtain ⟨l1, b, l2, rfl, hfree, -, rfl, hroom⟩ := h.locate hp
    obtain ⟨hdr', hk', hs'⟩ := @kfree_spelled l1 l2 b _ (fuel + ((l1 ++ b :: l2).length + 1)) h.spelled
      hroom (by omega)
    rw [kfree_mono hk (Nat.le_add_right _ _)] at hk'
    cases hk'
    obtain ⟨hu', hu⟩ := @used_free b l1 l2 hfree
    have hlive := h.live
    rw [hu] at hlive
    refine ⟨_, ⟨h.dims.inited, h.dims.cap, h.dims.size_le, h.dims.pages⟩, hs', blocks_free h.blocks, ?_⟩
    rw [hu']
    refine hlive.set (fun x hx => by simp [Prod.ext_iff, hx]) (by simp) fun c hc => ?_
    -- The other blocks in use lie before the freed one or behind it.
    have hpos := blockLen_pos b
    have hposc := blockLen_pos c
    rcases mem_append.mp hc with hc | hc <;> have := placed_le (mem_used.mp hc).1 <;> omega

/-- What holds of the heap in every state. -/
structure HeapSound (s : HeapState) (l : List BlockHeader) : Prop where
  spells : Spells blockLen s.heap.hdr 0 l
  tile : extent blockLen l = s.heap.size
  mult : ∀ b ∈ l, 16 ∣ b.size
  apart : l.IsChain Apart
  block : ∀ p n, s.live p = some n → ∃ o b, p = heapBase + o + headerSize ∧
    (o, b) ∈ placed blockLen 0 l ∧ b.free = false ∧ n ≤ b.size
  live : ∀ o b, (o, b) ∈ placed blockLen 0 l → b.free = false →
    ∃ n, s.live (heapBase + o + headerSize) = some n
  aligned : ∀ p n, s.live p = some n → 16 ∣ p
  disjoint : ∀ p n p' n', s.live p = some n → s.live p' = some n' → p < p' → p + n ≤ p'
  empty : (∀ p, s.live p = none) → l = [{ size := s.heap.size - headerSize, free := true }]
  returns : ∀ p n, s.live p = some n → ∃ fuel h', kfree fuel s.heap p = some h'

theorem HeapInv.sound (h : HeapInv s l) : HeapSound s l := by
  refine ⟨h.spelled.spells, h.spelled.tile, h.blocks.mult, h.blocks.apart, fun p n hp => ?_,
    fun o b hb hf => h.live.live o b (mem_used.mpr ⟨hb, hf⟩), fun p n hp => ?_,
    fun p n p' n' hp hp' hlt => ?_, fun hnone => h.blocks.single ?_, fun p n hp => ?_⟩
  · obtain ⟨o, b, rfl, hb, hle⟩ := h.live.block p n hp
    exact ⟨o, b, rfl, (mem_used.mp hb).1, (mem_used.mp hb).2, hle⟩
  · obtain ⟨l1, b, l2, rfl, -, -, rfl, -⟩ := h.locate hp
    have h1 : 16 ∣ extent blockLen l1 := extent_dvd fun c hc => h.blocks.mult c (by simp [hc])
    have hbase : heapBase = 1342177280 := rfl
    have hhs : headerSize = 16 := rfl
    omega
  · obtain ⟨o, b, rfl, hb, hle⟩ := h.live.block p n hp
    obtain ⟨o', b', rfl, hb', -⟩ := h.live.block p' n' hp'
    have := placed_disjoint blockLen_pos (mem_used.mp hb).1 (mem_used.mp hb').1 (by omega)
    have hlen : blockLen b = headerSize + b.size := rfl
    omega
  · cases hu : used 0 l with
    | nil => rfl
    | cons x xs =>
      obtain ⟨n, hn⟩ := h.live.live x.1 x.2 (by rw [hu]; simp)
      rw [hnone] at hn
      simp at hn
  · obtain ⟨l1, b, l2, rfl, hfree, -, rfl, hroom⟩ := h.locate hp
    obtain ⟨hdr', hk, -⟩ := @kfree_spelled l1 l2 b _ ((l1 ++ b :: l2).length + 1) h.spelled hroom
      (by omega)
    exact ⟨_, _, hk⟩

theorem HeapInv.run {s0 s : HeapState} (h0 : HeapStart s0) (hrun : ReflTransGen HeapStep s0 s) : ∃ l, HeapInv s l :=
  run_inv (P := fun s => ∃ l, HeapInv s l) (fun _ _ h hst => h.elim fun _ h => h.step hst) hrun ⟨_, heapInit_start h0⟩

/-- **The heap is sound in every run**: the headers tile it, free blocks are apart, the live
pointers are the blocks in use, and once all are freed it is one free block. -/
theorem heap_run {s0 s : HeapState} (h0 : HeapStart s0) (hrun : ReflTransGen HeapStep s0 s) :
    ∃ l, HeapSound s l := by
  obtain ⟨l, hl⟩ := HeapInv.run h0 hrun
  exact ⟨l, hl.sound⟩

/-- **What was freed can be had again**: in every run, after `kfree` of a live pointer a `kalloc` of no more than was asked
for there succeeds, takes no frame and leaves the heap as large as it was. -/
theorem kalloc_after_kfree {s0 s : HeapState} (h0 : HeapStart s0) (hrun : ReflTransGen HeapStep s0 s)
    {p n size fuel : Nat} {h' : HeapMem} (hp : s.live p = some n) (hfree : kfree fuel s.heap p = some h')
    (hsize : size ≤ n) (gPml4 : U64) (ph : Phys) :
    ∃ fuel' o h'', kalloc64 gPml4 fuel' ph h' size = some (.block o, ph, h'') ∧ h''.size = s.heap.size := by
  obtain ⟨l, h⟩ := HeapInv.run h0 hrun
  obtain ⟨l1, b, l2, rfl, -, hn, rfl, hroom⟩ := h.locate hp
  obtain ⟨hdr', hk, hs⟩ := @kfree_spelled l1 l2 b _ (fuel + ((l1 ++ b :: l2).length + 1)) h.spelled hroom (by omega)
  rw [kfree_mono hfree (Nat.le_add_right _ _)] at hk
  cases hk
  -- the block that was freed is part of a free one
  have hb : ({ b with free := true } : BlockHeader).free = true := rfl
  obtain ⟨ha, hale, -⟩ := @absorb_spec l2 _ hb
  obtain ⟨-, ⟨c, hc, hcfree, hcsize⟩, -⟩ := joinLast_spec ha (isChain_append.mp h.blocks.apart).1
  have hmem : c ∈ freeBlock l1 b l2 := mem_append_left _ (mem_of_getLast? hc)
  have hfits : Fits (roundSize size) c := by
    have h16 := h.blocks.mult b (by simp)
    have htile := h.spelled.tile
    have hsmall := h.spelled.small
    rw [extent_append] at htile
    simp only [extent, blockLen] at htile
    have hround := @roundSize_of_le size (by omega)
    exact ⟨hcfree, by simp only at hale; omega⟩
  cases ht : takeBlock (roundSize size) (freeBlock l1 b l2) with
  | none => exact absurd hfits (takeBlock_eq_none.mp ht c hmem)
  | some r =>
    obtain ⟨h'', hk, -, hsize'', -⟩ := @kallocLoop64_take _ _ gPml4 ((freeBlock l1 b l2).length + 1)
      (freeBlock l1 b l2).length ph _ r.1 r.2 hs ht (Nat.lt_succ_self _)
    exact ⟨_, r.1, h'', (kalloc64_inited (h := { s.heap with hdr := hdr' }) h.dims.inited _).trans hk, hsize''⟩

/-! ## One run -/

/-- Frames 8 and up are free, and no table is mapped but the PML4 in frame 1. -/
def bareFrames : Phys :=
  { mem := fun _ _ => 0#64, frames := { bitmap := fun f => decide (f < 8), freeCount := 262136 } }

/-- The heap before `heap_init`. -/
def noHeap : HeapMem := { hdr := fun _ => { size := 0, free := false }, size := 0, cap := 0, inited := false }

/-- The heap after `heap_init`. -/
def freshHeap : HeapMem := (heapInit (frameAddr 1) bareFrames noHeap).2.2

theorem freshHeap_start : HeapStart ⟨freshHeap, fun _ => none⟩ := by
  have heta : ∀ r : Bool × Phys × HeapMem, r.1 = true → r = (true, r.2.1, r.2.2) := by
    rintro ⟨_, _, _⟩ rfl
    rfl
  have hok : (heapInit (frameAddr 1) bareFrames noHeap).1 = true := by decide +kernel
  have hinit := heta (heapInit (frameAddr 1) bareFrames noHeap) hok
  refine ⟨frameAddr 1, bareFrames, (heapInit (frameAddr 1) bareFrames noHeap).2.1, noHeap, rfl, ?_, rfl⟩
  dsimp only
  exact hinit

theorem freshHeap_step : HeapStep ⟨freshHeap, fun _ => none⟩ ⟨(takeAt freshHeap 112 0).2,
    update (fun _ => none) (heapBase + 0 + headerSize) (some 100)⟩ := by
  refine @HeapStep.kallocBlock (frameAddr 1) 2 100 0 bareFrames bareFrames _ _ _ (by decide) ?_
  have hsearch : searchLoop freshHeap 112 2 0 = some (.found 0) := by decide +kernel
  have htake : (takeAt freshHeap 112 0).1 = .block 0 := by decide +kernel
  have hinit : freshHeap.inited = true := by decide +kernel
  unfold kalloc64
  simp only [hinit, if_true, show roundSize 100 = 112 by decide]
  unfold kallocLoop64
  rw [hsearch]
  simp only [htake]

theorem heap_run_kalloc : ∃ l, HeapSound ⟨(takeAt freshHeap 112 0).2,
    Function.update (fun _ => none) (heapBase + 0 + headerSize) (some 100)⟩ l :=
  heap_run freshHeap_start (ReflTransGen.single freshHeap_step)

/-- The first 100 bytes, freed and asked for again. -/
theorem kalloc_after_kfree_fresh : ∃ fuel h' fuel' o h'',
    kfree fuel (takeAt freshHeap 112 0).2 (heapBase + 0 + headerSize) = some h' ∧
      kalloc64 (frameAddr 1) fuel' bareFrames h' 100 = some (.block o, bareFrames, h'') := by
  have hlive : update (fun _ => none) (heapBase + 0 + headerSize) (some 100) (heapBase + 0 + headerSize) = some 100 :=
    update_self _ _ _
  obtain ⟨l, hl⟩ := (heapInit_start freshHeap_start).step freshHeap_step
  obtain ⟨fuel, h', hfree⟩ := hl.sound.returns (heapBase + 0 + headerSize) 100 hlive
  obtain ⟨fuel', o, h'', hk, -⟩ := kalloc_after_kfree freshHeap_start (.single freshHeap_step)
    (p := heapBase + 0 + headerSize) hlive hfree le_rfl (frameAddr 1) bareFrames
  dsimp only at hfree
  exact ⟨fuel, h', fuel', o, h'', hfree, hk⟩

end MinicOs
