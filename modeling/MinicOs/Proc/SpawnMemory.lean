import MinicOs.Mm.Cpu
import MinicOs.Mm.KernelMap
import MinicOs.Proc.SpawnFrames

/-!
# The memory a process starts with

`alloc_frame` does not clear the frames it hands out and `spawn_process` writes only the bytes of
the image, so a new process finds in its stack page, and behind the end of the image in its last
image page, what the frames held before. Which frames these are follows from the bitmap and the
addresses alone: the allocator hands out the free frames in order, and each page takes one for
itself and one for each table it is the first to need.
-/

namespace MinicOs

open Function List

/-! ## The order of allocation -/

/-- The frame that the call after `n` others hands out. -/
def Frames.nth (fr : Frames) (n : Nat) : Nat := frameNum (allocFrame (fr.allocs n)).1

variable {fr : Frames}

/-- With no frame free, further calls change nothing. -/
theorem allocs_none (h : fr.freeFrames = 0) : ∀ n, fr.allocs n = fr
  | 0 => rfl
  | n + 1 => by
    show (allocFrame (fr.allocs n)).2 = fr
    rw [allocs_none h n]
    rcases allocFrame_takes fr with ⟨f, hf, -⟩ | ⟨-, h0⟩
    · exact absurd hf (freeFrames_eq_zero.mp h f)
    · rw [h0]

/-- The number of calls is the number of frames that are gone. -/
theorem allocs_of_count {n c : Nat} (h : (fr.allocs n).freeFrames + c = fr.freeFrames) : fr.allocs n = fr.allocs c := by
  rw [freeFrames_allocs] at h
  by_cases hn : n ≤ fr.freeFrames
  · rw [show c = n by omega]
  · have hc : c = fr.freeFrames := by omega
    rw [show n = c + (n - c) by omega, allocs_add, allocs_none]
    rw [freeFrames_allocs]
    omega

/-! ## The bytes of a page -/

theorem byteAt_storeByte (m : Mem) (f i : Nat) (b : U8) (g o : Nat) :
    byteAt (storeByte m f i b) g o = if g = f ∧ o = i then b else byteAt m g o := by
  unfold byteAt storeByte
  rw [store_apply]
  by_cases hg : g = f ∧ o / 8 = i / 8
  · rw [if_pos hg]
    by_cases ho : o % 8 = i % 8
    · rw [if_pos ⟨hg.1, by omega⟩, ho, getByte_setByte_self _ _ (by omega)]
    · rw [if_neg (by omega), getByte_setByte_ne _ (by omega) _ ho, hg.1, hg.2]
  · rw [if_neg hg, if_neg (by rintro ⟨h1, h2⟩; exact hg ⟨h1, by rw [h2]⟩)]

/-- The copy loop writes its bytes and nothing else. -/
theorem byteAt_copyBytes (f g o : Nat) : ∀ (bytes : List U8) (i : Nat) (m : Mem),
    byteAt (copyBytes f i bytes m) g o =
      if g = f ∧ i ≤ o then (bytes[o - i]?).getD (byteAt m g o) else byteAt m g o
  | [], i, m => by
    unfold copyBytes
    split <;> simp
  | b :: bs, i, m => by
    unfold copyBytes
    rw [byteAt_copyBytes f g o bs (i + 1), byteAt_storeByte]
    by_cases hg : g = f
    · by_cases hlt : i + 1 ≤ o
      · rw [if_pos ⟨hg, hlt⟩, if_neg (show ¬ (g = f ∧ o = i) by omega),
          if_pos (show g = f ∧ i ≤ o from ⟨hg, by omega⟩),
          show o - i = (o - (i + 1)) + 1 by omega, getElem?_cons_succ]
      · by_cases heq : o = i
        · rw [if_neg (by omega), if_pos ⟨hg, heq⟩, if_pos ⟨hg, by omega⟩, heq, Nat.sub_self,
            getElem?_cons_zero]
          rfl
        · rw [if_neg (by omega), if_neg (by omega), if_neg (by omega)]
    · rw [if_neg (by omega), if_neg (by omega), if_neg (by omega)]

theorem copyBytes_other {f g : Nat} (h : g ≠ f) : ∀ (bytes : List U8) (i : Nat) (m : Mem),
    copyBytes f i bytes m g = m g
  | [], _, _ => rfl
  | b :: bs, i, m => by
    unfold copyBytes
    rw [copyBytes_other h bs]
    exact funext fun j => store_of_ne _ fun e => h e.1

/-! ## A fresh page -/

/-- A frame `n` that was free is mapped at `v` in the address space `r`. -/
structure FreshMapped (own own' : Nat → Owner) (r n : Nat) (v flags : U64) (ph ph' : Phys) : Prop where
  was : own n = .free
  page : own' n = .page
  owned : Owned own' ph'.frames
  tree : TableTree own' r ph'.mem
  grown : Grown (Owner.OfTree r) own own' ph.mem ph'.mem
  leaf : ∀ hv : Private v,
    leafAt ph'.mem r = update (leafAt ph.mem r) (pageOf v hv) (some (mkLeaf (frameAddr n) flags))
  tables : TablesGrown r v { ph with frames := ph.frames.take n } ph'
  frames : ph'.frames = ph.frames.allocs (1 + (tableMissing ph.mem r (.pd (idx3 v)) +
    tableMissing ph.mem r (.pt (idx3 v) (idx2 v))))

variable {own own' : Nat → Owner} {ph ph' : Phys} {v : U64} {r : Nat}

/-- **A frame allocated and mapped**: it is the next one, and the tables it needs come after it. -/
theorem mapPageIn_fresh (ho : Owned own ph.frames) (h : TableTree own r ph.mem) (hv : Private v) {flags : U64}
    (h0 : (allocFrame ph.frames).1 ≠ 0#64)
    (hm : mapPageIn { ph with frames := (allocFrame ph.frames).2 } (frameAddr r) v (allocFrame ph.frames).1 flags =
      (true, ph')) :
    ∃ own', FreshMapped own own' r (ph.frames.nth 0) v flags ph ph' := by
  obtain ⟨k, hk⟩ := mapPageIn_allocs { ph with frames := (allocFrame ph.frames).2 } (frameAddr r) v
    (allocFrame ph.frames).1 flags
  rw [hm] at hk
  rcases ho.allocFrame with ⟨n, hn, halloc⟩ | ⟨-, halloc⟩
  swap
  · rw [halloc] at h0
    exact absurd rfl h0
  have hnth : ph.frames.nth 0 = n := by
    show frameNum (allocFrame ph.frames).1 = n
    rw [halloc]
    exact hn.num
  rw [hnth]
  rw [halloc] at hk
  have hm : mapPageIn { ph with frames := ph.frames.take n } (frameAddr r) v (frameAddr n) flags = (true, ph') := by
    rw [← hm, halloc]
  have htree : TableTree (update own n .page) r { ph with frames := ph.frames.take n : Phys }.mem := (h.mono fun f _ hf =>
    ⟨by rw [update_of_ne (hn.ne (by rw [hf]; simp)), hf], rfl⟩).2.2
  obtain ⟨own', hown, ht, hg, hleaf, htab⟩ := mapPageIn_private (ho.take hn (by simp)) htree hv hm
  refine ⟨own', hn.own, (hg.keeps (by simp) (by simp [Owner.OfTree]) (update_self _ _ _)).1, hown, ht,
    (Grown.take hn.own _ fun _ _ => rfl).trans (not_ofTree_free r) hg, fun _ => hleaf, htab, ?_⟩
  have hk' : ph'.frames = ph.frames.allocs (1 + k) := by
    rw [allocs_add]
    show ph'.frames = (allocFrame ph.frames).2.allocs k
    rw [halloc]
    exact hk
  have hcount : ph'.frames.freeFrames + (tableMissing ph.mem r (.pd (idx3 v)) +
      tableMissing ph.mem r (.pt (idx3 v) (idx2 v))) = (ph.frames.take n).freeFrames := htab.count
  have htake := freeFrames_take hn.free
  rw [hk']
  refine allocs_of_count ?_
  rw [← hk']
  omega

/-! ## The pages of the image -/

/-- The address of the image's page `j`. -/
def pageVa (loadVaddr : U64) (j : Nat) : U64 := loadVaddr + BitVec.ofNat 64 j * 4096#64

/-- The positions of the private tables that lead to the addresses. -/
def tablesOf (vs : List U64) : Finset Pos :=
  (vs.flatMap fun v => [Pos.pd (idx3 v), Pos.pt (idx3 v) (idx2 v)]).toFinset

/-- The frames `spawn_process` has taken before it takes the one for page `j`: the PML4 and the
PDPT, a frame for each earlier page, and the tables that lead to them. -/
def framesBefore (loadVaddr : U64) (j : Nat) : Nat :=
  2 + j + (tablesOf ((List.range j).map (pageVa loadVaddr))).card

/-- The frame of the image's page `j`. The stack's frame is the one after the last page's. -/
def imageFrame (fr : Frames) (loadVaddr : U64) (j : Nat) : Nat := fr.nth (framesBefore loadVaddr j)

theorem tablesOf_append (vs : List U64) (v : U64) :
    tablesOf (vs ++ [v]) = insert (.pd (idx3 v)) (insert (.pt (idx3 v) (idx2 v)) (tablesOf vs)) := by
  unfold tablesOf
  ext pos
  simp only [flatMap_append, flatMap_cons, flatMap_nil, append_nil,
    mem_toFinset, mem_append, Finset.mem_insert, mem_cons, not_mem_nil, or_false]
  tauto

variable {j : Nat}

/-- The pages of an image that memory can hold are all different. -/
theorem pageVa_page_inj {loadVaddr : U64} {i : Nat} (hi : i < totalFrames) (hj : j < totalFrames)
    (vi : Private (pageVa loadVaddr i)) (vj : Private (pageVa loadVaddr j)) (h : pageOf _ vi = pageOf _ vj) : i = j := by
  have hto : ∀ k, k < totalFrames →
      (pageVa loadVaddr k).toNat = (loadVaddr.toNat + k * 4096) % 2 ^ 64 := fun k hk => by
    have htot : totalFrames = 262144 := rfl
    unfold pageVa
    rw [BitVec.toNat_add, BitVec.toNat_mul, BitVec.toNat_ofNat, BitVec.toNat_ofNat,
      Nat.mod_eq_of_lt (show k < 2 ^ 64 by omega), Nat.mod_eq_of_lt (show 4096 < 2 ^ 64 by omega),
      Nat.mod_eq_of_lt (show k * 4096 < 2 ^ 64 by omega)]
  simp only [pageOf, Page.mk.injEq, idx3_eq, idx2_eq, idx1_eq, hto i hi, hto j hj] at h
  have htot : totalFrames = 262144 := rfl
  omega

/-- Two addresses lie in one page. -/
def samePage (v w : U64) : Bool :=
  idx4 v == idx4 w && idx3 v == idx3 w && idx2 v == idx2 w && idx1 v == idx1 w

theorem samePage_iff {w : U64} (hv : Private v) (hw : Private w) : samePage v w = true ↔ pageOf v hv = pageOf w hw := by
  unfold samePage pageOf
  rw [hv.1, hw.1]
  simp [and_assoc]

section Load

variable {fr : Frames} {m : Mem} {loadVaddr : U64} {image : List U8} {g r : Nat}

/-- The byte at offset `o` of the image's page `i`, in a frame that held `m` before: the image's
own byte, or what the frame held. -/
def imageByte (fr : Frames) (m : Mem) (loadVaddr : U64) (image : List U8) (i o : Nat) : U8 :=
  (image[i * 4096 + o]?).getD (byteAt m (imageFrame fr loadVaddr i) o)

/-- The leaf of the image's page at `v`, when `j` pages are loaded. -/
def imageLeaf (fr : Frames) (loadVaddr : U64) (j : Nat) (v : U64) : Option U64 :=
  (scan j fun i => samePage v (pageVa loadVaddr i)).map fun i => mkLeaf (frameAddr (imageFrame fr loadVaddr i)) 0x06#64

/-- The state when `j` pages of the image are loaded, from a state with the allocator `fr` and the
memory `m`: the pages are mapped to their frames and filled, nothing else is mapped, and the frames
still free hold what they held. -/
structure Loaded (fr : Frames) (m : Mem) (loadVaddr : U64) (image : List U8) (g r j : Nat)
    (own : Nat → Owner) (ph : Phys) : Prop where
  owned : Owned own ph.frames
  tree : TableTree own r ph.mem
  kernel : KernelMap own ph g
  frames : ph.frames = fr.allocs (framesBefore loadVaddr j)
  tables : HasTables ph.mem r (tablesOf ((List.range j).map (pageVa loadVaddr)))
  leaf : ∀ v (hv : Private v), leafAt ph.mem r (pageOf v hv) = imageLeaf fr loadVaddr j v
  page : ∀ i < j, own (imageFrame fr loadVaddr i) = .page
  bytes : ∀ i < j, ∀ o < 4096,
    byteAt ph.mem (imageFrame fr loadVaddr i) o = imageByte fr m loadVaddr image i o
  free : ∀ f, own f = .free → ph.mem f = m f

section Pages

variable (h : Loaded fr m loadVaddr image g r j own ph)
include h

theorem Loaded.nth : ph.frames.nth 0 = imageFrame fr loadVaddr j := by
  rw [h.frames]
  rfl

/-- Pages are loaded only while there are frames. -/
theorem Loaded.lt (h0 : (allocFrame ph.frames).1 ≠ 0#64) : j < totalFrames := by
  have hpos := freeFrames_pos_of_alloc h0
  rw [h.frames, freeFrames_allocs] at hpos
  have hle : fr.freeFrames ≤ totalFrames := by
    refine le_trans (Finset.card_filter_le _ _) (le_of_eq (Finset.card_range _))
  unfold framesBefore at hpos
  omega

/-- The pages loaded, and what the next one's frame held, when it is mapped. -/
theorem Loaded.fresh {flags : U64} (hf : FreshMapped own own' r (imageFrame fr loadVaddr j) v flags ph ph') :
    (∀ i ≤ j, own' (imageFrame fr loadVaddr i) = .page) ∧ (∀ i < j, imageFrame fr loadVaddr i ≠ imageFrame fr loadVaddr j ∧
        ph'.mem (imageFrame fr loadVaddr i) = ph.mem (imageFrame fr loadVaddr i)) ∧
      ph'.mem (imageFrame fr loadVaddr j) = m (imageFrame fr loadVaddr j) := by
  have hpage : ∀ i < j, _ := fun i hi => hf.grown.keeps (by simp) (by simp [Owner.OfTree]) (h.page i hi)
  refine ⟨fun i hi => ?_, fun i hi => ⟨fun e => ?_, (hpage i hi).2⟩, ?_⟩
  · rcases Nat.lt_or_eq_of_le hi with hlt | rfl
    · exact (hpage i hlt).1
    · exact hf.page
  · have := h.page i hi
    rw [e, hf.was] at this
    simp at this
  · rw [hf.grown.mem _ (by rw [hf.page]; simp [Owner.OfTree]), h.free _ hf.was]

theorem Loaded.leaf_succ (hj : j < totalFrames) (hpriv : ∀ i ≤ j, Private (pageVa loadVaddr i)) (hv : Private v) :
    update (leafAt ph.mem r) (pageOf _ (hpriv j le_rfl)) (some (mkLeaf (frameAddr (imageFrame fr loadVaddr j)) 0x06#64))
      (pageOf v hv) = imageLeaf fr loadVaddr (j + 1) v := by
  unfold imageLeaf
  by_cases hpg : pageOf v hv = pageOf _ (hpriv j le_rfl)
  · have hscan : scan (j + 1) (fun i => samePage v (pageVa loadVaddr i)) = some j := by
      refine scan_eq_some.mpr ⟨by omega, (samePage_iff hv _).mpr hpg, fun i hi => Bool.eq_false_iff.mpr fun e => ?_⟩
      have := pageVa_page_inj (by omega) hj (hpriv i (by omega)) (hpriv j le_rfl) (((samePage_iff hv _).mp e).symm.trans hpg)
      omega
    rw [hpg, update_self, hscan]
    rfl
  · have hlast : samePage v (pageVa loadVaddr j) = false := Bool.eq_false_iff.mpr fun e => hpg ((samePage_iff hv _).mp e)
    rw [update_of_ne hpg, h.leaf v hv, imageLeaf, scan_succ hlast]

/-- **One round of the loading loop.** -/
theorem Loaded.step (hpriv : ∀ i ≤ j, Private (pageVa loadVaddr i))
    (heq : loadPage (frameAddr r) loadVaddr j (pageBytes image j) ph = (true, ph')) :
    ∃ own', Loaded fr m loadVaddr image g r (j + 1) own' ph' := by
  unfold loadPage at heq
  simp only [show loadVaddr + BitVec.ofNat 64 j * 4096#64 = pageVa loadVaddr j from rfl] at heq
  split at heq
  · simp at heq
  rename_i h0
  split at heq
  swap
  · simp at heq
  rename_i hm
  have hv := hpriv j le_rfl
  obtain ⟨own', hf⟩ := mapPageIn_fresh h.owned h.tree hv h0 (Prod.ext hm rfl)
  rw [h.nth] at hf
  obtain ⟨hpage, hkept, hframe⟩ := h.fresh hf
  generalize mapPageIn { ph with frames := (allocFrame ph.frames).2 } (frameAddr r)
    (pageVa loadVaddr j) (allocFrame ph.frames).1 0x06#64 = res at heq hf hkept hframe
  rw [Prod.mk.injEq, show frameNum (allocFrame ph.frames).1 = imageFrame fr loadVaddr j from h.nth] at heq
  obtain ⟨-, rfl⟩ := heq
  have hcopy : ∀ f, own' f ≠ .page → copyBytes (imageFrame fr loadVaddr j) 0 (pageBytes image j) res.2.mem f = res.2.mem f :=
    fun f h1 => copyBytes_other (fun e => h1 (by rw [e, hf.page])) _ _ _
  obtain ⟨htabs, hleaves, htree⟩ := hf.tree.mono fun f pos h1 => ⟨h1, hcopy f (by rw [h1]; simp)⟩
  refine ⟨own', hf.owned, htree, (hf.grown.kernel h.kernel).mono fun f h1 => ⟨h1, hcopy f (by rw [h1]; simp)⟩, ?_,
    fun pos => ?_, fun w hw => ?_, fun i hi => hpage i (by omega), fun i hi o ho => ?_, fun f h1 => ?_⟩
  · have hcard := h.tables.card_insert (idx3 (pageVa loadVaddr j)) (idx2 (pageVa loadVaddr j))
    rw [← tablesOf_append] at hcard
    rw [hf.frames, h.frames, ← allocs_add]
    refine congrArg fr.allocs ?_
    unfold framesBefore
    rw [range_succ, map_append, map_singleton, hcard]
    omega
  · rw [htabs, range_succ, map_append, map_singleton, tablesOf_append]
    exact hf.tables.hasTables h.tables pos
  · rw [hleaves, hf.leaf hv]
    exact h.leaf_succ (h.lt h0) hpriv hw
  · rw [byteAt_copyBytes]
    by_cases hij : i = j
    · subst hij
      rw [if_pos ⟨rfl, by omega⟩]
      unfold imageByte byteAt pageBytes
      rw [hframe, Nat.sub_zero, getElem?_take_of_lt ho, getElem?_drop]
    · have hi' : i < j := by omega
      rw [if_neg fun e => (hkept i hi').1 e.1, ← h.bytes i hi' o ho]
      unfold byteAt
      rw [(hkept i hi').2]
  · have hfree : own f = .free := by
      by_contra h2
      rw [hf.grown.kept f h2] at h1
      exact h2 h1
    exact (hcopy f (by rw [h1]; simp)).trans
      ((hf.grown.mem f (by rw [h1]; exact not_ofTree_free r)).trans (h.free f hfree))

end Pages

/-- A new address space, with nothing loaded yet. -/
theorem Cloned.loaded {c d : Nat} (h : Cloned own own' ph ph' c d) (hk : KernelMap own ph g)
    (hfr : ∃ n, ph'.frames = ph.frames.allocs n) : Loaded ph.frames ph.mem loadVaddr image g c 0 own' ph' := by
  obtain ⟨htables, hleaves⟩ := tableAt_empty h.pdpt h.empty
  have hc : ∀ f, own f = .kernel → f ≠ c ∧ f ≠ d := fun f hf =>
    ⟨fun e => kernel_ne_free hf (e ▸ h.freeC), fun e => kernel_ne_free hf (e ▸ h.freeD)⟩
  refine ⟨h.owned, h.tree, hk.mono fun f hf => ⟨?_, h.mem f (hc f hf).1 (hc f hf).2⟩, ?_, fun pos => ?_,
    fun v hv => hleaves _, fun i hi => absurd hi (by omega), fun i hi => absurd hi (by omega), fun f hf => ?_⟩
  · rw [h.own_eq, update_of_ne (hc f hf).2, update_of_ne (hc f hf).1, hf]
  · obtain ⟨n, hn⟩ := hfr
    rw [hn]
    refine allocs_of_count ?_
    rw [← hn]
    exact h.count
  · have hpdpt : tableAt ph'.mem c .pdpt = some d := h.pdpt
    cases hp : tableAt ph'.mem c pos with
    | some f => rcases htables pos f hp with ⟨rfl, -⟩ | ⟨rfl, -⟩ <;> simp
    | none =>
      have h1 : pos ≠ .root := fun e => by simp [e, tableAt] at hp
      have h2 : pos ≠ .pdpt := fun e => by simp [e, hpdpt] at hp
      simp [h1, h2, tablesOf]
  · rw [h.own_eq] at hf
    refine h.mem f (fun e => ?_) (fun e => ?_)
    · rw [e, update_of_ne h.ne, update_self] at hf
      simp at hf
    · rw [e, update_self] at hf
      simp at hf

/-! ## The whole address space -/

/-- The state when the image and the stack are mapped. -/
structure Built (fr : Frames) (m : Mem) (loadVaddr stackVaddr : U64) (image : List U8) (g r : Nat)
    (own : Nat → Owner) (ph : Phys) : Prop where
  owned : Owned own ph.frames
  tree : TableTree own r ph.mem
  kernel : KernelMap own ph g
  leaf : ∀ v (hv : Private v), leafAt ph.mem r (pageOf v hv) = if samePage v stackVaddr = true then
    some (mkLeaf (frameAddr (imageFrame fr loadVaddr (imagePages image.length))) (0x06#64 ||| pageNx))
    else imageLeaf fr loadVaddr (imagePages image.length) v
  page : ∀ i ≤ imagePages image.length, own (imageFrame fr loadVaddr i) = .page
  bytes : ∀ i < imagePages image.length, ∀ o < 4096,
    byteAt ph.mem (imageFrame fr loadVaddr i) o = imageByte fr m loadVaddr image i o
  stackBytes : ph.mem (imageFrame fr loadVaddr (imagePages image.length)) =
    m (imageFrame fr loadVaddr (imagePages image.length))
  few : imagePages image.length < totalFrames

variable {stackVaddr : U64}

/-- **The stack page** completes the address space. -/
theorem Loaded.built (h : Loaded fr m loadVaddr image g r (imagePages image.length) own ph) (hs : Private stackVaddr)
    (heq : mapStack (frameAddr r) stackVaddr ph = (true, ph')) :
    ∃ own', Built fr m loadVaddr stackVaddr image g r own' ph' := by
  unfold mapStack at heq
  simp only at heq
  split at heq
  · simp at heq
  rename_i h0
  split at heq
  swap
  · simp at heq
  obtain ⟨own', hf⟩ := mapPageIn_fresh h.owned h.tree hs h0 heq
  rw [h.nth] at hf
  obtain ⟨hpage, hkept, hframe⟩ := h.fresh hf
  refine ⟨own', hf.owned, hf.tree, hf.grown.kernel h.kernel, fun v hv => ?_, hpage, fun i hi o ho => ?_, hframe, h.lt h0⟩
  · rw [hf.leaf hs, update_apply, h.leaf v hv]
    exact if_congr (samePage_iff hv hs).symm rfl rfl
  · rw [← h.bytes i hi o ho]
    unfold byteAt
    rw [(hkept i hi).2]

/-- **`spawn_process` up to its critical section.** -/
theorem buildImage_built (ho : Owned own ph.frames) (hk : KernelMap own ph g)
    (hpriv : ∀ i < imagePages image.length, Private (pageVa loadVaddr i)) (hs : Private stackVaddr)
    (h0 : (buildImage ph (frameAddr g) image loadVaddr stackVaddr).1 ≠ 0#64) :
    ∃ own' r, (buildImage ph (frameAddr g) image loadVaddr stackVaddr).1 = frameAddr r ∧
      Built ph.frames ph.mem loadVaddr stackVaddr image g r own'
        (buildImage ph (frameAddr g) image loadVaddr stackVaddr).2 := by
  obtain ⟨_, hfr⟩ := cloneAddressSpace_allocs ph (frameAddr g)
  unfold buildImage at h0 ⊢
  rcases cloneAddressSpace_cases ho (frameAddr g) with heq | ⟨own1, ph1, c, d, heq, hc0, hcl⟩
  · simp [heq] at h0
  rw [heq] at hfr
  simp only [heq, if_neg hc0] at h0 ⊢
  split at h0
  swap
  · exact absurd rfl h0
  rename_i hl
  rw [if_pos hl]
  have hload : loadImage (frameAddr c) loadVaddr image ph1 =
      (true, (loadImage (frameAddr c) loadVaddr image ph1).2) := Prod.ext hl rfl
  obtain ⟨own2, h2⟩ := loopOk_range (I := fun j s => ∃ own', Loaded ph.frames ph.mem loadVaddr image g c j own' s)
    (fun j hj s s' hI hb => by
      obtain ⟨own', hI⟩ := hI
      exact hI.step (fun i hi => hpriv i (by omega)) hb)
    hload ⟨own1, hcl.loaded hk ⟨_, hfr⟩⟩
  split at h0
  swap
  · exact absurd rfl h0
  rename_i hst
  rw [if_pos hst]
  obtain ⟨own3, h3⟩ := h2.built hs (Prod.ext hst rfl)
  exact ⟨own3, c, rfl, h3⟩

/-- The critical section takes frames for the kernel only. -/
theorem Built.kernelStep (h : Built fr m loadVaddr stackVaddr image g r own ph) (hstep : KernelStep g own ph ph')
    : ∃ own', Built fr m loadVaddr stackVaddr image g r own' ph' := by
  obtain ⟨own', ho, hk, hg⟩ := hstep
  obtain ⟨-, hleaves, htree⟩ := hg.tree h.tree
  have hpage : ∀ i ≤ imagePages image.length, _ := fun i hi => hg.keeps (by simp) (by simp) (h.page i hi)
  refine ⟨own', ho, htree, hk, by rw [hleaves]; exact h.leaf, fun i hi => (hpage i hi).1, fun i hi o hlt => ?_, ?_, h.few⟩
  · rw [← h.bytes i hi o hlt]
    unfold byteAt
    rw [(hpage i (by omega)).2]
  · rw [(hpage _ le_rfl).2, h.stackBytes]

/-- What ring 3 reads at `v` in a process loaded from `image`, out of a state with the allocator
`fr` and the memory `m`. -/
def spawnByte (fr : Frames) (m : Mem) (image : List U8) (loadVaddr stackVaddr v : U64) : Option U8 :=
  if samePage v stackVaddr = true then
    some (byteAt m (imageFrame fr loadVaddr (imagePages image.length)) (v.toNat % 4096))
  else
    (scan (imagePages image.length) fun i => samePage v (pageVa loadVaddr i)).map fun i =>
      imageByte fr m loadVaddr image i (v.toNat % 4096)

theorem Built.userRead (h : Built fr m loadVaddr stackVaddr image g r own ph) (hv : Private v) :
    userRead ph.mem (frameAddr r) v = spawnByte fr m image loadVaddr stackVaddr v := by
  have hlt : ∀ i ≤ imagePages image.length, imageFrame fr loadVaddr i < 2 ^ 51 := fun i hi => by
    have := h.owned.lt (f := imageFrame fr loadVaddr i) (by rw [h.page i hi]; simp)
    have := totalFrames_lt
    omega
  rw [h.tree.userRead_private h.owned hv, h.leaf v hv]
  unfold spawnByte imageLeaf
  split
  · rw [Option.bind_some, userBit_mkLeaf, leafFrame_mkLeaf (hlt _ le_rfl), if_pos (by decide)]
    unfold byteAt
    rw [h.stackBytes]
  · cases hscan : scan (imagePages image.length) fun i => samePage v (pageVa loadVaddr i) with
    | none => rfl
    | some i =>
      obtain ⟨hi, -⟩ := scan_eq_some.mp hscan
      rw [Option.map_some, Option.bind_some, userBit_mkLeaf, leafFrame_mkLeaf (hlt i (by omega)), if_pos (by decide),
        h.bytes i hi _ (by omega)]
      rfl

end Load

/-! ## Spawning -/

/-- Every frame in use belongs to the kernel, as far as a new process is concerned. -/
def kernelOwner (fr : Frames) (f : Nat) : Owner :=
  if f < totalFrames ∧ fr.bitmap f = true then .kernel else .free

/-- The kernel's tables lie in frames in use, apart from one another as the heap needs them, and
the heap is within its cap. -/
structure KernelReady (mm : Mm) : Prop where
  frame0 : mm.phys.frames.bitmap 0 = true
  pml4 : mm.gPml4Phys = frameAddr (frameNum mm.gPml4Phys)
  tables : KernelMap (kernelOwner mm.phys.frames) mm.phys (frameNum mm.gPml4Phys)
  heap : HeapOk mm.heap

theorem kernelOwner_ne_free {f : Nat} : kernelOwner fr f ≠ .free ↔ f < totalFrames ∧ fr.bitmap f = true := by
  unfold kernelOwner
  split <;> simp_all

theorem KernelReady.owned {mm : Mm} (h : KernelReady mm) : Owned (kernelOwner mm.phys.frames) mm.phys.frames := by
  refine ⟨fun f hf => ?_, fun f hf => ?_, ?_⟩
  · rw [kernelOwner_ne_free]
    simp [hf]
  · unfold kernelOwner
    rw [if_neg (by omega)]
  · unfold kernelOwner
    rw [if_pos ⟨by decide, h.frame0⟩]

section Spawn

variable {k k' : Kernel} {image : List U8} {loadVaddr stackVaddr : U64} {sandboxed : Bool} {r : Int}

section Spawned

variable (hready : KernelReady k.mm) (hpriv : ∀ i < imagePages image.length, Private (pageVa loadVaddr i))
  (hs : Private stackVaddr) (h : spawnProcess k image loadVaddr stackVaddr sandboxed = some (r, k')) (hr : 0 ≤ r)

include hready hpriv hs h hr

/-- A successful spawn has built the address space of its record. -/
theorem spawnProcess_built :
    ∃ own c, (k'.procs r).cr3 = frameAddr c ∧ Built k.mm.phys.frames k.mm.phys.mem loadVaddr stackVaddr
      image (frameNum k.mm.gPml4Phys) c own k'.mm.phys := by
  rcases spawnProcess_cases h with ⟨hneg, -⟩ | ⟨procIndex, -, h0, hreg⟩
  · omega
  rw [hready.pml4] at h0 hreg
  obtain ⟨own1, c, hcr3, hb⟩ := buildImage_built hready.owned hready.tables hpriv hs h0
  generalize buildImage _ _ image loadVaddr stackVaddr = built at hreg hcr3 hb
  obtain ⟨t, mm, sched, hcreate, ⟨-, hneg, -⟩ | ⟨-, hr', hk'⟩⟩ := registerSpawn_cases hreg
  · omega
  have hstep : KernelStep (frameNum k.mm.gPml4Phys) own1 built.2 mm.phys := by
    obtain rfl | ⟨stackMem, ph, heap, hkalloc, rfl⟩ := createTaskWithCr3_mm hcreate
    · exact ⟨own1, hb.owned, hb.kernel, Grown.refl _ own1 _⟩
    · exact (kallocLoop_owned hb.owned hb.kernel hready.heap (hready.pml4 ▸ hkalloc)).1
  obtain ⟨own2, hb2⟩ := hb.kernelStep hstep
  have hproc : k'.procs r = spawnRecord built.1 stackVaddr t := by
    rw [hk', hr', wireSpawn_procs]
    exact update_self _ _ _
  refine ⟨own2, c, ?_, ?_⟩
  · rw [hproc]
    exact hcr3
  · rw [hk', wireSpawn_mm]
    exact hb2

/-- **The memory a process starts with**, read from ring 3. -/
theorem spawnProcess_memory (hv : Private v) : userRead k'.mm.phys.mem (k'.procs r).cr3 v =
      spawnByte k.mm.phys.frames k.mm.phys.mem image loadVaddr stackVaddr v := by
  obtain ⟨own, c, hcr3, hb⟩ := spawnProcess_built hready hpriv hs h hr
  rw [hcr3]
  exact hb.userRead hv

end Spawned

/-- The leftovers a new process can read are the same in two memories: those of the stack's frame,
and those behind the end of the image in the frames of the image's pages. -/
def SameResidue (fr : Frames) (m m' : Mem) (image : List U8) (loadVaddr stackVaddr : U64) : Prop :=
  (∀ o < 4096, byteAt m (imageFrame fr loadVaddr (imagePages image.length)) o =
    byteAt m' (imageFrame fr loadVaddr (imagePages image.length)) o) ∧
  ∀ i < imagePages image.length, samePage stackVaddr (pageVa loadVaddr i) = false →
    ∀ o < 4096, image.length ≤ i * 4096 + o →
      byteAt m (imageFrame fr loadVaddr i) o = byteAt m' (imageFrame fr loadVaddr i) o

theorem Page.vaddr_add (pg : Page) {o : Nat} (ho : o < 4096) : ∃ hv : Private (pg.vaddr + BitVec.ofNat 64 o),
    pageOf _ hv = pg ∧ (pg.vaddr + BitVec.ofNat 64 o).toNat % 4096 = o := by
  have hb := toNat_pageVaddr pg.lt3 pg.lt2 pg.lt1
  have h3 := pg.lt3
  have h2 := pg.lt2
  have h1 := pg.lt1
  have hlo := pg.lo
  have hto : (pg.vaddr + BitVec.ofNat 64 o).toNat =
      pg.i3 * 2 ^ 30 + pg.i2 * 2 ^ 21 + pg.i1 * 2 ^ 12 + o := by
    unfold Page.vaddr
    rw [BitVec.toNat_add, hb, BitVec.toNat_ofNat]
    omega
  refine ⟨⟨?_, ?_⟩, ?_, by rw [hto]; omega⟩
  · rw [idx4_eq, hto]; omega
  · rw [idx3_eq, hto]; omega
  · unfold pageOf
    cases pg
    simp only [Page.mk.injEq, idx3_eq, idx2_eq, idx1_eq, hto]
    omega

theorem Page.exists_vaddr (pg : Page) {o : Nat} (ho : o < 4096) :
    ∃ v, ∃ hv : Private v, pageOf v hv = pg ∧ v.toNat % 4096 = o :=
  ⟨_, pg.vaddr_add ho⟩

theorem Page.vaddr_page (pg : Page) : ∃ hv : Private pg.vaddr, pageOf pg.vaddr hv = pg := by
  obtain ⟨hv, hpg, -⟩ := pg.vaddr_add (o := 0) (by decide)
  simp only [BitVec.add_zero] at hv hpg
  exact ⟨hv, hpg⟩

/-- The memory of a new process is the same out of two memories iff the leftovers are. -/
theorem spawnByte_eq_iff {m m' : Mem} (hpriv : ∀ i < imagePages image.length, Private (pageVa loadVaddr i))
    (hs : Private stackVaddr) (hfew : imagePages image.length ≤ totalFrames) :
    (∀ v, Private v → spawnByte fr m image loadVaddr stackVaddr v = spawnByte fr m' image loadVaddr stackVaddr v) ↔
      SameResidue fr m m' image loadVaddr stackVaddr := by
  constructor
  · intro h
    refine ⟨fun o ho => ?_, fun i hi hne o ho hlen => ?_⟩
    · obtain ⟨v, hv, hpg, hoff⟩ := (pageOf _ hs).exists_vaddr ho
      have := h v hv
      unfold spawnByte at this
      rw [if_pos ((samePage_iff hv hs).mpr hpg), if_pos ((samePage_iff hv hs).mpr hpg), hoff] at this
      exact Option.some.inj this
    · obtain ⟨v, hv, hpg, hoff⟩ := (pageOf _ (hpriv i hi)).exists_vaddr ho
      have hns : ¬ samePage v stackVaddr = true := fun e => by
        have := (samePage_iff hv hs).mp e
        rw [Bool.eq_false_iff] at hne
        exact hne ((samePage_iff hs (hpriv i hi)).mpr (this.symm.trans hpg))
      -- Page `i` is the only one at this address.
      have hscan : scan (imagePages image.length) (fun j => samePage v (pageVa loadVaddr j)) =
          some i := by
        refine scan_eq_some.mpr ⟨hi, (samePage_iff hv (hpriv i hi)).mpr hpg, fun j hj => ?_⟩
        rw [Bool.eq_false_iff]
        intro e
        have hij := pageVa_page_inj (by omega) (by omega) (hpriv j (by omega)) (hpriv i hi)
          (((samePage_iff hv (hpriv j (by omega))).mp e).symm.trans hpg)
        omega
      have := h v hv
      unfold spawnByte at this
      rw [if_neg hns, if_neg hns, hscan, hoff] at this
      simp only [Option.map_some, Option.some.injEq, imageByte, getElem?_eq_none hlen, Option.getD_none] at this
      exact this
  · rintro ⟨hst, him⟩ v hv
    have ho : v.toNat % 4096 < 4096 := by omega
    unfold spawnByte
    split
    · rw [hst _ ho]
    · rename_i hns
      cases hscan : scan (imagePages image.length) fun i => samePage v (pageVa loadVaddr i) with
      | none => rfl
      | some i =>
        obtain ⟨hi, hsame, -⟩ := scan_eq_some.mp hscan
        simp only [Option.map_some, Option.some.injEq]
        unfold imageByte
        by_cases hlen : image.length ≤ i * 4096 + v.toNat % 4096
        · rw [him i hi ?_ _ ho hlen]
          rw [Bool.eq_false_iff]
          intro e
          have h1 := (samePage_iff hs (hpriv i hi)).mp e
          have h2 := (samePage_iff hv (hpriv i hi)).mp hsame
          exact hns ((samePage_iff hv hs).mpr (h2.trans h1.symm))
        · rw [getElem?_eq_getElem (by omega)]
          rfl

def Kernel.withMem (k : Kernel) (m : Mem) : Kernel := k.setPhys { k.mm.phys with mem := m }

/-- **No residue of other processes iff** the leftovers agree: out of two states that differ in the
contents of free frames only, a successful spawn gives a process with the same private memory exactly
when the frames it hands out uncleared held the same where the image does not reach. -/
theorem spawn_residue_iff {m : Mem} {k2' : Kernel} {r2 : Int} (hready : KernelReady k.mm)
    (hm : ∀ f, ¬ k.mm.phys.frames.Free f → m f = k.mm.phys.mem f)
    (hpriv : ∀ i < imagePages image.length, Private (pageVa loadVaddr i)) (hs : Private stackVaddr)
    (h : spawnProcess k image loadVaddr stackVaddr sandboxed = some (r, k')) (hr : 0 ≤ r)
    (h2 : spawnProcess (k.withMem m) image loadVaddr stackVaddr sandboxed = some (r2, k2')) (hr2 : 0 ≤ r2) :
    (∀ v, Private v → userRead k'.mm.phys.mem (k'.procs r).cr3 v = userRead k2'.mm.phys.mem (k2'.procs r2).cr3 v) ↔
      SameResidue k.mm.phys.frames k.mm.phys.mem m image loadVaddr stackVaddr := by
  obtain ⟨_, _, _, hb⟩ := spawnProcess_built hready hpriv hs h hr
  rw [← spawnByte_eq_iff hpriv hs (le_of_lt hb.few)]
  refine forall₂_congr fun v hv => ?_
  -- the kernel is as ready in a state that differs in free frames only
  have hready2 : KernelReady (k.withMem m).mm := by
    refine ⟨hready.frame0, hready.pml4, hready.tables.mono fun f hf => ⟨hf, hm f fun hfree => ?_⟩, hready.heap⟩
    have := (kernelOwner_ne_free.mp (by rw [hf]; simp)).2
    rw [hfree.2] at this
    exact Bool.noConfusion this
  rw [spawnProcess_memory hready hpriv hs h hr hv, spawnProcess_memory hready2 hpriv hs h2 hr2 hv]
  rfl

end Spawn

theorem bootKernel_ready : KernelReady bootKernel.mm := by
  have hpml4 : frameNum bootKernel.mm.gPml4Phys = 1 := by decide
  refine ⟨rfl, by decide, ?_, by decide, by decide⟩
  refine ⟨by decide, 2, 4, by decide, by decide, by decide, by decide, by decide, by decide,
    fun i t hi ht => ?_⟩
  have h128 : i = 128 := by
    by_contra hne
    have : bootKernel.mm.phys.mem 4 i = 0#64 := by
      show bootMem 4 i = 0#64
      simp [bootMem, hne]
    rw [nextTable_of_not_present (by rw [this]; rfl)] at ht
    simp at ht
  subst h128
  obtain rfl : 5 = t := Option.some.inj (Eq.trans (by decide) ht)
  decide

/-- Memory at boot, with a byte left over in frame 37, which is free. -/
def leftoverMem : Mem := bootMem.store 37 0 0xAB#64

theorem leftoverMem_free (f : Nat) (hf : ¬ bootKernel.mm.phys.frames.Free f) : leftoverMem f = bootKernel.mm.phys.mem f :=
  funext fun j => store_of_ne _ fun e => hf ⟨by rw [e.1]; decide, by rw [e.1]; decide⟩

theorem spawn_residue_iff_boot : (∀ v, Private v → userRead (spawned bootKernel false).mm.phys.mem
        ((spawned bootKernel false).procs 0).cr3 v = userRead (spawned (bootKernel.withMem leftoverMem) false).mm.phys.mem
        ((spawned (bootKernel.withMem leftoverMem) false).procs 0).cr3 v) ↔
      SameResidue bootFrames bootMem leftoverMem [0x90] 0x80000000 0x80020000 :=
  spawn_residue_iff bootKernel_ready leftoverMem_free (by decide) (by decide)
    (spawned_eq (by decide +kernel)) le_rfl (spawned_eq (by decide +kernel)) le_rfl

/-- A process spawned at boot reads on its stack page what was left in frame 37. -/
theorem spawn_reads_residue : ∃ (k : Kernel) (m : Mem) (k' k2' : Kernel),
      (∀ f, ¬ k.mm.phys.frames.Free f → m f = k.mm.phys.mem f) ∧
      spawnProcess k [0x90] 0x80000000 0x80020000 false = some (0, k') ∧
      spawnProcess (k.withMem m) [0x90] 0x80000000 0x80020000 false = some (0, k2') ∧
      userRead k'.mm.phys.mem (k'.procs 0).cr3 0x80020000 = some 0 ∧
      userRead k2'.mm.phys.mem (k2'.procs 0).cr3 0x80020000 = some 0xAB :=
  ⟨bootKernel, leftoverMem, spawned bootKernel false, spawned (bootKernel.withMem leftoverMem) false,
    leftoverMem_free, spawned_eq (by decide +kernel), spawned_eq (by decide +kernel),
    by decide +kernel, by decide +kernel⟩

/-! ## Addresses that are translated -/

variable {f : Nat}

theorem translateIn_private {m : Mem} (hr : frameNum (frameAddr r) = r) (hv : Private v) : translateIn m (frameAddr r) v =
      ((leafAt m r (pageOf v hv)).map fun e => leafPaddr e ||| (v &&& 0xFFF#64)).getD 0#64 := by
  have hi : (2 ≤ idx3 v ∧ idx3 v < 512) ∧ idx2 v < 512 := ⟨⟨hv.2, idx3_lt v⟩, idx2_lt v⟩
  simp only [translateIn, leafAt, tableAt, nextTable, pageOf, hr, hv.1]
  repeat' split
  all_goals simp_all

/-- **`translate_in` after `map_page_in`**, in every address space: the page that was mapped leads to the frame, and every
other one where it led before. -/
theorem translateIn_mapPageIn {R : Set Nat} {flags : U64} (ho : Owned own ph.frames)
    (h : ∀ q ∈ R, TableTree own q ph.mem) (hr : r ∈ R) (hv : Private v) (hf : f < 2 ^ 51)
    (hm : mapPageIn ph (frameAddr r) v (frameAddr f) flags = (true, ph')) : ∀ q ∈ R, ∀ w (hw : Private w),
      translateIn ph'.mem (frameAddr q) w = if q = r ∧ pageOf w hw = pageOf v hv then frameAddr f ||| (w &&& 0xFFF#64)
        else translateIn ph.mem (frameAddr q) w := by
  intro q hq w hw
  obtain ⟨own', -, -, hg, hleaf, -⟩ := mapPageIn_private ho (h r hr) hv hm
  have hq' := ((h q hq).root_addr ho).2.2
  rw [translateIn_private hq' hw, translateIn_private hq' hw]
  by_cases hqr : q = r
  · subst hqr
    have hp : leafPaddr (mkLeaf (frameAddr f) flags) = frameAddr f :=
      (leafPaddr_eq _).trans (congrArg frameAddr (leafFrame_mkLeaf hf flags))
    rw [hleaf, update_apply]
    by_cases hpg : pageOf w hw = pageOf v hv
    · rw [if_pos hpg, if_pos ⟨rfl, hpg⟩, Option.map_some, Option.getD_some, hp]
    · rw [if_neg hpg, if_neg fun h1 => hpg h1.2]
  · have hl := ((h q hq).mono fun f pos hf' =>
      hg.keeps (by simp) (by rintro ⟨_, h1⟩; exact hqr (Owner.table.inj h1).1) hf').2.1
    rw [hl, if_neg fun h1 => hqr h1.1]

/-- A page mapped in a new process. -/
theorem translateIn_mapPageIn_spawned :
    translateIn (mapPageIn (spawned bootKernel false).mm.phys (frameAddr 32) 0x90000000 (frameAddr 40) 0x06).2.mem
      (frameAddr 32) 0x90000123 = frameAddr 40 ||| 0x123 := by
  obtain ⟨own, c, hcr3, hb⟩ := spawnProcess_built bootKernel_ready (by decide) (by decide)
    (@spawned_eq _ false _ (by decide +kernel)) le_rfl
  rw [show ((spawned bootKernel false).procs 0).cr3 = frameAddr 32 by decide +kernel] at hcr3
  have hm : mapPageIn (spawned bootKernel false).mm.phys (frameAddr c) 0x90000000 (frameAddr 40) 0x06 = (true, _) :=
    Prod.ext (by rw [← hcr3]; decide +kernel) rfl
  rw [hcr3]
  exact (translateIn_mapPageIn hb.owned (fun q (hq : q ∈ ({c} : Set Nat)) => hq ▸ hb.tree) rfl (by decide) (by decide) hm
    c rfl 0x90000123 (by decide)).trans (if_pos ⟨rfl, by decide⟩)

end MinicOs
