import MinicOs.Lib.CopyOnWrite
import MinicOs.Proc.SpawnMemory

/-!
# Address spaces side by side

The address spaces with the PML4 frames `R`, and what `g_cow_frames` counts: `Spaces own R g m`. Their leaves are a
table of mappings in the sense of `CopyOnWrite`, from pages to frames.
-/

namespace MinicOs

open Function Option

/-! ## The references that are counted -/

/-- The references to a frame: one, if `g_cow_frames` has no slot for it. -/
def cowRefs (c : CowTable) (f : Nat) : Nat :=
  (cowFindSlot c (frameAddr f)).elim 1 fun slot => (c slot).refcount.toNat

/-- A slot in use counts at least one. -/
def CowCounted (c : CowTable) : Prop := ∀ i, (c i).used = true → 1 ≤ (c i).refcount

variable {c c' : CowTable} {f i : Nat} {e : CowEntry}

theorem frameAddr_inj {f g : Nat} (hf : f < totalFrames) (hg : g < totalFrames) (h : frameAddr f = frameAddr g) : f = g := by
  have htot := totalFrames_lt
  rw [← frameNum_frameAddr (f := f) (by omega), h, frameNum_frameAddr (by omega)]

theorem cowFindSlot_some {a : U64} (h : cowFindSlot c a = some i) : (c i).used = true ∧ (c i).frame = a := by
  simpa using (scan_eq_some.mp h).2.1

theorem CowCounted.refs_pos (h : CowCounted c) (f : Nat) : 1 ≤ cowRefs c f := by
  unfold cowRefs
  cases hslot : cowFindSlot c (frameAddr f) with
  | none => exact le_rfl
  | some slot =>
    have := h slot (cowFindSlot_some hslot).1
    rw [elim_some]
    omega

theorem CowCounted.update (h : CowCounted c) (he : e.used = true → 1 ≤ e.refcount) : CowCounted (update c i e) := by
  intro j
  rw [update_apply]
  split
  · exact he
  · exact h j

/-- A slot that is written counts for its own frame only. -/
theorem cowRefs_update (h : (c i).used = true → (c i).frame ≠ frameAddr f) (h' : e.used = true → e.frame ≠ frameAddr f) :
    cowRefs (update c i e) f = cowRefs c f := by
  have hfind : cowFindSlot (update c i e) (frameAddr f) = cowFindSlot c (frameAddr f) :=
    congrArg (scan cowSlots) (funext fun j => by rw [update_apply]; grind)
  unfold cowRefs
  rw [hfind]
  cases hslot : cowFindSlot c (frameAddr f) with
  | none => rfl
  | some slot =>
    obtain ⟨h1, h2⟩ := cowFindSlot_some hslot
    rw [elim_some, elim_some, update_of_ne fun heq : slot = i => h (heq ▸ h1) (heq ▸ h2)]

theorem cowRefs_slot (hi : cowFindSlot c (frameAddr f) = some i) (n : Int) :
    cowRefs (update c i { c i with refcount := n }) f = n.toNat := by
  have hfind : cowFindSlot (update c i { c i with refcount := n }) (frameAddr f) = some i :=
    (congrArg (scan cowSlots) (funext fun j => by rw [update_apply]; split <;> simp_all)).trans hi
  rw [cowRefs, hfind, elim_some, update_self]

/-- **`cow_track`** counts one reference more. -/
theorem CowCounted.track (h : CowCounted c) (hf : f < totalFrames) (heq : cowTrack c (frameAddr f) = (true, c')) :
    CowCounted c' ∧ cowRefs c f + 1 ≤ cowRefs c' f ∧ ∀ g < totalFrames, g ≠ f → cowRefs c' g = cowRefs c g := by
  have hne : ∀ g < totalFrames, g ≠ f → frameAddr f ≠ frameAddr g := fun g hg hgf h1 => hgf (frameAddr_inj hg hf h1.symm)
  unfold cowTrack at heq
  cases hslot : cowFindSlot c (frameAddr f) with
  | some slot =>
    obtain ⟨hused, hframe⟩ := cowFindSlot_some hslot
    simp only [hslot] at heq
    cases heq
    have hpos := h slot hused
    refine ⟨h.update fun _ => by simp only; omega, ?_, fun g hg hgf => ?_⟩
    · rw [cowRefs_slot hslot, cowRefs, hslot, elim_some]
      omega
    · rw [← hframe] at hne
      exact cowRefs_update (fun _ => hne g hg hgf) fun _ => hne g hg hgf
  | none =>
    simp only [hslot] at heq
    split at heq <;> cases heq
    rename_i slot hfree
    obtain ⟨hlt, hunused, -⟩ := scan_eq_some.mp hfree
    refine ⟨h.update fun _ => by simp, ?_, fun g hg hgf => cowRefs_update (by simp_all) fun _ => hne g hg hgf⟩
    have hfind : cowFindSlot (Function.update c slot ⟨true, frameAddr f, 2⟩) (frameAddr f) = some slot :=
      scan_eq_some.mpr ⟨hlt, by simp, fun j hj => by
        rw [update_of_ne (by omega)]
        exact scan_eq_none.mp hslot j (by omega)⟩
    rw [cowRefs, cowRefs, hslot, hfind, elim_none, elim_some, update_self]
    exact le_rfl

/-- **`cow_should_free`** counts one reference less, and frees the frame after the last. -/
theorem CowCounted.drop (h : CowCounted c) (hf : f < totalFrames) (hs : cowIsShared c (frameAddr f) = true)
    {free : Bool} (heq : cowShouldFree c (frameAddr f) = (free, c')) :
    CowCounted c' ∧ (∀ g < totalFrames, g ≠ f → cowRefs c' g = cowRefs c g) ∧
      ((free = true ∧ cowRefs c f ≤ 1) ∨ (free = false ∧ cowRefs c f ≤ cowRefs c' f + 1)) := by
  obtain ⟨slot, hslot⟩ := isSome_iff_exists.mp hs
  obtain ⟨-, hframe⟩ := cowFindSlot_some hslot
  have hne : ∀ g < totalFrames, g ≠ f → (c slot).frame ≠ frameAddr g := fun g hg hgf h1 =>
    hgf (frameAddr_inj hg hf (h1.symm.trans hframe))
  have hrefs : cowRefs c f = (c slot).refcount.toNat := by rw [cowRefs, hslot, elim_some]
  simp only [cowShouldFree, hslot] at heq
  split at heq <;> cases heq <;> refine ⟨h.update fun _ => ?_, fun g hg hgf => cowRefs_update (fun _ => hne g hg hgf)
    fun _ => hne g hg hgf, ?_⟩
  · simp_all
  · exact .inl ⟨rfl, by omega⟩
  · simp only
    omega
  · rw [cowRefs_slot hslot]
    exact .inr ⟨rfl, by omega⟩

/-! ## The trees -/

/-- The leaves of the address spaces `R`: pages mapped to frames. -/
def mapping (R : Finset Nat) (m : Mem) (x : Nat × Page) : Option (Nat × Bool) :=
  if x.1 ∈ R then (leafAt m x.1 x.2).map fun e => (leafFrame e, writableBit e) else none

/-- The address spaces `R` have tables of their own, and so has the kernel, below its PML4 in frame
`g`. Every leaf maps a page for users. -/
structure Trees (own : Nat → Owner) (R : Finset Nat) (g : Nat) (ph : Phys) : Prop where
  owned : Owned own ph.frames
  tree : ∀ r ∈ R, TableTree own r ph.mem
  page : ∀ r ∈ R, ∀ pg e, leafAt ph.mem r pg = some e → own (leafFrame e) = .page ∧ userBit e = true
  kernel : KernelMap own ph g

variable {own own' : Nat → Owner} {R : Finset Nat} {g r n : Nat} {ph ph' : Phys} {m m' : Mm} {v w e : U64} {pg : Page}

theorem mapping_congr {m m' : Mem} (h : ∀ r ∈ R, leafAt m' r = leafAt m r) : mapping R m' = mapping R m := by
  funext x
  unfold mapping
  split
  · rename_i hx
    rw [h _ hx]
  · rfl

theorem mapping_eq_some {m : Mem} {x : Nat × Page} {b : Bool} : mapping R m x = some (f, b) ↔
    x.1 ∈ R ∧ ∃ e, leafAt m x.1 x.2 = some e ∧ leafFrame e = f ∧ writableBit e = b := by
  unfold mapping
  split <;> simp_all

/-- The leaf that `clone_address_space_cow` writes for a page. -/
theorem cowLeaf (hlt : leafFrame e < totalFrames) : leafFrame (mkLeaf (leafPaddr e) (cowFlags e)) = leafFrame e ∧
    writableBit (mkLeaf (leafPaddr e) (cowFlags e)) = false ∧ userBit (mkLeaf (leafPaddr e) (cowFlags e)) = userBit e := by
  have htot := totalFrames_lt
  rw [leafPaddr_eq, leafFrame_mkLeaf (by omega), writableBit_mkLeaf, userBit_mkLeaf]
  exact ⟨rfl, cowFlags_bits e⟩

section Trees

variable (h : Trees own R g ph)
include h

theorem Trees.mapped (hx : (mappers (mapping R ph.mem) f).Nonempty) : own f = .page := by
  obtain ⟨x, b, hx⟩ := hx
  obtain ⟨hr, e, he, rfl, -⟩ := mapping_eq_some.mp hx
  exact (h.page _ hr _ e he).1

/-- **Writing frames that are no tables** changes no mapping. -/
theorem Trees.mono (ph' : Phys) (ho : Owned own' ph'.frames) (hk : KernelMap own' ph' g)
    (ht : ∀ f r pos, own f = .table r pos → own' f = .table r pos ∧ ph'.mem f = ph.mem f)
    (hp : ∀ f, (mappers (mapping R ph.mem) f).Nonempty → own' f = .page) :
    Trees own' R g ph' ∧ mapping R ph'.mem = mapping R ph.mem ∧ ∀ r ∈ R, tableAt ph'.mem r = tableAt ph.mem r := by
  have hsame := fun r (hr : r ∈ R) => (h.tree r hr).mono fun f pos hf => ht f r pos hf
  refine ⟨⟨ho, fun r hr => (hsame r hr).2.2, fun r hr pg e he => ?_, hk⟩, mapping_congr fun r hr => (hsame r hr).2.1,
    fun r hr => (hsame r hr).1⟩
  rw [(hsame r hr).2.1] at he
  exact ⟨hp _ ⟨(r, pg), _, mapping_eq_some.mpr ⟨hr, e, he, rfl, rfl⟩⟩, (h.page r hr pg e he).2⟩

/-- **Mapping a page** of one address space. -/
theorem Trees.leaf (ph' : Phys) (hr : r ∈ R) (ho : Owned own' ph'.frames) (ht : TableTree own' r ph'.mem)
    (hg : Grown (Owner.OfTree r) own own' ph.mem ph'.mem) (hl : leafAt ph'.mem r = update (leafAt ph.mem r) pg (some e))
    (he : own' (leafFrame e) = .page) (hu : userBit e = true) :
    Trees own' R g ph' ∧ mapping R ph'.mem = update (mapping R ph.mem) (r, pg) (some (leafFrame e, writableBit e)) ∧
      ∀ q ∈ R, q ≠ r → tableAt ph'.mem q = tableAt ph.mem q := by
  have hother := fun q (hq : q ∈ R) (hqr : q ≠ r) => (h.tree q hq).mono fun f pos hf =>
    hg.keeps (by simp) (by rintro ⟨_, h1⟩; exact hqr (Owner.table.inj h1).1) hf
  have hleaf : ∀ q ∈ R, ∀ pg', leafAt ph'.mem q pg' = if (q, pg') = (r, pg) then some e else leafAt ph.mem q pg' := by
    intro q hq pg'
    by_cases hqr : q = r
    · subst hqr
      rw [hl, update_apply]
      simp
    · rw [(hother q hq hqr).2.1, if_neg fun h1 => hqr (Prod.mk.inj h1).1]
  refine ⟨⟨ho, fun q hq => ?_, fun q hq pg' e' he' => ?_, hg.kernel h.kernel⟩, funext fun x => ?_,
    fun q hq hqr => (hother q hq hqr).1⟩
  · by_cases hqr : q = r
    · exact hqr ▸ ht
    · exact (hother q hq hqr).2.2
  · rw [hleaf q hq] at he'
    split at he'
    · cases he'
      exact ⟨he, hu⟩
    · obtain ⟨h1, h2⟩ := h.page q hq pg' e' he'
      exact ⟨(hg.keeps (by simp) (by simp [Owner.OfTree]) h1).1, h2⟩
  · by_cases hx : x.1 ∈ R
    · rw [update_apply]
      unfold mapping
      rw [if_pos hx, if_pos hx, hleaf _ hx]
      split <;> rfl
    · rw [update_of_ne fun h1 => hx (by rw [h1]; exact hr)]
      unfold mapping
      rw [if_neg hx, if_neg hx]

/-- **Writing a leaf where it is**, for reading only. -/
theorem Trees.protect (hr : r ∈ R) (he : leafAt ph.mem r pg = some e) :
    ∃ ph1, mapPageIn ph (frameAddr r) pg.vaddr (leafPaddr e) (cowFlags e) = (true, ph1) ∧ Trees own R g ph1 ∧
      mapping R ph1.mem = update (mapping R ph.mem) (r, pg) (some (leafFrame e, false)) ∧
        tableAt ph1.mem r = tableAt ph.mem r := by
  obtain ⟨hv, hpg⟩ := pg.vaddr_page
  obtain ⟨t, ht, -⟩ := bind_eq_some_iff.mp he
  obtain ⟨hpage, huser⟩ := h.page r hr pg e he
  obtain ⟨hframe, hw, hu⟩ := cowLeaf (h.owned.lt (by rw [hpage]; simp))
  have htree := h.tree r hr
  have htv : tableAt ph.mem r (.pt (idx3 pg.vaddr) (idx2 pg.vaddr)) = some t := by
    rw [← hpg] at ht
    exact ht
  have hi1 : idx1 pg.vaddr = pg.i1 := congrArg Page.i1 hpg
  obtain ⟨htrees, hmap, -⟩ := h.leaf { ph with mem := ph.mem.store t pg.i1 (mkLeaf (leafPaddr e) (cowFlags e)) } hr h.owned
    (htree.setLeaf ht) ⟨fun _ _ => rfl, fun f hf => funext fun j => store_of_ne _ fun h1 => hf ⟨_, h1.1 ▸ htree.table _ t ht⟩⟩
    (htree.leafAt_setLeaf ht (present_mkLeaf _ _)) (by rw [hframe]; exact hpage) (hu.trans huser)
  rw [hframe, hw] at hmap
  exact ⟨_, by rw [mapPageIn_remap h.owned htree hv htv, hi1], htrees, hmap, htree.tableAt_setLeaf ht⟩

theorem Trees.userRead (hr : r ∈ R) (hw : Private w) : userRead ph.mem (frameAddr r) w =
    (mapping R ph.mem (r, pageOf w hw)).map fun x => byteAt ph.mem x.1 (w.toNat % 4096) := by
  rw [(h.tree r hr).userRead_private h.owned hw, mapping, if_pos hr]
  cases he : leafAt ph.mem r (pageOf w hw) with
  | none => rfl
  | some e => rw [bind_some, if_pos (h.page r hr _ e he).2, map_some, map_some]

end Trees

/-! ## The operations -/

/-- The address spaces of a state, and the references to their pages. -/
structure Spaces (own : Nat → Owner) (R : Finset Nat) (g : Nat) (m : Mm) : Prop where
  trees : Trees own R g m.phys
  heap : HeapOk m.heap
  pml4 : m.gPml4Phys = frameAddr g
  cow : CowOk (mapping R m.phys.mem) (cowRefs m.cow)
  counted : CowCounted m.cow

section Steps

variable (h : Spaces own R g m)
include h

theorem Spaces.lt (hf : (mappers (mapping R m.phys.mem) f).Nonempty) : f < totalFrames :=
  h.trees.owned.lt (by rw [h.trees.mapped hf]; simp)

theorem Spaces.unmapped (hf : own f ≠ .page) : mappers (mapping R m.phys.mem) f = ∅ := by
  by_contra hne
  exact hf (h.trees.mapped (Set.nonempty_iff_ne_empty.mpr hne))

/-- **Writing pages and free frames.** -/
theorem Spaces.write (mem : Mem) (hm : ∀ f, own f ≠ .page → own f ≠ .free → mem f = m.phys.mem f) :
    Spaces own R g { m with phys := { m.phys with mem := mem } } ∧ mapping R mem = mapping R m.phys.mem := by
  obtain ⟨htrees, hmap, -⟩ := h.trees.mono { m.phys with mem := mem } h.trees.owned
    (h.trees.kernel.mono fun f hf => ⟨hf, hm f (by rw [hf]; simp) (by rw [hf]; simp)⟩)
    (fun f r pos hf => ⟨hf, hm f (by rw [hf]; simp) (by rw [hf]; simp)⟩) fun f hf => h.trees.mapped hf
  exact ⟨⟨htrees, h.heap, h.pml4, by rw [hmap]; exact h.cow, h.counted⟩, hmap⟩

/-- **Mapping a fresh frame**, in place of another one or not. -/
theorem Spaces.map {fl : U64} (hr : r ∈ R) (hv : Private v) (hu : userBit fl = true)
    (hf : FreshMapped own own' r n v fl m.phys ph') {c' : CowTable} (hc : CowCounted c')
    (hrefs : ∀ f < totalFrames, cowRefs m.cow f ≤ cowRefs c' f ∨
      (r, pageOf v hv) ∈ mappers (mapping R m.phys.mem) f ∧ cowRefs m.cow f ≤ cowRefs c' f + 1) :
    Spaces own' R g { m with phys := ph', cow := c' } ∧
      mapping R ph'.mem = update (mapping R m.phys.mem) (r, pageOf v hv) (some (n, writableBit fl)) := by
  have hlt : n < 2 ^ 51 := by
    have := hf.owned.lt (f := n) (by rw [hf.page]; simp)
    have := totalFrames_lt
    omega
  obtain ⟨htrees, hmap, -⟩ := h.trees.leaf _ hr hf.owned hf.tree hf.grown (hf.leaf hv)
    (by rw [leafFrame_mkLeaf hlt]; exact hf.page) (by rw [userBit_mkLeaf]; exact hu)
  rw [leafFrame_mkLeaf hlt, writableBit_mkLeaf] at hmap
  refine ⟨⟨htrees, h.heap, h.pml4, ?_, hc⟩, hmap⟩
  rw [hmap]
  exact h.cow.copy (h.unmapped (by rw [hf.was]; simp)) (hc.refs_pos n) fun f hne => hrefs f (h.lt hne)

/-- **Giving back a page** that nothing is mapped to. -/
theorem Spaces.release (hf : own f = .page) (hnone : mappers (mapping R m.phys.mem) f = ∅) :
    Spaces (update own f .free) R g (m.freeFrame (frameAddr f)) := by
  have hown : own f ≠ .free := by rw [hf]; simp
  have hlt := h.trees.owned.lt hown
  have hkeep : ∀ f' o, own f' = o → o ≠ .page → update own f .free f' = o := fun f' o h1 h2 =>
    (update_of_ne (fun h3 => h2 (by rw [← h1, h3, hf])) _ _).trans h1
  have howned : Owned (update own f .free) (freeFrame m.phys.frames (frameAddr f)) := by
    rw [freeFrame_frameAddr hlt, if_pos ((h.trees.owned.alloc f hlt).mpr hown)]
    refine ⟨fun f' hf' => ?_, fun f' hf' => ?_, hkeep 0 _ h.trees.owned.zero (by simp)⟩
    · rw [give_bitmap, update_apply]
      split
      · simp
      · exact h.trees.owned.alloc f' hf'
    · rw [update_of_ne (by omega)]
      exact h.trees.owned.range f' hf'
  obtain ⟨htrees, hmap, -⟩ := h.trees.mono (m.freeFrame (frameAddr f)).phys howned
    (h.trees.kernel.mono fun f' h1 => ⟨hkeep f' _ h1 (by simp), rfl⟩)
    (fun f' r pos h1 => ⟨hkeep f' _ h1 (by simp), rfl⟩) fun f' hf' => by
      rw [update_of_ne]
      · exact h.trees.mapped hf'
      · rintro rfl
        exact hf'.ne_empty hnone
  exact ⟨htrees, h.heap, h.pml4, by rw [hmap]; exact h.cow, h.counted⟩

/-- A frame for a page and its tables is taken and mapped. -/
theorem Spaces.allocMap {fl : U64} (hr : r ∈ R) (hv : Private v) (hu : userBit fl = true)
    (h0 : (allocFrame m.phys.frames).1 ≠ 0#64)
    (hm : mapPageIn { m.phys with frames := (allocFrame m.phys.frames).2 } (frameAddr r) v (allocFrame m.phys.frames).1 fl =
      (true, ph')) :
    ∃ own', Spaces own' R g { m with phys := ph' } ∧ own' (frameNum (allocFrame m.phys.frames).1) = .page := by
  obtain ⟨own', hf⟩ := mapPageIn_fresh h.trees.owned (h.trees.tree r hr) hv h0 hm
  exact ⟨own', (h.map hr hv hu hf h.counted fun f _ => Or.inl le_rfl).1, hf.page⟩

theorem Spaces.loadPage {loadVaddr : U64} {j : Nat} {bytes : List U8} (hr : r ∈ R) (hv : Private (pageVa loadVaddr j))
    (heq : loadPage (frameAddr r) loadVaddr j bytes m.phys = (true, ph')) : ∃ own', Spaces own' R g { m with phys := ph' } := by
  unfold MinicOs.loadPage at heq
  simp only [show loadVaddr + BitVec.ofNat 64 j * 4096#64 = pageVa loadVaddr j from rfl] at heq
  split at heq
  · cases heq
  rename_i h0
  split at heq
  swap
  · cases heq
  rename_i hm
  obtain ⟨own', hs, hpage⟩ := h.allocMap hr hv (by decide) h0 (Prod.ext hm rfl)
  cases heq
  exact ⟨own', (hs.write _ fun f h1 _ => copyBytes_other (fun h2 : f = _ => h1 (h2 ▸ hpage)) _ _ _).1⟩

theorem Spaces.mapStack (hr : r ∈ R) (hv : Private v) (heq : mapStack (frameAddr r) v m.phys = (true, ph')) :
    ∃ own', Spaces own' R g { m with phys := ph' } := by
  unfold MinicOs.mapStack at heq
  simp only at heq
  split at heq
  · cases heq
  rename_i h0
  split at heq
  swap
  · cases heq
  obtain ⟨own', hs, -⟩ := h.allocMap hr hv (by decide) h0 heq
  exact ⟨own', hs⟩

/-- **A new address space.** -/
theorem Spaces.clone {c d : Nat} (hc : Cloned own own' m.phys ph' c d) :
    c ∉ R ∧ Spaces own' (insert c R) g { m with phys := ph' } := by
  have hR : c ∉ R := fun h1 => by
    have h2 := (h.trees.tree c h1).table .root c rfl
    rw [hc.freeC] at h2
    cases h2
  have hkeep : ∀ f o, own f = o → o ≠ .free → own' f = o ∧ ph'.mem f = m.phys.mem f := by
    intro f o h1 h2
    have hfc : f ≠ c := fun h3 => h2 (by rw [← h1, h3, hc.freeC])
    have hfd : f ≠ d := fun h3 => h2 (by rw [← h1, h3, hc.freeD])
    exact ⟨by rw [hc.own_eq, update_of_ne hfd, update_of_ne hfc, h1], hc.mem f hfc hfd⟩
  obtain ⟨htrees, hmap, -⟩ := h.trees.mono ph' hc.owned (h.trees.kernel.mono fun f h1 => hkeep f _ h1 (by simp))
    (fun f r pos h1 => hkeep f _ h1 (by simp)) fun f hf => (hkeep f _ (h.trees.mapped hf) (by simp)).1
  have hleaves := (tableAt_empty hc.pdpt hc.empty).2
  refine ⟨hR, ⟨hc.owned, fun r hr => ?_, fun r hr pg e he => ?_, htrees.kernel⟩, h.heap, h.pml4, ?_, h.counted⟩
  · rcases Finset.mem_insert.mp hr with rfl | hr
    · exact hc.tree
    · exact htrees.tree r hr
  · rcases Finset.mem_insert.mp hr with rfl | hr
    · simp [hleaves] at he
    · exact htrees.page r hr pg e he
  · have hsame : mapping (insert c R) ph'.mem = mapping R m.phys.mem := by
      rw [← hmap]
      funext x
      unfold mapping
      by_cases hx : x.1 = c
      · rw [hx, hleaves, if_neg hR, map_none, ite_self]
      · simp [hx]
    exact hsame ▸ h.cow

/-- **`create_task_with_cr3`** takes frames for the kernel only. -/
theorem Spaces.createTask {s s' : Sched} {cr3 : U64} {t : Int} (heq : createTaskWithCr3 m s cr3 = some (t, m', s')) :
    ∃ own', Spaces own' R g m' := by
  obtain rfl | ⟨stackMem, ph, heap, hkalloc, rfl⟩ := createTaskWithCr3_mm heq
  · exact ⟨own, h⟩
  obtain ⟨⟨own', ho, hk, hg⟩, hheap⟩ := kallocLoop_owned h.trees.owned h.trees.kernel h.heap (h.pml4 ▸ hkalloc)
  obtain ⟨htrees, hmap, -⟩ := h.trees.mono _ ho hk (fun f r pos hf => hg.keeps (by simp) (by simp) hf)
    fun f hf => (hg.keeps (by simp) (by simp) (h.trees.mapped hf)).1
  exact ⟨own', htrees, hheap, h.pml4, by rw [hmap]; exact h.cow, h.counted⟩

theorem Spaces.buildImage {image : List U8} {loadVaddr stackVaddr : U64}
    (hpriv : ∀ i < imagePages image.length, Private (pageVa loadVaddr i)) (hs : Private stackVaddr)
    (h0 : (buildImage m.phys m.gPml4Phys image loadVaddr stackVaddr).1 ≠ 0#64) :
    ∃ own' c, (MinicOs.buildImage m.phys m.gPml4Phys image loadVaddr stackVaddr).1 = frameAddr c ∧ c ∉ R ∧
      Spaces own' (insert c R) g { m with phys := (MinicOs.buildImage m.phys m.gPml4Phys image loadVaddr stackVaddr).2 } := by
  unfold MinicOs.buildImage at h0 ⊢
  rcases cloneAddressSpace_cases h.trees.owned m.gPml4Phys with heq | ⟨own1, ph1, c, d, heq, hc0, hcl⟩
  · simp [heq] at h0
  obtain ⟨hcR, hclone⟩ := h.clone hcl
  have hc : c ∈ insert c R := Finset.mem_insert_self c R
  simp only [heq, if_neg hc0] at h0 ⊢
  split at h0
  swap
  · exact absurd rfl h0
  rename_i hl
  rw [if_pos hl]
  have hload : loadImage (frameAddr c) loadVaddr image ph1 = (true, (loadImage (frameAddr c) loadVaddr image ph1).2) :=
    Prod.ext hl rfl
  obtain ⟨own2, h2⟩ := loopOk_true (P := fun ph => ∃ own', Spaces own' (insert c R) g { m with phys := ph })
    (fun j hj ph ph' hI hb => by
      obtain ⟨own', hI⟩ := hI
      exact hI.loadPage hc (hpriv j (List.mem_range.mp hj)) hb) hload ⟨own1, hclone⟩
  split at h0
  swap
  · exact absurd rfl h0
  rename_i hst
  rw [if_pos hst]
  obtain ⟨own3, h3⟩ := h2.mapStack hc hs (Prod.ext hst rfl)
  exact ⟨own3, c, rfl, hcR, h3⟩

/-- **One leaf of the fork walk** is shared. -/
theorem Spaces.share {c : Nat} (hr : r ∈ R) (hc : c ∈ R) (hrc : r ≠ c) (he : leafAt m.phys.mem r pg = some e)
    (heq : cowShare (frameAddr r) (frameAddr c) pg.vaddr e m = (true, m')) :
    (∃ own', Spaces own' R g m') ∧ tableAt m'.phys.mem r = tableAt m.phys.mem r := by
  obtain ⟨hpage, huser⟩ := h.trees.page r hr pg e he
  have hlt : leafFrame e < totalFrames := h.trees.owned.lt (by rw [hpage]; simp)
  obtain ⟨hframe, hwrite, hu⟩ := cowLeaf hlt
  -- the parent's leaf first, then that of the child
  obtain ⟨ph1, hparent, htrees1, hmap1, htab1⟩ := h.trees.protect hr he
  unfold cowShare at heq
  simp only [hparent, if_true] at heq
  rcases hmap : mapPageIn ph1 (frameAddr c) pg.vaddr (leafPaddr e) (cowFlags e) with ⟨ok, ph2⟩
  rw [hmap] at heq
  cases ok with
  | false => cases heq
  | true =>
  obtain ⟨hv, hpg⟩ := pg.vaddr_page
  obtain ⟨own2, ho2, ht2, hg2, hl2, -⟩ := mapPageIn_private htrees1.owned (htrees1.tree c hc) hv hmap
  obtain ⟨htrees2, hmap2, htab2⟩ := htrees1.leaf _ hc ho2 ht2 hg2 hl2
    (by rw [hframe]; exact (hg2.keeps (by simp) (by simp [Owner.OfTree]) hpage).1) (hu.trans huser)
  rw [hmap1, hframe, hwrite, hpg] at hmap2
  rw [leafPaddr_eq] at heq
  rcases htrack : cowTrack m.cow (frameAddr (leafFrame e)) with ⟨ok, c'⟩
  rw [htrack] at heq
  cases heq
  obtain ⟨hcounted, hself, hothers⟩ := h.counted.track hlt htrack
  refine ⟨⟨own2, htrees2, h.heap, h.pml4, ?_, hcounted⟩, ?_⟩
  · rw [hmap2]
    exact h.cow.share (mapping_eq_some.mpr ⟨hr, e, he, rfl, rfl⟩) hself fun f hf hne => (hothers f (h.lt hne) hf).ge
  · rw [htab2 r hr hrc, htab1]

end Steps

/-! ## The fork walk -/

/-- A state of the fork walk: the parent's tables are those at `T`. They stay where they are, so the
pointers that the loops hold stay valid. -/
def Walk (R : Finset Nat) (g r : Nat) (T : Pos → Option Nat) (s : Mm) : Prop :=
  (∃ own, Spaces own R g s) ∧ tableAt s.phys.mem r = T

section Walk

variable {T : Pos → Option Nat} {s s' : Mm} {c i1 i2 i3 : Nat} {t : U64} (hr : r ∈ R) (hc : c ∈ R) (hrc : r ≠ c)

/-- A present entry of a parent's table leads to the parent's next one. -/
theorem Walk.down (hs : Walk R g r T s) (pos : Pos) {up : Pos} (hup : pos.up = some (up, i)) (ht : T up = some (frameNum t))
    (hp : present (s.phys.mem (frameNum t) i) = true) : T pos = some (frameNum (tablePtr (s.phys.mem (frameNum t) i))) := by
  rw [← hs.2] at ht ⊢
  rw [tableAt_up hup, ht, bind_some, nextTable, if_pos hp]

include hr hc hrc

theorem Walk.page (h3 : 2 ≤ i3 ∧ i3 < 512) (h2 : i2 < 512) (h1 : i1 < 512) (ht : T (.pt i3 i2) = some (frameNum t))
    (hs : Walk R g r T s) (heq : cowPage (frameAddr r) (frameAddr c) i3 i2 t i1 s = (true, s')) : Walk R g r T s' := by
  unfold cowPage at heq
  simp only at heq
  split at heq
  swap
  · cases heq
    exact hs
  rename_i hp
  obtain ⟨⟨own, h⟩, htab⟩ := hs
  have hleaf : leafAt s.phys.mem r ⟨i3, i2, i1, h3.1, h3.2, h2, h1⟩ = some (s.phys.mem (frameNum t) i1) := by
    rw [leafAt, htab, ht, bind_some, if_pos hp]
  obtain ⟨hs', htab'⟩ := h.share hr hc hrc hleaf heq
  exact ⟨hs', htab'.trans htab⟩

theorem Walk.table (h3 : 2 ≤ i3 ∧ i3 < 512) (h2 : i2 < 512) (ht : T (.pd i3) = some (frameNum t)) (hs : Walk R g r T s)
    (heq : cowTable (frameAddr r) (frameAddr c) i3 t i2 s = (true, s')) : Walk R g r T s' := by
  unfold cowTable at heq
  simp only at heq
  split at heq
  swap
  · cases heq
    exact hs
  rename_i hp
  have hpt := hs.down (.pt i3 i2) (by simp only [Pos.up, if_pos (And.intro h3 h2)]) ht hp
  exact loopOk_true (fun i1 hi1 _ _ h hb => h.page hr hc hrc h3 h2 (List.mem_range.mp hi1) hpt hb) heq hs

theorem Walk.directory (h3 : 2 ≤ i3 ∧ i3 < 512) (ht : T .pdpt = some (frameNum t)) (hs : Walk R g r T s)
    (heq : cowDirectory (frameAddr r) (frameAddr c) t i3 s = (true, s')) : Walk R g r T s' := by
  unfold cowDirectory at heq
  simp only at heq
  split at heq
  swap
  · cases heq
    exact hs
  rename_i hp
  have hpd := hs.down (.pd i3) (by simp only [Pos.up, if_pos h3]) ht hp
  exact loopOk_true (fun i2 hi2 _ _ h hb => h.table hr hc hrc h3 (List.mem_range.mp hi2) hpd hb) heq hs

/-- **`clone_address_space_cow`.** -/
theorem Spaces.fork (h : Spaces own R g m) (heq : cloneAddressSpaceCow (frameAddr r) (frameAddr c) m = (true, m')) :
    ∃ own', Spaces own' R g m' := by
  have htree := h.trees.tree r hr
  obtain ⟨d, hd⟩ := htree.top
  unfold cloneAddressSpaceCow at heq
  rw [(htree.root_addr h.trees.owned).2.2] at heq
  have hpdpt : tableAt m.phys.mem r .pdpt = some (frameNum (tablePtr (m.phys.mem r 0))) := by
    rw [hd, (nextTable_eq_some hd).2, (htree.addr h.trees.owned hd).2.2]
  have hwalk : Walk R g r (tableAt m.phys.mem r) m' :=
    loopOk_true (fun i3 hi3 _ _ hs hb => hs.directory hr hc hrc (by have := List.mem_range'_1.mp hi3; omega) hpdpt hb) heq
      ⟨⟨own, h⟩, rfl⟩
  exact hwalk.1

end Walk

/-! ## The repair of a write fault -/

theorem frameNum_tablePtr (a : U64) : frameNum (tablePtr a) = frameNum a :=
  frameNum_congr fun i hi => by simp [getLsbD_tablePtr, hi]

/-- The page of an address rounded down is the same. -/
theorem pageOf_tablePtr (hv : Private v) : ∃ hv' : Private (tablePtr v), pageOf (tablePtr v) hv' = pageOf v hv := by
  have hnat : (tablePtr v).toNat = v.toNat / 4096 * 4096 := by
    rw [tablePtr_eq, frameNum_tablePtr, frameNum, frameAddr, BitVec.toNat_ofNat]
    omega
  have hidx : idx4 (tablePtr v) = idx4 v ∧ idx3 (tablePtr v) = idx3 v ∧ idx2 (tablePtr v) = idx2 v ∧
      idx1 (tablePtr v) = idx1 v := by
    simp only [idx4_eq, idx3_eq, idx2_eq, idx1_eq, hnat]
    omega
  exact ⟨by rw [Private, hidx.1, hidx.2.1]; exact hv, by simp only [pageOf, hidx]⟩

/-- The address that the repair computes is that of the leaf's frame. -/
theorem repair_frame (e v : U64) : (leafPaddr e ||| (tablePtr v &&& 0xFFF#64)) &&& ~~~0xFFF#64 = frameAddr (leafFrame e) := by
  have hlow : tablePtr v &&& 0xFFF#64 = 0#64 := by
    rw [tablePtr, BitVec.and_assoc, show ~~~0xFFF#64 &&& 0xFFF#64 = 0#64 by decide, BitVec.and_zero]
  rw [hlow, BitVec.or_zero, ← leafPaddr_eq, leafPaddr, BitVec.and_assoc]
  congr 1

/-- **`interrupt_handler` repairs a write fault.** -/
theorem Spaces.repair (h : Spaces own R g m) (hr : r ∈ R) (hv : Private v)
    (hm : repairWriteFault m (frameAddr r) v = some m') : ∃ own', Spaces own' R g m' := by
  obtain ⟨hv', hpg⟩ := pageOf_tablePtr hv
  unfold repairWriteFault at hm
  simp only at hm
  split at hm
  swap
  · cases hm
  rename_i hshared
  rw [show v &&& ~~~0xFFF#64 = tablePtr v from rfl,
    translateIn_private ((h.trees.tree r hr).root_addr h.trees.owned).2.2 hv', hpg] at hshared hm
  cases he : leafAt m.phys.mem r (pageOf v hv) with
  | none => simp [he] at hshared
  | some e =>
  rw [he, map_some, getD_some, repair_frame] at hm hshared
  split at hm
  swap
  · cases hm
  rename_i h0
  rcases h.trees.owned.allocFrame with ⟨n, hn, halloc⟩ | ⟨-, halloc⟩
  swap
  · exact absurd (by rw [halloc]) h0
  have hpage := (h.trees.page r hr _ e he).1
  have hlt := h.trees.owned.lt (f := leafFrame e) (by rw [hpage]; simp)
  have hkey : (r, pageOf v hv) ∈ mappers (mapping R m.phys.mem) (leafFrame e) :=
    ⟨_, mapping_eq_some.mpr ⟨hr, e, he, rfl, rfl⟩⟩
  -- the copy goes to a frame that is free, and that frame is mapped
  obtain ⟨hs1, hmap1⟩ := h.write (copyFrame m.phys.mem n (leafFrame e)) fun f _ h2 => update_of_ne (hn.ne h2) _ _
  rcases hmap : mapPageIn ⟨copyFrame m.phys.mem n (leafFrame e), (allocFrame m.phys.frames).2⟩ (frameAddr r)
    (tablePtr v) (allocFrame m.phys.frames).1 0x06#64 with ⟨ok, ph⟩
  rw [show frameNum (allocFrame m.phys.frames).1 = n by rw [halloc, hn.num],
    frameNum_frameAddr (by have := totalFrames_lt; omega), hmap] at hm
  cases ok with
  | false => cases hm
  | true =>
  obtain ⟨own', hfresh⟩ := mapPageIn_fresh hs1.trees.owned (hs1.trees.tree r hr) hv' h0 hmap
  rcases hfree : cowShouldFree m.cow (frameAddr (leafFrame e)) with ⟨free, c'⟩
  obtain ⟨hcounted, hothers, hself⟩ := h.counted.drop hlt hshared.2 hfree
  obtain ⟨hs2, hmap2⟩ := hs1.map hr hv' (by decide) hfresh hcounted fun f hf => by
    by_cases hfe : f = leafFrame e
    · rcases hself with ⟨-, hle⟩ | ⟨-, hle⟩
      · exact .inl (by rw [hfe]; exact hle.trans (hcounted.refs_pos _))
      · exact .inr (by rw [hmap1, hpg, hfe]; exact ⟨hkey, hle⟩)
    · exact .inl (hothers f hf hfe).ge
  simp only [if_true, hfree] at hm
  rcases hself with ⟨rfl, hle⟩ | ⟨rfl, -⟩
  · -- the last reference: the frame was mapped at this page only
    cases hm
    have hown := (hfresh.grown.keeps (by simp) (by simp [Owner.OfTree]) hpage).1
    refine ⟨_, hs2.release hown (Set.eq_empty_of_forall_notMem ?_)⟩
    rintro x ⟨b, hx⟩
    rw [hmap2, hmap1, hpg, update_apply] at hx
    split at hx
    · rw [← (Prod.mk.inj (some.inj hx)).1, hfresh.was] at hpage
      cases hpage
    · rename_i hne
      exact hne (h.cow.last hkey hle ⟨b, hx⟩)
  · cases hm
    exact ⟨own', hs2⟩

end MinicOs
