import MinicOs.Mm.MapPage
import MinicOs.Mm.Heap

/-!
# The kernel's own tables

`KernelMap own ph g`: the kernel's PML4 in frame `g`, the PDPT below it, the page directory of the
heap under `PDPT[1]` and the page tables below that belong to the kernel. New address spaces take
over two entries of the PDPT, and the heap grows in the directory.
-/

namespace MinicOs

open Function

/-- The kernel's tables belong to the kernel, and the heap's tables are not those above them. -/
structure KernelMap (own : Nat → Owner) (ph : Phys) (g : Nat) : Prop where
  pml4 : own g = .kernel
  tables : ∃ d q, nextTable ph.mem g 0 = some d ∧ own d = .kernel ∧
    nextTable ph.mem d 1 = some q ∧ own q = .kernel ∧ q ≠ g ∧ q ≠ d ∧
    ∀ i t, i < 512 → nextTable ph.mem q i = some t → own t = .kernel ∧ t ≠ g ∧ t ≠ d ∧ t ≠ q

variable {g : Nat} {own own' : Nat → Owner} {ph ph' : Phys}

theorem kernel_ne_free {f : Nat} (h : own f = .kernel) : own f ≠ .free := by
  rw [h]
  simp

/-- The kernel's tables after the page directory of the heap has changed. -/
theorem KernelMap.write (h : KernelMap own ph g) (hkeep : ∀ f, own f = .kernel → own' f = .kernel)
    (hmem : ∀ d q, nextTable ph.mem g 0 = some d → own d = .kernel → nextTable ph.mem d 1 = some q → own q = .kernel →
      ph'.mem g = ph.mem g ∧ ph'.mem d = ph.mem d ∧ ∀ i t, nextTable ph'.mem q i = some t →
        nextTable ph.mem q i = some t ∨ (own' t = .kernel ∧ t ≠ g ∧ t ≠ d ∧ t ≠ q)) : KernelMap own' ph' g := by
  obtain ⟨d, q, hd, hdk, hq, hqk, hqg, hqd, ht⟩ := h.tables
  obtain ⟨hmg, hmd, hmq⟩ := hmem d q hd hdk hq hqk
  refine ⟨hkeep g h.pml4, d, q, (nextTable_congr (congrFun hmg 0)).trans hd, hkeep d hdk,
    (nextTable_congr (congrFun hmd 1)).trans hq, hkeep q hqk, hqg, hqd, fun i t hi hit => ?_⟩
  rcases hmq i t hit with hold | hnew
  · obtain ⟨htk, hne⟩ := ht i t hi hold
    exact ⟨hkeep t htk, hne⟩
  · exact hnew

/-- The kernel's tables stay when its frames stay. -/
theorem KernelMap.mono (h : KernelMap own ph g) (hk : ∀ f, own f = .kernel → own' f = .kernel ∧ ph'.mem f = ph.mem f)
    : KernelMap own' ph' g :=
  h.write (fun f hf => (hk f hf).1) fun d q _ hd _ hq => ⟨(hk g h.pml4).2, (hk d hd).2, fun i _ hit =>
    Or.inl ((nextTable_congr (congrFun (hk q hq).2 i)).symm.trans hit)⟩

theorem Grown.kernel {r : Nat} (h : Grown (Owner.OfTree r) own own' ph.mem ph'.mem) (hk : KernelMap own ph g) :
    KernelMap own' ph' g :=
  hk.mono fun _ hf => h.keeps (by simp) (by simp [Owner.OfTree]) hf

/-! ## A new address space -/

section Clone

variable {m : Mem} {c : Nat}

/-- The tree of an address space whose PDPT has no private entries. -/
theorem tableAt_empty {d : Nat} (hd : nextTable m c 0 = some d) (hnone : ∀ i, 2 ≤ i → nextTable m d i = none) :
    (∀ pos f, tableAt m c pos = some f → (pos = .root ∧ f = c) ∨ (pos = .pdpt ∧ f = d)) ∧ ∀ pg, leafAt m c pg = none := by
  have hpd : ∀ i3, tableAt m c (.pd i3) = none := by
    intro i3
    simp only [tableAt]
    split
    · rename_i hv
      rw [hd, Option.bind_some, hnone i3 hv.1]
    · rfl
  have hpt : ∀ i3 i2, tableAt m c (.pt i3 i2) = none := by
    intro i3 i2
    simp only [tableAt]
    split
    · rename_i hv
      rw [hd, Option.bind_some, hnone i3 hv.1.1, Option.bind_none]
    · rfl
  refine ⟨fun pos f hf => ?_, fun pg => ?_⟩
  · cases pos with
    | root => exact .inl ⟨rfl, (Option.some.inj hf).symm⟩
    | pdpt => exact .inr ⟨rfl, Option.some.inj (hf.symm.trans hd)⟩
    | pd i3 => simp [hpd] at hf
    | pt i3 i2 => simp [hpt] at hf
  · unfold leafAt
    rw [hpt]
    rfl

/-- What the success of `clone_address_space` means: two frames `c` and `d` that were free are the
PML4 and the PDPT of an address space without private tables. Nothing else that is owned changed. -/
structure Cloned (own own' : Nat → Owner) (ph ph' : Phys) (c d : Nat) : Prop where
  freeC : own c = .free
  freeD : own d = .free
  ne : c ≠ d
  own_eq : own' = update (update own c (.table c .root)) d (.table c .pdpt)
  owned : Owned own' ph'.frames
  tree : TableTree own' c ph'.mem
  mem : ∀ f, f ≠ c → f ≠ d → ph'.mem f = ph.mem f
  pdpt : nextTable ph'.mem c 0 = some d
  empty : ∀ i, 2 ≤ i → nextTable ph'.mem d i = none
  count : ph'.frames.freeFrames + 2 = ph.frames.freeFrames

/-- Memory after `clone_address_space` with the frames `c` and `d`, the kernel's PDPT in `k`. -/
def cloneMem (m : Mem) (k c d : Nat) : Mem :=
  let mem := zeroPage (zeroPage m (frameAddr c)) (frameAddr d)
  let mem := mem.store d 0 (mem k 0 &&& ~~~0x04#64)
  let mem := mem.store d 1 (mem k 1 &&& ~~~0x04#64)
  mem.store c 0 (mkTable (frameAddr d))

/-- **`clone_address_space`**: it fails, or there is a new address space. -/
theorem cloneAddressSpace_cases (ho : Owned own ph.frames) (gPml4 : U64) :
    (cloneAddressSpace ph gPml4).1 = 0#64 ∨ ∃ own' ph' c d, cloneAddressSpace ph gPml4 = (frameAddr c, ph') ∧
      frameAddr c ≠ 0#64 ∧ Cloned own own' ph ph' c d := by
  unfold cloneAddressSpace
  rcases ho.allocFrame with ⟨c, hc, halloc⟩ | ⟨-, halloc⟩
  swap
  · simp [halloc]
  have ho1 := ho.take hc (o := .table c .root) (by simp)
  simp only [halloc, if_neg hc.ne_zero]
  rcases ho1.allocFrame with ⟨d, hd, halloc2⟩ | ⟨-, halloc2⟩
  swap
  · simp [halloc2]
  right
  have hcd : c ≠ d := hd.ne (by rw [update_self]; simp)
  have hownd : own d = .free := by rw [← update_of_ne hcd.symm (Owner.table c .root) own, hd.own]
  generalize hk : frameNum (tablePtr (zeroPage (zeroPage ph.mem (frameAddr c)) (frameAddr d) (frameNum gPml4) 0)) = k
  have happly : ∀ f i, cloneMem ph.mem k c d f i =
      if f = c then (if i = 0 then mkTable (frameAddr d) else 0#64)
      else if f = d then (if 2 ≤ i then 0#64 else cloneMem ph.mem k c d d i)
      else ph.mem f i := by
    simp only [cloneMem, store_apply, zeroPage_apply, hc.num, hd.num]
    grind
  have hpdpt : nextTable (cloneMem ph.mem k c d) c 0 = some d := by
    unfold nextTable
    rw [happly, if_pos rfl, if_pos rfl, present_mkTable, if_pos rfl,
      frameNum_tablePtr_mkTable (by have := hd.lt; have := totalFrames_lt; omega)]
  have hempty : ∀ i, 2 ≤ i → nextTable (cloneMem ph.mem k c d) d i = none := fun i hi =>
    nextTable_of_not_present (by rw [happly, if_neg hcd.symm, if_pos rfl, if_pos hi, present_zero])
  obtain ⟨htables, -⟩ := tableAt_empty hpdpt hempty
  refine ⟨_, { mem := cloneMem ph.mem k c d, frames := (ph.frames.take c).take d }, c, d, ?_, hc.ne_zero,
    hc.own, hownd, hcd, rfl, ho1.take hd (by simp), ⟨⟨d, hpdpt⟩, fun pos f hf => ?_, fun pos up i f n hup hf hn => ?_⟩,
    fun f h1 h2 => funext fun i => (happly f i).trans (by rw [if_neg h1, if_neg h2]), hpdpt, hempty, ?_⟩
  · simp only [halloc2, if_neg hd.ne_zero, hc.num, hd.num, hk]
    rfl
  · rcases htables pos f hf with ⟨rfl, rfl⟩ | ⟨rfl, rfl⟩
    · rw [update_of_ne hcd, update_self]
    · rw [update_self]
  · have hnext : tableAt (cloneMem ph.mem k c d) c pos = some n := by
      rw [tableAt_up hup, hf]
      exact hn
    rcases htables pos n hnext with ⟨rfl, -⟩ | ⟨rfl, rfl⟩
    · simp [Pos.up] at hup
    · obtain ⟨rfl, rfl⟩ : Pos.root = up ∧ 0 = i := by simpa [Pos.up] using hup
      cases hf
      exact (happly c 0).trans (by rw [if_pos rfl, if_pos rfl])
  · have h1 := freeFrames_take hc.free
    have h2 := freeFrames_take hd.free
    show ((ph.frames.take c).take d).freeFrames + 2 = ph.frames.freeFrames
    omega

end Clone

/-! ## The heap -/

/-- The owner map and memory after the kernel has taken frames for itself. -/
abbrev KernelGrown : (Nat → Owner) → (Nat → Owner) → Mem → Mem → Prop := Grown (· = .kernel)

theorem KernelGrown.tree {m m' : Mem} {r : Nat} (h : KernelGrown own own' m m') (ht : TableTree own r m) :
    tableAt m' r = tableAt m r ∧ leafAt m' r = leafAt m r ∧ TableTree own' r m' :=
  ht.mono fun _ _ hf => h.keeps (by simp) (by simp) hf

section Heap

/-- **`map_page_in` in the heap's part of the kernel's tables.** -/
theorem mapPageIn_kernel (h : Owned own ph.frames) (hk : KernelMap own ph g) {v : U64} (h4 : idx4 v = 0)
    (h3 : idx3 v = 1) (paddr flags : U64) : mapPageIn ph (frameAddr g) v paddr flags = (false, ph) ∨
      ∃ own' ph', mapPageIn ph (frameAddr g) v paddr flags = (true, ph') ∧ Owned own' ph'.frames ∧
        KernelMap own' ph' g ∧ KernelGrown own own' ph.mem ph'.mem := by
  obtain ⟨d, q, hd, hdk, hq, hqk, hqg, hqd, ht⟩ := hk.tables
  have hnum : ∀ f, own f = .kernel → frameNum (frameAddr f) = f := fun f hf => h.num (kernel_ne_free hf)
  unfold mapPageIn
  simp only [h4, h3, tableGetOrCreate_next (hnum g hk.pml4) hd]
  by_cases hdz : frameAddr d = 0#64
  · exact .inl (by rw [if_pos hdz])
  simp only [if_neg hdz, tableGetOrCreate_next (hnum d hdk) hq]
  by_cases hqz : frameAddr q = 0#64
  · exact .inl (by rw [if_pos hqz])
  simp only [if_neg hqz]
  rcases tableGetOrCreate_cases h (kernel_ne_free hqk) (idx2 v) with ⟨t, hn, heq⟩ | ⟨-, ⟨n, hfree, heq⟩ | heq⟩
  · -- The heap's page table is there.
    obtain ⟨htk, htg, htd, htq⟩ := ht _ t (idx2_lt v) hn
    simp only [heq, hnum t htk]
    by_cases htz : frameAddr t = 0#64
    · exact .inl (by rw [if_pos htz])
    have hw : ∀ f, f ≠ t → ph.mem.store t (idx1 v) (mkLeaf paddr flags) f = ph.mem f := fun f hf =>
      funext fun j => store_of_ne _ fun e => hf e.1
    refine .inr ⟨own, _, if_neg htz, h, hk.write (fun _ hf => hf) fun d' q' hd' _ hq' _ => ?_,
      fun _ _ => rfl, fun f hfk => hw f fun e => hfk (e ▸ htk)⟩
    cases hd.symm.trans hd'
    cases hq.symm.trans hq'
    exact ⟨hw g htg.symm, hw d htd.symm, fun i u hu => Or.inl ((nextTable_congr (congrFun (hw q htq.symm) i)).symm.trans hu)⟩
  · -- A frame is hooked in as a page table of the heap.
    have hnk : ∀ f, own f = .kernel → f ≠ n := fun f hf => hfree.ne (kernel_ne_free hf)
    simp only [heq, if_neg hfree.ne_zero, hfree.num]
    refine .inr ⟨update own n .kernel, _, rfl, h.take hfree (by simp), ?_⟩
    generalize hm : (linkTable ph.mem n q (idx2 v)).store n (idx1 v) (mkLeaf paddr flags) = m
    have hlink : ∀ f, f ≠ n → m f = linkTable ph.mem n q (idx2 v) f := fun f hf =>
      funext fun j => by rw [← hm, store_of_ne _ fun e => hf e.1]
    have hother : ∀ f, f ≠ n → f ≠ q → m f = ph.mem f := fun f hfn hfq => (hlink f hfn).trans
      (funext fun j => linkTable_other hfree hfn fun e => hfq e.1)
    refine ⟨hk.write (fun f hf => by rw [update_of_ne (hnk f hf), hf]) fun d' q' hd' _ hq' _ => ?_,
      Grown.take hfree.own _ fun f hf => ?_⟩
    · cases hd.symm.trans hd'
      cases hq.symm.trans hq'
      have hqm := hlink q (hnk q hqk)
      refine ⟨hother g (hnk g hk.pml4) hqg.symm, hother d (hnk d hdk) hqd.symm, fun i u hu => ?_⟩
      rw [nextTable_congr (congrFun hqm i)] at hu
      by_cases hi2 : i = idx2 v
      · rw [hi2, nextTable_linkTable hfree] at hu
        cases hu
        exact .inr ⟨update_self _ _ _, (hnk g hk.pml4).symm, (hnk d hdk).symm, (hnk q hqk).symm⟩
      · rw [nextTable_congr (linkTable_other hfree (hnk q hqk) fun e => hi2 e.2)] at hu
        exact .inl hu
    · have hfn : f ≠ n := fun e => hf (by rw [e, update_self])
      rw [update_of_ne hfn] at hf
      exact hother f hfn fun e => hf (e ▸ hqk)
  · exact .inl (by simp only [heq, if_true])

/-- The heap lies in the 16 MB from `HEAP_BASE` on. -/
structure HeapOk (hp : Heap) : Prop where
  size_le : hp.size ≤ hp.cap
  cap_le : hp.cap ≤ 16777216

theorem idx_heap {a : Nat} (h1 : heapBase ≤ a) (h2 : a < heapBase + 16777216 + 4096) :
    idx4 (BitVec.ofNat 64 a) = 0 ∧ idx3 (BitVec.ofNat 64 a) = 1 := by
  have hb : heapBase = 1342177280 := rfl
  rw [idx4_eq, idx3_eq, BitVec.toNat_ofNat, Nat.mod_eq_of_lt (by omega)]
  omega

/-- What the heap's growth does to memory. -/
def KernelStep (g : Nat) (own : Nat → Owner) (ph ph' : Phys) : Prop :=
  ∃ own', Owned own' ph'.frames ∧ KernelMap own' ph' g ∧ KernelGrown own own' ph.mem ph'.mem

variable {size : Nat}

theorem growPage_owned (h : Owned own ph.frames) (hk : KernelMap own ph g) {j : Nat}
    (hj : size + j * 4096 < 16777216 + 4096) : KernelStep g own ph (growPage (frameAddr g) size j ph).2 := by
  obtain ⟨h4, h3⟩ := idx_heap (a := heapBase + size + j * 4096) (by omega) (by omega)
  unfold growPage
  rcases h.allocFrame with ⟨n, hfree, halloc⟩ | ⟨-, halloc⟩
  swap
  · simp only [halloc, if_true]
    exact ⟨own, h, hk, Grown.refl _ own ph.mem⟩
  have hk1 : KernelMap (update own n .kernel) { ph with frames := ph.frames.take n } g :=
    hk.mono fun f hf => ⟨by rw [update_of_ne (hfree.ne (kernel_ne_free hf)), hf], rfl⟩
  simp only [halloc, if_neg hfree.ne_zero]
  rcases mapPageIn_kernel (h.take hfree (by simp)) hk1 h4 h3 (frameAddr n) (0x02#64 ||| pageNx) with
    heq | ⟨own', ph', heq, ho', hk', hg'⟩
  · -- The frame goes back and nothing has changed.
    simp only [heq, Bool.false_eq_true, if_false, freeFrame_take hfree.free]
    exact ⟨own, h, hk, Grown.refl _ own ph.mem⟩
  · simp only [heq, if_true]
    exact ⟨own', ho', hk', (Grown.take hfree.own _ fun _ _ => rfl).trans (by simp) hg'⟩

theorem KernelStep.trans {ph'' : Phys} (h : KernelStep g own ph ph')
    (h' : ∀ own', Owned own' ph'.frames → KernelMap own' ph' g → KernelStep g own' ph' ph'') : KernelStep g own ph ph'' := by
  obtain ⟨own1, ho1, hk1, hg1⟩ := h
  obtain ⟨own2, ho2, hk2, hg2⟩ := h' own1 ho1 hk1
  exact ⟨own2, ho2, hk2, hg1.trans (by simp) hg2⟩

variable {hp : Heap}

theorem growChunk_le (hh : HeapOk hp) (n : Nat) : hp.size + growChunk hp n ≤ hp.cap := by
  have := hh.size_le
  unfold growChunk
  simp only
  split_ifs <;> omega

/-- **`heap_grow`** takes frames for the kernel and keeps the heap within its cap. -/
theorem heapGrow_owned (h : Owned own ph.frames) (hk : KernelMap own ph g) (hh : HeapOk hp) (n : Nat) :
    KernelStep g own ph (heapGrow ph (frameAddr g) hp n).2.1 ∧ HeapOk (heapGrow ph (frameAddr g) hp n).2.2 := by
  have hle := growChunk_le hh n
  have hcap := hh.cap_le
  have hloop : KernelStep g own ph (loopOk (growPage (frameAddr g) hp.size)
      (List.range ((growChunk hp n + 4095) / 4096)) ph).2 := by
    refine loopOk_inv (P := fun ph' => KernelStep g own ph ph') (fun j hj ph' hs => ?_)
      ⟨own, h, hk, Grown.refl _ own ph.mem⟩
    have := List.mem_range.mp hj
    exact hs.trans fun own' ho' hk' => growPage_owned ho' hk' (by omega)
  unfold heapGrow
  simp only
  rcases hl : loopOk (growPage (frameAddr g) hp.size) (List.range ((growChunk hp n + 4095) / 4096)) ph
    with ⟨ok, ph'⟩
  rw [hl] at hloop
  cases ok with
  | false => exact ⟨hloop, hh⟩
  | true => exact ⟨hloop, hle, hcap⟩

/-- **`kalloc`** takes frames for the kernel only. -/
theorem kallocLoop_owned : ∀ {fuel : Nat} {own : Nat → Owner} {ph : Phys} {hp : Heap}
    {a : U64} {ph' : Phys} {hp' : Heap}, Owned own ph.frames → KernelMap own ph g → HeapOk hp →
      kallocLoop (frameAddr g) size fuel ph hp = some (a, ph', hp') →
      KernelStep g own ph ph' ∧ HeapOk hp'
  | 0, _, _, _, _, _, _, _, _, _, h => absurd h (by simp [kallocLoop])
  | fuel + 1, own, ph, hp, a, ph', hp', ho, hk, hh, h => by
    simp only [kallocLoop] at h
    split at h
    · cases h
      exact ⟨⟨own, ho, hk, Grown.refl _ own ph.mem⟩, hh.size_le, hh.cap_le⟩
    split at h
    · simp at h
    obtain ⟨hstep, hok⟩ := heapGrow_owned ho hk hh (size + headerSize)
    split at h
    · rename_i heq
      rw [heq] at hstep hok
      cases h
      exact ⟨hstep, hok⟩
    · rename_i ph1 hp1 heq
      rw [heq] at hstep hok
      simp only at hstep hok
      obtain ⟨own1, ho1, hk1, hg1⟩ := hstep
      have hok1 : HeapOk { hp1 with blocks :=
          hp.blocks ++ [{ size := hp1.size - hp.size - headerSize, free := true }] } :=
        ⟨hok.size_le, hok.cap_le⟩
      obtain ⟨⟨own2, ho2, hk2, hg2⟩, hok2⟩ := kallocLoop_owned ho1 hk1 hok1 h
      exact ⟨⟨own2, ho2, hk2, hg1.trans (by simp) hg2⟩, hok2⟩

end Heap

end MinicOs
