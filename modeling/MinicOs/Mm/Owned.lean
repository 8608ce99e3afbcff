import MinicOs.Mm.Tree

/-!
# Who owns a frame

A map `own` says what every frame is for: it is free, the kernel's (or leaked), a table at one position of one address
space, or a page. `Owned own fr` says that the allocator's bitmap is `own` read as a bit, `TableTree own r m` that the
tables of the address space with PML4 frame `r` lie in the frames that `own` has for them. That `own` is a function says
at once that no frame is two tables, and no table is a page.

The map is not in the code. The code keeps it implicitly; the lemmas here say how each primitive
step moves it: take a frame (`Owned.take`), write a frame that is no table (`TableTree.mono`), hook in an
empty table (`TableTree.link`), write a leaf (`TableTree.setLeaf`).
-/

namespace MinicOs

open Function Option

/-- What a frame is for. -/
inductive Owner
  | free
  | kernel
  | table (r : Nat) (pos : Pos)
  | page
deriving DecidableEq

/-- The bitmap is as the owner map says. -/
structure Owned (own : Nat → Owner) (fr : Frames) : Prop where
  alloc : ∀ f, f < totalFrames → (fr.bitmap f = true ↔ own f ≠ .free)
  range : ∀ f, totalFrames ≤ f → own f = .free
  zero : own 0 = .kernel

/-- The tables of an address space are as the owner map says, and their entries as `table_get_or_create` writes them. -/
structure TableTree (own : Nat → Owner) (r : Nat) (m : Mem) : Prop where
  top : ∃ d, tableAt m r .pdpt = some d
  table : ∀ pos f, tableAt m r pos = some f → own f = .table r pos
  entry : ∀ (pos up : Pos) i f n, pos.up = some (up, i) → tableAt m r up = some f → nextTable m f i = some n →
    m f i = mkTable (frameAddr n)

/-- A frame that `alloc_frame` hands out. -/
structure FreshFrame (own : Nat → Owner) (fr : Frames) (n : Nat) : Prop where
  free : fr.Free n
  own : own n = .free
  ne_zero : frameAddr n ≠ 0#64
  num : frameNum (frameAddr n) = n

variable {own own' : Nat → Owner} {fr : Frames} {f n : Nat}

theorem FreshFrame.lt (h : FreshFrame own fr n) : n < totalFrames := h.free.lt

theorem FreshFrame.ne (h : FreshFrame own fr n) (hf : own f ≠ .free) : f ≠ n := fun e => hf (e ▸ h.own)

section Bitmap

variable (h : Owned own fr)
include h

theorem Owned.lt (hf : own f ≠ .free) : f < totalFrames := by
  by_contra hge
  exact hf (h.range f (by omega))

theorem Owned.num (hf : own f ≠ .free) : frameNum (frameAddr f) = f :=
  frameNum_frameAddr (by have := h.lt hf; have := totalFrames_lt; omega)

/-- Only the kernel's frame 0 has the address `NULL`. -/
theorem Owned.ne_zero (hf : own f ≠ .free) (hk : own f ≠ .kernel) : frameAddr f ≠ 0#64 :=
  frameAddr_ne_zero (h.lt hf) (Nat.pos_of_ne_zero fun h0 => hk (h0 ▸ h.zero))

theorem Owned.free_iff : fr.Free f ↔ f < totalFrames ∧ own f = .free := by
  refine and_congr_right fun hf => ?_
  have := h.alloc f hf
  cases hb : fr.bitmap f <;> simp_all

theorem Owned.allocFrame : (∃ n, FreshFrame own fr n ∧ allocFrame fr = (frameAddr n, fr.take n)) ∨
    (fr.freeFrames = 0 ∧ allocFrame fr = (0#64, fr)) := by
  have htot := totalFrames_lt
  rcases allocFrame_cases ((h.alloc 0 (by decide)).mpr (by rw [h.zero]; simp)) with ⟨n, hn, hn0, halloc⟩ | ⟨hnone, halloc⟩
  · have hlt := hn.lt
    exact .inl ⟨n, ⟨hn, (h.free_iff.mp hn).2, frameAddr_ne_zero hlt hn0, frameNum_frameAddr (by omega)⟩, halloc⟩
  · exact .inr ⟨freeFrames_eq_zero.mpr hnone, halloc⟩

theorem Owned.take (hn : FreshFrame own fr n) {o : Owner} (ho : o ≠ .free) : Owned (update own n o) (fr.take n) := by
  refine ⟨fun g hg => ?_, fun g hg => ?_, ?_⟩
  · rw [take_bitmap, update_apply]
    split
    · simp [ho]
    · exact h.alloc g hg
  · rw [update_of_ne (by have := hn.lt; omega)]
    exact h.range g hg
  · rw [update_of_ne (hn.ne (by rw [h.zero]; simp))]
    exact h.zero

end Bitmap

section Tree

variable {r : Nat} {m m' : Mem} {pos up : Pos}

section

variable (h : TableTree own r m)
include h

/-- A table's frame has an address, and it is not `NULL`. -/
theorem TableTree.addr (ho : Owned own fr) (ht : tableAt m r pos = some f) :
    own f ≠ .free ∧ frameAddr f ≠ 0#64 ∧ frameNum (frameAddr f) = f := by
  have hown := h.table pos f ht
  have hf : own f ≠ .free := by rw [hown]; simp
  exact ⟨hf, ho.ne_zero hf (by rw [hown]; simp), ho.num hf⟩

theorem TableTree.root_addr (ho : Owned own fr) : own r ≠ .free ∧ frameAddr r ≠ 0#64 ∧ frameNum (frameAddr r) = r :=
  h.addr ho (show tableAt m r .root = some r from rfl)

theorem TableTree.inj {pos' : Pos} (ht : tableAt m r pos = some f) (ht' : tableAt m r pos' = some f) : pos = pos' := by
  have h1 := h.table pos f ht
  rw [h.table pos' f ht'] at h1
  exact (Owner.table.inj h1).2.symm

theorem TableTree.mono (hm : ∀ f pos, own f = .table r pos → own' f = .table r pos ∧ m' f = m f) :
    tableAt m' r = tableAt m r ∧ leafAt m' r = leafAt m r ∧ TableTree own' r m' := by
  have hsame : ∀ pos f, tableAt m r pos = some f → m' f = m f := fun pos f ht => (hm f pos (h.table pos f ht)).2
  have htab : tableAt m' r = tableAt m r := tableAt_congr fun pos f _ => hsame pos f
  refine ⟨htab, leafAt_congr hsame, by rw [htab]; exact h.top, fun pos f hf => ?_, fun pos up i f n hup hf hn => ?_⟩
  · rw [htab] at hf
    exact (hm f pos (h.table pos f hf)).1
  · rw [htab] at hf
    have hmf := congrFun (hsame up f hf) i
    rw [hmf]
    exact h.entry pos up i f n hup hf ((nextTable_congr hmf).symm.trans hn)

end

/-! ## Growing a tree -/

/-- Memory after a free frame `n` is zeroed and hooked in at entry `i` of table `f`. -/
def linkTable (m : Mem) (n f i : Nat) : Mem :=
  (zeroPage m (frameAddr n)).store f i (mkTable (frameAddr n))

variable {i : Nat}

theorem linkTable_entry (m : Mem) (n f i : Nat) : linkTable m n f i f i = mkTable (frameAddr n) := by
  unfold linkTable
  rw [store_self]

section Link

variable (hn : FreshFrame own fr n)
include hn

theorem linkTable_new (hf : own f ≠ .free) (j : Nat) : linkTable m n f i n j = 0#64 := by
  unfold linkTable
  rw [store_of_ne _ fun e => hn.ne hf e.1.symm, zeroPage_apply, hn.num, if_pos rfl]

theorem linkTable_other {g j : Nat} (hg : g ≠ n) (hne : ¬ (g = f ∧ j = i)) : linkTable m n f i g j = m g j := by
  unfold linkTable
  rw [store_of_ne _ hne, zeroPage_apply, hn.num, if_neg hg]

theorem nextTable_linkTable : nextTable (linkTable m n f i) f i = some n := by
  unfold nextTable
  rw [linkTable_entry, present_mkTable, if_pos rfl,
    frameNum_tablePtr_mkTable (by have := hn.lt; have := totalFrames_lt; omega)]

variable (h : TableTree own r m) (hup : pos.up = some (up, i)) (hf : tableAt m r up = some f)
  (hp : nextTable m f i = none)
include h

theorem TableTree.table_ne {g : Nat} (hg : tableAt m r pos = some g) : own g ≠ .free ∧ g ≠ n := by
  have hown : own g ≠ .free := by rw [h.table pos g hg]; simp
  exact ⟨hown, hn.ne hown⟩

include hup hf hp

theorem TableTree.tableAt_link : tableAt (linkTable m n f i) r = update (tableAt m r) pos (some n) := by
  have hpos : tableAt m r pos = none := by rw [tableAt_up hup, hf, bind_some, hp]
  funext p
  induction p using Pos.induction with
  | root =>
    rw [update_of_ne]
    · rfl
    · rintro rfl
      simp [Pos.up] at hup
  | out p hpu hpr =>
    rw [update_of_ne, tableAt_of_up_none hpu hpr, tableAt_of_up_none hpu hpr]
    rintro rfl
    rw [hup] at hpu
    simp at hpu
  | down p q j hq ih =>
    rw [tableAt_up hq, ih]
    by_cases hqp : q = pos
    · -- Below the new table there is nothing.
      subst hqp
      rw [update_self, update_of_ne (Pos.up_ne hq).symm, tableAt_up hq, hpos, bind_some, bind_none]
      refine nextTable_of_not_present ?_
      rw [linkTable_new hn (h.table_ne hn hf).1, present_zero]
    · rw [update_of_ne hqp]
      by_cases hpp : p = pos
      · subst hpp
        obtain ⟨rfl, rfl⟩ : up = q ∧ i = j := by simpa [hup] using hq
        rw [update_self, hf, bind_some, nextTable_linkTable hn]
      · rw [update_of_ne hpp, tableAt_up hq]
        cases hg : tableAt m r q with
        | none => rfl
        | some g =>
          refine nextTable_congr (linkTable_other hn (h.table_ne hn hg).2 ?_)
          rintro ⟨rfl, rfl⟩
          -- The entry written leads to the new position.
          obtain rfl := h.inj hg hf
          exact hpp (Pos.up_inj hq hup)

theorem TableTree.leafAt_link : leafAt (linkTable m n f i) r = leafAt m r := by
  have hpos : tableAt m r pos = none := by rw [tableAt_up hup, hf, bind_some, hp]
  funext pg
  unfold leafAt
  rw [h.tableAt_link hn hup hf hp, update_apply]
  split
  · rename_i hpg
    rw [hpg, hpos, bind_some, bind_none, linkTable_new hn (h.table_ne hn hf).1, present_zero]
    rfl
  · cases hg : tableAt m r (.pt pg.i3 pg.i2) with
    | none => rfl
    | some g =>
      have hgf : g ≠ f := by
        rintro rfl
        obtain rfl := h.inj hg hf
        exact Pos.inner_of_up hup
      rw [bind_some, bind_some, linkTable_other hn (h.table_ne hn hg).2 fun e => hgf e.1]

theorem TableTree.link : TableTree (update own n (.table r pos)) r (linkTable m n f i) := by
  have htable := h.tableAt_link hn hup hf hp
  refine ⟨?_, fun p g hg => ?_, fun pos' up' j g t hup' hg ht => ?_⟩
  · obtain ⟨d, hd⟩ := h.top
    refine ⟨d, ?_⟩
    rw [htable, update_of_ne, hd]
    rintro rfl
    rw [tableAt_up hup, hf, bind_some, hp] at hd
    simp at hd
  · rw [htable, update_apply] at hg
    split at hg
    · rename_i hpp
      cases hg
      rw [update_self, hpp]
    · rw [update_of_ne (h.table_ne hn hg).2, h.table p g hg]
  · rw [htable, update_apply] at hg
    split at hg
    · -- The new table is empty.
      cases hg
      rw [nextTable_of_not_present (by rw [linkTable_new hn (h.table_ne hn hf).1, present_zero])] at ht
      simp at ht
    · by_cases hfi : g = f ∧ j = i
      · obtain ⟨rfl, rfl⟩ := hfi
        rw [nextTable_linkTable hn] at ht
        rw [linkTable_entry, some.inj ht]
      · have hsame : linkTable m n f i g j = m g j := linkTable_other hn (h.table_ne hn hg).2 hfi
        rw [hsame]
        exact h.entry pos' up' j g t hup' hg ((nextTable_congr hsame).symm.trans ht)

end Link

/-! ## Writing a leaf -/

section SetLeaf

variable {pg : Page} {e : U64} (h : TableTree own r m) (hf : tableAt m r (.pt pg.i3 pg.i2) = some f)
include h hf

theorem TableTree.tableAt_setLeaf : tableAt (m.store f pg.i1 e) r = tableAt m r := by
  refine tableAt_congr fun pos g hin hg => funext fun j => ?_
  refine store_of_ne e ?_
  rintro ⟨rfl, -⟩
  obtain rfl := h.inj hg hf
  exact hin

theorem TableTree.leafAt_setLeaf (hp : present e = true) :
    leafAt (m.store f pg.i1 e) r = update (leafAt m r) pg (some e) := by
  funext pg'
  by_cases hself : pg' = pg
  · subst hself
    rw [update_self, leafAt, h.tableAt_setLeaf hf, hf, bind_some, store_self, if_pos hp]
  · rw [update_of_ne hself]
    unfold leafAt
    rw [h.tableAt_setLeaf hf]
    cases hg : tableAt m r (.pt pg'.i3 pg'.i2) with
    | none => rfl
    | some g =>
      have hne : ¬ (g = f ∧ pg'.i1 = pg.i1) := by
        rintro ⟨rfl, h1⟩
        have hpt := h.inj hg hf
        refine hself ?_
        cases pg
        cases pg'
        simp_all
      rw [bind_some, bind_some, store_of_ne e hne]

theorem TableTree.setLeaf : TableTree own r (m.store f pg.i1 e) := by
  have htable := h.tableAt_setLeaf (e := e) hf
  refine ⟨by rw [htable]; exact h.top, by rw [htable]; exact h.table, fun pos up i g n hup hg hn => ?_⟩
  rw [htable] at hg
  have hsame : m.store f pg.i1 e g i = m g i := by
    refine store_of_ne e ?_
    rintro ⟨rfl, -⟩
    obtain rfl := h.inj hg hf
    exact Pos.inner_of_up hup
  rw [hsame]
  exact h.entry pos up i g n hup hg ((nextTable_congr hsame).symm.trans hn)

end SetLeaf

end Tree

end MinicOs
