import MinicOs.Mm.Owned

/-!
# What mapping a page does

The specification of `map_page_in` on a private page of an address space: it grows the tree
of that address space by the tables it lacks, out of free frames, and writes one leaf. Nothing else
that is owned changes.
-/

namespace MinicOs

open Function

/-- The owner map and memory after frames have been taken for owners in `P`: what was owned stays, and only frames of such
owners were written. -/
structure Grown (P : Owner → Prop) (own own' : Nat → Owner) (m m' : Mem) : Prop where
  kept : ∀ f, own f ≠ .free → own' f = own f
  mem : ∀ f, ¬ P (own' f) → m' f = m f

/-- The tables of the address space `r`. -/
def Owner.OfTree (r : Nat) (o : Owner) : Prop := ∃ pos, o = .table r pos

variable {P : Owner → Prop} {own own' : Nat → Owner} {ph ph' : Phys} {m m' : Mem} {r f i n : Nat}

theorem Grown.refl (P : Owner → Prop) (own : Nat → Owner) (m : Mem) : Grown P own own m m :=
  ⟨fun _ _ => rfl, fun _ _ => rfl⟩

theorem Grown.trans {own'' : Nat → Owner} {m'' : Mem} (hP : ¬ P .free) (h : Grown P own own' m m')
    (h' : Grown P own' own'' m' m'') : Grown P own own'' m m'' := by
  refine ⟨fun f hf => ?_, fun f hf => ?_⟩
  · rw [h'.kept f (by rw [h.kept f hf]; exact hf), h.kept f hf]
  · refine (h'.mem f hf).trans (h.mem f fun hmid => hf ?_)
    rwa [h'.kept f fun hfree => hP (hfree ▸ hmid)]

theorem Grown.keeps (h : Grown P own own' m m') {o : Owner} (ho : o ≠ .free) (hP : ¬ P o) (hf : own f = o) :
    own' f = o ∧ m' f = m f := by
  have hown : own' f = o := by rw [h.kept f (hf ▸ ho), hf]
  exact ⟨hown, h.mem f (hown ▸ hP)⟩

theorem Grown.take (hn : own n = .free) (o : Owner) (hm : ∀ f, ¬ P (update own n o f) → m' f = m f) :
    Grown P own (update own n o) m m' :=
  ⟨fun f hf => update_of_ne (fun e : f = n => hf (e ▸ hn)) _ _, hm⟩

theorem not_ofTree_free (r : Nat) : ¬ Owner.OfTree r .free := fun ⟨_, h⟩ => by simp at h

/-! ## One table -/

/-- **`table_get_or_create`** finds the table, or hooks in a free frame, or finds none free. -/
theorem tableGetOrCreate_cases (ho : Owned own ph.frames) (hf : own f ≠ .free) (i : Nat) :
    (∃ n, nextTable ph.mem f i = some n ∧ tableGetOrCreate ph (frameAddr f) i = (frameAddr n, ph)) ∨
      (nextTable ph.mem f i = none ∧ ((∃ n, FreshFrame own ph.frames n ∧ tableGetOrCreate ph (frameAddr f) i =
          (frameAddr n, { mem := linkTable ph.mem n f i, frames := ph.frames.take n })) ∨
        tableGetOrCreate ph (frameAddr f) i = (0#64, ph))) := by
  unfold tableGetOrCreate
  simp only [ho.num hf]
  cases hp : present (ph.mem f i) with
  | true =>
    left
    refine ⟨frameNum (tablePtr (ph.mem f i)), ?_, ?_⟩
    · unfold nextTable
      rw [hp, if_pos rfl]
    · rw [if_pos rfl, ← tablePtr_eq]
  | false =>
    refine .inr ⟨nextTable_of_not_present hp, ?_⟩
    rw [if_neg Bool.false_ne_true]
    rcases ho.allocFrame with ⟨n, hn, halloc⟩ | ⟨-, halloc⟩
    · exact .inl ⟨n, hn, by simp only [halloc, if_neg hn.ne_zero, linkTable]⟩
    · exact .inr (by simp only [halloc, if_true])

/-- The frames `table_get_or_create` takes for a position. -/
def tableMissing (m : Mem) (r : Nat) (pos : Pos) : Nat := if tableAt m r pos = none then 1 else 0

/-- Address space `r` has a table in frame `n` at `pos`, a new one if there was none. -/
structure Hooked (r : Nat) (pos : Pos) (n : Nat) (own own' : Nat → Owner) (ph ph' : Phys) : Prop where
  owned : Owned own' ph'.frames
  tree : TableTree own' r ph'.mem
  grown : Grown (Owner.OfTree r) own own' ph.mem ph'.mem
  tables : tableAt ph'.mem r = update (tableAt ph.mem r) pos (some n)
  leaves : leafAt ph'.mem r = leafAt ph.mem r
  count : ph'.frames.freeFrames + tableMissing ph.mem r pos = ph.frames.freeFrames

section Map

variable {pos up : Pos} (ho : Owned own ph.frames) (h : TableTree own r ph.mem)
include ho h

/-- The same in one form: the tree has the table afterwards, or there was no frame for it. -/
theorem tableGetOrCreate_hooked (hup : pos.up = some (up, i)) (hf : tableAt ph.mem r up = some f) :
    (∃ own' ph' n, tableGetOrCreate ph (frameAddr f) i = (frameAddr n, ph') ∧ Hooked r pos n own own' ph ph') ∨
      tableGetOrCreate ph (frameAddr f) i = (0#64, ph) := by
  have hpos : tableAt ph.mem r pos = nextTable ph.mem f i := by
    rw [tableAt_up hup, hf]
    rfl
  rcases tableGetOrCreate_cases ho (h.addr ho hf).1 i with ⟨n, hn, heq⟩ | ⟨hnone, ⟨n, hn, heq⟩ | heq⟩
  · refine .inl ⟨own, ph, n, heq, ho, h, Grown.refl _ _ _, ?_, rfl, ?_⟩
    · rw [← hn, ← hpos, update_eq_self]
    · rw [tableMissing, hpos, hn, if_neg (by simp), Nat.add_zero]
  · refine .inl ⟨_, _, n, heq, ho.take hn (by simp), h.link hn hup hf hnone, Grown.take hn.own _ fun g hg => ?_,
      h.tableAt_link hn hup hf hnone, h.leafAt_link hn hup hf hnone, ?_⟩
    · have hgn : g ≠ n := fun e => hg ⟨pos, by rw [e, update_self]⟩
      funext j
      refine linkTable_other hn hgn ?_
      rintro ⟨rfl, -⟩
      exact hg ⟨up, by rw [update_of_ne hgn]; exact h.table up g hf⟩
    · rw [tableMissing, hpos, if_pos hnone]
      exact freeFrames_take hn.free
  · exact .inr heq

end Map

theorem tableGetOrCreate_next (hf : frameNum (frameAddr f) = f) (h : nextTable ph.mem f i = some n) :
    tableGetOrCreate ph (frameAddr f) i = (frameAddr n, ph) := by
  obtain ⟨hp, ht⟩ := nextTable_eq_some h
  unfold tableGetOrCreate
  simp only [hf, if_pos hp, ht]

/-! ## `map_page_in` -/

/-- The tree of `r` has the tables of the page at `v`, otherwise the tables it had, and each new one
took a frame. -/
structure TablesGrown (r : Nat) (v : U64) (ph ph' : Phys) : Prop where
  other : ∀ pos, pos ≠ .pd (idx3 v) → pos ≠ .pt (idx3 v) (idx2 v) →
    tableAt ph'.mem r pos = tableAt ph.mem r pos
  pd : tableAt ph'.mem r (.pd (idx3 v)) ≠ none
  pt : tableAt ph'.mem r (.pt (idx3 v) (idx2 v)) ≠ none
  count : ph'.frames.freeFrames + (tableMissing ph.mem r (.pd (idx3 v)) +
    tableMissing ph.mem r (.pt (idx3 v) (idx2 v))) = ph.frames.freeFrames

/-- The tables of `r` below its PDPT are those at the positions `S`. -/
def HasTables (m : Mem) (r : Nat) (S : Finset Pos) : Prop :=
  ∀ pos, tableAt m r pos ≠ none ↔ pos = .root ∨ pos = .pdpt ∨ pos ∈ S

variable {S : Finset Pos}

theorem HasTables.missing (h : HasTables m r S) {pos : Pos} (h1 : pos ≠ .root) (h2 : pos ≠ .pdpt) :
    tableMissing m r pos = if pos ∈ S then 0 else 1 := by
  have hiff := h pos
  simp only [h1, h2, false_or] at hiff
  unfold tableMissing
  by_cases hin : pos ∈ S
  · rw [if_pos hin, if_neg (hiff.mpr hin)]
  · rw [if_neg hin, if_pos (not_not.mp fun hne => hin (hiff.mp hne))]

/-- The tables missing for a page are those it adds. -/
theorem HasTables.card_insert (h : HasTables m r S) (i3 i2 : Nat) : (insert (.pd i3) (insert (.pt i3 i2) S)).card =
      S.card + (tableMissing m r (.pd i3) + tableMissing m r (.pt i3 i2)) := by
  rw [h.missing (by simp) (by simp), h.missing (by simp) (by simp)]
  by_cases h1 : Pos.pd i3 ∈ S <;> by_cases h2 : Pos.pt i3 i2 ∈ S <;>
    simp [Finset.card_insert_of_notMem, h1, h2]

/-- Where a page's tables are there, they are among the positions. -/
theorem TablesGrown.hasTables {v : U64} (h : TablesGrown r v ph ph') (hS : HasTables ph.mem r S) :
    HasTables ph'.mem r (insert (.pd (idx3 v)) (insert (.pt (idx3 v) (idx2 v)) S)) := by
  intro pos
  by_cases h1 : pos = .pd (idx3 v)
  · subst h1
    simp [h.pd]
  by_cases h2 : pos = .pt (idx3 v) (idx2 v)
  · subst h2
    simp [h.pt]
  rw [h.other pos h1 h2, hS pos]
  simp [h1, h2]

/-- **`map_page_in` on a private page**, when there are frames for the tables. -/
theorem mapPageIn_private (ho : Owned own ph.frames) (h : TableTree own r ph.mem) {v : U64} (hv : Private v)
    {paddr flags : U64} (heq : mapPageIn ph (frameAddr r) v paddr flags = (true, ph')) :
    ∃ own', Owned own' ph'.frames ∧ TableTree own' r ph'.mem ∧ Grown (Owner.OfTree r) own own' ph.mem ph'.mem ∧
      leafAt ph'.mem r = update (leafAt ph.mem r) (pageOf v hv) (some (mkLeaf paddr flags)) ∧ TablesGrown r v ph ph' := by
  obtain ⟨d, hd⟩ := h.top
  have hroot : tableAt ph.mem r .root = some r := rfl
  unfold mapPageIn at heq
  simp only [hv.1, tableGetOrCreate_next (h.addr ho hroot).2.2 hd, if_neg (h.addr ho hd).2.1] at heq
  rcases tableGetOrCreate_hooked ho h (Pos.up_pd hv) hd with ⟨own2, ph2, g, heq2, h2⟩ | heq2
  swap
  · simp [heq2] at heq
  have hg : tableAt ph2.mem r (.pd (idx3 v)) = some g := by rw [h2.tables, update_self]
  simp only [heq2, if_neg (h2.tree.addr h2.owned hg).2.1] at heq
  rcases tableGetOrCreate_hooked h2.owned h2.tree (Pos.up_pt hv) hg with ⟨own1, ph1, f, heq1, h1⟩ | heq1
  swap
  · simp [heq1] at heq
  have hf : tableAt ph1.mem r (.pt (idx3 v) (idx2 v)) = some f := by rw [h1.tables, update_self]
  have haddr := h1.tree.addr h1.owned hf
  simp only [heq1, if_neg haddr.2.1, haddr.2.2, Prod.mk.injEq, true_and] at heq
  subst heq
  have hfp : tableAt ph1.mem r (.pt (pageOf v hv).i3 (pageOf v hv).i2) = some f := hf
  have htab : tableAt (ph1.mem.store f (idx1 v) (mkLeaf paddr flags)) r = tableAt ph1.mem r :=
    (h1.tree.tableAt_setLeaf hfp :)
  refine ⟨own1, h1.owned, h1.tree.setLeaf hfp, (h2.grown.trans (not_ofTree_free r) h1.grown).trans (not_ofTree_free r)
    ⟨fun _ _ => rfl, fun g' hg' => funext fun j => store_of_ne _ ?_⟩, ?_, fun pos hpd hpt => ?_, ?_, ?_, ?_⟩
  · rintro ⟨rfl, -⟩
    exact hg' ⟨_, h1.tree.table _ _ hf⟩
  · show leafAt (ph1.mem.store f (idx1 v) (mkLeaf paddr flags)) r = _
    rw [← h2.leaves, ← h1.leaves, ← h1.tree.leafAt_setLeaf hfp (present_mkLeaf paddr flags)]
    rfl
  · show tableAt (ph1.mem.store f (idx1 v) (mkLeaf paddr flags)) r pos = _
    rw [htab, h1.tables, update_of_ne hpt, h2.tables, update_of_ne hpd]
  · show tableAt (ph1.mem.store f (idx1 v) (mkLeaf paddr flags)) r _ ≠ none
    rw [htab, h1.tables, update_of_ne (by simp), hg]
    simp
  · show tableAt (ph1.mem.store f (idx1 v) (mkLeaf paddr flags)) r _ ≠ none
    rw [htab, hf]
    simp
  · have hmiss : tableMissing ph2.mem r (.pt (idx3 v) (idx2 v)) = tableMissing ph.mem r (.pt (idx3 v) (idx2 v)) := by
      unfold tableMissing
      rw [h2.tables, update_of_ne (by simp)]
    have hc1 := h1.count
    have hc2 := h2.count
    show ph1.frames.freeFrames + _ = _
    omega

/-- **`map_page_in` on a page whose tables are there** writes the leaf. -/
theorem mapPageIn_remap (ho : Owned own ph.frames) (h : TableTree own r ph.mem) {v : U64} (hv : Private v)
    (hf : tableAt ph.mem r (.pt (idx3 v) (idx2 v)) = some f) (paddr flags : U64) :
    mapPageIn ph (frameAddr r) v paddr flags = (true, { ph with mem := ph.mem.store f (idx1 v) (mkLeaf paddr flags) }) := by
  have hroot : tableAt ph.mem r .root = some r := rfl
  obtain ⟨g, hg, hgf⟩ := Option.bind_eq_some_iff.mp ((tableAt_up (Pos.up_pt hv)).symm.trans hf)
  obtain ⟨d, hd, hdg⟩ := Option.bind_eq_some_iff.mp ((tableAt_up (Pos.up_pd hv)).symm.trans hg)
  unfold mapPageIn
  simp only [hv.1, tableGetOrCreate_next (h.addr ho hroot).2.2 hd, if_neg (h.addr ho hd).2.1,
    tableGetOrCreate_next (h.addr ho hd).2.2 hdg, if_neg (h.addr ho hg).2.1,
    tableGetOrCreate_next (h.addr ho hg).2.2 hgf, if_neg (h.addr ho hf).2.1, (h.addr ho hf).2.2]

end MinicOs
