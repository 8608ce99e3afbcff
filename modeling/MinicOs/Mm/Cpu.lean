import MinicOs.Mm.Owned

/-!
# What ring 3 reads

The CPU's own translation of an address: unlike `translate_in` it stops at a 2 MB page, and every
level must grant the access. On a private address of an address space in use the tables above the
leaf grant everything, so the leaf decides (`TableTree.cpuTranslate_private`).
-/

namespace MinicOs

/-- The large-page bit of a page-directory entry. -/
def largePage (e : U64) : Bool := e &&& 0x80#64 != 0#64

/-- The entry has every bit of `need`. -/
def allows (need e : U64) : Bool := e &&& need == need

/-- The bits a ring-3 read needs at every level: present and user. -/
def userReads : U64 := 0x05#64

/-- The CPU's walk: the frame and the offset in it, `none` for a fault. -/
def cpuTranslate (need : U64) (m : Mem) (pml4 vaddr : U64) : Option (Nat × Nat) :=
  let e4 := m (frameNum pml4) (idx4 vaddr)
  if allows need e4 = true then
    let e3 := m (leafFrame e4) (idx3 vaddr)
    if allows need e3 = true then
      let e2 := m (leafFrame e3) (idx2 vaddr)
      if allows need e2 = true then
        if largePage e2 = true then some (leafFrame e2 / 512 * 512 + idx1 vaddr, vaddr.toNat % 4096)
        else
          let e1 := m (leafFrame e2) (idx1 vaddr)
          if allows need e1 = true then some (leafFrame e1, vaddr.toNat % 4096) else none
      else none
    else none
  else none

/-- Byte `i` of frame `f`. -/
def byteAt (m : Mem) (f i : Nat) : U8 := getByte (m f (i / 8)) (i % 8)

/-- The byte ring 3 reads at an address, `none` for a fault. -/
def userRead (m : Mem) (pml4 vaddr : U64) : Option U8 :=
  (cpuTranslate userReads m pml4 vaddr).map fun p => byteAt m p.1 p.2

theorem allows_iff (need e : U64) : allows need e = true ↔ ∀ i, need.getLsbD i = true → e.getLsbD i = true := by
  unfold allows
  rw [beq_iff_eq]
  constructor
  · intro h i hi
    have := congrArg (fun w : U64 => w.getLsbD i) h
    simpa [hi] using this
  · intro h
    refine BitVec.eq_of_getLsbD_eq fun i _ => ?_
    rw [BitVec.getLsbD_and]
    cases hn : need.getLsbD i with
    | false => simp
    | true => simp [h i hn]

/-- A table entry that `table_get_or_create` wrote grants everything. -/
theorem allows_mkTable {need : U64} (hneed : ∀ i, need.getLsbD i = true → i < 3) (a : U64) :
    allows need (mkTable a) = true :=
  (allows_iff need _).mpr fun i hi => by
    rw [getLsbD_mkTable]
    simp [hneed i hi]

theorem largePage_mkTable (f : Nat) : largePage (mkTable (frameAddr f)) = false := by
  have h : largePage (mkTable (frameAddr f)) = (mkTable (frameAddr f)).getLsbD 7 :=
    and_bit_ne_zero _ 7 (by decide)
  rw [h, getLsbD_mkTable, getLsbD_frameAddr]
  simp

theorem leafFrame_mkTable {f : Nat} (hf : f < 2 ^ 51) : leafFrame (mkTable (frameAddr f)) = f := by
  conv_rhs => rw [← frameNum_frameAddr (f := f) (by omega)]
  apply frameNum_congr
  intro i hi
  rw [getLsbD_leafPaddr, getLsbD_mkTable]
  by_cases h63 : i = 63
  · subst h63
    rw [getLsbD_frameAddr, Nat.testBit_eq_false_of_lt (by omega)]
    simp
  · have : ¬ i < 3 := by omega
    simp [h63, hi, this]

section Private

variable {own : Nat → Owner} {fr : Frames} {m : Mem} {r : Nat} {need : U64}

theorem allows_of_not_present (hpres : need.getLsbD 0 = true) {e : U64} (he : present e = false) :
    allows need e = false := by
  refine Bool.eq_false_iff.mpr fun ha => ?_
  have hp := (allows_iff need _).mp ha 0 hpres
  rw [← present_eq, he] at hp
  exact Bool.noConfusion hp

variable (h : TableTree own r m) (ho : Owned own fr)
include h ho

section Walk

variable (hneed : ∀ i, need.getLsbD i = true → i < 3) (hpres : need.getLsbD 0 = true)
include hneed hpres

/-- One level of the walk above the leaf: a present entry leads on, an absent one faults. -/
theorem TableTree.cpuLevel {pos up : Pos} {i f : Nat} (hup : pos.up = some (up, i)) (hf : tableAt m r up = some f) :
    (tableAt m r pos = none ∧ allows need (m f i) = false) ∨
      ∃ n, tableAt m r pos = some n ∧ allows need (m f i) = true ∧ leafFrame (m f i) = n ∧ largePage (m f i) = false := by
  have hpos : tableAt m r pos = nextTable m f i := by
    rw [tableAt_up hup, hf]
    rfl
  cases hn : nextTable m f i with
  | none => exact Or.inl ⟨hpos.trans hn, allows_of_not_present hpres (nextTable_eq_none.mp hn)⟩
  | some n =>
    have hlt := ho.lt (h.addr ho (hpos.trans hn)).1
    have htot := totalFrames_lt
    rw [h.entry pos up i f n hup hf hn]
    exact Or.inr ⟨n, hpos.trans hn, allows_mkTable hneed _, leafFrame_mkTable (by omega), largePage_mkTable n⟩

/-- **The CPU's walk of a private address**: the leaf decides. -/
theorem TableTree.cpuTranslate_private {v : U64} (hv : Private v) :
    cpuTranslate need m (frameAddr r) v = (leafAt m r (pageOf v hv)).bind fun e =>
      if allows need e = true then some (leafFrame e, v.toNat % 4096) else none := by
  have hroot : tableAt m r .root = some r := rfl
  have hleaf : leafAt m r (pageOf v hv) = (tableAt m r (.pt (idx3 v) (idx2 v))).bind fun f =>
    if present (m f (idx1 v)) = true then some (m f (idx1 v)) else none := rfl
  rw [hleaf]
  unfold cpuTranslate
  simp only [(h.addr ho hroot).2.2, hv.1]
  rcases h.cpuLevel ho hneed hpres Pos.up_pdpt hroot with ⟨h0, ha⟩ | ⟨d, hd, ha, hlf, -⟩
  · rw [tableAt_up (Pos.up_pt hv), tableAt_up (Pos.up_pd hv), h0, ha]
    rfl
  simp only [ha, hlf, if_true]
  rcases h.cpuLevel ho hneed hpres (Pos.up_pd hv) hd with ⟨h0, ha⟩ | ⟨g, hg, ha, hlf, -⟩
  · rw [tableAt_up (Pos.up_pt hv), h0, ha]
    rfl
  simp only [ha, hlf, if_true]
  rcases h.cpuLevel ho hneed hpres (Pos.up_pt hv) hg with ⟨h0, ha⟩ | ⟨t, ht, ha, hlf, hlarge⟩
  · rw [h0, ha]
    rfl
  simp only [ha, hlf, hlarge, if_true, Bool.false_eq_true, if_false, ht, Option.bind_some]
  cases hp : present (m t (idx1 v)) with
  | true => simp only [if_true, Option.bind_some]
  | false => simp [allows_of_not_present hpres hp]

end Walk

/-- What ring 3 reads in the private region: the byte of the page, where it is mapped for users. -/
theorem TableTree.userRead_private {v : U64} (hv : Private v) :
    userRead m (frameAddr r) v = (leafAt m r (pageOf v hv)).bind fun e =>
      if userBit e = true then some (byteAt m (leafFrame e) (v.toNat % 4096)) else none := by
  have hneed : ∀ i, userReads.getLsbD i = true → i < 3 := fun i hi => by
    by_contra hge
    by_cases hlt : i < 64
    · interval_cases i <;> exact absurd hi (by decide)
    · rw [BitVec.getLsbD_of_ge _ _ (by omega)] at hi
      exact Bool.noConfusion hi
  unfold userRead
  rw [h.cpuTranslate_private ho hneed (by decide) hv]
  cases he : leafAt m r (pageOf v hv) with
  | none => rfl
  | some e =>
    have hp : e.getLsbD 0 = true := by
      obtain ⟨f, -, hf⟩ := Option.bind_eq_some_iff.mp he
      grind [present_eq]
    have hall : allows userReads e = userBit e := by
      rw [Bool.eq_iff_iff, allows_iff, userBit_eq]
      refine ⟨fun ha => ha 2 (by decide), fun hu i hi => ?_⟩
      have := hneed i hi
      interval_cases i
      · exact hp
      · exact absurd hi (by decide)
      · exact hu
    simp only [Option.bind_some, hall]
    cases userBit e <;> rfl

end Private

end MinicOs
