import MinicOs.Fs.Layout

/-!
# MiniFS is a tree of files

`FsOp` is an operation of MiniFS on a path, done on the disk (`FsOp.onDisk`, by the functions of the
source) and on a tree (`FsOp.onTree`, at the components of the path). From `mkfs` on the two give the
same results.
-/

namespace MinicOs

open List Option

variable {p : List (List U8)}

section Create

variable {d : Disk} {t : Tree (List U8)} {loc : List (List U8) → Nat} {next : Nat}
  {q : List (List U8)} {n : List U8}

/-- What filling the new sectors has to do. -/
structure Fills (fill : Nat → Disk → Disk) (next : Nat) (node : Node) : Prop where
  below : ∀ d x, x < next → fill (next % 2 ^ 32) d x = d x
  zero : node.isDir = true → ∀ d, fill (next % 2 ^ 32) d next = zeroSector
  data : node.isDir = false → ∀ d k, k < node.bytes.length →
    fill (next % 2 ^ 32) d (next + k / 512) (k % 512) = node.bytes.getD k 0

/-- The sectors a new node takes: none if there is no room for it. -/
noncomputable def Tree.taken (t : Tree (List U8)) (p : List (List U8)) (node : Node) : Nat :=
  open Classical in if t.Room p then node.sectors else 0

/-- An operation on the disk gave the result it gave on the tree, and left the disk holding the
tree. -/
def Agrees {α : Type} (r : α × Disk) (r' : α × Tree (List U8)) (next : Nat) : Prop :=
  r.1 = r'.1 ∧ ∃ loc, Layout r.2 r'.2 loc next

/-- The free entry a new name gets: its directory's LBA, the name and the slot. -/
def freshEntry (d : Disk) (comps : List (List U8)) : Option (Nat × List U8 × Nat) :=
  match resolveParent d comps with
  | none => none
  | some (parent, name) =>
    if (findEntry (d parent) name).isSome = true then none
    else (freeSlot (d parent)).map fun slot => (parent, name, slot)

theorem fsCreate_eq (d : Disk) (comps : List (List U8)) (sectorCount : Nat) (fill : Nat → Disk → Disk)
    (sizeBytes : Nat) (isDir : Bool) : fsCreate d comps sectorCount fill sizeBytes isDir =
      match freshEntry d comps with
      | none => (false, d)
      | some (parent, name, slot) =>
        let r := allocLba d sectorCount
        (true, bumpFileCount (writeSector (fill r.1 r.2) parent
          (fillEntry (d parent) slot name r.1 sizeBytes isDir)) 1) := by
  unfold fsCreate freshEntry
  cases resolveParent d comps with
  | none => rfl
  | some r =>
    dsimp only
    split
    · rfl
    · cases freeSlot (d r.1) <;> rfl

section Held

variable (h : Layout d t loc next)
include h

/-- The children of a directory are the names of its used entries. -/
theorem Layout.children_eq (hq : t.IsDir q) : t.children q =
    (fun i => (entryAt (d (loc q)) i).name) '' { i | i < 16 ∧ (entryAt (d (loc q)) i).used = true } := by
  have hs := h.dirs q hq
  ext m
  constructor
  · intro hm
    obtain ⟨i, hi, hu, hname⟩ := hs.listed m hm
    exact ⟨i, ⟨hi, hu⟩, hname⟩
  · rintro ⟨i, ⟨hi, hu⟩, rfl⟩
    obtain ⟨a, ha, -⟩ := hs.entry i hi hu
    show t _ ≠ none
    rw [ha]
    simp

/-- **A free entry is room for a child.** -/
theorem Layout.room_iff (hq : t.IsDir q) : (∃ i, freeSlot (d (loc q)) = some i) ↔ (t.children q).ncard < 16 := by
  have hs := h.dirs q hq
  have hsub : { i | i < 16 ∧ (entryAt (d (loc q)) i).used = true } ⊆ ↑(Finset.range 16) := fun i hi => by
    simpa using hi.1
  have hcard : (t.children q).ncard = { i | i < 16 ∧ (entryAt (d (loc q)) i).used = true }.ncard := by
    rw [h.children_eq hq]
    exact Set.InjOn.ncard_image fun i hi j hj => hs.distinct i j hi.1 hj.1 hi.2 hj.2
  rw [hcard]
  constructor
  · rintro ⟨i, hi⟩
    obtain ⟨hi16, hfree, -⟩ := freeSlot_eq_some.mp hi
    have hss : { i | i < 16 ∧ (entryAt (d (loc q)) i).used = true } ⊂ ↑(Finset.range 16) := by
      refine ⟨hsub, fun hsup => ?_⟩
      have hmem := (hsup (show i ∈ ↑(Finset.range 16) by simpa using hi16)).2
      rw [hfree] at hmem
      simp at hmem
    have hlt := Set.ncard_lt_ncard hss (Finset.finite_toSet _)
    rwa [Set.ncard_coe_finset, Finset.card_range] at hlt
  · intro hlt
    cases hf : freeSlot (d (loc q)) with
    | some i => exact ⟨i, rfl⟩
    | none =>
      have hall : { i | i < 16 ∧ (entryAt (d (loc q)) i).used = true } = ↑(Finset.range 16) :=
        Set.Subset.antisymm hsub fun i hi => by
          have hi16 : i < 16 := by simpa using hi
          exact ⟨hi16, freeSlot_eq_none.mp hf i hi16⟩
      rw [hall, Set.ncard_coe_finset, Finset.card_range] at hlt
      exact absurd hlt (lt_irrefl _)

/-- **A node that was just deleted leaves room for another**: its slot is free. -/
theorem Layout.room_of_delete (hp : p ≠ []) (hnode : t p ≠ none) : (t.delete p).2.Room p := by
  obtain ⟨q, n, rfl⟩ : ∃ q n, p = q ++ [n] := ⟨_, _, (dropLast_append_getLast hp).symm⟩
  obtain ⟨node, hn⟩ := ne_none_iff_exists'.mp hnode
  obtain ⟨i, -, hq, hi, hu, hname, -⟩ := h.lookup_some hn
  have hlay := @Layout.clear n node d t loc next q h i (-1) hn hi hu hname
  have hremove : (t.delete (q ++ [n])).2 = t.remove (q ++ [n]) := by
    unfold Tree.delete
    rw [hn]
  rw [← hremove] at hlay
  have hq' : (t.delete (q ++ [n])).2.IsDir q := by
    obtain ⟨owner, mode, hdir⟩ := hq
    exact ⟨owner, mode, (Tree.delete_frame fun hpre => by simpa using hpre.length_le).trans hdir⟩
  refine ⟨hp, ?_, Tree.delete_self, ?_⟩ <;> rw [dropLast_concat]
  · exact hq'
  · refine (hlay.room_iff hq').mp ?_
    rw [bumpFileCount_of_ne (h.dir_ne_superblock hq), writeSector_self (h.dir_lt hq)]
    cases hfree : freeSlot (clearUsed (d (loc q)) i) with
    | some slot => exact ⟨slot, rfl⟩
    | none =>
      have hused := freeSlot_eq_none.mp hfree i hi
      rw [entryAt_clearUsed, if_pos rfl] at hused
      simp at hused

/-- **There is a free entry exactly if the tree has room.** -/
theorem Layout.freshEntry_eq {e : Nat × List U8 × Nat} : freshEntry d (q ++ [n]) = some e ↔
      t.Room (q ++ [n]) ∧ e = (loc q, n, e.2.2) ∧ freeSlot (d (loc q)) = some e.2.2 := by
  have hroom : t.Room (q ++ [n]) ↔ t.IsDir q ∧ t (q ++ [n]) = none ∧ (t.children q).ncard < 16 := by
    unfold Tree.Room
    simp
  unfold freshEntry
  cases hr : resolveParent d (q ++ [n]) with
  | none =>
    refine iff_of_false (by simp) fun ⟨hR, _⟩ => ?_
    rw [h.resolveParent_eq.mpr ⟨(hroom.mp hR).1, rfl⟩] at hr
    simp at hr
  | some r =>
    obtain ⟨hq, rfl⟩ := h.resolveParent_eq.mp hr
    cases hn : t (q ++ [n]) with
    | some old =>
      obtain ⟨i, hf, -⟩ := h.find_some hq hn
      refine iff_of_false (by simp [hf]) fun ⟨hR, _⟩ => ?_
      rw [(hroom.mp hR).2.1] at hn
      simp at hn
    | none =>
      simp only [h.find_none hq hn, isSome_none, Bool.false_eq_true, if_false, map_eq_some_iff]
      constructor
      · rintro ⟨slot, hslot, rfl⟩
        exact ⟨hroom.mpr ⟨hq, hn, (h.room_iff hq).mp ⟨slot, hslot⟩⟩, rfl, hslot⟩
      · rintro ⟨-, he, hslot⟩
        exact ⟨e.2.2, hslot, he.symm⟩

theorem Layout.freshEntry_none (hno : ¬ t.Room (q ++ [n])) : freshEntry d (q ++ [n]) = none :=
  eq_none_iff_forall_ne_some.mpr fun _ he => hno (h.freshEntry_eq.mp he).1

theorem Layout.freshEntry_some (hR : t.Room (q ++ [n])) :
    ∃ slot, freshEntry d (q ++ [n]) = some (loc q, n, slot) ∧ t.IsDir q ∧ t (q ++ [n]) = none ∧
      freeSlot (d (loc q)) = some slot := by
  have hparts := hR
  unfold Tree.Room at hparts
  rw [dropLast_concat] at hparts
  obtain ⟨-, hq, hn, hlt⟩ := hparts
  obtain ⟨slot, hslot⟩ := (h.room_iff hq).mpr hlt
  exact ⟨slot, h.freshEntry_eq.mpr ⟨hR, rfl, hslot⟩, hq, hn, hslot⟩

/-- **Creating on the disk creates in the tree.** -/
theorem Layout.creates {node : Node} {fill : Nat → Disk → Disk}
    (hlen : n.length ≤ 19) (h0 : (0 : U8) ∉ n) (howner : node.owner = 0) (hmode : node.mode = 0)
    (hsmall : node.bytes.length < 2 ^ 31) (hle : next + t.taken (q ++ [n]) node ≤ 2 ^ 32)
    (hfill : next + node.sectors ≤ 2 ^ 32 → Fills fill next node) :
    Agrees (fsCreate d (q ++ [n]) node.sectors fill node.bytes.length node.isDir)
      (t.create (q ++ [n]) node) (next + t.taken (q ++ [n]) node) := by
  rw [fsCreate_eq]
  unfold Tree.create Tree.taken at *
  by_cases hR : t.Room (q ++ [n])
  · obtain ⟨slot, hfresh, hq, hn, hslot⟩ := h.freshEntry_some hR
    have hlba : (allocLba d node.sectors).1 = next % 2 ^ 32 := h.stored
    rw [if_pos hR] at hle
    rw [hfresh, if_pos hR, if_pos hR]
    simp only [hlba]
    have hfills := hfill hle
    exact ⟨rfl, _, h.create hq hn hlen h0 hslot hle howner hmode hsmall
      (h.created hq fun x hx => hfills.below _ x hx) (fun hd => hfills.zero hd _) (fun hd k hk => hfills.data hd _ k hk)⟩
  · rw [h.freshEntry_none hR, if_neg hR, if_neg hR]
    exact ⟨rfl, loc, h⟩

end Held

theorem writeSectors_apply {data : List U8} {start : Nat} : ∀ {count : Nat} {d : Disk} {x : Nat},
    start + count ≤ 2 ^ 32 → writeSectors data start count d x =
      if start ≤ x ∧ x < start + count then fun b => data.getD (512 * (x - start) + b) 0 else d x
  | 0, d, x, _ => by
    rw [if_neg (by omega)]
    rfl
  | count + 1, d, x, hle => by
    have ih := @writeSectors_apply data start count d
    unfold writeSectors at ih ⊢
    rw [range_succ, foldl_append]
    simp only [foldl_cons, foldl_nil]
    by_cases hx : x = start + count
    · subst hx
      rw [writeSector_self (by omega), if_pos (by omega), Nat.add_sub_cancel_left]
    · rw [writeSector_of_ne (by omega) hx, ih (by omega)]
      by_cases hin : start ≤ x ∧ x < start + count
      · rw [if_pos hin, if_pos (by omega)]
      · rw [if_neg hin, if_neg (by omega)]

theorem fills_file {bytes : List U8} (hsmall : bytes.length < 2 ^ 31) (hle : next + sectorsFor bytes.length ≤ 2 ^ 32) :
    Fills (fun lba => writeSectors bytes lba (sectorsFor bytes.length)) next (.file bytes 0 0) := by
  by_cases hnext : next < 2 ^ 32
  · rw [← Nat.mod_eq_of_lt hnext] at hle
    refine ⟨fun d x hx => ?_, fun hd => absurd hd (by simp [Node.isDir]), fun _ d k hk => ?_⟩
    · show writeSectors _ _ _ _ _ = _
      rw [writeSectors_apply hle, if_neg (by omega)]
    · have hk' : k < bytes.length := hk
      have hlt := div_lt_sectorsFor hk' hsmall
      show writeSectors _ _ _ _ _ _ = _
      rw [writeSectors_apply hle, if_pos (by omega)]
      congr 1
      omega
  · -- the disk is full, and the file is empty
    have hzero : sectorsFor bytes.length = 0 := by omega
    have hnil : bytes.length = 0 := by
      unfold sectorsFor at hzero
      omega
    refine ⟨fun d x _ => ?_, fun hd => absurd hd (by simp [Node.isDir]), fun _ d k hk => ?_⟩
    · show writeSectors _ _ _ _ _ = _
      rw [hzero]
      rfl
    · exact absurd (show k < bytes.length from hk) (by omega)

theorem fills_dir (hle : next + 1 ≤ 2 ^ 32) : Fills (fun lba d => writeSector d lba zeroSector) next (.dir 0 0) := by
  have hnext : next % 2 ^ 32 = next := Nat.mod_eq_of_lt (by omega)
  refine ⟨fun d x hx => ?_, fun _ d => ?_, fun hd => absurd hd (by simp [Node.isDir])⟩
  · rw [hnext]
    exact writeSector_of_ne (by omega) (by omega)
  · rw [hnext]
    exact writeSector_self (by omega)

/-! ## Reading -/

theorem getElem?_flatMap_sectors (f : Nat → Sector) : ∀ {count k : Nat}, k < 512 * count →
    ((List.range count).flatMap fun s => slice (f s) 0 512)[k]? = some (f (k / 512) (k % 512))
  | 0, k, hk => absurd hk (by omega)
  | count + 1, k, hk => by
    have hlen : ((List.range count).flatMap fun s => slice (f s) 0 512).length = 512 * count := by
      simp [length_flatMap, Nat.mul_comm]
    rw [range_succ, flatMap_append]
    by_cases hlt : k < 512 * count
    · rw [getElem?_append_left (by omega), getElem?_flatMap_sectors f hlt]
    · rw [getElem?_append_right (by omega), hlen, flatMap_cons, flatMap_nil,
        append_nil, getElem?_slice (by omega), Nat.zero_add]
      have hdiv : k / 512 = count := by omega
      have hmod : k - 512 * count = k % 512 := by omega
      rw [hdiv, hmod]

/-- **A file reads as it was written.** -/
theorem Layout.readSectors_eq (h : Layout d t loc next) {bytes : List U8} {owner mode : U8}
    (hp : t p = some (.file bytes owner mode)) : readSectors d (loc p % 2 ^ 32) bytes.length = bytes := by
  have hsmall : bytes.length < 2 ^ 31 := h.small p _ hp
  have hin : loc p + sectorsFor bytes.length ≤ next := (h.inside p _ hp).2
  have hle := h.next_le
  unfold readSectors
  refine ext_getElem? fun k => ?_
  by_cases hk : k < bytes.length
  · have hlt := div_lt_sectorsFor hk hsmall
    have hcount : k < 512 * sectorsFor bytes.length := by omega
    rw [getElem?_take_of_lt hk, getElem?_flatMap_sectors (fun s => d ((loc p % 2 ^ 32 + s) % 2 ^ 32)) hcount,
      Nat.mod_add_mod, Nat.mod_eq_of_lt (show loc p + k / 512 < 2 ^ 32 by omega),
      h.data p bytes owner mode hp k hk, getD_eq_getElem?_getD, getElem?_eq_getElem hk]
    rfl
  · rw [getElem?_eq_none (by rw [length_take]; omega), getElem?_eq_none (by omega)]

end Create

/-! ## The functions of MiniFS -/

section Calls

variable {d : Disk} {t : Tree (List U8)} {loc : List (List U8) → Nat} {next : Nat} {path : List U8}

theorem toInt32_ofNat {n : Nat} (h : n < 2 ^ 31) : toInt32 (BitVec.ofNat 64 n) = n := by
  have hn : ((BitVec.ofNat 64 n).setWidth 32).toNat = n := by
    rw [BitVec.toNat_setWidth, BitVec.toNat_ofNat]
    omega
  unfold toInt32
  rw [BitVec.toInt_eq_toNat_of_lt (by omega), hn]

/-- The directories and the last component of a path. -/
theorem splitPath_cases (hp : splitPath path ≠ []) (h0 : (0 : U8) ∉ path) :
    ∃ q n, splitPath path = q ++ [n] ∧ n.length ≤ 19 ∧ (0 : U8) ∉ n := by
  obtain ⟨hlen, -, hmem⟩ := mem_splitLoop (getLast_mem hp)
  exact ⟨_, _, (dropLast_append_getLast hp).symm, hlen, fun h => h0 (hmem 0 h)⟩

theorem splitPath_concat (hp : splitPath path ≠ []) : ∃ q n, splitPath path = q ++ [n] :=
  ⟨_, _, (dropLast_append_getLast hp).symm⟩

/-- `set` does to one entry of a sector, by `g`, what `f` does to a node. -/
structure Edits (set : Sector → Nat → Sector) (g : DirEntry → DirEntry) (f : Node → Node) : Prop where
  slot : ∀ s i j, entryAt (set s i) j = if j = i then g (entryAt s i) else entryAt s j
  kept : ∀ e, (g e).used = e.used ∧ (g e).name = e.name
  entry : ∀ e lba node, EntryFor e lba node → EntryFor (g e) lba (f node)
  node : ∀ node, (f node).bytes = node.bytes ∧ (f node).isDir = node.isDir

theorem edits_setOwner (uid : U8) :
    Edits (fun s slot => setOwnerUid s slot uid) (fun e => { e with ownerUid := uid }) (Node.setOwner uid) := by
  refine ⟨fun s i j => entryAt_setOwnerUid, fun _ => ⟨rfl, rfl⟩, ?_, ?_⟩
  · rintro e lba (_ | _) ⟨h1, h2, h3, -, h5⟩ <;> exact ⟨h1, h2, h3, rfl, h5⟩
  · rintro (_ | _) <;> exact ⟨rfl, rfl⟩

theorem edits_setMode (mode : U8) :
    Edits (fun s slot => setMode s slot mode) (fun e => { e with mode := mode }) (Node.setMode mode) := by
  refine ⟨fun s i j => entryAt_setMode, fun _ => ⟨rfl, rfl⟩, ?_, ?_⟩
  · rintro e lba (_ | _) ⟨h1, h2, h3, h4, -⟩ <;> exact ⟨h1, h2, h3, h4, rfl⟩
  · rintro (_ | _) <;> exact ⟨rfl, rfl⟩

section

variable (h : Layout d t loc next) (hp : splitPath path ≠ [])
include h hp

theorem Layout.read_eq (maxLen : Nat) : fsReadFile d path maxLen = t.read (splitPath path) maxLen := by
  unfold fsReadFile Tree.read
  obtain ⟨q, n, hqn⟩ := splitPath_concat hp
  rw [hqn]
  cases hn : t (q ++ [n]) with
  | none => rw [h.lookup_none hn]
  | some node =>
    obtain ⟨i, hl, -, -, -, -, he⟩ := h.lookup_some hn
    have hsize := he.size
    have hkind := he.kind
    rw [hl]
    cases node with
    | dir owner mode =>
      simp only
      rw [if_pos (show (entryAt (d (loc q)) i).isDir = true from hkind)]
    | file bytes owner mode =>
      have hlen : (entryAt (d (loc q)) i).sizeBytes = bytes.length := hsize
      have hsmall : bytes.length < 2 ^ 31 := h.small _ _ hn
      simp only
      rw [if_neg (by rw [hkind]; simp [Node.isDir]), hlen, he.start, toInt32_ofNat hsmall,
        h.readSectors_eq hn]

theorem Layout.stat_eq : fsStatFile d path = t.stat (splitPath path) := by
  unfold fsStatFile Tree.stat
  obtain ⟨q, n, hqn⟩ := splitPath_concat hp
  rw [hqn]
  cases hn : t (q ++ [n]) with
  | none => rw [h.lookup_none hn]; rfl
  | some node =>
    obtain ⟨i, hl, -, -, -, -, he⟩ := h.lookup_some hn
    rw [hl]
    simp only [map_some, he.size, he.kind, he.owner, he.mode]

theorem Layout.ownerMode_eq : fsGetOwnerMode d path = (t (splitPath path)).map fun node => (node.owner, node.mode) := by
  unfold fsGetOwnerMode
  obtain ⟨q, n, hqn⟩ := splitPath_concat hp
  rw [hqn]
  cases hn : t (q ++ [n]) with
  | none => rw [h.lookup_none hn]; rfl
  | some node =>
    obtain ⟨i, hl, -, -, -, -, he⟩ := h.lookup_some hn
    rw [hl]
    simp only [map_some, he.owner, he.mode]

theorem Layout.write_agrees {data : List U8} (h0 : (0 : U8) ∉ path) (hdata : data.length < 2 ^ 31)
    (hle : next + t.taken (splitPath path) (.file data 0 0) ≤ 2 ^ 32) :
    Agrees (fsWriteFile d path data) (t.create (splitPath path) (.file data 0 0))
      (next + t.taken (splitPath path) (.file data 0 0)) := by
  unfold fsWriteFile
  obtain ⟨q, n, hqn, hlen, hn0⟩ := splitPath_cases hp h0
  rw [hqn] at hle ⊢
  exact @Layout.creates d t loc next q n h (.file data 0 0)
    (fun lba => writeSectors data lba (sectorsFor data.length)) hlen hn0 rfl rfl hdata hle
    (fills_file hdata)

theorem Layout.mkdir_agrees (h0 : (0 : U8) ∉ path) (hle : next + t.taken (splitPath path) (.dir 0 0) ≤ 2 ^ 32) :
    Agrees (fsCreateDir d path) (t.create (splitPath path) (.dir 0 0)) (next + t.taken (splitPath path) (.dir 0 0)) := by
  unfold fsCreateDir
  obtain ⟨q, n, hqn, hlen, hn0⟩ := splitPath_cases hp h0
  rw [hqn] at hle ⊢
  exact @Layout.creates d t loc next q n h (.dir 0 0) (fun lba d => writeSector d lba zeroSector)
    hlen hn0 rfl rfl (by simp [Node.bytes]) hle fills_dir

theorem Layout.delete_agrees : Agrees (fsDeleteFile d path) (t.delete (splitPath path)) next := by
  unfold fsDeleteFile Tree.delete
  obtain ⟨q, n, hqn⟩ := splitPath_concat hp
  rw [hqn]
  cases hn : t (q ++ [n]) with
  | none =>
    rw [h.lookup_none hn]
    exact ⟨rfl, loc, h⟩
  | some node =>
    obtain ⟨i, hl, -, hi, hu, hname, -⟩ := h.lookup_some hn
    rw [hl]
    exact ⟨rfl, loc, h.clear hn hi hu hname⟩

theorem Layout.update_agrees {caller : U8}
    {set : Sector → Nat → Sector} {f : Node → Node} {g : DirEntry → DirEntry} (he : Edits set g f) :
    Agrees (fsUpdate d path caller set) (t.change (splitPath path) caller f) next := by
  unfold fsUpdate Tree.change
  obtain ⟨q, n, hqn⟩ := splitPath_concat hp
  rw [hqn]
  cases hn : t (q ++ [n]) with
  | none =>
    rw [h.lookup_none hn]
    exact ⟨rfl, loc, h⟩
  | some node =>
    obtain ⟨i, hl, -, hi, hu, hname, hentry⟩ := h.lookup_some hn
    rw [hl]
    simp only
    rw [hentry.owner]
    split
    · exact ⟨rfl, loc, h⟩
    · exact ⟨rfl, loc, h.change hn hi hu hname (he.slot _ i) ((he.kept _).1.trans hu) ((he.kept _).2.trans hname)
        (he.entry _ _ _ hentry) (he.node _).1 (he.node _).2⟩

theorem Layout.setOwner_agrees (uid caller : U8) :
    Agrees (fsSetOwner d path uid caller) (t.change (splitPath path) caller (Node.setOwner uid)) next :=
  h.update_agrees hp (edits_setOwner uid)

end

theorem lookupEntry_nil (d : Disk) : lookupEntry d [] = none := rfl

end Calls

/-! ## Operations and runs -/

/-- An operation of MiniFS on a path, a C string. -/
inductive FsOp
  | write (path data : List U8)
  | mkdir (path : List U8)
  | delete (path : List U8)
  | setOwner (path : List U8) (uid caller : U8)
  | setMode (path : List U8) (mode caller : U8)
  | read (path : List U8) (maxLen : Nat)
  | stat (path : List U8)
  | getOwnerMode (path : List U8)

inductive FsResult
  | done (ok : Bool)
  | bytes (n : Int) (out : List U8)
  | info (stat : Option (Nat × Bool × U8 × U8))
  | owned (ownerMode : Option (U8 × U8))

/-- The result says that the operation succeeded. -/
def FsResult.Ok : FsResult → Prop
  | done ok => ok = true
  | bytes n _ => 0 ≤ n
  | info stat => stat ≠ none
  | owned ownerMode => ownerMode ≠ none

namespace FsOp

def path : FsOp → List U8
  | write p _ | mkdir p | delete p | setOwner p _ _ | setMode p _ _ | read p _ | stat p | getOwnerMode p => p

/-- The operation by the functions of MiniFS. -/
def onDisk : FsOp → Disk → FsResult × Disk
  | write p data, d => (fsWriteFile d p data).map .done id
  | mkdir p, d => (fsCreateDir d p).map .done id
  | delete p, d => (fsDeleteFile d p).map .done id
  | setOwner p uid caller, d => (fsSetOwner d p uid caller).map .done id
  | setMode p mode caller, d => (fsSetMode d p mode caller).map .done id
  | read p maxLen, d => (.bytes (fsReadFile d p maxLen).1 (fsReadFile d p maxLen).2, d)
  | stat p, d => (.info (fsStatFile d p), d)
  | getOwnerMode p, d => (.owned (fsGetOwnerMode d p), d)

/-- The operation on a tree, at the node named by a list of names. -/
noncomputable def onNode : FsOp → List (List U8) → Tree (List U8) → FsResult × Tree (List U8)
  | write _ data, p, t => (t.create p (.file data 0 0)).map .done id
  | mkdir _, p, t => (t.create p (.dir 0 0)).map .done id
  | delete _, p, t => (t.delete p).map .done id
  | setOwner _ uid caller, p, t => (t.change p caller (Node.setOwner uid)).map .done id
  | setMode _ mode caller, p, t => (t.change p caller (Node.setMode mode)).map .done id
  | read _ maxLen, p, t => (.bytes (t.read p maxLen).1 (t.read p maxLen).2, t)
  | stat _, p, t => (.info (t.stat p), t)
  | getOwnerMode _, p, t => (.owned ((t p).map fun node => (node.owner, node.mode)), t)

/-- The operation on a tree, at the components of its path. -/
noncomputable def onTree (op : FsOp) (t : Tree (List U8)) : FsResult × Tree (List U8) :=
  op.onNode (components op.path) t

/-- The sectors an operation takes from `next_free_lba` on. -/
noncomputable def taken : FsOp → List (List U8) → Tree (List U8) → Nat
  | write _ data, p, t => t.taken p (.file data 0 0)
  | mkdir _, p, t => t.taken p (.dir 0 0)
  | _, _, _ => 0

/-- Less than 2 GB of data. -/
def Small : FsOp → Prop
  | write _ data => data.length < 2 ^ 31
  | _ => True

/-- A path of one to eight components of 1 to 19 characters, and less than 2 GB of data. -/
def Valid (op : FsOp) : Prop := (∃ p, PathOf p ∧ op.path = joinPath p) ∧ op.Small

end FsOp

section Step

variable {d : Disk} {t : Tree (List U8)} {loc : List (List U8) → Nat} {next : Nat}

theorem Agrees.map {α β : Type} {r : α × Disk} {r' : α × Tree (List U8)} (h : Agrees r r' next)
    (f : α → β) : Agrees (r.map f id) (r'.map f id) next :=
  ⟨congrArg f h.1, h.2⟩

/-- **One operation** does on the disk what it does on the tree, at the node `split_path` names. -/
theorem Layout.step (h : Layout d t loc next) {op : FsOp} (hp : splitPath op.path ≠ [])
    (h0 : (0 : U8) ∉ op.path) (hop : op.Small) (hle : next + op.taken (splitPath op.path) t ≤ 2 ^ 32) :
    Agrees (op.onDisk d) (op.onNode (splitPath op.path) t) (next + op.taken (splitPath op.path) t) := by
  cases op with
  | write p data => exact (h.write_agrees hp h0 hop hle).map _
  | mkdir p => exact (h.mkdir_agrees hp h0 hle).map _
  | delete p => exact (h.delete_agrees hp).map _
  | setOwner p uid caller => exact (h.setOwner_agrees hp uid caller).map _
  | setMode p mode caller => exact (h.update_agrees hp (edits_setMode mode)).map _
  | read p maxLen => exact ⟨congrArg (fun r : Int × List U8 => FsResult.bytes r.1 r.2) (h.read_eq hp maxLen), loc, h⟩
  | stat p => exact ⟨congrArg FsResult.info (h.stat_eq hp), loc, h⟩
  | getOwnerMode p => exact ⟨congrArg FsResult.owned (h.ownerMode_eq hp), loc, h⟩

theorem components_of_pathOf (hp : PathOf p) : components (joinPath p) = p :=
  components_joinPath hp.ne_nil fun w hw => ⟨(hp.names w hw).ne_nil, (hp.names w hw).noSlash⟩

theorem Layout.step_valid (h : Layout d t loc next) {op : FsOp} (hop : op.Valid)
    (hle : next + op.taken (components op.path) t ≤ 2 ^ 32) :
    Agrees (op.onDisk d) (op.onTree t) (next + op.taken (components op.path) t) := by
  obtain ⟨⟨p, hp, hpath⟩, hsmall⟩ := hop
  have hsplit : splitPath op.path = components op.path := by
    rw [hpath, splitPath_joinPath hp, components_of_pathOf hp]
  rw [← hsplit] at hle
  unfold FsOp.onTree
  rw [← hsplit]
  refine h.step ?_ ?_ hsmall hle
  · rw [hpath, splitPath_joinPath hp]
    exact hp.ne_nil
  · rw [hpath]
    exact notMem_joinPath (by decide) fun w hw => (hp.names w hw).noNul

/-- An operation leaves alone what is not at its node or below it. -/
theorem FsOp.onNode_frame {op : FsOp} {q : List (List U8)} (hp : ¬ q <+: p) : (op.onNode q t).2 p = t p := by
  have hne : p ≠ q := fun heq => hp (heq ▸ prefix_refl _)
  cases op with
  | write _ data => exact Tree.create_frame hne
  | mkdir _ => exact Tree.create_frame hne
  | delete _ => exact Tree.delete_frame hp
  | setOwner _ uid caller => exact Tree.change_frame hne
  | setMode _ mode caller => exact Tree.change_frame hne
  | read _ maxLen => rfl
  | stat _ => rfl
  | getOwnerMode _ => rfl

end Step

/-- The results of a sequence of operations, and the disk they leave. -/
def runDisk : List FsOp → Disk → List FsResult × Disk
  | [], d => ([], d)
  | op :: ops, d =>
    let r := runDisk ops (op.onDisk d).2
    ((op.onDisk d).1 :: r.1, r.2)

/-- The results of a sequence of operations, the tree they leave, and how far the sectors go that
they have taken. -/
noncomputable def runTree : List FsOp → Tree (List U8) → Nat → List FsResult × Tree (List U8) × Nat
  | [], t, next => ([], t, next)
  | op :: ops, t, next =>
    let r := runTree ops (op.onTree t).2 (next + op.taken (components op.path) t)
    ((op.onTree t).1 :: r.1, r.2)

theorem runTree_next_ge : ∀ (ops : List FsOp) (t : Tree (List U8)) (next : Nat),
    next ≤ (runTree ops t next).2.2
  | [], _, _ => le_rfl
  | _ :: ops, _, _ => (Nat.le_add_right _ _).trans (runTree_next_ge ops _ _)

theorem Layout.run : ∀ {ops : List FsOp} {d : Disk} {t : Tree (List U8)} {loc : List (List U8) → Nat}
    {next : Nat}, Layout d t loc next → (∀ op ∈ ops, op.Valid) → (runTree ops t next).2.2 ≤ 2 ^ 32 →
    (runDisk ops d).1 = (runTree ops t next).1 ∧
      ∃ loc', Layout (runDisk ops d).2 (runTree ops t next).2.1 loc' (runTree ops t next).2.2
  | [], _, _, loc, _, h, _, _ => ⟨rfl, loc, h⟩
  | op :: ops, d, t, loc, next, h, hv, hle => by
    obtain ⟨hres, loc1, h1⟩ := h.step_valid (hv op (mem_cons_self ..))
      ((runTree_next_ge ops _ _).trans hle)
    obtain ⟨hres', loc', h'⟩ := h1.run (fun o ho => hv o (mem_cons_of_mem _ ho)) hle
    refine ⟨?_, loc', h'⟩
    simp only [runDisk, runTree]
    rw [hres, hres']

theorem mkfs_layout (d : Disk) : Layout (mkfs d) Tree.empty (fun _ => rootLba) dataStartLba := by
  have hroot : mkfs d rootLba = zeroSector := by
    exact writeSector_self (by decide)
  have hsuper : mkfs d superblockLba =
      setU32 (setU32 (setU32 zeroSector 0 minifsMagic) 4 0) 8 dataStartLba := by
    unfold mkfs
    rw [writeSector_of_ne (by decide) (by decide), writeSector_self (by decide)]
  have hnode : ∀ p node, (Tree.empty : Tree (List U8)) p = some node → p = [] ∧ node = .dir 0 0 := by
    intro p node hp
    cases p with
    | nil => exact ⟨rfl, (Option.some.inj hp).symm⟩
    | cons c cs => simp [Tree.empty] at hp
  refine ⟨le_rfl, by decide, ?_, rfl, rfl, ?_, ?_, ?_, ?_, ?_, ?_⟩
  · rw [hsuper, getU32_setU32]
  · intro p n hne
    cases p <;> exact absurd rfl hne
  · intro p node hp
    rw [(hnode p node hp).2]
    simp [Node.bytes]
  · intro p node hp
    rw [(hnode p node hp).2]
    exact ⟨le_rfl, le_rfl⟩
  · intro p q a b hne hp hq
    exact absurd ((hnode p a hp).1.trans (hnode q b hq).1.symm) hne
  · intro p hp
    exact dirSector_zero _ fun m => by cases p <;> rfl
  · intro p bytes owner mode hp
    exact absurd (hnode p _ hp).2 (by simp)

/-- **MiniFS is a tree of files**: from `mkfs` on, every sequence of operations gives on the disk the
results it gives on the tree; afterwards every path reads as the node the tree has there, and one
more operation leaves alone every path that is not at or below its own. -/
theorem minifs_refines (d : Disk) (ops : List FsOp) (hvalid : ∀ op ∈ ops, op.Valid)
    (hroom : (runTree ops Tree.empty dataStartLba).2.2 ≤ 2 ^ 32) :
    (runDisk ops (mkfs d)).1 = (runTree ops Tree.empty dataStartLba).1 ∧ (∀ p, PathOf p →
      fsStatFile (runDisk ops (mkfs d)).2 (joinPath p) = (runTree ops Tree.empty dataStartLba).2.1.stat p ∧
      fsGetOwnerMode (runDisk ops (mkfs d)).2 (joinPath p) =
        ((runTree ops Tree.empty dataStartLba).2.1 p).map (fun node => (node.owner, node.mode)) ∧
      ∀ maxLen, fsReadFile (runDisk ops (mkfs d)).2 (joinPath p) maxLen =
        (runTree ops Tree.empty dataStartLba).2.1.read p maxLen) ∧ ∀ (op : FsOp) p, ¬ components op.path <+: p →
      (op.onTree (runTree ops Tree.empty dataStartLba).2.1).2 p = (runTree ops Tree.empty dataStartLba).2.1 p := by
  obtain ⟨hres, loc, h⟩ := (mkfs_layout d).run hvalid hroom
  refine ⟨hres, fun p hp => ?_, fun op p hp => FsOp.onNode_frame hp⟩
  have hsplit := splitPath_joinPath hp
  have hne : splitPath (joinPath p) ≠ [] := by
    rw [hsplit]
    exact hp.ne_nil
  refine ⟨(h.stat_eq hne).trans (by rw [hsplit]), (h.ownerMode_eq hne).trans (by rw [hsplit]),
    fun maxLen => (h.read_eq hne maxLen).trans (by rw [hsplit])⟩

/-- A directory, a file in it, and a look at the file. -/
def homeOps : List FsOp :=
  [.mkdir (joinPath [[0x61]]), .write (joinPath [[0x61], [0x62]]) [1, 2, 3], .read (joinPath [[0x61], [0x62]]) 100]

theorem homeOps_valid : ∀ op ∈ homeOps, op.Valid := by
  have ha : NameOk [0x61] := ⟨by decide, by decide, by decide, by decide⟩
  have hb : NameOk [0x62] := ⟨by decide, by decide, by decide, by decide⟩
  have h1 : PathOf [[0x61]] := ⟨by decide, by decide, by simpa using ha⟩
  have h2 : PathOf [[0x61], [0x62]] := ⟨by decide, by decide, by simpa using ⟨ha, hb⟩⟩
  intro op hop
  simp only [homeOps, mem_cons, not_mem_nil, or_false] at hop
  rcases hop with rfl | rfl | rfl
  · exact ⟨⟨_, h1, rfl⟩, trivial⟩
  · exact ⟨⟨_, h2, rfl⟩, by unfold FsOp.Small; decide⟩
  · exact ⟨⟨_, h2, rfl⟩, trivial⟩

theorem Tree.taken_le (t : Tree (List U8)) (p : List (List U8)) (node : Node) : t.taken p node ≤ node.sectors := by
  unfold Tree.taken
  split
  · exact le_rfl
  · exact Nat.zero_le _

theorem homeOps_room : (runTree homeOps Tree.empty dataStartLba).2.2 ≤ 2 ^ 32 := by
  have h1 := fun t p => Tree.taken_le t p (.dir 0 0)
  have h2 := fun t p => Tree.taken_le t p (.file [1, 2, 3] 0 0)
  have h5 : dataStartLba = 502 := rfl
  refine (Nat.add_le_add_right (Nat.add_le_add (Nat.add_le_add h5.le (h1 _ _)) (h2 _ _)) 0).trans ?_
  decide

theorem minifs_refines_homeOps : (runDisk homeOps (mkfs fun _ => zeroSector)).1 =
    (runTree homeOps Tree.empty dataStartLba).1 :=
  (minifs_refines (fun _ => zeroSector) homeOps homeOps_valid homeOps_room).1

end MinicOs
