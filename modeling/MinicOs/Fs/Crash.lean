import MinicOs.Fs.Faithful
import MinicOs.Fs.Listing

/-!
# MiniFS when the power goes

`FsOp.steps` are the sector writes of an operation in order: for a new entry the counter of the
superblock, the new sectors, the directory's sector and the file count; for a deletion the directory's
sector and the file count; for owner and mode the directory's sector. `FsOp.cut op k` is the disk after
the first `k` of them, and nothing of MiniFS is kept elsewhere. `Reached` disks are those of runs from
`mkfs` in which any operation may be cut.
-/

namespace MinicOs

open List Option Nat

/-- Sector writes one after the other, each on the disk as the last one left it. -/
def runSteps (steps : List (Disk → Disk)) (d : Disk) : Disk := steps.foldl (fun d step => step d) d

/-- The writes of the loop of `fs_write_file`. -/
def dataSteps (data : List U8) (lba : Nat) : List (Disk → Disk) :=
  (List.range (sectorsFor data.length)).map fun s d =>
    writeSector d (lba + s) fun b => data.getD (512 * s + b) 0

def createSteps (d : Disk) (comps : List (List U8)) (sectorCount : Nat) (fill : Nat → List (Disk → Disk))
    (sizeBytes : Nat) (isDir : Bool) : List (Disk → Disk) :=
  match freshEntry d comps with
  | none => []
  | some (parent, name, slot) =>
    let lba := (allocLba d sectorCount).1
    (fun d' => (allocLba d' sectorCount).2) :: (fill lba ++
      [fun d' => writeSector d' parent (fillEntry (d parent) slot name lba sizeBytes isDir), fun d' => bumpFileCount d' 1])

def deleteSteps (d : Disk) (path : List U8) : List (Disk → Disk) :=
  match lookupEntry d (splitPath path) with
  | none => []
  | some (parent, slot) =>
    [fun d' => writeSector d' parent (clearUsed (d parent) slot), fun d' => bumpFileCount d' (-1)]

/-- The write of `fs_set_owner` and `fs_set_mode`. -/
def updateSteps (d : Disk) (path : List U8) (callerUid : U8) (set : Sector → Nat → Sector) : List (Disk → Disk) :=
  match lookupEntry d (splitPath path) with
  | none => []
  | some (parent, slot) =>
    if callerUid ≠ (entryAt (d parent) slot).ownerUid ∧ callerUid ≠ 0 then []
    else [fun d' => writeSector d' parent (set (d parent) slot)]

def FsOp.steps : FsOp → Disk → List (Disk → Disk)
  | write p data, d => createSteps d (splitPath p) (sectorsFor data.length) (dataSteps data) data.length false
  | mkdir p, d => createSteps d (splitPath p) 1 (fun lba => [fun d' => writeSector d' lba zeroSector]) 0 true
  | delete p, d => deleteSteps d p
  | setOwner p uid caller, d => updateSteps d p caller fun s slot => setOwnerUid s slot uid
  | setMode p mode caller, d => updateSteps d p caller fun s slot => MinicOs.setMode s slot mode
  | read _ _, _ | stat _, _ | getOwnerMode _, _ => []

/-- The disk when the power goes after `k` sector writes. -/
def FsOp.cut (op : FsOp) (k : Nat) (d : Disk) : Disk := runSteps ((op.steps d).take k) d

theorem runSteps_append (l l' : List (Disk → Disk)) (d : Disk) :
    runSteps (l ++ l') d = runSteps l' (runSteps l d) := foldl_append ..

theorem runSteps_dataSteps (data : List U8) (lba : Nat) (d : Disk) :
    runSteps (dataSteps data lba) d = writeSectors data lba (sectorsFor data.length) d := foldl_map ..

theorem runSteps_createSteps (d : Disk) (comps : List (List U8)) (sectorCount sizeBytes : Nat) (isDir : Bool)
    {fill : Nat → List (Disk → Disk)} {whole : Nat → Disk → Disk} (hfill : ∀ lba d, runSteps (fill lba) d = whole lba d) :
    runSteps (createSteps d comps sectorCount fill sizeBytes isDir) d =
      (fsCreate d comps sectorCount whole sizeBytes isDir).2 := by
  rw [fsCreate_eq]
  unfold createSteps
  cases freshEntry d comps with
  | none => rfl
  | some e =>
    dsimp only
    rw [← singleton_append, runSteps_append, runSteps_append, hfill]
    rfl

theorem runSteps_updateSteps (d : Disk) (path : List U8) (callerUid : U8) (set : Sector → Nat → Sector) :
    runSteps (updateSteps d path callerUid set) d = (fsUpdate d path callerUid set).2 := by
  unfold updateSteps fsUpdate
  cases lookupEntry d (splitPath path) with
  | none => rfl
  | some e =>
    dsimp only
    split <;> rfl

/-- **All the writes are the operation.** -/
theorem FsOp.onDisk_eq_steps (op : FsOp) (d : Disk) : (op.onDisk d).2 = runSteps (op.steps d) d := by
  cases op with
  | write p data => exact (runSteps_createSteps d _ _ _ _ (runSteps_dataSteps data)).symm
  | mkdir p =>
    exact (@runSteps_createSteps d (splitPath p) 1 0 true (fun lba => [fun d' => writeSector d' lba zeroSector])
      (fun lba d' => writeSector d' lba zeroSector) fun _ _ => rfl).symm
  | delete p =>
    show (fsDeleteFile d p).2 = runSteps (deleteSteps d p) d
    unfold fsDeleteFile deleteSteps
    cases lookupEntry d (splitPath p) <;> rfl
  | setOwner p uid caller => exact (runSteps_updateSteps d p caller fun s slot => setOwnerUid s slot uid).symm
  | setMode p mode caller => exact (runSteps_updateSteps d p caller fun s slot => MinicOs.setMode s slot mode).symm
  | read | stat | getOwnerMode => rfl

theorem FsOp.steps_of_nil {op : FsOp} (hp : splitPath op.path = []) (d : Disk) : op.steps d = [] := by
  cases op with
  | write p data => simp only [FsOp.steps, createSteps, show splitPath p = [] from hp]; rfl
  | mkdir p => simp only [FsOp.steps, createSteps, show splitPath p = [] from hp]; rfl
  | delete p => simp only [FsOp.steps, deleteSteps, show splitPath p = [] from hp]; rfl
  | setOwner p => simp only [FsOp.steps, updateSteps, show splitPath p = [] from hp]; rfl
  | setMode p => simp only [FsOp.steps, updateSteps, show splitPath p = [] from hp]; rfl
  | read | stat | getOwnerMode => rfl

/-! ## What a directory's sector lists -/

/-- The entry of a sector that `fs_list_entry` gives out. -/
def listedAt (s : Sector) (index : Int) : Option Listed :=
  let e := entryAt s index.toNat
  if index < 0 ∨ 16 ≤ index ∨ e.used = false then none else some (paddedName e.name, e.sizeBytes, e.isDir)

theorem fsListEntry_eq (d : Disk) (path : List U8) (index : Int) : fsListEntry d path index =
    (walkDirs d rootLba (splitPath path)).bind fun lba => listedAt (d lba) index := by
  unfold fsListEntry listedAt
  cases walkDirs d rootLba (splitPath path) <;> rfl

theorem listedAt_eq_some {s : Sector} {index : Int} {e : Listed} : listedAt s index = some e ↔
    ∃ i : Nat, i < 16 ∧ index = i ∧ (entryAt s i).used = true ∧
      e = (paddedName (entryAt s i).name, (entryAt s i).sizeBytes, (entryAt s i).isDir) := by
  unfold listedAt
  constructor
  · intro h
    dsimp only at h
    split at h
    · cases h
    · rename_i hlive
      push Not at hlive
      exact ⟨index.toNat, by omega, by omega, by simpa using hlive.2.2, (Option.some.inj h).symm⟩
  · rintro ⟨i, hi, rfl, hu, rfl⟩
    simp [hu, hi]

/-- The sectors list the same entries at the same places, but for those under one name. -/
def OnlyAt (n : List U8) (s s' : Sector) : Prop :=
  ∀ index (e : Listed), e.1 ≠ paddedName n → (listedAt s' index = some e ↔ listedAt s index = some e)

/-- An edit of one slot that holds the name, if anything, before and after. -/
theorem onlyAt_of_slot {n : List U8} {s s' : Sector} {i : Nat} (hrest : ∀ j, j ≠ i → entryAt s' j = entryAt s j)
    (hold : (entryAt s i).used = true → (entryAt s i).name = n)
    (hnew : (entryAt s' i).used = true → (entryAt s' i).name = n) : OnlyAt n s s' := by
  intro index e hne
  by_cases hi : index.toNat = i
  · -- what is listed there has the name
    have hnone : ∀ s, ((entryAt s i).used = true → (entryAt s i).name = n) → listedAt s index ≠ some e := by
      intro s hs h
      obtain ⟨j, -, rfl, hu, rfl⟩ := listedAt_eq_some.mp h
      subst hi
      exact hne (congrArg paddedName (hs hu))
    exact iff_of_false (hnone s' hnew) (hnone s hold)
  · unfold listedAt
    rw [hrest _ hi]

/-! ## The tree on a cut disk -/

section Cut

variable {d d' : Disk} {t t' : Tree (List U8)} {loc loc' : List (List U8) → Nat} {next next' k : Nat}
  {q : List (List U8)} {n path : List U8} {op : FsOp}

/-- **Sectors that nothing names** can be taken and written. -/
theorem Layout.reserve (h : Layout d t loc next) (hge : next ≤ next') (hle : next' ≤ 2 ^ 32)
    (hstored : getU32 (d' superblockLba) 8 = next' % 2 ^ 32)
    (hrest : ∀ x, x ≠ superblockLba → x < next → d' x = d x) : Layout d' t loc next' where
  next_ge := h.next_ge.trans hge
  next_le := hle
  stored := hstored
  root := h.root
  root_loc := h.root_loc
  closed := h.closed
  small := h.small
  inside := fun p node hp => ⟨(h.inside p node hp).1, (h.inside p node hp).2.trans hge⟩
  apart := h.apart
  dirs := fun p hp => by
    rw [hrest _ (h.dir_ne_superblock hp) (h.dir_inside hp).2]
    exact h.dirs p hp
  data := fun p bytes owner mode hp j hj => by
    obtain ⟨hsb, hlt, -⟩ := h.byte_inside hp hj
    rw [hrest _ hsb hlt]
    exact h.data p bytes owner mode hp j hj

/-- The disk holds the tree still, in the same directory sectors. -/
structure StillHolds (d d' : Disk) (t : Tree (List U8)) (loc : List (List U8) → Nat) (next : Nat) : Prop where
  layout : Layout d' t loc next
  dirs : ∀ r, t.IsDir r → d' (loc r) = d (loc r)

/-- The disk holds a new tree, and the entries of the directories are the same but for one name in
one of them. -/
structure NowHolds (d d' : Disk) (t t' : Tree (List U8)) (loc loc' : List (List U8) → Nat)
    (q : List (List U8)) (n : List U8) (next : Nat) : Prop where
  layout : Layout d' t' loc' next
  kept : ∀ r, t.IsDir r → loc' r = loc r
  others : ∀ r, t.IsDir r → r ≠ q → d' (loc r) = d (loc r)
  parent : OnlyAt n (d (loc q)) (d' (loc q))

theorem Layout.stillHolds (h : Layout d t loc next) : StillHolds d d t loc next := ⟨h, fun _ _ => rfl⟩

theorem NowHolds.count (h : NowHolds d d' t t' loc loc' q n next) {c : Disk} (hq : t.IsDir q)
    (hd : Layout d t loc next') (hstored : getU32 (c superblockLba) 8 = getU32 (d' superblockLba) 8)
    (hrest : ∀ x, x ≠ superblockLba → c x = d' x) : NowHolds d c t t' loc loc' q n next where
  layout := h.layout.reserve le_rfl h.layout.next_le (hstored.trans h.layout.stored) fun x hx _ => hrest x hx
  kept := h.kept
  others := fun r hr hne => (hrest _ (hd.dir_ne_superblock hr)).trans (h.others r hr hne)
  parent := by
    rw [hrest _ (hd.dir_ne_superblock hq)]
    exact h.parent

/-- Sector writes from `next` on leave what is below alone. -/
theorem runSteps_below {l : List (Disk → Disk)} (hl : ∀ f ∈ l, ∀ d x, x < next → f d x = d x) (j : Nat)
    (d : Disk) {x : Nat} (hx : x < next) : runSteps (l.take j) d x = d x := by
  induction l generalizing d j with
  | nil => simp [runSteps]
  | cons f l ih =>
    cases j with
    | zero => rfl
    | succ j =>
      rw [take_succ_cons, ← singleton_append, runSteps_append, ih (fun g hg => hl g (mem_cons_of_mem _ hg))]
      exact hl f (mem_cons_self ..) d x hx

section Held

variable (h : Layout d t loc next)
include h

/-- A sector written in the directory `q`, and the file count. -/
theorem Layout.nowHolds_edit (hq : t.IsDir q) {s' : Sector}
    (hrest : ∀ x, x ≠ superblockLba → d' x = writeSector d (loc q) s' x) (hnew : Layout d' t' loc next)
    (hslot : OnlyAt n (d (loc q)) s') : NowHolds d d' t t' loc loc q n next where
  layout := hnew
  kept := fun _ _ => rfl
  others := fun r hr hne => by
    rw [hrest _ (h.dir_ne_superblock hr), writeSector_of_ne (h.dir_lt hq) (h.dir_ne hq hr hne)]
  parent := by
    rw [hrest _ (h.dir_ne_superblock hq), writeSector_self (h.dir_lt hq)]
    exact hslot

/-- The sectors of a new node are taken, and some of them written. -/
theorem Layout.stillHolds_reserve {c : Disk} {s : Nat} (hle : next + s ≤ 2 ^ 32)
    (hc : ∀ x, x < next → c x = (allocLba d s).2 x) : StillHolds d c t loc (next + s) := by
  have hsb : superblockLba < next := by have := h.next_ge; unfold superblockLba; omega
  have hrest : ∀ x, x ≠ superblockLba → x < next → c x = d x := fun x hx hlt =>
    (hc x hlt).trans (writeSector_of_ne (by decide) hx)
  refine ⟨h.reserve (le_add_right _ _) hle ?_ hrest, fun r hr => ?_⟩
  · rw [hc _ hsb]
    unfold allocLba
    dsimp only
    rw [writeSector_self (show superblockLba < 2 ^ 32 by decide), getU32_setU32, h.stored]
    exact mod_add_mod _ _ _
  · exact hrest _ (h.dir_ne_superblock hr) (h.dir_inside hr).2

/-- What a cut is to leave behind: the old tree, with or without the new sectors, or the new tree as
after all the writes. -/
def CutOk (d c after : Disk) (t t' : Tree (List U8)) (loc : List (List U8) → Nat) (q : List (List U8))
    (n : List U8) (next : Nat) : Prop :=
  (∃ next' ≤ next, StillHolds d c t loc next') ∨
    ∃ loc', NowHolds d c t t' loc loc' q n next ∧ NowHolds d after t t' loc loc' q n next ∧
      ∀ x, x ≠ superblockLba → c x = after x

/-- The writes of a creation cut anywhere: before the directory is written the tree is the old one,
from there on it is the new one. -/
theorem Layout.cutOk_steps (hq : t.IsDir q) {s : Nat} {l : List (Disk → Disk)}
    {dir : Sector} (hle : next + s ≤ 2 ^ 32) (hl : ∀ f ∈ l, ∀ d x, x < next → f d x = d x)
    (hnew : NowHolds d (bumpFileCount (writeSector (runSteps l (allocLba d s).2) (loc q) dir) 1) t t' loc loc' q n
      (next + s)) : CutOk d (runSteps (((fun d' => (allocLba d' s).2) :: (l ++ [fun d' => writeSector d' (loc q) dir,
        fun d' => bumpFileCount d' 1])).take k) d)
      (bumpFileCount (writeSector (runSteps l (allocLba d s).2) (loc q) dir) 1) t t' loc q n (next + s) := by
  cases k with
  | zero => exact .inl ⟨next, le_add_right _ _, h.stillHolds⟩
  | succ k =>
    rw [take_succ_cons, ← singleton_append, runSteps_append, take_append, runSteps_append]
    rcases hj : k - l.length with _ | _ | j
    · exact .inl ⟨next + s, le_rfl, h.stillHolds_reserve hle fun x hx => runSteps_below hl k _ hx⟩
    · rw [take_of_length_le (show l.length ≤ k by omega)]
      have hrest : ∀ x, x ≠ superblockLba → writeSector (runSteps l (allocLba d s).2) (loc q) dir x =
          bumpFileCount (writeSector (runSteps l (allocLba d s).2) (loc q) dir) 1 x :=
        fun x hx => (bumpFileCount_of_ne hx).symm
      exact .inr ⟨loc', hnew.count hq h getU32_bumpFileCount.symm hrest, hnew, hrest⟩
    · rw [take_of_length_le (show l.length ≤ k by omega), take_of_length_le (by simp)]
      exact .inr ⟨loc', hnew, hnew, fun _ _ => rfl⟩

theorem Layout.create_cut {node : Node} {fill : Nat → List (Disk → Disk)}
    {whole : Nat → Disk → Disk} (hwhole : ∀ lba d, runSteps (fill lba) d = whole lba d)
    (hlen : n.length ≤ 19) (h0 : (0 : U8) ∉ n) (howner : node.owner = 0) (hmode : node.mode = 0)
    (hsmall : node.bytes.length < 2 ^ 31) (hle : next + t.taken (q ++ [n]) node ≤ 2 ^ 32)
    (hfill : next + node.sectors ≤ 2 ^ 32 → Fills whole next node ∧
      ∀ f ∈ fill (next % 2 ^ 32), ∀ d x, x < next → f d x = d x) :
    CutOk d (runSteps ((createSteps d (q ++ [n]) node.sectors fill node.bytes.length node.isDir).take k) d)
      (runSteps (createSteps d (q ++ [n]) node.sectors fill node.bytes.length node.isDir) d) t
      (t.create (q ++ [n]) node).2 loc q n (next + t.taken (q ++ [n]) node) := by
  unfold Tree.create Tree.taken at *
  by_cases hR : t.Room (q ++ [n])
  · obtain ⟨slot, hfresh, hq, hn, hslot⟩ := h.freshEntry_some hR
    have hlba : (allocLba d node.sectors).1 = next % 2 ^ 32 := h.stored
    rw [if_pos hR] at hle
    rw [if_pos hR, if_pos hR]
    obtain ⟨hfills, hbelow⟩ := hfill hle
    have hout := fun x hx => hfills.below (allocLba d node.sectors).2 x hx
    have hcreated := @Layout.created d t loc next q h node _
      (fillEntry (d (loc q)) slot n (next % 2 ^ 32) node.bytes.length node.isDir) 1 hq hout
    -- the entry of the new node is written, and the file count
    have hnew : NowHolds d _ t _ loc (Function.update loc (q ++ [n]) next) q n (next + node.sectors) :=
      { layout := h.create hq hn hlen h0 hslot hle howner hmode hsmall hcreated (fun hd => hfills.zero hd _)
          fun hd k hk => hfills.data hd _ k hk
        kept := fun r hr => Function.update_of_ne (fun heq : r = q ++ [n] => hr.ne_none (heq ▸ hn)) _ _
        others := fun r hr hne => hcreated.rest _ (h.dir_ne_superblock hr) (h.dir_ne hq hr hne) (h.dir_inside hr).2
        parent := by
          rw [hcreated.parent]
          refine @onlyAt_of_slot n _ _ slot (fun j hj => ?_) (fun hu => ?_) fun _ => ?_
          · rw [entryAt_fillEntry h0, if_neg hj]
          · rw [(freeSlot_eq_some.mp hslot).2.1] at hu
            simp at hu
          · rw [entryAt_fillEntry h0, if_pos rfl]
            exact take_of_length_le hlen }
    rw [← hwhole] at hnew
    have hsteps : createSteps d (q ++ [n]) node.sectors fill node.bytes.length node.isDir =
        (fun d' => (allocLba d' node.sectors).2) :: (fill (next % 2 ^ 32) ++ [fun d' => writeSector d' (loc q)
            (fillEntry (d (loc q)) slot n (next % 2 ^ 32) node.bytes.length node.isDir), fun d' => bumpFileCount d' 1]) := by
      unfold createSteps
      rw [hfresh]
      simp only [hlba]
    have hcut := h.cutOk_steps (k := k) hq hle hbelow hnew
    rw [← hsteps] at hcut
    rw [runSteps_createSteps d _ _ _ _ hwhole, fsCreate_eq, hfresh]
    simp only [hlba]
    rw [hwhole] at hcut
    exact hcut
  · rw [if_neg hR, if_neg hR]
    unfold createSteps
    rw [h.freshEntry_none hR]
    simp only [take_nil]
    exact .inl ⟨next, le_rfl, h.stillHolds⟩

theorem Layout.delete_cut (hp : splitPath path = q ++ [n]) :
    CutOk d (runSteps ((deleteSteps d path).take k) d) (runSteps (deleteSteps d path) d) t
      (t.delete (q ++ [n])).2 loc q n next := by
  unfold deleteSteps Tree.delete
  rw [hp]
  cases hn : t (q ++ [n]) with
  | none =>
    rw [h.lookup_none hn]
    simp only [take_nil]
    exact .inl ⟨next, le_rfl, h.stillHolds⟩
  | some node =>
    obtain ⟨i, hl, hq, hi, hu, hname, -⟩ := h.lookup_some hn
    rw [hl]
    have hslot : OnlyAt n (d (loc q)) (clearUsed (d (loc q)) i) :=
      @onlyAt_of_slot n _ _ i (fun j hj => by rw [entryAt_clearUsed, if_neg hj]) (fun _ => hname) fun hu' => by
        rw [entryAt_clearUsed, if_pos rfl] at hu'
        simp at hu'
    have hnew := h.nowHolds_edit (n := n) hq (fun x hx => @bumpFileCount_of_ne _ (-1) x hx)
      (h.clear hn hi hu hname) hslot
    have hrest : ∀ x, x ≠ superblockLba → writeSector d (loc q) (clearUsed (d (loc q)) i) x =
        bumpFileCount (writeSector d (loc q) (clearUsed (d (loc q)) i)) (-1) x :=
      fun x hx => (bumpFileCount_of_ne hx).symm
    match k with
    | 0 => exact .inl ⟨next, le_rfl, h.stillHolds⟩
    | 1 => exact .inr ⟨loc, hnew.count hq h getU32_bumpFileCount.symm hrest, hnew, hrest⟩
    | k + 2 =>
      rw [take_of_length_le (by simp)]
      exact .inr ⟨loc, hnew, hnew, fun _ _ => rfl⟩

theorem Layout.update_cut (hp : splitPath path = q ++ [n]) {caller : U8}
    {set : Sector → Nat → Sector} {f : Node → Node} {g : DirEntry → DirEntry} (he : Edits set g f) :
    CutOk d (runSteps ((updateSteps d path caller set).take k) d) (runSteps (updateSteps d path caller set) d) t
      (t.change (q ++ [n]) caller f).2 loc q n next := by
  unfold updateSteps Tree.change
  rw [hp]
  cases hn : t (q ++ [n]) with
  | none =>
    rw [h.lookup_none hn]
    simp only [take_nil]
    exact .inl ⟨next, le_rfl, h.stillHolds⟩
  | some node =>
    obtain ⟨i, hl, hq, hi, hu, hname, hentry⟩ := h.lookup_some hn
    rw [hl]
    simp only
    rw [hentry.owner]
    split
    · simp only [take_nil]
      exact .inl ⟨next, le_rfl, h.stillHolds⟩
    · have hslot : OnlyAt n (d (loc q)) (set (d (loc q)) i) :=
        @onlyAt_of_slot n _ _ i (fun j hj => by rw [he.slot, if_neg hj]) (fun _ => hname) fun _ => by
          rw [he.slot, if_pos rfl, (he.kept _).2, hname]
      have hnew := h.nowHolds_edit hq (fun _ _ => rfl) (h.change hn hi hu hname (he.slot _ i)
        ((he.kept _).1.trans hu) ((he.kept _).2.trans hname) (he.entry _ _ _ hentry) (he.node _).1 (he.node _).2) hslot
      match k with
      | 0 => exact .inl ⟨next, le_rfl, h.stillHolds⟩
      | k + 1 =>
        rw [take_of_length_le (by simp)]
        exact .inr ⟨loc, hnew, hnew, fun _ _ => rfl⟩

/-- **A cut operation** leaves the old tree or the new one. -/
theorem Layout.cut_cases (hp : splitPath op.path = q ++ [n])
    (h0 : (0 : U8) ∉ op.path) (hop : op.Small) (hle : next + op.taken (q ++ [n]) t ≤ 2 ^ 32) :
    CutOk d (op.cut k d) (op.onDisk d).2 t (op.onNode (q ++ [n]) t).2 loc q n (next + op.taken (q ++ [n]) t) := by
  rw [op.onDisk_eq_steps]
  have hname : n.length ≤ 19 ∧ (0 : U8) ∉ n := by
    have hmem := mem_splitLoop (show n ∈ splitPath op.path by rw [hp]; simp)
    exact ⟨hmem.1, fun hz => h0 (hmem.2.2 0 hz)⟩
  cases op with
  | write p data =>
    have hp' : splitPath p = q ++ [n] := hp
    have hsteps : (FsOp.write p data).steps d = createSteps d (q ++ [n]) (Node.file data 0 0).sectors
        (dataSteps data) (Node.file data 0 0).bytes.length (Node.file data 0 0).isDir := by
      rw [← hp']
      rfl
    unfold FsOp.cut
    rw [hsteps]
    refine @Layout.create_cut d t loc next k q n h (.file data 0 0) (dataSteps data) _ (runSteps_dataSteps data)
      hname.1 hname.2 rfl rfl hop hle fun hroom => ⟨fills_file hop hroom, fun f hf d x hx => ?_⟩
    obtain ⟨s, hs, rfl⟩ := mem_map.mp hf
    have hs' : s < sectorsFor data.length := mem_range.mp hs
    have hsec : (Node.file data 0 0).sectors = sectorsFor data.length := rfl
    exact writeSector_of_ne (by omega) (by omega)
  | mkdir p =>
    have hp' : splitPath p = q ++ [n] := hp
    have hsteps : (FsOp.mkdir p).steps d = createSteps d (q ++ [n]) (Node.dir 0 0).sectors
        (fun lba => [fun d' => writeSector d' lba zeroSector]) (Node.dir 0 0).bytes.length
        (Node.dir 0 0).isDir := by
      rw [← hp']
      rfl
    unfold FsOp.cut
    rw [hsteps]
    refine @Layout.create_cut d t loc next k q n h (.dir 0 0) _ (fun lba d => writeSector d lba zeroSector)
      (fun _ _ => rfl) hname.1 hname.2 rfl rfl (by simp [Node.bytes]) hle fun hroom =>
        ⟨fills_dir hroom, fun f hf d x hx => ?_⟩
    have hsec : (Node.dir 0 0).sectors = 1 := rfl
    rw [mem_singleton.mp hf, mod_eq_of_lt (by omega)]
    exact writeSector_of_ne (by omega) (by omega)
  | delete p => exact h.delete_cut hp
  | setOwner p uid caller => exact h.update_cut hp (edits_setOwner uid)
  | setMode p mode caller => exact h.update_cut hp (edits_setMode mode)
  | read | stat | getOwnerMode =>
    exact .inl ⟨next, le_rfl, by simpa [FsOp.cut, FsOp.steps, runSteps] using h.stillHolds⟩

/-! ## What is seen -/

/-- Two disks that read, stat and list alike under every path. -/
def SameView (d d' : Disk) : Prop :=
  ∀ path, fsStatFile d path = fsStatFile d' path ∧ fsGetOwnerMode d path = fsGetOwnerMode d' path ∧
    (∀ maxLen, fsReadFile d path maxLen = fsReadFile d' path maxLen) ∧
    ∀ index, fsListEntry d path index = fsListEntry d' path index

theorem Layout.walk_eq {cs : List (List U8)} {lba : Nat} : walkDirs d rootLba cs = some lba ↔ t.IsDir cs ∧ lba = loc cs := by
  have hwalk := @Layout.walkDirs_eq d t loc next h cs [] h.root_isDir lba
  rwa [h.root_loc, nil_append] at hwalk

theorem Layout.list_eq {index : Int} {e : Listed} : fsListEntry d path index = some e ↔
      t.IsDir (splitPath path) ∧ listedAt (d (loc (splitPath path))) index = some e := by
  rw [fsListEntry_eq, bind_eq_some_iff]
  constructor
  · rintro ⟨lba, hw, hl⟩
    obtain ⟨hdir, rfl⟩ := h.walk_eq.mp hw
    exact ⟨hdir, hl⟩
  · rintro ⟨hdir, hl⟩
    exact ⟨_, h.walk_eq.mpr ⟨hdir, rfl⟩, hl⟩

/-- Two disks that hold the same node under a path read and stat it alike. -/
theorem Layout.node_view (h' : Layout d' t' loc' next') (hnode : t' (splitPath path) = t (splitPath path)) :
    fsStatFile d' path = fsStatFile d path ∧ fsGetOwnerMode d' path = fsGetOwnerMode d path ∧
      ∀ maxLen, fsReadFile d' path maxLen = fsReadFile d path maxLen := by
  by_cases hp : splitPath path = []
  · simp only [fsStatFile, fsGetOwnerMode, fsReadFile, hp, lookupEntry_nil, map_none, implies_true, and_self]
  · refine ⟨?_, ?_, fun maxLen => ?_⟩
    · rw [h'.stat_eq hp, h.stat_eq hp, Tree.stat, Tree.stat, hnode]
    · rw [h'.ownerMode_eq hp, h.ownerMode_eq hp, hnode]
    · rw [h'.read_eq hp, h.read_eq hp, Tree.read, Tree.read, hnode]

/-- Two disks that hold the same tree in the same directory sectors look alike. -/
theorem Layout.sameView (h' : Layout d' t loc next') (hdirs : ∀ r, t.IsDir r → d' (loc r) = d (loc r)) : SameView d' d := by
  intro path
  obtain ⟨hstat, howner, hread⟩ := @Layout.node_view d d' t t loc loc next next' path h h' rfl
  refine ⟨hstat, howner, hread, fun index => Option.ext fun e => ?_⟩
  rw [h'.list_eq, h.list_eq]
  exact and_congr_right fun hdir => by rw [hdirs _ hdir]

end Held

/-- A path that is not at or below the operation's looks as before. -/
structure Unseen (d d' : Disk) (comps : List (List U8)) (path : List U8) : Prop where
  stat : fsStatFile d' path = fsStatFile d path
  ownerMode : fsGetOwnerMode d' path = fsGetOwnerMode d path
  read : ∀ maxLen, fsReadFile d' path maxLen = fsReadFile d path maxLen
  list : ∀ index (e : Listed), (∀ m, comps = splitPath path ++ [m] → e.1 ≠ paddedName m) →
    (fsListEntry d' path index = some e ↔ fsListEntry d path index = some e)

theorem NowHolds.unseen (h : NowHolds d d' t t' loc loc' q n next) (hd : Layout d t loc next')
    (hnode : t' (splitPath path) = t (splitPath path)) : Unseen d d' (q ++ [n]) path := by
  obtain ⟨hstat, howner, hread⟩ := hd.node_view h.layout hnode
  refine ⟨hstat, howner, hread, fun index e hne => ?_⟩
  rw [h.layout.list_eq, hd.list_eq]
  have hdir : t'.IsDir (splitPath path) ↔ t.IsDir (splitPath path) := by
    unfold Tree.IsDir
    rw [hnode]
  rw [hdir]
  refine and_congr_right fun hr => ?_
  rw [h.kept _ hr]
  by_cases hpq : splitPath path = q
  · rw [hpq]
    exact h.parent index e (hne n (by rw [hpq]))
  · rw [h.others _ hr hpq]

/-! ## Runs with power cuts -/

/-- The path is a C string, the data are less than 2 GB, and the sectors the operation may take end
before the last LBA. -/
structure FsOp.Fits (op : FsOp) (d : Disk) : Prop where
  string : (0 : U8) ∉ op.path
  small : op.Small
  room : getU32 (d superblockLba) 8 + op.sectors < 2 ^ 32

/-- The disks of runs from `mkfs` in which operations may be cut. -/
inductive Reached : Disk → Prop
  | mkfs (d : Disk) : Reached (mkfs d)
  | cut {d : Disk} (op : FsOp) (k : Nat) : Reached d → op.Fits d → Reached (op.cut k d)

theorem Reached.step (h : Reached d) (hop : op.Fits d) : Reached (op.onDisk d).2 := by
  have hcut := h.cut op (op.steps d).length hop
  rwa [FsOp.cut, take_length, ← op.onDisk_eq_steps] at hcut

/-- **One operation, cut or not**, on a disk that holds a tree. -/
theorem Layout.cut (h : Layout d t loc next) (hnext : next < 2 ^ 32) (hop : op.Fits d) (k : Nat) :
    (∃ t' loc' next', Layout (op.cut k d) t' loc' next' ∧ next' < 2 ^ 32) ∧
      (SameView (op.cut k d) d ∨ SameView (op.cut k d) (op.onDisk d).2) ∧
      ∀ path, ¬ splitPath op.path <+: splitPath path → Unseen d (op.cut k d) (splitPath op.path) path := by
  have hstored : getU32 (d superblockLba) 8 = next := h.stored.trans (mod_eq_of_lt hnext)
  have hroom := hop.room
  by_cases hp : splitPath op.path = []
  · have hcut : op.cut k d = d := by
      unfold FsOp.cut
      rw [FsOp.steps_of_nil hp, take_nil]
      rfl
    rw [hcut, hp]
    exact ⟨⟨t, loc, next, h, hnext⟩, .inl (h.sameView h fun _ _ => rfl), fun path hnot => absurd ( nil_prefix) hnot⟩
  obtain ⟨q, n, hqn⟩ := splitPath_concat hp
  have htaken := op.taken_le (q ++ [n]) t
  have hcases := @Layout.cut_cases d t loc next k q n op h hqn hop.string hop.small (by omega)
  rw [hqn]
  rcases hcases with ⟨next', hle, hold⟩ | ⟨loc', hnew, hafter, hsame⟩
  · have hview := h.sameView hold.layout hold.dirs
    refine ⟨⟨t, loc, next', hold.layout, by omega⟩, .inl hview, fun path _ => ?_⟩
    obtain ⟨h1, h2, h3, h4⟩ := hview path
    exact ⟨h1, h2, h3, fun index e _ => by rw [h4]⟩
  · refine ⟨⟨_, loc', _, hnew.layout, by omega⟩, .inr (hafter.layout.sameView hnew.layout fun r hr =>
      hsame _ (hnew.layout.dir_ne_superblock hr)), fun path hnot => ?_⟩
    exact hnew.unseen h (FsOp.onNode_frame hnot)

/-- **Every reached disk holds a tree.** -/
theorem Reached.layout (h : Reached d) : ∃ t loc next, Layout d t loc next ∧ next < 2 ^ 32 := by
  induction h with
  | mkfs d => exact ⟨_, _, _, mkfs_layout d, by decide⟩
  | cut op k _ hop ih =>
    obtain ⟨t, loc, next, h, hnext⟩ := ih
    exact (h.cut hnext hop k).1

/-- **Crash consistency.** On every disk that a run with power cuts reaches, an operation cut after any
number of its sector writes looks like the disk before it or after it; every path that is not at or
below its own looks as before, the listing of its directory up to its own name; and the disk holds a
tree again, with which the run goes on. -/
theorem crash_consistent (h : Reached d) (hop : op.Fits d) (hpath : PathOk op.path) (k : Nat) :
    (SameView (op.cut k d) d ∨ SameView (op.cut k d) (op.onDisk d).2) ∧
      (∀ path, PathOk path → ¬ components op.path <+: components path → Unseen d (op.cut k d) (components op.path) path) ∧
      ∃ t loc next, Layout (op.cut k d) t loc next ∧ next < 2 ^ 32 := by
  obtain ⟨t, loc, next, hlay, hnext⟩ := h.layout
  obtain ⟨htree, hview, hother⟩ := hlay.cut hnext hop k
  refine ⟨hview, fun path hok hnot => ?_, htree⟩
  rw [← splitPath_eq_components_iff.mpr hpath] at hnot ⊢
  rw [← splitPath_eq_components_iff.mpr hok] at hnot
  exact hother path hnot

variable {data : List U8}

/-- From `d` on, operations at other places than `path` and the directories above it, each cut or not. -/
inductive Elsewhere (path : List U8) (d : Disk) : Disk → Prop
  | refl : Elsewhere path d d
  | cut {c : Disk} (op : FsOp) (k : Nat) : Elsewhere path d c → op.Fits c →
      ¬ splitPath op.path <+: splitPath path → Elsewhere path d (op.cut k c)

theorem Elsewhere.view (h : Elsewhere path d d') (hd : Reached d) : Reached d' ∧
    fsStatFile d' path = fsStatFile d path ∧ ∀ maxLen, fsReadFile d' path maxLen = fsReadFile d path maxLen := by
  induction h with
  | refl => exact ⟨hd, rfl, fun _ => rfl⟩
  | cut op k _ hop hnot ih =>
    obtain ⟨hc, hstat, hread⟩ := ih
    obtain ⟨t, loc, next, hlay, hnext⟩ := hc.layout
    have hunseen := (hlay.cut hnext hop k).2.2 path hnot
    exact ⟨hc.cut op k hop, hunseen.stat.trans hstat, fun maxLen => (hunseen.read maxLen).trans (hread maxLen)⟩

/-- **Listings and `fs_stat_file` agree.** On every disk that a run with power cuts reaches, the names listed under a
directory are those of the files and directories that are found in it, each at one index, with its size and its kind. -/
theorem listing_eq_stat (h : Reached d) (dir : List U8) : ∃ name : Int → List U8,
    (∀ i e, fsListEntry d dir i = some e → e.1 = paddedName (name i) ∧
      ∀ j, fsListEntry d dir j ≠ none → name j = name i → j = i) ∧
    ∀ path n size isDir, splitPath path = splitPath dir ++ [n] →
      ((∃ owner mode, fsStatFile d path = some (size, isDir, owner, mode)) ↔
        ∃ i, name i = n ∧ fsListEntry d dir i = some (paddedName n, size, isDir)) := by
  obtain ⟨t, loc, next, hlay, -⟩ := h.layout
  refine ⟨fun i => (entryAt (d (loc (splitPath dir))) i.toNat).name, fun i e hi => ?_, fun path n size isDir hp => ?_⟩
  · obtain ⟨hdir, hi⟩ := hlay.list_eq.mp hi
    obtain ⟨a, ha, rfl, hua, rfl⟩ := listedAt_eq_some.mp hi
    refine ⟨rfl, fun j hj hname => ?_⟩
    obtain ⟨e, hj⟩ := ne_none_iff_exists'.mp hj
    obtain ⟨b, hb, rfl, hub, -⟩ := listedAt_eq_some.mp (hlay.list_eq.mp hj).2
    rw [(hlay.dirs _ hdir).distinct b a hb ha hub hua hname]
  · rw [hlay.stat_eq (by simp [hp]), Tree.stat, hp]
    constructor
    · rintro ⟨owner, mode, hstat⟩
      obtain ⟨node, hn, hnode⟩ := map_eq_some_iff.mp hstat
      have hdir := hlay.closed _ n (hn ▸ some_ne_none _)
      obtain ⟨i, -, hi, hu, rfl, he⟩ := hlay.find_some hdir hn
      refine ⟨i, rfl, hlay.list_eq.mpr ⟨hdir, listedAt_eq_some.mpr ⟨i, hi, rfl, hu, ?_⟩⟩⟩
      cases hnode
      rw [he.size, he.kind]
    · rintro ⟨_, rfl, hi⟩
      obtain ⟨hdir, hi⟩ := hlay.list_eq.mp hi
      obtain ⟨a, ha, rfl, hu, he⟩ := listedAt_eq_some.mp hi
      obtain ⟨node, hn, hnode⟩ := (hlay.dirs _ hdir).entry a ha hu
      cases he
      exact ⟨node.owner, node.mode, by simp [hn, hnode.size, hnode.kind]⟩

/-- **A file that was written stays.** On every disk that a run with power cuts reaches, a write that returned `true`
reads back as written, whatever is done elsewhere later and wherever that is cut. -/
theorem write_durable (h : Reached d) (hop : (FsOp.write path data).Fits d) (hok : (fsWriteFile d path data).1 = true)
    (hlater : Elsewhere path (fsWriteFile d path data).2 d') : fsStatFile d' path = some (data.length, false, 0, 0) ∧
      ∀ maxLen, data.length ≤ maxLen → fsReadFile d' path maxLen = ((data.length : Int), data) := by
  obtain ⟨-, hstat, hread⟩ := hlater.view (h.step hop)
  obtain ⟨t, loc, next, hlay, hnext⟩ := h.layout
  have hp : splitPath path ≠ [] := fun hnil => @FsOp.not_ok_of_nil (.write path data) d hnil hok
  have hstored := hlay.stored.trans (mod_eq_of_lt hnext)
  have hroom := hop.room
  have htaken := (FsOp.write path data).taken_le (splitPath path) t
  obtain ⟨hres, loc', hlay'⟩ := hlay.write_agrees hp hop.string hop.small
    (show next + (FsOp.write path data).taken (splitPath path) t ≤ 2 ^ 32 by omega)
  rw [hok] at hres
  -- the tree with the new file
  have hnode : (t.create (splitPath path) (.file data 0 0)).2 (splitPath path) = some (.file data 0 0) := by
    unfold Tree.create at hres ⊢
    split at hres
    · rename_i hR
      rw [if_pos hR]
      exact t.put_self _ _
    · cases hres
  refine ⟨?_, fun maxLen hle => ?_⟩
  · rw [hstat, hlay'.stat_eq hp, Tree.stat, hnode]
    rfl
  · rw [hread, hlay'.read_eq hp, Tree.read, hnode]
    exact if_neg (not_lt.mpr hle)

end Cut

theorem fits_write : (FsOp.write [0x61] [1, 2]).Fits (mkfs fun _ => zeroSector) :=
  ⟨by decide, show 2 < 2 ^ 31 by decide, by decide +kernel⟩

/-- A directory made on a disk with the file `a`, cut before its entry is written. -/
theorem crash_consistent_mkdir :
    let d := (fsWriteFile (mkfs fun _ => zeroSector) [0x61] [1, 2]).2
    fsStatFile d [0x61] = some (2, false, 0, 0) ∧ Unseen d ((FsOp.mkdir [0x62]).cut 2 d) [[0x62]] [0x61] := by
  have hfits : (FsOp.mkdir [0x62]).Fits (fsWriteFile (mkfs fun _ => zeroSector) [0x61] [1, 2]).2 :=
    ⟨by decide, trivial, by decide +kernel⟩
  exact ⟨by decide +kernel, (crash_consistent ((Reached.mkfs _).step fits_write) hfits (by decide) 2).2.1 [0x61] (by decide)
    (by decide)⟩

/-- A name of twenty characters is written as the file `b` of the directory of its first nineteen. -/
theorem crash_alias : Reached longDisk ∧ (FsOp.write longName [1]).Fits longDisk ∧
    ¬ components longName <+: components (joinPath [List.replicate 19 0x61, [0x62]]) ∧
    fsStatFile longDisk (joinPath [List.replicate 19 0x61, [0x62]]) = none ∧
    fsStatFile ((FsOp.write longName [1]).cut 3 longDisk) (joinPath [List.replicate 19 0x61, [0x62]]) =
      some (1, false, 0, 0) := by
  have hfits : (FsOp.mkdir (List.replicate 19 0x61)).Fits (mkfs fun _ => zeroSector) :=
    ⟨by decide, trivial, by decide +kernel⟩
  have hsmall : (FsOp.write longName [1]).Small := show 1 < 2 ^ 31 by decide
  exact ⟨(Reached.mkfs _).step hfits, ⟨by decide, hsmall, by decide +kernel⟩, by decide +kernel,
    by decide +kernel, by decide +kernel⟩

/-- A file `a`, and a directory `b` that is cut before its entry is written. -/
theorem write_durable_mkdir :
    let d := (fsWriteFile (mkfs fun _ => zeroSector) [0x61] [1, 2]).2
    fsReadFile ((FsOp.mkdir [0x62]).cut 2 d) [0x61] 2 = (2, [1, 2]) := by
  exact (write_durable (.mkfs _) fits_write (by decide +kernel)
    (.cut (.mkdir [0x62]) 2 .refl ⟨by decide, trivial, by decide +kernel⟩ (by decide))).2 2 le_rfl

/-- The root of a disk with one file. -/
theorem listing_eq_stat_root : ∃ i,
    fsListEntry (fsWriteFile (mkfs fun _ => zeroSector) [0x61] [1, 2]).2 [] i = some (paddedName [0x61], 2, false) := by
  obtain ⟨name, -, h⟩ := listing_eq_stat ((Reached.mkfs _).step fits_write) []
  obtain ⟨i, -, hi⟩ := (h [0x61] [0x61] 2 false (by decide)).mp ⟨0, 0, by decide +kernel⟩
  exact ⟨i, hi⟩

end MinicOs
