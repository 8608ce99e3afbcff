import MinicOs.Ipc.FileCommit
import MinicOs.Syscall.Files

/-!
# Opening a file and what it can damage

`file_object_close` writes back what `file_object_open` read in, with a new owner and no mode, under
the first 127 characters of the path; and a syscall 44 that finds no object or no handle for the file
closes it again.
-/

namespace MinicOs

open List Option

/-- Content, owner and mode of the file a MiniFS path names. -/
def fileAt (d : Disk) (path : List U8) : Option (List U8 × U8 × U8) :=
  let r := fsReadFile d path (2 ^ 32 - 1)
  if r.1 < 0 then none
  else (fsGetOwnerMode d path).map fun om => (r.2, om.1, om.2)

/-- The file at a path of the tree. -/
def Tree.file (t : Tree (List U8)) (p : List (List U8)) : Option (List U8 × U8 × U8) :=
  match t p with
  | some (.file bytes owner mode) => some (bytes, owner, mode)
  | _ => none

theorem Tree.file_eq_some {t : Tree (List U8)} {p : List (List U8)} {bytes : List U8} {owner mode : U8} :
    t.file p = some (bytes, owner, mode) ↔ t p = some (.file bytes owner mode) := by
  unfold Tree.file
  split
  · rename_i b o m heq
    simp [heq]
  · rename_i hne
    exact ⟨fun h => absurd h (by simp), fun h => absurd h (hne _ _ _)⟩

/-- A MiniFS volume that holds a tree of files, with room for the content of one more file object
below the `2 ^ 32` sector addresses. Every run of MiniFS from `mkfs` on leaves such a volume
(`Layout.run`) until the addresses run out. -/
def VolumeOk (d : Disk) : Prop := ∃ t loc next, Layout d t loc next ∧ next + 8 ≤ 2 ^ 32

/-- **Opening for reading and writing, then closing, leaves the file as it was**, whatever else is
open. -/
def OpenCloseKeeps (fs : FileSystems) (path : List U8) (uid : U8) : Prop :=
  ∀ files : Int → OpenFile, ∃ slot s, fileObjectOpen ⟨fs, files⟩ path fileAccessRdwr uid = some (slot, s) ∧
    (0 ≤ slot → ∃ ok s', fileObjectClose s slot = some (ok, s') ∧
      fileAt s'.fs.disk (stripSystemPrefix path) = fileAt fs.disk (stripSystemPrefix path))

/-- When a close that follows the open leaves the file alone: the path fits the buffer it is copied
to; and if its first 127 characters lead to the file, or to a directory above it, then it is to the
file, and this is at most 4096 bytes, the opener's own and without a mode. -/
def OpenCloseSafe (path : List U8) (uid : U8) (bytes : List U8) (owner mode : U8) : Prop :=
  let p := splitPath (stripSystemPrefix path)
  let kept := splitPath (stripSystemPrefix (path.take 127))
  (stripSystemPrefix path).length < 128 ∧
    (kept <+: p → kept = p ∧ bytes.length ≤ fileMaxSize ∧ owner = uid ∧ mode = 0)

section OpenClose

variable {fs : FileSystems} {t : Tree (List U8)} {loc : List (List U8) → Nat} {next : Nat}
  {path : List U8} {uid : U8} {bytes : List U8} {owner mode : U8}

theorem Layout.fileAt_eq {d : Disk} (h : Layout d t loc next) (hp : splitPath path ≠ []) :
    fileAt d path = t.file (splitPath path) := by
  unfold fileAt Tree.file
  rw [h.read_eq hp, h.ownerMode_eq hp]
  unfold Tree.read
  cases hn : t (splitPath path) with
  | none => simp
  | some node =>
    cases node with
    | dir owner mode => simp
    | file bytes owner mode =>
      have hsmall : bytes.length < 2 ^ 31 := h.small _ _ hn
      simp only
      rw [if_neg (show ¬ 2 ^ 32 - 1 < bytes.length by omega)]
      simp [Node.owner, Node.mode]

theorem splitPath_of_fileAt {d : Disk} (hf : fileAt d path ≠ none) : splitPath path ≠ [] := by
  intro hnil
  unfold fileAt at hf
  rw [fsGetOwnerMode_nil hnil] at hf
  simp at hf

theorem inSystemMount_take (hsys : inSystemMount path = true) : inSystemMount (path.take 127) = true := by
  unfold inSystemMount startsWith at *
  rw [ isPrefixOf_iff_prefix] at *
  exact prefix_take_iff.mpr ⟨hsys, by decide⟩

/-- Whoever may open the file for reading and writing may read it. -/
theorem not_blocked_of_not_denied {d : Disk} (h : openDenied d path fileAccessRdwr uid = false) :
    blocked d path modeOwnerOnlyRead uid = false := by
  unfold openDenied at h
  unfold blocked
  cases hom : fsGetOwnerMode d path with
  | none => rfl
  | some om =>
    rw [hom] at h
    simp only [Bool.and_eq_false_iff, Bool.or_eq_false_iff] at h ⊢
    rcases h with (⟨hr, -⟩ | hne) | hne
    · exact .inl (Or.inl (hr.resolve_left (by decide)))
    · exact .inl (Or.inr hne)
    · exact .inr hne

/-- The open file object `file_object_open` leaves for a file it may read and write. -/
def reopened (f : OpenFile) (path : List U8) (uid : U8) (bytes : List U8) : OpenFile :=
  (f.claim path fileAccessRdwr uid).load (if fileMaxSize < bytes.length then [] else bytes)

/-- What closing it again does: the path is cut, the owner and the mode are not those of the file. -/
theorem Layout.close_reopened (h : Layout fs.disk t loc next) (hsys : inSystemMount path = true)
    (h0 : (0 : U8) ∉ path) (hle : next + 8 ≤ 2 ^ 32) (files : Int → OpenFile) (slot : Int) (f : OpenFile) :
    ∃ ok s' loc' next', fileObjectClose ((OpenFiles.mk fs files).setFile slot (reopened f path uid bytes)) slot =
        some (ok, s') ∧ Layout s'.fs.disk (t.overwrite (splitPath (stripSystemPrefix (path.take 127)))
        (if fileMaxSize < bytes.length then [] else bytes) uid) loc' next' := by
  have hcontent : (reopened f path uid bytes).content = if fileMaxSize < bytes.length then [] else bytes := by
    show List.take fileMaxSize _ = _
    refine take_of_length_le ?_
    split
    · exact Nat.zero_le _
    · omega
  have h0' : (0 : U8) ∉ path.take 127 := fun hmem => h0 (mem_of_mem_take hmem)
  obtain ⟨ok, d', loc', next', hcommit, -, -, -, hl⟩ :=
    @Layout.commit_overwrites t loc next fs h (reopened f path uid bytes) (inSystemMount_take hsys) h0' hle
  rw [hcontent] at hl
  refine ⟨ok, (OpenFiles.mk { fs with disk := d' } files).setFile slot
    (reopened f path uid bytes).release, loc', next', ?_, hl⟩
  unfold fileObjectClose OpenFiles.setFile
  simp only [Function.update_self, Function.update_idem]
  have haccess : (reopened f path uid bytes).access = fileAccessRdwr := rfl
  rw [if_neg (by rw [haccess]; decide), hcommit]
  rfl

/-- Cutting a path leaves it a component, if it had one. -/
theorem splitPath_cut (hp : splitPath (stripSystemPrefix path) ≠ []) :
    splitPath (stripSystemPrefix (path.take 127)) ≠ [] := by
  intro hnil
  have hstrip : stripSystemPrefix (path.take 127) = [] := splitPath_eq_nil.mp hnil
  have hlen : (path.take 127).length ≤ 8 := by
    have h1 := congrArg List.length hstrip
    have h2 := length_le_stripSystemPrefix (path.take 127)
    rw [h1] at h2
    exact h2
  rw [length_take] at hlen
  rw [take_of_length_le (by omega)] at hnil
  exact hp hnil

/-- The new file at the path is the old one iff it was small, the opener's and without a mode. -/
theorem overwrite_keeps_iff (h : Layout fs.disk t loc next) {p kept : List (List U8)}
    (hne : kept ≠ []) (hfile : t p = some (.file bytes owner mode)) :
    (t.overwrite kept (if fileMaxSize < bytes.length then [] else bytes) uid).file p = some (bytes, owner, mode) ↔
      (kept <+: p → kept = p ∧ bytes.length ≤ fileMaxSize ∧ owner = uid ∧ mode = 0) := by
  rw [Tree.file_eq_some]
  by_cases hpre : kept <+: p
  swap
  · rw [Tree.overwrite_apart (Or.inr hpre)]
    exact iff_of_true hfile fun hpre' => absurd hpre' hpre
  rw [imp_iff_right hpre]
  by_cases heq : kept = p
  · subst heq
    rw [h.overwrite_self hne (by rw [hfile]; simp)]
    by_cases hbig : fileMaxSize < bytes.length
    · have hbytes : [] ≠ bytes := fun hnil => by
        subst hnil
        simp at hbig
      simp [hbig, hbytes, Nat.not_le.mpr hbig]
    · simp only [if_neg hbig, some.injEq, Node.file.injEq, true_and, Nat.not_lt.mp hbig]
      exact ⟨fun ⟨h1, h2⟩ => ⟨h1.symm, h2.symm⟩, fun ⟨h1, h2⟩ => ⟨h1.symm, h2.symm⟩⟩
  · -- a directory above the file is gone, and the file with it
    obtain ⟨l, rfl⟩ := hpre
    have hl : l ≠ [] := fun hnil => heq (by simp [hnil])
    obtain ⟨o, m, hdir⟩ := h.isDir_of_append l hl (by rw [hfile]; simp)
    rw [Tree.overwrite_below hne (prefix_append _ _) (Ne.symm heq) (by rw [hdir]; simp)]
    simp [heq]

/-- **Exactly when opening and closing leaves the file as it was.** -/
theorem Layout.openCloseKeeps_iff (h : Layout fs.disk t loc next) (hle : next + 8 ≤ 2 ^ 32)
    (hsys : inSystemMount path = true) (h0 : (0 : U8) ∉ path)
    (hfile : fileAt fs.disk (stripSystemPrefix path) = some (bytes, owner, mode))
    (hallowed : openDenied fs.disk (stripSystemPrefix path) fileAccessRdwr uid = false) :
    OpenCloseKeeps fs path uid ↔ OpenCloseSafe path uid bytes owner mode := by
  have hp : splitPath (stripSystemPrefix path) ≠ [] := splitPath_of_fileAt (by rw [hfile]; simp)
  have hnode := Tree.file_eq_some.mp ((h.fileAt_eq hp).symm.trans hfile)
  unfold OpenCloseSafe
  by_cases hlen : (stripSystemPrefix path).length < 128
  swap
  · refine iff_of_false (fun hkeep => ?_) fun hsafe => hlen hsafe.1
    obtain ⟨slot, s, hopen, -⟩ := hkeep fun _ => OpenFile.unused
    unfold fileObjectOpen at hopen
    rw [if_pos ⟨hsys, by omega⟩] at hopen
    simp at hopen
  rw [and_iff_right hlen, ← overwrite_keeps_iff h (splitPath_cut hp) hnode]
  -- what the two calls do, for a table with a free slot
  have hrun : ∀ (files : Int → OpenFile) (slot : Nat), (OpenFiles.mk fs files).freeSlot = some slot →
      ∃ s ok s', fileObjectOpen ⟨fs, files⟩ path fileAccessRdwr uid = some ((slot : Int), s) ∧
        fileObjectClose s slot = some (ok, s') ∧
        fileAt s'.fs.disk (stripSystemPrefix path) =
          (t.overwrite (splitPath (stripSystemPrefix (path.take 127)))
            (if fileMaxSize < bytes.length then [] else bytes) uid).file
              (splitPath (stripSystemPrefix path)) := by
    intro files slot hslot
    obtain ⟨ok, s', loc', next', hclose, hl⟩ :=
      @Layout.close_reopened fs t loc next path uid bytes h hsys h0 hle files slot (files slot)
    refine ⟨_, ok, s', ?_, hclose, hl.fileAt_eq hp⟩
    unfold fileObjectOpen
    rw [if_neg (by omega), if_neg (by simp [hallowed]), hslot]
    unfold OpenFiles.fill
    simp only
    rw [if_neg (by decide), vfsRead_minifs (minifsPath_system hsys) (by omega), not_blocked_of_not_denied hallowed,
      h.read_eq hp]
    unfold Tree.read reopened
    rw [hnode]
    by_cases hbig : fileMaxSize < bytes.length
    · simp [hbig]
    · simp [hbig]
  constructor
  · intro hkeep
    obtain ⟨s, ok, s', hopen, hclose, hres⟩ := hrun (fun _ => OpenFile.unused) 0 rfl
    obtain ⟨slot, s1, hopen', hafter⟩ := hkeep fun _ => OpenFile.unused
    obtain ⟨rfl, rfl⟩ := Prod.mk.inj (some.inj (hopen.symm.trans hopen'))
    obtain ⟨ok', s2, hclose', hsame⟩ := hafter (Int.natCast_nonneg 0)
    obtain ⟨rfl, rfl⟩ := Prod.mk.inj (some.inj (hclose.symm.trans hclose'))
    rw [← hres, hsame, hfile]
  · intro hkept files
    cases hslot : (OpenFiles.mk fs files).freeSlot with
    | some slot =>
      obtain ⟨s, ok, s', hopen, hclose, hres⟩ := hrun files slot hslot
      exact ⟨_, s, hopen, fun _ => ⟨ok, s', hclose, by rw [hres, hkept, hfile]⟩⟩
    | none =>
      refine ⟨-1, ⟨fs, files⟩, ?_, fun hneg => absurd hneg (by decide)⟩
      unfold fileObjectOpen
      rw [if_neg (by omega), if_neg (by simp [hallowed]), hslot]

end OpenClose

/-! ## A failed syscall 44 -/

/-- **A syscall 44 that fails leaves every file as it was**: what root could read before, it reads
after. -/
def FailedOpenKeeps (caps : Caps) (p access : Int) : Prop :=
  ∀ (s : FileState) (path : List U8) (a : FileAnswer) (s' : FileState), s.caps = caps →
    VolumeOk s.fs.disk → (0 : U8) ∉ path → openFile s p path access = some (a, s') →
    a.result.toInt < 0 → ∀ (q : List U8) (n : Int) (bytes : List U8),
      vfsRead s.fs q (2 ^ 32 - 1) 0 = some (n, bytes) → 0 ≤ n →
      vfsRead s'.fs q (2 ^ 32 - 1) 0 = some (n, bytes)

/-- There is nothing to give back: no process, no delayed write, or an object and a handle. -/
def OpenCannotDamage (caps : Caps) (p access : Int) : Prop :=
  p < 0 ∨ access = fileAccessRdonly ∨
    ((∃ i, caps.freeObjectSlot = some i) ∧ ∃ j, caps.freeHandleSlot p = some j)

section FailedOpen

variable {caps : Caps} {p access : Int}

/-- Then the file systems are not written at all. -/
theorem openFile_fs {s s' : FileState} {path : List U8} {a : FileAnswer}
    (hsafe : OpenCannotDamage s.caps p access) (h : openFile s p path access = some (a, s')) : s'.fs = s.fs := by
  unfold openFile at h
  by_cases hp : p < 0
  · rw [if_pos hp] at h
    cases h
    rfl
  rw [if_neg hp] at h
  cases hopen : fileObjectOpen s.toOpenFiles path access (s.uid p) with
  | none =>
    rw [hopen] at h
    simp at h
  | some r =>
    obtain ⟨slot, files⟩ := r
    rw [hopen] at h
    have hfs : files.fs = s.fs := fileObjectOpen_fs hopen
    simp only at h
    by_cases hslot : slot < 0
    · rw [if_pos hslot] at h
      cases h
      exact hfs
    rw [if_neg hslot, openHandle_eq] at h
    simp only at h
    by_cases herr : (createObject s.caps p .file slot (fileRights access) true).1 = errU64
    · rw [if_pos herr] at h
      obtain ⟨r, hclose, heq⟩ := map_eq_some_iff.mp h
      cases heq
      have hro : access = fileAccessRdonly := by
        refine (hsafe.resolve_left hp).resolve_right fun hroom => createObject_eq_err_iff.mp herr ?_
        exact hroom.imp ne_none_iff_exists'.mpr ne_none_iff_exists'.mpr
      have haccess := fileObjectOpen_access hopen (not_lt.mp hslot)
      unfold fileObjectClose at hclose
      simp only at hclose
      rw [if_pos (haccess.trans hro)] at hclose
      cases hclose
      exact hfs
    · rw [if_neg herr] at h
      cases h
      exact hfs

/-- `/system/d///…///ab`, with the `b` as the 128th character: cut to 127 it is
`/system/d///…///a`. -/
def cutPath : List U8 := systemPoint ++ [slash, 0x64] ++ List.replicate 117 slash ++ [0x61, 0x62]

/-- A MiniFS volume with the files `d/ab` and `d/a`. -/
def twoFiles : Disk :=
  (fsWriteFile (fsWriteFile (fsCreateDir (mkfs fun _ => zeroSector) [0x64]).2
    [0x64, slash, 0x61, 0x62] [1]).2 [0x64, slash, 0x61] [2]).2

theorem twoFiles_layout : ∃ t loc next, Layout twoFiles t loc next ∧ next + 8 ≤ 2 ^ 32 ∧
    t [[0x64], [0x61]] = some (.file [2] 0 0) := by
  have hnext : dataStartLba = 502 := rfl
  have hone : ∀ (t : Tree (List U8)) (p : List (List U8)) (b : U8), t.taken p (.file [b] 0 0) ≤ 1 :=
    fun t p b => (Tree.taken_le t p (.file [b] 0 0)).trans (show sectorsFor 1 ≤ 1 by decide)
  have h0 : Layout (mkfs fun _ => zeroSector) Tree.empty (fun _ => rootLba) dataStartLba := mkfs_layout _
  have hdir : Tree.empty.taken (splitPath [0x64]) (.dir 0 0) ≤ 1 := Tree.taken_le _ _ (.dir 0 0)
  obtain ⟨-, loc1, h1⟩ := @Layout.mkdir_agrees _ _ _ _ [0x64] h0 (by decide) (by decide) (by omega)
  generalize (Tree.empty.create (splitPath [0x64]) (.dir 0 0)).2 = t1 at h1
  have ht1 := hone t1 (splitPath [0x64, slash, 0x61, 0x62]) 1
  obtain ⟨-, loc2, h2⟩ := @Layout.write_agrees _ _ _ _ [0x64, slash, 0x61, 0x62] h1 (by decide) [1]
    (by decide) (by decide) (by omega)
  generalize (t1.create (splitPath [0x64, slash, 0x61, 0x62]) (.file [1] 0 0)).2 = t2 at h2
  have ht2 := hone t2 (splitPath [0x64, slash, 0x61]) 2
  obtain ⟨-, loc3, h3⟩ := @Layout.write_agrees _ _ _ _ [0x64, slash, 0x61] h2 (by decide) [2]
    (by decide) (by decide) (by omega)
  refine ⟨_, loc3, _, h3, by omega, ?_⟩
  have hp : splitPath [0x64, slash, 0x61] = [[0x64], [0x61]] := by decide
  have hfile := @Layout.fileAt_eq _ _ _ [0x64, slash, 0x61] _ h3 (by decide)
  rw [hp] at hfile
  refine Tree.file_eq_some.mp (hfile.symm.trans ?_)
  show fileAt twoFiles [0x64, slash, 0x61] = some ([2], 0, 0)
  decide +kernel

/-- The table of open files that are all closed. -/
def noneOpen (fs : FileSystems) : OpenFiles := ⟨fs, fun _ => OpenFile.unused⟩

/-- What an open of the path that is cut reads in. -/
def cutFile (access : Int) : OpenFile :=
  (OpenFile.unused.claim cutPath access 0).load (if access = fileAccessWronly then [] else [1])

theorem open_cutPath (access : Int) : fileObjectOpen (noneOpen (.ofDisk twoFiles)) cutPath access 0 =
    some (0, (noneOpen (.ofDisk twoFiles)).setFile 0 (cutFile access)) := by
  have hread : vfsRead (.ofDisk twoFiles) cutPath fileMaxSize 0 = some (1, [1]) := by decide +kernel
  have hallowed : openDenied twoFiles (stripSystemPrefix cutPath) access 0 = false := by
    unfold openDenied
    split <;> simp
  unfold fileObjectOpen cutFile
  rw [if_neg (by decide), if_neg (by rw [show (noneOpen (.ofDisk twoFiles)).fs.disk = twoFiles from rfl, hallowed]; simp)]
  show (noneOpen (.ofDisk twoFiles)).fill 0 cutPath access 0 = _
  unfold OpenFiles.fill
  simp only [show (noneOpen (.ofDisk twoFiles)).fs = .ofDisk twoFiles from rfl, hread]
  by_cases hw : access = fileAccessWronly
  · simp only [if_pos hw]
    rfl
  · simp only [if_neg hw]
    rfl

/-- The path `/system/d/a`. -/
def shortPath : List U8 := systemPoint ++ [slash, 0x64, slash, 0x61]

/-- Then a writing open of the path that is cut empties or replaces `d/a`. -/
theorem not_failedOpenKeeps (h : ¬ OpenCannotDamage caps p access) : ¬ FailedOpenKeeps caps p access := by
  unfold OpenCannotDamage at h
  push Not at h
  obtain ⟨hp, haccess, hfull⟩ := h
  obtain ⟨t, loc, next, hl, hle, hfile⟩ := twoFiles_layout
  have hcut : splitPath (stripSystemPrefix (cutFile access).path) = [[0x64], [0x61]] := by
    show splitPath (stripSystemPrefix (cutPath.take 127)) = _
    decide
  obtain ⟨ok, d', loc', next', hcommit, -, -, -, hl'⟩ :=
    @Layout.commit_overwrites t loc next (.ofDisk twoFiles) hl (cutFile access)
      (show inSystemMount (cutPath.take 127) = true by decide)
      (show (0 : U8) ∉ cutPath.take 127 by decide) hle
  rw [hcut] at hl'
  have hnew := @Layout.overwrite_self _ t loc next _ (cutFile access).content (cutFile access).ownerUid hl
    (show [[0x64], [0x61]] ≠ ([] : List (List U8)) by simp) (by rw [hfile]; simp)
  have hno : ¬ caps.Room p := fun ⟨hobject, hhandle⟩ =>
    hfull (ne_none_iff_exists'.mp hobject) _ (ne_none_iff_exists'.mp hhandle).choose_spec
  -- the open is closed again, and its delayed write is done
  obtain ⟨s', hopen, hfs⟩ : ∃ s', openFile ⟨noneOpen (.ofDisk twoFiles), caps, fun _ => 0⟩ p cutPath access =
      some (FileAnswer.value errU64, s') ∧ s'.fs = { FileSystems.ofDisk twoFiles with disk := d' } := by
    unfold openFile
    rw [if_neg (not_lt.mpr hp), open_cutPath access]
    simp only
    rw [if_neg (by decide), openHandle_eq]
    simp only
    rw [if_pos (createObject_eq_err_iff.mpr hno)]
    unfold dropFile fileObjectClose
    simp only
    rw [if_neg (by rwa [fileObjectOpen_access (open_cutPath access) (le_refl 0)])]
    change ∃ s', Option.map _ (Option.map _ (commit (.ofDisk twoFiles) (cutFile access))) = _ ∧ _
    rw [hcommit]
    exact ⟨_, rfl, rfl⟩
  have hbefore : vfsRead (.ofDisk twoFiles) shortPath (2 ^ 32 - 1) 0 = some (1, [2]) := by decide +kernel
  intro hkeep
  have hread := hkeep _ cutPath _ s' rfl ⟨t, loc, next, hl, hle⟩ (by decide) hopen (by decide)
    shortPath 1 [2] hbefore (by decide)
  rw [hfs, vfsRead_minifs (minifsPath_system (by decide)) (by decide), blocked_root] at hread
  have hread' : fsReadFile d' (stripSystemPrefix shortPath) (2 ^ 32 - 1) = (1, [2]) := some.inj hread
  rw [hl'.read_eq (by decide), show splitPath (stripSystemPrefix shortPath) = [[0x64], [0x61]] by decide] at hread'
  unfold Tree.read at hread'
  rw [hnew] at hread'
  have hcontent : (cutFile access).content = if access = fileAccessWronly then [] else [1] := by
    show List.take fileMaxSize _ = _
    exact take_of_length_le (by split <;> decide)
  rw [hcontent] at hread'
  by_cases hw : access = fileAccessWronly
  · simp [hw] at hread'
  · simp [hw] at hread'

/-- **Exactly when a failed syscall 44 leaves the files as they were.** -/
theorem failedOpenKeeps_iff : FailedOpenKeeps caps p access ↔ OpenCannotDamage caps p access := by
  constructor
  · intro h
    by_contra hn
    exact not_failedOpenKeeps hn h
  · intro hsafe s path a s' hcaps _ _ hopen _ q n bytes hread _
    subst hcaps
    rw [openFile_fs hsafe hopen]
    exact hread

end FailedOpen

/-- **When opening a file does not damage it.** Opening a file of `/system` for reading and writing
and closing it leaves content, owner and mode alone exactly in the cases of `OpenCloseSafe`; a
syscall 44 that fails leaves every file alone exactly in those of `OpenCannotDamage`. -/
theorem open_keeps_iff (fs : FileSystems) (path : List U8) (uid : U8) (bytes : List U8) (owner mode : U8) (caps : Caps)
    (p access : Int) : (VolumeOk fs.disk → inSystemMount path = true → (0 : U8) ∉ path →
      fileAt fs.disk (stripSystemPrefix path) = some (bytes, owner, mode) →
      openDenied fs.disk (stripSystemPrefix path) fileAccessRdwr uid = false →
      (OpenCloseKeeps fs path uid ↔ OpenCloseSafe path uid bytes owner mode)) ∧
    (FailedOpenKeeps caps p access ↔ OpenCannotDamage caps p access) := by
  refine ⟨fun hvol hsys h0 hfile hallowed => ?_, failedOpenKeeps_iff⟩
  obtain ⟨t, loc, next, hl, hle⟩ := hvol
  exact hl.openCloseKeeps_iff hle hsys h0 hfile hallowed

theorem twoFiles_ok : VolumeOk twoFiles := by
  obtain ⟨t, loc, next, hl, hle, -⟩ := twoFiles_layout
  exact ⟨t, loc, next, hl, hle⟩

/-- The files of the two-file volume, with every object slot taken. -/
def objectsFull : FileState where
  toOpenFiles := noneOpen (.ofDisk twoFiles)
  caps :=
    { objects := fun _ => { used := true, type := .process, dataIndex := 0 }
      objectCount := objectSlots
      handles := fun _ _ => { used := false, objectIndex := 0, rights := 0 }
      policies := fun _ => { used := false, deniedLow := 0, deniedHigh := 0 } }
  uid := fun _ => 0

/-- Root may open and close `/system/d/a`, which is its own, small and without a mode; and an open for reading may fail. -/
theorem open_keeps_shortPath :
    OpenCloseKeeps (.ofDisk twoFiles) shortPath 0 ∧ FailedOpenKeeps objectsFull.caps 0 fileAccessRdonly := by
  obtain ⟨hclose, hfailed⟩ := open_keeps_iff (.ofDisk twoFiles) shortPath 0 [2] 0 0 objectsFull.caps 0 fileAccessRdonly
  refine ⟨(hclose twoFiles_ok (by decide) (by decide) (by decide +kernel) (by decide +kernel)).mpr ?_, hfailed.mpr ?_⟩
  · exact ⟨by decide, fun _ => ⟨by decide, by decide, rfl, rfl⟩⟩
  · exact .inr (Or.inl rfl)

/-- The volume with `d/a` restricted to its owner. -/
def guardedFiles : Disk := (fsSetMode twoFiles [0x64, slash, 0x61] modeOwnerOnlyWrite 0).2

theorem guardedFiles_ok : VolumeOk guardedFiles := by
  obtain ⟨t, loc, next, hl, hle, -⟩ := twoFiles_layout
  obtain ⟨-, loc', hl'⟩ := @Layout.update_agrees _ _ _ _ [0x64, slash, 0x61] hl (by decide) 0
    _ _ _ (edits_setMode modeOwnerOnlyWrite)
  exact ⟨_, loc', next, hl', hle⟩

/-- Root opens and closes its own restricted file, and the restriction is gone; and an open for
writing that finds no object empties the file it failed to open. -/
theorem open_damages : (fileAt guardedFiles (stripSystemPrefix shortPath) = some ([2], 0, modeOwnerOnlyWrite) ∧
      openDenied guardedFiles (stripSystemPrefix shortPath) fileAccessRdwr 0 = false ∧
      ¬ OpenCloseKeeps (.ofDisk guardedFiles) shortPath 0) ∧ vfsRead objectsFull.fs shortPath fileMaxSize 0 = some (1, [2]) ∧
    (openFile objectsFull 0 shortPath fileAccessWronly).map (fun r => (r.1.result, vfsRead r.2.fs shortPath fileMaxSize 0)) =
      some (errU64, some (0, [])) := by
  have hfile : fileAt guardedFiles (stripSystemPrefix shortPath) = some ([2], 0, modeOwnerOnlyWrite) := by
    decide +kernel
  have hallowed : openDenied guardedFiles (stripSystemPrefix shortPath) fileAccessRdwr 0 = false := by
    decide +kernel
  refine ⟨⟨hfile, hallowed, fun hkeeps => ?_⟩, by decide +kernel, by decide +kernel⟩
  obtain ⟨t, loc, next, hl, hle⟩ := guardedFiles_ok
  obtain ⟨-, hsafe⟩ := (@Layout.openCloseKeeps_iff (.ofDisk guardedFiles) t loc next shortPath 0 _ _ _ hl hle
    (by decide) (by decide) hfile hallowed).mp hkeeps
  exact absurd (hsafe (by decide)).2.2.2 (by decide)

end MinicOs
