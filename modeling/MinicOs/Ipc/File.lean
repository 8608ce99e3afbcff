import MinicOs.Fs.Vfs

/-!
# File objects

Model of `proc/ipc/file/file.c`: eight open files, each a copy of at most 4096 bytes that
`file_object_open` reads in and `file_object_close` writes back as a whole. The path is kept in 128
bytes, so a close works on its first 127 characters.

An `OpenFile` carries what every operation keeps: the cursor is within the content, and the content
and the path are within their buffers.

`none` stands for an open whose path overruns one of the buffers it is copied to.
-/

namespace MinicOs

open List

def fileObjectSlots : Nat := 8

def fileMaxSize : Nat := 4096

def fileAccessRdonly : Int := 0

def fileAccessWronly : Int := 1

def fileAccessRdwr : Int := 2

/-- `open_file`; `content` is the first `length` bytes of the buffer. -/
structure OpenFile where
  used : Bool
  access : Int
  path : List U8
  content : List U8
  cursor : Nat
  ownerUid : U8
  cursor_le : cursor ≤ content.length
  length_le : content.length ≤ fileMaxSize
  path_le : path.length ≤ 127

/-- A slot of `g_open_files` that was never used. -/
def OpenFile.unused : OpenFile where
  used := false
  access := 0
  path := []
  content := []
  cursor := 0
  ownerUid := 0
  cursor_le := le_refl _
  length_le := Nat.zero_le _
  path_le := Nat.zero_le _

def OpenFile.release (f : OpenFile) : OpenFile := { f with used := false }

/-- The file systems and `g_open_files`. -/
structure OpenFiles where
  fs : FileSystems
  files : Int → OpenFile

def OpenFiles.setFile (s : OpenFiles) (slot : Int) (f : OpenFile) : OpenFiles :=
  { s with files := Function.update s.files slot f }

def inSystemMount (path : List U8) : Bool := startsWith path systemPoint

def stripSystemPrefix (path : List U8) : List U8 :=
  let rest := path.drop systemPoint.length
  if rest.head? = some slash then rest.tail else rest

/-- The permission test of `file_object_open`. -/
def openDenied (d : Disk) (path : List U8) (access : Int) (callerUid : U8) : Bool :=
  match fsGetOwnerMode d path with
  | none => false
  | some (ownerUid, mode) =>
    let readBlocked := access != fileAccessWronly && mode &&& modeOwnerOnlyRead != 0
    let writeBlocked := access != fileAccessRdonly && mode &&& modeOwnerOnlyWrite != 0
    (readBlocked || writeBlocked) && callerUid != ownerUid && callerUid != 0

/-- A slot after it was claimed: what the buffer held before is still there. -/
def OpenFile.claim (f : OpenFile) (path : List U8) (access : Int) (callerUid : U8) : OpenFile where
  used := true
  access := access
  path := path.take 127
  content := f.content
  cursor := 0
  ownerUid := callerUid
  cursor_le := Nat.zero_le _
  length_le := f.length_le
  path_le := by rw [length_take]; omega

/-- A claimed slot with its content; `vfs_read` was asked for at most `FILE_MAX_SIZE` bytes. -/
def OpenFile.load (f : OpenFile) (bytes : List U8) : OpenFile where
  used := f.used
  access := f.access
  path := f.path
  content := bytes.take fileMaxSize
  cursor := 0
  ownerUid := f.ownerUid
  cursor_le := Nat.zero_le _
  length_le := by rw [length_take]; omega
  path_le := f.path_le

/-- `file_object_open` from the claimed slot on. When the file cannot be read and the access is
neither `FILE_ACCESS_WRONLY` nor `FILE_ACCESS_RDWR` the slot stays used. -/
def OpenFiles.fill (s : OpenFiles) (slot : Nat) (path : List U8) (access : Int) (callerUid : U8) :
    Option (Int × OpenFiles) :=
  let f := (s.files slot).claim path access callerUid
  if access = fileAccessWronly then some (slot, s.setFile slot (f.load []))
  else
    (vfsRead s.fs path fileMaxSize callerUid).map fun r =>
      if r.1 < 0 then
        if access = fileAccessRdwr then ((slot : Int), s.setFile slot (f.load []))
        else (-1, s.setFile slot f)
      else ((slot : Int), s.setFile slot (f.load r.2))

/-- `find_free_slot`. -/
def OpenFiles.freeSlot (s : OpenFiles) : Option Nat :=
  scan fileObjectSlots fun i => !(s.files i).used

/-- `file_object_open`: the slot, `-2` if the caller may not open the file, else `-1`. -/
def fileObjectOpen (s : OpenFiles) (path : List U8) (access : Int) (callerUid : U8) : Option (Int × OpenFiles) :=
  if inSystemMount path = true ∧ 128 ≤ (stripSystemPrefix path).length then none
  else if inSystemMount path = true ∧
      openDenied s.fs.disk (stripSystemPrefix path) access callerUid = true then some (-2, s)
  else
    match s.freeSlot with
    | none => some (-1, s)
    | some slot => s.fill slot path access callerUid

/-- `file_object_read`: the bytes delivered. -/
def fileObjectRead (f : OpenFile) (maxLen : Nat) : List U8 × OpenFile :=
  let n := min maxLen (f.content.length - f.cursor)
  ((f.content.drop f.cursor).take n, { f with
    cursor := f.cursor + n
    cursor_le := by have := f.cursor_le; omega })

/-- `file_object_write`: the number of bytes taken. -/
def fileObjectWrite (f : OpenFile) (data : List U8) : Nat × OpenFile :=
  let n := min data.length (fileMaxSize - f.cursor)
  have hn : (data.take n).length = n := by rw [length_take]; omega
  (n, { f with
    content := f.content.take f.cursor ++ data.take n ++ f.content.drop (f.cursor + n)
    cursor := f.cursor + n
    cursor_le := by
      have := f.cursor_le
      simp only [length_append, length_take_of_le this, hn]
      omega
    length_le := by
      have := f.cursor_le
      have := f.length_le
      simp only [length_append, length_take_of_le f.cursor_le, hn, length_drop]
      omega })

def fileObjectSeek (f : OpenFile) (offset whence : Int) : Int × OpenFile :=
  if f.access = fileAccessWronly then (-1, f)
  else if whence = 0 ∨ whence = 1 ∨ whence = 2 then
    let base : Int := if whence = 0 then 0 else if whence = 1 then f.cursor else f.content.length
    if h : 0 ≤ base + offset ∧ base + offset ≤ f.content.length then
      (base + offset, { f with
        cursor := (base + offset).toNat
        cursor_le := by omega })
    else (-1, f)
  else (-1, f)

/-- The delayed write of `file_object_close`: in `/system` the file is deleted first, and given to
the opener when it was written. -/
def commit (fs : FileSystems) (f : OpenFile) : Option (Bool × FileSystems) :=
  if inSystemMount f.path = true then
    let stripped := stripSystemPrefix f.path
    let fs := { fs with disk := (fsDeleteFile fs.disk stripped).2 }
    (vfsWrite fs f.path f.content f.ownerUid).map fun r =>
      if r.1 = true then (true, { r.2 with disk := (fsSetOwner r.2.disk stripped f.ownerUid 0).2 })
      else r
  else vfsWrite fs f.path f.content f.ownerUid

def fileObjectClose (s : OpenFiles) (slot : Int) : Option (Bool × OpenFiles) :=
  let f := s.files slot
  if f.access = fileAccessRdonly then some (true, s.setFile slot f.release)
  else (commit s.fs f).map fun r => (r.1, { s with fs := r.2 }.setFile slot f.release)

/-! ## What an open does to the table -/

section Open

variable {s s' : OpenFiles} {path : List U8} {access : Int} {callerUid : U8} {slot : Int}

/-- The claimed slot is filled and handed out, or left claimed when the file cannot be read. -/
theorem fill_cases {i : Nat} (h : s.fill i path access callerUid = some (slot, s')) :
    (slot = i ∧ ∃ bytes, s' = s.setFile i (((s.files i).claim path access callerUid).load bytes)) ∨
      (slot = -1 ∧ s' = s.setFile i ((s.files i).claim path access callerUid) ∧
        access ≠ fileAccessWronly ∧ access ≠ fileAccessRdwr ∧
        ∃ r, vfsRead s.fs path fileMaxSize callerUid = some r ∧ r.1 < 0) := by
  unfold OpenFiles.fill at h
  by_cases hw : access = fileAccessWronly
  · rw [if_pos hw] at h
    cases h
    exact .inl ⟨rfl, [], rfl⟩
  rw [if_neg hw] at h
  obtain ⟨r, hread, hr⟩ := Option.map_eq_some_iff.mp h
  by_cases hneg : r.1 < 0
  · rw [if_pos hneg] at hr
    by_cases hrw : access = fileAccessRdwr
    · rw [if_pos hrw] at hr
      cases hr
      exact .inl ⟨rfl, [], rfl⟩
    · rw [if_neg hrw] at hr
      cases hr
      exact .inr ⟨rfl, rfl, hw, hrw, r, hread, hneg⟩
  · rw [if_neg hneg] at hr
    cases hr
    exact .inl ⟨rfl, r.2, rfl⟩

variable (h : fileObjectOpen s path access callerUid = some (slot, s'))
include h

/-- **What `file_object_open` does**: nothing, or it fills the first free slot. -/
theorem fileObjectOpen_cases : (slot < 0 ∧ s' = s) ∨
      ∃ i, s.freeSlot = some i ∧ s.fill i path access callerUid = some (slot, s') ∧
        (inSystemMount path = true → (stripSystemPrefix path).length < 128 ∧
          openDenied s.fs.disk (stripSystemPrefix path) access callerUid = false) := by
  unfold fileObjectOpen at h
  by_cases hlong : inSystemMount path = true ∧ 128 ≤ (stripSystemPrefix path).length
  · rw [if_pos hlong] at h
    simp at h
  rw [if_neg hlong] at h
  by_cases hdenied : inSystemMount path = true ∧
      openDenied s.fs.disk (stripSystemPrefix path) access callerUid = true
  · rw [if_pos hdenied] at h
    cases h
    exact .inl ⟨by decide, rfl⟩
  rw [if_neg hdenied] at h
  cases hslot : s.freeSlot with
  | none =>
    rw [hslot] at h
    cases h
    exact .inl ⟨by decide, rfl⟩
  | some i =>
    rw [hslot] at h
    refine .inr ⟨i, rfl, h, fun hsys => ⟨?_, ?_⟩⟩
    · exact Nat.lt_of_not_le fun hle => hlong ⟨hsys, hle⟩
    · exact Bool.eq_false_iff.mpr fun hd => hdenied ⟨hsys, hd⟩

theorem fileObjectOpen_fs : s'.fs = s.fs := by
  obtain ⟨-, rfl⟩ | ⟨i, -, hfill, -⟩ := fileObjectOpen_cases h
  · rfl
  · obtain ⟨-, bytes, rfl⟩ | ⟨-, rfl, -⟩ := fill_cases hfill <;> rfl

/-- The slot handed out has the access that was asked for. -/
theorem fileObjectOpen_access (hslot : 0 ≤ slot) : (s'.files slot).access = access := by
  obtain ⟨hneg, -⟩ | ⟨i, -, hfill, -⟩ := fileObjectOpen_cases h
  · omega
  · obtain ⟨rfl, bytes, rfl⟩ | ⟨rfl, -⟩ := fill_cases hfill
    · show (Function.update s.files (i : Int) _ (i : Int)).access = access
      rw [Function.update_self]
      rfl
    · omega

end Open

end MinicOs
