import MinicOs.Fs.Fat32
import MinicOs.Fs.Tmpfs

/-!
# The VFS

Model of `kernel/fs/vfs/vfs.c` with the mount table `kmain.c` sets up: a path goes to the backend of
the first mount whose prefix it begins with. What the device and process file systems answer is not
modelled; it is a function of the state.

`none` stands for a call that does not come back in a defined state: a path that overruns the
200-byte buffer of `combine_backend_path`, or a cluster chain without an end.
-/

namespace MinicOs

open List

inductive Backend
  | minifs
  | device
  | procfs
  | tmpfs
  | mounts
  | fat32
deriving DecidableEq

structure Mount where
  point : List U8
  backend : Backend
  backendRoot : List U8

/-- `"/system"`. -/
def systemPoint : List U8 := [0x2f, 0x73, 0x79, 0x73, 0x74, 0x65, 0x6d]

/-- `"apps"`. -/
def appsName : List U8 := [0x61, 0x70, 0x70, 0x73]

/-- `"users"`. -/
def usersName : List U8 := [0x75, 0x73, 0x65, 0x72, 0x73]

/-- `g_mounts` after boot: `/system`, `/devices`, `/processes`, `/temp`, `/volumes`, `/apps`, `/users`
and `/fat32`. -/
def bootMounts : List Mount :=
  [⟨systemPoint, .minifs, []⟩, ⟨[0x2f, 0x64, 0x65, 0x76, 0x69, 0x63, 0x65, 0x73], .device, []⟩,
    ⟨[0x2f, 0x70, 0x72, 0x6f, 0x63, 0x65, 0x73, 0x73, 0x65, 0x73], .procfs, []⟩,
    ⟨[0x2f, 0x74, 0x65, 0x6d, 0x70], .tmpfs, []⟩, ⟨[0x2f, 0x76, 0x6f, 0x6c, 0x75, 0x6d, 0x65, 0x73], .mounts, []⟩,
    ⟨slash :: appsName, .minifs, appsName⟩, ⟨slash :: usersName, .minifs, usersName⟩,
    ⟨[0x2f, 0x66, 0x61, 0x74, 0x33, 0x32], .fat32, []⟩]

/-- The state of the file systems; `live` is what devices and processes answer a read with. -/
structure FileSystems where
  disk : Disk
  tmpfs : Tmpfs
  fat : FatVolume
  live : Backend → List U8 → Nat → Int × List U8

/-- A disk with MiniFS, an empty tmpfs and no FAT32 volume. -/
def FileSystems.ofDisk (d : Disk) : FileSystems where
  disk := d
  tmpfs := fun _ => { used := false, name := [], content := [] }
  fat :=
    { initialized := false, sectorsPerCluster := 0, rootCluster := 0, firstFatLba := 0
      firstDataLba := 0, totalClusters := 0, disk := fun _ => zeroSector }
  live := fun _ _ _ => (-1, [])

def startsWith (s p : List U8) : Bool := p.isPrefixOf s

def vfsFindMount (path : List U8) : Option Mount := bootMounts.find? fun m => startsWith path m.point

/-- `vfs_strip_prefix`: without the mount point and one separator. -/
def vfsStrip (path : List U8) (m : Mount) : List U8 :=
  let rest := path.drop m.point.length
  if rest.head? = some slash then rest.tail else rest

/-- The path `combine_backend_path` writes. -/
def fullPath (root rest : List U8) : List U8 :=
  root ++ (if root ≠ [] ∧ rest ≠ [] then [slash] else []) ++ rest

/-- `combine_backend_path`, into a buffer of 200 bytes. -/
def combineBackendPath (root rest : List U8) : Option (List U8) :=
  if (fullPath root rest).length < 200 then some (fullPath root rest) else none

/-- The permission test of the VFS: the mode restricts the access to the owner, and the caller is
neither the owner nor root. -/
def blocked (d : Disk) (path : List U8) (restriction callerUid : U8) : Bool :=
  match fsGetOwnerMode d path with
  | none => false
  | some (ownerUid, mode) => mode &&& restriction != 0 && callerUid != ownerUid && callerUid != 0

/-- `vfs_read`: the result and the bytes copied out. -/
def vfsRead (s : FileSystems) (path : List U8) (maxLen : Nat) (callerUid : U8) : Option (Int × List U8) :=
  match vfsFindMount path with
  | none => some (-1, [])
  | some m =>
    let rest := vfsStrip path m
    match m.backend with
    | .minifs =>
      (combineBackendPath m.backendRoot rest).map fun full =>
        if blocked s.disk full modeOwnerOnlyRead callerUid = true then (-1, [])
        else fsReadFile s.disk full maxLen
    | .device => some (s.live .device rest maxLen)
    | .procfs => some (s.live .procfs rest maxLen)
    | .tmpfs => some (tmpfsRead s.tmpfs rest maxLen)
    | .fat32 => fat32ReadFile s.fat rest maxLen
    | .mounts => some (-1, [])

def vfsWrite (s : FileSystems) (path data : List U8) (callerUid : U8) : Option (Bool × FileSystems) :=
  match vfsFindMount path with
  | none => some (false, s)
  | some m =>
    let rest := vfsStrip path m
    match m.backend with
    | .minifs =>
      (combineBackendPath m.backendRoot rest).map fun full =>
        if blocked s.disk full modeOwnerOnlyWrite callerUid = true then (false, s)
        else (fsWriteFile s.disk full data).map id fun d => { s with disk := d }
    | .tmpfs => some ((tmpfsWrite s.tmpfs rest data).map id fun t => { s with tmpfs := t })
    | .fat32 => (fat32WriteFile s.fat rest data).map fun r => r.map id fun v => { s with fat := v }
    | .device | .procfs | .mounts => some (false, s)

/-- `vfs_stat`: size, `is_dir`, owner and mode. -/
def vfsStat (s : FileSystems) (path : List U8) : Option (Option (Nat × Bool × U8 × U8)) :=
  match vfsFindMount path with
  | none => some none
  | some m =>
    let rest := vfsStrip path m
    match m.backend with
    | .minifs => (combineBackendPath m.backendRoot rest).map fun full => fsStatFile s.disk full
    | .tmpfs => some ((tmpfsStat s.tmpfs rest).map fun size => (size, false, 0, 0))
    | .fat32 => (fat32StatFile s.fat rest).map fun r => r.map fun i => (i.1, i.2, 0, 0)
    | .device | .procfs | .mounts => some none

def vfsDelete (s : FileSystems) (path : List U8) (callerUid : U8) : Option (Bool × FileSystems) :=
  match vfsFindMount path with
  | none => some (false, s)
  | some m =>
    let rest := vfsStrip path m
    match m.backend with
    | .minifs =>
      (combineBackendPath m.backendRoot rest).map fun full =>
        if blocked s.disk full modeOwnerOnlyWrite callerUid = true then (false, s)
        else (fsDeleteFile s.disk full).map id fun d => { s with disk := d }
    | .tmpfs => some ((tmpfsDelete s.tmpfs rest).map id fun t => { s with tmpfs := t })
    | .fat32 => (fat32DeleteFile s.fat rest).map fun r => r.map id fun v => { s with fat := v }
    | .device | .procfs | .mounts => some (false, s)

def vfsMkdir (s : FileSystems) (path : List U8) : Option (Bool × FileSystems) :=
  match vfsFindMount path with
  | none => some (false, s)
  | some m =>
    let rest := vfsStrip path m
    match m.backend with
    | .minifs =>
      (combineBackendPath m.backendRoot rest).map fun full => (fsCreateDir s.disk full).map id fun d => { s with disk := d }
    | .fat32 => (fat32CreateDir s.fat rest).map fun r => r.map id fun v => { s with fat := v }
    | .device | .procfs | .tmpfs | .mounts => some (false, s)

/-! ## The part of the VFS that is MiniFS -/

/-- The MiniFS path a path of the VFS stands for, if it is one of MiniFS. -/
def minifsPath (path : List U8) : Option (List U8) :=
  match vfsFindMount path with
  | none => none
  | some m => if m.backend = .minifs then some (fullPath m.backendRoot (vfsStrip path m)) else none

section Minifs

variable {s : FileSystems} {path full : List U8} {callerUid : U8}

theorem minifsPath_eq_some : minifsPath path = some full ↔ ∃ m, vfsFindMount path = some m ∧ m.backend = .minifs ∧
      fullPath m.backendRoot (vfsStrip path m) = full := by
  unfold minifsPath
  cases vfsFindMount path with
  | none => simp
  | some m => simp

/-- The MiniFS path behind a path is at most six characters longer. -/
theorem minifsPath_length (h : minifsPath path = some full) : full.length ≤ path.length + 6 := by
  obtain ⟨mount, hm, -, rfl⟩ := minifsPath_eq_some.mp h
  have hroot : mount.backendRoot.length ≤ 5 := by
    have hall : ∀ x ∈ bootMounts, x.backendRoot.length ≤ 5 := by decide
    exact hall mount (mem_of_find?_eq_some hm)
  have hrest : (vfsStrip path mount).length ≤ path.length := by
    unfold vfsStrip
    simp only
    split <;> simp only [length_tail, length_drop] <;> omega
  unfold fullPath
  split <;> simp only [length_append, length_cons, length_nil] <;> omega

theorem combineBackendPath_of_lt {root rest : List U8} (h : (fullPath root rest).length < 200) :
    combineBackendPath root rest = some (fullPath root rest) := if_pos h

theorem blocked_root (d : Disk) (path : List U8) (restriction : U8) : blocked d path restriction 0 = false := by
  unfold blocked
  split <;> simp

variable (h : minifsPath path = some full)
include h

theorem vfsRead_minifs (hlen : full.length < 200) (maxLen : Nat) : vfsRead s path maxLen callerUid =
      some (if blocked s.disk full modeOwnerOnlyRead callerUid = true then (-1, []) else fsReadFile s.disk full maxLen) := by
  obtain ⟨m, hm, hb, rfl⟩ := minifsPath_eq_some.mp h
  simp only [vfsRead, hm, hb, combineBackendPath_of_lt hlen, Option.map_some]

theorem vfsWrite_minifs (hlen : full.length < 200) (data : List U8) : vfsWrite s path data callerUid =
      some (if blocked s.disk full modeOwnerOnlyWrite callerUid = true then (false, s)
        else (fsWriteFile s.disk full data).map id fun d => { s with disk := d }) := by
  obtain ⟨m, hm, hb, rfl⟩ := minifsPath_eq_some.mp h
  simp only [vfsWrite, hm, hb, combineBackendPath_of_lt hlen, Option.map_some]

/-- A path that overruns the buffer is not answered. -/
theorem vfsRead_eq_none (hlen : 200 ≤ full.length) (maxLen : Nat) : vfsRead s path maxLen callerUid = none := by
  obtain ⟨m, hm, hb, rfl⟩ := minifsPath_eq_some.mp h
  simp only [vfsRead, hm, hb, combineBackendPath, if_neg (Nat.not_lt.mpr hlen), Option.map_none]

end Minifs

end MinicOs
