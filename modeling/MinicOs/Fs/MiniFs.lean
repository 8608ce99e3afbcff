import MinicOs.Fs.Sector
import MinicOs.Fs.Path
import MinicOs.Ipc.CapOp

/-!
# MiniFS

Model of `kernel/fs/minifs/minifs.c` over a disk whose sectors read back as they were written (every
`blockdev_read_sector` and `blockdev_write_sector` succeeds): the superblock in sector 500, the root
directory in sector 501, and from 502 on the sectors of subdirectories and files, handed out by a
counter in the superblock and never taken back.

LBAs and sizes are `u32`. A directory's sector is read once and written back at the end, as the
source does with its `dir_buf`.
-/

namespace MinicOs

/-- A disk: the sector at each LBA. -/
abbrev Disk := Nat → Sector

def superblockLba : Nat := 500

def rootLba : Nat := 501

def dataStartLba : Nat := 502

def minifsMagic : Nat := 0x3153464d

def modeOwnerOnlyRead : U8 := 1

def modeOwnerOnlyWrite : U8 := 2

def getU32 (s : Sector) (o : Nat) : Nat := readU32 (slice s o 4)

def setU32 (s : Sector) (o n : Nat) : Sector := overlay s o (writeU32 n)

theorem getU32_setU32 (s : Sector) (o n : Nat) : getU32 (setU32 s o n) o = n % 2 ^ 32 := by
  unfold getU32 setU32
  have h := slice_overlay_self s o (writeU32 n)
  rw [length_writeU32] at h
  rw [h, ← List.append_nil (writeU32 n), readU32_writeU32_append]

variable (d : Disk)

/-- `blockdev_write_sector`; the LBA is a `u32`. -/
def writeSector (lba : Nat) (s : Sector) : Disk := Function.update d (lba % 2 ^ 32) s

def zeroSector : Sector := fun _ => 0

def sectorsFor (bytes : Nat) : Nat := (bytes + 511) % 2 ^ 32 / 512

/-- `mkfs`: `magic`, `file_count` and `next_free_lba`, and an empty root directory. -/
def mkfs : Disk :=
  let sb := setU32 (setU32 (setU32 zeroSector 0 minifsMagic) 4 0) 8 dataStartLba
  writeSector (writeSector d superblockLba sb) rootLba zeroSector

/-- The walk over directories of `resolve_parent_dir` and `resolve_dir`. -/
def walkDirs (d : Disk) : Nat → List (List U8) → Option Nat
  | lba, [] => some lba
  | lba, c :: cs =>
    match findEntry (d lba) c with
    | none => none
    | some slot =>
      if (entryAt (d lba) slot).isDir = true then walkDirs d (entryAt (d lba) slot).startLba cs
      else none

/-- `resolve_parent_dir` of the components of a path: the LBA of the directory and the last
component. -/
def resolveParent (comps : List (List U8)) : Option (Nat × List U8) :=
  match comps.getLast? with
  | none => none
  | some name => (walkDirs d rootLba comps.dropLast).map fun lba => (lba, name)

def allocLba (sectorCount : Nat) : Nat × Disk :=
  let sb := d superblockLba
  let next := getU32 sb 8
  (next, writeSector d superblockLba (setU32 sb 8 (next + sectorCount)))

def bumpFileCount (delta : Int) : Disk :=
  let sb := d superblockLba
  writeSector d superblockLba (setU32 sb 4 ((getU32 sb 4 + delta) % 2 ^ 32).toNat)

/-- The loop of `fs_write_file` over the sectors of the data. -/
def writeSectors (data : List U8) (startLba sectorCount : Nat) (d : Disk) : Disk :=
  (List.range sectorCount).foldl
    (fun d s => writeSector d (startLba + s) fun b => data.getD (512 * s + b) 0) d

/-- The part `fs_write_file` and `fs_create_dir` share: a free entry of the parent directory, new
sectors that `fill` writes, and the entry. -/
def fsCreate (comps : List (List U8)) (sectorCount : Nat) (fill : Nat → Disk → Disk)
    (sizeBytes : Nat) (isDir : Bool) : Bool × Disk :=
  match resolveParent d comps with
  | none => (false, d)
  | some (parent, name) =>
    let dir := d parent
    if (findEntry dir name).isSome = true then (false, d)
    else
      match freeSlot dir with
      | none => (false, d)
      | some slot =>
        let r := allocLba d sectorCount
        let d := fill r.1 r.2
        let d := writeSector d parent (fillEntry dir slot name r.1 sizeBytes isDir)
        (true, bumpFileCount d 1)

def fsWriteFile (path data : List U8) : Bool × Disk :=
  fsCreate d (splitPath path) (sectorsFor data.length)
    (fun lba => writeSectors data lba (sectorsFor data.length)) data.length false

def fsCreateDir (path : List U8) : Bool × Disk :=
  fsCreate d (splitPath path) 1 (fun lba d => writeSector d lba zeroSector) 0 true

/-- The entry the other operations look up: its directory's LBA and its slot. -/
def lookupEntry (comps : List (List U8)) : Option (Nat × Nat) :=
  match resolveParent d comps with
  | none => none
  | some (parent, name) => (findEntry (d parent) name).map fun slot => (parent, slot)

def fsDeleteFile (path : List U8) : Bool × Disk :=
  match lookupEntry d (splitPath path) with
  | none => (false, d)
  | some (parent, slot) =>
    (true, bumpFileCount (writeSector d parent (clearUsed (d parent) slot)) (-1))

/-- The bytes the loop of `fs_read_file` copies out. -/
def readSectors (startLba size : Nat) : List U8 :=
  ((List.range (sectorsFor size)).flatMap fun s => slice (d ((startLba + s) % 2 ^ 32)) 0 512).take size

/-- `fs_read_file`: the result and the bytes copied out. -/
def fsReadFile (path : List U8) (maxLen : Nat) : Int × List U8 :=
  match lookupEntry d (splitPath path) with
  | none => (-1, [])
  | some (parent, slot) =>
    let e := entryAt (d parent) slot
    if e.isDir = true then (-1, [])
    else if maxLen < e.sizeBytes then (-2, [])
    else (toInt32 (BitVec.ofNat 64 e.sizeBytes), readSectors d e.startLba e.sizeBytes)

def fsGetOwnerMode (path : List U8) : Option (U8 × U8) :=
  (lookupEntry d (splitPath path)).map fun r =>
    ((entryAt (d r.1) r.2).ownerUid, (entryAt (d r.1) r.2).mode)

/-- `fs_stat_file`: size, `is_dir`, owner and mode. -/
def fsStatFile (path : List U8) : Option (Nat × Bool × U8 × U8) :=
  (lookupEntry d (splitPath path)).map fun r =>
    let e := entryAt (d r.1) r.2
    (e.sizeBytes, e.isDir, e.ownerUid, e.mode)

/-- The part `fs_set_owner` and `fs_set_mode` share: the caller must own the entry or be root. -/
def fsUpdate (path : List U8) (callerUid : U8) (set : Sector → Nat → Sector) : Bool × Disk :=
  match lookupEntry d (splitPath path) with
  | none => (false, d)
  | some (parent, slot) =>
    if callerUid ≠ (entryAt (d parent) slot).ownerUid ∧ callerUid ≠ 0 then (false, d)
    else (true, writeSector d parent (set (d parent) slot))

def fsSetOwner (path : List U8) (uid callerUid : U8) : Bool × Disk :=
  fsUpdate d path callerUid fun s slot => setOwnerUid s slot uid

def fsSetMode (path : List U8) (mode callerUid : U8) : Bool × Disk :=
  fsUpdate d path callerUid fun s slot => setMode s slot mode

end MinicOs
