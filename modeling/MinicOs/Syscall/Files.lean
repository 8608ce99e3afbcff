import MinicOs.Ipc.File
import MinicOs.Syscall.Handlers

/-!
# The file syscalls

Model of the syscalls that reach the files: 4, 5, 38, 50, 51, 97 and 98 of
`kernel/syscall/handlers/vfs.c` and 44 to 48 of `kernel/syscall/handlers/file.c`. A call is given
with the strings and bytes its pointers lead to, and answers with what it writes through them.

`none` stands for a call that overruns a buffer or follows a cluster chain without an end.
-/

namespace MinicOs

/-- The file systems, the open files, the object and handle tables, and the processes' uids. -/
structure FileState extends OpenFiles where
  caps : Caps
  uid : Int → U8

variable (s : FileState)

/-- The uid a call acts under: a task of no process is root. -/
def FileState.callerUid (p : Int) : U8 := if p < 0 then 0 else s.uid p

/-- The result of a call, the bytes it delivers, and the size, kind, owner and mode it reports. -/
structure FileAnswer where
  result : U64
  bytes : List U8
  stat : Option (Nat × Bool × U8 × U8)
deriving DecidableEq

/-- An answer that is only a result. -/
def FileAnswer.value (v : U64) : FileAnswer := { result := v, bytes := [], stat := none }

/-- `0` or `(u64) -1`. -/
def FileAnswer.status (ok : Bool) : FileAnswer := FileAnswer.value (if ok = true then 0 else errU64)

/-- What a call answers, and the state after it. -/
abbrev FileResult := Option (FileAnswer × FileState)

/-- Change only the disk. -/
def FileState.withDisk (d : Disk) : FileState := { s with fs := { s.fs with disk := d } }

/-- Syscall 4: every failure of `vfs_read` is `-1`. -/
def vfsReadCall (p : Int) (path : List U8) (maxLen : Nat) : FileResult :=
  (vfsRead s.fs path maxLen (s.callerUid p)).map fun r =>
    (if r.1 < 0 then FileAnswer.value errU64 else { result := ofInt r.1, bytes := r.2, stat := none }, s)

/-- Syscall 5: the length is the low half of `a3`, the result all of it. -/
def vfsWriteCall (p : Int) (path : List U8) (buf : Nat → U8) (a3 : U64) : FileResult :=
  (vfsWrite s.fs path (bufBytes buf (a3.toNat % 2 ^ 32)) (s.callerUid p)).map fun r =>
    (FileAnswer.value (if r.1 = true then a3 else errU64), { s with fs := r.2 })

/-- Syscall 38: `fs_delete_file`, with no test of the caller. -/
def fsDeleteCall (path : List U8) : FileResult :=
  let r := fsDeleteFile s.fs.disk path
  some (FileAnswer.value (if r.1 = true then 1 else 0), s.withDisk r.2)

/-- Give the slot of a failed open back: `file_object_close`, whose answer is not looked at. -/
def dropFile (slot : Int) (caps : Caps) : FileResult :=
  (fileObjectClose s.toOpenFiles slot).map fun r =>
    (FileAnswer.value errU64, { toOpenFiles := r.2, caps := caps, uid := s.uid })

/-- Syscall 44 from the open file on: an object and a handle for it. -/
def openHandle (p slot access : Int) : FileResult :=
  let ro := allocObject s.caps .file slot
  if ro.1 < 0 then dropFile s slot ro.2
  else
    let rh := allocHandle ro.2 p ro.1 (fileRights access)
    if rh.1 < 0 then dropFile s slot (freeObject rh.2 ro.1)
    else some (FileAnswer.value (ofInt rh.1), { s with caps := rh.2 })

/-- Syscall 44. -/
def openFile (p : Int) (path : List U8) (access : Int) : FileResult :=
  if p < 0 then some (FileAnswer.value errU64, s)
  else
    match fileObjectOpen s.toOpenFiles path access (s.uid p) with
    | none => none
    | some (slot, files) =>
      let s := { s with toOpenFiles := files }
      if slot < 0 then some (FileAnswer.value (ofInt slot), s) else openHandle s p slot access

/-- The shared head of 45, 46 and 47: the slot the handle names. -/
def fileSlot (p h : Int) (rights : Nat) : Option Int :=
  (lookupHandle s.caps p h rights (some .file)).map fun o => (s.caps.objects o).dataIndex

/-- Write back the slot an operation on an open file changed. -/
def FileState.withFile (slot : Int) (f : OpenFile) : FileState :=
  { s with toOpenFiles := s.toOpenFiles.setFile slot f }

/-- Syscall 45. -/
def readFile (p h : Int) (maxLen : Nat) : FileAnswer × FileState :=
  match fileSlot s p h rightRead with
  | none => (FileAnswer.value errU64, s)
  | some slot =>
    let r := fileObjectRead (s.files slot) maxLen
    ({ result := BitVec.ofNat 64 r.1.length, bytes := r.1, stat := none }, s.withFile slot r.2)

/-- Syscall 46. -/
def writeFile (p h : Int) (buf : Nat → U8) (a3 : U64) : FileAnswer × FileState :=
  match fileSlot s p h rightWrite with
  | none => (FileAnswer.value errU64, s)
  | some slot =>
    let r := fileObjectWrite (s.files slot) (bufBytes buf (a3.toNat % 2 ^ 32))
    (FileAnswer.value (BitVec.ofNat 64 r.1), s.withFile slot r.2)

/-- Syscall 47. -/
def seekFile (p h offset whence : Int) : FileAnswer × FileState :=
  match fileSlot s p h rightRead with
  | none => (FileAnswer.value errU64, s)
  | some slot =>
    let r := fileObjectSeek (s.files slot) offset whence
    (FileAnswer.value (ofInt r.1), s.withFile slot r.2)

/-- Syscall 48. -/
def closeFile (p h : Int) : FileResult :=
  match fileSlot s p h 0 with
  | none => some (FileAnswer.value errU64, s)
  | some slot =>
    (fileObjectClose s.toOpenFiles slot).map fun r =>
      (FileAnswer.status r.1, { toOpenFiles := r.2, caps := closeHandle s.caps p h, uid := s.uid })

/-- Syscall 50. -/
def fsSetOwnerCall (p : Int) (path : List U8) (uid : U8) : FileAnswer × FileState :=
  let r := fsSetOwner s.fs.disk path uid (s.callerUid p)
  (FileAnswer.status r.1, s.withDisk r.2)

/-- Syscall 51. -/
def fsSetModeCall (p : Int) (path : List U8) (mode : U8) : FileAnswer × FileState :=
  let r := fsSetMode s.fs.disk path mode (s.callerUid p)
  (FileAnswer.status r.1, s.withDisk r.2)

/-- Syscall 97. -/
def vfsStatCall (path : List U8) : FileResult :=
  (vfsStat s.fs path).map fun r => ({ FileAnswer.status r.isSome with stat := r }, s)

/-- Syscall 98. -/
def vfsDeleteCall (p : Int) (path : List U8) : FileResult :=
  (vfsDelete s.fs path (s.callerUid p)).map fun r => (FileAnswer.status r.1, { s with fs := r.2 })

/-- A file syscall with its arguments. -/
inductive FileCall
  | read (path : List U8) (maxLen : Nat)
  | write (path : List U8) (buf : Nat → U8) (a3 : U64)
  | rawDelete (path : List U8)
  | open (path : List U8) (access : Int)
  | readHandle (h : Int) (maxLen : Nat)
  | writeHandle (h : Int) (buf : Nat → U8) (a3 : U64)
  | seekHandle (h offset whence : Int)
  | closeHandle (h : Int)
  | setOwner (path : List U8) (uid : U8)
  | setMode (path : List U8) (mode : U8)
  | stat (path : List U8)
  | delete (path : List U8)

def FileCall.path : FileCall → List U8
  | .read path _ | .write path _ _ | .rawDelete path | .open path _ | .setOwner path _ | .setMode path _
  | .stat path | .delete path => path
  | _ => []

/-- One file syscall of process `p`. -/
def FileCall.run (p : Int) : FileCall → FileResult
  | .read path maxLen => vfsReadCall s p path maxLen
  | .write path buf a3 => vfsWriteCall s p path buf a3
  | .rawDelete path => fsDeleteCall s path
  | .open path access => openFile s p path access
  | .readHandle h maxLen => some (readFile s p h maxLen)
  | .writeHandle h buf a3 => some (writeFile s p h buf a3)
  | .seekHandle h offset whence => some (seekFile s p h offset whence)
  | .closeHandle h => closeFile s p h
  | .setOwner path uid => some (fsSetOwnerCall s p path uid)
  | .setMode path mode => some (fsSetModeCall s p path mode)
  | .stat path => vfsStatCall s path
  | .delete path => vfsDeleteCall s p path

/-! ## The handler of the capability tables -/

/-- What 44 does from the open file on, by what it finds of objects and handles. -/
theorem openHandle_eq (s : FileState) (p slot access : Int) : openHandle s p slot access =
    let r := createObject s.caps p .file slot (fileRights access) true
    if r.1 = errU64 then dropFile s slot r.2 else some (FileAnswer.value r.1, { s with caps := r.2 }) := by
  unfold openHandle createObject
  obtain ⟨i, -, -, -, ho⟩ | ⟨-, ho⟩ := allocObject_cases s.caps .file slot
  · have hi : ¬ (i : Int) < 0 := by omega
    obtain ⟨j, -, hj, -, hh⟩ | ⟨-, hh⟩ :=
      allocHandle_cases (s.caps.takeObject i .file slot) p i (fileRights access)
    · have hj0 : ¬ (j : Int) < 0 := by omega
      simp only [ho, hh, if_neg hi, if_neg hj0, if_neg (ofInt_handle_ne hj)]
    · simp only [ho, hh, if_neg hi]
      rfl
  · simp only [ho]
    rfl

end MinicOs
