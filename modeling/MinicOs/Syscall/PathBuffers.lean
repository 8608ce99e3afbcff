import MinicOs.Ipc.FileCommit
import MinicOs.Syscall.Files
import MinicOs.Proc.Boot

/-!
# The buffers a path is copied to

The stores of `combine_backend_path` (200 bytes), `strip_system_prefix` (128 bytes) and the path of an
open file (128 bytes) in the calls of `Syscall/Files.lean` and in the listing, syscall 37. Only the last
of the three loops has a bound, and it cuts the path off without a word.
-/

namespace MinicOs

open List FileCall

/-- A byte stored in a buffer of some size, at some index. -/
structure Store where
  size : Nat
  index : Nat

/-- The indices of a copy loop that begins at `i`. -/
def copyIndices (i : Nat) : List U8 → List Nat
  | [] => []
  | _ :: src => i :: copyIndices (i + 1) src

/-- The stores of `combine_backend_path` into its callers' 200 bytes. -/
def combineStores (root rest : List U8) : List Store :=
  let sep := if root ≠ [] ∧ rest ≠ [] then [root.length] else []
  let i := root.length + sep.length
  (copyIndices 0 root ++ sep ++ copyIndices i rest ++ [i + rest.length]).map (Store.mk 200)

/-- The stores of `strip_system_prefix` into its callers' 128 bytes. -/
def stripStores (path : List U8) : List Store :=
  (copyIndices 0 (stripSystemPrefix path) ++ [(stripSystemPrefix path).length]).map (Store.mk 128)

/-- The stores into the path of an open file: the loop stops at 127. -/
def recordStores (path : List U8) : List Store :=
  (copyIndices 0 (path.take 127) ++ [(path.take 127).length]).map (Store.mk 128)

/-- The stores of an entry point of the VFS, the same for all of them: the listing's empty path has no
mount. -/
def vfsStores (path : List U8) : List Store :=
  match vfsFindMount path with
  | none => []
  | some m => if m.backend = .minifs then combineStores m.backendRoot (vfsStrip path m) else []

def closeStores (f : OpenFile) : List Store :=
  if f.access = fileAccessRdonly then []
  else (if inSystemMount f.path = true then stripStores f.path else []) ++ vfsStores f.path

def openStores (s : OpenFiles) (path : List U8) (access : Int) (callerUid : U8) : List Store :=
  (if inSystemMount path = true then stripStores path else []) ++
    if inSystemMount path = true ∧
      openDenied s.fs.disk (stripSystemPrefix path) access callerUid = true then []
    else
      match s.freeSlot with
      | none => []
      | some _ => recordStores path ++ if access = fileAccessWronly then [] else vfsStores path

/-- The stores of syscall 44. An open that gets no object or no handle closes its file. -/
def openCallStores (s : FileState) (p : Int) (path : List U8) (access : Int) : List Store :=
  if p < 0 then []
  else openStores s.toOpenFiles path access (s.uid p) ++
    match fileObjectOpen s.toOpenFiles path access (s.uid p) with
    | none => []
    | some (slot, files) =>
      if 0 ≤ slot ∧ (createObject s.caps p .file slot (fileRights access) true).1 = errU64 then
        closeStores (files.files slot)
      else []

/-- The stores of syscall 48. -/
def closeCallStores (s : FileState) (p h : Int) : List Store :=
  match fileSlot s p h 0 with
  | none => []
  | some slot => closeStores (s.files slot)

/-- The stores of a call of process `p`. -/
def FileCall.stores (s : FileState) (p : Int) : FileCall → List Store
  | .read path _ | .write path _ _ | .stat path | .delete path => vfsStores path
  | .open path access => openCallStores s p path access
  | .closeHandle h => closeCallStores s p h
  | .readHandle _ _ | .writeHandle _ _ _ | .seekHandle _ _ _ | .rawDelete _ | .setOwner _ _ | .setMode _ _ => []

def FileCall.number : FileCall → Nat
  | .read _ _ => 4
  | .write _ _ _ => 5
  | .rawDelete _ => 38
  | .open _ _ => 44
  | .readHandle _ _ => 45
  | .writeHandle _ _ _ => 46
  | .seekHandle _ _ _ => 47
  | .closeHandle _ => 48
  | .setOwner _ _ => 50
  | .setMode _ _ => 51
  | .stat _ => 97
  | .delete _ => 98

/-! ## A safe call -/

/-- Every store is within its buffer. -/
def InBounds (l : List Store) : Prop := ∀ st ∈ l, st.index < st.size

/-- The path does not fit where the call has to keep it. -/
def FileCall.TooLong : FileCall → Prop
  | .read path _ | .write path _ _ | .stat path | .delete path =>
    ∃ full, minifsPath path = some full ∧ 200 ≤ full.length
  | .open path _ => 128 ≤ path.length
  | _ => False

/-- The call comes back with `-1` or `-2`. -/
def FileCall.Fails (s : FileState) (p : Int) (c : FileCall) : Prop :=
  ∃ a s', c.run s p = some (a, s') ∧ (a.result = errU64 ∨ a.result = ofInt (-2))

/-- No buffer is overrun, and a path that does not fit makes the call fail. -/
def FileCall.Safe (s : FileState) (p : Int) (c : FileCall) : Prop :=
  InBounds (c.stores s p) ∧ (c.TooLong → c.Fails s p)

/-- Every call of the number with the path is safe, in any state and with any other arguments. The
listing is not among the calls of the model; its stores are those of the VFS. -/
def PathSafe (num : Nat) (path : List U8) : Prop :=
  (∀ s p c, FileCall.number c = num → c.path = path → c.Safe s p) ∧ (num = 37 → InBounds (vfsStores path))

section Bounds

variable {path full root rest : List U8}

theorem copyIndices_eq (i : Nat) (src : List U8) : copyIndices i src = range' i src.length := by
  induction src generalizing i with
  | nil => rfl
  | cons b src ih => rw [copyIndices, ih, length_cons, range'_succ]

/-- A copy with its terminator is within the buffer exactly if the text is shorter. -/
theorem inBounds_range {n size : Nat} : InBounds ((range' 0 n ++ [n]).map (Store.mk size)) ↔ n < size := by
  constructor
  · intro h
    exact h ⟨size, n⟩ (by simp)
  · intro h st hst
    obtain ⟨i, hi, rfl⟩ := mem_map.mp hst
    simp only [mem_append, mem_range'_1, mem_singleton] at hi
    show i < size
    omega

theorem inBounds_append {l l' : List Store} : InBounds (l ++ l') ↔ InBounds l ∧ InBounds l' := by
  simp only [InBounds, mem_append, or_imp, forall_and]

theorem inBounds_nil : InBounds [] := fun _ h => absurd h (by simp)

theorem combineStores_eq (root rest : List U8) : combineStores root rest =
    (range' 0 (fullPath root rest).length ++ [(fullPath root rest).length]).map (Store.mk 200) := by
  unfold combineStores fullPath
  simp only [copyIndices_eq]
  congr 1
  split
  · have hsplit : range' 0 (root ++ [slash] ++ rest).length =
        range' 0 root.length ++ [root.length] ++ range' (root.length + 1) rest.length := by
      simp only [length_append, length_singleton]
      rw [range'_append_1.symm, range'_append_1.symm]
      simp
    rw [hsplit]
    simp only [length_append, length_singleton]
  · have hsplit : range' 0 (root ++ [] ++ rest).length =
        range' 0 root.length ++ range' root.length rest.length := by
      simp only [append_nil, length_append]
      rw [range'_append_1.symm]
      simp
    rw [hsplit]
    simp

theorem inBounds_combineStores : InBounds (combineStores root rest) ↔ (fullPath root rest).length < 200 := by
  rw [combineStores_eq, inBounds_range]

theorem inBounds_stripStores : InBounds (stripStores path) ↔ (stripSystemPrefix path).length < 128 := by
  unfold stripStores
  rw [copyIndices_eq, inBounds_range]

theorem inBounds_recordStores (path : List U8) : InBounds (recordStores path) := by
  unfold recordStores
  rw [copyIndices_eq, inBounds_range, length_take]
  omega

theorem inBounds_vfsStores : InBounds (vfsStores path) ↔ ∀ full, minifsPath path = some full → full.length < 200 := by
  unfold vfsStores minifsPath
  cases vfsFindMount path with
  | none => simp [inBounds_nil]
  | some m =>
    by_cases hb : m.backend = .minifs
    · simp [hb, inBounds_combineStores]
    · simp [hb, inBounds_nil]

/-! ## Short paths -/

theorem inBounds_vfsStores_of_short (h : path.length ≤ 127) : InBounds (vfsStores path) :=
  inBounds_vfsStores.mpr fun _ hfull => by
    have := minifsPath_length hfull
    omega

theorem inBounds_stripStores_of_short (h : path.length ≤ 127) : InBounds (stripStores path) :=
  inBounds_stripStores.mpr (by have := stripSystemPrefix_length_le path; omega)

/-- A close stays within its buffers: the path it works on is the recorded one. -/
theorem inBounds_closeStores (f : OpenFile) : InBounds (closeStores f) := by
  unfold closeStores
  split
  · exact inBounds_nil
  · refine inBounds_append.mpr ⟨?_, inBounds_vfsStores_of_short f.path_le⟩
    split
    · exact inBounds_stripStores_of_short f.path_le
    · exact inBounds_nil

theorem inBounds_openStores_of_short {s : OpenFiles} {access : Int} {callerUid : U8} (h : path.length ≤ 127) :
    InBounds (openStores s path access callerUid) := by
  unfold openStores
  refine inBounds_append.mpr ⟨?_, ?_⟩
  · split
    · exact inBounds_stripStores_of_short h
    · exact inBounds_nil
  · split
    · exact inBounds_nil
    · split
      · exact inBounds_nil
      · refine inBounds_append.mpr ⟨inBounds_recordStores path, ?_⟩
        split
        · exact inBounds_nil
        · exact inBounds_vfsStores_of_short h

/-- **A call** overruns nothing if a path of the VFS stands for less than 200 characters of MiniFS and
an opened one has less than 128. -/
theorem inBounds_stores {s : FileState} {p : Int} {c : FileCall}
    (hvfs : c.number ∈ [4, 5, 97, 98] → ∀ full, minifsPath c.path = some full → full.length < 200)
    (hopen : c.number = 44 → c.path.length ≤ 127) : InBounds (c.stores s p) := by
  cases c with
  | read path n => exact inBounds_vfsStores.mpr (hvfs (by simp [number]))
  | write path buf a3 => exact inBounds_vfsStores.mpr (hvfs (by simp [number]))
  | stat path => exact inBounds_vfsStores.mpr (hvfs (by simp [number]))
  | delete path => exact inBounds_vfsStores.mpr (hvfs (by simp [number]))
  | «open» path access =>
    show InBounds (openCallStores s p path access)
    unfold openCallStores
    split
    · exact inBounds_nil
    · refine inBounds_append.mpr ⟨inBounds_openStores_of_short (hopen rfl), ?_⟩
      split
      · exact inBounds_nil
      · split
        · exact inBounds_closeStores _
        · exact inBounds_nil
  | closeHandle h =>
    show InBounds (closeCallStores s p h)
    unfold closeCallStores
    split
    · exact inBounds_nil
    · exact inBounds_closeStores _
  | _ => exact inBounds_nil

/-! ## Long paths -/

/-- A state with every file slot, object and handle free, under root. -/
def idleFiles : FileState where
  fs := FileSystems.ofDisk (mkfs fun _ => zeroSector)
  files := fun _ => OpenFile.unused
  caps := bootCaps
  uid := fun _ => 0

/-- Opened for writing there, any path that does not overrun the first buffer gets a handle. -/
theorem idleFiles_open (h : inSystemMount path = true → (stripSystemPrefix path).length < 128) :
    ∃ s', (FileCall.open path fileAccessWronly).run idleFiles 0 = some (FileAnswer.value 0, s') := by
  have hslot : idleFiles.toOpenFiles.freeSlot = some 0 := rfl
  have hlong : ¬ (inSystemMount path = true ∧ 128 ≤ (stripSystemPrefix path).length) :=
    fun ⟨hsys, hle⟩ => absurd (h hsys) (Nat.not_lt.mpr hle)
  have hdenied : ¬ (inSystemMount path = true ∧ openDenied idleFiles.fs.disk (stripSystemPrefix path)
      fileAccessWronly (idleFiles.uid 0) = true) := by
    rintro ⟨-, hd⟩
    unfold openDenied at hd
    split at hd
    · simp at hd
    · simp [idleFiles] at hd
  have hopen : fileObjectOpen idleFiles.toOpenFiles path fileAccessWronly (idleFiles.uid 0) =
      idleFiles.toOpenFiles.fill 0 path fileAccessWronly (idleFiles.uid 0) := by
    unfold fileObjectOpen
    rw [if_neg hlong, if_neg hdenied, hslot]
  have hcreate : (createObject bootCaps 0 .file 0 (fileRights fileAccessWronly) true).1 = 0 := by decide +kernel
  show ∃ s', openFile idleFiles 0 path fileAccessWronly = _
  unfold openFile
  rw [if_neg (by decide), hopen]
  simp only [OpenFiles.fill, if_pos]
  rw [if_neg (by decide), openHandle_eq]
  have hcaps : idleFiles.caps = bootCaps := rfl
  simp only [hcaps, Nat.cast_zero, hcreate]
  exact ⟨_, rfl⟩

/-- An open that is safe in every state is of a path the record holds. -/
theorem length_le_of_open_safe (h : ∀ s p access, (FileCall.open path access).Safe s p) : path.length ≤ 127 := by
  by_contra hlen
  obtain ⟨hstores, hfails⟩ := h idleFiles 0 fileAccessWronly
  have hstrip : inSystemMount path = true → (stripSystemPrefix path).length < 128 := by
    intro hsys
    change InBounds (openCallStores idleFiles 0 path fileAccessWronly) at hstores
    unfold openCallStores openStores at hstores
    rw [if_neg (by decide), if_pos hsys] at hstores
    exact inBounds_stripStores.mp (inBounds_append.mp (inBounds_append.mp hstores).1).1
  obtain ⟨s', hrun⟩ := idleFiles_open hstrip
  obtain ⟨a, s'', hrun', hres⟩ := hfails (show 128 ≤ path.length by omega)
  obtain ⟨rfl, -⟩ := Prod.mk.inj (Option.some.inj (hrun.symm.trans hrun'))
  exact absurd hres (by decide)

/-- **Paths from ring 3.** The calls of a number are safe for a path in every state exactly if, for a
call of the VFS, the path stands for less than 200 characters of MiniFS, and for an open it has less
than 128. -/
theorem pathSafe_iff (num : Nat) (path : List U8) : PathSafe num path ↔
    (num ∈ [4, 5, 37, 97, 98] → ∀ full, minifsPath path = some full → full.length < 200) ∧
      (num = 44 → path.length ≤ 127) := by
  constructor
  · rintro ⟨hall, hlist⟩
    constructor
    · intro hnum
      simp only [mem_cons, not_mem_nil, or_false] at hnum
      rcases hnum with rfl | rfl | rfl | rfl | rfl
      · exact inBounds_vfsStores.mp (hall idleFiles 0 (.read path 0) rfl rfl).1
      · exact inBounds_vfsStores.mp (hall idleFiles 0 (.write path (fun _ => 0) 0) rfl rfl).1
      · exact inBounds_vfsStores.mp (hlist rfl)
      · exact inBounds_vfsStores.mp (hall idleFiles 0 (.stat path) rfl rfl).1
      · exact inBounds_vfsStores.mp (hall idleFiles 0 (.delete path) rfl rfl).1
    · rintro rfl
      exact length_le_of_open_safe fun s p access => hall s p (.open path access) rfl rfl
  · rintro ⟨hvfs, hopen⟩
    refine ⟨?_, fun h37 => inBounds_vfsStores.mpr (hvfs (by simp [h37]))⟩
    rintro s p c rfl rfl
    have hvfs' : c.number ∈ [4, 5, 97, 98] → ∀ full, minifsPath c.path = some full → full.length < 200 :=
      fun hmem => hvfs (by simp only [mem_cons, not_mem_nil, or_false] at hmem ⊢; omega)
    refine ⟨inBounds_stores hvfs' hopen, fun hlong => ?_⟩
    -- a path that is safe to copy is never too long
    have hfits : ∀ {P : Prop}, c.number ∈ [4, 5, 97, 98] →
        (∃ full, minifsPath c.path = some full ∧ 200 ≤ full.length) → P := fun hmem ⟨full, h, hle⟩ =>
      absurd (hvfs' hmem full h) (Nat.not_lt.mpr hle)
    cases c with
    | read path n => exact hfits (by simp [number]) hlong
    | write path buf a3 => exact hfits (by simp [number]) hlong
    | stat path => exact hfits (by simp [number]) hlong
    | delete path => exact hfits (by simp [number]) hlong
    | «open» path access => exact absurd (hopen rfl) (Nat.not_le.mpr hlong)
    | _ => exact absurd hlong id

/-- A read of `/system/` and 200 more characters writes behind the buffer in any state, and `/temp/`
with 122 more opens as if it were the file named by all but its last character. -/
theorem not_pathSafe_long :
    (∀ s p, ¬ InBounds ((FileCall.read (systemPoint ++ slash :: List.replicate 200 0x61) 0).stores s p)) ∧
      ∃ s', (FileCall.open ([0x2f, 0x74, 0x65, 0x6d, 0x70, 0x2f] ++ List.replicate 122 0x61)
        fileAccessWronly).run idleFiles 0 = some (FileAnswer.value 0, s') := by
  constructor
  · intro s p h
    have hpath : minifsPath (systemPoint ++ slash :: List.replicate 200 0x61) = some (List.replicate 200 0x61) := by
      decide +kernel
    have hstores : InBounds (vfsStores (systemPoint ++ slash :: List.replicate 200 0x61)) := h
    have hlen := inBounds_vfsStores.mp hstores _ hpath
    rw [length_replicate] at hlen
    exact absurd hlen (lt_irrefl 200)
  · exact idleFiles_open fun hsys => absurd hsys (by decide)

end Bounds

end MinicOs
