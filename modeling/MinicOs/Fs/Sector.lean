import MinicOs.Lib.LittleEndian
import MinicOs.Lib.Overlay
import MinicOs.Lib.Scan
import MinicOs.Mm.Word
import Mathlib.Data.List.TakeWhile

/-!
# Directory sectors

A sector of MiniFS (`kernel/fs/minifs/minifs.c`) as bytes, and a directory sector as sixteen
`dir_entry` records of 32 bytes: name (20), `start_lba` (4), `size_bytes` (4), `used`, `is_dir`,
`owner_uid` and `mode` (1 each). A C string is the list of its characters, without the terminating NUL.
-/

namespace MinicOs

open List

/-- A sector of 512 bytes. -/
abbrev Sector := Nat → U8

/-- The C string at the start of some bytes. -/
def cstr (bs : List U8) : List U8 := bs.takeWhile (· ≠ 0)

/-- `copy_name`: at most 19 characters, filled up with NULs to 20. -/
def copyName (src : List U8) : List U8 :=
  src.take 19 ++ List.replicate (20 - (src.take 19).length) 0

/-- `dir_entry`; the name as a C string. -/
structure DirEntry where
  name : List U8
  startLba : Nat
  sizeBytes : Nat
  used : Bool
  isDir : Bool
  ownerUid : U8
  mode : U8

/-- `entries[i]`. -/
def entryAt (s : Sector) (i : Nat) : DirEntry where
  name := cstr (slice s (32 * i) 20)
  startLba := readU32 (slice s (32 * i + 20) 4)
  sizeBytes := readU32 (slice s (32 * i + 24) 4)
  used := s (32 * i + 28) != 0
  isDir := s (32 * i + 29) != 0
  ownerUid := s (32 * i + 30)
  mode := s (32 * i + 31)

/-- `entries[i].used = false`. -/
def clearUsed (s : Sector) (i : Nat) : Sector := overlay s (32 * i + 28) [0]

/-- `entries[i].owner_uid = uid`. -/
def setOwnerUid (s : Sector) (i : Nat) (uid : U8) : Sector := overlay s (32 * i + 30) [uid]

/-- `entries[i].mode = mode`. -/
def setMode (s : Sector) (i : Nat) (mode : U8) : Sector := overlay s (32 * i + 31) [mode]

/-- The assignments that fill a free entry, with `owner_uid` and `mode` zero. -/
def fillEntry (s : Sector) (i : Nat) (name : List U8) (startLba sizeBytes : Nat) (isDir : Bool) : Sector :=
  let s := overlay s (32 * i) (copyName name)
  let s := overlay s (32 * i + 20) (writeU32 startLba)
  let s := overlay s (32 * i + 24) (writeU32 sizeBytes)
  let s := overlay s (32 * i + 28) [1]
  let s := overlay s (32 * i + 29) [if isDir = true then 1 else 0]
  let s := overlay s (32 * i + 30) [0]
  overlay s (32 * i + 31) [0]

def findEntry (s : Sector) (name : List U8) : Option Nat :=
  scan 16 fun i => (entryAt s i).used && (entryAt s i).name == name

/-- The search for a free slot in `fs_write_file` and `fs_create_dir`. -/
def freeSlot (s : Sector) : Option Nat := scan 16 fun i => !(entryAt s i).used

/-! ## Names -/

@[simp] theorem length_copyName (src : List U8) : (copyName src).length = 20 := by
  unfold copyName
  rw [length_append, length_replicate]
  have := length_take_le 19 src
  omega

theorem cstr_copyName {src : List U8} (h : (0 : U8) ∉ src) : cstr (copyName src) = src.take 19 := by
  have hall : ∀ c ∈ src.take 19, (decide (c ≠ 0)) = true := fun c hc => by
    have hmem := mem_of_mem_take hc
    simp only [decide_eq_true_eq]
    rintro rfl
    exact h hmem
  have hlen := length_take_le 19 src
  obtain ⟨k, hk⟩ : ∃ k, 20 - (src.take 19).length = k + 1 := ⟨19 - (src.take 19).length, by omega⟩
  unfold cstr copyName
  rw [takeWhile_append_of_pos hall, hk, replicate_succ]
  simp

/-! ## Entries -/

section Entries

variable {s : Sector} {i j : Nat}

/-- A write inside one entry leaves the others alone. -/
theorem entryAt_overlay_ne {k : Nat} {l : List U8} (hij : j ≠ i) (hk : k + l.length ≤ 32) :
    entryAt (overlay s (32 * i + k) l) j = entryAt s j := by
  unfold entryAt
  simp (disch := omega) only [slice_overlay_of_disjoint, overlay_of_disjoint]

theorem entryAt_clearUsed : entryAt (clearUsed s i) j =
    if j = i then { entryAt s i with used := false } else entryAt s j := by
  unfold clearUsed
  split
  · subst j
    have h1 : ([0] : List U8).length = 1 := rfl
    unfold entryAt
    simp (disch := omega) only [slice_overlay_of_disjoint, overlay_of_disjoint, overlay_singleton_self]
    rfl
  · exact entryAt_overlay_ne ‹_› (by simp)

theorem entryAt_setOwnerUid {uid : U8} : entryAt (setOwnerUid s i uid) j =
    if j = i then { entryAt s i with ownerUid := uid } else entryAt s j := by
  unfold setOwnerUid
  split
  · subst j
    have h1 : ([uid] : List U8).length = 1 := rfl
    unfold entryAt
    simp (disch := omega) only [slice_overlay_of_disjoint, overlay_of_disjoint, overlay_singleton_self]
  · exact entryAt_overlay_ne ‹_› (by simp)

theorem entryAt_setMode {mode : U8} : entryAt (setMode s i mode) j =
    if j = i then { entryAt s i with mode := mode } else entryAt s j := by
  unfold setMode
  split
  · subst j
    unfold entryAt
    simp (disch := omega) only [slice_overlay_of_disjoint, overlay_of_disjoint, overlay_singleton_self]
  · exact entryAt_overlay_ne ‹_› (by simp)

theorem entryAt_fillEntry {name : List U8} {startLba sizeBytes : Nat} {isDir : Bool} (hname : (0 : U8) ∉ name) :
    entryAt (fillEntry s i name startLba sizeBytes isDir) j = if j = i then
        { name := name.take 19, startLba := startLba % 2 ^ 32, sizeBytes := sizeBytes % 2 ^ 32,
          used := true, isDir := isDir, ownerUid := 0, mode := 0 }
      else entryAt s j := by
  unfold fillEntry
  by_cases hij : j = i
  · subst j
    have h20 := length_copyName name
    have hself : ∀ (s : Sector) (o n : Nat), readU32 (slice (overlay s o (writeU32 n)) o 4) = n % 2 ^ 32 :=
      fun s o n => by
        exact (congrArg (fun l => readU32 (l ++ [])) (slice_overlay_self _ _ (writeU32 n))).trans
          (readU32_writeU32_append _ _)
    have hcopy : slice (overlay s (32 * i) (copyName name)) (32 * i) 20 = copyName name := by
      conv_lhs => rw [← h20, slice_overlay_self]
    unfold entryAt
    simp (disch := omega) only [slice_overlay_of_disjoint, overlay_of_disjoint, overlay_singleton_self, hself, hcopy,
      cstr_copyName hname]
    cases isDir <;> rfl
  · rw [if_neg hij]
    have h0 := @entryAt_overlay_ne s i j 0 (copyName name) hij (by simp)
    rw [Nat.add_zero] at h0
    simp (disch := simp [writeU32]) only [entryAt_overlay_ne hij, h0]

/-- **What `find_entry` finds**: a used entry of that name. -/
theorem used_of_findEntry {name : List U8} (h : findEntry s name = some i) :
    i < 16 ∧ (entryAt s i).used = true ∧ (entryAt s i).name = name := by
  obtain ⟨hi, hp, -⟩ := scan_eq_some.mp h
  simpa [hi] using hp

theorem findEntry_eq_none {name : List U8} : findEntry s name = none ↔
    ∀ i, i < 16 → ¬ ((entryAt s i).used = true ∧ (entryAt s i).name = name) := by
  unfold findEntry
  rw [scan_eq_none]
  refine forall₂_congr fun i _ => ?_
  simp

theorem freeSlot_eq_some : freeSlot s = some i ↔
    i < 16 ∧ (entryAt s i).used = false ∧ ∀ j, j < i → (entryAt s j).used = true := by
  unfold freeSlot
  rw [scan_eq_some]
  simp

theorem freeSlot_eq_none : freeSlot s = none ↔ ∀ i, i < 16 → (entryAt s i).used = true := by
  unfold freeSlot
  rw [scan_eq_none]
  simp

end Entries

end MinicOs
