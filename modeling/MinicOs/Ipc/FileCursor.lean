import MinicOs.Ipc.File

/-!
# The cursor of an open file

`file_object_read`, `file_object_write` and `file_object_seek` (`proc/ipc/file/file.c`) as the machine
computes them: a `u32` cursor and length whose differences may wrap, an `i64` position whose sum may
wrap, and a buffer of which `length` bytes are the file. The abstract file is `OpenFile`, a content
of at most 4096 bytes with a cursor inside it.
-/

namespace MinicOs

/-- The fields of `open_file` that the three calls use. -/
structure FileSlot where
  access : Int
  buffer : Nat → U8
  length : Nat
  cursor : Nat

/-- A call on an open slot, with its `u32` length or `i64` offset. -/
inductive FileOp
  | read (maxLen : Nat)
  | write (data : List U8)
  | seek (offset : U64) (whence : Int)

/-- What a call returns, and the bytes that a read stores. -/
structure CursorAnswer where
  value : Int
  bytes : List U8
deriving DecidableEq

/-- `a - b` on `u32`. -/
def subU32 (a b : Nat) : Nat := (a + 2 ^ 32 - b) % 2 ^ 32

namespace FileSlot

/-- `file_object_read`. -/
def read (s : FileSlot) (maxLen : Nat) : CursorAnswer × FileSlot :=
  let n := min maxLen (subU32 s.length s.cursor)
  (⟨n, slice s.buffer s.cursor n⟩, { s with cursor := (s.cursor + n) % 2 ^ 32 })

/-- `file_object_write`. -/
def write (s : FileSlot) (data : List U8) : CursorAnswer × FileSlot :=
  let n := min data.length (subU32 fileMaxSize s.cursor)
  let cursor := (s.cursor + n) % 2 ^ 32
  (⟨n, []⟩, { s with buffer := overlay s.buffer s.cursor (data.take n), cursor := cursor,
                     length := if cursor > s.length then cursor else s.length })

/-- `file_object_seek`. -/
def seek (s : FileSlot) (offset : U64) (whence : Int) : CursorAnswer × FileSlot :=
  if s.access = fileAccessWronly then (⟨-1, []⟩, s)
  else if whence = 0 ∨ whence = 1 ∨ whence = 2 then
    let base : Nat := if whence = 0 then 0 else if whence = 1 then s.cursor else s.length
    let newPos := (BitVec.ofNat 64 base + offset).toInt
    if newPos < 0 ∨ newPos > s.length then (⟨-1, []⟩, s)
    else (⟨newPos, []⟩, { s with cursor := (newPos % 2 ^ 32).toNat })
  else (⟨-1, []⟩, s)

def step (s : FileSlot) : FileOp → CursorAnswer × FileSlot
  | .read maxLen => s.read maxLen
  | .write data => s.write data
  | .seek offset whence => s.seek offset whence

/-- The slot shows the abstract file. -/
structure Shows (s : FileSlot) (f : OpenFile) : Prop where
  access : s.access = f.access
  content : slice s.buffer 0 s.length = f.content
  cursor : s.cursor = f.cursor

/-- The abstract file of a slot. -/
def file (s : FileSlot) (hc : s.cursor ≤ s.length) (hl : s.length ≤ fileMaxSize) : OpenFile where
  used := true
  access := s.access
  path := []
  content := slice s.buffer 0 s.length
  cursor := s.cursor
  ownerUid := 0
  cursor_le := by rw [length_slice]; exact hc
  length_le := by rw [length_slice]; exact hl
  path_le := OpenFile.unused.path_le

end FileSlot

def OpenFile.step (f : OpenFile) : FileOp → CursorAnswer × OpenFile
  | .read maxLen => let r := fileObjectRead f maxLen; (⟨r.1.length, r.1⟩, r.2)
  | .write data => let r := fileObjectWrite f data; (⟨r.1, []⟩, r.2)
  | .seek offset whence => let r := fileObjectSeek f offset.toInt whence; (⟨r.1, []⟩, r.2)

/-- The answers to a sequence of calls, and the state after them. -/
def answers {σ : Type} (step : σ → FileOp → CursorAnswer × σ) : List FileOp → σ → List CursorAnswer × σ
  | [], s => ([], s)
  | op :: ops, s => ((step s op).1 :: (answers step ops (step s op).2).1, (answers step ops (step s op).2).2)

namespace FileSlot

variable {s : FileSlot} {f : OpenFile}

/-- The bounds of the abstract file, on the slot. -/
theorem Shows.bounds (h : s.Shows f) : s.length = f.content.length ∧ s.cursor ≤ s.length ∧ s.length ≤ 4096 := by
  have hlen : s.length = f.content.length := by rw [← h.content, length_slice]
  exact ⟨hlen, by rw [h.cursor, hlen]; exact f.cursor_le, by rw [hlen]; exact f.length_le⟩

theorem subU32_eq {a b : Nat} (h : b ≤ a) (ha : a ≤ 4096) : subU32 a b = a - b := by
  unfold subU32
  omega

/-- A read takes what the content has at the cursor. -/
theorem Shows.read (h : s.Shows f) (maxLen : Nat) :
    (s.read maxLen).1 = (f.step (.read maxLen)).1 ∧ (s.read maxLen).2.Shows (f.step (.read maxLen)).2 := by
  obtain ⟨hlen, hc, hl⟩ := h.bounds
  have hbytes : slice s.buffer s.cursor (min maxLen (s.length - s.cursor)) =
      (f.content.drop f.cursor).take (min maxLen (f.content.length - f.cursor)) := by
    rw [← h.content, ← h.cursor, drop_slice, take_slice, length_slice, Nat.min_assoc, Nat.min_self, Nat.zero_add]
  unfold FileSlot.read
  rw [subU32_eq hc hl]
  refine ⟨?_, h.access, h.content, ?_⟩
  · simp only [OpenFile.step, fileObjectRead, ← hbytes, length_slice]
  · show (s.cursor + _) % 2 ^ 32 = f.cursor + min maxLen (f.content.length - f.cursor)
    rw [Nat.mod_eq_of_lt (by omega), h.cursor, hlen]

/-- What a slot shows after bytes were written inside it. -/
theorem slice_write (b : Nat → U8) {len c : Nat} (bytes : List U8) (hc : c ≤ len) :
    slice (overlay b c bytes) 0 (max len (c + bytes.length)) =
      (slice b 0 len).take c ++ bytes ++ (slice b 0 len).drop (c + bytes.length) := by
  rw [show max len (c + bytes.length) = c + bytes.length + (len - (c + bytes.length)) by omega]
  simp (disch := omega) only [slice_add, take_slice, drop_slice, Nat.min_eq_left, Nat.zero_add, slice_overlay_self,
    slice_overlay_of_disjoint]

/-- A write replaces what the content has at the cursor, and extends it. -/
theorem Shows.write (h : s.Shows f) (data : List U8) :
    (s.write data).1 = (f.step (.write data)).1 ∧ (s.write data).2.Shows (f.step (.write data)).2 := by
  obtain ⟨-, hc, hl⟩ := h.bounds
  rw [h.cursor] at hc
  have hspace : subU32 fileMaxSize f.cursor = fileMaxSize - f.cursor := subU32_eq (hc.trans hl) (le_refl _)
  have hshown := slice_write s.buffer (data.take (min data.length (fileMaxSize - f.cursor))) hc
  rw [List.length_take_of_le (Nat.min_le_left _ _), h.content, max_def_lt] at hshown
  have hmod : (f.cursor + min data.length (fileMaxSize - f.cursor)) % 2 ^ 32 =
      f.cursor + min data.length (fileMaxSize - f.cursor) := Nat.mod_eq_of_lt (by unfold fileMaxSize; omega)
  unfold FileSlot.write
  simp only [h.cursor, hspace, hmod]
  exact ⟨rfl, h.access, hshown, rfl⟩

/-- The position of `file_object_seek` is in range exactly if the sum without the wrap is. -/
theorem seek_eq {base len : Nat} {offset : U64} (hb : base ≤ len) (hl : len ≤ 4096) :
    (BitVec.ofNat 64 base + offset).toInt = base + offset.toInt ∨
      (¬ base + offset.toInt ≤ len ∧ (BitVec.ofNat 64 base + offset).toInt < 0) := by
  rw [BitVec.toInt_add, BitVec.toInt_eq_toNat_of_lt (by rw [BitVec.toNat_ofNat]; omega), BitVec.toNat_ofNat,
    Int.bmod_def]
  have := offset.toInt_lt
  have := offset.le_toInt
  omega

/-- A seek moves the cursor within the content, or fails. -/
theorem Shows.seek (h : s.Shows f) (offset : U64) (whence : Int) :
    (s.seek offset whence).1 = (f.step (.seek offset whence)).1 ∧
      (s.seek offset whence).2.Shows (f.step (.seek offset whence)).2 := by
  obtain ⟨hlen, hc, hl⟩ := h.bounds
  unfold FileSlot.seek OpenFile.step fileObjectSeek
  simp only [h.access]
  by_cases hw : f.access = fileAccessWronly
  · simp only [if_pos hw, true_and]
    exact h
  by_cases hwhence : whence = 0 ∨ whence = 1 ∨ whence = 2
  swap
  · simp only [if_neg hw, if_neg hwhence, true_and]
    exact h
  simp only [if_neg hw, if_pos hwhence]
  generalize hbase : (if whence = 0 then 0 else if whence = 1 then s.cursor else s.length) = base
  obtain ⟨hB, hle⟩ : (if whence = 0 then 0 else if whence = 1 then (f.cursor : Int) else f.content.length) = base ∧
      base ≤ s.length := by
    rw [← hbase, ← h.cursor, ← hlen]
    split
    · simp
    · split <;> simp [hc]
  have hpos := @seek_eq base s.length offset hle hl
  by_cases hin : 0 ≤ base + offset.toInt ∧ base + offset.toInt ≤ (s.length : Int)
  · rw [hpos.resolve_right fun hno => hno.1 hin.2, if_neg (by omega), dif_pos (by rw [hB, ← hlen]; exact hin)]
    refine ⟨by simp only [hB], rfl, h.content, ?_⟩
    simp only [hB]
    omega
  · rw [if_pos (by omega), dif_neg (by rw [hB, ← hlen]; exact hin)]
    exact ⟨rfl, h⟩

/-- **A call answers as the abstract file does.** -/
theorem Shows.step (h : s.Shows f) (op : FileOp) : (s.step op).1 = (f.step op).1 ∧ (s.step op).2.Shows (f.step op).2 := by
  cases op with
  | read maxLen => exact h.read maxLen
  | write data => exact h.write data
  | seek offset whence => exact h.seek offset whence

theorem Shows.answers : ∀ (ops : List FileOp) {s : FileSlot} {f : OpenFile}, s.Shows f →
    (MinicOs.answers FileSlot.step ops s).1 = (MinicOs.answers OpenFile.step ops f).1 ∧
      (MinicOs.answers FileSlot.step ops s).2.Shows (MinicOs.answers OpenFile.step ops f).2
  | [], _, _, h => ⟨rfl, h⟩
  | op :: ops, _, _, h => by
    obtain ⟨hval, hnext⟩ := h.step op
    obtain ⟨hvals, hend⟩ := Shows.answers ops hnext
    exact ⟨congrArg₂ List.cons hval hvals, hend⟩

end FileSlot

/-- **Open files are seekable byte arrays**: on a slot as `file_object_open` leaves it, every sequence of
reads, writes and seeks answers as the abstract file does; the slot then shows that file, with its
cursor inside the length and the length inside the buffer. -/
theorem fileSlot_refines (s : FileSlot) (hc : s.cursor ≤ s.length) (hl : s.length ≤ fileMaxSize) (ops : List FileOp) :
    (answers FileSlot.step ops s).1 = (answers OpenFile.step ops (s.file hc hl)).1 ∧
      (answers FileSlot.step ops s).2.Shows (answers OpenFile.step ops (s.file hc hl)).2 ∧
      (answers FileSlot.step ops s).2.cursor ≤ (answers FileSlot.step ops s).2.length ∧
      (answers FileSlot.step ops s).2.length ≤ fileMaxSize := by
  obtain ⟨hvalues, hshows⟩ := @FileSlot.Shows.answers ops s (s.file hc hl) ⟨rfl, rfl, rfl⟩
  exact ⟨hvalues, hshows, hshows.bounds.2⟩

/-- A slot opened for reading and writing on a new file. -/
def newSlot : FileSlot := { access := fileAccessRdwr, buffer := fun _ => 0, length := 0, cursor := 0 }

/-- Three bytes are written; a seek by `2 ^ 63 - 1` from the cursor wraps and fails; one to two before
the end lets the last two be read. -/
def newSlotOps : List FileOp :=
  [.write [7, 8, 9], .seek (BitVec.ofNat 64 (2 ^ 63 - 1)) 1, .seek (-2) 2, .read 9]

theorem fileSlot_refines_new : (answers OpenFile.step newSlotOps (newSlot.file (by decide) (by decide))).1 =
    [⟨3, []⟩, ⟨-1, []⟩, ⟨1, []⟩, ⟨2, [8, 9]⟩] :=
  (fileSlot_refines newSlot (by decide) (by decide) newSlotOps).1.symm.trans (by decide +kernel)

end MinicOs
