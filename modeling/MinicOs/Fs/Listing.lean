import MinicOs.Fs.Devices
import MinicOs.Fs.Mounts

/-!
# Directory listings

Model of `vfs_list_entry` and of the listings of the backends behind it: the entry of an index, with
the bytes stored at `name_out`, terminator and padding included. `none` stands for a call that does not
come back in a defined state, as in `Fs/Vfs.lean`.
-/

namespace MinicOs

open List Option

/-- A listed entry: the bytes of `name_out`, the size and `is_dir`. -/
abbrev Listed := List U8 × Nat × Bool

/-- `copy_name` of MiniFS: 19 characters, filled up to 20. -/
def paddedName (name : List U8) : List U8 :=
  let kept := name.take 19
  kept ++ List.replicate (20 - kept.length) 0

def fsListEntry (d : Disk) (dirPath : List U8) (index : Int) : Option Listed :=
  match walkDirs d rootLba (splitPath dirPath) with
  | none => none
  | some lba =>
    let e := entryAt (d lba) index.toNat
    if index < 0 ∨ 16 ≤ index ∨ e.used = false then none else some (paddedName e.name, e.sizeBytes, e.isDir)

def tmpfsListEntry (t : Tmpfs) (index : Int) : Option Listed :=
  let e := t index.toNat
  if index < 0 ∨ (tmpfsSlots : Int) ≤ index ∨ e.used = false then none
  else some (e.name.take 19 ++ [0], e.content.length, false)

variable (k : LiveState)

def procfsListEntry (index : Int) : Option Listed :=
  if index < 0 ∨ (maxProcesses : Int) ≤ index ∨ (k.processes index.toNat).used = false then none
  else some (asciiBytes ['p', 'r', 'o', 'c'] ++ [BitVec.ofInt 8 (0x30 + index % 10), 0], 0, false)

def devfsListEntry (subpath : List U8) (index : Int) : Option Listed :=
  if subpath = [] then
    if index = 0 then some (asciiBytes ['t', 'i', 'c', 'k', 's'] ++ [0], 0, false)
    else if index = 1 then some (asciiBytes ['p', 'c', 'i'] ++ [0], 0, true)
    else if index = 2 then some (asciiBytes ['p', 'l', 'a', 't', 'f', 'o', 'r', 'm'] ++ [0], 0, true)
    else if index = 3 then some (asciiBytes ['i', 'n', 'p', 'u', 't'] ++ [0], 0, true)
    else none
  else
    match categoryForSubpath subpath with
    | none => none
    | some category => (k.getInCategory category index).map fun d => (sanitizeName d.name ++ [0], 0, false)

/-- `list_mount_entries`: the leading separator is left out. -/
def listMountEntries (t : List Mount) (index : Int) : Option Listed :=
  if index < 0 then none else t[index.toNat]?.map fun m => (m.point.tail ++ [0], 0, true)

def entryToDisplayName (s : Sector) (off : Nat) : List U8 :=
  let ext := slice s (off + 8) 3
  (slice s off 8).takeWhile (· ≠ 0x20) ++
    (if s (off + 8) ≠ 0x20 then 0x2e :: ext.takeWhile (· ≠ 0x20) else []) ++ [0]

/-- The loop of `fat32_list_entry` over slots, with the number of entries seen. -/
def listSlots (d : Disk) (index : Int) : List (Nat × Nat) → Nat → FatScan × Nat
  | [], seen => (.more, seen)
  | (lba, off) :: slots, seen =>
    if d lba off = 0 then (.atEnd, seen)
    else if liveSlot (d lba) off = true then
      if (seen : Int) = index then (.found lba off, seen) else listSlots d index slots (seen + 1)
    else listSlots d index slots seen

/-- The loop of `fat32_list_entry` over clusters. -/
def listInDir (v : FatVolume) (index : Int) : Nat → Nat → Nat → Option (Option (Nat × Nat))
  | 0, _, _ => none
  | fuel + 1, cluster, seen =>
    if inChain cluster = true then
      match listSlots v.disk index (clusterSlots v cluster) seen with
      | (.atEnd, _) => some none
      | (.found lba off, _) => some (some (lba, off))
      | (.more, seen) => listInDir v index fuel (getFatEntry v cluster) seen
    else some none

def fat32ListEntry (v : FatVolume) (dirPath : List U8) (index : Int) : Option (Option Listed) :=
  if v.initialized = false then some none
  else
    match fatWalk v v.rootCluster (fatSplitPath dirPath) with
    | none => none
    | some none => some none
    | some (some cluster) =>
      (listInDir v index chainFuel cluster 0).map fun r => r.map fun slot =>
        (entryToDisplayName (v.disk slot.1) slot.2, fatFileSize (v.disk slot.1) slot.2,
          fatAttr (v.disk slot.1) slot.2 &&& attrDirectory != 0)

/-- `vfs_list_entry` on a table. -/
def vfsListEntry (t : List Mount) (s : FileSystems) (dirPath : List U8) (index : Int) : Option (Option Listed) :=
  if dirPath = [] then some (listMountEntries t index)
  else
    match (findMount t dirPath).bind (t[·]?) with
    | none => some none
    | some m =>
      let rest := vfsStrip dirPath m
      match m.backend with
      | .minifs => (combineBackendPath m.backendRoot rest).map fun full => fsListEntry s.disk full index
      | .device => some (devfsListEntry k rest index)
      | .procfs => some (procfsListEntry k index)
      | .tmpfs => some (tmpfsListEntry s.tmpfs index)
      | .mounts => some (listMountEntries t index)
      | .fat32 => fat32ListEntry s.fat rest index

/-- **A listing that ends in `notFound`** has no entry. -/
theorem vfsListEntry_notFound {t : List Mount} {path : List U8} {index : Int}
    (h : vfsEntry t (.list index) path = .notFound) (s : FileSystems) : vfsListEntry k t s path index = some none := by
  cases path with
  | nil =>
    simp only [vfsEntry] at h
    split at h
    · rename_i hindex
      simp only [vfsListEntry, listMountEntries, if_true]
      rcases hindex with hneg | hlen
      · rw [if_pos hneg]
      · rw [getElem?_eq_none (by omega)]
        simp
    · cases h
  | cons b path =>
    simp only [vfsEntry, dispatch] at h
    rw [vfsListEntry, if_neg (cons_ne_nil b path)]
    cases hi : findMount t (b :: path) with
    | none => rfl
    | some i =>
      simp only [hi] at h
      rw [bind_some]
      cases hm : t[i]? with
      | none => rfl
      | some m =>
        -- every backend has a branch for listings
        simp only [hm] at h
        rw [if_pos (by cases m.backend <;> rfl)] at h
        cases h

/-! ## What fits -/

/-- A read of a file of `/devices` or `/processes` is within the buffer, and so is its result. -/
def ReadFits (s : FileSystems) (path : List U8) (maxLen : Nat) (callerUid : U8) : Prop :=
  ∀ m, vfsFindMount path = some m → m.backend = .device ∨ m.backend = .procfs →
    ∃ r, vfsRead { s with live := k.read } path maxLen callerUid = some r ∧
      r.2.length ≤ maxLen ∧ (r.1 < 0 ∨ r.1 ≤ maxLen)

/-- A listing stores at most 20 bytes. -/
def ListFits (t : List Mount) (s : FileSystems) (dirPath : List U8) (index : Int) : Prop :=
  ∀ e, vfsListEntry k t s dirPath index = some (some e) → e.1.length ≤ 20

/-- The text of the file a path of `/devices` or `/processes` names. -/
def LiveState.textAt (path : List U8) : Option FileText :=
  (vfsFindMount path).bind fun m => k.text m.backend (vfsStrip path m)

/-- The device a listing comes to. -/
def LiveState.deviceAt (t : List Mount) (dirPath : List U8) (index : Int) : Option Device :=
  match (findMount t dirPath).bind (t[·]?) with
  | none => none
  | some m =>
    if dirPath ≠ [] ∧ m.backend = .device then
      (categoryForSubpath (vfsStrip dirPath m)).bind fun category => k.getInCategory category index
    else none

section Fits

variable {k : LiveState} {s : FileSystems} {t : List Mount} {dirPath path : List U8} {index : Int} {e : Listed}

theorem fsListEntry_fits {d : Disk} (h : fsListEntry d dirPath index = some e) : e.1.length ≤ 20 := by
  unfold fsListEntry at h
  split at h
  · simp at h
  · dsimp only at h
    split at h
    · simp at h
    · rw [← some.inj h]
      simp only [paddedName, length_append, length_replicate, length_take]
      omega

theorem tmpfsListEntry_fits {f : Tmpfs} (h : tmpfsListEntry f index = some e) : e.1.length ≤ 20 := by
  unfold tmpfsListEntry at h
  dsimp only at h
  split at h
  · simp at h
  · rw [← some.inj h]
    simp only [length_append, length_singleton, length_take]
    omega

theorem procfsListEntry_fits (h : procfsListEntry k index = some e) : e.1.length ≤ 20 := by
  unfold procfsListEntry at h
  split at h
  · simp at h
  · rw [← some.inj h]
    simp [asciiBytes]

theorem fat32ListEntry_fits {v : FatVolume} (h : fat32ListEntry v dirPath index = some (some e)) : e.1.length ≤ 20 := by
  unfold fat32ListEntry at h
  split at h
  · simp at h
  · split at h
    · simp at h
    · simp at h
    · obtain ⟨r, -, hr⟩ := map_eq_some_iff.mp h
      obtain ⟨slot, -, rfl⟩ := map_eq_some_iff.mp hr
      have hfield : ∀ off n, ((slice (v.disk slot.1) off n).takeWhile fun b => decide (b ≠ 0x20)).length ≤ n :=
        fun off n => (takeWhile_sublist _).length_le.trans (length_slice _ _ _).le
      have hbase := hfield slot.2 8
      have hext := hfield (slot.2 + 8) 3
      unfold entryToDisplayName
      split <;> simp only [length_append, length_cons, length_nil] <;> omega

/-- The prefixes of a table are kept in 15 characters. -/
theorem point_length_le (ms : List Mount) : ∀ m ∈ mountAll ms, m.point.length ≤ 15 := by
  have hfold : ∀ (ms t : List Mount), (∀ m ∈ t, m.point.length ≤ 15) →
      ∀ m ∈ ms.foldl (fun t m => (vfsMountAt t m).2) t, m.point.length ≤ 15 := by
    intro ms
    induction ms with
    | nil => exact fun t ht => ht
    | cons x ms ih =>
      intro t ht
      refine ih _ fun m hm => ?_
      simp only [vfsMountAt] at hm
      split at hm
      · exact ht m hm
      · rcases mem_append.mp hm with hm | hm
        · exact ht m hm
        · rw [mem_singleton.mp hm]
          simp only [Mount.kept, length_take]
          omega
  exact hfold ms [] (by simp)

theorem listMountEntries_fits (hpoints : ∀ m ∈ t, m.point.length ≤ 15) (h : listMountEntries t index = some e) :
    e.1.length ≤ 20 := by
  unfold listMountEntries at h
  split at h
  · simp at h
  · obtain ⟨m, hm, rfl⟩ := map_eq_some_iff.mp h
    have hle := hpoints m (mem_of_getElem? hm)
    simp only [length_append, length_tail, length_singleton]
    omega

/-- The listing of `/devices` fits exactly if the device it comes to has at most 19 characters. -/
theorem devfsListEntry_fits_iff {subpath : List U8} : (∀ e, devfsListEntry k subpath index = some e → e.1.length ≤ 20) ↔
      ∀ d, ((categoryForSubpath subpath).bind fun category => k.getInCategory category index) = some d →
        d.name.length ≤ 19 := by
  have hnone : categoryForSubpath [] = none := rfl
  unfold devfsListEntry
  by_cases hsub : subpath = []
  · subst hsub
    rw [if_pos rfl, hnone]
    refine iff_of_true (fun e he => ?_) (fun d hd => absurd hd (by simp))
    have hroot : e.1.length ≤ 9 := by
      split_ifs at he <;> rw [← some.inj he] <;> decide
    omega
  · rw [if_neg hsub]
    cases categoryForSubpath subpath with
    | none => simp
    | some category =>
      simp only [bind_some, map_eq_some_iff]
      have hlen : ∀ d : Device, (sanitizeName d.name ++ [0]).length = d.name.length + 1 := fun d => by
        have hle := d.name_le
        simp only [sanitizeName, length_append, length_map, length_take, length_singleton]
        omega
      constructor
      · intro h d hd
        have := h _ ⟨d, hd, rfl⟩
        rw [hlen] at this
        omega
      · rintro h e ⟨d, hd, rfl⟩
        have := h d hd
        rw [hlen]
        omega

/-- **A listing** fits exactly if it does not come to a device with a name of 20 characters. -/
theorem listFits_iff (hpoints : ∀ m ∈ t, m.point.length ≤ 15) :
    ListFits k t s dirPath index ↔ ∀ d, k.deviceAt t dirPath index = some d → d.name.length ≤ 19 := by
  unfold ListFits vfsListEntry LiveState.deviceAt
  by_cases hroot : dirPath = []
  · simp only [hroot, if_true, ne_eq, not_true_eq_false, false_and, if_false]
    refine iff_of_true (fun e he => listMountEntries_fits hpoints (some.inj he)) fun d hd => ?_
    split at hd <;> simp at hd
  rw [if_neg hroot]
  cases (findMount t dirPath).bind (t[·]?) with
  | none => simp
  | some m =>
    dsimp only
    by_cases hb : m.backend = .device
    · simp only [hb, ne_eq, hroot, not_false_eq_true, and_self, if_true]
      rw [← devfsListEntry_fits_iff]
      simp only [some.injEq]
    · rw [if_neg fun h => hb h.2]
      refine iff_of_true (fun e he => ?_) fun d hd => absurd hd (by simp)
      cases hk : m.backend with
      | device => exact absurd hk hb
      | minifs =>
        rw [hk] at he
        obtain ⟨full, -, hfull⟩ := map_eq_some_iff.mp he
        exact fsListEntry_fits hfull
      | procfs => exact procfsListEntry_fits (k := k) (some.inj (by rwa [hk] at he))
      | tmpfs => exact tmpfsListEntry_fits (f := s.tmpfs) (some.inj (by rwa [hk] at he))
      | mounts => exact listMountEntries_fits hpoints (some.inj (by rwa [hk] at he))
      | fat32 => exact fat32ListEntry_fits (v := s.fat) (by rwa [hk] at he)

/-- **A read** of a live file fits exactly if the first byte without room is not a digit. -/
theorem readFits_iff {maxLen : Nat} {callerUid : U8} : ReadFits k s path maxLen callerUid ↔
    ∀ text, k.textAt path = some text → ∀ b, text[maxLen]? ≠ some (false, b) := by
  unfold ReadFits LiveState.textAt
  cases hm : vfsFindMount path with
  | none => simp
  | some m =>
    simp only [some.injEq, forall_eq', bind_some]
    have hread : m.backend = .device ∨ m.backend = .procfs →
        vfsRead { s with live := k.read } path maxLen callerUid = some (k.read m.backend (vfsStrip path m) maxLen) := by
      rintro (hb | hb) <;> simp only [vfsRead, hm, hb]
    by_cases hlive : m.backend = .device ∨ m.backend = .procfs
    · simp only [hlive, true_implies, hread hlive, some.injEq, exists_eq_left', LiveState.read]
      cases ht : k.text m.backend (vfsStrip path m) with
      | none => simp
      | some text =>
        have hfits := @storeText_fits_iff maxLen text [] (Nat.zero_le _)
        simp only [length_nil, Nat.sub_zero] at hfits
        simp only [some.injEq, forall_eq', ← hfits, storeText_result, and_true]
    · refine iff_of_true (fun h => absurd h hlive) fun text ht => ?_
      cases hb : m.backend <;> simp_all [LiveState.text]

/-- **Pseudo-files and listings** respect the caller's buffers, in any state and on any table of
mounts, exactly if the text of the file read has no digit of a number at offset `maxLen`, and the
listing does not come to a device whose name has more than 19 characters. -/
theorem liveFiles_fit_iff (k : LiveState) (s : FileSystems) (path : List U8) (maxLen : Nat) (callerUid : U8)
    (ms : List Mount) (dirPath : List U8) (index : Int) : (ReadFits k s path maxLen callerUid ↔
      ∀ text, k.textAt path = some text → ∀ b, text[maxLen]? ≠ some (false, b)) ∧ (ListFits k (mountAll ms) s dirPath index ↔
      ∀ d, k.deviceAt (mountAll ms) dirPath index = some d → d.name.length ≤ 19) :=
  ⟨readFits_iff, listFits_iff (point_length_le ms)⟩

/-- `"Bochs VBE Framebuffer"`, which `vbe_init` registers as a platform device. -/
def framebufferDevice : Device where
  used := true
  name := asciiBytes ['B', 'o', 'c', 'h', 's', ' ', 'V', 'B', 'E', ' ', 'F', 'r', 'a', 'm', 'e', 'b', 'u', 'f',
    'f', 'e', 'r']
  category := deviceCategoryPlatform
  info := 0
  name_le := by decide

/-- The clock at 16 ticks and the framebuffer. -/
def framebufferState : LiveState where
  ticks := 16
  devices := [framebufferDevice]
  processes := fun _ => ⟨false, 0, 0⟩

/-- The clock read into 10 bytes stores 11, and the listing of `/devices/platform` stores 22 for the
framebuffer. -/
theorem liveFiles_overrun : (∀ (s : FileSystems) (uid : U8), ∃ r, vfsRead { s with live := framebufferState.read }
      (asciiBytes ['/', 'd', 'e', 'v', 'i', 'c', 'e', 's', '/', 't', 'i', 'c', 'k', 's']) 10 uid = some r ∧
        r.2.length = 11) ∧
    ∀ s, ∃ e, vfsListEntry framebufferState bootMounts s
      (asciiBytes ['/', 'd', 'e', 'v', 'i', 'c', 'e', 's', '/', 'p', 'l', 'a', 't', 'f', 'o', 'r', 'm']) 0 =
        some (some e) ∧ e.1.length = 22 :=
  ⟨fun _ _ => ⟨_, rfl, rfl⟩, fun _ => ⟨_, rfl, rfl⟩⟩

end Fits

end MinicOs
