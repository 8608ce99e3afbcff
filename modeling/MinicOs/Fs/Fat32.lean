import MinicOs.Fs.MiniFs

/-!
# FAT32

Model of `kernel/fs/fat32/fat32.c` over a disk whose sectors read back as they were written. Sector
and cluster numbers are `u32`; `bytes_per_sector` is 512 wherever the driver is initialised
(`fat32_init` checks it).

A walk along a cluster chain is given as many rounds as there are cluster numbers, so it runs out of
them (`none`) only where the source's loop does not end.
-/

namespace MinicOs

open Nat

def fat32Eoc : Nat := 0x0fffffff

def attrDirectory : U8 := 0x10

def attrArchive : U8 := 0x20

/-- `fat32_state` and the disk it describes. -/
structure FatVolume where
  initialized : Bool
  sectorsPerCluster : Nat
  rootCluster : Nat
  firstFatLba : Nat
  firstDataLba : Nat
  totalClusters : Nat
  disk : Disk

/-- The test of the loops along a chain. -/
def inChain (cluster : Nat) : Bool := 2 ≤ cluster && cluster < fat32Eoc - 8

variable (v : FatVolume)

def clusterToLba (cluster : Nat) : Nat :=
  (v.firstDataLba + (cluster - 2) * v.sectorsPerCluster) % 2 ^ 32

/-- The sector of a cluster's FAT entry. -/
def fatSector (cluster : Nat) : Nat :=
  (v.firstFatLba + cluster * 4 % 2 ^ 32 / 512) % 2 ^ 32

/-- The offset of a cluster's FAT entry in its sector. -/
def fatOffset (cluster : Nat) : Nat := cluster * 4 % 2 ^ 32 % 512

def getFatEntry (cluster : Nat) : Nat :=
  getU32 (v.disk (fatSector v cluster)) (fatOffset cluster) % 2 ^ 28

def FatVolume.write (lba : Nat) (s : Sector) : FatVolume :=
  { v with disk := writeSector v.disk lba s }

/-- `set_fat_entry`: the top four bits stay. -/
def setFatEntry (cluster value : Nat) : FatVolume :=
  let sector := v.disk (fatSector v cluster)
  let preservedTop := getU32 sector (fatOffset cluster) / 2 ^ 28
  v.write (fatSector v cluster)
    (setU32 sector (fatOffset cluster) (value % 2 ^ 28 + preservedTop * 2 ^ 28))

/-- `alloc_cluster`: the first cluster whose entry is free, marked as an end and zeroed. The end of the search is
computed in `u32`. -/
def allocCluster : Option (Nat × FatVolume) :=
  (scan ((v.totalClusters + 2) % 2 ^ 32 - 2) fun i => getFatEntry v (2 + i) == 0).map fun i =>
    (2 + i, (List.range v.sectorsPerCluster).foldl
      (fun v s => v.write (clusterToLba v (2 + i) + s) zeroSector) (setFatEntry v (2 + i) fat32Eoc))

def freeClusterChain : Nat → Nat → FatVolume → FatVolume
  | 0, _, v => v
  | fuel + 1, cluster, v =>
    if inChain cluster = true then
      let next := getFatEntry v cluster
      let v := setFatEntry v cluster 0
      if inChain next = true then freeClusterChain fuel next v else v
    else v

/-- As many rounds as there are cluster numbers. -/
def chainFuel : Nat := 2 ^ 28

def upcase (c : U8) : U8 := if 0x61 ≤ c.toNat ∧ c.toNat ≤ 0x7a then c - 0x20 else c

/-- `name_to_83`: eight characters and three, filled up with blanks. -/
def nameTo83 (input : List U8) : List U8 :=
  let base := input.takeWhile (· ≠ 0x2e)
  let ext := (input.drop (base.length + 1)).take 3
  let name := (base.take 8).map upcase
  name ++ List.replicate (8 - name.length) 0x20 ++ (ext.map upcase) ++ List.replicate (3 - ext.length) 0x20

/-- `split_path` of FAT32: components of at most 63 characters, as 8.3 names. -/
def fatSplitPath (path : List U8) : List (List U8) := (splitLoop 63 8 path).map nameTo83

/-- The directory slots of a cluster: sector and offset. -/
def clusterSlots (cluster : Nat) : List (Nat × Nat) :=
  (List.range v.sectorsPerCluster).flatMap fun s =>
    (List.range 16).map fun i => ((clusterToLba v cluster + s) % 2 ^ 32, 32 * i)

/-- A slot that counts as an entry: not deleted, no long name, no volume label. -/
def liveSlot (s : Sector) (off : Nat) : Bool :=
  s off != 0xe5 && (s (off + 11) &&& 0x0f != 0x0f) && (s (off + 11) &&& 0x08 == 0)

/-- What a search through slots comes to. -/
inductive FatScan
  | atEnd
  | found (lba off : Nat)
  | more

/-- The loop of `find_entry_in_dir` over slots. -/
def scanSlots (d : Disk) (name : List U8) : List (Nat × Nat) → FatScan
  | [] => .more
  | (lba, off) :: slots =>
    if d lba off = 0 then .atEnd
    else if liveSlot (d lba) off = true ∧ slice (d lba) off 11 = name then .found lba off
    else scanSlots d name slots

/-- The loop of `find_entry_in_dir` over clusters. -/
def findInDir (v : FatVolume) (name : List U8) : Nat → Nat → Option (Option (Nat × Nat))
  | 0, _ => none
  | fuel + 1, cluster =>
    if inChain cluster = true then
      match scanSlots v.disk name (clusterSlots v cluster) with
      | .atEnd => some none
      | .found lba off => some (some (lba, off))
      | .more => findInDir v name fuel (getFatEntry v cluster)
    else some none

def findEntryInDir (dirCluster : Nat) (name : List U8) : Option (Option (Nat × Nat)) :=
  findInDir v name chainFuel dirCluster

def fatAttr (s : Sector) (off : Nat) : U8 := s (off + 11)

/-- `entry_first_cluster`. -/
def fatFirstCluster (s : Sector) (off : Nat) : Nat :=
  (s (off + 20)).toNat * 2 ^ 16 + (s (off + 21)).toNat * 2 ^ 24 + (s (off + 26)).toNat +
    (s (off + 27)).toNat * 2 ^ 8

/-- `file_size`. -/
def fatFileSize (s : Sector) (off : Nat) : Nat := getU32 s (off + 28)

/-- A free slot: never used or deleted. -/
def slotFree (d : Disk) (slot : Nat × Nat) : Bool := d slot.1 slot.2 == 0 || d slot.1 slot.2 == 0xe5

/-- The loop of `find_free_dir_slot`: a free slot, or the last cluster of the chain. -/
def findFreeInDir (v : FatVolume) : Nat → Nat → Nat → Option (Sum (Nat × Nat) Nat)
  | 0, _, _ => none
  | fuel + 1, cluster, last =>
    if inChain cluster = true then
      match (clusterSlots v cluster).find? (slotFree v.disk) with
      | some slot => some (.inl slot)
      | none => findFreeInDir v fuel (getFatEntry v cluster) cluster
    else some (.inr last)

/-- `find_free_dir_slot`: the directory grows by a cluster when all slots are taken. -/
def findFreeDirSlot (dirCluster : Nat) : Option (Option (Nat × Nat) × FatVolume) :=
  match findFreeInDir v chainFuel dirCluster dirCluster with
  | none => none
  | some (.inl slot) => some (some slot, v)
  | some (.inr last) =>
    match allocCluster v with
    | none => some (none, v)
    | some (cluster, v) => some (some (clusterToLba v cluster, 0), setFatEntry v last cluster)

/-- The walk over directories of `resolve_parent_dir`. -/
def fatWalk (v : FatVolume) : Nat → List (List U8) → Option (Option Nat)
  | cluster, [] => some (some cluster)
  | cluster, c :: cs =>
    match findEntryInDir v cluster c with
    | none => none
    | some none => some none
    | some (some (lba, off)) =>
      if fatAttr (v.disk lba) off &&& attrDirectory = 0 then some none
      else fatWalk v (fatFirstCluster (v.disk lba) off) cs

/-- `resolve_parent_dir`: the directory's cluster and the last component. -/
def fatResolveParent (path : List U8) : Option (Option (Nat × List U8)) :=
  match (fatSplitPath path).getLast? with
  | none => some none
  | some name =>
    (fatWalk v v.rootCluster (fatSplitPath path).dropLast).map fun r => r.map fun cluster => (cluster, name)

/-- The slot the operations on existing entries look up. -/
def fatLookup (path : List U8) : Option (Option (Nat × Nat)) :=
  match fatResolveParent v path with
  | none => none
  | some none => some none
  | some (some (parent, name)) => findEntryInDir v parent name

/-- The loop of `fat32_read_file`: `left` bytes are still to come. -/
def fatReadChain (v : FatVolume) : Nat → Nat → Nat → List U8
  | 0, _, _ => []
  | fuel + 1, cluster, left =>
    if inChain cluster = true ∧ 0 < left then
      let bytes := ((List.range v.sectorsPerCluster).flatMap fun s =>
        slice (v.disk ((clusterToLba v cluster + s) % 2 ^ 32)) 0 512).take left
      bytes ++ fatReadChain v fuel (getFatEntry v cluster) (left - bytes.length)
    else []

/-- `fat32_read_file`: the result and the bytes copied out. -/
def fat32ReadFile (path : List U8) (maxLen : Nat) : Option (Int × List U8) :=
  if v.initialized = false then some (-1, [])
  else
    match fatLookup v path with
    | none => none
    | some none => some (-1, [])
    | some (some (lba, off)) =>
      let s := v.disk lba
      if fatAttr s off &&& attrDirectory ≠ 0 then some (-1, [])
      else if maxLen < fatFileSize s off then some (-2, [])
      else
        let bytes := fatReadChain v (fatFileSize s off + 1) (fatFirstCluster s off) (fatFileSize s off)
        some (toInt32 (BitVec.ofNat 64 bytes.length), bytes)

/-- The sectors of one new cluster of a file, from byte `written` on. -/
def fatWriteCluster (cluster written : Nat) (data : List U8) : FatVolume :=
  (List.range v.sectorsPerCluster).foldl
    (fun v s =>
      if written + 512 * s < data.length then
        v.write (clusterToLba v cluster + s) fun b => data.getD (written + 512 * s + b) 0
      else v) v

/-- The loop of `fat32_write_file` over clusters: the first cluster, or `none` when none is free. -/
def fatWriteLoop (data : List U8) : Nat → Nat → Nat → Nat → FatVolume → Option Nat × FatVolume
  | 0, first, _, _, v => (some first, v)
  | fuel + 1, first, prev, written, v =>
    if written < data.length then
      match allocCluster v with
      | none => (none, if first ≠ 0 then freeClusterChain chainFuel first v else v)
      | some (c, v) =>
        let v := if first = 0 then v else setFatEntry v prev c
        fatWriteLoop data fuel (if first = 0 then c else first) c (written + 512 * v.sectorsPerCluster)
          (fatWriteCluster v c written data)
    else (some first, v)

def fatEntryBytes (name : List U8) (attr : U8) (cluster size : Nat) : List U8 :=
  name ++ [attr] ++ List.replicate 8 0 ++
    [BitVec.ofNat 8 (cluster / 2 ^ 16), BitVec.ofNat 8 (cluster / 2 ^ 24)] ++ List.replicate 4 0 ++
    [BitVec.ofNat 8 cluster, BitVec.ofNat 8 (cluster / 2 ^ 8)] ++ writeU32 size

def writeEntryAt (slot : Nat × Nat) (bytes : List U8) : FatVolume :=
  v.write slot.1 (overlay (v.disk slot.1) slot.2 bytes)

def fat32WriteFile (path data : List U8) : Option (Bool × FatVolume) :=
  if v.initialized = false then some (false, v)
  else
    match fatResolveParent v path with
    | none => none
    | some none => some (false, v)
    | some (some (parent, name)) =>
      match findEntryInDir v parent name with
      | none => none
      | some (some _) => some (false, v)
      | some none =>
        match fatWriteLoop data data.length 0 0 0 v with
        | (none, v) => some (false, v)
        | (some first, v) =>
          match findFreeDirSlot v parent with
          | none => none
          | some (none, v) =>
            some (false, if first ≠ 0 then freeClusterChain chainFuel first v else v)
          | some (some slot, v) =>
            some (true, writeEntryAt v slot (fatEntryBytes name attrArchive first data.length))

def fat32DeleteFile (path : List U8) : Option (Bool × FatVolume) :=
  if v.initialized = false then some (false, v)
  else
    match fatLookup v path with
    | none => none
    | some none => some (false, v)
    | some (some (lba, off)) =>
      let first := fatFirstCluster (v.disk lba) off
      let v := v.write lba (overlay (v.disk lba) off [0xe5])
      some (true, if 2 ≤ first then freeClusterChain chainFuel first v else v)

def fat32CreateDir (path : List U8) : Option (Bool × FatVolume) :=
  if v.initialized = false then some (false, v)
  else
    match fatResolveParent v path with
    | none => none
    | some none => some (false, v)
    | some (some (parent, name)) =>
      match findEntryInDir v parent name with
      | none => none
      | some (some _) => some (false, v)
      | some none =>
        match allocCluster v with
        | none => some (false, v)
        | some (cluster, v) =>
          match findFreeDirSlot v parent with
          | none => none
          | some (none, v) => some (false, freeClusterChain chainFuel cluster v)
          | some (some slot, v) =>
            some (true, writeEntryAt v slot (fatEntryBytes name attrDirectory cluster 0))

/-- `fat32_stat_file`: size and `is_dir`. -/
def fat32StatFile (path : List U8) : Option (Option (Nat × Bool)) :=
  if v.initialized = false then some none
  else
    (fatLookup v path).map fun r => r.map fun slot =>
      (fatFileSize (v.disk slot.1) slot.2, fatAttr (v.disk slot.1) slot.2 &&& attrDirectory != 0)

/-! ## Mounting a volume -/

/-- The fields of `fat32_state` that `fat32_init` sets. -/
structure FatGeometry where
  bytesPerSector : Nat
  sectorsPerCluster : Nat
  reservedSectorCount : Nat
  numFats : Nat
  fatSize : Nat
  rootCluster : Nat
  firstFatLba : Nat
  firstDataLba : Nat
  totalClusters : Nat

/-- `read_u16`. -/
def getU16 (s : Sector) (off : Nat) : Nat := (s off).toNat + (s (off + 1)).toNat * 2 ^ 8

/-- `total_sectors_32`. -/
def totalSectors (sector : Sector) : Nat := getU32 sector 32

/-- The sector behind the reserved ones and the FATs. -/
def fatsEnd (sector : Sector) : Nat := getU16 sector 14 + (sector 16).toNat * getU32 sector 36

/-- The fields as they are read from the boot sector; `total_clusters` divides by `sectors_per_cluster`. -/
def fatFields (sector : Sector) : FatGeometry :=
  { bytesPerSector := getU16 sector 11
    sectorsPerCluster := (sector 13).toNat
    reservedSectorCount := getU16 sector 14
    numFats := (sector 16).toNat
    fatSize := getU32 sector 36
    rootCluster := getU32 sector 44
    firstFatLba := getU16 sector 14
    firstDataLba := fatsEnd sector % 2 ^ 32
    totalClusters := (totalSectors sector + 2 ^ 32 - fatsEnd sector % 2 ^ 32) % 2 ^ 32 / (sector 13).toNat }

/-- `fat32_init` once the boot sector is read; `none` where it divides by zero. -/
def fat32Init (g : FatGeometry) (sector : Sector) : Option (Bool × FatGeometry) :=
  if sector 510 ≠ 0x55 ∨ sector 511 ≠ 0xaa then some (false, g)
  else if sector 13 = 0 then none
  else if getU16 sector 11 ≠ 512 ∨ sector 13 = 0 ∨ getU32 sector 36 = 0 ∨ getU32 sector 44 < 2 then
    some (false, fatFields sector)
  else some (true, fatFields sector)

def FatGeometry.volume (g : FatGeometry) (disk : Disk) : FatVolume :=
  { g with initialized := true, disk := disk }

/-- The geometry lies inside a volume of so many sectors. -/
structure FatGeometry.Consistent (g : FatGeometry) (total : Nat) : Prop where
  fats : 1 ≤ g.numFats
  exact : g.firstDataLba = g.reservedSectorCount + g.numFats * g.fatSize
  within : g.firstDataLba ≤ total
  root : 2 ≤ g.rootCluster ∧ g.rootCluster < g.totalClusters + 2
  entries : (g.totalClusters + 2) * 4 ≤ g.fatSize * 512
  sectors : ∀ disk cluster, 2 ≤ cluster → cluster < g.totalClusters + 2 →
    clusterToLba (g.volume disk) cluster < total ∧ fatSector (g.volume disk) cluster < total

/-- `fat32_init` divides by no zero, and a geometry it accepts is consistent. -/
def InitSound (g : FatGeometry) (sector : Sector) : Prop :=
  ∃ r, fat32Init g sector = some r ∧ (r.1 = true → r.2.Consistent (totalSectors sector))

/-- The FATs begin after the reserved sectors and end before the last sector of the volume; the data area
behind them has the root cluster, and no more clusters than a FAT has entries. -/
def FieldsFit (sector : Sector) : Prop :=
  sector 16 ≠ 0 ∧ fatsEnd sector ≤ totalSectors sector ∧
    (getU32 sector 44 - 1) * (sector 13).toNat ≤ totalSectors sector - fatsEnd sector ∧
    totalSectors sector - fatsEnd sector < (getU32 sector 36 * 128 - 1) * (sector 13).toNat

/-- The bytes are no boot sector, or they have clusters of some sectors and a field that is refused, or the
fields fit. -/
def BootSector (sector : Sector) : Prop :=
  sector 510 ≠ 0x55 ∨ sector 511 ≠ 0xaa ∨ sector 13 ≠ 0 ∧
    (getU16 sector 11 ≠ 512 ∨ getU32 sector 36 = 0 ∨ getU32 sector 44 < 2 ∨ FieldsFit sector)

section Mount

variable {sector : Sector} {g : FatGeometry}

theorem consistent_fatFields_iff (hspc : sector 13 ≠ 0) (hroot : 2 ≤ getU32 sector 44) :
    (fatFields sector).Consistent (totalSectors sector) ↔ FieldsFit sector := by
  have hpos : 0 < (sector 13).toNat := pos_of_ne_zero fun h0 => hspc (BitVec.eq_of_toNat_eq h0)
  have htotal : totalSectors sector < 2 ^ 32 := readU32_lt _
  -- where the FATs end inside the volume, the 32-bit arithmetic is exact
  have hfields : fatsEnd sector ≤ totalSectors sector → (fatFields sector).firstDataLba = fatsEnd sector ∧
      (fatFields sector).totalClusters = (totalSectors sector - fatsEnd sector) / (sector 13).toNat := fun hle => by
    have hmod : fatsEnd sector % 2 ^ 32 = fatsEnd sector := mod_eq_of_lt (by omega)
    refine ⟨hmod, congrArg (· / (sector 13).toNat) ?_⟩
    omega
  unfold FieldsFit
  rw [← le_div_iff_mul_le hpos, ← div_lt_iff_lt_mul hpos]
  constructor
  · intro h
    have hle : fatsEnd sector ≤ totalSectors sector := le_of_eq_of_le h.exact.symm h.within
    have hin : getU32 sector 44 < (fatFields sector).totalClusters + 2 := h.root.2
    have hentries : ((fatFields sector).totalClusters + 2) * 4 ≤ getU32 sector 36 * 512 := h.entries
    exact ⟨fun h0 => absurd h.fats (by simp [fatFields, h0]), hle, by omega, by omega⟩
  · rintro ⟨hfats, hle, hin, hentries⟩
    obtain ⟨hfirst, hcount⟩ := hfields hle
    have hone : 1 ≤ (fatFields sector).numFats :=
      pos_of_ne_zero fun h0 => hfats (BitVec.eq_of_toNat_eq h0)
    have hroom : ((fatFields sector).totalClusters + 2) * 4 ≤ getU32 sector 36 * 512 := by omega
    refine ⟨hone, hfirst, hfirst ▸ hle, ⟨hroot, show getU32 sector 44 < _ by omega⟩, hroom,
      fun disk cluster hlow hhigh => ?_⟩
    have hroom : _ ≤ (fatFields sector).fatSize * 512 := hroom
    have hexact : _ = (fatFields sector).firstFatLba + (fatFields sector).numFats * (fatFields sector).fatSize := hfirst
    have hclusters : _ * (fatFields sector).sectorsPerCluster ≤ _ := hcount ▸ div_mul_le_self _ _
    have hspc : 0 < (fatFields sector).sectorsPerCluster := hpos
    rw [← hfirst] at hle hclusters
    generalize fatFields sector = g at *
    have hlast := mul_le_mul_right g.sectorsPerCluster (show cluster - 2 + 1 ≤ g.totalClusters by omega)
    rw [add_one_mul] at hlast
    have hfat := Nat.le_mul_of_pos_left g.fatSize hone
    constructor
    · exact lt_of_le_of_lt (mod_le (g.firstDataLba + (cluster - 2) * g.sectorsPerCluster) _) (by omega)
    · exact lt_of_le_of_lt (mod_le (g.firstFatLba + cluster * 4 % 2 ^ 32 / 512) _) (by omega)

/-- **`fat32_init` checks too little.** It is sound for a boot sector exactly where the fields it does not
check fit the volume; it divides by `sectors_per_cluster` before it compares it with zero. -/
theorem fat32Init_sound_iff (g : FatGeometry) (sector : Sector) : InitSound g sector ↔ BootSector sector := by
  unfold InitSound BootSector fat32Init
  by_cases hsig : sector 510 ≠ 0x55 ∨ sector 511 ≠ 0xaa
  · rw [if_pos hsig]
    exact iff_of_true ⟨_, rfl, by simp⟩ (hsig.imp_right .inl)
  rw [if_neg hsig]
  by_cases hspc : sector 13 = 0
  · rw [if_pos hspc]
    refine iff_of_false (by simp) ?_
    grind
  rw [if_neg hspc]
  by_cases hchecks : getU16 sector 11 ≠ 512 ∨ sector 13 = 0 ∨ getU32 sector 36 = 0 ∨ getU32 sector 44 < 2
  · rw [if_pos hchecks]
    refine iff_of_true ⟨_, rfl, by simp⟩ ?_
    grind
  · rw [if_neg hchecks]
    have hfit := consistent_fatFields_iff hspc (by omega)
    constructor
    · rintro ⟨r, hr, hok⟩
      have := hfit.mp (by cases hr; exact hok rfl)
      grind
    · intro hboot
      refine ⟨_, rfl, fun _ => hfit.mpr ?_⟩
      grind

/-- A boot sector with the signature, sectors of 512 bytes, a FAT of one sector and cluster 2 as the root. -/
def bareBoot : Sector := fun i =>
  if i = 510 then 0x55 else if i = 511 then 0xaa else if i = 12 ∨ i = 44 then 2 else if i = 36 then 1 else 0

/-- With no sectors per cluster it divides by zero; with one it is mounted without any FAT. -/
theorem not_initSound_bare : fat32Init (fatFields bareBoot) bareBoot = none ∧
    (fat32Init (fatFields bareBoot) (Function.update bareBoot 13 1)).map (fun r => (r.1, r.2.numFats)) = some (true, 0) ∧
    ¬ InitSound (fatFields bareBoot) bareBoot := by
  refine ⟨by decide +kernel, by decide +kernel, fun ⟨_, hr, _⟩ => ?_⟩
  cases hr

end Mount

/-! ## The copies of the FAT -/

inductive FatCall
  | write (path data : List U8)
  | createDir (path : List U8)
  | delete (path : List U8)

/-- The answer to a call and the volume after it; `none` where the call does not return. -/
def FatCall.run (v : FatVolume) : FatCall → Option (Bool × FatVolume)
  | .write path data => fat32WriteFile v path data
  | .createDir path => fat32CreateDir v path
  | .delete path => fat32DeleteFile v path

/-- All copies of the FAT have the same bytes. -/
def FatGeometry.Mirrored (g : FatGeometry) (disk : Disk) : Prop :=
  ∀ k < g.numFats, ∀ s < g.fatSize, ∀ b < 512,
    disk (g.firstFatLba + k * g.fatSize + s) b = disk (g.firstFatLba + s) b

/-- The sector lies behind the FATs. -/
def FatGeometry.Behind (g : FatGeometry) (lba : Nat) : Prop :=
  g.firstFatLba + g.numFats * g.fatSize ≤ lba % 2 ^ 32

/-- No cluster is free. -/
def FatVolume.Full (v : FatVolume) : Prop := ∀ i < v.totalClusters, getFatEntry v (2 + i) ≠ 0

/-- The path names nothing yet, in a directory that exists. -/
def FatVolume.Vacant (v : FatVolume) (path : List U8) (parent : Nat) : Prop :=
  ∃ name, fatResolveParent v path = some (some (parent, name)) ∧ findEntryInDir v parent name = some none

/-- No cluster changes hands: what is to be created finds the volume full, or it is an empty file and its
directory has a free slot or cannot grow; what is to be deleted has no clusters. The slot's sector lies behind
the FATs. -/
def FatCall.Clusterless (g : FatGeometry) (v : FatVolume) : FatCall → Prop
  | .write path data => ∀ parent, v.Vacant path parent → data ≠ [] ∧ v.Full ∨
      data = [] ∧ (∀ slot, findFreeInDir v chainFuel parent parent = some (.inl slot) → g.Behind slot.1) ∧
        ∀ last, findFreeInDir v chainFuel parent parent = some (.inr last) → v.Full
  | .createDir path => ∀ parent, v.Vacant path parent → v.Full
  | .delete path => ∀ lba off, fatLookup v path = some (some (lba, off)) →
      fatFirstCluster (v.disk lba) off < 2 ∧ g.Behind lba

section Mirror

variable {g : FatGeometry} {v : FatVolume}

theorem FatVolume.Full.allocCluster_eq (h : v.Full) : allocCluster v = none := by
  unfold allocCluster
  rw [scan_eq_none.mpr fun i hi => beq_false_of_ne (h i (by omega))]
  rfl

theorem FatGeometry.Mirrored.write (h : g.Mirrored v.disk) {lba : Nat} (hb : g.Behind lba) (s : Sector) :
    g.Mirrored (v.write lba s).disk := by
  -- no sector of a copy is the one written
  have hne : ∀ k < g.numFats, ∀ t < g.fatSize, g.firstFatLba + k * g.fatSize + t ≠ lba % 2 ^ 32 := fun k hk t ht => by
    have := mul_le_mul_right g.fatSize hk
    rw [succ_mul] at this
    exact (lt_of_lt_of_le (by omega) hb).ne
  intro k hk t ht b hbyte
  have h0 := hne 0 (by omega) t ht
  rw [zero_mul, add_zero] at h0
  simp only [FatVolume.write, writeSector]
  rw [Function.update_of_ne (hne k hk t ht), Function.update_of_ne h0]
  exact h k hk t ht b hbyte

/-- A call without clusters writes at most the sector of its slot. -/
theorem FatGeometry.Mirrored.step {c : FatCall} {r : Bool × FatVolume} (h : g.Mirrored v.disk)
    (hc : c.Clusterless g v) (hr : c.run v = some r) : g.Mirrored r.2.disk := by
  cases c with
  | write path data =>
    simp only [FatCall.run, fat32WriteFile] at hr
    split at hr
    · cases hr
      exact h
    split at hr
    · cases hr
    · cases hr
      exact h
    split at hr
    · cases hr
    · cases hr
      exact h
    rename_i parent _ _ _ _
    rcases hc _ ⟨_, ‹_›, ‹_›⟩ with ⟨hdata, hfull⟩ | ⟨rfl, hb, hfull⟩
    · obtain ⟨x, xs, rfl⟩ := List.exists_cons_of_ne_nil hdata
      simp only [List.length_cons, fatWriteLoop, zero_lt_succ, if_true, hfull.allocCluster_eq] at hr
      cases hr
      exact h
    · simp only [List.length_nil, fatWriteLoop, findFreeDirSlot] at hr
      rcases hfind : findFreeInDir v chainFuel parent parent with _ | slot | last
      · simp [hfind] at hr
      · simp only [hfind] at hr
        cases hr
        exact h.write (hb slot hfind) _
      · simp only [hfind, (hfull last hfind).allocCluster_eq] at hr
        cases hr
        exact h
  | createDir path =>
    simp only [FatCall.run, fat32CreateDir] at hr
    split at hr
    · cases hr
      exact h
    split at hr
    · cases hr
    · cases hr
      exact h
    split at hr
    · cases hr
    · cases hr
      exact h
    rw [(hc _ ⟨_, ‹_›, ‹_›⟩).allocCluster_eq] at hr
    cases hr
    exact h
  | delete path =>
    simp only [FatCall.run, fat32DeleteFile] at hr
    split at hr
    · cases hr
      exact h
    split at hr
    · cases hr
    · cases hr
      exact h
    · obtain ⟨hfirst, hb⟩ := hc _ _ ‹_›
      simp only [if_neg (not_le.mpr hfirst)] at hr
      cases hr
      exact h.write hb _

/-- **The FATs stay mirrored** in every state that calls without clusters lead to. -/
theorem mirrored_of_clusterless {g : FatGeometry} {disk : Disk} {v : FatVolume} (h : g.Mirrored disk)
    (hrun : Relation.ReflTransGen (fun v v' => ∃ c ok, FatCall.Clusterless g v c ∧ c.run v = some (ok, v'))
      (g.volume disk) v) : g.Mirrored v.disk :=
  run_inv (P := fun v => g.Mirrored v.disk) (fun _ _ hm ⟨_, _, hc, hr⟩ => hm.step hc hr) hrun h

/-- Two FATs of one sector, a root directory and seven more clusters of a sector each. -/
def twoFats : FatGeometry := ⟨512, 1, 1, 2, 1, 2, 1, 3, 8⟩

/-- In both FATs the entries of the root and before it are taken; the root is empty. -/
def twoFatsDisk : Disk := fun lba b => if (lba = 1 ∨ lba = 2) ∧ b < 12 then 0xff else 0

theorem twoFats_mirrored : twoFats.Mirrored twoFatsDisk := by
  unfold FatGeometry.Mirrored
  decide +kernel

theorem mirrored_empty_file : ∃ v, FatCall.run (twoFats.volume twoFatsDisk) (.write [0x41] []) = some (true, v) ∧
    twoFats.Mirrored v.disk := by
  have hname : fatResolveParent (twoFats.volume twoFatsDisk) [0x41] = some (some (2, nameTo83 [0x41])) := by
    decide +kernel
  refine ⟨_, rfl, mirrored_of_clusterless twoFats_mirrored (.single ⟨.write [0x41] [], true, ?_, rfl⟩)⟩
  rintro parent ⟨name, hparent, -⟩
  cases hname.symm.trans hparent
  have hfind : findFreeInDir (twoFats.volume twoFatsDisk) chainFuel 2 2 = some (.inl (3, 0)) := by decide +kernel
  refine .inr ⟨rfl, fun slot hslot => ?_, fun last hlast => nomatch hfind.symm.trans hlast⟩
  cases hfind.symm.trans hslot
  unfold FatGeometry.Behind
  decide

/-- A file of one byte takes a cluster; its entry is written to the first FAT only. -/
theorem not_mirrored_write : 2 ≤ twoFats.numFats ∧ twoFats.Mirrored twoFatsDisk ∧
    ∃ v, FatCall.run (twoFats.volume twoFatsDisk) (.write [0x41] [1]) = some (true, v) ∧ ¬ twoFats.Mirrored v.disk := by
  refine ⟨by decide, twoFats_mirrored, _, rfl, fun h => ?_⟩
  exact absurd (h 1 (by decide) 0 (by decide) 12 (by decide)) (by decide +kernel)

end Mirror

end MinicOs
