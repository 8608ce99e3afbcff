import MinicOs.Fs.Sector

/-!
# tmpfs

Model of `kernel/fs/tmpfs/tmpfs.c`: eight named buffers of at most 4096 bytes, with names of at most
19 characters. A write to a name that is there replaces what it holds.
-/

namespace MinicOs

open Function

def tmpfsSlots : Nat := 8

def tmpfsMaxSize : Nat := 4096

/-- `tmpfs_entry`: the first `size` bytes of the buffer. -/
structure TmpfsEntry where
  used : Bool
  name : List U8
  content : List U8

/-- `g_tmpfs_entries`. -/
abbrev Tmpfs := Nat → TmpfsEntry

/-- `find_entry`. -/
def tmpfsFind (e : Tmpfs) (name : List U8) : Option Nat :=
  scan tmpfsSlots fun i => (e i).used && (e i).name == name

/-- `tmpfs_read`: the result and the bytes copied out. -/
def tmpfsRead (e : Tmpfs) (name : List U8) (maxLen : Nat) : Int × List U8 :=
  match tmpfsFind e name with
  | none => (-1, [])
  | some slot =>
    if maxLen < (e slot).content.length then (-2, [])
    else ((e slot).content.length, (e slot).content)

/-- `tmpfs_write`; `copy_name` keeps 19 characters of a new name. -/
def tmpfsWrite (e : Tmpfs) (name data : List U8) : Bool × Tmpfs :=
  if tmpfsMaxSize < data.length then (false, e)
  else
    match tmpfsFind e name with
    | some slot => (true, update e slot { e slot with content := data })
    | none =>
      match scan tmpfsSlots fun i => !(e i).used with
      | none => (false, e)
      | some slot =>
        (true, update e slot { used := true, name := name.take 19, content := data })

def tmpfsDelete (e : Tmpfs) (name : List U8) : Bool × Tmpfs :=
  match tmpfsFind e name with
  | none => (false, e)
  | some slot => (true, update e slot { e slot with used := false })

/-- `tmpfs_stat`: the size; nothing is a directory. -/
def tmpfsStat (e : Tmpfs) (name : List U8) : Option Nat :=
  (tmpfsFind e name).map fun slot => (e slot).content.length

/-- The bytes of the file of a name. -/
def Tmpfs.contents (e : Tmpfs) (name : List U8) : Option (List U8) :=
  (tmpfsFind e name).map fun slot => (e slot).content

/-- No two files have one name. A name that was cut off when it was written can be another's. -/
def Tmpfs.Distinct (e : Tmpfs) : Prop :=
  ∀ i j, i < tmpfsSlots → j < tmpfsSlots → (e i).used = true → (e j).used = true →
    (e i).name = (e j).name → i = j

section Tmpfs

variable {e : Tmpfs} {name data : List U8}

theorem tmpfsFind_eq_none : tmpfsFind e name = none ↔ ∀ i, i < tmpfsSlots → ¬ ((e i).used = true ∧ (e i).name = name) := by
  unfold tmpfsFind
  rw [scan_eq_none]
  refine forall₂_congr fun i _ => ?_
  simp

theorem Tmpfs.contents_eq_none : e.contents name = none ↔ tmpfsFind e name = none := by
  simp [Tmpfs.contents]

/-- What a read of a file of these bytes returns. -/
def readOf (file : Option (List U8)) (maxLen : Nat) : Int × List U8 :=
  match file with
  | none => (-1, [])
  | some bytes => if maxLen < bytes.length then (-2, []) else (bytes.length, bytes)

theorem tmpfsRead_eq (e : Tmpfs) (name : List U8) (maxLen : Nat) :
    tmpfsRead e name maxLen = readOf (e.contents name) maxLen := by
  unfold tmpfsRead Tmpfs.contents
  cases tmpfsFind e name <;> rfl

theorem tmpfsStat_eq (e : Tmpfs) (name : List U8) : tmpfsStat e name = (e.contents name).map List.length := by
  unfold tmpfsStat Tmpfs.contents
  rw [Option.map_map]
  rfl

/-! ## Files under distinct names -/

theorem Tmpfs.Distinct.find_iff (h : e.Distinct) {i : Nat} : tmpfsFind e name = some i ↔
    i < tmpfsSlots ∧ (e i).used = true ∧ (e i).name = name := by
  unfold tmpfsFind
  rw [scan_eq_some]
  simp only [Bool.and_eq_true, beq_iff_eq]
  refine and_congr_right fun hi => and_iff_left_of_imp fun ⟨hu, hn⟩ j hj => ?_
  by_contra hne
  obtain ⟨huj, hnj⟩ : (e j).used = true ∧ (e j).name = name := by simpa using hne
  have := h i j hi (by omega) hu huj (hn.trans hnj.symm)
  omega

theorem Tmpfs.Distinct.contents_eq_some (h : e.Distinct) : e.contents name = some data ↔
    ∃ i, i < tmpfsSlots ∧ (e i).used = true ∧ (e i).name = name ∧ (e i).content = data := by
  unfold Tmpfs.contents
  simp only [Option.map_eq_some_iff, h.find_iff, and_assoc]

/-- **A change of one slot**, to a file of a name no other slot has: the file that was there is gone, the new
one is there, and the others are as they were. -/
theorem Tmpfs.Distinct.set (h : e.Distinct) {i : Nat} (hi : i < tmpfsSlots) (f : TmpfsEntry)
    (hfree : f.used = true → ∀ j, j < tmpfsSlots → j ≠ i → (e j).used = true → (e j).name ≠ f.name) :
    Tmpfs.Distinct (update e i f) ∧ ∀ n, Tmpfs.contents (update e i f) n = if f.used = true ∧ f.name = n then some f.content
      else if (e i).used = true ∧ (e i).name = n then none else e.contents n := by
  have hself : update e i f i = f := update_self ..
  have hslot : ∀ {j}, j ≠ i → update e i f j = e j := fun hj => update_of_ne hj _ _
  have hdistinct : Tmpfs.Distinct (update e i f) := fun j k hj hk huj huk hjk => by
    by_cases hji : j = i <;> by_cases hki : k = i
    · rw [hji, hki]
    · rw [hji, hself] at huj hjk
      rw [hslot hki] at huk hjk
      exact absurd hjk.symm (hfree huj k hk hki huk)
    · rw [hki, hself] at huk hjk
      rw [hslot hji] at huj hjk
      exact absurd hjk (hfree huk j hj hji huj)
    · rw [hslot hji] at huj hjk
      rw [hslot hki] at huk hjk
      exact h j k hj hk huj huk hjk
  refine ⟨hdistinct, fun n => Option.ext fun bytes => ?_⟩
  rw [hdistinct.contents_eq_some]
  split
  next hnew =>
    constructor
    · rintro ⟨j, hj, hu, hn, rfl⟩
      by_cases hji : j = i
      · rw [hji, hself]
      · rw [hslot hji] at hu hn
        exact absurd (hn.trans hnew.2.symm) (hfree hnew.1 j hj hji hu)
    · intro hbytes
      refine ⟨i, hi, ?_⟩
      rw [hself]
      exact ⟨hnew.1, hnew.2, Option.some.inj hbytes⟩
  next hnew =>
    have hother : (∃ j, j < tmpfsSlots ∧ (update e i f j).used = true ∧
        (update e i f j).name = n ∧ (update e i f j).content = bytes) ↔
        ∃ j, (j < tmpfsSlots ∧ (e j).used = true ∧ (e j).name = n ∧ (e j).content = bytes) ∧ j ≠ i := by
      refine exists_congr fun j => ?_
      by_cases hji : j = i
      · rw [hji, hself]
        exact iff_of_false (fun hf => hnew ⟨hf.2.1, hf.2.2.1⟩) fun hf => hf.2 rfl
      · rw [hslot hji]
        exact (and_iff_left hji).symm
    rw [hother]
    split
    next hold =>
      refine iff_of_false (fun ⟨j, ⟨hj, hu, hn, _⟩, hji⟩ => hji ?_) (by simp)
      exact h j i hj hi hu hold.1 (hn.trans hold.2.symm)
    next hold =>
      rw [h.contents_eq_some]
      exact exists_congr fun j => and_iff_left_of_imp fun ⟨_, hu, hn, _⟩ hji =>
        hold ⟨hji ▸ hu, hji ▸ hn⟩

/-- **Deleting a file** leaves no file of its name, and the others as they are. -/
theorem Tmpfs.Distinct.delete (h : e.Distinct) (name : List U8) : (tmpfsDelete e name).2.Distinct ∧
      (tmpfsDelete e name).2.contents = update e.contents name none := by
  unfold tmpfsDelete
  cases hf : tmpfsFind e name with
  | none => exact ⟨h, (update_eq_self_iff.mpr (Tmpfs.contents_eq_none.mpr hf).symm).symm⟩
  | some i =>
    obtain ⟨hi, hu, hn⟩ := h.find_iff.mp hf
    obtain ⟨hdistinct, hcontents⟩ := h.set hi { e i with used := false } (by simp)
    refine ⟨hdistinct, funext fun n => (hcontents n).trans ?_⟩
    simp [update_apply, hu, hn, eq_comm]

/-- **Writing a file** that fits puts it under its name, or fails and changes nothing. -/
theorem Tmpfs.Distinct.write (h : e.Distinct) (name data : List U8) (hname : name.length ≤ 19) :
    (tmpfsWrite e name data = (false, e) ∧ (data.length ≤ tmpfsMaxSize →
        tmpfsFind e name = none ∧ ∀ i, i < tmpfsSlots → (e i).used = true)) ∨
      ((tmpfsWrite e name data).1 = true ∧ (tmpfsWrite e name data).2.Distinct ∧
        (tmpfsWrite e name data).2.contents = update e.contents name (some data)) := by
  unfold tmpfsWrite
  by_cases hbig : tmpfsMaxSize < data.length
  · exact .inl ⟨if_pos hbig, fun hdata => absurd hdata (Nat.not_le.mpr hbig)⟩
  rw [if_neg hbig]
  cases hf : tmpfsFind e name with
  | some i =>
    obtain ⟨hi, hu, hn⟩ := h.find_iff.mp hf
    obtain ⟨hdistinct, hcontents⟩ := h.set hi { e i with content := data }
      fun _ j hj hji huj hnj => hji (h j i hj hi huj hu hnj)
    refine .inr ⟨rfl, hdistinct, funext fun n => (hcontents n).trans ?_⟩
    rcases eq_or_ne name n with rfl | hne
    · simp [hu, hn]
    · simp [hu, hn, hne, hne.symm]
  | none =>
    have hnew := tmpfsFind_eq_none.mp hf
    rw [List.take_of_length_le hname]
    cases hs : scan tmpfsSlots fun i => !(e i).used with
    | none => exact .inl ⟨rfl, fun _ => ⟨rfl, fun i hi => by simpa using scan_eq_none.mp hs i hi⟩⟩
    | some slot =>
      obtain ⟨hi, hfree, -⟩ := scan_eq_some.mp hs
      obtain ⟨hdistinct, hcontents⟩ := h.set hi ⟨true, name, data⟩
        fun _ j hj _ huj hnj => hnew j hj ⟨huj, hnj⟩
      refine .inr ⟨rfl, hdistinct, funext fun n => (hcontents n).trans ?_⟩
      have hunused : (e slot).used = false := by simpa using hfree
      simp [update_apply, hunused, eq_comm]

end Tmpfs

/-! ## Runs of calls -/

inductive TmpfsCall where
  | write (name data : List U8)
  | read (name : List U8) (maxLen : Nat)
  | delete (name : List U8)
  | stat (name : List U8)

/-- A write has a name that fits, or data that does not. -/
def TmpfsCall.Storable : TmpfsCall → Prop
  | .write name data => name.length ≤ 19 ∨ tmpfsMaxSize < data.length
  | _ => True

instance (call : TmpfsCall) : Decidable call.Storable := by
  cases call <;> unfold TmpfsCall.Storable <;> infer_instance

abbrev FileMap := List U8 → Option (List U8)

/-- A call on the table, and on the map it stands for: a write that returns true puts the data under the
name, and a delete takes the name out. -/
def tmpfsStep (s : Tmpfs × FileMap) : TmpfsCall → Tmpfs × FileMap
  | .write name data =>
    ((tmpfsWrite s.1 name data).2,
      if (tmpfsWrite s.1 name data).1 = true then update s.2 name (some data) else s.2)
  | .delete name => ((tmpfsDelete s.1 name).2, update s.2 name none)
  | .read _ _ | .stat _ => s

/-- The calls in turn, from the empty table. -/
def tmpfsRun (calls : List TmpfsCall) : Tmpfs × FileMap :=
  calls.foldl tmpfsStep (fun _ => ⟨false, [], []⟩, fun _ => none)

/-- The table is the map: a read and a stat return what the map holds under the name, a name has one slot,
and no name is stored that does not fit. -/
structure TmpfsIsMap (s : Tmpfs × FileMap) : Prop where
  read : ∀ name maxLen, tmpfsRead s.1 name maxLen = readOf (s.2 name) maxLen
  stat : ∀ name, tmpfsStat s.1 name = (s.2 name).map List.length
  slots : s.1.Distinct
  stored : ∀ name, 19 < name.length → s.2 name = none

/-- What the calls keep. -/
structure TmpfsHolds (s : Tmpfs × FileMap) : Prop where
  distinct : s.1.Distinct
  contents : s.1.contents = s.2
  fits : ∀ name, 19 < name.length → s.2 name = none

theorem TmpfsHolds.step {s : Tmpfs × FileMap} (h : TmpfsHolds s) {call : TmpfsCall}
    (hcall : call.Storable) : TmpfsHolds (tmpfsStep s call) := by
  cases call with
  | write name data =>
    rcases hcall with hname | hbig
    swap
    · rw [tmpfsStep, tmpfsWrite, if_pos hbig]
      exact h
    rcases h.distinct.write name data hname with ⟨hfail, -⟩ | ⟨hok, hdist, hcontents⟩
    · rw [tmpfsStep, hfail]
      exact h
    · rw [tmpfsStep, if_pos hok]
      refine ⟨hdist, by rw [hcontents, h.contents], fun other hlong => ?_⟩
      exact (update_of_ne (by rintro rfl; omega) _ _).trans (h.fits other hlong)
  | delete name =>
    obtain ⟨hdist, hcontents⟩ := h.distinct.delete name
    refine ⟨hdist, by rw [tmpfsStep, hcontents, h.contents], fun other hlong => ?_⟩
    simp [tmpfsStep, update_apply, h.fits other hlong]
  | read | stat => exact h

/-- **tmpfs is a map from names to contents** after every run of calls in which what is stored has a name of
at most 19 characters. -/
theorem tmpfs_is_map (calls : List TmpfsCall) (hfits : ∀ call ∈ calls, call.Storable) : TmpfsIsMap (tmpfsRun calls) := by
  have hholds : TmpfsHolds (tmpfsRun calls) := by
    refine List.foldlRecOn calls tmpfsStep ⟨fun i j _ _ hi => by simp at hi, funext fun _ => rfl, fun _ _ => rfl⟩
      fun s hs call hcall => hs.step (hfits call hcall)
  exact ⟨fun name maxLen => by rw [tmpfsRead_eq, hholds.contents],
    fun name => by rw [tmpfsStat_eq, hholds.contents], hholds.distinct, hholds.fits⟩

/-- Two files, one of them written again and the other deleted; a read of a name that does not fit. -/
theorem tmpfs_is_map_two : TmpfsIsMap (tmpfsRun
    [.write [0x61] [1], .write [0x62] [2], .write [0x61] [3], .delete [0x62], .read (List.replicate 20 0x61) 8]) :=
  tmpfs_is_map _ (by decide)

/-- A name of 20 characters is cut off when it is stored: two writes of it succeed and take two slots under
one name, and a read does not find it. -/
theorem not_map_long_name : (tmpfsWrite (tmpfsRun []).1 (List.replicate 20 0x61) [1]).1 = true ∧
    (tmpfsWrite (tmpfsRun [.write (List.replicate 20 0x61) [1]]).1 (List.replicate 20 0x61) [2]).1 = true ∧
    tmpfsRead (tmpfsRun [.write (List.replicate 20 0x61) [1], .write (List.replicate 20 0x61) [2]]).1
      (List.replicate 20 0x61) 8 = (-1, []) ∧
    ¬ TmpfsIsMap (tmpfsRun [.write (List.replicate 20 0x61) [1], .write (List.replicate 20 0x61) [2]]) := by
  refine ⟨by decide, by decide, by decide, fun h => ?_⟩
  have htwice := h.slots 0 1 (by decide) (by decide) (by decide) (by decide) (by decide)
  simp at htwice

end MinicOs
