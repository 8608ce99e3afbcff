import MinicOs.Fs.Refine

/-!
# Which paths MiniFS reads as they are meant

An operation acts at the node `split_path` names. It should act at the node named by the components
of the path, and fail on a path that has more components, or longer ones, than MiniFS can hold.
-/

namespace MinicOs

open List FsOp

/-- The sectors an operation may take. -/
def FsOp.sectors : FsOp → Nat
  | .write _ data => sectorsFor data.length
  | .mkdir _ => 1
  | _ => 0

/-- On every disk that holds a tree, every operation on the path that succeeds acts at the node the
components of the path name, and the components are within the limits of MiniFS. -/
def Faithful (path : List U8) : Prop :=
  ∀ (d : Disk) (t : Tree (List U8)) loc next (op : FsOp), Layout d t loc next → op.path = path →
    op.Small → next + op.sectors ≤ 2 ^ 32 → (op.onDisk d).1.Ok →
    (∀ w ∈ components path, w.length ≤ 19) ∧ (components path).length ≤ 8 ∧
      (op.onDisk d).1 = (op.onTree t).1 ∧ ∃ loc' next', Layout (op.onDisk d).2 (op.onTree t).2 loc' next'

section Faithful

variable {path : List U8}

theorem FsOp.taken_le (op : FsOp) (p : List (List U8)) (t : Tree (List U8)) : op.taken p t ≤ op.sectors := by
  cases op with
  | write _ data => exact Tree.taken_le _ _ _
  | mkdir _ => exact Tree.taken_le _ _ _
  | _ => exact le_rfl

/-- A path without components is refused by every operation. -/
theorem FsOp.not_ok_of_nil {op : FsOp} (d : Disk) (hp : splitPath op.path = []) : ¬ (op.onDisk d).1.Ok := by
  cases op <;> dsimp only [FsOp.path] at hp
  case write => simp [onDisk, fsWriteFile, fsCreate, hp, resolveParent, FsResult.Ok]
  case mkdir => simp [onDisk, fsCreateDir, fsCreate, hp, resolveParent, FsResult.Ok]
  case delete => simp [onDisk, fsDeleteFile, hp, lookupEntry_nil, FsResult.Ok]
  case setOwner => simp [onDisk, fsSetOwner, fsUpdate, hp, lookupEntry_nil, FsResult.Ok]
  case setMode => simp [onDisk, fsSetMode, fsUpdate, hp, lookupEntry_nil, FsResult.Ok]
  case read => simp [onDisk, fsReadFile, hp, lookupEntry_nil, FsResult.Ok]
  case stat => simp [onDisk, fsStatFile, hp, lookupEntry_nil, FsResult.Ok]
  case getOwnerMode => simp [onDisk, fsGetOwnerMode, hp, lookupEntry_nil, FsResult.Ok]

theorem PathOk.faithful (h0 : (0 : U8) ∉ path) (hpath : PathOk path) : Faithful path := by
  rintro d t loc next op h rfl hsmall hle hok
  have hsplit := splitPath_eq_components_iff.mpr hpath
  have hne : splitPath op.path ≠ [] := fun hnil => not_ok_of_nil d hnil hok
  have htaken := op.taken_le (splitPath op.path) t
  obtain ⟨hres, hlay⟩ := h.step hne h0 hsmall (by omega)
  rw [hsplit] at hres hlay
  exact ⟨hpath.2.1, hpath.2.2, hres, hlay.imp fun _ h => ⟨_, h⟩⟩

/-- **Some disk holds a given chain of directories** and nothing else. -/
theorem exists_chain (comps : List (List U8)) (hcomps : ∀ w ∈ comps, w.length ≤ 19 ∧ (0 : U8) ∉ w)
    (hlen : comps.length ≤ 8) : ∃ d t loc, Layout d t loc (502 + comps.length) ∧
      (∀ p, p <+: comps → t.IsDir p) ∧ ∀ p, t p ≠ none → p <+: comps := by
  induction comps using List.reverseRecOn with
  | nil =>
    refine ⟨mkfs fun _ => zeroSector, Tree.empty, _, mkfs_layout _, fun p hp => ?_, fun p hp => ?_⟩
    · rw [prefix_nil.mp hp]
      exact ⟨0, 0, rfl⟩
    · cases p with
      | nil => exact prefix_refl _
      | cons c cs => exact absurd rfl hp
  | append_singleton comps n ih =>
    rw [length_append, length_singleton] at hlen
    obtain ⟨d, t, loc, h, hdirs, honly⟩ := ih (fun w hw => hcomps w (by simp [hw])) (by omega)
    obtain ⟨hn, hn0⟩ := hcomps n (by simp)
    have hnone : t (comps ++ [n]) = none := by
      by_contra hne
      have hle := (honly _ hne).length_le
      rw [length_append, length_singleton] at hle
      omega
    have hempty : t.children comps = ∅ := by
      ext m
      simp only [Tree.children, Set.mem_ofPred_eq, Set.mem_empty_iff_false, iff_false, ne_eq, not_not]
      by_contra hne
      have hle := (honly _ hne).length_le
      rw [length_append, length_singleton] at hle
      omega
    have hroom : t.Room (comps ++ [n]) := by
      refine ⟨by simp, ?_, hnone, ?_⟩ <;> rw [dropLast_concat]
      · exact hdirs comps (prefix_refl _)
      · rw [hempty, Set.ncard_empty]
        decide
    have htaken : t.taken (comps ++ [n]) (.dir 0 0) = 1 := if_pos hroom
    have hle : 502 + comps.length + t.taken (comps ++ [n]) (.dir 0 0) ≤ 2 ^ 32 := by
      omega
    obtain ⟨-, loc', h'⟩ := @Layout.creates d t loc _ comps n h (.dir 0 0)
      (fun lba d => writeSector d lba zeroSector) hn hn0 rfl rfl (by simp [Node.bytes]) hle fills_dir
    have hcreate : (t.create (comps ++ [n]) (.dir 0 0)).2 = t.put (comps ++ [n]) (.dir 0 0) := by
      unfold Tree.create
      rw [if_pos hroom]
    rw [hcreate, htaken] at h'
    refine ⟨_, _, loc', by rwa [length_append, length_singleton, ← Nat.add_assoc],
      fun p hp => ?_, fun p hp => ?_⟩
    · rcases prefix_concat_iff.mp hp with rfl | hp
      · exact ⟨0, 0, Tree.put_self _ _ _⟩
      · refine (hdirs p hp).put fun heq => ?_
        have hle := hp.length_le
        rw [heq, length_append, length_singleton] at hle
        omega
    · by_cases heq : p = comps ++ [n]
      · rw [heq]
      · rw [Tree.put_of_ne heq] at hp
        exact (honly p hp).trans (prefix_append _ _)

theorem splitPath_ne_nil (hne : path ≠ []) : splitPath path ≠ [] := by
  cases path with
  | nil => exact absurd rfl hne
  | cons c cs => simp [splitPath, splitLoop]

/-- On a path that is read as it is meant, changing the owner of a node at the end of a chain of
directories is refused where the components name nothing. -/
theorem Faithful.pathOk (h0 : (0 : U8) ∉ path) (hf : Faithful path) : PathOk path := by
  by_cases hnil : path = []
  · subst hnil
    decide
  have hne := splitPath_ne_nil hnil
  obtain ⟨d, t, loc, h, hdirs, honly⟩ := exists_chain (splitPath path)
    (fun w hw => ⟨(mem_splitLoop hw).1, fun hw0 => h0 ((mem_splitLoop hw).2.2 0 hw0)⟩)
    (splitLoop_length_le _ _ _)
  obtain ⟨owner, mode, hnode⟩ := hdirs _ (prefix_refl _)
  have hlen : (splitPath path).length ≤ 8 := splitLoop_length_le 19 8 path
  have hagree := @Layout.step d t loc _ h (.setOwner path 7 0) hne h0 trivial (by
    show 502 + (splitPath path).length + 0 ≤ 2 ^ 32
    omega)
  have hchange : t.change (splitPath path) 0 (Node.setOwner 7) =
      (true, t.put (splitPath path) (.dir 7 mode)) := by
    simp [Tree.change, hnode, Node.setOwner]
  have hok : ((setOwner path 7 0).onDisk d).1.Ok := by
    rw [hagree.1]
    show (FsResult.done (t.change (splitPath path) 0 (Node.setOwner 7)).1).Ok
    rw [hchange]
    rfl
  obtain ⟨hshort, hfew, hres, loc', next', hlay⟩ := hf d t loc _ (.setOwner path 7 0) h rfl trivial
    (by show 502 + (splitPath path).length + 0 ≤ 2 ^ 32; omega) hok
  refine ⟨fun hhead => ?_, hshort, hfew⟩
  -- a leading separator makes the chain begin with an empty name, which no component is
  obtain ⟨ws, hws⟩ : ∃ ws, splitPath path = [] :: ws := by
    cases path with
    | nil => exact absurd rfl hnil
    | cons c cs =>
      obtain rfl : c = slash := by simpa using hhead
      exact ⟨_, by simp [splitPath, splitLoop]; rfl⟩
  cases hcomps : components path with
  | nil =>
    have hroot := hlay.root
    have hput : ((setOwner path 7 0).onTree t).2 [] = some (.dir 7 0) := by
      simp [onTree, onNode, FsOp.path, hcomps, Tree.change, h.root, Node.setOwner]
    rw [hput] at hroot
    simp at hroot
  | cons c cs =>
    have hc : c ≠ [] := components_ne_nil (by rw [hcomps]; simp)
    have hnone : t (c :: cs) = none := by
      by_contra hne'
      have hpre := honly _ hne'
      rw [hws] at hpre
      exact hc (cons_prefix_cons.mp hpre).1
    have hfalse : ((setOwner path 7 0).onTree t).1 = .done false := by
      simp [onTree, onNode, FsOp.path, hcomps, Tree.change, hnone]
    rw [hres, hfalse] at hok
    simp [FsResult.Ok] at hok

/-- **When a path is read as it is meant.** -/
theorem path_faithful_iff (h0 : (0 : U8) ∉ path) : Faithful path ↔ PathOk path :=
  ⟨Faithful.pathOk h0, PathOk.faithful h0⟩

end Faithful

/-! ## A name of twenty characters -/

/-- `"aaaaaaaaaaaaaaaaaaab"`. -/
def longName : List U8 := List.replicate 19 0x61 ++ [0x62]

/-- The disk after `fs_create_dir` of the first nineteen characters. -/
def longDisk : Disk := (fsCreateDir (mkfs fun _ => zeroSector) (List.replicate 19 0x61)).2

theorem path_faithful_iff_twoNames : Faithful [0x61, slash, 0x62] :=
  (path_faithful_iff (by decide)).mpr (by decide)

/-- `fs_write_file` of the long name makes a file `b` in the directory of its first nineteen
characters. -/
theorem longName_resolved : components longName = [longName] ∧ (fsWriteFile longDisk longName [1]).1 = true ∧
    fsStatFile (fsWriteFile longDisk longName [1]).2 (joinPath [List.replicate 19 0x61, [0x62]]) =
      some (1, false, 0, 0) ∧ ¬ Faithful longName := by
  refine ⟨by decide, by decide +kernel, by decide +kernel, fun h => ?_⟩
  exact absurd (h.pathOk (by decide)) (by decide)

end MinicOs
