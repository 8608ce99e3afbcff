import MinicOs.Fs.Refine
import MinicOs.Ipc.File

/-!
# What closing a file object does to the files

`file_object_close` of a path in `/system` deletes what stands there, writes the content of the
object, and makes the opener the owner: on the tree of files, `Tree.overwrite`.

* `Tree.overwrite_apart`: what is not at the path or below it stays.
-/

namespace MinicOs

open List

/-! ## Paths in `/system` -/

variable {path : List U8}

theorem minifsPath_system (h : inSystemMount path = true) : minifsPath path = some (stripSystemPrefix path) := by
  have hm : vfsFindMount path = some ⟨systemPoint, .minifs, []⟩ := by
    unfold vfsFindMount bootMounts
    rw [find?_cons_of_pos (by exact h)]
  refine minifsPath_eq_some.mpr ⟨_, hm, rfl, ?_⟩
  simp [fullPath, vfsStrip, stripSystemPrefix]

theorem stripSystemPrefix_sublist (path : List U8) : (stripSystemPrefix path).Sublist path := by
  unfold stripSystemPrefix
  simp only
  split
  · exact (tail_sublist _).trans (drop_sublist _ _)
  · exact drop_sublist _ _

theorem stripSystemPrefix_length_le (path : List U8) : (stripSystemPrefix path).length ≤ path.length :=
  (stripSystemPrefix_sublist path).length_le

theorem length_le_stripSystemPrefix (path : List U8) : path.length ≤ (stripSystemPrefix path).length + 8 := by
  have hlen : systemPoint.length = 7 := rfl
  unfold stripSystemPrefix
  simp only
  split <;> simp only [length_tail, length_drop, hlen] <;> omega

theorem notMem_stripSystemPrefix (h0 : (0 : U8) ∉ path) : (0 : U8) ∉ stripSystemPrefix path :=
  fun h => h0 ((stripSystemPrefix_sublist path).subset h)

/-! ## Overwriting in the tree -/

namespace Tree

variable {t : Tree (List U8)} {p q : List (List U8)} {bytes : List U8} {uid : U8}

/-- Delete what stands at `p`, then create a file there and give it to `uid`. -/
noncomputable def overwrite (t : Tree (List U8)) (p : List (List U8)) (bytes : List U8) (uid : U8) : Tree (List U8) :=
  if p = [] then t
  else
    let r := (t.delete p).2.create p (.file bytes 0 0)
    if r.1 = true then (r.2.change p 0 (Node.setOwner uid)).2 else r.2

theorem create_ok {node : Node} : (t.create p node).1 = true ↔ t.Room p := by
  unfold create
  split
  · rename_i h
    exact ⟨fun _ => h, fun _ => rfl⟩
  · rename_i h
    exact ⟨fun hf => absurd hf (by simp), fun hr => absurd hr h⟩

theorem overwrite_apart (h : p = [] ∨ ¬ p <+: q) : t.overwrite p bytes uid q = t q := by
  unfold overwrite
  by_cases hp : p = []
  · rw [if_pos hp]
  have hpq : ¬ p <+: q := h.resolve_left hp
  have hne : q ≠ p := fun heq => hpq (heq ▸ prefix_refl _)
  rw [if_neg hp]
  split
  · rw [change_frame hne, create_frame hne, delete_frame hpq]
  · rw [create_frame hne, delete_frame hpq]

theorem overwrite_below (hp : p ≠ []) (hpq : p <+: q) (hne : q ≠ p) (h : t p ≠ none) : t.overwrite p bytes uid q = none := by
  obtain ⟨node, hnode⟩ := Option.ne_none_iff_exists'.mp h
  have hdel : (t.delete p).2 q = none := by
    unfold delete
    rw [hnode]
    exact remove_below hpq
  unfold overwrite
  rw [if_neg hp]
  split
  · rw [change_frame hne, create_frame hne, hdel]
  · rw [create_frame hne, hdel]

/-- With room once the old node is gone, the new file stands there. -/
theorem overwrite_of_room (hp : p ≠ []) (h : (t.delete p).2.Room p) :
    t.overwrite p bytes uid p = some (.file bytes uid 0) := by
  unfold overwrite create
  rw [if_neg hp, if_pos h]
  simp [change, Node.setOwner]

end Tree

section Commit

variable {d : Disk} {t : Tree (List U8)} {loc : List (List U8) → Nat} {next : Nat}
  {p : List (List U8)} {bytes : List U8} {uid : U8}

/-- **What stood at the path is replaced.** -/
theorem Layout.overwrite_self (h : Layout d t loc next) (hp : p ≠ []) (hnode : t p ≠ none) :
    t.overwrite p bytes uid p = some (.file bytes uid 0) :=
  Tree.overwrite_of_room hp (h.room_of_delete hp hnode)

theorem fsDeleteFile_nil (h : splitPath path = []) : fsDeleteFile d path = (false, d) := by
  unfold fsDeleteFile
  rw [h, lookupEntry_nil]

theorem fsWriteFile_nil {data : List U8} (h : splitPath path = []) : fsWriteFile d path data = (false, d) := by
  unfold fsWriteFile
  rw [h]
  rfl

theorem fsGetOwnerMode_nil (h : splitPath path = []) : fsGetOwnerMode d path = none := by
  unfold fsGetOwnerMode
  rw [h, lookupEntry_nil, Option.map_none]

theorem OpenFile.sectors_le (f : OpenFile) : (Node.file f.content 0 0).sectors ≤ 8 := by
  have hle := f.length_le
  unfold fileMaxSize at hle
  show sectorsFor f.content.length ≤ 8
  unfold sectorsFor
  omega

theorem OpenFile.content_lt (f : OpenFile) : f.content.length < 2 ^ 31 := by
  have hle := f.length_le
  unfold fileMaxSize at hle
  omega

theorem Layout.commit_overwrites {fs : FileSystems} (h : Layout fs.disk t loc next) {f : OpenFile}
    (hsys : inSystemMount f.path = true) (h0 : (0 : U8) ∉ f.path) (hle : next + 8 ≤ 2 ^ 32) :
    ∃ ok d' loc' next', commit fs f = some (ok, { fs with disk := d' }) ∧
      (ok = true ↔ (t.delete (splitPath (stripSystemPrefix f.path))).2.Room
        (splitPath (stripSystemPrefix f.path))) ∧ next ≤ next' ∧ next' ≤ next + 8 ∧
      Layout d' (t.overwrite (splitPath (stripSystemPrefix f.path)) f.content f.ownerUid) loc' next' := by
  have hlen : (stripSystemPrefix f.path).length < 200 := by
    have h1 := stripSystemPrefix_length_le f.path
    have h2 := f.path_le
    omega
  have h0' := notMem_stripSystemPrefix h0
  unfold commit
  rw [if_pos hsys]
  simp only
  rw [vfsWrite_minifs (minifsPath_system hsys) hlen]
  generalize stripSystemPrefix f.path = stripped at h0'
  by_cases hnil : splitPath stripped = []
  · rw [fsDeleteFile_nil hnil, blocked, fsGetOwnerMode_nil hnil, fsWriteFile_nil hnil]
    refine ⟨false, fs.disk, loc, next, by simp, by simp [hnil, Tree.Room], le_refl _, by omega, ?_⟩
    rw [Tree.overwrite, if_pos hnil]
    exact h
  · obtain ⟨-, loc1, h1⟩ := h.delete_agrees hnil
    generalize (fsDeleteFile fs.disk stripped).2 = d1 at h1
    have htaken : ((t.delete (splitPath stripped)).2.taken (splitPath stripped) (.file f.content 0 0)) ≤ 8 :=
      (Tree.taken_le _ _ _).trans f.sectors_le
    obtain ⟨hok, loc2, h2⟩ := h1.write_agrees hnil h0' f.content_lt (by omega)
    have hfree : blocked d1 stripped modeOwnerOnlyWrite f.ownerUid = false := by
      unfold blocked
      rw [h1.ownerMode_eq hnil, Tree.delete_self]
      rfl
    obtain ⟨-, loc3, h3⟩ := h2.setOwner_agrees hnil f.ownerUid 0
    have hnext := Nat.add_le_add_left htaken next
    have hroom := @Tree.create_ok (t.delete (splitPath stripped)).2 (splitPath stripped)
      (.file f.content 0 0)
    unfold Tree.overwrite
    rw [if_neg hnil, ← hroom]
    simp only [← hok, hfree, Bool.false_eq_true, if_false]
    cases hres : (fsWriteFile d1 stripped f.content).1 with
    | true =>
      refine ⟨true, _, loc3, _, ?_, Iff.rfl, Nat.le_add_right _ _, hnext, h3⟩
      simp [hres]
    | false =>
      refine ⟨false, _, loc2, _, ?_, Iff.rfl, Nat.le_add_right _ _, hnext, h2⟩
      simp [hres, Prod.map]

end Commit

end MinicOs
