import MinicOs.Fs.MiniFs
import MinicOs.Fs.Tree

/-!
# A tree on a disk

`Layout d t loc next` says that the disk `d` holds the tree `t`: the node at a path `p` has its
sectors from `loc p` on, the sectors of different nodes are apart, all of them below `next`, the
counter in the superblock; and a directory's sector lists exactly its children.
-/

namespace MinicOs

open Function List Nat Node

def Node.sectors : Node → Nat
  | .file bytes _ _ => sectorsFor bytes.length
  | .dir .. => 1

/-- The entry for a node whose sectors start at `lba`. -/
structure EntryFor (e : DirEntry) (lba : Nat) (node : Node) : Prop where
  start : e.startLba = lba % 2 ^ 32
  size : e.sizeBytes = node.bytes.length
  kind : e.isDir = node.isDir
  owner : e.ownerUid = node.owner
  mode : e.mode = node.mode

/-- The sector of the directory at `p` lists its children. -/
structure DirSector (s : Sector) (t : Tree (List U8)) (loc : List (List U8) → Nat) (p : List (List U8)) :
    Prop where
  entry : ∀ i, i < 16 → (entryAt s i).used = true →
    ∃ node, t (p ++ [(entryAt s i).name]) = some node ∧
      EntryFor (entryAt s i) (loc (p ++ [(entryAt s i).name])) node
  listed : ∀ n, t (p ++ [n]) ≠ none → ∃ i, i < 16 ∧ (entryAt s i).used = true ∧ (entryAt s i).name = n
  distinct : ∀ i j, i < 16 → j < 16 → (entryAt s i).used = true → (entryAt s j).used = true →
    (entryAt s i).name = (entryAt s j).name → i = j

/-- A sector lists the children of every tree that has the same ones at the same places. -/
theorem DirSector.congr {s : Sector} {t t' : Tree (List U8)} {loc loc' : List (List U8) → Nat} {p : List (List U8)}
    (h : DirSector s t loc p) (ht : ∀ m, t' (p ++ [m]) = t (p ++ [m]))
    (hloc : ∀ m, loc' (p ++ [m]) = loc (p ++ [m])) : DirSector s t' loc' p where
  entry i hi hu := by
    rw [ht, hloc]
    exact h.entry i hi hu
  listed m hm := h.listed m (ht m ▸ hm)
  distinct := h.distinct

/-- An empty sector is that of a directory without children. -/
theorem dirSector_zero {t : Tree (List U8)} {p : List (List U8)} (loc : List (List U8) → Nat)
    (h : ∀ m, t (p ++ [m]) = none) : DirSector zeroSector t loc p :=
  ⟨fun i _ hu => absurd hu (by simp [entryAt, zeroSector]), fun m hm => absurd (h m) hm,
    fun i _ _ _ hu => absurd hu (by simp [entryAt, zeroSector])⟩

/-- The disk holds the tree. -/
structure Layout (d : Disk) (t : Tree (List U8)) (loc : List (List U8) → Nat) (next : Nat) : Prop where
  next_ge : 502 ≤ next
  next_le : next ≤ 2 ^ 32
  stored : getU32 (d superblockLba) 8 = next % 2 ^ 32
  root : t [] = some (.dir 0 0)
  root_loc : loc [] = rootLba
  closed : ∀ p n, t (p ++ [n]) ≠ none → t.IsDir p
  small : ∀ p node, t p = some node → node.bytes.length < 2 ^ 31
  inside : ∀ p node, t p = some node → rootLba ≤ loc p ∧ loc p + node.sectors ≤ next
  apart : ∀ p q a b, p ≠ q → t p = some a → t q = some b →
    loc p + a.sectors ≤ loc q ∨ loc q + b.sectors ≤ loc p
  dirs : ∀ p, t.IsDir p → DirSector (d (loc p)) t loc p
  data : ∀ p bytes owner mode, t p = some (.file bytes owner mode) → ∀ k, k < bytes.length →
    d (loc p + k / 512) (k % 512) = bytes.getD k 0

variable {n : List U8} {node : Node}

section Lookup

variable {d : Disk} {t : Tree (List U8)} {loc : List (List U8) → Nat} {next : Nat} {p : List (List U8)}
  (h : Layout d t loc next)
include h

theorem Layout.find_some (hp : t.IsDir p) (hn : t (p ++ [n]) = some node) : ∃ i, findEntry (d (loc p)) n = some i ∧ i < 16 ∧
      (entryAt (d (loc p)) i).used = true ∧ (entryAt (d (loc p)) i).name = n ∧
      EntryFor (entryAt (d (loc p)) i) (loc (p ++ [n])) node := by
  have hs := h.dirs p hp
  cases hf : findEntry (d (loc p)) n with
  | none =>
    obtain ⟨i, hi, hu, hname⟩ := hs.listed n (by rw [hn]; simp)
    exact absurd ⟨hu, hname⟩ (findEntry_eq_none.mp hf i hi)
  | some i =>
    obtain ⟨hi, hu, hname⟩ := used_of_findEntry hf
    obtain ⟨node', hnode, he⟩ := hs.entry i hi hu
    rw [hname] at hnode he
    rw [hn] at hnode
    cases hnode
    exact ⟨i, rfl, hi, hu, hname, he⟩

theorem Layout.find_none (hp : t.IsDir p) (hn : t (p ++ [n]) = none) : findEntry (d (loc p)) n = none := by
  refine findEntry_eq_none.mpr fun i hi ⟨hu, hname⟩ => ?_
  obtain ⟨node, hnode, -⟩ := (h.dirs p hp).entry i hi hu
  rw [hname, hn] at hnode
  simp at hnode

theorem Layout.dir_inside (hp : t.IsDir p) : rootLba ≤ loc p ∧ loc p < next := by
  obtain ⟨owner, mode, hnode⟩ := hp
  exact h.inside p _ hnode

theorem Layout.dir_lt (hp : t.IsDir p) : loc p < 2 ^ 32 :=
  (h.dir_inside hp).2.trans_le h.next_le

theorem Layout.isDir_of_append (l : List (List U8)) (hl : l ≠ []) (hne : t (p ++ l) ≠ none) : t.IsDir p := by
  induction l using reverseRecOn with
  | nil => exact absurd rfl hl
  | append_singleton l x ih =>
    rw [← append_assoc] at hne
    have hdir := h.closed _ _ hne
    cases l with
    | nil => rwa [append_nil] at hdir
    | cons y ys => exact ih (by simp) hdir.ne_none

/-- **The walk follows the tree.** -/
theorem Layout.walkDirs_eq : ∀ {cs p : List (List U8)}, t.IsDir p →
    ∀ lba, walkDirs d (loc p) cs = some lba ↔ t.IsDir (p ++ cs) ∧ lba = loc (p ++ cs)
  | [], p, hp, lba => by
    rw [append_nil]
    simp [walkDirs, hp, eq_comm]
  | c :: cs, p, hp, lba => by
    have happ : p ++ c :: cs = (p ++ [c]) ++ cs := by simp
    -- where the walk goes on, the next component is a directory
    have hstep : t.IsDir ((p ++ [c]) ++ cs) → t.IsDir (p ++ [c]) := fun hd => by
      cases cs with
      | nil => simpa using hd
      | cons e es => exact h.isDir_of_append (e :: es) (by simp) hd.ne_none
    unfold walkDirs
    cases hn : t (p ++ [c]) with
    | none =>
      rw [h.find_none hp hn, happ]
      simp only [reduceCtorEq, false_iff, not_and]
      exact fun hdir => absurd hn (hstep hdir).ne_none
    | some node =>
      obtain ⟨i, hf, -, -, -, he⟩ := h.find_some hp hn
      rw [hf, happ]
      simp only
      cases node with
      | dir owner mode =>
        have hdir : t.IsDir (p ++ [c]) := ⟨owner, mode, hn⟩
        rw [if_pos (show (entryAt (d (loc p)) i).isDir = true from he.kind), he.start,
          mod_eq_of_lt (h.dir_lt hdir), Layout.walkDirs_eq hdir lba]
      | file bytes owner mode =>
        rw [if_neg (by rw [he.kind]; simp [Node.isDir])]
        simp only [reduceCtorEq, false_iff, not_and]
        exact fun hdir => absurd hn (hstep hdir).ne_file

theorem Layout.root_isDir : t.IsDir [] := ⟨0, 0, h.root⟩

variable {q : List (List U8)}

/-- **A path leads to its parent directory.** -/
theorem Layout.resolveParent_eq {r : Nat × List U8} : resolveParent d (q ++ [n]) = some r ↔ t.IsDir q ∧ r = (loc q, n) := by
  have hwalk := @Layout.walkDirs_eq d t loc next h q [] h.root_isDir
  rw [h.root_loc, nil_append] at hwalk
  unfold resolveParent
  rw [getLast?_concat, dropLast_concat]
  simp only [Option.map_eq_some_iff, hwalk]
  constructor
  · rintro ⟨lba, ⟨hd, rfl⟩, rfl⟩
    exact ⟨hd, rfl⟩
  · rintro ⟨hd, rfl⟩
    exact ⟨_, ⟨hd, rfl⟩, rfl⟩

/-- **A path leads to its entry**, in the parent's sector, if there is one. -/
theorem Layout.lookup_some (hn : t (q ++ [n]) = some node) : ∃ i, lookupEntry d (q ++ [n]) = some (loc q, i) ∧ t.IsDir q ∧
      i < 16 ∧ (entryAt (d (loc q)) i).used = true ∧ (entryAt (d (loc q)) i).name = n ∧
      EntryFor (entryAt (d (loc q)) i) (loc (q ++ [n])) node := by
  have hq : t.IsDir q := h.closed q n (by rw [hn]; simp)
  obtain ⟨i, hf, hi, hu, hname, he⟩ := h.find_some hq hn
  refine ⟨i, ?_, hq, hi, hu, hname, he⟩
  unfold lookupEntry
  rw [h.resolveParent_eq.mpr ⟨hq, rfl⟩]
  simp only [hf, Option.map_some]

theorem Layout.lookup_none (hn : t (q ++ [n]) = none) : lookupEntry d (q ++ [n]) = none := by
  unfold lookupEntry
  cases hr : resolveParent d (q ++ [n]) with
  | none => rfl
  | some r =>
    obtain ⟨hq, rfl⟩ := h.resolveParent_eq.mp hr
    simp only [h.find_none hq hn, Option.map_none]

end Lookup

/-! ## Editing the layout -/

section Edit

variable {d d' : Disk} {t t' : Tree (List U8)} {loc : List (List U8) → Nat} {next : Nat}
  {p q r : List (List U8)}

theorem Node.sectors_congr {a b : Node} (hb : a.bytes = b.bytes) (hd : a.isDir = b.isDir) : a.sectors = b.sectors := by
  cases a <;> cases b <;> simp_all [Node.isDir, Node.bytes, sectors]

theorem div_lt_sectorsFor {k size : Nat} (hk : k < size) (hsize : size < 2 ^ 31) : k / 512 < sectorsFor size := by
  unfold sectorsFor
  omega

theorem bumpFileCount_of_ne {delta : Int} {x : Nat} (hx : x ≠ superblockLba) : bumpFileCount d delta x = d x := by
  exact update_of_ne hx _ _

theorem getU32_bumpFileCount {delta : Int} :
    getU32 (bumpFileCount d delta superblockLba) 8 = getU32 (d superblockLba) 8 := by
  unfold bumpFileCount writeSector
  rw [show superblockLba % 2 ^ 32 = superblockLba from rfl, update_self]
  unfold getU32 setU32
  rw [slice_overlay_of_disjoint (by simp)]

theorem writeSector_self {lba : Nat} {s : Sector} (hlba : lba < 2 ^ 32) : writeSector d lba s lba = s := by
  unfold writeSector
  rw [mod_eq_of_lt hlba, update_self]

theorem writeSector_of_ne {lba x : Nat} {s : Sector} (hlba : lba < 2 ^ 32) (hx : x ≠ lba) : writeSector d lba s x = d x := by
  unfold writeSector
  rw [mod_eq_of_lt hlba, update_of_ne hx]

/-- **A change of one slot** of a directory's sector, in a tree that differs in the names that come and go. -/
theorem DirSector.set {s s' : Sector} {loc' : List (List U8) → Nat} (hs : DirSector s t loc q) {i : Nat} {e' : DirEntry}
    (hi : i < 16) (hset : ∀ j, entryAt s' j = if j = i then e' else entryAt s j)
    (hcome : e'.used = true → (∀ j, j < 16 → j ≠ i → (entryAt s j).used = true → (entryAt s j).name ≠ e'.name) ∧
      ∃ node, t' (q ++ [e'.name]) = some node ∧ EntryFor e' (loc' (q ++ [e'.name])) node)
    (hgo : (entryAt s i).used = true → t' (q ++ [(entryAt s i).name]) ≠ none → e'.used = true ∧ e'.name = (entryAt s i).name)
    (hkeep : ∀ j, j < 16 → j ≠ i → (entryAt s j).used = true → t' (q ++ [(entryAt s j).name]) =
      t (q ++ [(entryAt s j).name]) ∧ loc' (q ++ [(entryAt s j).name]) = loc (q ++ [(entryAt s j).name]))
    (hlisted : ∀ m, t' (q ++ [m]) ≠ none → t (q ++ [m]) ≠ none ∨ e'.used = true ∧ e'.name = m) :
    DirSector s' t' loc' q where
  entry := fun j hj huj => by
    rw [hset] at huj ⊢
    split at huj
    next hji =>
      rw [if_pos hji]
      exact (hcome huj).2
    next hji =>
      rw [if_neg hji, (hkeep j hj hji huj).1, (hkeep j hj hji huj).2]
      exact hs.entry j hj huj
  listed := fun m hm => by
    have hnew : e'.used = true ∧ e'.name = m → ∃ i, i < 16 ∧ (entryAt s' i).used = true ∧ (entryAt s' i).name = m :=
      fun he => ⟨i, hi, by rw [hset, if_pos rfl]; exact he⟩
    refine (hlisted m hm).elim (fun hold => ?_) hnew
    obtain ⟨j, hj, huj, rfl⟩ := hs.listed m hold
    by_cases hji : j = i
    · subst hji
      exact hnew (hgo huj hm)
    · exact ⟨j, hj, by rw [hset, if_neg hji]; exact ⟨huj, rfl⟩⟩
  distinct := fun j k hj hk huj huk hjk => by
    rw [hset] at huj hjk
    rw [hset k] at huk hjk
    by_cases hji : j = i <;> by_cases hki : k = i
    · rw [hji, hki]
    · rw [if_pos hji] at huj hjk
      rw [if_neg hki] at huk hjk
      exact absurd hjk.symm ((hcome huj).1 k hk hki huk)
    · rw [if_neg hji] at huj hjk
      rw [if_pos hki] at huk hjk
      exact absurd hjk ((hcome huk).1 j hj hji huj)
    · rw [if_neg hji] at huj hjk
      rw [if_neg hki] at huk hjk
      exact hs.distinct j k hj hk huj huk hjk

theorem Tree.IsDir.put (hr : t.IsDir r) (hne : r ≠ p) : (t.put p node).IsDir r := by
  obtain ⟨owner, mode, hr⟩ := hr
  exact ⟨owner, mode, (Tree.put_of_ne hne).trans hr⟩

variable (h : Layout d t loc next)
include h

theorem Layout.dir_ne (hq : t.IsDir q) (hr : t.IsDir r) (hne : r ≠ q) : loc r ≠ loc q := by
  obtain ⟨oq, mq, hq⟩ := hq
  obtain ⟨or, mr, hr⟩ := hr
  have hap : loc r + 1 ≤ loc q ∨ loc q + 1 ≤ loc r := h.apart r q _ _ hne hr hq
  omega

theorem Layout.dir_ne_superblock (hq : t.IsDir q) : loc q ≠ superblockLba :=
  (lt_of_lt_of_le (by decide) (h.dir_inside hq).1).ne'

/-- A file's byte lies below `next`, outside the superblock and the directories. -/
theorem Layout.byte_inside {bytes : List U8} {owner mode : U8} {k : Nat}
    (hr : t r = some (.file bytes owner mode)) (hk : k < bytes.length) : loc r + k / 512 ≠ superblockLba ∧
      loc r + k / 512 < next ∧ ∀ q, t.IsDir q → loc r + k / 512 ≠ loc q := by
  have hin : rootLba ≤ loc r ∧ loc r + sectorsFor bytes.length ≤ next := h.inside r _ hr
  have hlt := div_lt_sectorsFor hk (h.small r _ hr)
  refine ⟨by unfold superblockLba; unfold rootLba at hin; omega, by omega, ?_⟩
  rintro q ⟨o, m, hq⟩
  have hrq : r ≠ q := fun heq => by rw [heq, hq] at hr; simp at hr
  have hap : loc r + sectorsFor bytes.length ≤ loc q ∨ loc q + 1 ≤ loc r := h.apart r q _ _ hrq hr hq
  omega

/-- **An edit of one directory**: nothing new stands in the tree, the other directories keep their
children, and only the edited directory's sector and the file count change. -/
theorem Layout.edit (hq : t.IsDir q)
    (hroot : t' [] = some (.dir 0 0))
    (hold : ∀ r a', t' r = some a' → ∃ a, t r = some a ∧ a.bytes = a'.bytes ∧ a.isDir = a'.isDir)
    (hclosed : ∀ r n, t' (r ++ [n]) ≠ none → t'.IsDir r)
    (hkeep : ∀ r n, t'.IsDir r → r ≠ q → t' (r ++ [n]) = t (r ++ [n]))
    (hstored : getU32 (d' superblockLba) 8 = getU32 (d superblockLba) 8)
    (hsame : ∀ x, x ≠ superblockLba → x ≠ loc q → d' x = d x)
    (hdir : t'.IsDir q → DirSector (d' (loc q)) t' loc q) : Layout d' t' loc next where
  next_ge := h.next_ge
  next_le := h.next_le
  stored := hstored.trans h.stored
  root := hroot
  root_loc := h.root_loc
  closed := hclosed
  small := fun r a' hr => by
    obtain ⟨a, ha, hb, -⟩ := hold r a' hr
    rw [← hb]
    exact h.small r a ha
  inside := fun r a' hr => by
    obtain ⟨a, ha, hb, hk⟩ := hold r a' hr
    rw [← sectors_congr hb hk]
    exact h.inside r a ha
  apart := fun r s a' b' hne hr hs => by
    obtain ⟨a, ha, hab, hak⟩ := hold r a' hr
    obtain ⟨b, hb, hbb, hbk⟩ := hold s b' hs
    rw [← sectors_congr hab hak, ← sectors_congr hbb hbk]
    exact h.apart r s a b hne ha hb
  dirs := fun r hr => by
    by_cases hrq : r = q
    · subst hrq
      exact hdir hr
    · obtain ⟨owner, mode, hr'⟩ := hr
      obtain ⟨a, ha, -, hk⟩ := hold r _ hr'
      have hd : t.IsDir r := by
        cases a with
        | file bytes o m => simp [Node.isDir] at hk
        | dir o m => exact ⟨o, m, ha⟩
      rw [hsame _ (h.dir_ne_superblock hd) (h.dir_ne hq hd hrq)]
      exact (h.dirs r hd).congr (fun n => hkeep r n ⟨owner, mode, hr'⟩ hrq) fun _ => rfl
  data := fun r bytes owner mode hr k hk => by
    obtain ⟨a, ha, hb, hkind⟩ := hold r _ hr
    cases a with
    | dir o m => simp [Node.isDir] at hkind
    | file bs o m =>
      obtain rfl : bs = bytes := hb
      obtain ⟨hsb, -, hdirs⟩ := h.byte_inside ha hk
      rw [hsame _ hsb (hdirs q hq)]
      exact h.data r bs o m ha k hk

/-- **Deleting an entry** removes what stands at its path and below. -/
theorem Layout.clear {i : Nat} {delta : Int} (hn : t (q ++ [n]) = some node) (hi : i < 16)
    (hu : (entryAt (d (loc q)) i).used = true) (hname : (entryAt (d (loc q)) i).name = n) :
    Layout (bumpFileCount (writeSector d (loc q) (clearUsed (d (loc q)) i)) delta) (t.remove (q ++ [n])) loc next := by
  have hq : t.IsDir q := h.closed q n (by rw [hn]; simp)
  have hlt := h.dir_lt hq
  have hs := h.dirs q hq
  -- a child is below the removed path only if it is the removed one
  have hbelow : ∀ r m, ¬ (q ++ [n]) <+: r → (q ++ [n]) <+: r ++ [m] → r = q ∧ m = n := by
    intro r m hr hm
    rcases prefix_concat_iff.mp hm with heq | hpre
    · obtain ⟨h1, h2⟩ := append_singleton_inj.mp heq
      exact ⟨h1.symm, h2.symm⟩
    · exact absurd hpre hr
  have hdirOf : ∀ r, (t.remove (q ++ [n])).IsDir r → ¬ (q ++ [n]) <+: r ∧ t.IsDir r := by
    rintro r ⟨owner, mode, hr⟩
    obtain ⟨h1, h2⟩ := Tree.of_remove hr
    exact ⟨h1, owner, mode, h2⟩
  refine h.edit hq ?_ (fun r a' hr => ⟨a', (Tree.of_remove hr).2, rfl, rfl⟩) ?_ ?_ ?_ ?_ ?_
  · exact (Tree.remove_apart (by simp)).trans h.root
  · intro r m hne
    cases hr : t.remove (q ++ [n]) (r ++ [m]) with
    | none => exact absurd hr hne
    | some a =>
      obtain ⟨h1, h2⟩ := Tree.of_remove hr
      obtain ⟨owner, mode, hd⟩ := h.closed r m (by rw [h2]; simp)
      refine ⟨owner, mode, (Tree.remove_apart fun hpre => h1 ?_).trans hd⟩
      exact hpre.trans (prefix_append r [m])
  · intro r m hr hrq
    exact Tree.remove_apart fun hpre => hrq (hbelow r m (hdirOf r hr).1 hpre).1
  · rw [getU32_bumpFileCount, writeSector_of_ne hlt (h.dir_ne_superblock hq).symm]
  · intro x hx hxq
    rw [bumpFileCount_of_ne hx, writeSector_of_ne hlt hxq]
  · intro hr
    rw [bumpFileCount_of_ne (h.dir_ne_superblock hq), writeSector_self hlt]
    refine hs.set hi (fun j => entryAt_clearUsed) (by simp) (fun _ hne => ?_) (fun j hj hji huj => ⟨?_, rfl⟩) fun m hm => ?_
    · rw [hname, Tree.remove_below (prefix_refl _)] at hne
      exact absurd rfl hne
    · refine Tree.remove_apart fun hpre => hji ?_
      exact hs.distinct j i hj hi huj hu ((hbelow q _ (hdirOf q hr).1 hpre).2.trans hname.symm)
    · refine .inl fun hold => hm ?_
      unfold Tree.remove
      split
      · rfl
      · exact hold

/-- **Changing owner or mode** changes them in the tree. -/
theorem Layout.change {i : Nat} {f : Node → Node} {s' : Sector} {e' : DirEntry}
    (hn : t (q ++ [n]) = some node) (hi : i < 16) (hu : (entryAt (d (loc q)) i).used = true)
    (hname : (entryAt (d (loc q)) i).name = n)
    (hset : ∀ j, entryAt s' j = if j = i then e' else entryAt (d (loc q)) j) (hused : e'.used = true)
    (hnm : e'.name = n) (he : EntryFor e' (loc (q ++ [n])) (f node)) (hbytes : (f node).bytes = node.bytes)
    (hkind : (f node).isDir = node.isDir) : Layout (writeSector d (loc q) s') (t.put (q ++ [n]) (f node)) loc next := by
  have hq : t.IsDir q := h.closed q n (by rw [hn]; simp)
  have hlt := h.dir_lt hq
  have hs := h.dirs q hq
  have hnone : ∀ r, t.put (q ++ [n]) (f node) r ≠ none ↔ t r ≠ none := fun r => by
    by_cases hr : r = q ++ [n]
    · subst hr
      simp [hn]
    · rw [Tree.put_of_ne hr]
  have hdirOf : ∀ r, (t.put (q ++ [n]) (f node)).IsDir r ↔ t.IsDir r := fun r => by
    by_cases hr : r = q ++ [n]
    · subst hr
      unfold Tree.IsDir
      cases hfn : f node <;> cases node <;> simp_all [Node.isDir]
    · unfold Tree.IsDir
      rw [Tree.put_of_ne hr]
  refine h.edit hq ?_ ?_ ?_ ?_ ?_ ?_ ?_
  · exact (Tree.put_of_ne (by simp)).trans h.root
  · intro r a' hr
    obtain ⟨rfl, rfl⟩ | ⟨-, hr⟩ := Tree.of_put hr
    · exact ⟨node, hn, hbytes.symm, hkind.symm⟩
    · exact ⟨a', hr, rfl, rfl⟩
  · intro r m hne
    exact (hdirOf r).mpr (h.closed r m ((hnone _).mp hne))
  · intro r m _ hrq
    exact Tree.put_of_ne fun heq => hrq (append_singleton_inj.mp heq).1
  · rw [writeSector_of_ne hlt (h.dir_ne_superblock hq).symm]
  · intro x _ hxq
    exact writeSector_of_ne hlt hxq
  · intro _
    rw [writeSector_self hlt]
    have hother : ∀ j, j < 16 → j ≠ i → (entryAt (d (loc q)) j).used = true → (entryAt (d (loc q)) j).name ≠ n :=
      fun j hj hji huj heq => hji (hs.distinct j i hj hi huj hu (heq.trans hname.symm))
    refine hs.set hi hset (fun _ => ?_) (fun _ _ => ⟨hused, hnm.trans hname.symm⟩) (fun j hj hji huj => ⟨?_, rfl⟩)
      fun m hm => .inl ((hnone _).mp hm)
    · rw [hnm]
      exact ⟨hother, f node, Tree.put_self _ _ _, he⟩
    · exact Tree.put_of_ne fun heq => hother j hj hji huj (append_singleton_inj.mp heq).2

/-- The disk after a new entry: the entry in its directory's sector, the node's sectors as they were
filled, the counter beyond them, and the rest as it was. -/
structure Created (d d2 d' : Disk) (lba : Nat) (dir : Sector) (next : Nat) (node : Node) : Prop where
  counter : getU32 (d' superblockLba) 8 = (next + node.sectors) % 2 ^ 32
  parent : d' lba = dir
  fresh : ∀ x, next ≤ x → x < next + node.sectors → d' x = d2 x
  rest : ∀ x, x ≠ superblockLba → x ≠ lba → x < next → d' x = d x

theorem Layout.created {node : Node} {d2 : Disk} {dir : Sector} {delta : Int} (hq : t.IsDir q)
    (hout : ∀ x, x < next → d2 x = (allocLba d node.sectors).2 x) :
    Created d d2 (bumpFileCount (writeSector d2 (loc q) dir) delta) (loc q) dir next node := by
  have hge := h.next_ge
  have hsb : superblockLba = 500 := rfl
  have hlt := h.dir_lt hq
  have hqs := h.dir_ne_superblock hq
  have hin := (h.dir_inside hq).2
  refine ⟨?_, ?_, fun x hx hx' => ?_, fun x hxs hxq hx => ?_⟩
  · rw [getU32_bumpFileCount, writeSector_of_ne hlt hqs.symm, hout _ (by omega)]
    unfold allocLba
    simp only
    rw [writeSector_self (show superblockLba < 2 ^ 32 by decide)]
    rw [getU32_setU32, h.stored]
    exact mod_add_mod _ _ _
  · rw [bumpFileCount_of_ne hqs, writeSector_self hlt]
  · rw [bumpFileCount_of_ne (by omega), writeSector_of_ne hlt (by omega)]
  · rw [bumpFileCount_of_ne hxs, writeSector_of_ne hlt hxq, hout x hx]
    exact writeSector_of_ne (by decide) hxs

/-- The parent's sector after a new entry lists the new child too. -/
theorem Layout.parentSector {slot : Nat} (hq : t.IsDir q) (hn : t (q ++ [n]) = none)
    (hlen : n.length ≤ 19) (h0 : (0 : U8) ∉ n) (hslot : freeSlot (d (loc q)) = some slot) (howner : node.owner = 0)
    (hmode : node.mode = 0) (hsmall : node.bytes.length < 2 ^ 31) :
    DirSector (fillEntry (d (loc q)) slot n (next % 2 ^ 32) node.bytes.length node.isDir)
      (t.put (q ++ [n]) node) (Function.update loc (q ++ [n]) next) q := by
  have hs := h.dirs q hq
  obtain ⟨hslot16, hfree, -⟩ := freeSlot_eq_some.mp hslot
  have hentry := fun j => @entryAt_fillEntry (d (loc q)) slot j n (next % 2 ^ 32) node.bytes.length
    node.isDir h0
  rw [take_of_length_le hlen, mod_mod, mod_eq_of_lt (show node.bytes.length < 2 ^ 32 by omega)]
    at hentry
  -- the entries that were there have other names
  have hother : ∀ j, j < 16 → (entryAt (d (loc q)) j).used = true → (entryAt (d (loc q)) j).name ≠ n := by
    intro j hj huj heq
    obtain ⟨a, ha, -⟩ := hs.entry j hj huj
    rw [heq, hn] at ha
    simp at ha
  have hne : ∀ j, j < 16 → (entryAt (d (loc q)) j).used = true → q ++ [(entryAt (d (loc q)) j).name] ≠ q ++ [n] :=
    fun j hj huj heq => hother j hj huj (append_singleton_inj.mp heq).2
  refine hs.set hslot16 hentry (fun _ => ⟨fun j hj _ => hother j hj, node, Tree.put_self _ _ _, ?_⟩)
    (fun hu => absurd (hfree.symm.trans hu) (by simp)) (fun j hj _ huj => ?_) fun m hm => ?_
  · refine ⟨?_, rfl, rfl, howner.symm, hmode.symm⟩
    simp only [update_self]
  · exact ⟨Tree.put_of_ne (hne j hj huj), update_of_ne (hne j hj huj) _ _⟩
  · by_cases hmn : m = n
    · exact .inr ⟨rfl, hmn.symm⟩
    · rw [Tree.put_of_ne fun heq => hmn (append_singleton_inj.mp heq).2] at hm
      exact .inl hm

/-- **A new entry** puts its node into the tree. -/
theorem Layout.create {slot : Nat} {d2 : Disk} (hq : t.IsDir q) (hn : t (q ++ [n]) = none)
    (hlen : n.length ≤ 19) (h0 : (0 : U8) ∉ n) (hslot : freeSlot (d (loc q)) = some slot)
    (hroom : next + node.sectors ≤ 2 ^ 32) (howner : node.owner = 0) (hmode : node.mode = 0)
    (hsmall : node.bytes.length < 2 ^ 31) (hd' : Created d d2 d' (loc q)
      (fillEntry (d (loc q)) slot n (next % 2 ^ 32) node.bytes.length node.isDir) next node)
    (hzero : node.isDir = true → d2 next = zeroSector) (hdata : node.isDir = false → ∀ k, k < node.bytes.length →
      d2 (next + k / 512) (k % 512) = node.bytes.getD k 0) :
    Layout d' (t.put (q ++ [n]) node) (Function.update loc (q ++ [n]) next) (next + node.sectors) := by
  have hge := h.next_ge
  have hrl : rootLba = 501 := rfl
  have hqp : q ≠ q ++ [n] := fun heq => by simpa using congrArg List.length heq
  have hdirOf : ∀ r, (t.put (q ++ [n]) node).IsDir r → r ≠ q ++ [n] → t.IsDir r := by
    rintro r ⟨owner, mode, hr⟩ hne
    rw [Tree.put_of_ne hne] at hr
    exact ⟨owner, mode, hr⟩
  refine ⟨by omega, hroom, hd'.counter, ?_, ?_, ?_, ?_, ?_, ?_, ?_, ?_⟩
  · exact (Tree.put_of_ne (by simp)).trans h.root
  · rw [update_of_ne (by simp)]
    exact h.root_loc
  · intro r m hne
    by_cases hr : r ++ [m] = q ++ [n]
    · rw [(append_singleton_inj.mp hr).1]
      exact hq.put hqp
    · rw [Tree.put_of_ne hr] at hne
      have hd := h.closed r m hne
      exact hd.put fun heq => hd.ne_none (heq ▸ hn)
  · intro r a hr
    obtain ⟨rfl, rfl⟩ | ⟨-, hr⟩ := Tree.of_put hr
    · exact hsmall
    · exact h.small r a hr
  · intro r a hr
    obtain ⟨rfl, rfl⟩ | ⟨hrp, hr⟩ := Tree.of_put hr
    · rw [update_self]
      omega
    · rw [update_of_ne hrp]
      have := h.inside r a hr
      omega
  · intro r s a b hne hr hs
    obtain ⟨rfl, rfl⟩ | ⟨hrp, hr⟩ := Tree.of_put hr <;> obtain ⟨rfl, rfl⟩ | ⟨hsp, hs⟩ := Tree.of_put hs
    · exact absurd rfl hne
    · rw [update_self, update_of_ne hsp]
      exact .inr (h.inside s b hs).2
    · rw [update_self, update_of_ne hrp]
      exact .inl (h.inside r a hr).2
    · rw [update_of_ne hrp, update_of_ne hsp]
      exact h.apart r s a b hne hr hs
  · intro r hr
    by_cases hrp : r = q ++ [n]
    · -- the new directory is empty
      subst hrp
      obtain ⟨owner, mode, hr⟩ := hr
      rw [Tree.put_self, Option.some.injEq] at hr
      subst hr
      rw [update_self, hd'.fresh next le_rfl (by simp [sectors]), hzero rfl]
      refine dirSector_zero _ fun m => ?_
      rw [Tree.put_of_ne fun heq => by simpa using congrArg List.length heq]
      exact not_not.mp fun hm => (h.closed _ _ hm).ne_none hn
    · have hd := hdirOf r hr hrp
      rw [update_of_ne hrp]
      by_cases hrq : r = q
      · subst hrq
        rw [hd'.parent]
        exact h.parentSector hq hn hlen h0 hslot howner hmode hsmall
      · rw [hd'.rest _ (h.dir_ne_superblock hd) (h.dir_ne hq hd hrq) (h.dir_inside hd).2]
        have hch : ∀ m, r ++ [m] ≠ q ++ [n] := fun m heq => hrq (append_singleton_inj.mp heq).1
        exact (h.dirs r hd).congr (fun m => Tree.put_of_ne (hch m)) fun m => update_of_ne (hch m) _ _
  · intro r bytes owner mode hr k hk
    obtain ⟨rfl, rfl⟩ | ⟨hrp, hr⟩ := Tree.of_put hr
    · have hlt := div_lt_sectorsFor hk hsmall
      have hsec : (Node.file bytes owner mode).sectors = sectorsFor bytes.length := rfl
      rw [update_self, hd'.fresh _ (by omega) (by omega)]
      exact hdata rfl k hk
    · obtain ⟨hnsb, hlt, hdirs⟩ := h.byte_inside hr hk
      rw [update_of_ne hrp, hd'.rest _ hnsb (hdirs q hq) hlt]
      exact h.data r bytes owner mode hr k hk

end Edit

end MinicOs
