import MinicOs.Fs.Vfs

/-!
# Which mount answers a path

`vfs_mount_at` and the dispatch of the entry points of `kernel/fs/vfs/vfs.c`, over any mount table. A
call ends in `notFound`, in the listing of the table itself or at a backend, and the mounts are the
ones a list of requests leaves: a prefix keeps its first fifteen characters.
-/

namespace MinicOs

open List

/-- The entry points of the VFS; a listing asks for one entry. -/
inductive Access
  | read
  | write
  | list (index : Int)
  | stat
  | delete
  | mkdir

/-- The backends an entry point has a branch for. -/
def Backend.serves : Backend → Access → Bool
  | .minifs, _ | .fat32, _ => true
  | .device, a | .procfs, a => match a with
    | .read | .list _ => true
    | _ => false
  | .tmpfs, a => match a with
    | .mkdir => false
    | _ => true
  | .mounts, a => match a with
    | .list _ => true
    | _ => false

/-- Where a call ends: in a failure before any backend, in the table's own listing, or at the backend
of a mount with the rest of the path. -/
inductive VfsOutcome
  | notFound
  | root
  | backend (mount : Nat) (rest : List U8)

/-- A mount as the table keeps it: `copy_prefix` on both of its names. -/
def Mount.kept (m : Mount) : Mount := { m with point := m.point.take 15, backendRoot := m.backendRoot.take 15 }

def vfsMountAt (t : List Mount) (m : Mount) : Bool × List Mount :=
  if 8 ≤ t.length then (false, t) else (true, t ++ [m.kept])

/-- The table after a sequence of requests. -/
def mountAll (ms : List Mount) : List Mount := ms.foldl (fun t m => (vfsMountAt t m).2) []

/-- `vfs_find_mount` on a table. -/
def findMount (t : List Mount) (path : List U8) : Option Nat := t.findIdx? fun m => startsWith path m.point

/-- An entry point on a table: the mount is found and its backend asked, if it has a branch. -/
def dispatch (t : List Mount) (a : Access) (path : List U8) : VfsOutcome :=
  match findMount t path with
  | none => .notFound
  | some i => match t[i]? with
    | none => .notFound
    | some m => if m.backend.serves a = true then .backend i (vfsStrip path m) else .notFound

/-- The entry points: only the listing looks at the path before the table. -/
def vfsEntry (t : List Mount) (a : Access) (path : List U8) : VfsOutcome :=
  match a, path with
  | .list index, [] => if index < 0 ∨ t.length ≤ index then .notFound else .root
  | a, path => dispatch t a path

/-- The mounts of `kmain.c` are kept as they are asked for. -/
example : mountAll bootMounts = bootMounts := rfl

/-! ## The calls on the table of the boot -/

section Boot

variable {s : FileSystems} {path : List U8} {callerUid : U8}

/-- A call that ends before any backend has found no mount, or one without a branch for it. -/
theorem of_dispatch_notFound {a : Access} (h : dispatch bootMounts a path = .notFound) :
    vfsFindMount path = none ∨ ∃ m, vfsFindMount path = some m ∧ m.backend.serves a = false := by
  rw [vfsFindMount, find?_eq_bind_findIdx?_getElem?, ← findMount]
  unfold dispatch at h
  cases hi : findMount bootMounts path with
  | none => exact .inl rfl
  | some i =>
    rw [hi] at h
    simp only [Option.bind_some]
    cases hm : bootMounts[i]? with
    | none => exact .inl rfl
    | some m => exact .inr ⟨m, rfl, by simpa [hm] using h⟩

/-- **A call that ends in `notFound`** fails and leaves every file system alone; for listings this is
`vfsListEntry_notFound`. -/
theorem vfs_notFound {a : Access} (h : vfsEntry bootMounts a path = .notFound) :
    match a with
    | .read => ∀ maxLen, vfsRead s path maxLen callerUid = some (-1, [])
    | .write => ∀ data, vfsWrite s path data callerUid = some (false, s)
    | .stat => vfsStat s path = some none
    | .delete => vfsDelete s path callerUid = some (false, s)
    | .mkdir => vfsMkdir s path = some (false, s)
    | .list _ => True := by
  cases a with
  | list _ => trivial
  | _ =>
    rcases of_dispatch_notFound h with hm | ⟨m, hm, hb⟩
    · simp only [vfsRead, vfsWrite, vfsStat, vfsDelete, vfsMkdir, hm, implies_true]
    · cases hk : m.backend <;> simp_all [vfsRead, vfsWrite, vfsStat, vfsDelete, vfsMkdir, Backend.serves]

end Boot

/-! ## The mount that holds a path -/

/-- A path at or below a mount point: the whole prefix, up to an end of a component. -/
def Below (point path : List U8) : Prop := path = point ∨ point ++ [slash] <+: path

/-- The mount that holds a path: the path is at or below it, and at or below no longer prefix. -/
def HoldsPath (ms : List Mount) (path : List U8) (m : Mount) : Prop :=
  Below m.point path ∧ ∀ m' ∈ ms, Below m'.point path → m'.point.length ≤ m.point.length

/-- A call resolved by components: a backend is asked only for the mount that holds the path, and
nothing is asked only if no mount that holds it has an answer. -/
def Resolved (ms : List Mount) (a : Access) (path : List U8) : VfsOutcome → Prop
  | .backend i _ => ∃ m, ms[i]? = some m ∧ HoldsPath ms path m
  | .notFound => ∀ m ∈ ms, HoldsPath ms path m → m.backend.serves a = false
  | .root => False

/-- The first of the mounts whose kept prefix the path begins with. -/
def FirstOn (ms : List Mount) (path : List U8) (m : Mount) : Prop :=
  m.point.take 15 <+: path ∧
    ∃ before after, ms = before ++ m :: after ∧ ∀ b ∈ before, ¬ b.point.take 15 <+: path

/-- The first mount on the way holds the path, or has no answer where the one that holds it has none
either. -/
def WellPlaced (ms : List Mount) (a : Access) (path : List U8) : Prop :=
  ∀ m, FirstOn ms path m →
    if m.backend.serves a = true then HoldsPath ms path m
    else ∀ m' ∈ ms, HoldsPath ms path m' → m'.backend.serves a = false

/-- A listing of the empty path, which no mount is asked for. -/
def RootListing (a : Access) (path : List U8) : Prop := path = [] ∧ ∃ index, a = .list index

section Resolution

variable {ms : List Mount} {a : Access} {path : List U8}

theorem foldl_mountAll (t ms : List Mount) (h : t.length + ms.length ≤ 8) :
    ms.foldl (fun t m => (vfsMountAt t m).2) t = t ++ ms.map Mount.kept := by
  induction ms generalizing t with
  | nil => simp
  | cons m ms ih =>
    simp only [length_cons] at h
    have hroom : ¬ 8 ≤ t.length := by omega
    have hstep : (vfsMountAt t m).2 = t ++ [m.kept] := by simp only [vfsMountAt, if_neg hroom]
    rw [foldl_cons, hstep, ih _ (by simp only [length_append, length_singleton]; omega)]
    simp

theorem mountAll_eq (h : ms.length ≤ 8) : mountAll ms = ms.map Mount.kept := by
  have hfold := foldl_mountAll [] ms (by simpa using h)
  rwa [nil_append] at hfold

/-- A mount that has the path at or below it has its kept prefix on the path. -/
theorem Below.kept {point : List U8} (h : Below point path) : point.take 15 <+: path := by
  have hwhole : point <+: path := by
    rcases h with rfl | h
    · exact prefix_refl _
    · exact (prefix_append _ _).trans h
  exact ( take_prefix 15 point).trans hwhole

theorem startsWith_iff {p : List U8} : startsWith path p = true ↔ p <+: path := isPrefixOf_iff_prefix

theorem findMount_eq_none (h : ms.length ≤ 8) :
    findMount (mountAll ms) path = none ↔ ∀ m ∈ ms, ¬ m.point.take 15 <+: path := by
  unfold findMount
  rw [mountAll_eq h, findIdx?_eq_none_iff]
  simp [Mount.kept, ← Bool.not_eq_true, startsWith_iff]

/-- The mount `vfs_find_mount` returns is the first on the path. -/
theorem findMount_eq_some (h : ms.length ≤ 8) {i : Nat} (hi : findMount (mountAll ms) path = some i) :
    ∃ m, ms[i]? = some m ∧ (mountAll ms)[i]? = some m.kept ∧ FirstOn ms path m := by
  rw [mountAll_eq h] at hi ⊢
  obtain ⟨hlt, hp, hbefore⟩ := findIdx?_eq_some_iff_getElem.mp hi
  rw [length_map] at hlt
  refine ⟨ms[i], by simp [hlt], by simp [hlt], by simpa [startsWith_iff, Mount.kept] using hp,
    ms.take i, ms.drop (i + 1), ?_, ?_⟩
  · rw [cons_getElem_drop_succ, take_append_drop]
  · intro b hb
    obtain ⟨j, hj, rfl⟩ := mem_take_iff_getElem.mp hb
    have hnot := hbefore j (by omega)
    simpa [startsWith_iff, Mount.kept] using hnot

theorem FirstOn.unique {m m' : Mount} (h : FirstOn ms path m) (h' : FirstOn ms path m') : m = m' := by
  obtain ⟨hp, before, after, rfl, hb⟩ := h
  obtain ⟨hp', before', after', heq, hb'⟩ := h'
  -- the shorter of the two beginnings is the other's: a longer one would have the mount in it
  rcases append_eq_append_iff.mp heq with ⟨mid, rfl, hrest⟩ | ⟨mid, rfl, hrest⟩
  · cases mid with
    | nil => exact (cons.inj hrest).1
    | cons x mid =>
      obtain ⟨rfl, -⟩ := cons.inj hrest
      exact absurd hp (hb' m (by simp))
  · cases mid with
    | nil => exact (cons.inj hrest).1.symm
    | cons x mid =>
      obtain ⟨rfl, -⟩ := cons.inj hrest
      exact absurd hp' (hb m' (by simp))

/-- Below the listing of the table, a call is resolved exactly if the mounts are well placed. -/
theorem resolved_dispatch_iff (h : ms.length ≤ 8) :
    Resolved ms a path (dispatch (mountAll ms) a path) ↔ WellPlaced ms a path := by
  unfold dispatch WellPlaced
  cases hi : findMount (mountAll ms) path with
  | none =>
    have hnone := (findMount_eq_none h).mp hi
    constructor
    · rintro - m ⟨hp, before, after, rfl, -⟩
      exact absurd hp (hnone m (by simp))
    · intro _ m hm hholds
      exact absurd hholds.1.kept (hnone m hm)
  | some i =>
    obtain ⟨m, hm, hkept, hfirst⟩ := findMount_eq_some h hi
    have hbackend : m.kept.backend = m.backend := rfl
    simp only [hkept, hbackend]
    have hone : ∀ P : Mount → Prop, (∀ m', FirstOn ms path m' → P m') ↔ P m :=
      fun P => ⟨fun hall => hall m hfirst, fun hP m' hm' => hfirst.unique hm' ▸ hP⟩
    rw [hone]
    split
    · simp only [Resolved, hm, Option.some.injEq, exists_eq_left']
    · rfl

theorem Backend.serves_list (b : Backend) (index : Int) : b.serves (.list index) = true := by
  cases b <;> rfl

/-- The empty path is held by the mounts with an empty prefix. -/
theorem holdsPath_nil_iff {m : Mount} : HoldsPath ms [] m ↔ m.point = [] := by
  have hbelow : ∀ point : List U8, Below point [] ↔ point = [] := fun point => by
    simp only [Below, prefix_nil, append_eq_nil_iff, cons_ne_nil, and_false, or_false]
    exact eq_comm
  unfold HoldsPath
  simp only [hbelow]
  constructor
  · exact fun h => h.1
  · intro h
    exact ⟨h, fun m' _ h' => by simp [h, h']⟩

/-- **Mount resolution.** A call on a table of up to eight mounts goes to the mount that holds the
path, or fails with no backend asked, exactly if the first mount whose kept prefix the path begins
with is that mount. The listing of the empty path is the table's own, and is resolved only outside its
range. -/
theorem resolved_iff (ms : List Mount) (hms : ms.length ≤ 8) (a : Access) (path : List U8) :
    Resolved ms a path (vfsEntry (mountAll ms) a path) ↔ (path = [] → ∀ index, a = .list index →
        (index < 0 ∨ ms.length ≤ index) ∧ ∀ m ∈ ms, m.point ≠ []) ∧ (¬ RootListing a path → WellPlaced ms a path) := by
  by_cases hroot : RootListing a path
  · obtain ⟨rfl, index, rfl⟩ := hroot
    have hlen : (mountAll ms).length = ms.length := by rw [mountAll_eq hms, length_map]
    have hlists : (∀ m ∈ ms, HoldsPath ms [] m → m.backend.serves (.list index) = false) ↔
        ∀ m ∈ ms, m.point ≠ [] := by
      simp [holdsPath_nil_iff, Backend.serves_list]
    simp only [vfsEntry, hlen]
    split
    · rename_i hout
      simp [Resolved, hlists, hout, RootListing]
    · rename_i hin
      simp [Resolved, hin]
  · have hentry : vfsEntry (mountAll ms) a path = dispatch (mountAll ms) a path := by
      unfold vfsEntry
      split
      · exact absurd ⟨rfl, _, rfl⟩ hroot
      · rfl
    rw [hentry, resolved_dispatch_iff hms]
    constructor
    · intro h
      exact ⟨fun hp index ha => absurd ⟨hp, index, ha⟩ hroot, fun _ => h⟩
    · exact fun h => h.2 hroot

/-- `/system/a` on the table of the boot. -/
theorem resolved_iff_system : Resolved bootMounts .read (systemPoint ++ [slash, 0x61])
      (vfsEntry (mountAll bootMounts) .read (systemPoint ++ [slash, 0x61])) :=
  (resolved_iff bootMounts (by decide) .read (systemPoint ++ [slash, 0x61])).mpr
    ⟨fun h => absurd h (by decide), fun _ m hm => by
      have hfirst : FirstOn bootMounts (systemPoint ++ [slash, 0x61]) ⟨systemPoint, .minifs, []⟩ :=
        ⟨by decide, [], _, rfl, by simp⟩
      obtain rfl := hfirst.unique hm
      have hlongest : ∀ m' ∈ bootMounts, m'.point.take 15 <+: systemPoint ++ [slash, 0x61] →
          m'.point.length ≤ systemPoint.length := by decide
      exact ⟨.inr (by decide), fun m' hm' hbelow => hlongest m' hm' hbelow.kept⟩⟩

/-- `/systema` is no path of any mount, and is read as the file `a` of `/system`. -/
theorem not_resolved_systema : vfsEntry (mountAll bootMounts) .read (systemPoint ++ [0x61]) = .backend 0 [0x61] ∧
      (∀ m ∈ bootMounts, ¬ Below m.point (systemPoint ++ [0x61])) ∧ ¬ Resolved bootMounts .read (systemPoint ++ [0x61])
        (vfsEntry (mountAll bootMounts) .read (systemPoint ++ [0x61])) := by
  have hnone : ∀ m ∈ bootMounts, ¬ Below m.point (systemPoint ++ [0x61]) := by
    unfold Below
    decide
  refine ⟨rfl, hnone, ?_⟩
  rintro ⟨m, hm, hholds⟩
  exact hnone m (mem_of_getElem? hm) hholds.1

end Resolution

end MinicOs
