import MinicOs.Mm.Word
import Mathlib.Data.List.TakeWhile
import Mathlib.Data.List.Basic

/-!
# Paths

Model of `split_path` (`kernel/fs/minifs/minifs.c`, and with wider components
`kernel/fs/fat32/fat32.c`), and what a path means: the list of its components, the runs of characters
between separators.
-/

namespace MinicOs

open List

def slash : U8 := 0x2f

/-- The loop of `split_path`: components of at most `width` characters, at most `fuel` of them. The
characters of a longer component that are left over begin the next one. -/
def splitLoop (width : Nat) : Nat → List U8 → List (List U8)
  | 0, _ => []
  | _ + 1, [] => []
  | fuel + 1, c :: cs =>
    let component := ((c :: cs).take width).takeWhile (· ≠ slash)
    component :: splitLoop width fuel (((c :: cs).drop component.length).dropWhile (· = slash))

/-- `split_path` of MiniFS. -/
def splitPath (path : List U8) : List (List U8) := splitLoop 19 8 path

def components (path : List U8) : List (List U8) := (path.splitOn slash).filter (· ≠ [])

def joinPath (comps : List (List U8)) : List U8 := [slash].intercalate comps

variable {path : List U8}

theorem splitPath_eq_nil : splitPath path = [] ↔ path = [] := by
  cases path with
  | nil => simp [splitPath, splitLoop]
  | cons c cs => simp [splitPath, splitLoop]

/-! ## Components -/

theorem of_dropWhile_eq_cons {p : U8 → Bool} {l es : List U8} {e : U8} (h : l.dropWhile p = e :: es) : p e = false := by
  have hhead := head_dropWhile_not (l := l) p (by rw [h]; simp)
  simpa only [h, head_cons] using hhead

@[simp] theorem components_nil : components [] = [] := by simp [components, splitOn]

variable {w : List U8}

theorem splitOn_of_notMem (hw : slash ∉ w) : w.splitOn slash = [w] := by
  have h := @List.splitOn_intercalate _ [w] _ _ slash (by simpa using hw) (by simp)
  simpa using h

theorem components_append_slash {w cs : List U8} (hw : slash ∉ w) :
    components (w ++ slash :: cs) = (if w = [] then [] else [w]) ++ components cs := by
  have h := @List.splitOnP_append_cons _ (fun x => x == slash) w cs slash (by simp)
  unfold components
  rw [show (w ++ slash :: cs).splitOn slash = w.splitOn slash ++ cs.splitOn slash from h,
    splitOn_of_notMem hw, filter_append]
  by_cases hnil : w = [] <;> simp [hnil]

theorem components_of_notMem (hw : slash ∉ w) : components w = if w = [] then [] else [w] := by
  unfold components
  rw [splitOn_of_notMem hw]
  by_cases hnil : w = [] <;> simp [hnil]

@[simp] theorem components_slash (cs : List U8) : components (slash :: cs) = components cs := by
  have h := @components_append_slash [] cs (by simp)
  simpa using h

theorem components_dropWhile (path : List U8) : components (path.dropWhile (· = slash)) = components path := by
  induction path with
  | nil => rfl
  | cons c cs ih =>
    by_cases hc : c = slash
    · subst hc
      rw [dropWhile_cons_of_pos (by simp), ih, components_slash]
    · rw [dropWhile_cons_of_neg (by simpa using hc)]

theorem components_ne_nil {c : List U8} (hc : c ∈ components path) : c ≠ [] := by
  have := (mem_filter.mp hc).2
  simpa using this

/-- The first component of a path that does not begin with a separator, and the rest. -/
theorem components_cons {c : U8} {cs : List U8} (hc : c ≠ slash) : components (c :: cs) = (c :: cs).takeWhile (· ≠ slash) ::
      components ((c :: cs).dropWhile (· ≠ slash)) := by
  have hw : slash ∉ (c :: cs).takeWhile (· ≠ slash) := fun h => by
    have := mem_takeWhile_imp h
    simp at this
  have hne : (c :: cs).takeWhile (· ≠ slash) ≠ [] := by
    rw [takeWhile_cons_of_pos (by simpa using hc)]
    simp
  conv_lhs => rw [← takeWhile_append_dropWhile (p := (· ≠ slash)) (l := c :: cs)]
  generalize (c :: cs).takeWhile (· ≠ slash) = w at hw hne
  cases hd : (c :: cs).dropWhile (· ≠ slash) with
  | nil =>
    rw [append_nil, components_of_notMem hw, if_neg hne]
    rfl
  | cons e es =>
    obtain rfl : e = slash := by simpa using of_dropWhile_eq_cons hd
    rw [components_append_slash hw, if_neg hne, components_slash]
    rfl

/-! ## The splitter -/

theorem splitLoop_length_le (width : Nat) : ∀ (fuel : Nat) (path : List U8),
    (splitLoop width fuel path).length ≤ fuel
  | 0, _ => by simp [splitLoop]
  | _ + 1, [] => by simp [splitLoop]
  | fuel + 1, c :: cs => by
    have ih := splitLoop_length_le width fuel
    simp only [splitLoop, length_cons]
    exact Nat.succ_le_succ (ih _)

theorem mem_splitLoop {width : Nat} : ∀ {fuel : Nat} {path : List U8},
    w ∈ splitLoop width fuel path → w.length ≤ width ∧ slash ∉ w ∧ ∀ c ∈ w, c ∈ path
  | 0, _, h => absurd h (by simp [splitLoop])
  | _ + 1, [], h => absurd h (by simp [splitLoop])
  | fuel + 1, c :: cs, h => by
    simp only [splitLoop, mem_cons] at h
    rcases h with rfl | h
    · refine ⟨?_, fun hs => ?_, fun x hx => ?_⟩
      · exact (List.IsPrefix.length_le (List.takeWhile_prefix _)).trans (length_take_le _ _)
      · have := mem_takeWhile_imp hs
        simp at this
      · exact mem_of_mem_take (( takeWhile_prefix _).subset hx)
    · obtain ⟨h1, h2, h3⟩ := mem_splitLoop h
      exact ⟨h1, h2, fun x hx => mem_of_mem_drop ((dropWhile_suffix _).subset (h3 x hx))⟩

/-- **The splitter finds the components** of a path that does not begin with a separator, with at
most `fuel` components of at most `width` characters. -/
theorem splitLoop_eq_components {width : Nat} : ∀ {fuel : Nat} {path : List U8},
    path.head? ≠ some slash → (∀ w ∈ components path, w.length ≤ width) →
    (components path).length ≤ fuel → splitLoop width fuel path = components path
  | fuel, [], _, _, _ => by cases fuel <;> simp [splitLoop]
  | 0, c :: cs, hhead, _, hlen => by
    have hc : c ≠ slash := fun h => hhead (by rw [h]; rfl)
    rw [components_cons hc] at hlen
    simp at hlen
  | fuel + 1, c :: cs, hhead, hwidth, hlen => by
    have hc : c ≠ slash := fun h => hhead (by rw [h]; rfl)
    rw [components_cons hc] at hwidth hlen ⊢
    have hw := hwidth _ (mem_cons_self ..)
    have htake : ((c :: cs).take width).takeWhile (· ≠ slash) = (c :: cs).takeWhile (· ≠ slash) := by
      conv_lhs => rw [← takeWhile_append_dropWhile (p := (· ≠ slash)) (l := c :: cs)]
      rw [take_append, take_of_length_le hw, takeWhile_append_of_pos fun x hx => by
        simpa using mem_takeWhile_imp hx]
      cases hd : (c :: cs).dropWhile (· ≠ slash) with
      | nil => simp
      | cons e es =>
        have he : e = slash := by simpa using of_dropWhile_eq_cons hd
        cases width - ((c :: cs).takeWhile (· ≠ slash)).length <;> simp [he]
    have hdrop : (c :: cs).drop ((c :: cs).takeWhile (· ≠ slash)).length =
        (c :: cs).dropWhile (· ≠ slash) := by
      have hsplit := takeWhile_append_dropWhile (p := (· ≠ slash)) (l := c :: cs)
      generalize hw' : (c :: cs).takeWhile (· ≠ slash) = w at hsplit
      generalize (c :: cs).dropWhile (· ≠ slash) = rest at hsplit
      rw [← hsplit, drop_left]
    simp only [splitLoop]
    rw [htake, hdrop]
    congr 1
    have hrest := components_dropWhile ((c :: cs).dropWhile (· ≠ slash))
    rw [← hrest] at hlen hwidth ⊢
    refine splitLoop_eq_components ?_ (fun w hw' => hwidth w (mem_cons_of_mem _ hw')) ?_
    · cases hd : ((c :: cs).dropWhile (· ≠ slash)).dropWhile (· = slash) with
      | nil => simp
      | cons e es =>
        simpa using of_dropWhile_eq_cons hd
    · simpa using hlen

theorem components_joinPath {comps : List (List U8)} (hne : comps ≠ [])
    (hcomps : ∀ w ∈ comps, w ≠ [] ∧ slash ∉ w) : components (joinPath comps) = comps := by
  unfold components joinPath
  rw [splitOn_intercalate slash (fun w hw => (hcomps w hw).2) hne]
  exact filter_eq_self.mpr fun w hw => by simpa using (hcomps w hw).1

theorem notMem_joinPath {c : U8} (hc : c ≠ slash) : ∀ {comps : List (List U8)},
    (∀ w ∈ comps, c ∉ w) → c ∉ joinPath comps
  | [], _ => by simp [joinPath]
  | [w], h => by simpa [joinPath] using h w (by simp)
  | w :: v :: ws, h => by
    have ih := @notMem_joinPath c hc (v :: ws) fun x hx => h x (mem_cons_of_mem _ hx)
    have heq : joinPath (w :: v :: ws) = w ++ slash :: joinPath (v :: ws) := by
      simp [joinPath, intercalate]
    rw [heq]
    simp only [mem_append, mem_cons, not_or]
    exact ⟨h w (by simp), hc, ih⟩

theorem head?_joinPath {ws : List (List U8)} (hw : w ≠ []) : (joinPath (w :: ws)).head? = w.head? := by
  cases w with
  | nil => exact absurd rfl hw
  | cons c cs =>
    unfold joinPath
    cases ws <;> simp [intercalate]

/-- A path `split_path` reads as it is meant. -/
def PathOk (path : List U8) : Prop :=
  path.head? ≠ some slash ∧ (∀ w ∈ components path, w.length ≤ 19) ∧ (components path).length ≤ 8

instance (path : List U8) : Decidable (PathOk path) := by unfold PathOk; infer_instance

/-- **When `split_path` finds the components.** -/
theorem splitPath_eq_components_iff : splitPath path = components path ↔ PathOk path := by
  refine ⟨fun h => ⟨fun hhead => ?_, fun w hw => ?_, ?_⟩, fun h => ?_⟩
  · -- a leading separator makes an empty first component
    obtain ⟨cs, rfl⟩ : ∃ cs, path = slash :: cs := by
      cases path with
      | nil => simp at hhead
      | cons c cs => exact ⟨cs, by simpa using hhead⟩
    have hmem : [] ∈ splitPath (slash :: cs) := by
      unfold splitPath splitLoop
      simp
    rw [h] at hmem
    exact components_ne_nil hmem rfl
  · rw [← h] at hw
    exact (mem_splitLoop hw).1
  · rw [← h]
    exact splitLoop_length_le _ _ _
  · exact splitLoop_eq_components h.1 h.2.1 h.2.2

/-- A name a component can be. -/
structure NameOk (n : List U8) : Prop where
  ne_nil : n ≠ []
  length_le : n.length ≤ 19
  noNul : (0 : U8) ∉ n
  noSlash : slash ∉ n

/-- One to eight names. -/
structure PathOf (p : List (List U8)) : Prop where
  ne_nil : p ≠ []
  length_le : p.length ≤ 8
  names : ∀ n ∈ p, NameOk n

/-- **A path of up to eight short names splits into them.** -/
theorem splitPath_joinPath {p : List (List U8)} (hp : PathOf p) : splitPath (joinPath p) = p := by
  have hcomps : components (joinPath p) = p :=
    components_joinPath hp.ne_nil fun w hw => ⟨(hp.names w hw).ne_nil, (hp.names w hw).noSlash⟩
  refine (splitPath_eq_components_iff.mpr ⟨?_, ?_, ?_⟩).trans hcomps
  · cases p with
    | nil => exact absurd rfl hp.ne_nil
    | cons w ws =>
      have hw := hp.names w (mem_cons_self ..)
      rw [head?_joinPath hw.ne_nil]
      cases w with
      | nil => exact absurd rfl hw.ne_nil
      | cons c cs =>
        intro hc
        exact hw.noSlash (by rw [← Option.some.inj hc]; simp)
  · rw [hcomps]
    exact fun w hw => (hp.names w hw).length_le
  · rw [hcomps]
    exact hp.length_le

end MinicOs
