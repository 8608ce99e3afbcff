import Mathlib.Data.List.Infix
import MinicOs.Lib.Scan

/-!
# Lines with a separator of two symbols

Text over an arbitrary alphabet, in which a line ends with two different symbols `a`, `b` (such as carriage return and line
feed) and a block of lines with an empty line.

* `indexOf?`: where a pattern occurs for the first time;
* `indexOf?_line`: a line without the separator ends where the separator is first found;
* `indexOf?_block`: a block of lines, none of them empty after the first, ends where the separator is first found twice;
* `exists_block`: every text with an empty line is such a block with something after it;
* `block_inj`: in one way only.
-/

namespace MinicOs

open List

universe u

variable {α : Type u} [DecidableEq α]

/-! ## The first occurrence of a pattern -/

/-- Where `needle` occurs in `hay` for the first time. -/
def indexOf? (needle hay : List α) : Option Nat :=
  scan (hay.length + 1 - needle.length) fun i => decide (needle <+: hay.drop i)

variable {needle hay : List α}

theorem indexOf?_eq_some {i : Nat} : indexOf? needle hay = some i ↔
      i + needle.length ≤ hay.length ∧ needle <+: hay.drop i ∧ ∀ j < i, ¬ needle <+: hay.drop j := by
  unfold indexOf?
  rw [scan_eq_some]
  simp only [decide_eq_true_eq, decide_eq_false_iff_not]
  constructor
  · rintro ⟨hlt, hocc, hfirst⟩
    exact ⟨by omega, hocc, hfirst⟩
  · rintro ⟨hle, hocc, hfirst⟩
    exact ⟨by omega, hocc, hfirst⟩

theorem indexOf?_eq_none : indexOf? needle hay = none ↔ ¬ needle <:+: hay := by
  unfold indexOf?
  rw [scan_eq_none]
  simp only [decide_eq_false_iff_not]
  constructor
  · rintro h ⟨s, t, rfl⟩
    refine h s.length (by simp only [length_append]; omega) ?_
    rw [append_assoc, drop_left]
    exact prefix_append _ _
  · intro h j hj hocc
    obtain ⟨t, ht⟩ := hocc
    refine h ⟨hay.take j, t, ?_⟩
    rw [append_assoc, ht, take_append_drop]

/-! ## Lines -/

section Lines

variable {a b : α} {l : List α}

/-- The separator does not occur. -/
def NoSep (a b : α) (l : List α) : Prop := ¬ [a, b] <:+: l

instance (a b : α) (l : List α) : Decidable (NoSep a b l) := inferInstanceAs (Decidable (¬ _))

omit [DecidableEq α] in
theorem pair_infix_iff : [a, b] <:+: l ↔ ∃ j, l[j]? = some a ∧ l[j + 1]? = some b := by
  constructor
  · rintro ⟨s, t, rfl⟩
    refine ⟨s.length, ?_, ?_⟩
    · rw [append_assoc, getElem?_append_right (le_refl _), Nat.sub_self]
      rfl
    · rw [append_assoc, getElem?_append_right (by omega), Nat.add_sub_cancel_left]
      rfl
  · rintro ⟨j, ha, hb⟩
    obtain ⟨hj, ha⟩ := List.getElem?_eq_some_iff.mp ha
    obtain ⟨hj', hb⟩ := List.getElem?_eq_some_iff.mp hb
    refine ⟨l.take j, l.drop (j + 2), ?_⟩
    rw [append_assoc, ← ha, ← hb]
    show l.take j ++ (l[j] :: l[j + 1] :: l.drop (j + 1 + 1)) = l
    rw [← drop_eq_getElem_cons hj', ← drop_eq_getElem_cons hj, take_append_drop]

omit [DecidableEq α] in
/-- A symbol that is not the first of the separator may stand in front. -/
theorem NoSep.cons {c : α} (h : NoSep a b l) (hc : c ≠ a) : NoSep a b (c :: l) := by
  intro hinfix
  obtain ⟨j, ha, hb⟩ := pair_infix_iff.mp hinfix
  cases j with
  | zero => exact hc (Option.some.inj ha)
  | succ j => exact h (pair_infix_iff.mpr ⟨j, ha, hb⟩)

omit [DecidableEq α] in
/-- Lines may be joined by a symbol that is not in the separator. -/
theorem NoSep.append_cons {c : α} {l' : List α} (h : NoSep a b l) (h' : NoSep a b l') (hca : c ≠ a) (hcb : c ≠ b) :
    NoSep a b (l ++ c :: l') := by
  intro hinfix
  obtain ⟨j, ha, hb⟩ := pair_infix_iff.mp hinfix
  rcases Nat.lt_trichotomy (j + 1) l.length with hlt | heq | hgt
  · rw [getElem?_append_left (by omega)] at ha hb
    exact h (pair_infix_iff.mpr ⟨j, ha, hb⟩)
  · rw [getElem?_append_right (by omega), heq, Nat.sub_self] at hb
    exact hcb (Option.some.inj hb)
  · obtain ⟨k, rfl⟩ : ∃ k, j = l.length + k := ⟨j - l.length, by omega⟩
    rw [getElem?_append_right (by omega), Nat.add_sub_cancel_left] at ha
    rw [Nat.add_assoc, getElem?_append_right (by omega), Nat.add_sub_cancel_left] at hb
    exact (h'.cons hca) (pair_infix_iff.mpr ⟨k, ha, hb⟩)

variable (hab : a ≠ b)
include hab

omit [DecidableEq α] in
/-- A line without the separator has no occurrence that begins in it, also not with the separator behind it. -/
theorem NoSep.not_prefix_drop (h : NoSep a b l) (rest : List α) {j : Nat} (hj : j < l.length) :
    ¬ [a, b] <+: (l ++ a :: rest).drop j := by
  intro hocc
  rw [drop_append_of_le_length hj.le, drop_eq_getElem_cons hj, cons_append, cons_prefix_cons] at hocc
  obtain ⟨hx, hocc⟩ := hocc
  cases hnext : l.drop (j + 1) with
  | nil =>
    rw [hnext, nil_append, cons_prefix_cons] at hocc
    exact hab hocc.1.symm
  | cons y t =>
    rw [hnext, cons_append, cons_prefix_cons] at hocc
    refine h ⟨l.take j, t, ?_⟩
    rw [append_assoc, hx, hocc.1]
    show l.take j ++ (l[j] :: y :: t) = l
    rw [← hnext, ← drop_eq_getElem_cons hj, take_append_drop]

theorem indexOf?_line (h : NoSep a b l) (rest : List α) : indexOf? [a, b] (l ++ a :: b :: rest) = some l.length := by
  refine indexOf?_eq_some.mpr ⟨?_, ?_, fun j hj => h.not_prefix_drop hab _ hj⟩
  · simp only [length_append, length_cons, length_nil]
    omega
  · rw [drop_left]
    exact ⟨rest, rfl⟩

omit hab in
theorem exists_line {text : List α} (h : [a, b] <:+: text) : ∃ l rest, text = l ++ a :: b :: rest ∧ NoSep a b l := by
  cases hi : indexOf? [a, b] text with
  | none => exact absurd h (indexOf?_eq_none.mp hi)
  | some i =>
    obtain ⟨hle, ⟨rest, hocc⟩, hfirst⟩ := indexOf?_eq_some.mp hi
    refine ⟨text.take i, rest, ?_, ?_⟩
    · exact (take_append_drop i text).symm.trans (congrArg _ hocc.symm)
    · rintro ⟨s, t, hst⟩
      have hlen := congrArg List.length hst
      simp only [length_append, length_cons, length_nil, length_take] at hlen
      refine hfirst s.length (by omega) ?_
      rw [← take_append_drop i text, ← hst, append_assoc, append_assoc, drop_left]
      exact prefix_append _ _

/-! ## Blocks of lines -/

/-- Lines with the separator between them, and an empty line after them. -/
def block (a b : α) : List (List α) → List α → List α
  | [], rest => a :: b :: rest
  | l :: ls, rest => l ++ a :: b :: block a b ls rest

/-- The lines of a block, with the separator between them. -/
def inLines (a b : α) : List (List α) → List α
  | [] => []
  | [l] => l
  | l :: l' :: ls => l ++ a :: b :: inLines a b (l' :: ls)

omit [DecidableEq α] hab in
theorem block_eq (l : List α) (ls : List (List α)) (rest : List α) :
    block a b (l :: ls) rest = inLines a b (l :: ls) ++ a :: b :: a :: b :: rest := by
  induction ls generalizing l with
  | nil => rfl
  | cons l' ls ih =>
    rw [block, ih, inLines, append_assoc]
    rfl

omit [DecidableEq α] in
/-- Where the separator can occur twice in a row: at the end of the line, or further on. -/
theorem NoSep.twice_cases (hl : NoSep a b l) {rest : List α} {j : Nat}
    (hocc : [a, b, a, b] <+: (l ++ a :: b :: rest).drop j) :
    (j = l.length ∧ [a, b] <+: rest) ∨ ∃ k, j = l.length + 2 + k ∧ [a, b, a, b] <+: rest.drop k := by
  rcases Nat.lt_trichotomy j l.length with hlt | rfl | hgt
  · exact absurd ((prefix_append [a, b] [a, b]).trans hocc) (hl.not_prefix_drop hab _ hlt)
  · rw [drop_left] at hocc
    exact .inl ⟨rfl, (cons_prefix_cons.mp (cons_prefix_cons.mp hocc).2).2⟩
  · rw [drop_append, drop_eq_nil_of_le hgt.le, nil_append] at hocc
    obtain ⟨k, hk⟩ : ∃ k, j - l.length = k + 1 := ⟨j - l.length - 1, by omega⟩
    rw [hk, drop_succ_cons] at hocc
    cases k with
    | zero => exact absurd (cons_prefix_cons.mp hocc).1 hab
    | succ k =>
      rw [drop_succ_cons] at hocc
      exact .inr ⟨k, by omega, hocc⟩

theorem indexOf?_block {ls : List (List α)} (hl : NoSep a b l) (hls : ∀ l' ∈ ls, NoSep a b l' ∧ l' ≠ []) (rest : List α) :
    indexOf? [a, b, a, b] (block a b (l :: ls) rest) = some (inLines a b (l :: ls)).length := by
  refine indexOf?_eq_some.mpr ⟨?_, ?_, ?_⟩
  · rw [block_eq, length_append]
    simp only [length_cons, length_nil]
    omega
  · rw [block_eq, drop_left]
    exact ⟨rest, rfl⟩
  · induction ls generalizing l with
    | nil =>
      intro j hj hocc
      exact hl.not_prefix_drop hab _ hj ((prefix_append [a, b] [a, b]).trans hocc)
    | cons l' ls ih =>
      intro j hj hocc
      obtain ⟨hl', hne⟩ := hls l' mem_cons_self
      rw [inLines, length_append, length_cons, length_cons] at hj
      rcases hl.twice_cases hab hocc with ⟨-, hnext⟩ | ⟨k, rfl, hlater⟩
      · exact hl'.not_prefix_drop hab _ (length_pos_iff.mpr hne) hnext
      · exact ih hl' (fun l'' h => hls l'' (mem_cons_of_mem l' h)) k (by omega) hlater

/-- **Every text with an empty line is a block** with something after it. -/
theorem exists_block {text : List α} (h : [a, b, a, b] <:+: text) :
    ∃ l ls rest, text = block a b (l :: ls) rest ∧ NoSep a b l ∧ ∀ l' ∈ ls, NoSep a b l' ∧ l' ≠ [] := by
  -- on the length of the text: what follows the first line is shorter
  induction hn : text.length using Nat.strong_induction_on generalizing text with
  | _ n ih =>
    obtain ⟨l, rest, rfl, hl⟩ := exists_line ((infix_append [] [a, b] [a, b]).trans h)
    by_cases hempty : [a, b] <+: rest
    · obtain ⟨r, rfl⟩ := hempty
      exact ⟨l, [], r, rfl, hl, fun _ h => absurd h not_mem_nil⟩
    · obtain ⟨s, t, hst⟩ := h
      have hocc : [a, b, a, b] <+: (l ++ a :: b :: rest).drop s.length := by
        rw [← hst, append_assoc, drop_left]
        exact prefix_append _ _
      obtain ⟨-, hnext⟩ | ⟨k, -, hlater⟩ := hl.twice_cases hab hocc
      · exact absurd hnext hempty
      · have hlen : rest.length < n := by
          rw [← hn, length_append, length_cons, length_cons]
          omega
        obtain ⟨l', ls, r, rfl, hl', hls⟩ :=
          ih _ hlen (hlater.isInfix.trans (drop_suffix k rest).isInfix) rfl
        refine ⟨l, l' :: ls, r, rfl, hl, fun l'' hmem => ?_⟩
        rcases mem_cons.mp hmem with rfl | hmem
        · refine ⟨hl', ?_⟩
          rintro rfl
          exact hempty ⟨block a b ls r, rfl⟩
        · exact hls l'' hmem

theorem line_inj {l' rest rest' : List α} (hl : NoSep a b l) (hl' : NoSep a b l')
    (h : l ++ a :: b :: rest = l' ++ a :: b :: rest') : l = l' ∧ rest = rest' := by
  have hlen : l.length = l'.length := by
    have hindex := indexOf?_line hab hl rest
    rw [h, indexOf?_line hab hl' rest'] at hindex
    exact (Option.some.inj hindex).symm
  obtain ⟨hline, htail⟩ := append_inj h hlen
  exact ⟨hline, (cons.inj (cons.inj htail).2).2⟩

theorem block_inj {ls ls' : List (List α)} {rest rest' : List α} (hls : ∀ l' ∈ ls, NoSep a b l' ∧ l' ≠ [])
    (hls' : ∀ l' ∈ ls', NoSep a b l' ∧ l' ≠ []) (h : block a b ls rest = block a b ls' rest') : ls = ls' ∧ rest = rest' := by
  have hnil : NoSep a b ([] : List α) := fun hinfix => absurd hinfix.length_le (by simp)
  induction ls generalizing ls' with
  | nil =>
    cases ls' with
    | nil => exact ⟨rfl, (line_inj hab hnil hnil h).2⟩
    | cons l' ls' =>
      obtain ⟨hl', hne⟩ := hls' l' mem_cons_self
      exact absurd (line_inj hab hnil hl' h).1.symm hne
  | cons l ls ih =>
    obtain ⟨hl, hne⟩ := hls l mem_cons_self
    cases ls' with
    | nil => exact absurd (line_inj hab hl hnil h).1 hne
    | cons l' ls' =>
      obtain ⟨hline, htail⟩ := line_inj hab hl (hls' l' mem_cons_self).1 h
      obtain ⟨hlines, hrest⟩ := ih (fun x hx => hls x (mem_cons_of_mem l hx))
        (fun x hx => hls' x (mem_cons_of_mem l' hx)) htail
      exact ⟨by rw [hline, hlines], hrest⟩

end Lines

end MinicOs
