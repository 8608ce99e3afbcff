import MinicOs.Mm.Word
import Mathlib.Data.Set.Card
import Mathlib.Data.List.Infix

/-!
# Trees of named files

What a file system is for: a tree of files and directories, each with an owner and a mode, at most
sixteen in one directory. A tree says what stands at each path; the root is the empty path.

* `Tree.create_frame`, `Tree.delete_frame`, `Tree.change_frame`: what an operation leaves alone.
-/

namespace MinicOs

inductive Node
  | file (bytes : List U8) (owner mode : U8)
  | dir (owner mode : U8)

namespace Node

def owner : Node → U8
  | file _ o _ => o
  | dir o _ => o

def mode : Node → U8
  | file _ _ m => m
  | dir _ m => m

def isDir : Node → Bool
  | file .. => false
  | dir .. => true

/-- The bytes of a file; a directory has none. -/
def bytes : Node → List U8
  | file bs _ _ => bs
  | dir .. => []

def setOwner (uid : U8) : Node → Node
  | file bs _ m => file bs uid m
  | dir _ m => dir uid m

def setMode (mode : U8) : Node → Node
  | file bs o _ => file bs o mode
  | dir o _ => dir o mode

end Node

/-- What stands at each path. -/
abbrev Tree (ν : Type) := List ν → Option Node

namespace Tree

variable {ν : Type}

variable (t : Tree ν)

def IsDir (p : List ν) : Prop := ∃ owner mode, t p = some (.dir owner mode)

def children (p : List ν) : Set ν := { n | t (p ++ [n]) ≠ none }

/-- A new node can stand at `p`. -/
def Room (p : List ν) : Prop :=
  p ≠ [] ∧ t.IsDir p.dropLast ∧ t p = none ∧ (t.children p.dropLast).ncard < 16

/-- The tree with a node at `p`. -/
noncomputable def put (p : List ν) (node : Node) : Tree ν :=
  open Classical in Function.update t p (some node)

/-- The tree without `p` and what is below it. -/
noncomputable def remove (p : List ν) : Tree ν :=
  open Classical in fun q => if p <+: q then none else t q

/-- A new node at `p`. -/
noncomputable def create (p : List ν) (node : Node) : Bool × Tree ν :=
  open Classical in if t.Room p then (true, t.put p node) else (false, t)

/-- Removing `p`. -/
noncomputable def delete (p : List ν) : Bool × Tree ν :=
  match t p with
  | none => (false, t)
  | some _ => (true, t.remove p)

/-- Changing what stands at `p`, by its owner or by root. -/
noncomputable def change (p : List ν) (caller : U8) (f : Node → Node) : Bool × Tree ν :=
  match t p with
  | none => (false, t)
  | some node => if caller ≠ node.owner ∧ caller ≠ 0 then (false, t) else (true, t.put p (f node))

/-- The bytes of the file at `p`: `-1` if there is none, `-2` if they are too many. -/
def read (p : List ν) (maxLen : Nat) : Int × List U8 :=
  match t p with
  | some (.file bytes _ _) => if maxLen < bytes.length then (-2, []) else (bytes.length, bytes)
  | _ => (-1, [])

/-- Size, kind, owner and mode of what stands at `p`. -/
def stat (p : List ν) : Option (Nat × Bool × U8 × U8) :=
  (t p).map fun node => (node.bytes.length, node.isDir, node.owner, node.mode)

def empty : Tree ν
  | [] => some (.dir 0 0)
  | _ => none

/-! ## What the operations leave alone -/

@[simp] theorem put_self (p : List ν) (node : Node) : t.put p node p = some node := by
  simp [put]

variable {node : Node} {p q : List ν} {t : Tree ν}

theorem put_of_ne (h : q ≠ p) : t.put p node q = t q := by
  simp [put, h]

/-- What stands in the tree after a `put` is the new node or was there before. -/
theorem of_put {a : Node} (h : t.put p node q = some a) : q = p ∧ node = a ∨ q ≠ p ∧ t q = some a := by
  by_cases hq : q = p
  · subst hq
    exact .inl ⟨rfl, Option.some.inj ((put_self t q node).symm.trans h)⟩
  · exact .inr ⟨hq, (put_of_ne hq).symm.trans h⟩

theorem IsDir.ne_none (h : t.IsDir p) : t p ≠ none := by
  obtain ⟨owner, mode, h⟩ := h
  simp [h]

theorem IsDir.ne_file {bytes : List U8} {owner mode : U8} (h : t.IsDir p) : t p ≠ some (.file bytes owner mode) := by
  obtain ⟨o, m, h⟩ := h
  simp [h]

theorem remove_apart (h : ¬ p <+: q) : t.remove p q = t q := by
  simp [remove, h]

theorem remove_below (h : p <+: q) : t.remove p q = none := by
  simp [remove, h]

theorem delete_self : (t.delete p).2 p = none := by
  unfold delete
  split
  · assumption
  · exact remove_below (List.prefix_refl p)

theorem of_remove (h : t.remove p q = some node) : ¬ p <+: q ∧ t q = some node := by
  by_cases hp : p <+: q
  · rw [remove_below hp] at h
    simp at h
  · exact ⟨hp, (remove_apart hp).symm.trans h⟩

theorem create_frame (h : q ≠ p) : (t.create p node).2 q = t q := by
  unfold create
  split
  · exact put_of_ne h
  · rfl

theorem delete_frame (h : ¬ p <+: q) : (t.delete p).2 q = t q := by
  unfold delete
  split
  · rfl
  · exact remove_apart h

theorem change_frame {caller : U8} {f : Node → Node} (h : q ≠ p) : (t.change p caller f).2 q = t q := by
  unfold change
  split
  · rfl
  · split
    · rfl
    · exact put_of_ne h

end Tree

end MinicOs
