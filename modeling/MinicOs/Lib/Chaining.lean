import Mathlib.Logic.Function.Basic

/-!
# Round functions and cipher block chaining

Two facts about permutations that are put together from smaller ones, over an arbitrary type of blocks.

* Rounds: a fold of invertible rounds is undone by the fold of their inverses in the opposite order
  (`foldl_reverse_foldl`).
* Chaining: with a block cipher `e` and an operation that undoes itself on the right (`op (op x y) y = x`, such as
  exclusive or), `chain` encrypts each block combined with the ciphertext before it, and `unchain` takes that back
  (`unchain_chain`, `chain_unchain`).
-/

namespace MinicOs

universe u v

variable {α : Type u} {κ : Type v}

theorem foldl_reverse_foldl {f g : α → κ → α} (h : ∀ k x, g (f x k) k = x) (ks : List κ) (x : α) :
    ks.reverse.foldl g (ks.foldl f x) = x := by
  induction ks generalizing x with
  | nil => rfl
  | cons k ks ih =>
    rw [List.reverse_cons, List.foldl_append]
    show g (ks.reverse.foldl g (ks.foldl f (f x k))) k = x
    rw [ih (f x k)]
    exact h k x

/-- Cipher block chaining: each block is combined with the ciphertext of the one before. -/
def chain (e : α → α) (op : α → α → α) : α → List α → List α
  | _, [] => []
  | prev, x :: xs => e (op x prev) :: chain e op (e (op x prev)) xs

/-- The way back. -/
def unchain (d : α → α) (op : α → α → α) : α → List α → List α
  | _, [] => []
  | prev, c :: cs => op (d c) prev :: unchain d op c cs

section Chaining

variable {e d : α → α} {op : α → α → α}

@[simp] theorem length_chain (prev : α) (xs : List α) : (chain e op prev xs).length = xs.length := by
  induction xs generalizing prev with
  | nil => rfl
  | cons x xs ih => rw [chain, List.length_cons, List.length_cons, ih]

@[simp] theorem length_unchain (prev : α) (cs : List α) : (unchain d op prev cs).length = cs.length := by
  induction cs generalizing prev with
  | nil => rfl
  | cons c cs ih => rw [unchain, List.length_cons, List.length_cons, ih]

variable (hop : ∀ x y, op (op x y) y = x)
include hop

theorem unchain_chain (hd : Function.LeftInverse d e) (prev : α) (xs : List α) :
    unchain d op prev (chain e op prev xs) = xs := by
  induction xs generalizing prev with
  | nil => rfl
  | cons x xs ih => rw [chain, unchain, ih, hd, hop]

theorem chain_unchain (he : Function.RightInverse d e) (prev : α) (cs : List α) :
    chain e op prev (unchain d op prev cs) = cs := by
  induction cs generalizing prev with
  | nil => rfl
  | cons c cs ih => rw [unchain, chain, hop, he, ih]

end Chaining

end MinicOs
