import Mathlib.Data.List.Basic

/-!
# Executions of C code

A call ends with a result (`done`), gives up with `return false` (`refused`), or does what the
language gives no meaning to, such as an access outside an array or a loop that does not end
(`undefined`). `Sound P o` says that `o` is not `undefined` and that a result satisfies `P`; it is
the rule by which the parts of a function are put together (`Sound.bind`). `Returns P o` says that there
is a result and that it satisfies `P`; a loop that counts has the rule of its invariant
(`loop_returns`).
-/

namespace MinicOs

universe u

/-- How a call ends. -/
inductive Exec (α : Type u)
  | undefined
  | refused
  | done (a : α)
deriving DecidableEq

namespace Exec

variable {α β : Type u}

/-- Go on with the result. -/
def bind (o : Exec α) (f : α → Exec β) : Exec β :=
  match o with
  | undefined => undefined
  | refused => refused
  | done a => f a

instance : Monad Exec where
  pure := done
  bind := bind

@[simp] theorem done_bind (a : α) (f : α → Exec β) : (done a >>= f) = f a := rfl

@[simp] theorem refused_bind (f : α → Exec β) : (refused >>= f) = refused := rfl

@[simp] theorem undefined_bind (f : α → Exec β) : (undefined >>= f) = undefined := rfl

@[simp] theorem pure_eq (a : α) : (pure a : Exec α) = done a := rfl

variable {f : α → Exec β}

theorem bind_eq_done {o : Exec α} {b : β} : (o >>= f) = done b ↔ ∃ a, o = done a ∧ f a = done b := by
  cases o with
  | undefined => simp
  | refused => simp
  | done a => simp

/-- Not undefined, and a result has the property. -/
inductive Sound (P : α → Prop) : Exec α → Prop
  | refused : Sound P refused
  | done {a : α} (h : P a) : Sound P (done a)

/-- There is a result, and it has the property. -/
inductive Returns (P : α → Prop) : Exec α → Prop
  | done {a : α} (h : P a) : Returns P (done a)

variable {P P' : α → Prop} {Q : β → Prop} {o : Exec α}

/-- **The rule of sequence.** -/
theorem Sound.bind (h : o.Sound P) (hf : ∀ a, P a → (f a).Sound Q) : (o >>= f).Sound Q := by
  cases h with
  | refused => exact .refused
  | done ha => exact hf _ ha

theorem Sound.mono (h : o.Sound P) (hP : ∀ a, P a → P' a) : o.Sound P' := by
  cases h with
  | refused => exact .refused
  | done ha => exact .done (hP _ ha)

/-- **The rule of refusal.** -/
theorem Sound.guard {c : Prop} [Decidable c] (h : ¬ c → o.Sound P) : (if c then Exec.refused else o).Sound P := by
  by_cases hc : c
  · rw [if_pos hc]
    exact .refused
  · rw [if_neg hc]
    exact h hc

theorem Sound.ne_undefined (h : o.Sound P) : o ≠ undefined := by
  rintro rfl
  cases h

theorem Sound.of_done {a : α} (h : o.Sound P) (ho : o = Exec.done a) : P a := by
  subst ho
  cases h with
  | done ha => exact ha

theorem returns_iff : o.Returns P ↔ ∃ a, o = done a ∧ P a := by
  constructor
  · rintro ⟨ha⟩
    exact ⟨_, rfl, ha⟩
  · rintro ⟨a, rfl, ha⟩
    exact .done ha

theorem Returns.mono (h : o.Returns P) (hP : ∀ a, P a → P' a) : o.Returns P' := by
  cases h with
  | done ha => exact .done (hP _ ha)

theorem Returns.sound (h : o.Returns P) : o.Sound P := by
  cases h with
  | done ha => exact .done ha

theorem Returns.bind (h : o.Returns P) (hf : ∀ a, P a → (f a).Returns Q) : (o >>= f).Returns Q := by
  cases h with
  | done ha => exact hf _ ha

/-! ## Loops -/

variable {ι : Type*}

/-- `for i in l { body }` over a state that the body updates. -/
def loop (body : ι → α → Exec α) : List ι → α → Exec α
  | [], s => done s
  | i :: is, s => body i s >>= loop body is

theorem loop_append (body : ι → α → Exec α) (l l' : List ι) (s : α) :
    loop body (l ++ l') s = loop body l s >>= loop body l' := by
  induction l generalizing s with
  | nil => rfl
  | cons i is ih =>
    show (body i s >>= loop body (is ++ l')) = (body i s >>= loop body is) >>= loop body l'
    cases body i s with
    | undefined => rfl
    | refused => rfl
    | done s' => exact ih s'

/-- Every round of a loop meets the condition `ok`. -/
def LoopMeets (body : ι → α → Exec α) (ok : ι → α → Prop) : List ι → α → Prop
  | [], _ => True
  | i :: is, s => ok i s ∧ ∀ s', body i s = done s' → LoopMeets body ok is s'

/-- **The invariant rule** of a loop whose rounds meet a condition. -/
theorem LoopMeets.returns {body : ι → α → Exec α} {ok : ι → α → Prop} (I : α → Prop)
    (hstep : ∀ i s, I s → ok i s → (body i s).Returns I) {l : List ι} {s : α} (hm : LoopMeets body ok l s) (h0 : I s) :
    (loop body l s).Returns I := by
  induction l generalizing s with
  | nil => exact .done h0
  | cons i is ih =>
    obtain ⟨s', hbody, hs'⟩ := returns_iff.mp (hstep i s h0 hm.1)
    rw [loop, hbody, done_bind]
    exact ih (hm.2 s' hbody) hs'

variable {body : Nat → α → Exec α} {n : Nat} {s : α}

/-- **The invariant rule** of a counted loop that ends with a result. -/
theorem loop_returns (I : Nat → α → Prop) (h0 : I 0 s) (hstep : ∀ i < n, ∀ s, I i s → (body i s).Returns (I (i + 1)))
    : (loop body (List.range n) s).Returns (I n) := by
  induction n with
  | zero => exact .done h0
  | succ n ih =>
    rw [List.range_succ, loop_append]
    refine (ih fun i hi => hstep i (by omega)).bind fun s' hs' => ?_
    refine (hstep n (by omega) s' hs').bind fun s'' hs'' => ?_
    exact .done hs''

theorem loop_sound (I : Nat → α → Prop) (h0 : I 0 s) (hstep : ∀ i < n, ∀ s, I i s → (body i s).Sound (I (i + 1))) :
    (loop body (List.range n) s).Sound (I n) := by
  induction n with
  | zero => exact .done h0
  | succ n ih =>
    rw [List.range_succ, loop_append]
    refine (ih fun i hi => hstep i (by omega)).bind fun s' hs' => ?_
    refine (hstep n (by omega) s' hs').bind fun s'' hs'' => ?_
    exact .done hs''

/-- `for (i = 0; i < n; i = i + 1) { body }`. -/
def count (n : Nat) (body : Nat → α → Exec α) (s : α) : Exec α := loop body (List.range' 0 n) s

theorem count_zero (body : Nat → α → Exec α) (s : α) : count 0 body s = done s := rfl

theorem count_succ (n : Nat) (body : Nat → α → Exec α) (s : α) : count (n + 1) body s = count n body s >>= body n := by
  unfold count
  rw [← List.range_eq_range', ← List.range_eq_range', List.range_succ, loop_append]
  refine bind_congr fun s' => ?_
  show (body n s' >>= done) = body n s'
  cases body n s' <;> rfl

theorem count_returns {body : Nat → α → Exec α} (I : Nat → α → Prop) {n : Nat} {s : α} (h0 : I 0 s)
    (hstep : ∀ i < n, ∀ s, I i s → (body i s).Returns (I (i + 1))) : (count n body s).Returns (I n) := by
  unfold count
  rw [← List.range_eq_range']
  exact loop_returns I h0 hstep

theorem count_sound (I : Nat → α → Prop) (h0 : I 0 s) (hstep : ∀ i < n, ∀ s, I i s → (body i s).Sound (I (i + 1))) :
    (count n body s).Sound (I n) := by
  unfold count
  rw [← List.range_eq_range']
  exact loop_sound I h0 hstep

/-- A loop that ends with what a function of the counter gives. -/
theorem count_eq {body : Nat → α → Exec α} (f : Nat → α) {n : Nat}
    (hstep : ∀ i < n, body i (f i) = done (f (i + 1))) : count n body (f 0) = done (f n) := by
  induction n with
  | zero => rfl
  | succ n ih => rw [count_succ, ih fun i hi => hstep i (by omega), done_bind, hstep n (by omega)]

/-! ## Accesses that are checked -/

/-- Either undefined, or there is a result, it has the property, and on the way `Q` was found to hold. -/
inductive Checks (P : α → Prop) (Q : Prop) : Exec α → Prop
  | undefined : Checks P Q undefined
  | done {a : α} (h : P a) (hq : Q) : Checks P Q (done a)

variable {Q' : Prop}

theorem Checks.bind {P' : β → Prop} {q : Prop} (h : o.Checks P Q') (hf : ∀ a, P a → (f a).Checks P' q) :
    (o >>= f).Checks P' (Q' ∧ q) := by
  cases h with
  | undefined => exact .undefined
  | done ha hq =>
    rw [done_bind]
    generalize hfa : f _ = o'
    cases hfa ▸ hf _ ha with
    | undefined => exact .undefined
    | done hb hq' => exact .done hb ⟨hq, hq'⟩

theorem Checks.mono {q : Prop} (h : o.Checks P Q') (hP : ∀ a, P a → P' a) (hq : Q' → q) : o.Checks P' q := by
  cases h with
  | undefined => exact .undefined
  | done ha h => exact .done (hP _ ha) (hq h)

theorem Checks.eq_undefined (h : o.Checks P Q') (hq : ¬ Q') : o = Exec.undefined := by
  cases h with
  | undefined => rfl
  | done _ h => exact absurd h hq

theorem Checks.of_done {a : α} (h : o.Checks P Q') (ho : o = Exec.done a) : Q' := by
  cases ho ▸ h with
  | done _ hq => exact hq

/-- A loop that ends with a result has passed the checks of every round. -/
theorem count_checks {q : Nat → Prop} (h0 : P s) (hstep : ∀ i < n, ∀ s, P s → (body i s).Checks P (q i)) :
    (count n body s).Checks P (∀ i < n, q i) := by
  induction n with
  | zero => exact .done h0 fun i hi => absurd hi (Nat.not_lt_zero i)
  | succ n ih =>
    rw [count_succ]
    refine ((ih fun i hi => hstep i (by omega)).bind fun s' hs' => hstep n (by omega) s' hs').mono (fun _ h => h) ?_
    rintro ⟨hlt, hn⟩ i hi
    rcases Nat.lt_succ_iff_lt_or_eq.mp hi with hi | rfl
    · exact hlt i hi
    · exact hn

/-! ## Going on after a refusal -/

section Attempt

variable {γ : Type u} {b : Exec γ} {g : α → Exec γ}

/-- Go on with the result, or with what follows a `return false`. -/
def attempt (o : Exec α) (fail : Exec β) (next : α → Exec β) : Exec β :=
  match o with
  | undefined => undefined
  | refused => fail
  | done a => next a

theorem attempt_bind (o : Exec α) (f : α → Exec β) (b : Exec γ) (g : β → Exec γ) :
    (o >>= f).attempt b g = o.attempt b fun a => (f a).attempt b g := by
  cases o <;> rfl

theorem attempt_ite (c : Prop) [Decidable c] (o o' : Exec α) (b : Exec γ) (g : α → Exec γ) :
    (if c then o else o').attempt b g = if c then o.attempt b g else o'.attempt b g := by
  split <;> rfl

theorem attempt_refused (b : Exec γ) (g : α → Exec γ) : refused.attempt b g = b := rfl

theorem attempt_done (a : α) (b : Exec γ) (g : α → Exec γ) : (done a).attempt b g = g a := rfl

theorem attempt_eq_bind (h : o ≠ refused) : o.attempt b g = o >>= g := by
  cases o <;> first | rfl | exact absurd rfl h

theorem bind_ne_refused (h : o ≠ refused) (hf : ∀ a, f a ≠ refused) : (o >>= f) ≠ refused := by
  cases o <;> simp_all

theorem count_ne_refused (h : ∀ i s, body i s ≠ refused) (n : Nat) (s : α) : count n body s ≠ refused := by
  induction n with
  | zero => simp [count_zero]
  | succ n ih =>
    rw [count_succ]
    exact bind_ne_refused ih fun s => h n s

end Attempt

end Exec

end MinicOs
