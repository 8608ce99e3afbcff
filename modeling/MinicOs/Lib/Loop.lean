import Mathlib.Logic.Relation
import Mathlib.Data.List.Basic

/-!
# Loops with an early exit, and invariants along runs

`loopOk body l s` is `for i in l { if (!body(i)) return false; } return true;` over a state that
`body` updates, kept also when the loop is left early. An invariant of the body is one of the loop
(`loopOk_inv`).
-/

namespace MinicOs

open Relation List

section Loop

variable {ι σ : Type*}

/-- Run `body` over the list, leaving at the first index where it answers `false`. -/
def loopOk (body : ι → σ → Bool × σ) : List ι → σ → Bool × σ
  | [], s => (true, s)
  | i :: is, s =>
    match body i s with
    | (true, s') => loopOk body is s'
    | (false, s') => (false, s')

@[simp] theorem loopOk_nil (body : ι → σ → Bool × σ) (s : σ) : loopOk body [] s = (true, s) := rfl

variable {body : ι → σ → Bool × σ} {i : ι} {is : List ι}

theorem loopOk_cons_true {s s' : σ} (h : body i s = (true, s')) : loopOk body (i :: is) s = loopOk body is s' := by
  simp only [loopOk, h]

theorem loopOk_cons_false {s s' : σ} (h : body i s = (false, s')) : loopOk body (i :: is) s = (false, s') := by
  simp only [loopOk, h]

theorem loopOk_append (body : ι → σ → Bool × σ) :
    ∀ (l l' : List ι) (s : σ), loopOk body (l ++ l') s =
      match loopOk body l s with
      | (true, s') => loopOk body l' s'
      | (false, s') => (false, s')
  | [], _, _ => rfl
  | i :: is, l', s => by
    rw [cons_append]
    cases hb : body i s with
    | mk ok s' =>
      cases ok with
      | true => rw [loopOk_cons_true hb, loopOk_cons_true hb, loopOk_append body is l' s']
      | false => rw [loopOk_cons_false hb, loopOk_cons_false hb]

/-- **The invariant rule.** What one round keeps, whether it goes on or leaves, the loop keeps. -/
theorem loopOk_inv {P : σ → Prop} : ∀ {l : List ι} {s : σ}, (∀ i ∈ l, ∀ s, P s → P (body i s).2) → P s → P (loopOk body l s).2
  | [], _, _, hs => hs
  | i :: is, s, hpres, hs => by
    have h1 : P (body i s).2 := hpres i mem_cons_self s hs
    cases hb : body i s with
    | mk ok s' =>
      rw [hb] at h1
      cases ok with
      | false => rw [loopOk_cons_false hb]; exact h1
      | true =>
        rw [loopOk_cons_true hb]
        exact loopOk_inv (fun j hj => hpres j (mem_cons_of_mem i hj)) h1

/-- **The rule for a loop that runs to its end**: what the rounds that go on keep. -/
theorem loopOk_true {P : σ → Prop} : ∀ {l : List ι} {s s' : σ},
    (∀ i ∈ l, ∀ s s', P s → body i s = (true, s') → P s') → loopOk body l s = (true, s') → P s → P s'
  | [], _, _, _, h, hs => (Prod.mk.inj h).2 ▸ hs
  | i :: is, s, s', step, h, hs => by
    cases hb : body i s with
    | mk ok s1 =>
      cases ok with
      | false =>
        rw [loopOk_cons_false hb] at h
        cases h
      | true =>
        rw [loopOk_cons_true hb] at h
        exact loopOk_true (fun j hj => step j (mem_cons_of_mem i hj)) h (step i mem_cons_self s s1 hs hb)

/-- **The rule for a counting loop that runs to its end**: an invariant that knows the count. -/
theorem loopOk_range {body : Nat → σ → Bool × σ} {I : Nat → σ → Prop} :
    ∀ {n : Nat} {s s' : σ}, (∀ j < n, ∀ s s', I j s → body j s = (true, s') → I (j + 1) s') →
      loopOk body (List.range n) s = (true, s') → I 0 s → I n s'
  | 0, s, s', _, h, h0 => by
    cases h
    exact h0
  | n + 1, s, s', step, h, h0 => by
    rw [range_succ, loopOk_append] at h
    split at h
    · rename_i s1 h1
      have hn := loopOk_range (fun j hj => step j (by omega)) h1 h0
      cases hb : body n s1 with
      | mk ok s2 =>
        cases ok with
        | false =>
          rw [loopOk_cons_false hb] at h
          simp at h
        | true =>
          rw [loopOk_cons_true hb] at h
          cases h
          exact step n (by omega) _ _ hn hb
    · simp at h

end Loop

/-! ## Runs -/

section Run

variable {σ : Type*}

/-- **The induction over a run**: what holds at the start and survives every step holds in every
state the run reaches. -/
theorem run_inv {step : σ → σ → Prop} {P : σ → Prop} (hstep : ∀ s s', P s → step s s' → P s')
    {s s' : σ} (h : ReflTransGen step s s') (hs : P s) : P s' := by
  induction h with
  | refl => exact hs
  | tail _ hst ih => exact hstep _ _ ih hst

/-- The state after a list of events, `none` if one of them cannot happen. -/
def runList {ε : Type*} (step : σ → ε → Option σ) : List ε → σ → Option σ
  | [], s => some s
  | ev :: evs, s => (step s ev).bind (runList step evs)

theorem runList_run {ε : Type*} {step : σ → ε → Option σ} {R : σ → σ → Prop} :
    ∀ {evs : List ε} {s s' : σ}, (∀ s s', ∀ ev ∈ evs, step s ev = some s' → R s s') →
      runList step evs s = some s' → ReflTransGen R s s'
  | [], s, s', _, h => by
    cases h
    exact ReflTransGen.refl
  | ev :: evs, s, s', hR, h => by
    obtain ⟨s1, h1, h2⟩ := Option.bind_eq_some_iff.mp h
    exact ReflTransGen.head (hR s s1 ev mem_cons_self h1)
      (runList_run (fun s s' ev hm => hR s s' ev (mem_cons_of_mem _ hm)) h2)

end Run

end MinicOs
