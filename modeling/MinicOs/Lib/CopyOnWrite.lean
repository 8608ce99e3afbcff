import Mathlib.Data.Set.Card

/-!
# Frames shared copy-on-write

A table maps keys to frames, and each mapping is writable or not. `refs` counts the references to a
frame. `CowOk` says that no frame has more mappings than references, and that a frame mapped writable
has no other mapping.
-/

namespace MinicOs

open Function Set

variable {κ φ : Type*} {t : κ → Option (φ × Bool)} {refs refs' : φ → Nat} {k k' : κ} {f n : φ} {w : Bool}

/-- The keys that are mapped to a frame. -/
def mappers (t : κ → Option (φ × Bool)) (f : φ) : Set κ := { k | ∃ w, t k = some (f, w) }

structure CowOk (t : κ → Option (φ × Bool)) (refs : φ → Nat) : Prop where
  count : ∀ f, (mappers t f).encard ≤ refs f
  alone : ∀ {k k' f w}, t k = some (f, true) → t k' = some (f, w) → k' = k

variable (h : CowOk t refs)
include h

/-- Nothing else is mapped to the frame of a mapping with one reference. -/
theorem CowOk.last (hk : k ∈ mappers t f) (hf : refs f ≤ 1) (hk' : k' ∈ mappers t f) : k' = k :=
  encard_le_one_iff.mp ((h.count f).trans (by exact_mod_cast hf)) _ _ hk' hk

theorem CowOk.count_le {s : Set κ} (hs : s ⊆ mappers t f) (hf : (mappers t f).Nonempty → refs f ≤ refs' f) :
    s.encard ≤ refs' f := by
  refine (encard_le_encard hs).trans ?_
  rcases (mappers t f).eq_empty_or_nonempty with hempty | hne
  · simp [hempty]
  · exact (h.count f).trans (by exact_mod_cast hf hne)

variable [DecidableEq κ]

/-- **A key is mapped to a frame that nothing was mapped to**; a frame it was mapped to may lose a
reference. -/
theorem CowOk.copy (hn : mappers t n = ∅) (hpos : 1 ≤ refs' n)
    (hrefs : ∀ g, (mappers t g).Nonempty → refs g ≤ refs' g ∨ k ∈ mappers t g ∧ refs g ≤ refs' g + 1) :
    CowOk (update t k (some (n, w))) refs' := by
  have hnone : ∀ a w', t a ≠ some (n, w') := fun a w' ha => eq_empty_iff_forall_notMem.mp hn a ⟨w', ha⟩
  refine ⟨fun g => ?_, fun {a b g w'} ha hb => ?_⟩
  · by_cases hg : g = n
    · have hsub : mappers (update t k (some (n, w))) g ⊆ {k} := fun a ⟨w', ha⟩ => by
        by_contra hne
        exact hnone a w' (by rwa [update_of_ne hne, hg] at ha)
      exact (encard_le_encard hsub).trans (by rw [encard_singleton, hg]; exact_mod_cast hpos)
    have hsub : mappers (update t k (some (n, w))) g ⊆ mappers t g \ {k} := fun a ⟨w', ha⟩ => by
      simp only [update_apply] at ha
      split at ha
      · simp_all
      · exact ⟨⟨w', ha⟩, ‹_›⟩
    by_cases hle : (mappers t g).Nonempty → refs g ≤ refs' g
    · exact h.count_le (hsub.trans sdiff_subset) hle
    · push Not at hle
      obtain ⟨hk, hle⟩ := (hrefs g hle.1).resolve_left (by omega)
      have hcount := h.count g
      rw [← encard_sdiff_singleton_add_one hk] at hcount
      exact (encard_le_encard hsub).trans
        ((ENat.add_le_add_iff_right ENat.one_ne_top).mp (hcount.trans (by exact_mod_cast hle)))
  · have := @h.alone a b g w'
    simp only [update_apply] at ha hb
    grind

/-- **A key is mapped to the frame of another**: both mappings are read-only from now on, and the frame has
one more reference. -/
theorem CowOk.share (hk : t k = some (f, w)) (hf : refs f + 1 ≤ refs' f)
    (hrefs : ∀ g, g ≠ f → (mappers t g).Nonempty → refs g ≤ refs' g) :
    CowOk (update (update t k (some (f, false))) k' (some (f, false))) refs' := by
  refine ⟨fun g => ?_, fun {a b g w'} ha hb => ?_⟩
  · by_cases hg : g = f
    · have hsub : mappers (update (update t k (some (f, false))) k' (some (f, false))) g ⊆ insert k' (mappers t g) :=
        fun a ⟨w', ha⟩ => by
          simp only [update_apply] at ha
          show a = k' ∨ ∃ w, t a = some (g, w)
          grind
      rw [hg] at hsub ⊢
      refine (encard_le_encard hsub).trans ((encard_insert_le _ _).trans ?_)
      exact (add_le_add_left (h.count f) 1).trans (by exact_mod_cast hf)
    · refine h.count_le (fun a ⟨w', ha⟩ => ?_) (hrefs g hg)
      simp only [update_apply] at ha
      show ∃ w, t a = some (g, w)
      grind
  · -- a writable mapping of the frame was the only one, and it is read-only now
    have h1 := @h.alone a b g w'
    have h2 := @h.alone a k g w
    simp only [update_apply] at ha hb
    grind

end MinicOs
