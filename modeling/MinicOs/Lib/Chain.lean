import Mathlib.Data.List.Basic
import Mathlib.Logic.Function.Basic

/-!
# Chains of records laid end to end

Records of varying length lie end to end in a memory `hdr` indexed by offset: the record at `o` is
`hdr o`, and the next one starts `len (hdr o)` further on. `Spells len hdr a l` says that the
records from offset `a` on are the list `l`. A write is local: replacing a stretch of records by
others of the same total length changes the list there and nowhere else (`Spells.replace`).

`placed len a l` lists the records with their offsets; records at different offsets do not overlap
(`placed_disjoint`).
-/

namespace MinicOs

section Chain

variable {β : Type*} (len : β → Nat)

/-- The records of `hdr` from offset `a` on are the list. -/
def Spells (hdr : Nat → β) : Nat → List β → Prop
  | _, [] => True
  | a, b :: bs => hdr a = b ∧ Spells hdr (a + len b) bs

/-- The total length of the records. -/
def extent : List β → Nat
  | [] => 0
  | b :: bs => len b + extent bs

/-- The records with their offsets, from `a` on. -/
def placed : Nat → List β → List (Nat × β)
  | _, [] => []
  | a, b :: bs => (a, b) :: placed (a + len b) bs

variable {len}

theorem extent_append (l l' : List β) : extent len (l ++ l') = extent len l + extent len l' := by
  induction l with
  | nil => simp [extent]
  | cons b bs ih => simp [extent, ih, Nat.add_assoc]

@[simp] theorem extent_singleton (b : β) : extent len [b] = len b := rfl

variable {hdr : Nat → β}

theorem spells_append : ∀ {l l' : List β} {a : Nat},
    Spells len hdr a (l ++ l') ↔ Spells len hdr a l ∧ Spells len hdr (a + extent len l) l'
  | [], l', a => by simp [Spells, extent]
  | b :: bs, l', a => by
    rw [List.cons_append]
    simp only [Spells, extent]
    rw [spells_append, and_assoc, Nat.add_assoc]

/-- The list depends only on the memory it covers. -/
theorem Spells.congr (hlen : ∀ b, 0 < len b) {hdr' : Nat → β} : ∀ {l : List β} {a : Nat},
    Spells len hdr a l → (∀ o, a ≤ o → o < a + extent len l → hdr' o = hdr o) → Spells len hdr' a l
  | [], _, _, _ => trivial
  | b :: bs, a, h, heq => by
    have hb := hlen b
    simp only [extent] at heq
    refine ⟨(heq a (Nat.le_refl a) (by omega)).trans h.1, Spells.congr hlen h.2 fun o h1 h2 => ?_⟩
    exact heq o (by omega) (by omega)

variable {a : Nat} {l : List β}

/-- **A local edit**: the middle of the list is replaced by records of the same total length. -/
theorem Spells.replace (hlen : ∀ b, 0 < len b) {hdr' : Nat → β} (mid : List β) {mid' l' : List β}
    (h : Spells len hdr a (l ++ (mid ++ l'))) (hext : extent len mid' = extent len mid)
    (hout : ∀ o, o < a + extent len l ∨ a + extent len l + extent len mid ≤ o → hdr' o = hdr o)
    (hmid : Spells len hdr' (a + extent len l) mid') : Spells len hdr' a (l ++ (mid' ++ l')) := by
  rw [spells_append, spells_append] at h ⊢
  obtain ⟨h1, -, h3⟩ := h
  rw [hext]
  exact ⟨h1.congr hlen fun o _ ho => hout o (Or.inl ho), hmid, h3.congr hlen fun o ho _ => hout o (Or.inr ho)⟩

variable {b : β}

/-- Records become one, of the same total length, by a write at the first. -/
theorem Spells.set (hlen : ∀ b, 0 < len b) (mid : List β) {l' : List β} (h : Spells len hdr 0 (l ++ (mid ++ l')))
    (hext : len b = extent len mid) : Spells len (Function.update hdr (extent len l) b) 0 (l ++ b :: l') := by
  have hpos := hlen b
  change Spells len _ 0 (l ++ ([b] ++ l'))
  refine h.replace hlen mid hext (fun o ho => ?_) ⟨?_, trivial⟩
  · exact Function.update_of_ne (by omega) _ _
  · rw [Nat.zero_add, Function.update_self]

theorem Spells.head {l' : List β} (h : Spells len hdr 0 (l ++ b :: l')) : hdr (extent len l) = b := by
  simpa using (spells_append.mp h).2.1

/-! ## Records with their offsets -/

variable {o : Nat}

theorem mem_placed : ∀ {l : List β} {a : Nat},
    (o, b) ∈ placed len a l ↔ ∃ l1 l2, l = l1 ++ b :: l2 ∧ o = a + extent len l1
  | [], a => by simp [placed]
  | c :: cs, a => by
    simp only [placed, List.mem_cons, Prod.mk.injEq, mem_placed]
    constructor
    · rintro (⟨rfl, rfl⟩ | ⟨l1, l2, rfl, rfl⟩)
      · exact ⟨[], cs, rfl, rfl⟩
      · exact ⟨c :: l1, l2, rfl, by simp only [extent]; omega⟩
    · rintro ⟨l1, l2, heq, rfl⟩
      cases l1 with
      | nil =>
        obtain ⟨rfl, rfl⟩ := List.cons.inj heq
        exact Or.inl ⟨rfl, rfl⟩
      | cons d ds =>
        obtain ⟨rfl, rfl⟩ := List.cons.inj heq
        exact Or.inr ⟨ds, l2, rfl, by simp only [extent]; omega⟩

theorem placed_append : ∀ {l l' : List β} {a : Nat},
    placed len a (l ++ l') = placed len a l ++ placed len (a + extent len l) l'
  | [], l', a => by simp [placed, extent]
  | b :: bs, l', a => by
    rw [List.cons_append]
    simp only [placed, extent, List.cons_append]
    rw [placed_append, Nat.add_assoc]

theorem placed_le (h : (o, b) ∈ placed len a l) : a ≤ o ∧ o + len b ≤ a + extent len l := by
  obtain ⟨l1, l2, rfl, rfl⟩ := mem_placed.mp h
  rw [extent_append]
  simp only [extent]
  omega

theorem placed_disjoint (hlen : ∀ b, 0 < len b) {o' : Nat} {b' : β} : ∀ {l : List β} {a : Nat},
    (o, b) ∈ placed len a l → (o', b') ∈ placed len a l → o < o' → o + len b ≤ o'
  | [], _, h, _, _ => absurd h (by simp [placed])
  | c :: cs, a, h, h', hlt => by
    simp only [placed, List.mem_cons, Prod.mk.injEq] at h h'
    rcases h with ⟨rfl, rfl⟩ | h
    · rcases h' with ⟨rfl, -⟩ | h'
      · omega
      · exact (placed_le h').1
    · rcases h' with ⟨rfl, rfl⟩ | h'
      · have := (placed_le h).1
        have := hlen b'
        omega
      · exact placed_disjoint hlen h h' hlt

end Chain

end MinicOs
