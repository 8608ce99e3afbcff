import MinicOs.Lib.BigEndian

/-!
# Elements of DER

An element is a tag, a length in the short form or in the long form with one to four bytes, and a value.

* `derHeader`: what the bytes say before the value;
* `DerElement`: the encodings of a value, and `DerElement.header`: their header is read back, whatever comes behind;
* `DerInteger`: the contents of a non-negative INTEGER.
-/

namespace MinicOs

open List Nat

variable {tag : BitVec 8} {l value bytes : List (BitVec 8)}

/-! ## Headers -/

/-- A tag and a length. -/
structure DerHeader where
  tag : BitVec 8
  /-- The number of bytes before the value. -/
  size : Nat
  /-- The length of the value. -/
  length : Nat

/-- The header at the start of `l`; `none` if it is cut off, or if the length has no byte or more than four. -/
def derHeader : List (BitVec 8) → Option DerHeader
  | tag :: first :: rest =>
    if first.toNat < 128 then some ⟨tag, 2, first.toNat⟩
    else
      let n := first.toNat - 128
      if 1 ≤ n ∧ n ≤ 4 ∧ n ≤ rest.length then some ⟨tag, 2 + n, beValue (rest.take n)⟩ else none
  | _ => none

/-- The two forms of a length. -/
inductive DerLength (first : BitVec 8) (rest : List (BitVec 8)) : Nat → Nat → Prop
  | short (h : first.toNat < 128) : DerLength first rest 2 first.toNat
  | long (n : Nat) (hfirst : first.toNat = 128 + n) (h1 : 1 ≤ n) (h4 : n ≤ 4) (hrest : n ≤ rest.length) :
      DerLength first rest (2 + n) (beValue (rest.take n))

theorem derHeader_cons {first : BitVec 8} {rest : List (BitVec 8)} {size length : Nat}
    (h : DerLength first rest size length) : derHeader (tag :: first :: rest) = some ⟨tag, size, length⟩ := by
  cases h with
  | short h => rw [derHeader, if_pos h]
  | long n hfirst h1 h4 hrest =>
    rw [derHeader, if_neg (by omega)]
    rw [show first.toNat - 128 = n by omega, if_pos ⟨h1, h4, hrest⟩]

variable {x : DerHeader}

theorem derHeader_eq_some (h : derHeader l = some x) :
    ∃ first rest, l = x.tag :: first :: rest ∧ DerLength first rest x.size x.length := by
  fun_cases derHeader l with
  | case1 tag first rest hshort =>
    rw [derHeader, if_pos hshort] at h
    cases h
    exact ⟨first, rest, rfl, .short hshort⟩
  | case2 tag first rest hlong n hn =>
    rw [derHeader, if_neg hlong] at h
    have hx : some (⟨tag, 2 + n, beValue (rest.take n)⟩ : DerHeader) = some x := (if_pos hn).symm.trans h
    have hfirst : first.toNat = 128 + n := (Nat.add_sub_cancel' (Nat.not_lt.mp hlong)).symm
    clear_value n
    cases hx
    exact ⟨first, rest, rfl, .long n hfirst hn.1 hn.2.1 hn.2.2⟩
  | case3 tag first rest hlong n hn =>
    rw [derHeader, if_neg hlong] at h
    exact absurd ((if_neg hn).symm.trans h) (by simp)
  | case4 l hl =>
    match l, hl, h with
    | [], _, h => simp [derHeader] at h
    | [_], _, h => simp [derHeader] at h
    | tag :: first :: rest, hl, _ => exact (hl tag first rest rfl).elim

/-- A header is read the same way when more bytes follow. -/
theorem derHeader_append (h : derHeader l = some x) (l' : List (BitVec 8)) : derHeader (l ++ l') = some x := by
  obtain ⟨first, rest, rfl, hlen⟩ := derHeader_eq_some h
  refine derHeader_cons ?_
  cases x with
  | mk tag size length =>
    cases hlen with
    | short hshort => exact .short hshort
    | long n hfirst h1 h4 hrest =>
      have hlong := @DerLength.long first (rest ++ l') n hfirst h1 h4 (by rw [length_append]; omega)
      rwa [take_append_of_le_length hrest] at hlong

theorem DerHeader.size_bounds (h : derHeader l = some x) : 2 ≤ x.size ∧ x.size ≤ l.length := by
  obtain ⟨first, rest, rfl, hlen⟩ := derHeader_eq_some h
  rw [length_cons, length_cons]
  generalize x.size = size, x.length = length at hlen ⊢
  cases hlen with
  | short _ => exact ⟨by omega, by omega⟩
  | long n _ _ _ hrest => exact ⟨by omega, by omega⟩

theorem DerHeader.length_lt (h : derHeader l = some x) : x.length < 2 ^ 32 := by
  obtain ⟨first, rest, rfl, hlen⟩ := derHeader_eq_some h
  generalize x.size = size, x.length = length at hlen ⊢
  cases hlen with
  | short _ => omega
  | long n _ _ h4 _ =>
    refine (beValue_lt _).trans_le (Nat.pow_le_pow_right (by decide) ?_)
    rw [length_take]
    omega

/-! ## Elements -/

/-- `bytes` is an encoding of `value` with the tag. -/
inductive DerElement (tag : BitVec 8) (value : List (BitVec 8)) : List (BitVec 8) → Prop
  | short (h : value.length < 128) : DerElement tag value (tag :: BitVec.ofNat 8 value.length :: value)
  | long (n : Nat) (h1 : 1 ≤ n) (h4 : n ≤ 4) (h : value.length < 2 ^ (8 * n)) :
      DerElement tag value (tag :: BitVec.ofNat 8 (128 + n) :: (beBytes n value.length ++ value))

/-- **The header of an element**, and the value behind it. -/
theorem DerElement.header (h : DerElement tag value bytes) :
    ∃ x, (∀ rest, derHeader (bytes ++ rest) = some x) ∧ x.tag = tag ∧ x.length = value.length ∧
      bytes.drop x.size = value ∧ x.size + value.length = bytes.length := by
  cases h with
  | short h =>
    refine ⟨⟨tag, 2, value.length⟩, fun rest => ?_, rfl, rfl, rfl, ?_⟩
    · have hlen : (BitVec.ofNat 8 value.length).toNat = value.length := by
        rw [BitVec.toNat_ofNat]
        omega
      have hheader := @derHeader_cons tag _ (value ++ rest) _ _ (.short (by rw [hlen]; exact h))
      rwa [hlen] at hheader
    · rw [length_cons, length_cons]
      exact add_comm 2 _
  | long n h1 h4 h =>
    refine ⟨⟨tag, 2 + n, value.length⟩, fun rest => ?_, rfl, rfl, ?_, ?_⟩
    · have hfirst : (BitVec.ofNat 8 (128 + n)).toNat = 128 + n := by
        rw [BitVec.toNat_ofNat]
        omega
      have htake : ((beBytes n value.length ++ value) ++ rest).take n = beBytes n value.length := by
        rw [append_assoc, take_append_of_le_length (by rw [length_beBytes]),
          take_of_length_le (by rw [length_beBytes])]
      have hheader := @derHeader_cons tag _ _ _ _ (@DerLength.long _ (beBytes n value.length ++ value ++ rest) n hfirst
        h1 h4 (by simp only [length_append, length_beBytes]; omega))
      rwa [htake, beValue_beBytes, mod_eq_of_lt h] at hheader
    · rw [add_comm 2 n]
      show (beBytes n value.length ++ value).drop n = value
      rw [drop_append_of_le_length (by rw [length_beBytes]), drop_of_length_le (by rw [length_beBytes]),
        nil_append]
    · simp only [length_cons, length_append, length_beBytes]
      omega

/-! ## Integers -/

/-- The contents of the INTEGER `v`: its bytes behind a sign bit that is clear, none of them superfluous. -/
structure DerInteger (v : Nat) (value : List (BitVec 8)) : Prop where
  nonempty : value ≠ []
  value_eq : beValue value = v
  sign : ∀ b ∈ value.head?, b.toNat < 128
  shortest : ∀ b rest, value = 0 :: b :: rest → 128 ≤ b.toNat

/-- The contents without the zero byte that only makes room for the sign. -/
def derMagnitude : List (BitVec 8) → List (BitVec 8)
  | b :: b' :: rest => if b = 0 then b' :: rest else b :: b' :: rest
  | l => l

theorem beValue_derMagnitude (l : List (BitVec 8)) : beValue (derMagnitude l) = beValue l := by
  match l with
  | [] => rfl
  | [b] => rfl
  | b :: b' :: rest =>
    rw [derMagnitude]
    split
    · rename_i hb
      rw [hb, beValue_cons 0, show (0 : BitVec 8).toNat = 0 from rfl, zero_mul, zero_add]
    · rfl

theorem le_beValue {b : BitVec 8} (rest : List (BitVec 8)) (hb : b ≠ 0) : 2 ^ (8 * rest.length) ≤ beValue (b :: rest) := by
  have hpos : 1 ≤ b.toNat := one_le_iff_ne_zero.mpr fun h => hb (BitVec.eq_of_toNat_eq h)
  rw [beValue_cons]
  exact (Nat.le_mul_of_pos_left _ hpos).trans (Nat.le_add_right _ _)

/-- **The magnitude has no more bytes than the number needs.** -/
theorem DerInteger.length_magnitude {v n : Nat} (h : DerInteger v value) (hv : v < 2 ^ (8 * n)) (hn : 1 ≤ n) :
    1 ≤ (derMagnitude value).length ∧ (derMagnitude value).length ≤ n := by
  have hval := h.value_eq
  have hcount {b : BitVec 8} {rest : List (BitVec 8)} (hb : b ≠ 0) (hle : beValue (b :: rest) = v) :
      (b :: rest).length ≤ n := by
    have hlt := lt_of_le_of_lt (le_beValue rest hb) (hle ▸ hv)
    have := (Nat.pow_lt_pow_iff_right (by decide)).mp hlt
    rw [length_cons]
    omega
  match value, h, hval with
  | [], h, _ => exact absurd rfl h.nonempty
  | [b], _, _ => exact ⟨le_refl 1, hn⟩
  | b :: b' :: rest, h, hval =>
    rw [derMagnitude]
    split
    · rename_i hb
      subst hb
      have hhigh := h.shortest b' rest rfl
      refine ⟨le_add_left _ _, hcount (fun hzero => ?_) ?_⟩
      · rw [hzero] at hhigh
        exact absurd hhigh (by decide)
      · rwa [beValue_cons 0, show (0 : BitVec 8).toNat = 0 from rfl, zero_mul, zero_add] at hval
    · rename_i hb
      exact ⟨le_add_left _ _, hcount hb hval⟩

end MinicOs
