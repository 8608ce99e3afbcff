import MinicOs.Mm.HeapBlocks
import MinicOs.Mm.KernelMap

/-!
# The kernel heap, header by header

Model of `kernel/mm/heap/heap.c` at the level of the block headers in memory: `hdr o` is the header
at offset `o`, sizes are `u64` and wrap. `kalloc` looks before it touches a header: one that does
not lie below `g_heap_size` ends the call with `outside`, which stands for the page fault. Loops
take fuel; a call returns when some amount of fuel gives a result.

The headers of a sound heap spell a list of blocks (`Spelled`), and each loop does to the headers
what the list functions of `HeapBlocks` do to the list.
-/

namespace MinicOs

open List Function

def add64 (a b : Nat) : Nat := (a + b) % 2 ^ 64

def sub64 (a b : Nat) : Nat := (a + (2 ^ 64 - b)) % 2 ^ 64

theorem add64_of_lt {a b : Nat} (h : a + b < 2 ^ 64) : add64 a b = a + b := Nat.mod_eq_of_lt h

theorem add64_add64_of_lt {a b c : Nat} (h : a + b + c < 2 ^ 64) : add64 (add64 a b) c = a + b + c := by
  rw [add64_of_lt (show a + b < 2 ^ 64 by omega), add64_of_lt h]

theorem sub64_of_le {a b : Nat} (h : b ≤ a) (ha : a < 2 ^ 64) : sub64 a b = a - b := by
  unfold sub64
  omega

/-- The block headers where they lie, `g_heap_size`, `g_heap_cap` and `g_heap_inited`. -/
structure HeapMem where
  hdr : Nat → BlockHeader
  size : Nat
  cap : Nat
  inited : Bool

def HeapMem.write (h : HeapMem) (o : Nat) (b : BlockHeader) : HeapMem :=
  { h with hdr := update h.hdr o b }

/-! ## `kalloc` -/

/-- What a `kalloc` comes to: `NULL`, the block at an offset, or a header beyond the heap. -/
inductive Kalloc
  | null
  | block (offset : Nat)
  | outside (offset : Nat)
deriving DecidableEq

/-- What the search loop comes to. -/
inductive Search
  | found (offset : Nat)
  | absent
  | outside (offset : Nat)
deriving DecidableEq

/-- The search loop of `kalloc`. -/
def searchLoop (h : HeapMem) (size : Nat) : Nat → Nat → Option Search
  | 0, _ => none
  | fuel + 1, offset =>
    if offset < h.size then
      if offset + headerSize ≤ h.size then
        let block := h.hdr offset
        if block.free = true ∧ size ≤ block.size then some (.found offset)
        else searchLoop h size fuel (add64 (add64 offset headerSize) block.size)
      else some (.outside offset)
    else some .absent

/-- Taking the block the search found. -/
def takeAt (h : HeapMem) (size offset : Nat) : Kalloc × HeapMem :=
  let block := h.hdr offset
  if add64 (add64 size headerSize) 16 ≤ block.size then
    let remainder := add64 (add64 offset headerSize) size
    if remainder + headerSize ≤ h.size then
      (.block offset, (h.write remainder { size := sub64 (sub64 block.size size) headerSize, free := true }).write offset
        { size := size, free := false })
    else (.outside remainder, h)
  else (.block offset, h.write offset { block with free := false })

/-- The bytes `heap_grow` sets out to map. -/
def growChunk64 (h : HeapMem) (minExtra : Nat) : Nat :=
  let chunk := if minExtra < 65536 then 65536 else minExtra
  let chunk := if chunk % 4096 ≠ 0 then add64 chunk (4096 - chunk % 4096) else chunk
  if h.cap < add64 h.size chunk then sub64 h.cap h.size else chunk

/-- `heap_grow`. -/
def heapGrow64 (gPml4 : U64) (ph : Phys) (h : HeapMem) (minExtra : Nat) : Bool × Phys × HeapMem :=
  let chunk := growChunk64 h minExtra
  match loopOk (growPage gPml4 h.size) (range ((chunk + 4095) / 4096)) ph with
  | (false, ph') => (false, ph', h)
  | (true, ph') => (true, ph', { h with size := add64 h.size chunk })

/-- The outer loop of `kalloc`. -/
def kallocLoop64 (gPml4 : U64) (size inner : Nat) :
    Nat → Phys → HeapMem → Option (Kalloc × Phys × HeapMem)
  | 0, _, _ => none
  | fuel + 1, ph, h =>
    match searchLoop h size inner 0 with
    | none => none
    | some (.outside o) => some (.outside o, ph, h)
    | some (.found o) => some ((takeAt h size o).1, ph, (takeAt h size o).2)
    | some .absent =>
      match heapGrow64 gPml4 ph h (add64 size headerSize) with
      | (false, ph', h') => some (.null, ph', h')
      | (true, ph', h') =>
        if h.size + headerSize ≤ h'.size then
          kallocLoop64 gPml4 size inner fuel ph'
            (h'.write h.size { size := sub64 (sub64 h'.size h.size) headerSize, free := true })
        else some (.outside h.size, ph', h')

/-- `heap_init`; `false` if the first header lies outside the heap. -/
def heapInit (gPml4 : U64) (ph : Phys) (h : HeapMem) : Bool × Phys × HeapMem :=
  let r := if h.size = 0 then heapGrow64 gPml4 ph { h with cap := 16777216 } 65536 else (true, ph, h)
  if headerSize ≤ r.2.2.size then
    (true, r.2.1, { (r.2.2.write 0 { size := sub64 r.2.2.size headerSize, free := true }) with
      inited := true })
  else (false, r.2.1, r.2.2)

/-- The rounding of a request to 16 bytes. -/
def roundSize (size : Nat) : Nat := if size % 16 ≠ 0 then add64 size (16 - size % 16) else size

/-- `kalloc`, with fuel for its loops. -/
def kalloc64 (gPml4 : U64) (fuel : Nat) (ph : Phys) (h : HeapMem) (size : Nat) : Option (Kalloc × Phys × HeapMem) :=
  let r := if h.inited = true then (true, ph, h) else heapInit gPml4 ph h
  if r.1 = true then kallocLoop64 gPml4 (roundSize size) fuel fuel r.2.1 r.2.2
  else some (.outside 0, r.2.1, r.2.2)

theorem roundSize_of_le {size : Nat} (hle : size ≤ 2 ^ 64 - 16) :
    size ≤ roundSize size ∧ 16 ∣ roundSize size ∧ roundSize size < size + 16 := by
  unfold roundSize
  split
  · rw [add64_of_lt (by omega)]
    omega
  · omega

theorem kalloc64_inited {gPml4 : U64} {ph : Phys} {h : HeapMem} {size : Nat} (hi : h.inited = true) (fuel : Nat) :
    kalloc64 gPml4 fuel ph h size = kallocLoop64 gPml4 (roundSize size) fuel fuel ph h := by
  unfold kalloc64
  simp only [hi, if_true]

/-! ## `kfree` -/

/-- The forward coalescing loop of `kfree`, at the freed block's offset. -/
def forwardLoop (size offset : Nat) : Nat → (Nat → BlockHeader) → Option (Nat → BlockHeader)
  | 0, _ => none
  | fuel + 1, hdr =>
    let block := hdr offset
    let next := add64 (add64 offset headerSize) block.size
    if next < size then
      if (hdr next).free = true then
        forwardLoop size offset fuel (update hdr offset
          { block with size := add64 (add64 block.size headerSize) (hdr next).size })
      else some hdr
    else some hdr

/-- The rescan of `kfree` for the block that ends at `offset`. -/
def backScan (hdr : Nat → BlockHeader) (offset : Nat) : Nat → Nat → Option (Option Nat)
  | 0, _ => none
  | fuel + 1, scanOffset =>
    if scanOffset < offset then
      let next := add64 (add64 scanOffset headerSize) (hdr scanOffset).size
      if next = offset then some (some scanOffset) else backScan hdr offset fuel next
    else some none

/-- The last step of `kfree`: merge into the previous block if it is free. -/
def joinPrev (hdr : Nat → BlockHeader) (offset : Nat) : Option Nat → Nat → BlockHeader
  | none => hdr
  | some prev =>
    if (hdr prev).free = true then
      update hdr prev
        { hdr prev with size := add64 (add64 (hdr prev).size headerSize) (hdr offset).size }
    else hdr

/-- `kfree`, with fuel for its loops. -/
def kfree (fuel : Nat) (h : HeapMem) (ptr : Nat) : Option HeapMem :=
  if ptr = 0 then some h
  else if ptr < heapBase + headerSize ∨ heapBase + h.size ≤ ptr then some h
  else
    let offset := ptr - heapBase - headerSize
    let hdr := update h.hdr offset { h.hdr offset with free := true }
    match forwardLoop h.size offset fuel hdr with
    | none => none
    | some hdr =>
      (backScan hdr offset fuel 0).map fun prev => { h with hdr := joinPrev hdr offset prev }

/-! ## More fuel -/

theorem searchLoop_mono {h : HeapMem} {n : Nat} {r : Search} :
    ∀ {fuel fuel' off : Nat}, searchLoop h n fuel off = some r → fuel ≤ fuel' →
      searchLoop h n fuel' off = some r
  | 0, _, _, hs, _ => absurd hs (by simp [searchLoop])
  | fuel + 1, 0, _, _, hle => absurd hle (by omega)
  | fuel + 1, fuel' + 1, off, hs, hle => by
    have ih := fun off hs => @searchLoop_mono h n r fuel fuel' off hs (by omega)
    simp only [searchLoop] at hs ⊢
    grind

theorem kallocLoop64_mono {gPml4 : U64} {n : Nat} {r : Kalloc × Phys × HeapMem} :
    ∀ {fuel fuel' inner inner' : Nat} {ph : Phys} {h : HeapMem},
      kallocLoop64 gPml4 n inner fuel ph h = some r → fuel ≤ fuel' → inner ≤ inner' →
      kallocLoop64 gPml4 n inner' fuel' ph h = some r
  | 0, _, _, _, _, _, hs, _, _ => absurd hs (by simp [kallocLoop64])
  | fuel + 1, 0, _, _, _, _, _, hle, _ => absurd hle (by omega)
  | fuel + 1, fuel' + 1, inner, inner', ph, h, hs, hle, hin => by
    unfold kallocLoop64 at hs ⊢
    cases hsearch : searchLoop h n inner 0 with
    | none =>
      rw [hsearch] at hs
      simp at hs
    | some found =>
      rw [hsearch] at hs
      rw [searchLoop_mono hsearch hin]
      cases found with
      | outside o => exact hs
      | found o => exact hs
      | absent =>
        simp only at hs ⊢
        split at hs
        · exact hs
        · split at hs
          · rw [if_pos ‹_›]
            exact kallocLoop64_mono hs (by omega) hin
          · rw [if_neg ‹_›]
            exact hs

theorem forwardLoop_mono {size offset : Nat} {hdr' : Nat → BlockHeader} :
    ∀ {fuel fuel' : Nat} {hdr : Nat → BlockHeader},
      forwardLoop size offset fuel hdr = some hdr' → fuel ≤ fuel' →
      forwardLoop size offset fuel' hdr = some hdr'
  | 0, _, _, hs, _ => absurd hs (by simp [forwardLoop])
  | fuel + 1, 0, _, _, hle => absurd hle (by omega)
  | fuel + 1, fuel' + 1, hdr, hs, hle => by
    have ih := fun hdr hs => @forwardLoop_mono size offset hdr' fuel fuel' hdr hs (by omega)
    simp only [forwardLoop] at hs ⊢
    grind

theorem backScan_mono {hdr : Nat → BlockHeader} {offset : Nat} {r : Option Nat} :
    ∀ {fuel fuel' off : Nat}, backScan hdr offset fuel off = some r → fuel ≤ fuel' →
      backScan hdr offset fuel' off = some r
  | 0, _, _, hs, _ => absurd hs (by simp [backScan])
  | fuel + 1, 0, _, _, hle => absurd hle (by omega)
  | fuel + 1, fuel' + 1, off, hs, hle => by
    have ih := fun off hs => @backScan_mono hdr offset r fuel fuel' off hs (by omega)
    simp only [backScan] at hs ⊢
    grind

theorem kfree_mono {fuel fuel' : Nat} {h h' : HeapMem} {ptr : Nat} (hs : kfree fuel h ptr = some h')
    (hle : fuel ≤ fuel') : kfree fuel' h ptr = some h' := by
  unfold kfree at hs ⊢
  split
  · rwa [if_pos ‹_›] at hs
  · rw [if_neg ‹_›] at hs
    split
    · rwa [if_pos ‹_›] at hs
    · rw [if_neg ‹_›] at hs
      simp only at hs ⊢
      split at hs
      · simp at hs
      · rename_i hdr hfwd
        rw [forwardLoop_mono hfwd hle]
        obtain ⟨r, hback, heq⟩ := Option.map_eq_some_iff.mp hs
        simp only [backScan_mono hback hle, Option.map_some, heq]

/-! ## The headers spell a list -/

/-- The headers of the heap spell the list of blocks, and the blocks fill the heap. -/
structure Spelled (h : HeapMem) (l : List BlockHeader) : Prop where
  spells : Spells blockLen h.hdr 0 l
  tile : extent blockLen l = h.size
  small : h.size ≤ 16777216

/-- The offset behind a block that lies in the heap. -/
theorem add64_blockLen {off : Nat} {b : BlockHeader} (h : off + blockLen b ≤ 16777216) :
    add64 (add64 off headerSize) b.size = off + blockLen b := by
  unfold blockLen at h ⊢
  rw [add64_add64_of_lt (by omega), Nat.add_assoc]

variable {l1 : List BlockHeader}

section Take

variable {h : HeapMem} {n : Nat}

/-- **The search loop is the search of the list.** -/
theorem searchLoop_spelled (hsmall : h.size ≤ 16777216) :
    ∀ {l : List BlockHeader} {fuel off : Nat}, Spells blockLen h.hdr off l →
      off + extent blockLen l = h.size → l.length < fuel →
      searchLoop h n fuel off = some (match takeBlock n l with
        | some r => .found (off + r.1)
        | none => .absent)
  | [], 0, _, _, _, hf => absurd hf (by simp)
  | [], fuel + 1, off, _, ht, _ => by
    simp only [extent] at ht
    unfold searchLoop
    rw [if_neg (by omega)]
    rfl
  | b :: bs, 0, _, _, _, hf => absurd hf (by simp)
  | b :: bs, fuel + 1, off, hs, ht, hf => by
    simp only [extent] at ht
    have hlen : blockLen b = headerSize + b.size := rfl
    have h16 : headerSize = 16 := rfl
    unfold searchLoop
    rw [if_pos (by omega), if_pos (by omega)]
    simp only [hs.1]
    by_cases hb : Fits n b
    · rw [if_pos (show b.free = true ∧ n ≤ b.size from hb), takeBlock_cons_of_fits bs hb]
      simp only [Nat.add_zero]
    · rw [if_neg (show ¬ (b.free = true ∧ n ≤ b.size) from hb), takeBlock_cons_of_not bs hb,
        add64_blockLen (by omega), searchLoop_spelled hsmall hs.2 (by omega) (by simp only [length_cons] at hf; omega)]
      cases takeBlock n bs with
      | none => rfl
      | some r => simp only [Option.map_some, Nat.add_assoc]

/-- The write of one header, and of the one after it if the block is split. -/
theorem takeAt_spelled {l2 : List BlockHeader} {b : BlockHeader} (hs : Spelled h (l1 ++ b :: l2)) (hb : Fits n b) :
    (takeAt h n (extent blockLen l1)).1 = .block (extent blockLen l1) ∧
      Spelled (takeAt h n (extent blockLen l1)).2 (l1 ++ splitBlock n b ++ l2) ∧
      (takeAt h n (extent blockLen l1)).2.size = h.size ∧ (takeAt h n (extent blockLen l1)).2.cap = h.cap ∧
      (takeAt h n (extent blockLen l1)).2.inited = h.inited := by
  have hsmall := hs.small
  have htile := hs.tile
  rw [extent_append] at htile
  simp only [extent] at htile
  have hlen : blockLen b = headerSize + b.size := rfl
  have h16 : headerSize = 16 := rfl
  have hn := hb.2
  have htile' : extent blockLen (l1 ++ (splitBlock n b ++ l2)) = h.size := by
    rw [extent_append, extent_append, extent_splitBlock]
    omega
  rw [append_assoc]
  unfold takeAt
  simp only [hs.spells.head, add64_add64_of_lt (show n + headerSize + 16 < 2 ^ 64 by omega),
    add64_add64_of_lt (show extent blockLen l1 + headerSize + n < 2 ^ 64 by omega)]
  by_cases hsplit : n + headerSize + 16 ≤ b.size
  · rw [if_pos hsplit, if_pos (by omega)]
    refine ⟨rfl, ⟨?_, htile', hsmall⟩, rfl, rfl, rfl⟩
    refine hs.spells.replace blockLen_pos [b] (by rw [extent_splitBlock]; rfl) (fun o ho => ?_) ?_
    · rw [extent_singleton] at ho
      show update (update h.hdr _ _) _ _ o = _
      rw [update_of_ne (by omega), update_of_ne (by omega)]
    · rw [Nat.zero_add]
      unfold splitBlock
      rw [if_pos hsplit]
      refine ⟨?_, ?_, trivial⟩
      · show update (update h.hdr _ _) _ _ _ = _
        rw [update_self]
      · have hoff : extent blockLen l1 + blockLen { size := n, free := false } =
            extent blockLen l1 + headerSize + n := (Nat.add_assoc _ _ _).symm
        show update (update h.hdr _ _) _ _ _ = _
        rw [hoff, update_of_ne (by omega), update_self,
          sub64_of_le hn (by omega), sub64_of_le (by omega) (by omega)]
  · rw [if_neg hsplit]
    refine ⟨rfl, ⟨?_, htile', hsmall⟩, rfl, rfl, rfl⟩
    unfold splitBlock
    rw [if_neg hsplit]
    exact hs.spells.set blockLen_pos [b] rfl

/-- A free block of so many bytes, its header included. -/
def freshBlock (c : Nat) : BlockHeader := { size := c - headerSize, free := true }

/-- The heap grown by a free block. -/
def HeapMem.grown (h : HeapMem) (c : Nat) : HeapMem :=
  HeapMem.write { h with size := h.size + c } h.size (freshBlock c)

variable {gPml4 : U64} {inner fuel : Nat} {ph : Phys} {l : List BlockHeader} {c : Nat}

theorem grown_spelled (hs : Spelled h l) (hc : headerSize ≤ c)
    (hle : h.size + c ≤ 16777216) : Spelled (h.grown c) (l ++ [freshBlock c]) := by
  have htile := hs.tile
  refine ⟨?_, ?_, hle⟩
  · rw [spells_append]
    refine ⟨hs.spells.congr blockLen_pos fun o _ ho => ?_, ?_, trivial⟩
    · exact update_of_ne (by omega) _ _
    · rw [htile, Nat.zero_add]
      exact update_self _ _ _
  · show extent blockLen (l ++ _) = h.size + c
    rw [extent_append, htile, extent_singleton]
    show h.size + (headerSize + (c - headerSize)) = _
    omega

theorem takeBlock_grown (ht : takeBlock n l = none) (hc : c - headerSize < n) : takeBlock n (l ++ [freshBlock c]) = none := by
  rw [takeBlock_append (takeBlock_eq_none.mp ht), takeBlock_eq_none.mpr (by simp [Fits, freshBlock, hc])]
  rfl

/-- Where a block fits, `kalloc` takes the first one. -/
theorem kallocLoop64_take {o : Nat} {l' : List BlockHeader} (hs : Spelled h l)
    (ht : takeBlock n l = some (o, l')) (hin : l.length < inner) :
    ∃ h', kallocLoop64 gPml4 n inner (fuel + 1) ph h = some (.block o, ph, h') ∧ Spelled h' l' ∧
      h'.size = h.size ∧ h'.cap = h.cap ∧ h'.inited = h.inited := by
  have hsearch := searchLoop_spelled (n := n) hs.small hs.spells
    ((Nat.zero_add _).trans hs.tile) hin
  simp only [ht, Nat.zero_add] at hsearch
  obtain ⟨l1, b, l2, rfl, -, hb, rfl, rfl⟩ := takeBlock_eq_some ht
  obtain ⟨h1, h2, h3⟩ := takeAt_spelled hs hb
  refine ⟨(takeAt h n (extent blockLen l1)).2, ?_, h2, h3⟩
  unfold kallocLoop64
  rw [hsearch]
  simp only [h1]

/-- Where none fits, it grows the heap and looks again. -/
theorem kallocLoop64_grow (hs : Spelled h l) (ht : takeBlock n l = none) (hin : l.length < inner) :
    kallocLoop64 gPml4 n inner (fuel + 1) ph h =
      match heapGrow64 gPml4 ph h (add64 n headerSize) with
      | (false, ph', h') => some (.null, ph', h')
      | (true, ph', h') =>
        if h.size + headerSize ≤ h'.size then
          kallocLoop64 gPml4 n inner fuel ph'
            (h'.write h.size { size := sub64 (sub64 h'.size h.size) headerSize, free := true })
        else some (.outside h.size, ph', h') := by
  have hsearch := searchLoop_spelled (n := n) hs.small hs.spells
    ((Nat.zero_add _).trans hs.tile) hin
  rw [ht] at hsearch
  conv_lhs => unfold kallocLoop64
  rw [hsearch]

/-- **A round of growth**: out of frames, at the cap, or a new block at the end. -/
theorem kallocLoop64_round (hs : Spelled h l) (ht : takeBlock n l = none) (hin : l.length < inner)
    (hc : growChunk64 h (add64 n headerSize) = c) (hle : h.size + c ≤ 16777216) :
    (∃ ph', loopOk (growPage gPml4 h.size) (range ((c + 4095) / 4096)) ph = (false, ph') ∧
      kallocLoop64 gPml4 n inner (fuel + 1) ph h = some (.null, ph', h)) ∨
    (∃ ph', loopOk (growPage gPml4 h.size) (range ((c + 4095) / 4096)) ph = (true, ph') ∧
      ((c < headerSize ∧ ∃ h', kallocLoop64 gPml4 n inner (fuel + 1) ph h = some (.outside h.size, ph', h')) ∨
        (headerSize ≤ c ∧ kallocLoop64 gPml4 n inner (fuel + 1) ph h =
          kallocLoop64 gPml4 n inner fuel ph' (h.grown c)))) := by
  rw [kallocLoop64_grow hs ht hin]
  unfold heapGrow64
  simp only [hc]
  cases hl : loopOk (growPage gPml4 h.size) (range ((c + 4095) / 4096)) ph with
  | mk ok ph' =>
    cases ok with
    | false => exact Or.inl ⟨ph', rfl, rfl⟩
    | true =>
      right
      refine ⟨ph', rfl, ?_⟩
      simp only [add64_of_lt (show h.size + c < 2 ^ 64 by omega),
        sub64_of_le (show h.size ≤ h.size + c by omega) (by omega), Nat.add_sub_cancel_left]
      by_cases hlt : c < headerSize
      · rw [if_neg (by omega)]
        exact Or.inl ⟨hlt, _, rfl⟩
      · rw [if_pos (by omega), sub64_of_le (by omega) (by omega)]
        exact Or.inr ⟨by omega, rfl⟩

/-- **The chunk of a request**: rounded up to pages, and cut off at the cap unless the sum wraps. -/
theorem growChunk64_eq {k : Nat} (hsize : h.size ≤ h.cap) (hcap : h.cap ≤ 16777216) (hk : k ≤ 2 ^ 64 - 4096) :
    ∃ c, k ≤ c ∧ 65536 ≤ c ∧ (c = 65536 ∨ c < k + 4096) ∧ c ≤ 2 ^ 64 - 4096 ∧ 4096 ∣ c ∧
      growChunk64 h k = if h.cap < (h.size + c) % 2 ^ 64 then h.cap - h.size else c := by
  have hsub : sub64 h.cap h.size = h.cap - h.size := sub64_of_le hsize (by omega)
  unfold growChunk64
  simp only [hsub]
  by_cases h64 : k < 65536
  · refine ⟨65536, by omega, le_rfl, .inl rfl, by omega, by omega, ?_⟩
    simp only [if_pos h64, show ¬ (65536 % 4096 ≠ 0) by decide, if_false]
    rfl
  · simp only [if_neg h64]
    by_cases hm : k % 4096 ≠ 0
    · refine ⟨k + (4096 - k % 4096), by omega, by omega, .inr (by omega), by omega, by omega, ?_⟩
      simp only [if_pos hm, add64_of_lt (show k + (4096 - k % 4096) < 2 ^ 64 by omega)]
      rfl
    · exact ⟨k, le_rfl, by omega, .inr (by omega), hk, by omega, by simp only [if_neg hm]; rfl⟩

/-- The chunk of a request that does not wrap: up to the cap, and enough if the cap allows it. -/
theorem growChunk64_small {k : Nat} (hsize : h.size ≤ h.cap) (hcap : h.cap ≤ 16777216) (hk : k < 2 ^ 63) :
    h.size + growChunk64 h k ≤ h.cap ∧ (k ≤ h.cap - h.size → k ≤ growChunk64 h k) ∧
      (h.cap - h.size < k → growChunk64 h k = h.cap - h.size) ∧ (4096 ∣ h.size → 4096 ∣ h.cap → 4096 ∣ growChunk64 h k) := by
  obtain ⟨c, h1, -, h3, -, h5, heq⟩ := growChunk64_eq hsize hcap (show k ≤ 2 ^ 64 - 4096 by omega)
  rw [heq]
  split <;> omega

end Take

section Free

variable {size : Nat} {hdr : Nat → BlockHeader} {l2 : List BlockHeader} {b : BlockHeader}

theorem blockLen_merge (b c : BlockHeader) :
    blockLen { b with size := b.size + headerSize + c.size } = extent blockLen [b, c] := by
  simp only [extent, blockLen]
  omega

/-- **The forward loop is `absorb`.** -/
theorem forwardLoop_spelled (hsmall : size ≤ 16777216) :
    ∀ {l2 : List BlockHeader} {b : BlockHeader} {fuel : Nat} {hdr : Nat → BlockHeader},
      Spells blockLen hdr 0 (l1 ++ b :: l2) → extent blockLen (l1 ++ b :: l2) = size →
      l2.length < fuel → ∃ hdr', forwardLoop size (extent blockLen l1) fuel hdr = some hdr' ∧
        Spells blockLen hdr' 0 (l1 ++ (absorb b l2).1 :: (absorb b l2).2)
  | _, _, 0, _, _, _, hf => absurd hf (by simp)
  | [], b, fuel + 1, hdr, hs, ht, _ => by
    rw [extent_append, extent_singleton] at ht
    refine ⟨hdr, ?_, hs⟩
    unfold forwardLoop
    simp only [hs.head, add64_blockLen (ht.trans_le hsmall)]
    rw [if_neg (by omega)]
  | c :: cs, b, fuel + 1, hdr, hs, ht, hf => by
    have hnext : hdr (extent blockLen l1 + blockLen b) = c := by
      rw [append_cons] at hs
      have := hs.head
      rwa [extent_append, extent_singleton] at this
    rw [extent_append] at ht
    simp only [extent] at ht
    have hlen : blockLen b = headerSize + b.size := rfl
    have hlenc : blockLen c = headerSize + c.size := rfl
    have h16 : headerSize = 16 := rfl
    unfold forwardLoop absorb
    simp only [hs.head, add64_blockLen (show extent blockLen l1 + blockLen b ≤ 16777216 by omega), hnext,
      add64_add64_of_lt (show b.size + headerSize + c.size < 2 ^ 64 by omega)]
    rw [if_pos (by omega)]
    by_cases hc : c.free = true
    · rw [if_pos hc, if_pos hc]
      refine forwardLoop_spelled hsmall ?_ ?_ (by simp only [length_cons] at hf; omega)
      · exact hs.set blockLen_pos [b, c] (blockLen_merge b c)
      · rw [extent_append]
        simp only [extent]
        have : blockLen { b with size := b.size + headerSize + c.size } =
          headerSize + (b.size + headerSize + c.size) := rfl
        omega
    · rw [if_neg hc, if_neg hc]
      exact ⟨hdr, rfl, hs⟩

/-- **The rescan finds the block before.** -/
theorem backScan_spelled {offset : Nat} (hsmall : offset ≤ 16777216) :
    ∀ {l : List BlockHeader} {fuel off : Nat}, Spells blockLen hdr off l →
      off + extent blockLen l = offset → l.length < fuel →
      backScan hdr offset fuel off = some (l.getLast?.map fun p => offset - blockLen p)
  | _, 0, _, _, _, hf => absurd hf (by simp)
  | [], fuel + 1, off, _, ht, _ => by
    simp only [extent] at ht
    unfold backScan
    rw [if_neg (by omega)]
    rfl
  | p :: ps, fuel + 1, off, hs, ht, hf => by
    simp only [extent] at ht
    have hpos := blockLen_pos p
    unfold backScan
    rw [if_pos (by omega)]
    simp only [hs.1, add64_blockLen (show off + blockLen p ≤ 16777216 by omega)]
    cases ps with
    | nil =>
      simp only [extent] at ht
      rw [if_pos (by omega)]
      simp only [getLast?_singleton, Option.map_some, Option.some.injEq]
      omega
    | cons q qs =>
      have hq := blockLen_pos q
      simp only [extent] at ht
      rw [if_neg (by omega), getLast?_cons_cons]
      refine backScan_spelled hsmall hs.2 ?_ (by simp only [length_cons] at hf ⊢; omega)
      simp only [extent]
      omega

/-- **The last step is `joinLast`.** -/
theorem joinPrev_spelled (hs : Spells blockLen hdr 0 (l1 ++ b :: l2)) (ht : extent blockLen (l1 ++ b :: l2) = size)
    (hsmall : size ≤ 16777216) : Spells blockLen (joinPrev hdr (extent blockLen l1)
      (l1.getLast?.map fun p => extent blockLen l1 - blockLen p)) 0 (joinLast l1 b ++ l2) := by
  have hhdr := hs.head
  rcases eq_nil_or_concat l1 with rfl | ⟨l0, p, rfl⟩
  · exact hs
  rw [concat_eq_append] at hs ht hhdr ⊢
  rw [getLast?_concat, joinLast_append, Option.map_some]
  have hext : extent blockLen (l0 ++ [p]) - blockLen p = extent blockLen l0 := by
    rw [extent_append, extent_singleton]
    omega
  have hp : hdr (extent blockLen l0) = p := by
    rw [append_assoc] at hs
    exact hs.head
  rw [hext]
  unfold joinPrev
  simp only [hp, hhdr]
  by_cases hf : p.free = true
  · rw [if_pos hf, if_pos hf]
    simp only [extent_append, extent] at ht
    have hlen : blockLen b = headerSize + b.size := rfl
    have hlenp : blockLen p = headerSize + p.size := rfl
    rw [add64_add64_of_lt (by omega)]
    rw [append_assoc] at hs ⊢
    exact hs.set blockLen_pos [p, b] (blockLen_merge p b)
  · rw [if_neg hf, if_neg hf, append_assoc (l0 ++ [p])]
    exact hs

/-- **`kfree` of a block in use**: the headers spell the coalesced list. -/
theorem kfree_spelled {h : HeapMem} {fuel : Nat} (hs : Spelled h (l1 ++ b :: l2)) (hroom : 0 < b.size + extent blockLen l2)
    (hfuel : (l1 ++ b :: l2).length < fuel) :
    ∃ hdr', kfree fuel h (heapBase + extent blockLen l1 + headerSize) = some { h with hdr := hdr' } ∧
      Spelled { h with hdr := hdr' } (freeBlock l1 b l2) := by
  have htile := hs.tile
  have hsmall := hs.small
  rw [extent_append] at htile
  simp only [extent] at htile
  have hlen : blockLen b = headerSize + b.size := rfl
  have h16 : headerSize = 16 := rfl
  simp only [length_append, length_cons] at hfuel
  have hspell : Spells blockLen (update h.hdr (extent blockLen l1) { b with free := true }) 0
      (l1 ++ { b with free := true } :: l2) := hs.spells.set blockLen_pos [b] rfl
  have htile2 : extent blockLen (l1 ++ { b with free := true } :: l2) = h.size := by
    rw [extent_append]
    exact htile
  obtain ⟨hdr1, hfwd, hs1⟩ := forwardLoop_spelled hsmall hspell htile2 (show l2.length < fuel by omega)
  have htile3 : extent blockLen (l1 ++ (absorb { b with free := true } l2).1 ::
      (absorb { b with free := true } l2).2) = h.size := by
    rw [extent_append, (absorb_spec (b := { b with free := true }) rfl).2.2.1]
    exact htile
  have hback := @backScan_spelled hdr1 (extent blockLen l1) (by omega) l1 fuel 0
    (spells_append.mp hs1).1 (Nat.zero_add _) (by omega)
  refine ⟨joinPrev hdr1 (extent blockLen l1) (l1.getLast?.map fun p => extent blockLen l1 - blockLen p), ?_,
    joinPrev_spelled hs1 htile3 hsmall, ?_, hsmall⟩
  · unfold kfree
    rw [if_neg (by omega), if_neg (by omega)]
    simp only [show heapBase + extent blockLen l1 + headerSize - heapBase - headerSize =
      extent blockLen l1 by omega, hs.spells.head]
    rw [hfwd]
    simp only [hback, Option.map_some]
  · show extent blockLen (freeBlock l1 b l2) = h.size
    rw [extent_freeBlock]
    exact hs.tile

end Free

end MinicOs
