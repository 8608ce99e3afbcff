import MinicOs.Lib.Loop
import MinicOs.Mm.Frames

/-!
# Page tables

Model of the page-table walk of `kernel/mm/paging/paging.c`. Physical memory is `mem f i`, the
`i`-th `u64` of frame `f`; every table the code edits lies in the identity-mapped first gigabyte,
so a table pointer is dereferenced as `mem (frameNum table) i`.

`invlpg` and `mov cr3` have no counterpart: the model has no translation cache.
-/

namespace MinicOs

open Function BitVec

/-- Physical memory, by frame and word. -/
abbrev Mem := Nat → Nat → U64

/-- Physical memory and the frame allocator. -/
structure Phys where
  mem : Mem
  frames : Frames

/-- `table[index] = value`. -/
def Mem.store (m : Mem) (f i : Nat) (v : U64) : Mem := update m f (update (m f) i v)

def zeroPage (m : Mem) (p : U64) : Mem := update m (frameNum p) fun _ => 0#64

/-- `(vaddr >> 39) & 0x1FF`. -/
def idx4 (vaddr : U64) : Nat := ((vaddr >>> 39) &&& 0x1FF#64).toNat

/-- `(vaddr >> 30) & 0x1FF`. -/
def idx3 (vaddr : U64) : Nat := ((vaddr >>> 30) &&& 0x1FF#64).toNat

/-- `(vaddr >> 21) & 0x1FF`. -/
def idx2 (vaddr : U64) : Nat := ((vaddr >>> 21) &&& 0x1FF#64).toNat

/-- `(vaddr >> 12) & 0x1FF`. -/
def idx1 (vaddr : U64) : Nat := ((vaddr >>> 12) &&& 0x1FF#64).toNat

/-- `table_get_or_create`; `0` for `NULL`. -/
def tableGetOrCreate (ph : Phys) (table : U64) (index : Nat) : U64 × Phys :=
  let entry := ph.mem (frameNum table) index
  if present entry = true then (tablePtr entry, ph)
  else
    let r := allocFrame ph.frames
    if r.1 = 0#64 then (0#64, { ph with frames := r.2 })
    else (r.1, { mem := (zeroPage ph.mem r.1).store (frameNum table) index (mkTable r.1),
                 frames := r.2 })

def mapPageIn (ph : Phys) (pml4 vaddr paddr flags : U64) : Bool × Phys :=
  let r3 := tableGetOrCreate ph pml4 (idx4 vaddr)
  if r3.1 = 0#64 then (false, r3.2)
  else
    let r2 := tableGetOrCreate r3.2 r3.1 (idx3 vaddr)
    if r2.1 = 0#64 then (false, r2.2)
    else
      let r1 := tableGetOrCreate r2.2 r2.1 (idx2 vaddr)
      if r1.1 = 0#64 then (false, r1.2)
      else
        (true, { r1.2 with mem := r1.2.mem.store (frameNum r1.1) (idx1 vaddr) (mkLeaf paddr flags) })

/-- `translate_in`: `0` if a level is not present. -/
def translateIn (m : Mem) (pml4 vaddr : U64) : U64 :=
  let e4 := m (frameNum pml4) (idx4 vaddr)
  if present e4 = true then
    let e3 := m (frameNum (tablePtr e4)) (idx3 vaddr)
    if present e3 = true then
      let e2 := m (frameNum (tablePtr e3)) (idx2 vaddr)
      if present e2 = true then
        let e1 := m (frameNum (tablePtr e2)) (idx1 vaddr)
        if present e1 = true then leafPaddr e1 ||| (vaddr &&& 0xFFF#64) else 0#64
      else 0#64
    else 0#64
  else 0#64

/-- `clone_address_space`: `0` on failure. A failure of the second allocation keeps the first
frame. -/
def cloneAddressSpace (ph : Phys) (gPml4 : U64) : U64 × Phys :=
  let rPml4 := allocFrame ph.frames
  if rPml4.1 = 0#64 then (0#64, { ph with frames := rPml4.2 })
  else
    let rPdpt := allocFrame rPml4.2
    if rPdpt.1 = 0#64 then (0#64, { ph with frames := rPdpt.2 })
    else
      let mem := zeroPage (zeroPage ph.mem rPml4.1) rPdpt.1
      let kernelPdpt := tablePtr (mem (frameNum gPml4) 0)
      let mem := mem.store (frameNum rPdpt.1) 0 (mem (frameNum kernelPdpt) 0 &&& ~~~0x04#64)
      let mem := mem.store (frameNum rPdpt.1) 1 (mem (frameNum kernelPdpt) 1 &&& ~~~0x04#64)
      let mem := mem.store (frameNum rPml4.1) 0 (mkTable rPdpt.1)
      (rPml4.1, { mem := mem, frames := rPdpt.2 })

/-! ## Memory stores -/

theorem store_apply (m : Mem) (f i : Nat) (v : U64) (g j : Nat) :
    m.store f i v g j = if g = f ∧ j = i then v else m g j := by
  simp only [Mem.store, update_apply]
  split <;> simp_all [update_apply]

@[simp] theorem store_self (m : Mem) (f i : Nat) (v : U64) : m.store f i v f i = v := by
  rw [store_apply, if_pos ⟨rfl, rfl⟩]

theorem store_of_ne {m : Mem} {f i g j : Nat} (v : U64) (h : ¬ (g = f ∧ j = i)) : m.store f i v g j = m g j := by
  rw [store_apply, if_neg h]

theorem zeroPage_apply (m : Mem) (p : U64) (g j : Nat) : zeroPage m p g j = if g = frameNum p then 0#64 else m g j := by
  simp only [zeroPage, update_apply]
  split <;> rfl

/-! ## Addresses and page indices -/

/-- The address the fork walk rebuilds: `(i3 << 30) | (i2 << 21) | (i1 << 12)`. -/
def pageVaddr (i3 i2 i1 : Nat) : U64 :=
  (BitVec.ofNat 64 i3 <<< 30) ||| (BitVec.ofNat 64 i2 <<< 21) ||| (BitVec.ofNat 64 i1 <<< 12)

theorem field_eq (v : U64) (k : Nat) : ((v >>> k) &&& 0x1FF#64).toNat = v.toNat / 2 ^ k % 512 := by
  rw [toNat_and, toNat_ushiftRight, show (0x1FF#64 : BitVec 64).toNat = 2 ^ 9 - 1 by rfl,
    Nat.and_two_pow_sub_one_eq_mod, Nat.shiftRight_eq_div_pow]

theorem idx4_eq (v : U64) : idx4 v = v.toNat / 2 ^ 39 % 512 := field_eq v 39

theorem idx3_eq (v : U64) : idx3 v = v.toNat / 2 ^ 30 % 512 := field_eq v 30

theorem idx2_eq (v : U64) : idx2 v = v.toNat / 2 ^ 21 % 512 := field_eq v 21

theorem idx1_eq (v : U64) : idx1 v = v.toNat / 2 ^ 12 % 512 := field_eq v 12

theorem toNat_pageVaddr {i3 i2 i1 : Nat} (h3 : i3 < 512) (h2 : i2 < 512) (h1 : i1 < 512) :
    (pageVaddr i3 i2 i1).toNat = i3 * 2 ^ 30 + i2 * 2 ^ 21 + i1 * 2 ^ 12 := by
  unfold pageVaddr
  have hparts : (BitVec.ofNat 64 i3 <<< 30).toNat = i3 * 2 ^ 30 ∧ (BitVec.ofNat 64 i2 <<< 21).toNat = i2 * 2 ^ 21 ∧
      (BitVec.ofNat 64 i1 <<< 12).toNat = i1 * 2 ^ 12 := by
    simp only [toNat_shiftLeft, toNat_ofNat, Nat.shiftLeft_eq]
    omega
  rw [toNat_or, toNat_or, hparts.1, hparts.2.1, hparts.2.2]
  have h32 : i3 * 2 ^ 30 ||| i2 * 2 ^ 21 = i3 * 2 ^ 30 + i2 * 2 ^ 21 := by
    rw [mul_comm i3, ← Nat.two_pow_add_eq_or_of_lt (by omega)]
  rw [h32, show i3 * 2 ^ 30 + i2 * 2 ^ 21 = 2 ^ 21 * (i3 * 2 ^ 9 + i2) by omega,
    ← Nat.two_pow_add_eq_or_of_lt (by omega)]

end MinicOs
