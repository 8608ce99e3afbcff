import Mathlib.Data.Int.Interval
import MinicOs.Lib.Loop
import MinicOs.Lib.Overlay
import MinicOs.Lib.Scan

/-!
# The stacking order of windows

Model of `g_window_zorder` (`kernel/gfx/window/window.c`) as the array it is: `window_close` and
`window_raise` shift its tail left by one. `none` stands for a write outside the array. Both test
`g_windows[id].used` before they turn interrupts off, so a mouse press may close the window in
between; the late events run the critical section alone.
-/

namespace MinicOs

open List Option Function Prod

def windowSlots : Nat := 8

/-- `g_windows[].used`, `g_window_zorder` and `g_window_zorder_count`. -/
structure ZOrder where
  used : Int → Bool
  zorder : Nat → Int
  count : Nat

/-- `g_window_zorder[i] = v`. -/
def writeSlot (a : Nat → Int) (i : Nat) (v : Int) : Option (Nat → Int) :=
  if i < windowSlots then some (update a i v) else none

/-- `n` rounds of the loop that shifts the tail left, from `zi` on. -/
def shiftTail : Nat → Nat → (Nat → Int) → Option (Nat → Int)
  | 0, _, a => some a
  | n + 1, zi, a => (writeSlot a zi (a (zi + 1))).bind (shiftTail n (zi + 1))

/-- What can happen: the calls, from syscalls or from mouse presses, and the critical sections of
calls whose test is out of date. -/
inductive ZOrderEvent
  | create
  | close (id : Int)
  | raise (id : Int)
  | closeLate (id : Int)
  | raiseLate (id : Int)
deriving DecidableEq

namespace ZOrder

variable (s : ZOrder)

/-- `id >= 0 && id < WINDOW_SLOTS && g_windows[id].used`. -/
def Valid (id : Int) : Prop := 0 ≤ id ∧ id < windowSlots ∧ s.used id = true

instance (s : ZOrder) (id : Int) : Decidable (s.Valid id) := inferInstanceAs (Decidable (_ ∧ _))

def zorderIndexOf (id : Int) : Option Nat := scan s.count fun i => s.zorder i == id

/-- `window_create` and `window_create_borderless`, once they have checked the bounds. -/
def windowCreate : Option (Int × ZOrder) :=
  match scan windowSlots fun i => !s.used i with
  | none => some (-1, s)
  | some i => (writeSlot s.zorder s.count i).map fun z =>
    ((i : Int), { used := update s.used i true, zorder := z, count := s.count + 1 })

/-- The critical section that `window_close` and `window_raise` share: find the window and shift the
windows above it down. -/
def takeOut (id : Int) (rest : (Nat → Int) → Option ZOrder) : Option (Bool × ZOrder) :=
  match s.zorderIndexOf id with
  | none => some (false, s)
  | some zi => ((shiftTail (s.count - 1 - zi) zi s.zorder).bind rest).map (true, ·)

/-- The critical section of `window_close`. -/
def closeSection (id : Int) : Option (Bool × ZOrder) :=
  s.takeOut id fun z => some { used := update s.used id false, zorder := z, count := s.count - 1 }

/-- The critical section of `window_raise`. -/
def raiseSection (id : Int) : Option (Bool × ZOrder) :=
  s.takeOut id fun z => (writeSlot z (s.count - 1) id).map fun z => { s with zorder := z }

def windowClose (id : Int) : Option (Bool × ZOrder) :=
  if s.Valid id then s.closeSection id else some (false, s)

def windowRaise (id : Int) : Option (Bool × ZOrder) :=
  if s.Valid id then s.raiseSection id else some (false, s)

def step : ZOrderEvent → Option ZOrder
  | .create => s.windowCreate.map snd
  | .close id => (s.windowClose id).map snd
  | .raise id => (s.windowRaise id).map snd
  | .closeLate id => (s.closeSection id).map snd
  | .raiseLate id => (s.raiseSection id).map snd

def Step (s s' : ZOrder) : Prop := ∃ e, s.step e = some s'

def start : ZOrder := { used := fun _ => false, zorder := fun _ => 0, count := 0 }

/-- `g_window_zorder[0..count)`. -/
def order : List Int := slice s.zorder 0 s.count

/-- The order lists each used window exactly once and nothing else. -/
structure Permutation (s : ZOrder) : Prop where
  nodup : s.order.Nodup
  mem : ∀ id, id ∈ s.order ↔ s.Valid id

variable {s : ZOrder} {id : Int}

variable {b : Bool} {s' : ZOrder}

theorem takeOut_eq_some {rest : (Nat → Int) → Option ZOrder} (h : s.takeOut id rest = some (b, s')) :
    s' = s ∨ ∃ z, rest z = some s' := by
  unfold takeOut at h
  split at h
  · cases h
    exact .inl rfl
  · obtain ⟨s', hs', heq⟩ := map_eq_some_iff.mp h
    cases heq
    exact .inr ((bind_eq_some_iff.mp hs').imp fun z hz => hz.2)

theorem closeSection_used {other : Int} (h : s.closeSection other = some (b, s')) (hid : s.used id = true)
    (hne : id ≠ other) : s'.used id = true := by
  obtain rfl | ⟨z, hz⟩ := takeOut_eq_some h
  · exact hid
  · cases hz
    exact (update_of_ne hne _ _).trans hid

theorem raiseSection_used {other : Int} (h : s.raiseSection other = some (b, s')) : s'.used = s.used := by
  obtain rfl | ⟨z, hz⟩ := takeOut_eq_some h
  · rfl
  · obtain ⟨_, -, rfl⟩ := map_eq_some_iff.mp hz
    rfl

/-- **A window stays used** until it is closed. -/
theorem step_used {e : ZOrderEvent} (h : s.step e = some s') (hid : s.used id = true)
    (hclose : e ≠ .close id ∧ e ≠ .closeLate id) : s'.used id = true := by
  cases e with
  | create =>
    obtain ⟨r, hr, rfl⟩ := map_eq_some_iff.mp h
    unfold windowCreate at hr
    split at hr
    · cases hr
      exact hid
    · obtain ⟨z, -, rfl⟩ := map_eq_some_iff.mp hr
      simp [update_apply, hid]
  | close other =>
    obtain ⟨r, hr, rfl⟩ := map_eq_some_iff.mp h
    unfold windowClose at hr
    split at hr
    · exact closeSection_used hr hid (by rintro rfl; exact hclose.1 rfl)
    · cases hr
      exact hid
  | raise other =>
    obtain ⟨r, hr, rfl⟩ := map_eq_some_iff.mp h
    unfold windowRaise at hr
    split at hr
    · rwa [raiseSection_used hr]
    · cases hr
      exact hid
  | closeLate other =>
    obtain ⟨r, hr, rfl⟩ := map_eq_some_iff.mp h
    exact closeSection_used hr hid (by rintro rfl; exact hclose.2 rfl)
  | raiseLate other =>
    obtain ⟨r, hr, rfl⟩ := map_eq_some_iff.mp h
    rwa [raiseSection_used hr]

theorem length_le_of_nodup {l : List Int} (hn : l.Nodup) (hl : ∀ id ∈ l, 0 ≤ id ∧ id < windowSlots) :
    l.length ≤ windowSlots := by
  have hsub : l.toFinset ⊆ Finset.Ico 0 (windowSlots : Int) := fun id hid =>
    Finset.mem_Ico.mpr (hl id (mem_toFinset.mp hid))
  have hcard := Finset.card_le_card hsub
  rwa [toFinset_card_of_nodup hn, Int.card_Ico] at hcard

/-- The loop stays inside the array, and moves every entry from `zi` on one down. -/
theorem shiftTail_eq : ∀ {n zi : Nat} (a : Nat → Int), zi + n ≤ windowSlots →
    shiftTail n zi a = some fun k => if zi ≤ k ∧ k < zi + n then a (k + 1) else a k
  | 0, zi, a, _ => by
    refine congrArg some (funext fun k => ?_)
    rw [if_neg (by omega)]
  | n + 1, zi, a, h => by
    rw [shiftTail, writeSlot, if_pos (by omega), Option.bind_some, shiftTail_eq _ (by omega)]
    refine congrArg some (funext fun k => ?_)
    by_cases hk : k = zi
    · rw [hk, if_neg (by omega), if_pos (by omega), update_self]
    · rw [update_of_ne hk]
      by_cases hin : zi < k ∧ k < zi + (n + 1)
      · rw [if_pos (by omega), if_pos (by omega), update_of_ne (by omega)]
      · rw [if_neg (by omega), if_neg (by omega)]

theorem slice_update (a : Nat → Int) (n : Nat) (v : Int) : slice (update a n v) 0 (n + 1) = slice a 0 n ++ [v] := by
  rw [slice_add]
  refine congrArg₂ _ (map_congr_left fun k hk => ?_) (by simp [slice])
  rw [update_of_ne (by have := mem_range.mp hk; omega)]

theorem start_permutation : start.Permutation :=
  ⟨nodup_nil, fun id => by simp [start, order, Valid, slice]⟩

variable (h : s.Permutation)
include h

theorem Permutation.count_le : s.count ≤ windowSlots := by
  have hle := length_le_of_nodup h.nodup fun id hid => ⟨((h.mem id).mp hid).1, ((h.mem id).mp hid).2.1⟩
  rwa [order, length_slice] at hle

/-- **The critical section** finds a used window and takes it out of the order; of another it does
nothing. -/
theorem takeOut_cases (id : Int) (rest : (Nat → Int) → Option ZOrder) :
    (¬ s.Valid id ∧ s.takeOut id rest = some (false, s)) ∨
      ∃ z, s.Valid id ∧ 0 < s.count ∧ slice z 0 (s.count - 1) = s.order.erase id ∧
        s.takeOut id rest = (rest z).map (true, ·) := by
  unfold takeOut
  cases hzi : s.zorderIndexOf id with
  | none =>
    refine .inl ⟨fun hv => ?_, rfl⟩
    obtain ⟨k, hk, hget⟩ := getElem_of_mem ((h.mem id).mpr hv)
    rw [order, length_slice] at hk
    simpa [← hget, order, slice] using scan_eq_none.mp hzi k hk
  | some zi =>
    obtain ⟨hlt, heq, -⟩ := scan_eq_some.mp hzi
    have hid : s.zorder zi = id := by simpa using heq
    have hle := h.count_le
    have hlen : zi < s.order.length := by rwa [order, length_slice]
    have hget : s.order[zi] = id := by simp [order, slice, hid]
    simp only [shiftTail_eq s.zorder (show zi + (s.count - 1 - zi) ≤ windowSlots by omega), bind_some]
    refine .inr ⟨_, (h.mem id).mp (hget ▸ getElem_mem hlen), by omega, ?_, rfl⟩
    rw [← hget, h.nodup.erase_getElem zi hlen]
    refine ext_getElem (by simp [order, length_eraseIdx, hlt]) fun k h1 h2 => ?_
    rw [length_slice] at h1
    simp only [slice, order, getElem_map, getElem_range, getElem_eraseIdx, Nat.zero_add]
    split <;> split <;> first | rfl | omega

/-- **Closing** a used window keeps the order a permutation. -/
theorem closeSection_cases (id : Int) : (¬ s.Valid id ∧ s.closeSection id = some (false, s)) ∨
    ∃ s', s.Valid id ∧ s.closeSection id = some (true, s') ∧ s'.Permutation := by
  obtain hno | ⟨z, hv, -, horder, heq⟩ := takeOut_cases h id _
  · exact .inl hno
  refine .inr ⟨_, hv, heq, (horder ▸ h.nodup.erase id :), fun x => ?_⟩
  rw [order, horder, h.nodup.mem_erase_iff, h.mem]
  by_cases hx : x = id <;> simp [Valid, hx]

/-- **Raising** a used window puts it on top. -/
theorem raiseSection_cases (id : Int) : (¬ s.Valid id ∧ s.raiseSection id = some (false, s)) ∨
    ∃ s', s.Valid id ∧ s.raiseSection id = some (true, s') ∧ s'.order = s.order.erase id ++ [id] ∧ s'.Permutation := by
  obtain hno | ⟨z, hv, hpos, horder, heq⟩ := takeOut_cases h id _
  · exact .inl hno
  have hle := h.count_le
  have hlast := slice_update z (s.count - 1) id
  rw [Nat.sub_add_cancel hpos, horder] at hlast
  rw [writeSlot, if_pos (by omega)] at heq
  refine .inr ⟨_, hv, heq, hlast, ?_, fun x => ?_⟩ <;> rw [order, hlast]
  · rw [nodup_append_comm, singleton_append, nodup_cons, h.nodup.mem_erase_iff]
    exact ⟨fun hno => hno.1 rfl, h.nodup.erase id⟩
  · rw [mem_append, h.nodup.mem_erase_iff, h.mem]
    by_cases hx : x = id
    · simpa [Valid, hx] using hv
    · simp [Valid, hx]

/-- **Creating** a window puts a free slot on top. -/
theorem windowCreate_cases : ∃ id s', s.windowCreate = some (id, s') ∧ s'.Permutation := by
  unfold windowCreate
  cases hscan : scan windowSlots fun i => !s.used i with
  | none => exact ⟨-1, s, rfl, h⟩
  | some i =>
    obtain ⟨hi, hu, -⟩ := scan_eq_some.mp hscan
    -- the free slot is not in the order, so the order is not full
    have hnot : (i : Int) ∉ s.order := fun hmem => by simp [((h.mem i).mp hmem).2.2] at hu
    have hn : (s.order ++ [(i : Int)]).Nodup := by
      rw [nodup_append_comm]
      exact nodup_cons.mpr ⟨hnot, h.nodup⟩
    have hmem : ∀ x, x ∈ s.order ++ [(i : Int)] ↔ s.Valid x ∨ x = i := fun x => by simp [h.mem]
    have hle := length_le_of_nodup hn fun x hx => by
      obtain hv | rfl := (hmem x).mp hx
      · exact ⟨hv.1, hv.2.1⟩
      · exact ⟨by omega, by exact_mod_cast hi⟩
    rw [length_append, order, length_slice] at hle
    simp only [writeSlot, if_pos (show s.count < windowSlots from hle), map_some]
    refine ⟨i, _, rfl, ?_, fun x => ?_⟩ <;> rw [order, slice_update]
    · exact hn
    · rw [← order, hmem]
      by_cases hx : x = i
      · simpa [Valid, hx] using hi
      · simp [Valid, hx]

/-- **An event keeps the order a permutation of the used windows**, and writes inside the array. -/
theorem Permutation.step (e : ZOrderEvent) : ∃ s', s.step e = some s' ∧ s'.Permutation := by
  have hclose : ∀ id, ∃ s', (s.closeSection id).map snd = some s' ∧ s'.Permutation := fun id => by
    obtain ⟨-, heq⟩ | ⟨s', -, heq, hs'⟩ := closeSection_cases h id
    · exact ⟨s, by rw [heq]; rfl, h⟩
    · exact ⟨s', by rw [heq]; rfl, hs'⟩
  have hraise : ∀ id, ∃ s', (s.raiseSection id).map snd = some s' ∧ s'.Permutation := fun id => by
    obtain ⟨-, heq⟩ | ⟨s', -, heq, -, hs'⟩ := raiseSection_cases h id
    · exact ⟨s, by rw [heq]; rfl, h⟩
    · exact ⟨s', by rw [heq]; rfl, hs'⟩
  cases e with
  | create =>
    obtain ⟨id, s', heq, hs'⟩ := windowCreate_cases h
    exact ⟨s', by rw [ZOrder.step, heq]; rfl, hs'⟩
  | close id =>
    by_cases hv : s.Valid id
    · simpa [ZOrder.step, windowClose, hv] using hclose id
    · exact ⟨s, by simp [ZOrder.step, windowClose, hv], h⟩
  | raise id =>
    by_cases hv : s.Valid id
    · simpa [ZOrder.step, windowRaise, hv] using hraise id
    · exact ⟨s, by simp [ZOrder.step, windowRaise, hv], h⟩
  | closeLate id => exact hclose id
  | raiseLate id => exact hraise id

end ZOrder

/-- **The stacking order is a permutation of the used windows** in every run: at most eight, no call
writes outside the array, a used window is always found when it is closed, and raising one moves it to
the top and keeps the others in order. -/
theorem zorder_permutation {s : ZOrder} (hrun : Relation.ReflTransGen ZOrder.Step ZOrder.start s) :
    s.Permutation ∧ s.count ≤ windowSlots ∧ (∀ e, s.step e ≠ none) ∧
      (∀ id, s.Valid id → ∃ s', s.windowClose id = some (true, s')) ∧
      ∀ id, s.Valid id → ∃ s', s.windowRaise id = some (true, s') ∧ s'.order = s.order.filter (· ≠ id) ++ [id] := by
  have hp : s.Permutation := run_inv (fun s s' hs hstep => by
    obtain ⟨e, he⟩ := hstep
    obtain ⟨s'', he', hs''⟩ := hs.step e
    cases he.symm.trans he'
    exact hs'') hrun ZOrder.start_permutation
  refine ⟨hp, hp.count_le, fun e hnone => ?_, fun id hv => ?_, fun id hv => ?_⟩
  · obtain ⟨s', he, -⟩ := hp.step e
    simp [he] at hnone
  · obtain ⟨hno, -⟩ | ⟨s', -, heq, -⟩ := ZOrder.closeSection_cases hp id
    · exact absurd hv hno
    · exact ⟨s', by rw [ZOrder.windowClose, if_pos hv, heq]⟩
  · obtain ⟨hno, -⟩ | ⟨s', -, heq, horder, -⟩ := ZOrder.raiseSection_cases hp id
    · exact absurd hv hno
    · refine ⟨s', by rw [ZOrder.windowRaise, if_pos hv, heq], ?_⟩
      rw [horder, hp.nodup.erase_eq_filter]
      congr 2
      funext x
      by_cases hx : x = id <;> simp [hx]

/-- Three windows, of which the first is raised. -/
theorem zorder_permutation_raised : ∃ s, Relation.ReflTransGen ZOrder.Step ZOrder.start s ∧ s.order = [1, 2, 0] ∧
    s.Permutation := by
  have hrun : (runList ZOrder.step [.create, .create, .create, .raise 0] ZOrder.start).map ZOrder.order =
      some [1, 2, 0] := by decide +kernel
  obtain ⟨s, hs, horder⟩ := map_eq_some_iff.mp hrun
  have hsteps : Relation.ReflTransGen ZOrder.Step ZOrder.start s := runList_run (fun _ _ e _ h => ⟨e, h⟩) hs
  exact ⟨s, hsteps, horder, (zorder_permutation hsteps).1⟩

end MinicOs
