import MinicOs.Fs.Vfs

/-!
# The files of `/devices` and `/processes`

Model of `kernel/fs/devfs/devfs.c` and `kernel/fs/procfs/procfs.c` over the tick counter, the registry
of `kernel/drivers/device_manager` and the process table. A file is a text whose fixed parts are
stored with a test of the space left and whose numbers `format_hex` stores without one.
-/

namespace MinicOs

open List

def asciiBytes (text : List Char) : List U8 := text.map fun c => BitVec.ofNat 8 c.toNat

/-- `device_entry`; `copy_bounded` keeps 31 characters of a name. -/
structure Device where
  used : Bool
  name : List U8
  category : Int
  info : Nat
  name_le : name.length ≤ 31

/-- A slot of `g_processes`, as far as a file shows it. -/
structure ShownProcess where
  used : Bool
  taskIndex : Int
  cr3 : U64

/-- `g_tick_count`, `g_devices` and `g_processes`. -/
structure LiveState where
  ticks : U64
  devices : List Device
  processes : Nat → ShownProcess

def deviceCategoryPci : Int := 1

def deviceCategoryPlatform : Int := 2

def deviceCategoryInput : Int := 3

/-- `sanitize_name`, without the terminator. -/
def sanitizeName (raw : List U8) : List U8 := (raw.take 31).map fun c => if c = slash then 0x5f else c

def categoryForSubpath (subpath : List U8) : Option Int :=
  if subpath = asciiBytes ['p', 'c', 'i'] then some deviceCategoryPci
  else if subpath = asciiBytes ['p', 'l', 'a', 't', 'f', 'o', 'r', 'm'] then some deviceCategoryPlatform
  else if subpath = asciiBytes ['i', 'n', 'p', 'u', 't'] then some deviceCategoryInput
  else none

variable (k : LiveState)

/-- The devices of a category in the order of the registry. -/
def LiveState.inCategory (category : Int) : List Device :=
  k.devices.filter fun d => d.used && d.category == category

/-- `device_manager_get_in_category`. -/
def LiveState.getInCategory (category index : Int) : Option Device :=
  if index < 0 then none else (k.inCategory category)[index.toNat]?

/-! ## The text of a file -/

/-- A digit of `format_hex`. -/
def digitOf (n : Nat) : U8 := if n < 10 then BitVec.ofNat 8 (0x30 + n) else BitVec.ofNat 8 (0x57 + n)

/-- The loop of `format_hex`, from the last digit on. -/
def hexLoop : Nat → Nat → List U8 → List U8
  | 0, _, digits => digits
  | n + 1, value, digits => if value = 0 then digits else hexLoop n (value / 16) (digitOf (value % 16) :: digits)

def formatHex (value : U64) : List U8 := if value = 0 then [digitOf 0] else hexLoop 16 value.toNat []

/-- The bytes of a file in order, each with whether the space left is tested before it is stored. -/
abbrev FileText := List (Bool × U8)

def fixedText (text : List Char) : FileText := (asciiBytes text).map fun b => (true, b)

def digitText (value : U64) : FileText := (formatHex value).map fun b => (false, b)

/-- The text of `/devices/ticks`. -/
def ticksText : FileText :=
  fixedText ['t', 'i', 'c', 'k', 's', ':', ' ', '0', 'x'] ++ digitText k.ticks

/-- The text of a device of a category. -/
def Device.text (d : Device) (category : Int) : FileText :=
  if category = deviceCategoryPci then
    fixedText ['v', 'e', 'n', 'd', 'o', 'r', '=', '0', 'x'] ++ digitText (BitVec.ofNat 64 (d.info / 2 ^ 16)) ++
      fixedText [' ', 'd', 'e', 'v', 'i', 'c', 'e', '=', '0', 'x'] ++
      digitText (BitVec.ofNat 64 (d.info % 2 ^ 16))
  else if category = deviceCategoryInput then
    fixedText ['i', 'r', 'q', '=', '0', 'x'] ++ digitText (BitVec.ofNat 64 d.info)
  else fixedText ['p', 'l', 'a', 't', 'f', 'o', 'r', 'm', ' ', 'd', 'e', 'v', 'i', 'c', 'e']

/-- The file `device_read` looks up: the clock, or the first device of a category with the name. -/
def LiveState.deviceText (name : List U8) : Option FileText :=
  if name = asciiBytes ['t', 'i', 'c', 'k', 's'] then some (ticksText k)
  else
    let categoryStr := name.takeWhile (· ≠ slash)
    if categoryStr.length = name.length then none
    else
      match categoryForSubpath (categoryStr.take 15) with
      | none => none
      | some category =>
        let wanted := name.drop (categoryStr.length + 1)
        ((k.inCategory category).find? fun d => sanitizeName d.name == wanted).map fun d => d.text category

/-- The file `procfs_read` looks up: the digit behind `proc` is the slot. -/
def LiveState.processText (name : List U8) : Option FileText :=
  if startsWith name (asciiBytes ['p', 'r', 'o', 'c']) = false then none
  else
    let index := (name.getD 4 0).toInt - 0x30
    if index < 0 ∨ (maxProcesses : Int) ≤ index then none
    else
      let p := k.processes index.toNat
      if p.used = false then none
      else some (fixedText ['t', 'a', 's', 'k', '=', '0', 'x'] ++ digitText (BitVec.ofInt 64 p.taskIndex) ++
        fixedText [' ', 'c', 'r', '3', '=', '0', 'x'] ++ digitText p.cr3)

/-! ## Reading one -/

/-- The stores of a read, byte after byte behind `out`: the result, and what the buffer was given. -/
def storeText (maxLen : Nat) : FileText → List U8 → Int × List U8
  | [], out => if maxLen ≤ out.length then (-1, out) else (out.length, out ++ [0])
  | (tested, b) :: text, out =>
    if tested = true ∧ maxLen ≤ out.length then (-1, out) else storeText maxLen text (out ++ [b])

/-- The file a backend has under a name. -/
def LiveState.text : Backend → List U8 → Option FileText
  | .device, name => k.deviceText name
  | .procfs, name => k.processText name
  | _, _ => none

/-- `device_read` and `procfs_read`. -/
def LiveState.read (b : Backend) (name : List U8) (maxLen : Nat) : Int × List U8 :=
  match k.text b name with
  | none => (-1, [])
  | some text => storeText maxLen text []

section Store

variable {maxLen : Nat}

theorem length_le_storeText (text : FileText) (out : List U8) : out.length ≤ (storeText maxLen text out).2.length := by
  induction text generalizing out with
  | nil =>
    unfold storeText
    split <;> simp
  | cons b text ih =>
    unfold storeText
    split
    · exact le_refl _
    · have hstep := ih (out ++ [b.2])
      rw [length_append] at hstep
      omega

theorem storeText_result (text : FileText) (out : List U8) :
    (storeText maxLen text out).1 < 0 ∨ (storeText maxLen text out).1 ≤ maxLen := by
  induction text generalizing out with
  | nil =>
    unfold storeText
    split
    · exact .inl (show (-1 : Int) < 0 by decide)
    · exact .inr (by show (out.length : Int) ≤ maxLen; omega)
  | cons b text ih =>
    unfold storeText
    split
    · exact .inl (show (-1 : Int) < 0 by decide)
    · exact ih _

/-- **A text fits** exactly if the first byte that has no room is tested. -/
theorem storeText_fits_iff {text : FileText} {out : List U8} (hout : out.length ≤ maxLen) :
    (storeText maxLen text out).2.length ≤ maxLen ↔ ∀ b, text[maxLen - out.length]? ≠ some (false, b) := by
  induction text generalizing out with
  | nil =>
    unfold storeText
    split
    · simp [hout]
    · rename_i hroom
      simp only [length_append, length_singleton, getElem?_nil, reduceCtorEq, ne_eq,
        not_false_eq_true, implies_true, iff_true]
      omega
  | cons b text ih =>
    obtain ⟨tested, b⟩ := b
    unfold storeText
    by_cases hroom : out.length < maxLen
    · rw [if_neg (by omega), ih (by simp only [length_append, length_singleton]; omega)]
      obtain ⟨n, hn⟩ : ∃ n, maxLen - out.length = n + 1 := ⟨maxLen - out.length - 1, by omega⟩
      have hnext : maxLen - (out ++ [b]).length = n := by
        rw [length_append, length_singleton]
        omega
      rw [hn, hnext, getElem?_cons_succ]
    · have hfull : maxLen - out.length = 0 := by omega
      rw [hfull, getElem?_cons_zero]
      cases tested with
      | true => simp [show maxLen ≤ out.length by omega, hout]
      | false =>
        have hover := @length_le_storeText maxLen text (out ++ [b])
        rw [length_append, length_singleton] at hover
        simp only [Bool.false_eq_true, false_and, if_false, Option.some.injEq, Prod.mk.injEq, true_and, ne_eq,
          forall_eq', iff_false, not_le]
        omega

end Store

end MinicOs
