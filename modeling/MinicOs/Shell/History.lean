import Mathlib.Data.List.DropRight
import Mathlib.Logic.Function.Iterate
import MinicOs.Lib.Loop
import MinicOs.Mm.Word

/-!
# The command history

Model of `shell_history_add`, `shell_history_up` and `shell_history_down` (`shell/shell/shell.c`) and of
the keys that call them (`kernel/isr/isr.c`). A ring of 16 lines keeps what was submitted; Up and
Down move `g_history_browse_index` over it and put the line there into the line buffer. Between
prompts the user edits the line in any way; Enter trims its trailing spaces, adds it to the ring and runs it.

`shell_history_add` returns early on an empty line and then does not reset the browse index, so after
Up, erasing the line and Enter, the next Up starts from the entry last shown.
-/

namespace MinicOs

open Function

/-- A line: what the buffer of 128 bytes holds before its NUL. -/
abbrev Line := { l : List U8 // l.length ≤ 127 ∧ 0#8 ∉ l }

def noLine : Line := ⟨[], by decide⟩

/-- The history, and the line being typed. -/
structure Shell where
  history : Nat → Line
  count : Nat
  next : Nat
  browse : Int
  line : Line

/-- The slot of an entry, with C's `%`. -/
def historySlot (next : Nat) (browse : Int) : Nat := (((next - 1 - browse).tmod 16 + 16).tmod 16).toNat

def shellHistoryAdd (s : Shell) (line : Line) : Shell :=
  if line = noLine then s
  else { s with
    history := update s.history s.next line
    next := (s.next + 1) % 16
    count := if s.count < 16 then s.count + 1 else s.count
    browse := -1 }

/-- `shell_history_redraw`, once the browse index is `browse`. -/
def shellHistoryRedraw (s : Shell) (browse : Int) : Shell :=
  { s with
    browse := browse
    line := if 0 ≤ browse then s.history (historySlot s.next browse) else noLine }

def shellHistoryUp (s : Shell) : Shell :=
  if s.count ≤ s.browse + 1 then s else shellHistoryRedraw s (s.browse + 1)

def shellHistoryDown (s : Shell) : Shell :=
  if s.browse < 0 then s else shellHistoryRedraw s (s.browse - 1)

/-- The line without its trailing spaces, as Enter submits it. -/
def Line.trim (line : Line) : Line :=
  ⟨line.1.rdropWhile (· == 32#8), (List.rdropWhile_prefix _ _).length_le.trans line.2.1,
    fun h => line.2.2 ((List.rdropWhile_prefix _ _).subset h)⟩

/-- What the user does. -/
inductive ShellKey where
  | edit (line : Line)
  | up
  | down
  | enter

/-- A session: the shell, and the lines submitted so far that are not empty, the last one first. -/
structure Session where
  shell : Shell
  log : List Line

def Session.start : Session := ⟨⟨fun _ => noLine, 0, 0, -1, noLine⟩, []⟩

/-- One key, or one edit; after Enter the line is run and emptied. -/
def Session.step (s : Session) : ShellKey → Session
  | .edit line => { s with shell := { s.shell with line := line } }
  | .up => { s with shell := shellHistoryUp s.shell }
  | .down => { s with shell := shellHistoryDown s.shell }
  | .enter =>
    let line := s.shell.line.trim
    ⟨{ shellHistoryAdd s.shell line with line := noLine }, if line = noLine then s.log else line :: s.log⟩

/-- An empty or blank line is submitted only when no entry is being browsed. -/
def Session.Meets (s : Session) (key : ShellKey) : Prop :=
  key = .enter → s.shell.line.trim = noLine → s.shell.browse = -1

/-- A key that meets the condition. -/
def Session.Next (s s' : Session) : Prop := ∃ key, s.Meets key ∧ s' = s.step key

/-- `n` times Up puts the `n`-th last line into the buffer, or the oldest of the last 16; then each
Down goes one line forward, to the empty line. -/
def Session.Recalls (s : Session) : Prop :=
  ∀ n j, let k := min n (min 16 s.log.length)
    0 < k → (shellHistoryDown^[j] (shellHistoryUp^[n] s.shell)).line =
      if j < k then s.log.getD (k - 1 - j) noLine else noLine

/-! ## The ring -/

/-- The slots before the next one hold the last lines. -/
structure Session.Ring (s : Session) : Prop where
  count : s.shell.count = min 16 s.log.length
  next : s.shell.next < 16
  slots : ∀ k < s.shell.count, s.shell.history (historySlot s.shell.next k) = s.log.getD k noLine

theorem historySlot_zero : ∀ next : Fin 16, historySlot ((next + 1) % 16) 0 = next := by decide

theorem historySlot_succ : ∀ next : Fin 16, ∀ b : Fin 15,
    historySlot ((next + 1) % 16) (b + 1) = historySlot next b ∧ historySlot next b ≠ next := by decide

variable {s : Session}

theorem Session.Ring.step (h : s.Ring) (key : ShellKey) : (s.step key).Ring := by
  have hredraw (b : Int) : Session.Ring ⟨shellHistoryRedraw s.shell b, s.log⟩ := ⟨h.count, h.next, h.slots⟩
  cases key with
  | edit line => exact ⟨h.count, h.next, h.slots⟩
  | up =>
    rw [Session.step, shellHistoryUp]
    split
    · exact h
    · exact hredraw _
  | down =>
    rw [Session.step, shellHistoryDown]
    split
    · exact h
    · exact hredraw _
  | enter =>
    rw [Session.step, shellHistoryAdd]
    dsimp only
    split
    · exact ⟨h.count, h.next, h.slots⟩
    · have hcount := h.count
      refine ⟨?_, Nat.mod_lt _ (by decide), fun k hk => ?_⟩
      · simp only [List.length_cons]
        split <;> omega
      · dsimp only at hk ⊢
        cases k with
        | zero => rw [Int.ofNat_zero, historySlot_zero ⟨_, h.next⟩]; simp
        | succ k =>
          have hk15 : k < 15 := by split at hk <;> omega
          obtain ⟨hslot, hne⟩ := historySlot_succ ⟨_, h.next⟩ ⟨k, hk15⟩
          rw [Nat.cast_succ, hslot, update_of_ne hne]
          exact h.slots k (by split at hk <;> omega)

/-! ## Browsing -/

theorem up_redraw (s : Shell) (b : Int) : shellHistoryUp (shellHistoryRedraw s b) =
    shellHistoryRedraw s (if s.count ≤ b + 1 then b else b + 1) := by
  change (if s.count ≤ b + 1 then _ else _) = _
  split <;> rfl

theorem down_redraw (s : Shell) (b : Int) : shellHistoryDown (shellHistoryRedraw s b) =
    shellHistoryRedraw s (if b < 0 then b else b - 1) := by
  change (if b < 0 then _ else _) = _
  split <;> rfl

theorem up_iterate {s : Shell} (hs : s.browse = -1) (hcount : 0 < s.count) (n : Nat) :
    shellHistoryUp^[n + 1] s = shellHistoryRedraw s ((min (n + 1) s.count : Nat) - 1) := by
  induction n with
  | zero =>
    rw [iterate_one, shellHistoryUp, hs, if_neg (by omega)]
    congr 1
    omega
  | succ n ih =>
    rw [iterate_succ_apply', ih, up_redraw]
    congr 1
    split <;> omega

theorem down_iterate (s : Shell) (b : Int) (hb : -1 ≤ b) (j : Nat) :
    shellHistoryDown^[j] (shellHistoryRedraw s b) = shellHistoryRedraw s (max (b - j) (-1)) := by
  induction j with
  | zero =>
    rw [iterate_zero, id]
    congr 1
    omega
  | succ j ih =>
    rw [iterate_succ_apply', ih, down_redraw]
    congr 1
    split <;> omega

theorem Session.Ring.recalls (h : s.Ring) (hbrowse : s.shell.browse = -1) : s.Recalls := by
  intro n j k hk
  have hcount := h.count
  obtain ⟨n, rfl⟩ := Nat.exists_eq_add_of_lt (show 0 < n by omega)
  rw [Nat.zero_add, up_iterate hbrowse (by omega), down_iterate _ _ (by omega)]
  by_cases hj : j < k
  · rw [if_pos hj, ← h.slots (k - 1 - j) (by omega), shellHistoryRedraw]
    dsimp only
    rw [if_pos (by omega)]
    congr 2
    omega
  · rw [if_neg hj, shellHistoryRedraw]
    dsimp only
    rw [if_neg (by omega)]

/-- **Command history**: in every session whose keys meet the condition, Up and Down at the next
prompt go over the last 16 lines submitted. -/
theorem history_recall (h : Relation.ReflTransGen Session.Next .start s) (hmeets : s.Meets .enter) :
    (s.step .enter).Recalls := by
  have hring : s.Ring := run_inv (P := Session.Ring) (fun s s' hs ⟨key, _, hstep⟩ => hstep ▸ hs.step key) h
    ⟨rfl, by decide, by simp [Session.start]⟩
  refine (hring.step .enter).recalls ?_
  rw [Session.step, shellHistoryAdd]
  dsimp only
  split
  · exact hmeets rfl ‹_›
  · rfl

/-- Two lines and a blank one are submitted; then Up, Up and Down show an entry, and a third line is typed. -/
def browsedSession : Session :=
  [ShellKey.edit ⟨[97#8], by decide⟩, .enter, .edit ⟨[98#8], by decide⟩, .enter, .edit ⟨[32#8], by decide⟩, .enter,
    .up, .up, .down, .edit ⟨[99#8], by decide⟩].foldl Session.step .start

theorem history_recall_three : (browsedSession.step .enter).log.map Subtype.val = [[99#8], [98#8], [97#8]] ∧
    (browsedSession.step .enter).Recalls := by
  have hother (s : Session) (key : ShellKey) (hkey : key ≠ .enter) : s.Next (s.step key) :=
    ⟨key, fun h => absurd h hkey, rfl⟩
  have henter (s : Session) (hs : s.shell.browse = -1) : s.Next (s.step .enter) := ⟨.enter, fun _ _ => hs, rfl⟩
  refine ⟨by decide, history_recall (.head (hother _ (.edit _) nofun) <| .head (henter _ rfl) <|
    .head (hother _ (.edit _) nofun) <| .head (henter _ rfl) <| .head (hother _ (.edit _) nofun) <|
    .head (henter _ rfl) <| .head (hother _ .up nofun) <| .head (hother _ .up nofun) <|
    .head (hother _ .down nofun) <| .single (hother _ (.edit _) nofun)) fun _ h => absurd h (by decide)⟩

/-- Two lines, Up, the line erased and Enter: the next Up shows the first line, not the second. -/
theorem history_skips : ¬ Session.Recalls ([ShellKey.edit ⟨[97#8], by decide⟩, .enter,
    .edit ⟨[98#8], by decide⟩, .enter, .up, .edit noLine, .enter].foldl Session.step .start) := by
  intro h
  exact absurd (h 1 0 (by decide)) (by decide)

end MinicOs
