import MinicOs.Gfx.WindowOrder
import MinicOs.Lib.Ring
import MinicOs.Mm.Word

/-!
# Window focus and the event queue

Model of the focus and the event queue of `kernel/gfx/window/window.c`: one ring of 16 events for
whichever window is focused. What a window shows and where it lies is left out; a mouse press comes as
what the hit test of `compositor_handle_mouse` makes of it. A queued event carries the window that was
focused when it was pushed, and every pop is recorded.
-/

namespace MinicOs

def windowKeyQueueSize : Nat := 16

inductive InputEventType
  | keyDown | mouseButton | mouseWheel
deriving DecidableEq

/-- `input_event_t`, of which the kernel reads `type` and `ascii`. -/
structure InputEvent where
  type : InputEventType
  ascii : U8

/-- A window from its creation to its closing: the slot, and how many windows the slot has had. -/
structure WindowInstance where
  slot : Int
  number : Nat
deriving DecidableEq

/-- An event, with the window that was focused when it was pushed. -/
structure QueuedEvent where
  event : InputEvent
  pushedFor : Option WindowInstance

/-! ## The ring -/

/-- `g_window_event_queue`, `g_window_key_head` and `g_window_key_tail`. -/
structure EventRing where
  slots : Nat → QueuedEvent
  head : Nat
  tail : Nat

namespace EventRing

/-- `window_push_event`, which drops the oldest event of a full ring. -/
def push (r : EventRing) (x : QueuedEvent) : EventRing :=
  let nextTail := (r.tail + 1) % windowKeyQueueSize
  { slots := Function.update r.slots r.tail x
    head := if nextTail = r.head then (r.head + 1) % windowKeyQueueSize else r.head
    tail := nextTail }

/-- `window_pop_event` of the focused window. -/
def pop (r : EventRing) : Option (QueuedEvent × EventRing) :=
  if r.head = r.tail then none
  else some (r.slots r.head, { r with head := (r.head + 1) % windowKeyQueueSize })

/-- How many events are unread. -/
def unread (r : EventRing) : Nat := (r.tail + windowKeyQueueSize - r.head) % windowKeyQueueSize

/-- The unread events. -/
def queue (r : EventRing) : List QueuedEvent := ringSlice windowKeyQueueSize r.slots r.head r.unread

structure Ok (r : EventRing) : Prop where
  head : r.head < windowKeyQueueSize
  tail : r.tail < windowKeyQueueSize

variable {r : EventRing}

theorem push_slice (x : QueuedEvent) {head n : Nat} (hn : n < windowKeyQueueSize)
    (ht : r.tail = (head + n) % windowKeyQueueSize) (hh : (r.push x).head = head) (hu : (r.push x).unread = n + 1) :
    (r.push x).queue = ringSlice windowKeyQueueSize r.slots head n ++ [x] := by
  rw [queue, hh, hu, ← ringSlice_snoc r.slots hn x, ← ht]
  rfl

/-- **A push** goes to the end of the queue; the oldest of 15 events is dropped. -/
theorem Ok.push_queue (h : r.Ok) (x : QueuedEvent) : (r.push x).Ok ∧
    (r.push x).queue = (if r.queue.length + 1 = windowKeyQueueSize then r.queue.tail else r.queue) ++ [x] := by
  obtain ⟨hh, ht⟩ := h
  have hlen : r.queue.length = r.unread := length_ringSlice _
  rw [hlen]
  by_cases hfull : (r.tail + 1) % windowKeyQueueSize = r.head
  · have hhead : (r.push x).head = (r.head + 1) % windowKeyQueueSize := if_pos hfull
    have hunread : r.unread = 14 + 1 := by
      unfold unread windowKeyQueueSize at *
      omega
    have htail : r.queue.tail = ringSlice windowKeyQueueSize r.slots ((r.head + 1) % windowKeyQueueSize) 14 := by
      rw [queue, hunread, ringSlice_cons r.slots hh, List.tail_cons]
    refine ⟨⟨hhead ▸ Nat.mod_lt _ (by decide), Nat.mod_lt _ (by decide)⟩, ?_⟩
    rw [if_pos (by rw [hunread]; rfl), htail]
    refine push_slice x (by decide) ?_ hhead ?_
    · unfold windowKeyQueueSize at *
      omega
    · rw [unread, hhead, show (r.push x).tail = r.head from hfull]
      unfold windowKeyQueueSize at *
      omega
  · have hhead : (r.push x).head = r.head := if_neg hfull
    refine ⟨⟨hhead ▸ hh, Nat.mod_lt _ (by decide)⟩, ?_⟩
    have hunread : r.unread + 1 < windowKeyQueueSize := by
      unfold unread windowKeyQueueSize at *
      omega
    rw [if_neg hunread.ne]
    refine push_slice x (by omega) ?_ hhead ?_
    · unfold unread windowKeyQueueSize at *
      omega
    · rw [unread, hhead, show (r.push x).tail = (r.tail + 1) % windowKeyQueueSize from rfl]
      unfold unread windowKeyQueueSize at *
      omega

/-- **A pop** takes the front of the queue. -/
theorem Ok.pop_queue (h : r.Ok) : (r.queue = [] ∧ r.pop = none) ∨
    ∃ x r', r.pop = some (x, r') ∧ r.queue = x :: r'.queue ∧ r'.Ok := by
  obtain ⟨hh, ht⟩ := h
  by_cases hempty : r.head = r.tail
  · have hunread : r.unread = 0 := by
      rw [unread, hempty, Nat.add_sub_cancel_left, Nat.mod_self]
    exact Or.inl ⟨by rw [queue, hunread]; rfl, if_pos hempty⟩
  · refine Or.inr ⟨_, _, if_neg hempty, ?_, Nat.mod_lt _ (by decide), ht⟩
    rw [queue, queue, ← ringSlice_cons r.slots hh]
    congr 1
    unfold unread windowKeyQueueSize at *
    dsimp only
    omega

end EventRing

/-! ## The desktop -/

/-- An event that was popped: the window it was pushed for, and the one it was given to. -/
structure Delivery where
  pushedFor : Option WindowInstance
  givenTo : Option WindowInstance
deriving DecidableEq

/-- The windows, how many each slot has had, `g_focused_window_id`, the event queue, and the deliveries. -/
structure Desktop where
  windows : ZOrder
  created : Int → Nat
  focused : Int
  events : EventRing
  delivered : List Delivery

namespace Desktop

variable (s : Desktop)

/-- The window in a slot. -/
def window? (id : Int) : Option WindowInstance :=
  if s.windows.used id = true then some ⟨id, s.created id⟩ else none

def windowFocus (id : Int) : Desktop := if s.windows.Valid id then { s with focused := id } else s

def windowPushEvent (e : InputEvent) : Desktop := { s with events := s.events.push ⟨e, s.window? s.focused⟩ }

def windowPopEvent (id : Int) : Option InputEvent × Desktop :=
  if id ≠ s.focused then (none, s)
  else
    match s.events.pop with
    | none => (none, s)
    | some (x, events) =>
      (some x.event, { s with events := events, delivered := s.delivered ++ [⟨x.pushedFor, s.window? id⟩] })

/-- `n` rounds of `window_pop_key`. -/
def popKeyLoop (id : Int) : Nat → Desktop → Int × Desktop
  | 0, s => (-1, s)
  | n + 1, s =>
    match s.windowPopEvent id with
    | (none, s) => (-1, s)
    | (some e, s) => if e.type = .keyDown then (e.ascii.toInt, s) else popKeyLoop id n s

def windowPopKey (id : Int) : Int × Desktop := popKeyLoop id (s.events.unread + 1) s

/-- The windows are as an event left them; a slot that got used has a new window. -/
def setWindows (z : ZOrder) : Desktop :=
  { s with
    windows := z
    created := fun id => if z.used id = true ∧ s.windows.used id = false then s.created id + 1 else s.created id }

end Desktop

/-- What can happen. Closing and raising a window and `focus` come from syscalls and from clicks, `background`
is a click on a borderless window, and `push` is an interrupt handler with an event. -/
inductive DesktopEvent
  | windows (e : ZOrderEvent)
  | focus (id : Int)
  | background
  | push (e : InputEvent)
  | popEvent (id : Int)
  | popKey (id : Int)

namespace Desktop

def step (s : Desktop) : DesktopEvent → Option Desktop
  | .windows e => (s.windows.step e).map s.setWindows
  | .focus id => some (s.windowFocus id)
  | .background => some { s with focused := -1 }
  | .push e => some (if 0 ≤ s.focused then s.windowPushEvent e else s)
  | .popEvent id => some (s.windowPopEvent id).2
  | .popKey id => some (s.windowPopKey id).2

def start : Desktop where
  windows := .start
  created := fun _ => 0
  focused := -1
  events := { slots := fun _ => ⟨⟨.keyDown, 0⟩, none⟩, head := 0, tail := 0 }
  delivered := []

/-- Every event was given to the window it was pushed for, and the focused window exists. -/
structure Private (s : Desktop) : Prop where
  delivered : ∀ d ∈ s.delivered, d.pushedFor = d.givenTo ∧ d.givenTo ≠ none
  focused : s.focused = -1 ∨ s.windows.used s.focused = true

/-- The focus moves only with the queue empty, and the focused window is not closed. -/
def Settled (s : Desktop) : DesktopEvent → Prop
  | .focus id => id = s.focused ∨ s.events.unread = 0
  | .background => s.focused = -1 ∨ s.events.unread = 0
  | .windows e => e ≠ .close s.focused ∧ e ≠ .closeLate s.focused
  | _ => True

instance (s : Desktop) (e : DesktopEvent) : Decidable (s.Settled e) := by
  cases e <;> unfold Settled <;> infer_instance

def Step (s s' : Desktop) : Prop := ∃ e, s.step e = some s'

/-- One event that meets the condition. -/
def SettledStep (s s' : Desktop) : Prop := ∃ e, s.Settled e ∧ s.step e = some s'

/-- What is queued was pushed for the focused window. -/
structure Inv (s : Desktop) : Prop extends s.Private where
  order : s.windows.Permutation
  ring : s.events.Ok
  queued : ∀ x ∈ s.events.queue, x.pushedFor = s.window? s.focused ∧ s.window? s.focused ≠ none

variable {s : Desktop}

theorem Inv.pop (hi : s.Inv) (id : Int) : (s.windowPopEvent id).2.Inv := by
  unfold windowPopEvent
  split
  · exact hi
  rename_i hid
  have hid : id = s.focused := not_not.mp hid
  obtain ⟨-, hpop⟩ | ⟨x, events, hpop, hq, hok⟩ := hi.ring.pop_queue
  · rw [hpop]
    exact hi
  · rw [hpop]
    have hx := hi.queued x (by simp [hq])
    refine ⟨⟨fun d hd => ?_, hi.focused⟩, hi.order, hok, fun y hy => hi.queued y (by simp [hq, show y ∈ events.queue from hy])⟩
    rcases List.mem_append.mp hd with hd | hd
    · exact hi.delivered d hd
    · obtain rfl := List.mem_singleton.mp hd
      exact ⟨hid ▸ hx.1, hid ▸ hx.2⟩

theorem Inv.popKeyLoop (id : Int) : ∀ (n : Nat) {s : Desktop}, s.Inv → (Desktop.popKeyLoop id n s).2.Inv
  | 0, _, hi => hi
  | n + 1, s, hi => by
    have hpop := hi.pop id
    unfold Desktop.popKeyLoop
    split
    · rename_i heq
      rwa [heq] at hpop
    · rename_i heq
      rw [heq] at hpop
      split
      · exact hpop
      · exact Inv.popKeyLoop id n hpop

/-- Moving the focus to a window, or away from all, with the queue empty. -/
theorem Inv.refocus (hi : s.Inv) {id : Int} (hq : s.events.unread = 0) (hid : id = -1 ∨ s.windows.used id = true) :
    ({ s with focused := id } : Desktop).Inv :=
  ⟨⟨hi.delivered, hid⟩, hi.order, hi.ring, fun x hx => by simp [EventRing.queue, ringSlice, hq] at hx⟩

/-- The windows change, and the focused one stays. -/
theorem Inv.setWindows (hi : s.Inv) {z : ZOrder} (ho : z.Permutation)
    (hz : s.windows.used s.focused = true → z.used s.focused = true) : (s.setWindows z).Inv := by
  refine ⟨⟨hi.delivered, hi.focused.imp_right hz⟩, ho, hi.ring, fun x hx => ?_⟩
  obtain ⟨hfor, hsome⟩ := hi.queued x hx
  have hu : s.windows.used s.focused = true := by
    by_contra hu
    exact hsome (if_neg hu)
  have hsame : (s.setWindows z).window? s.focused = s.window? s.focused := by
    simp [window?, Desktop.setWindows, hu, hz hu]
  exact ⟨hfor.trans hsame.symm, hsame ▸ hsome⟩

/-- **One event keeps the invariant.** -/
theorem Inv.step (hi : s.Inv) {s' : Desktop} (h : s.SettledStep s') : s'.Inv := by
  obtain ⟨e, hok, h⟩ := h
  cases e with
  | windows e =>
    obtain ⟨z, hz, rfl⟩ := Option.map_eq_some_iff.mp h
    obtain ⟨z', hz', ho⟩ := hi.order.step e
    cases hz.symm.trans hz'
    exact hi.setWindows ho fun hu => ZOrder.step_used hz hu hok
  | focus id =>
    cases h
    unfold windowFocus
    split
    · rename_i hv
      rcases hok with rfl | hq
      · exact hi
      · exact hi.refocus hq (Or.inr hv.2.2)
    · exact hi
  | background =>
    cases h
    rcases hok with hf | hq
    · have hsame : ({ s with focused := -1 } : Desktop) = s := by rw [← hf]
      exact hsame ▸ hi
    · exact hi.refocus hq (Or.inl rfl)
  | push e =>
    cases h
    split
    · rename_i hf
      have hu : s.windows.used s.focused = true := hi.focused.resolve_left (by omega)
      have hw : s.window? s.focused ≠ none := by simp [window?, hu]
      obtain ⟨hring, hq⟩ := hi.ring.push_queue ⟨e, s.window? s.focused⟩
      refine ⟨⟨hi.delivered, hi.focused⟩, hi.order, hring, fun x hx => ?_⟩
      rcases List.mem_append.mp (hq ▸ hx :) with hx | hx
      · refine hi.queued x ?_
        split at hx
        · exact List.mem_of_mem_tail hx
        · exact hx
      · obtain rfl := List.mem_singleton.mp hx
        exact ⟨rfl, hw⟩
    · exact hi
  | popEvent id =>
    cases h
    exact hi.pop id
  | popKey id =>
    cases h
    exact hi.popKeyLoop id _

end Desktop

/-- **No event leaks**: in every run in which the focus moves only with the queue empty and the
focused window is not closed. -/
theorem input_private {s : Desktop} (hrun : Relation.ReflTransGen Desktop.SettledStep Desktop.start s) :
    s.Private ∧ ∀ e, s.step e ≠ none := by
  have hi : s.Inv := run_inv (P := Desktop.Inv) (fun _ _ hi hs => hi.step hs) hrun
    ⟨⟨by simp [Desktop.start], Or.inl rfl⟩, ZOrder.start_permutation, ⟨by decide, by decide⟩, by decide⟩
  refine ⟨hi.toPrivate, fun e hnone => ?_⟩
  cases e with
  | windows e =>
    obtain ⟨z, hz, -⟩ := hi.order.step e
    simp [Desktop.step, hz] at hnone
  | _ => cases hnone

def aKey : InputEvent := { type := .keyDown, ascii := 0x61 }

/-- Two windows read their keys one after the other, and the first one is closed. -/
theorem input_private_two : ∃ s, Relation.ReflTransGen Desktop.SettledStep Desktop.start s ∧
    s.delivered = [⟨some ⟨0, 1⟩, some ⟨0, 1⟩⟩, ⟨some ⟨1, 1⟩, some ⟨1, 1⟩⟩, ⟨some ⟨1, 1⟩, some ⟨1, 1⟩⟩] ∧ s.Private := by
  have hrun : (runList (fun s e => if s.Settled e then s.step e else none)
      [.windows .create, .windows .create, .focus 0, .push aKey, .popKey 0, .focus 1, .push aKey, .push aKey, .popEvent 1,
        .popKey 1, .windows (.close 0)] Desktop.start).map Desktop.delivered =
      some [⟨some ⟨0, 1⟩, some ⟨0, 1⟩⟩, ⟨some ⟨1, 1⟩, some ⟨1, 1⟩⟩, ⟨some ⟨1, 1⟩, some ⟨1, 1⟩⟩] := by decide +kernel
  obtain ⟨s, hs, hdelivered⟩ := Option.map_eq_some_iff.mp hrun
  have hsteps : Relation.ReflTransGen Desktop.SettledStep Desktop.start s :=
    runList_run (fun _ _ e _ h => ⟨e, Option.ite_none_right_eq_some.mp h⟩) hs
  exact ⟨s, hsteps, hdelivered, (input_private hsteps).1⟩

/-- Two windows; the key pushed for the first is popped by the second. Then the second is closed. -/
def leakingEvents : List DesktopEvent :=
  [.windows .create, .windows .create, .focus 0, .push aKey, .focus 1, .popEvent 1, .windows (.close 1)]

/-- **An event goes to another window, and a closed window keeps the focus.** -/
theorem input_leaks : ∃ s, Relation.ReflTransGen Desktop.Step Desktop.start s ∧
    s.delivered = [⟨some ⟨0, 1⟩, some ⟨1, 1⟩⟩] ∧ s.focused = 1 ∧ s.windows.used 1 = false ∧ ¬ s.Private := by
  have hrun : (runList Desktop.step leakingEvents Desktop.start).map (fun s => (s.delivered, s.focused, s.windows.used 1)) =
      some ([⟨some ⟨0, 1⟩, some ⟨1, 1⟩⟩], 1, false) := by decide +kernel
  obtain ⟨s, hs, heq⟩ := Option.map_eq_some_iff.mp hrun
  obtain ⟨hdelivered, hfocused, hused⟩ : _ ∧ _ ∧ _ := by simpa using heq
  refine ⟨s, runList_run (fun _ _ e _ h => ⟨e, h⟩) hs, hdelivered, hfocused, hused, fun h => ?_⟩
  exact absurd (h.delivered _ (hdelivered ▸ List.mem_singleton_self _)).1 (by decide)

end MinicOs
