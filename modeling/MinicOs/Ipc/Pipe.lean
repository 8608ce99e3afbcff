import MinicOs.Lib.Ring
import MinicOs.Proc.Boot
import MinicOs.Syscall.Dispatch

/-!
# Pipes

`proc/ipc/pipe/pipe.c` and syscalls 52, 53 and 54 (`kernel/syscall/handlers/pipe.c`): rings of 256
bytes that are opened by their index. 52 does not check that index, so a later read or write may be
one of memory outside `g_pipes`; such a call has no next state here.
-/

namespace MinicOs

open List Function Option Nat

def pipeSlots : Nat := 4

def pipeBufSize : Nat := 256

structure PipeBuffer where
  used : Bool
  buffer : Nat → U8
  readPos : Nat
  writePos : Nat
  count : Nat

namespace PipeBuffer

/-- A round of the loop of `pipe_write`. -/
def put (p : PipeBuffer) (b : U8) : PipeBuffer :=
  { p with buffer := update p.buffer p.writePos b, writePos := (p.writePos + 1) % pipeBufSize }

/-- `pipe_write`. No pipe counts more than its 256 bytes, so the difference does not wrap. -/
def write (p : PipeBuffer) (data : List U8) : Nat × PipeBuffer :=
  let n := min data.length (pipeBufSize - p.count)
  let q := (data.take n).foldl put p
  (n, { q with count := q.count + n })

/-- The loop of `pipe_read`. -/
def getBytes : Nat → PipeBuffer → List U8 × PipeBuffer
  | 0, p => ([], p)
  | n + 1, p =>
    let r := getBytes n { p with readPos := (p.readPos + 1) % pipeBufSize }
    (p.buffer p.readPos :: r.1, r.2)

/-- `pipe_read`. -/
def read (p : PipeBuffer) (maxLen : Nat) : List U8 × PipeBuffer :=
  let n := min maxLen p.count
  let r := getBytes n p
  (r.1, { r.2 with count := r.2.count - n })

/-! ## The queue in the ring -/

/-- The `n` bytes from the reading position on. -/
def ring (p : PipeBuffer) (n : Nat) : List U8 := ringSlice pipeBufSize p.buffer p.readPos n

/-- What the pipe holds. -/
def queue (p : PipeBuffer) : List U8 := p.ring p.count

/-- The writing position is `count` behind the reading one. -/
structure Ok (p : PipeBuffer) : Prop where
  count : p.count ≤ pipeBufSize
  read : p.readPos < pipeBufSize
  write : p.writePos = (p.readPos + p.count) % pipeBufSize

variable {p : PipeBuffer} {n : Nat}

theorem put_ring (hw : p.writePos = (p.readPos + n) % pipeBufSize) (hn : n < pipeBufSize) (b : U8) :
    (p.put b).ring (n + 1) = p.ring n ++ [b] := by
  rw [ring, put, hw]
  exact ringSlice_snoc p.buffer hn b

/-- The bytes stored are queued behind the `n` that were there. -/
theorem puts_ring : ∀ (data : List U8) {p : PipeBuffer} {n : Nat},
    p.writePos = (p.readPos + n) % pipeBufSize → n + data.length ≤ pipeBufSize →
      (data.foldl put p).ring (n + data.length) = p.ring n ++ data ∧ ∃ buffer, data.foldl put p =
          { p with buffer := buffer, writePos := (p.readPos + (n + data.length)) % pipeBufSize }
  | [], p, n, hw, _ => ⟨(append_nil _).symm, p.buffer, by rw [length_nil, add_zero, ← hw]; rfl⟩
  | b :: data, p, n, hw, hle => by
    rw [length_cons] at hle ⊢
    have hw' : (p.put b).writePos = ((p.put b).readPos + (n + 1)) % pipeBufSize := by
      show (p.writePos + 1) % pipeBufSize = (p.readPos + (n + 1)) % pipeBufSize
      rw [hw]
      unfold pipeBufSize
      omega
    obtain ⟨hring, buffer, heq⟩ := puts_ring data hw' (by omega)
    rw [put_ring hw (by omega), append_assoc] at hring
    rw [show n + (data.length + 1) = n + 1 + data.length by omega]
    exact ⟨hring, buffer, heq⟩

theorem getBytes_eq : ∀ (n : Nat) {p : PipeBuffer}, p.readPos < pipeBufSize →
    getBytes n p = (p.ring n, { p with readPos := (p.readPos + n) % pipeBufSize })
  | 0, p, h => by rw [add_zero, mod_eq_of_lt h]; rfl
  | n + 1, p, h => by
    have hcons : p.ring (n + 1) = p.buffer p.readPos :: _ := ringSlice_cons p.buffer h
    rw [getBytes, getBytes_eq n (mod_lt _ (by decide)), hcons]
    simp only [mod_add_mod, add_assoc, add_comm 1 n]
    rfl

/-- **What a write accepts goes to the end of the queue.** -/
theorem Ok.write_queue (h : p.Ok) (data : List U8) : (p.write data).2.Ok ∧ (p.write data).2.used = p.used ∧
    (p.write data).2.queue = p.queue ++ data.take (p.write data).1 := by
  have hc := h.count
  simp only [PipeBuffer.write]
  generalize hn : min data.length (pipeBufSize - p.count) = n
  have hlen : (data.take n).length = n := by
    rw [length_take]
    omega
  obtain ⟨hring, buffer, heq⟩ := puts_ring (data.take n) h.write (by omega)
  rw [hlen] at hring heq
  rw [heq] at hring ⊢
  exact ⟨⟨show p.count + n ≤ pipeBufSize by omega, h.read, rfl⟩, rfl, hring⟩

/-- **A read returns the front of the queue.** -/
theorem Ok.read_queue (h : p.Ok) (maxLen : Nat) : (p.read maxLen).2.Ok ∧ (p.read maxLen).2.used = p.used ∧
    p.queue = (p.read maxLen).1 ++ (p.read maxLen).2.queue := by
  have hc := h.count
  have hw := h.write
  simp only [PipeBuffer.read, getBytes_eq _ h.read]
  generalize hn : min maxLen p.count = n
  refine ⟨⟨?_, mod_lt _ (by decide), ?_⟩, trivial, ?_⟩
  · show p.count - n ≤ pipeBufSize
    omega
  · show p.writePos = ((p.readPos + n) % pipeBufSize + (p.count - n)) % pipeBufSize
    unfold pipeBufSize at *
    omega
  · unfold queue ring
    conv_lhs => rw [show p.count = n + (p.count - n) by omega, ringSlice_add]

end PipeBuffer

/-! ## The syscalls -/

/-- The tables behind the pipe syscalls, with what each pipe has accepted and what was read from it. -/
structure Pipes where
  caps : Caps
  pipes : Nat → PipeBuffer
  wrote : Nat → List U8
  got : Nat → List U8

/-- The calls, with the caller's handle and the bytes at its address. -/
inductive PipeCall
  | open (a1 a2 : U64)
  | write (h : Int) (data : List U8)
  | read (h : Int) (maxLen : Nat)

namespace Pipes

/-- The `data_index` of the pipe that a handle names. -/
def pipeOf (s : Pipes) (p h : Int) (right : Nat) : Option Int :=
  (lookupHandle s.caps p h right (some .pipe)).map fun o => (s.caps.objects o).dataIndex

/-- `f` on the pipe that a handle names; none outside `g_pipes`. -/
def through (s : Pipes) (p h : Int) (right : Nat) (f : Nat → U64 × Pipes) : Option (U64 × Pipes) :=
  match s.pipeOf p h right with
  | none => some (errU64, s)
  | some i => if 0 ≤ i ∧ i < pipeSlots then some (f i.toNat) else none

/-- `pipe_write` from 53. -/
def writeTo (s : Pipes) (data : List U8) (i : Nat) : U64 × Pipes :=
  let r := (s.pipes i).write data
  (ofInt r.1, { s with pipes := update s.pipes i r.2
                       wrote := update s.wrote i (s.wrote i ++ data.take r.1) })

/-- `pipe_read` from 54. -/
def readFrom (s : Pipes) (maxLen : Nat) (i : Nat) : U64 × Pipes :=
  let r := (s.pipes i).read maxLen
  (ofInt r.1.length, { s with pipes := update s.pipes i r.2
                              got := update s.got i (s.got i ++ r.1) })

/-- `syscall_pipe` from process `p`. -/
def call (s : Pipes) (p : Int) : PipeCall → Option (U64 × Pipes)
  | .open a1 a2 =>
    if p < 0 then some (errU64, s)
    else
      let r := createObject s.caps p .pipe (toInt32 a1) (if a2 ≠ 0#64 then rightSend else rightReceive) true
      some (r.1, { s with caps := r.2 })
  | .write h data => s.through p h rightSend (s.writeTo data)
  | .read h maxLen => s.through p h rightReceive (s.readFrom maxLen)

/-- The dispatch's 52 is this one. -/
theorem syscallPipe_open (s : Pipes) (k : Kernel) (t : Int) (call : Call) (env : Env) (hnum : call.num = 52)
    (hs : s.caps = k.caps) : syscallPipe k t call env =
      some ((s.call (k.processOf t) (.open call.a1 call.a2)).map fun r => (.ret r.1, { k with caps := r.2.caps })) := by
  have hopen : syscallPipe k t call env = some (openObject k t .pipe (toInt32 call.a1)
      (if call.a2 ≠ 0#64 then rightSend else rightReceive) true) := by
    unfold syscallPipe
    rw [hnum]
    rfl
  rw [hopen, openObject, Pipes.call, hs]
  by_cases hp : k.processOf t < 0
  · simp only [if_pos hp, map_some, hs]
    rfl
  · simp only [if_neg hp, map_some]
    rfl

def Allocated (s : Pipes) (i : Int) : Prop := 0 ≤ i ∧ i < pipeSlots ∧ (s.pipes i.toNat).used = true

instance (s : Pipes) (i : Int) : Decidable (s.Allocated i) := inferInstanceAs (Decidable (_ ∧ _ ∧ _))

/-- A 52 names an allocated pipe. -/
def Named (s : Pipes) (call : PipeCall) : Prop := ∀ a1 a2, call = .open a1 a2 → s.Allocated (toInt32 a1)

/-- A call of some process, whose opens name allocated pipes. -/
def Step (s s' : Pipes) : Prop := ∃ p call v, s.Named call ∧ s.call p call = some (v, s')

/-- The pipes `used` are allocated, and nothing has been opened. -/
def start (c : Caps) (used : Nat → Bool) : Pipes where
  caps := c
  pipes := fun i => { used := used i, buffer := fun _ => 0, readPos := 0, writePos := 0, count := 0 }
  wrote := fun _ => []
  got := fun _ => []

/-- Pipe objects are of allocated pipes, and every pipe holds what was accepted and not yet read. -/
structure Inv (s : Pipes) : Prop where
  objects : ∀ o, (s.caps.objects o).type = .pipe → s.Allocated (s.caps.objects o).dataIndex
  ok : ∀ i, (s.pipes i).Ok
  fifo : ∀ i, s.got i ++ (s.pipes i).queue = s.wrote i

variable {s s' : Pipes}

theorem Inv.through (hs : s.Inv) {f : Nat → U64 × Pipes} (hf : ∀ i, (f i).2.Inv) (p h : Int) (right : Nat) :
    ∃ v s', s.through p h right f = some (v, s') ∧ s'.Inv := by
  unfold Pipes.through
  split
  · exact ⟨_, _, rfl, hs⟩
  · rename_i i hi
    obtain ⟨o, hl, rfl⟩ := map_eq_some_iff.mp hi
    obtain ⟨-, -, -, -, -, htype, -⟩ := lookupHandle_eq_some hl
    obtain ⟨h0, h4, -⟩ := hs.objects o (Option.some.inj (htype.resolve_left (by simp))).symm
    exact ⟨_, _, if_pos ⟨h0, h4⟩, hf _⟩

/-- A pipe is replaced, with the bytes that went through it. -/
theorem Inv.setPipe (hs : s.Inv) {i : Nat} {q : PipeBuffer} {w g : List U8} (hq : q.Ok)
    (hu : q.used = (s.pipes i).used) (hfifo : g ++ q.queue = w) :
    Inv { s with pipes := update s.pipes i q, wrote := update s.wrote i w, got := update s.got i g } := by
  refine ⟨fun o ho => ?_, fun j => ?_, fun j => ?_⟩
  · obtain ⟨h0, h4, hused⟩ := hs.objects o ho
    refine ⟨h0, h4, ?_⟩
    by_cases hi : (s.caps.objects o).dataIndex.toNat = i
    · simp only [hi, update_self, hu]
      rw [← hi, hused]
    · simp only [update_of_ne hi, hused]
  · by_cases hj : j = i
    · simp only [hj, update_self]
      exact hq
    · simp only [update_of_ne hj]
      exact hs.ok j
  · by_cases hj : j = i
    · simp only [hj, update_self]
      exact hfifo
    · simp only [update_of_ne hj]
      exact hs.fifo j

/-- **A call keeps the invariant** and stays inside `g_pipes`. -/
theorem Inv.call (hs : s.Inv) (p : Int) {call : PipeCall} (hn : s.Named call) :
    ∃ v s', s.call p call = some (v, s') ∧ s'.Inv := by
  cases call with
  | «open» a1 a2 =>
    by_cases hp : p < 0
    · exact ⟨errU64, s, if_pos hp, hs⟩
    · refine ⟨_, _, if_neg hp, fun o ho => ?_, hs.ok, hs.fifo⟩
      obtain ⟨-, hd⟩ | ⟨ht, hd⟩ := createObject_object s.caps p .pipe (toInt32 a1)
        (if a2 ≠ 0#64 then rightSend else rightReceive) true o
      · rw [hd]
        exact hn a1 a2 rfl
      · rw [hd]
        exact hs.objects o (ht.symm.trans ho)
  | write h data =>
    refine hs.through (fun i => ?_) p h rightSend
    obtain ⟨hok, hused, hqueue⟩ := (hs.ok i).write_queue data
    have hset := hs.setPipe hok hused (by rw [hqueue, ← append_assoc, hs.fifo])
    rwa [update_eq_self] at hset
  | read h maxLen =>
    refine hs.through (fun i => ?_) p h rightReceive
    obtain ⟨hok, hused, hqueue⟩ := (hs.ok i).read_queue maxLen
    have hset := hs.setPipe hok hused (by rw [append_assoc, ← hqueue, hs.fifo])
    rwa [update_eq_self] at hset

end Pipes

/-- **Pipes are bounded FIFO queues** in every run whose opens name allocated pipes: what was read from
a pipe and what it holds are together what it accepted, in order; it holds at most 256 bytes; and no
call leaves `g_pipes`. -/
theorem pipes_fifo {c : Caps} (hc : ∀ o, (c.objects o).type ≠ .pipe) (used : Nat → Bool) {s : Pipes}
    (hrun : Relation.ReflTransGen Pipes.Step (Pipes.start c used) s) :
    (∀ i, s.got i ++ (s.pipes i).queue = s.wrote i ∧ (s.pipes i).queue.length ≤ pipeBufSize) ∧
      ∀ p call, s.Named call → s.call p call ≠ none := by
  have hs : s.Inv := run_inv (fun s s' hs ⟨p, call, v, hn, hcall⟩ => by
    obtain ⟨v', s'', hcall', hs'⟩ := hs.call p hn
    cases hcall.symm.trans hcall'
    exact hs') hrun
      ⟨fun o ho => absurd ho (hc o), fun _ => ⟨zero_le _, zero_lt_succ _, rfl⟩, fun _ => rfl⟩
  refine ⟨fun i => ⟨hs.fifo i, ?_⟩, fun p call hn hnone => ?_⟩
  · rw [PipeBuffer.queue, PipeBuffer.ring, length_ringSlice]
    exact (hs.ok i).count
  · obtain ⟨v, s', hcall, -⟩ := hs.call p hn
    simp [hcall] at hnone

/-- After the boot pipe 0 is allocated. -/
def bootPipes : Pipes := .start bootCaps (· == 0)

/-- Process 0 opens pipe 0 both ways, writes three bytes and reads two. -/
theorem pipes_fifo_boot : ∃ s, Relation.ReflTransGen Pipes.Step bootPipes s ∧ s.got 0 = [1, 2] ∧
    [1, 2] ++ (s.pipes 0).queue = [1, 2, 3] := by
  have hrun : (runList (fun s call => if s.Allocated 0 then (s.call 0 call).map Prod.snd else none)
      [.open 0 1, .open 0 0, .write 0 [1, 2, 3], .read 1 2] bootPipes).map
        (fun s => (s.got 0, s.wrote 0)) = some ([1, 2], [1, 2, 3]) := by decide +kernel
  obtain ⟨s, hs, hlog⟩ := map_eq_some_iff.mp hrun
  obtain ⟨hgot, hwrote⟩ := Prod.mk.inj hlog
  have hsteps : Relation.ReflTransGen Pipes.Step bootPipes s := runList_run (fun s s' call hcall h => by
    obtain ⟨h0, h⟩ := ite_none_right_eq_some.mp h
    obtain ⟨r, hr, rfl⟩ := map_eq_some_iff.mp h
    refine ⟨0, call, r.1, fun a1 a2 heq => ?_, hr⟩
    simp only [heq, mem_cons, PipeCall.open.injEq, reduceCtorEq, not_mem_nil, or_false] at hcall
    obtain ⟨rfl, -⟩ | ⟨rfl, -⟩ := hcall <;> exact h0) hs
  have hfifo := ((pipes_fifo (fun _ => ObjType.noConfusion) _ hsteps).1 0).1
  rw [hgot, hwrote] at hfifo
  exact ⟨s, hsteps, hgot, hfifo⟩

/-- 52 gives process 0 a handle on pipe 99, and a write through it leaves `g_pipes`. -/
theorem pipe_unchecked : ¬ bootPipes.Allocated (toInt32 99) ∧ (bootPipes.call 0 (.open 99 1)).map Prod.fst = some 0 ∧
    ((bootPipes.call 0 (.open 99 1)).bind fun r => r.2.call 0 (.write 0 [7])).isNone = true :=
  ⟨fun h => absurd h.2.1 (by decide), by decide +kernel, by decide +kernel⟩

end MinicOs
