import MinicOs.Proc.Preempt
import MinicOs.Syscall.Dispatch

/-!
# Only signed images run

The shell's `spawn` command is a preemptible kernel task: `vfs_read` into `g_loaded_image_buf`,
`exec_sign_verify`, then the page-by-page copy of `spawn_process`, which reads the buffer again. Its
steps here are single bytes: what the file system delivers, what the verification reads (in the
order `exec_sign_verify` reads it), what the copy loop copies. In between, processes make syscalls
6, 11, 14 and 15, each with interrupts off; everything else that leaves the image buffers alone is
one more kind of step.

Beside the kernel's state the model logs every image that `exec_sign_verify` accepts (`accepted`)
and, for every process started from storage, the bytes copied into its image pages (`started`).
-/

namespace MinicOs

open List Function Option

/-- The bytes of an image of `n` bytes, in the order `exec_sign_verify` reads them: the magic, the
payload length, the payload (for the HMAC), the HMAC field. -/
def verifyOrder (n : Nat) : List Nat :=
  range' 0 4 ++ range' 36 4 ++ range' 40 (n - 40) ++ range' 4 32

/-- Where the shell's `spawn_process_from_path` stands: in `vfs_read`; in `exec_sign_verify`, with
the bytes still to be read and those it has seen; in `spawn_process`, with the bytes copied. -/
inductive ShellPc
  | idle
  | reading
  | verify (n : Nat) (todo : List Nat) (seen : Nat → U8)
  | spawn (len : Nat) (pc : SpawnPc) (copied : List U8)

/-- The kernel, the shell, the images accepted and the images started. -/
structure Loader where
  kernel : Kernel
  shell : ShellPc
  accepted : List (List U8)
  started : List (List U8)

/-- What can happen. `other` is any step of the rest of the system, which leaves
`g_loaded_image_buf` and the registered services alone. -/
inductive LoadEvent
  | shellCall
  | shellDeliver (bytes : FileRead)
  | shellReadDone (n : Int)
  | shellVerify
  | shellSpawn
  | syscall (t : Int) (call : Call) (env : Env)
  | other (k : Kernel)

/-- The arguments `cmd_spawn` has for an image of `len` bytes. -/
def shellArgs (len : Nat) : SpawnArgs :=
  { size := len, loadVaddr := 0x80000000, stackVaddr := 0x80020000, sandboxed := true }

/-- What the shell's image pointer reads: the buffer past the header, as it is now. -/
def Kernel.imagePayload (k : Kernel) : Nat → U8 := fun i => k.imageBuf (execSignHeaderSize + i)

/-- The byte that a step of `spawn_process` copies. -/
def copiedByte (a : SpawnArgs) (image : Nat → U8) : SpawnPc → List U8
  | .copy _ _ j _ i => if i < 4096 ∧ j * 4096 + i < a.size then [image (j * 4096 + i)] else []
  | _ => []

/-- The image `exec_sign_verify` accepts in the first `count` bytes of a buffer. -/
def acceptedImage (buf : Nat → U8) (count : Int) : Option (List U8) :=
  if count < 0 then none
  else if (execSignVerify (bufBytes buf count.toNat)).isSome = true then
    some (bufBytes buf count.toNat)
  else none

/-- The image a syscall verifies and accepts. -/
def acceptedBy (k : Kernel) (t : Int) (call : Call) (env : Env) : Option (List U8) :=
  if sandboxDenies k.caps (k.processOf t) call.num = true then none
  else
    match call.num.toNat with
    | 6 => acceptedImage (env.file.into k.imageBuf) env.file.count
    | 14 =>
      match scan registeredServiceSlots fun i => !(k.services i).used with
      | none => none
      | some slot => acceptedImage (env.file.into (k.services slot).buf) env.file.count
    | _ => none

/-- The image from storage that a syscall hands to `spawn_process`. -/
def loadedBy (k : Kernel) (t : Int) (call : Call) (env : Env) : Option (List U8) :=
  if sandboxDenies k.caps (k.processOf t) call.num = true then none
  else
    match call.num.toNat with
    | 6 => (acceptedImage (env.file.into k.imageBuf) env.file.count).bind execSignVerify
    | 11 =>
      if toInt32 call.a1 ≠ 0 then builtinProgram k (toInt32 call.a1) env.builtin else none
    | _ => none

/-- The effect of an event; `none` if it cannot happen, or when the machine stops. -/
def Loader.step (s : Loader) : LoadEvent → Option Loader
  | .shellCall =>
    match s.shell with
    | .idle => some { s with shell := .reading }
    | _ => none
  | .shellDeliver bytes =>
    match s.shell with
    | .reading => some { s with kernel := { s.kernel with imageBuf := bytes.into s.kernel.imageBuf } }
    | _ => none
  | .shellReadDone n =>
    match s.shell with
    | .reading =>
      if n < 0 then some { s with shell := .idle }
      else some { s with shell := .verify n.toNat (verifyOrder n.toNat) fun _ => 0 }
    | _ => none
  | .shellVerify =>
    match s.shell with
    | .verify n (i :: todo) seen =>
      some { s with shell := .verify n todo (Function.update seen i (s.kernel.imageBuf i)) }
    | .verify n [] seen =>
      match execSignVerify (bufBytes seen n) with
      | none => some { s with shell := .idle }
      | some payload =>
        some { s with
          shell := .spawn payload.length (.scan 0) [], accepted := bufBytes seen n :: s.accepted }
    | _ => none
  | .shellSpawn =>
    match s.shell with
    | .spawn len pc copied =>
      let copied := copied ++ copiedByte (shellArgs len) s.kernel.imagePayload pc
      match spawnStep (shellArgs len) s.kernel.imagePayload s.kernel pc with
      | none => none
      | some (.done r, k') =>
        some { s with
          kernel := k', shell := .idle, started := if r < 0 then s.started else copied :: s.started }
      | some (pc', k') => some { s with kernel := k', shell := .spawn len pc' copied }
    | _ => none
  | .syscall t call env =>
    if call.num.toNat = 6 ∨ call.num.toNat = 11 ∨ call.num.toNat = 14 ∨ call.num.toNat = 15 then
      match syscallDispatch s.kernel t call env with
      | none => none
      | some (o, k') =>
        some { s with
          kernel := k'
          accepted := (acceptedBy s.kernel t call env).toList ++ s.accepted
          started := if o = .ret errU64 then s.started
            else (loadedBy s.kernel t call env).toList ++ s.started }
    else none
  | .other k' => some { s with
      kernel := { k' with imageBuf := s.kernel.imageBuf, services := s.kernel.services } }

/-- The shell stands between the end of its `vfs_read` and the end of its copy loop. -/
def ShellPc.exposed : ShellPc → Bool
  | .verify _ _ _ => true
  | .spawn _ pc _ =>
    match pc with
    | .stack _ _ => false
    | .register _ _ => false
    | _ => true
  | _ => false

/-- No syscall 6 gets past the sandbox while the shell has verified its image and not yet copied
it. -/
def Loader.Undisturbed (s : Loader) : LoadEvent → Prop
  | .syscall t call _ => s.shell.exposed = true → call.num.toNat = 6 →
      sandboxDenies s.kernel.caps (s.kernel.processOf t) call.num = true
  | _ => True

instance (s : Loader) (ev : LoadEvent) : Decidable (s.Undisturbed ev) := by
  cases ev <;> unfold Loader.Undisturbed <;> infer_instance

def Loader.Step (s s' : Loader) : Prop := ∃ ev, s.step ev = some s'

/-- A step that meets the condition. -/
def Loader.UndisturbedStep (s s' : Loader) : Prop := ∃ ev, s.Undisturbed ev ∧ s.step ev = some s'

/-- The image is one that was verified and accepted: `header ++ payload`, with the HMAC of the
payload in the header. -/
def Loader.Signed (s : Loader) (payload : List U8) : Prop :=
  ∃ image ∈ s.accepted, execSignVerify image = some payload

/-! ## Buffers -/

theorem bufBytes_getElem? (buf : Nat → U8) (n i : Nat) : (bufBytes buf n)[i]? = if i < n then some (buf i) else none := by
  unfold bufBytes
  by_cases hi : i < n
  · simp [hi]
  · simp [hi]

variable {n : Nat}

theorem bufBytes_congr {buf buf' : Nat → U8} (h : ∀ i, i < n → buf i = buf' i) : bufBytes buf n = bufBytes buf' n := by
  exact map_congr_left fun i hi => h i (mem_range.mp hi)

/-- Stripping the header in place shifts the payload down: the copy goes upwards and reads ahead of
what it writes. -/
theorem stripHeader_eq (buf : Nat → U8) (n : Nat) :
    stripHeader buf n = fun j => if j < n then buf (execSignHeaderSize + j) else buf j := by
  unfold stripHeader
  induction n with
  | zero => funext j; simp
  | succ n ih =>
    rw [range_succ, foldl_append, ih]
    funext j
    simp only [foldl_cons, foldl_nil, update_apply]
    grind

/-- What `exec_sign_verify` accepts in a buffer is the buffer past the header. -/
theorem execSignVerify_bufBytes {buf : Nat → U8} {payload : List U8} (h : execSignVerify (bufBytes buf n) = some payload) :
    execSignHeaderSize ≤ n ∧ payload.length = n - execSignHeaderSize ∧
      payload = bufBytes (fun i => buf (execSignHeaderSize + i)) payload.length := by
  obtain ⟨header, himage, hlen, -⟩ := execSignVerify_eq_some h
  have hn := congrArg List.length himage
  rw [bufBytes_length, length_append, hlen] at hn
  refine ⟨by omega, by omega, ext_getElem? fun i => ?_⟩
  rw [bufBytes_getElem?]
  have hi : (header ++ payload)[execSignHeaderSize + i]? = payload[i]? := by
    rw [getElem?_append_right (by omega), hlen, Nat.add_sub_cancel_left]
  rw [← himage, bufBytes_getElem?] at hi
  rw [← hi]
  by_cases hlt : i < payload.length
  · rw [if_pos hlt, if_pos (by omega)]
  · rw [if_neg hlt, if_neg (by omega)]

variable {k k' : Kernel}

theorem registerSpawn_buffers {slot r : Int} {cr3 loadVaddr stackVaddr : U64} {sandboxed : Bool}
    (h : registerSpawn k slot cr3 loadVaddr stackVaddr sandboxed = some (r, k')) :
    k'.services = k.services ∧ k'.imageBuf = k.imageBuf := by
  obtain ⟨t, mm, sched, -, ⟨-, -, rfl⟩ | ⟨-, -, rfl⟩⟩ := registerSpawn_cases h
  · exact ⟨rfl, rfl⟩
  · exact ⟨rfl, rfl⟩

theorem spawnProcess_buffers {image : List U8} {loadVaddr stackVaddr : U64} {sandboxed : Bool} {r : Int}
    (h : spawnProcess k image loadVaddr stackVaddr sandboxed = some (r, k')) :
    k'.services = k.services ∧ k'.imageBuf = k.imageBuf := by
  rcases spawnProcess_cases h with ⟨-, ⟨-, rfl⟩ | ⟨-, rfl⟩⟩ | ⟨slot, -, -, hreg⟩
  · exact ⟨rfl, rfl⟩
  · exact ⟨rfl, rfl⟩
  · exact (registerSpawn_buffers hreg :)

theorem spawnStep_buffers {a : SpawnArgs} {image : Nat → U8} {pc pc' : SpawnPc}
    (h : spawnStep a image k pc = some (pc', k')) : k'.services = k.services ∧ k'.imageBuf = k.imageBuf := by
  cases pc with
  | register slot cr3 =>
    obtain ⟨⟨r, k1⟩, hreg, heq⟩ := map_eq_some_iff.mp h
    obtain ⟨-, rfl⟩ := heq
    exact registerSpawn_buffers hreg
  | done r => simp [spawnStep] at h
  | _ =>
    simp only [spawnStep] at h
    repeat' split at h
    all_goals
      obtain ⟨-, rfl⟩ := h
      exact ⟨rfl, rfl⟩

/-! ## The syscalls -/

/-- Every used service slot holds a signed payload. -/
def ServicesSigned (accepted : List (List U8)) (services : Int → RegisteredService) : Prop :=
  ∀ i, (services i).used = true → ∃ image ∈ accepted,
    execSignVerify image = some (bufBytes (services i).buf (services i).len)

variable {acc : List (List U8)}

theorem ServicesSigned.mono {acc' : List (List U8)} {sv : Int → RegisteredService} (h : ServicesSigned acc sv)
    (hsub : acc ⊆ acc') : ServicesSigned acc' sv := by
  intro i hi
  obtain ⟨image, hm, hv⟩ := h i hi
  exact ⟨image, hsub hm, hv⟩

/-- Writing a slot that is unused or holds a signed payload. -/
theorem ServicesSigned.update {sv : Int → RegisteredService} (h : ServicesSigned acc sv) {slot : Int}
    {v : RegisteredService} (hv : v.used = true → ∃ image ∈ acc, execSignVerify image = some (bufBytes v.buf v.len)) :
    ServicesSigned acc (Function.update sv slot v) := by
  intro i hi
  by_cases his : i = slot
  · subst his
    rw [update_self] at hi ⊢
    exact hv hi
  · rw [update_of_ne his] at hi ⊢
    exact h i hi

/-- Syscall 14 registers only what it has verified, with the header stripped. -/
theorem registerService_signed (file : FileRead) (h : ServicesSigned acc k.services) :
    (registerService k file).2.imageBuf = k.imageBuf ∧
      ServicesSigned ((match scan registeredServiceSlots fun i => !(k.services i).used with
        | none => none
        | some slot => acceptedImage (file.into (k.services slot).buf) file.count).toList ++ acc)
        (registerService k file).2.services := by
  unfold registerService
  cases hs : scan registeredServiceSlots fun i => !(k.services i).used with
  | none => exact ⟨rfl, by simpa using h⟩
  | some slot =>
    have hu : (k.services slot).used = false := by simpa using (scan_eq_some.mp hs).2.1
    have hmono : ServicesSigned ((acceptedImage (file.into (k.services slot).buf)
        file.count).toList ++ acc) k.services := h.mono (subset_append_right _ _)
    -- A failed registration leaves the slot unused.
    have hfail : ServicesSigned _ (Function.update k.services slot
        { k.services slot with buf := file.into (k.services slot).buf }) :=
      hmono.update fun hv => absurd hv (by simp [hu])
    simp only
    split
    · exact ⟨rfl, hfail⟩
    rename_i hc
    split
    · exact ⟨rfl, hfail⟩
    rename_i payload hv
    refine ⟨rfl, ?_⟩
    simp only [update_idem]
    refine hmono.update fun _ => ⟨bufBytes (file.into (k.services slot).buf) file.count.toNat, ?_, ?_⟩
    · have : acceptedImage (file.into (k.services slot).buf) file.count =
          some (bufBytes (file.into (k.services slot).buf) file.count.toNat) := by
        unfold acceptedImage
        rw [if_neg hc, if_pos (by rw [hv]; rfl)]
      rw [this]
      exact mem_append_left _ (by simp)
    · rw [hv]
      obtain ⟨-, -, hp⟩ := execSignVerify_bufBytes hv
      refine congrArg some (hp.trans (bufBytes_congr fun j hj => ?_))
      rw [stripHeader_eq]
      simp only [if_pos hj]

theorem unregisterService_signed (index : Int) (h : ServicesSigned acc k.services) :
    (unregisterService k index).2.imageBuf = k.imageBuf ∧ ServicesSigned acc (unregisterService k index).2.services := by
  unfold unregisterService
  simp only
  split
  · exact ⟨rfl, h⟩
  · exact ⟨rfl, h.update fun hv => absurd hv (by simp)⟩

theorem spawnResult_eq_some {r : Option (Int × Kernel)} {o : Outcome} (h : spawnResult r = some (o, k')) :
    ∃ p, r = some (p, k') := by
  obtain ⟨⟨p, k1⟩, hr, heq⟩ := map_eq_some_iff.mp h
  cases heq
  exact ⟨p, hr⟩

/-- Syscall 6 reads into the image buffer and keeps the services; it loads what it accepts. -/
theorem spawnProcessFromPath_buffers {file : FileRead} {l st : U64} {r : Int}
    (h : spawnProcessFromPath k file l st = some (r, k')) : k'.services = k.services := by
  unfold spawnProcessFromPath at h
  simp only at h
  split at h
  · cases h
    rfl
  split at h
  · cases h
    rfl
  · exact (spawnProcess_buffers h).1

/-- **What one of the four syscalls does to the buffers**: the services stay signed, what it loads
is signed, and only a syscall 6 that passes the sandbox touches the shell's buffer. -/
theorem syscall_signed {t : Int} {call : Call} {env : Env} {o : Outcome}
    (hnum : call.num.toNat = 6 ∨ call.num.toNat = 11 ∨ call.num.toNat = 14 ∨ call.num.toNat = 15)
    (h : syscallDispatch k t call env = some (o, k')) (hs : ServicesSigned acc k.services) :
    ServicesSigned ((acceptedBy k t call env).toList ++ acc) k'.services ∧ (∀ payload ∈ (loadedBy k t call env).toList,
        ∃ image ∈ (acceptedBy k t call env).toList ++ acc, execSignVerify image = some payload) ∧ (k'.imageBuf = k.imageBuf ∨
        (call.num.toNat = 6 ∧ sandboxDenies k.caps (k.processOf t) call.num = false)) := by
  cases hden : sandboxDenies k.caps (k.processOf t) call.num with
  | true =>
    unfold syscallDispatch at h
    rw [if_pos hden] at h
    rw [done_eq h]
    refine ⟨?_, ?_, Or.inl rfl⟩
    · simpa [acceptedBy, hden] using hs
    · simp [loadedBy, hden]
  | false =>
    -- the four syscalls are handled by `syscall_process`
    have hp : some (syscallDispatch k t call env) = syscallProcess k t call env := by
      unfold syscallDispatch
      rw [if_neg (by simp [hden])]
      unfold handlers runHandlers
      rcases hnum with h | h | h | h <;> simp only [syscallCore, h, runHandlers, syscallProcess]
    rw [h] at hp
    unfold acceptedBy loadedBy
    rw [if_neg (by simp [hden]), if_neg (by simp [hden])]
    rcases hnum with hn | hn | hn | hn <;> simp only [syscallProcess, hn] at hp ⊢ <;>
      have hp := (some.inj hp).symm
    · obtain ⟨r, hr⟩ := spawnResult_eq_some hp
      refine ⟨?_, fun payload hm => ?_, Or.inr ⟨trivial, trivial⟩⟩
      · rw [spawnProcessFromPath_buffers hr]
        exact hs.mono (subset_append_right _ _)
      · obtain ⟨image, hi, hv⟩ := bind_eq_some_iff.mp (mem_toList.mp hm)
        exact ⟨image, mem_append_left _ (mem_toList.mpr hi), hv⟩
    · refine ⟨?_, fun payload hm => ?_, Or.inl ?_⟩
      · split at hp
        · rw [done_eq hp]; simpa using hs
        · obtain ⟨r, hr⟩ := spawnResult_eq_some hp
          rw [(spawnProcess_buffers hr).1]
          simpa using hs
      · have hm := mem_toList.mp hm
        split at hm
        · unfold builtinProgram at hm
          rename_i h0
          rw [if_neg h0] at hm
          simp only at hm
          split at hm
          · rename_i hused
            cases hm
            simpa using hs _ hused.2.2
          · simp at hm
        · simp at hm
      · split at hp
        · rw [done_eq hp]
        · obtain ⟨r, hr⟩ := spawnResult_eq_some hp
          exact (spawnProcess_buffers hr).2
    · rw [done_eq hp]
      obtain ⟨h1, h2⟩ := registerService_signed env.file hs
      exact ⟨h2, by simp, Or.inl h1⟩
    · rw [done_eq hp]
      obtain ⟨h1, h2⟩ := unregisterService_signed (toInt32 call.a1) hs
      exact ⟨by simpa using h2, by simp, Or.inl h1⟩

/-! ## The invariant -/

/-- How many bytes the copy loop has copied. -/
def SpawnPc.progress (len : Nat) : SpawnPc → Nat
  | .page _ _ j => min (j * 4096) len
  | .copy _ _ j _ i => min (j * 4096 + i) len
  | .stack _ _ => len
  | .register _ _ => len
  | _ => 0

/-- The copy loop is still to read the buffer. -/
def SpawnPc.copying : SpawnPc → Bool
  | .stack _ _ => false
  | .register _ _ => false
  | _ => true

/-- The index into the page is at most the page size. -/
def SpawnPc.inPage : SpawnPc → Prop
  | .copy _ _ _ _ i => i ≤ 4096
  | _ => True

/-- The shell has seen the buffer as it is, or copied a prefix of a signed payload that the buffer
still holds while there is more to copy. -/
def Loader.ShellOk (s : Loader) : Prop :=
  match s.shell with
  | .idle => True
  | .reading => True
  | .verify n todo seen => n < execSignHeaderSize ∨
      ∀ i, i < n → i ∉ todo → seen i = s.kernel.imageBuf i
  | .spawn len pc copied => pc.inPage ∧ ∃ payload, s.Signed payload ∧ payload.length = len ∧
      copied = payload.take (pc.progress len) ∧
      (pc.copying = true → payload = bufBytes s.kernel.imagePayload len)

/-- What every undisturbed step keeps. -/
structure Loader.Inv (s : Loader) : Prop where
  services : ServicesSigned s.accepted s.kernel.services
  shell : s.ShellOk
  started : ∀ image ∈ s.started, s.Signed image

variable {s s' : Loader}

theorem Loader.Signed.mono {payload : List U8} (h : s.Signed payload)
    (hsub : s.accepted ⊆ s'.accepted) : s'.Signed payload := by
  obtain ⟨image, hm, hv⟩ := h
  exact ⟨image, hsub hm, hv⟩

/-- The order of the verification leaves no byte out. -/
theorem mem_verifyOrder {i : Nat} (hn : execSignHeaderSize ≤ n) (hi : i < n) : i ∈ verifyOrder n := by
  have h40 : execSignHeaderSize = 40 := rfl
  unfold verifyOrder
  simp only [mem_append, mem_range'_1]
  omega

/-- A step of `spawn_process` copies the next bytes of the image it reads. -/
theorem spawnStep_progress {len : Nat} {image : Nat → U8} {pc pc' : SpawnPc}
    (h : spawnStep (shellArgs len) image k pc = some (pc', k')) (hin : pc.inPage) :
    pc'.inPage ∧ (∀ r, pc' = .done r → 0 ≤ r → pc.progress len = len ∧ pc.copying = false) ∧
      ((∀ r, pc' ≠ .done r) → (pc'.copying = true → pc.copying = true) ∧
        (pc.copying = true → (bufBytes image len).take (pc'.progress len) =
          (bufBytes image len).take (pc.progress len) ++ copiedByte (shellArgs len) image pc) ∧
        (pc.copying = false → pc'.progress len = len ∧ pc.progress len = len ∧
          copiedByte (shellArgs len) image pc = [])) := by
  have hsize : (shellArgs len).size = len := rfl
  cases pc with
  | page slot cr3 j =>
    simp only [spawnStep] at h
    split at h
    · repeat' split at h
      all_goals
        obtain ⟨rfl, rfl⟩ := h
        simp [SpawnPc.inPage, SpawnPc.progress, SpawnPc.copying, copiedByte]
    · rename_i hj
      obtain ⟨rfl, rfl⟩ := h
      have : min (j * 4096) len = len := by
        unfold imagePages at hj
        omega
      simp [SpawnPc.inPage, SpawnPc.progress, SpawnPc.copying, copiedByte, this]
  | copy slot cr3 j frame i =>
    have hin : i ≤ 4096 := hin
    simp only [spawnStep] at h
    split at h
    · rename_i hc
      obtain ⟨rfl, rfl⟩ := h
      rw [hsize] at hc
      have hb : (bufBytes image len)[j * 4096 + i]? = some (image (j * 4096 + i)) := by
        rw [bufBytes_getElem?, if_pos hc.2]
      have h1 : min (j * 4096 + (i + 1)) len = j * 4096 + i + 1 := by omega
      have h2 : min (j * 4096 + i) len = j * 4096 + i := by omega
      refine ⟨show i + 1 ≤ 4096 by omega, by simp, fun _ => ⟨fun h => h, fun _ => ?_, by
        simp [SpawnPc.copying]⟩⟩
      simp only [SpawnPc.progress, h1, h2, copiedByte, hsize, if_pos hc, take_add_one, hb, toList_some]
    · rename_i hc
      obtain ⟨rfl, rfl⟩ := h
      rw [hsize] at hc
      have h1 : min ((j + 1) * 4096) len = min (j * 4096 + i) len := by omega
      refine ⟨trivial, by simp, fun _ => ⟨fun h => h, fun _ => ?_, by simp [SpawnPc.copying]⟩⟩
      simp only [SpawnPc.progress, h1, copiedByte, hsize, if_neg hc, append_nil]
  | register slot cr3 =>
    obtain ⟨⟨r, k1⟩, -, heq⟩ := map_eq_some_iff.mp h
    obtain ⟨rfl, rfl⟩ := heq
    simp [SpawnPc.inPage, SpawnPc.progress, SpawnPc.copying]
  | done r => simp [spawnStep] at h
  | _ =>
    simp only [spawnStep] at h
    repeat' split at h
    all_goals
      obtain ⟨rfl, rfl⟩ := h
      simp [SpawnPc.inPage, SpawnPc.progress, SpawnPc.copying, copiedByte]

/-- The shell's state stays right when more images are accepted and the buffer does not change
while it matters. -/
theorem Loader.ShellOk.mono (h : s.ShellOk) (hshell : s'.shell = s.shell)
    (hbuf : s.shell.exposed = true → s'.kernel.imageBuf = s.kernel.imageBuf)
    (hacc : s.accepted ⊆ s'.accepted) : s'.ShellOk := by
  unfold Loader.ShellOk at h ⊢
  rw [hshell]
  split at h
  · trivial
  · trivial
  · rename_i hv
    rw [hbuf (by rw [hv]; rfl)]
    exact h
  · rename_i pc _ hv
    obtain ⟨hin, payload, hsig, hlen, hcopied, hrest⟩ := h
    refine ⟨hin, payload, hsig.mono hacc, hlen, hcopied, fun hc => ?_⟩
    unfold Kernel.imagePayload
    rw [hbuf (by rw [hv]; cases pc <;> simp_all [ShellPc.exposed, SpawnPc.copying])]
    exact hrest hc

theorem Loader.Inv.shellVerify (hi : s.Inv) (h : s.step .shellVerify = some s') : s'.Inv := by
  have hok := hi.shell
  unfold Loader.ShellOk at hok
  simp only [Loader.step] at h
  split at h
  · -- One more byte is read.
    rename_i n i todo seen hshell
    cases h
    simp only [hshell] at hok
    refine ⟨hi.services, ?_, hi.started⟩
    refine hok.imp id fun hseen j hj hnot => ?_
    by_cases hji : j = i
    · subst hji
      rw [update_self]
    · rw [update_of_ne hji]
      exact hseen j hj fun hmem => (mem_cons.mp hmem).elim hji hnot
  · -- The verdict.
    rename_i n seen hshell
    simp only [hshell] at hok
    split at h
    · cases h
      exact ⟨hi.services, trivial, hi.started⟩
    · rename_i payload hv
      cases h
      have hsub : s.accepted ⊆ bufBytes seen n :: s.accepted := subset_cons_self _ _
      refine ⟨hi.services.mono hsub, ⟨trivial, payload, ⟨_, mem_cons_self, hv⟩, rfl, rfl,
        fun _ => ?_⟩, fun image hm => (hi.started image hm).mono hsub⟩
      obtain ⟨hn, hlen, hp⟩ := execSignVerify_bufBytes hv
      have hseen := hok.resolve_left (by omega)
      refine hp.trans (bufBytes_congr fun i hi => ?_)
      exact hseen _ (by omega) (by simp)
  · simp at h

theorem Loader.Inv.shellSpawn (hi : s.Inv) (h : s.step .shellSpawn = some s') : s'.Inv := by
  have hok := hi.shell
  unfold Loader.ShellOk at hok
  simp only [Loader.step] at h
  split at h
  swap
  · simp at h
  rename_i len pc copied hshell
  simp only [hshell] at hok
  obtain ⟨hin, payload, hsig, hlen, rfl, hbuf⟩ := hok
  split at h
  · simp at h
  · -- The call returns; if it succeeded, the whole payload was copied.
    rename_i r k' hstep
    cases h
    obtain ⟨hsv, -⟩ := spawnStep_buffers hstep
    refine ⟨by simpa only [hsv] using hi.services, trivial, fun image hm => ?_⟩
    split at hm
    · exact hi.started image hm
    · rename_i hr
      rcases mem_cons.mp hm with rfl | hm
      · obtain ⟨hprog, hcop⟩ := (spawnStep_progress hstep hin).2.1 r rfl (by omega)
        have hbyte : copiedByte (shellArgs len) s.kernel.imagePayload pc = [] := by
          cases pc <;> simp_all [SpawnPc.copying, copiedByte]
        rw [hprog, hbyte, ← hlen, take_length, append_nil]
        exact hsig
      · exact hi.started image hm
  · -- The call goes on.
    rename_i pc' k' hnd hstep
    cases h
    obtain ⟨hsv, hib⟩ := spawnStep_buffers hstep
    obtain ⟨hin', -, hgo⟩ := spawnStep_progress hstep hin
    obtain ⟨hmono, hcop, hfin⟩ := hgo hnd
    refine ⟨by simpa only [hsv] using hi.services,
      ⟨hin', payload, hsig, hlen, ?_, fun hc => ?_⟩, hi.started⟩
    · cases hpc : pc.copying with
      | true =>
        rw [hbuf hpc]
        exact (hcop hpc).symm
      | false =>
        obtain ⟨h1, h2, h3⟩ := hfin hpc
        rw [h1, h2, h3, append_nil]
    · unfold Kernel.imagePayload
      rw [hib]
      exact hbuf (hmono hc)

/-- **One undisturbed step** keeps the invariant. -/
theorem Loader.Inv.step {s s' : Loader} (hi : s.Inv) (hs : s.UndisturbedStep s') : s'.Inv := by
  obtain ⟨ev, hund, h⟩ := hs
  cases ev with
  | shellCall =>
    simp only [Loader.step] at h
    split at h
    · cases h
      exact ⟨hi.services, trivial, hi.started⟩
    · simp at h
  | shellDeliver bytes =>
    simp only [Loader.step] at h
    split at h
    · rename_i hshell
      cases h
      refine ⟨hi.services, ?_, hi.started⟩
      unfold Loader.ShellOk
      simp only [hshell]
    · simp at h
  | shellReadDone n =>
    simp only [Loader.step] at h
    split at h
    · split at h
      · cases h
        exact ⟨hi.services, trivial, hi.started⟩
      · cases h
        refine ⟨hi.services, ?_, hi.started⟩
        by_cases hn : n.toNat < execSignHeaderSize
        · exact .inl hn
        · exact .inr fun i hi hnot => absurd (mem_verifyOrder (by omega) hi) hnot
    · simp at h
  | shellVerify => exact hi.shellVerify h
  | shellSpawn => exact hi.shellSpawn h
  | syscall t call env =>
    simp only [Loader.step] at h
    split at h
    swap
    · simp at h
    rename_i hnum
    split at h
    · simp at h
    rename_i o k' hcall
    cases h
    obtain ⟨hsv, hload, hbuf⟩ := syscall_signed hnum hcall hi.services
    have hsub : s.accepted ⊆ (acceptedBy s.kernel t call env).toList ++ s.accepted := subset_append_right _ _
    refine ⟨hsv, ?_, fun image hm => ?_⟩
    · refine hi.shell.mono rfl (fun hexp => hbuf.resolve_right fun ⟨h6, hden⟩ => ?_) hsub
      rw [hund hexp h6] at hden
      exact Bool.noConfusion hden
    · simp only at hm
      split at hm
      · exact (hi.started image hm).mono hsub
      · rcases mem_append.mp hm with hm | hm
        · exact hload image hm
        · exact (hi.started image hm).mono hsub
  | other k' =>
    cases h
    exact ⟨hi.services, hi.shell.mono rfl (fun _ => rfl) (Subset.refl _), hi.started⟩

/-- At boot nothing has been accepted or started. -/
def Loader.boot (k : Kernel) : Loader := { kernel := k, shell := .idle, accepted := [], started := [] }

theorem Loader.boot_inv (h : Boot k) : (Loader.boot k).Inv :=
  ⟨fun i hi => absurd hi (by simp [boot, h.services i]), trivial, by simp [boot]⟩

/-- **Only signed images run.** In every interleaving in which no syscall 6 disturbs the shell's
buffer between its verification and the end of its copy loop, the bytes copied for a process
started from storage are the payload of an image that `exec_sign_verify` accepted, one whose header
carries the HMAC of these bytes. -/
theorem signed_run {k : Kernel} (h : Boot k) {s : Loader}
    (hrun : Relation.ReflTransGen Loader.UndisturbedStep (Loader.boot k) s) :
    ∀ payload ∈ s.started, ∃ image ∈ s.accepted, execSignVerify image = some payload ∧
      ∃ header, image = header ++ payload ∧ header.length = execSignHeaderSize ∧
        (header.drop 4).take 32 = hmacSha256 execSigningKey payload := by
  intro payload hp
  have hi := run_inv (fun _ _ hi hs => Loader.Inv.step hi hs) hrun (Loader.boot_inv h)
  obtain ⟨image, hm, hv⟩ := hi.started payload hp
  exact ⟨image, hm, hv, execSignVerify_eq_some hv⟩

/-! ## Two runs of the shell -/

/-- The one-byte program `0x90` with the header `exec_sign_produce` makes for it. -/
def signedImage : List U8 := [
  0x53, 0x47, 0x4e, 0x31, 0x72, 0xed, 0x84, 0xab, 0x6a, 0x5b, 0x52, 0x95, 0xf9, 0x9d, 0xcd, 0x10,
  0x68, 0xa3, 0x95, 0xfe, 0x10, 0x93, 0x63, 0xe5, 0xe1, 0xfd, 0x1b, 0x59, 0x72, 0xdb, 0x3c, 0x26,
  0xaa, 0xe9, 0x12, 0x99, 0x01, 0x00, 0x00, 0x00, 0x90]

/-- The shell reads the signed image and verifies it, in a system with one process. -/
def shellVerifies (sandboxed : Bool) : List LoadEvent :=
  [.other (spawned bootKernel sandboxed), .shellCall, .shellDeliver ⟨signedImage, 41⟩,
    .shellReadDone 41] ++ List.replicate 42 .shellVerify

/-- The process asks to spawn a file of 41 zero bytes, which is not signed. -/
def unsignedSpawn : LoadEvent :=
  .syscall 1 ⟨6, 0, 0x80000000, 0x80020000⟩
    { slot := 0, value := 0, refused := false, file := ⟨List.replicate 41 0, 41⟩, builtin := [],
      loadVaddr := 0, regs := fun _ => 0 }

/-- The rest of the shell's `spawn_process`. -/
def shellLoads : List LoadEvent := List.replicate 10 .shellSpawn

set_option maxRecDepth 100000 in
theorem shellLoads_signed : (runList (fun s ev => if s.Undisturbed ev then s.step ev else none)
    (shellVerifies true ++ unsignedSpawn :: shellLoads) (Loader.boot bootKernel)).map (fun s => s.started) =
      some [[0x90]] := by
  decide +kernel

set_option maxRecDepth 100000 in
theorem shellLoads_unsigned : (runList Loader.step (shellVerifies false ++ unsignedSpawn :: shellLoads)
    (Loader.boot bootKernel)).map (fun s => (s.accepted, s.started)) = some ([signedImage], [[0x00]]) := by
  decide +kernel

/-- The shell starts the program that was signed; a spawn of the sandboxed process is denied in between. -/
theorem signed_run_shell : ∃ s, Relation.ReflTransGen Loader.UndisturbedStep (Loader.boot bootKernel) s ∧
    s.started = [[0x90]] ∧ ∃ image ∈ s.accepted, execSignVerify image = some [0x90] := by
  obtain ⟨s, hs, hst⟩ := map_eq_some_iff.mp shellLoads_signed
  have hrun : Relation.ReflTransGen Loader.UndisturbedStep (Loader.boot bootKernel) s :=
    runList_run (fun s s' ev _ h => ⟨ev, ite_none_right_eq_some.mp h⟩) hs
  obtain ⟨image, hm, hv, -⟩ := signed_run bootKernel_boot hrun [0x90] (by rw [hst]; simp)
  exact ⟨s, hrun, hst, image, hm, hv⟩

/-- **A syscall 6 between the shell's verification and its copy** makes it start a byte that was
never verified. -/
theorem unsigned_starts : Boot bootKernel ∧ ∃ s, Relation.ReflTransGen Loader.Step (Loader.boot bootKernel) s ∧
      ∃ payload ∈ s.started, ¬ ∃ image ∈ s.accepted, execSignVerify image = some payload := by
  obtain ⟨s, hs, hst⟩ := map_eq_some_iff.mp shellLoads_unsigned
  obtain ⟨hacc, hstart⟩ := Prod.mk.inj hst
  refine ⟨bootKernel_boot, s, runList_run (fun _ _ ev _ h => ⟨ev, h⟩) hs, [0x00], by simp [hstart], ?_⟩
  rintro ⟨image, hm, hv⟩
  rw [hacc, mem_singleton] at hm
  -- The one accepted image ends in another byte.
  obtain ⟨header, himage, -⟩ := execSignVerify_eq_some hv
  have hlast := congrArg List.getLast? (hm.symm.trans himage)
  simp [signedImage] at hlast

end MinicOs
