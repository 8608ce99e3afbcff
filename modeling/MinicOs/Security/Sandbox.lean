import MinicOs.Ipc.Object

/-!
# Sandbox policies

Model of `sandbox_denies` and the default masks (`kernel/security/sandbox/sandbox.c`). A process is
restricted by each handle it holds that names an object of type `OBJ_SANDBOX`; the object's own
`used` flag is not read.
-/

namespace MinicOs

/-- The bit test of `sandbox_denies` on one policy. -/
def policyDenies (p : SandboxPolicy) (num : U64) : Bool :=
  if num.toNat < 64 then p.deniedLow &&& (1#64 <<< num.toNat) != 0#64
  else if num.toNat < 128 then p.deniedHigh &&& (1#64 <<< (num.toNat - 64)) != 0#64
  else false

/-- The test `sandbox_denies` makes of one handle. -/
def handleDenies (c : Caps) (h : Handle) (num : U64) : Bool :=
  h.used && ((c.objects h.objectIndex).type == ObjType.sandbox &&
    policyDenies (c.policies (c.objects h.objectIndex).dataIndex) num)

def sandboxDenies (c : Caps) (processIndex : Int) (num : U64) : Bool :=
  if processIndex < 0 ∨ (maxProcesses : Int) ≤ processIndex then false
  else (List.range handlesPerProcess).any fun h => handleDenies c (c.handles processIndex h) num

/-- `sandbox_default_denied_low`: syscalls 6, 11, 14 and 49. -/
def sandboxDefaultDeniedLow : U64 := (1#64 <<< 6) ||| (1#64 <<< 11) ||| (1#64 <<< 14) ||| (1#64 <<< 49)

/-- `sandbox_default_denied_high`: syscalls 95 and 99. -/
def sandboxDefaultDeniedHigh : U64 := (1#64 <<< (95 - 64)) ||| (1#64 <<< (99 - 64))

/-- The policy `spawn_process` creates. -/
def defaultPolicy : SandboxPolicy :=
  { used := true, deniedLow := sandboxDefaultDeniedLow, deniedHigh := sandboxDefaultDeniedHigh }

/-- The syscalls the default policy denies. -/
def defaultDenied : List U64 := [6#64, 11#64, 14#64, 49#64, 95#64, 99#64]

variable {num : U64}

theorem handleDenies_iff {c : Caps} {h : Handle} :
    handleDenies c h num = true ↔ h.used = true ∧ (c.objects h.objectIndex).type = .sandbox ∧
      policyDenies (c.policies (c.objects h.objectIndex).dataIndex) num = true := by
  unfold handleDenies
  simp only [Bool.and_eq_true, beq_iff_eq]

/-- A process in range is denied a syscall iff one of its eight handles denies it. -/
theorem sandboxDenies_iff {c : Caps} {p : Int} (h0 : 0 ≤ p) (h8 : p < maxProcesses) : sandboxDenies c p num = true ↔
      ∃ h : Nat, h < handlesPerProcess ∧ handleDenies c (c.handles p h) num = true := by
  unfold sandboxDenies
  rw [if_neg (by omega)]
  simp only [List.any_eq_true, List.mem_range]

/-- The default policy denies each of its six syscalls. -/
theorem defaultPolicy_denies (h : num ∈ defaultDenied) : policyDenies defaultPolicy num = true := by
  have hall : defaultDenied.all (policyDenies defaultPolicy) = true := by decide
  exact List.all_eq_true.mp hall num h

end MinicOs
