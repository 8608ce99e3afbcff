import MinicOs.Security.Sha256
import MinicOs.Lib.LittleEndian

/-!
# Signed images

Model of `kernel/security/exec_sign/exec_sign.c`: a 40-byte header (magic, HMAC-SHA256 of the
payload, payload length) in front of the payload.
-/

namespace MinicOs

def execSigningKey : List U8 := [
  0x26, 0xc3, 0x14, 0xa3, 0x85, 0xcd, 0x1b, 0xf2, 0xf1, 0x79, 0x59, 0xdb, 0x49, 0x84, 0x69, 0x78,
  0xf0, 0xac, 0xcf, 0x9a, 0xf5, 0xc9, 0x44, 0xc4, 0x75, 0x4c, 0x7d, 0xe6, 0xea, 0x0a, 0xe2, 0x9a]

def execSignMagic : Nat := 0x314e4753

/-- `sizeof(exec_sign_header)`. -/
def execSignHeaderSize : Nat := 40

/-- `exec_sign_verify`: the payload of an image it accepts. -/
def execSignVerify (image : List U8) : Option (List U8) :=
  if image.length < execSignHeaderSize then none
  else if readU32 image ≠ execSignMagic then none
  else
    let payloadLen := readU32 (image.drop 36)
    if execSignHeaderSize + payloadLen ≠ image.length then none
    else
      let payload := image.drop execSignHeaderSize
      if hmacSha256 execSigningKey payload = (image.drop 4).take 32 then some payload else none

/-- **An accepted image** is a header of 40 bytes that carries the HMAC of the payload, then the
payload. -/
theorem execSignVerify_eq_some {image payload : List U8} (h : execSignVerify image = some payload) :
    ∃ header, image = header ++ payload ∧ header.length = execSignHeaderSize ∧
      (header.drop 4).take 32 = hmacSha256 execSigningKey payload := by
  unfold execSignVerify at h
  simp only at h
  split at h
  · simp at h
  rename_i hlen
  split at h
  · simp at h
  split at h
  · simp at h
  split at h
  · rename_i hmac
    cases h
    refine ⟨image.take execSignHeaderSize, (List.take_append_drop _ _).symm, ?_, ?_⟩
    · rw [List.length_take]
      omega
    · rw [hmac, List.drop_take, List.take_take]
      rfl
  · simp at h

end MinicOs
