import MinicOs.Inflate.Reader

/-!
# The descriptors of a USB device

Model of `parse_hid_endpoint` (`kernel/drivers/usb/usb_descriptor.c`), which walks the bytes a device
answers with. The list is `config_buf[0..len)`, so a read of any other byte is `undefined`; so is
a sum of two `int`s that does not fit. `refused` is `return false`, with the outputs untouched.
-/

namespace MinicOs

open Exec

/-- The variables of the walk. -/
structure HidScan where
  pendingProtocol : U8
  foundEndpoint : U8
  foundProtocol : U8

/-- A sum of `int`s. -/
def intSum (n : Nat) : Exec Nat := if n < 2 ^ 31 then .done n else .undefined

/-- The interface and endpoint branches of `parse_hid_endpoint`. -/
def hidDescriptor (config : List U8) (pos : Nat) (descType : U8) (s : HidScan) : Exec HidScan :=
  if descType = 0x04#8 then do
    if (← intSum (pos + 7)) < config.length then
      return { s with pendingProtocol := ← srcByte config (pos + 7) }
    else return s
  else if descType = 0x05#8 then do
    if (← intSum (pos + 6)) < config.length then
      let epAddr ← srcByte config (pos + 2)
      let epAttr ← srcByte config (pos + 3)
      if epAddr &&& 0x80#8 ≠ 0#8 ∧ epAttr &&& 0x03#8 = 0x03#8 ∧ s.foundEndpoint = 0#8 then
        return { s with foundEndpoint := epAddr &&& 0x0F#8, foundProtocol := s.pendingProtocol }
      else return s
    else return s
  else return s

/-- The loop of `parse_hid_endpoint`. -/
def hidLoop (config : List U8) : Nat → Nat → HidScan → Exec HidScan
  | 0, _, _ => .undefined
  | fuel + 1, pos, s => do
    if (← intSum (pos + 1)) < config.length then
      let descLen ← srcByte config pos
      let descType ← srcByte config (pos + 1)
      if descLen = 0#8 then return s
      else
        let s ← hidDescriptor config pos descType s
        hidLoop config fuel (← intSum (pos + descLen.toNat)) s
    else return s

/-- `parse_hid_endpoint`: the endpoint and the protocol. -/
def parseHidEndpoint (config : List U8) : Exec (U8 × U8) := do
  let s ← hidLoop config (config.length + 1) 0 ⟨0#8, 0#8, 0#8⟩
  if s.foundEndpoint = 0#8 then .refused else return (s.foundEndpoint, s.foundProtocol)

/-! ## What it looks for -/

variable (config : List U8)

/-- The places of the descriptors from `pos` on, each as long as its first byte says. -/
def descriptors (pos : Nat) : List Nat :=
  if pos + 1 < config.length ∧ config.getD pos 0#8 ≠ 0#8 then
    pos :: descriptors (pos + (config.getD pos 0#8).toNat)
  else []
termination_by config.length - pos
decreasing_by
  have := BitVec.toNat_ne.mp (show config.getD pos 0#8 ≠ 0#8 by tauto)
  simp_all
  omega

/-- The protocol of the interface descriptor at `p`, if there is one. -/
def protocolAt (p : Nat) : Option U8 :=
  if config.getD (p + 1) 0#8 = 4#8 ∧ p + 8 ≤ config.length then some (config.getD (p + 7) 0#8) else none

/-- The number of the interrupt-IN endpoint at `p`, if there is one and it is not zero. -/
def endpointAt (p : Nat) : Option U8 :=
  let addr := config.getD (p + 2) 0#8
  if config.getD (p + 1) 0#8 = 5#8 ∧ p + 7 ≤ config.length ∧ addr &&& 0x80#8 ≠ 0#8 ∧
      config.getD (p + 3) 0#8 &&& 0x03#8 = 0x03#8 ∧ addr &&& 0x0F#8 ≠ 0#8 then some (addr &&& 0x0F#8)
  else none

/-- The protocol of the last interface among the descriptors `ps`, 0 without one. -/
def nearestProtocol (ps : List Nat) : U8 := ((ps.filterMap (protocolAt config)).getLast?).getD 0#8

/-- The first endpoint among the descriptors `ps`, and the protocol of the interface before it. -/
def FirstEndpoint (ps : List Nat) (endpoint protocol : U8) : Prop :=
  ∃ before p after, ps = before ++ p :: after ∧ (∀ q ∈ before, endpointAt config q = none) ∧
    endpointAt config p = some endpoint ∧ protocol = nearestProtocol config before

/-- The call reads inside the buffer and answers with the first endpoint, or refuses if there is none. -/
def HidSound : Prop :=
  (∃ e p, FirstEndpoint config (descriptors config 0) e p ∧ parseHidEndpoint config = .done (e, p)) ∨
    (∀ q ∈ descriptors config 0, endpointAt config q = none) ∧ parseHidEndpoint config = .refused

/-! ## The walk -/

variable {config}

theorem intSum_eq {n : Nat} (h : n < 2 ^ 31) : intSum n = .done n := if_pos h

theorem srcByte_getD {i : Nat} (h : i < config.length) : srcByte config i = .done (config.getD i 0#8) := by
  rw [srcByte, List.getElem?_eq_getElem h, List.getD_eq_getElem _ _ h]

/-- What the variables say about the descriptors walked so far. -/
structure Scanned (config : List U8) (ps : List Nat) (s : HidScan) : Prop where
  pending : s.pendingProtocol = nearestProtocol config ps
  found : s.foundEndpoint = 0#8 ∧ (∀ q ∈ ps, endpointAt config q = none) ∨
    s.foundEndpoint ≠ 0#8 ∧ FirstEndpoint config ps s.foundEndpoint s.foundProtocol

theorem nearestProtocol_snoc (ps : List Nat) (p : Nat) :
    nearestProtocol config (ps ++ [p]) = (protocolAt config p).getD (nearestProtocol config ps) := by
  unfold nearestProtocol
  cases h : protocolAt config p <;> simp [h]

theorem FirstEndpoint.snoc {ps : List Nat} {e pr : U8} (h : FirstEndpoint config ps e pr) (p : Nat) :
    FirstEndpoint config (ps ++ [p]) e pr := by
  obtain ⟨before, q, after, rfl, h⟩ := h
  exact ⟨before, q, after ++ [p], by simp, h⟩

variable {ps : List Nat} {s : HidScan} {pos : Nat}

/-- A descriptor that is no endpoint, or comes after one. -/
theorem Scanned.skip (h : Scanned config ps s) {p : U8} (hp : p = (protocolAt config pos).getD s.pendingProtocol)
    (hpos : s.foundEndpoint = 0#8 → endpointAt config pos = none) :
    Scanned config (ps ++ [pos]) { s with pendingProtocol := p } := by
  refine ⟨?_, h.found.imp (fun hz => ⟨hz.1, ?_⟩) fun hf => ⟨hf.1, hf.2.snoc pos⟩⟩
  · rw [hp, nearestProtocol_snoc, h.pending]
  · simpa [or_imp, forall_and, hpos hz.1] using hz.2

/-- The first interrupt-IN endpoint, unless its number is zero. -/
theorem Scanned.take (h : Scanned config ps s) (hzero : s.foundEndpoint = 0#8) {e : U8}
    (hpos : endpointAt config pos = if e = 0#8 then none else some e) (hp : protocolAt config pos = none) :
    Scanned config (ps ++ [pos]) ⟨s.pendingProtocol, e, s.pendingProtocol⟩ := by
  have hnone : ∀ q ∈ ps, endpointAt config q = none := by simpa [hzero] using h.found
  refine ⟨by rw [nearestProtocol_snoc, hp, h.pending]; rfl, ?_⟩
  by_cases he : e = 0#8
  · exact .inl ⟨he, by simpa [or_imp, forall_and, he, hpos] using hnone⟩
  · exact .inr ⟨he, ps, pos, [], rfl, hnone, by rw [hpos, if_neg he], h.pending⟩

theorem hidDescriptor_scanned (hlen : config.length + 254 < 2 ^ 31) (hpos : pos + 1 < config.length)
    (h : Scanned config ps s) :
    (hidDescriptor config pos (config.getD (pos + 1) 0#8) s).Returns (Scanned config (ps ++ [pos])) := by
  unfold hidDescriptor
  rw [intSum_eq (by omega), intSum_eq (by omega)]
  simp only [done_bind, pure_eq]
  split_ifs with h4 h7 h5 h6
  · rw [srcByte_getD h7]
    exact .done (h.skip (by grind [protocolAt]) fun _ => by grind [endpointAt])
  · exact .done (h.skip (by grind [protocolAt]) fun _ => by grind [endpointAt])
  · rw [srcByte_getD (by omega), srcByte_getD (by omega)]
    simp only [done_bind]
    have hp : protocolAt config pos = none := by grind [protocolAt]
    split_ifs with hin
    · exact .done (h.take hin.2.2 (by grind [endpointAt]) hp)
    · exact .done (h.skip (by simp [hp]) fun _ => by grind [endpointAt])
  iterate 2 exact .done (h.skip (by grind [protocolAt]) fun _ => by grind [endpointAt])

theorem hidLoop_scanned (hlen : config.length + 254 < 2 ^ 31) (fuel : Nat) : ∀ (pos : Nat) (ps : List Nat)
    (s : HidScan), config.length - pos < fuel → pos ≤ config.length + 253 → Scanned config ps s →
    (hidLoop config fuel pos s).Returns (Scanned config (ps ++ descriptors config pos)) := by
  induction fuel with
  | zero => simp
  | succ fuel ih =>
    intro pos ps s hfuel hpos h
    rw [hidLoop, intSum_eq (by omega), done_bind, descriptors]
    by_cases hlt : pos + 1 < config.length
    · rw [if_pos hlt, srcByte_getD (by omega), srcByte_getD hlt]
      simp only [done_bind]
      by_cases hz : config.getD pos 0#8 = 0#8
      · rw [if_pos hz, if_neg fun hc => hc.2 hz, List.append_nil]
        exact .done h
      · have hlong := (config.getD pos 0#8).isLt
        have hnext : 0 < (config.getD pos 0#8).toNat := Nat.pos_of_ne_zero fun h0 => hz (BitVec.eq_of_toNat_eq h0)
        rw [if_neg hz, if_pos ⟨hlt, hz⟩, List.append_cons]
        refine (hidDescriptor_scanned hlen hlt h).bind fun s' hs' => ?_
        rw [intSum_eq (by omega)]
        exact ih _ _ s' (by omega) (by omega) hs'
    · rw [if_neg hlt, if_neg fun hc => hlt hc.1, List.append_nil]
      exact .done h

/-- **The USB descriptor walk** ends, reads inside the buffer and answers with the first interrupt-IN endpoint
and the protocol of the interface before it, or refuses if there is none. -/
theorem hidSound_of_length (hlen : config.length + 254 < 2 ^ 31) : HidSound config := by
  have h := hidLoop_scanned hlen (config.length + 1) 0 [] ⟨0#8, 0#8, 0#8⟩ (by omega) (by omega) ⟨rfl, by simp⟩
  obtain ⟨s, hs, hscan⟩ := returns_iff.mp h
  rcases hscan.found with ⟨hz, hnone⟩ | ⟨hz, hfirst⟩
  · exact .inr ⟨hnone, by rw [parseHidEndpoint, hs, done_bind, if_pos hz]⟩
  · exact .inl ⟨_, _, hfirst, by rw [parseHidEndpoint, hs, done_bind, if_neg hz]; rfl⟩

/-- A mouse: a configuration, an interface of protocol 2, its HID descriptor, a bulk endpoint, the interrupt-IN
endpoint 1 and an interface that is cut off. -/
def mouseConfig : List U8 :=
  [9, 2, 34, 0, 1, 1, 0, 0xa0, 50, 9, 4, 0, 0, 1, 3, 1, 2, 0, 9, 0x21, 0x11, 1, 0, 1, 0x22, 52, 0,
    7, 5, 0x82, 2, 64, 0, 0, 7, 5, 0x81, 3, 4, 0, 10, 9, 4, 1]

theorem hidSound_mouse : HidSound mouseConfig ∧ parseHidEndpoint mouseConfig = .done (1#8, 2#8) :=
  ⟨hidSound_of_length (by decide), rfl⟩

end MinicOs
