import Mathlib.Data.List.Perm.Basic
import MinicOs.Net.HttpBodies

/-!
# The order of the headers

What changes in the reply when header lines are permuted and others are added. Only sixteen headers are kept, so a
`Content-Length` or `Transfer-Encoding` behind the sixteenth line is lost, and with it the framing of the body.
-/

namespace MinicOs

open List Cells

/-! ## Replies -/

/-- The status code, the bytes of the body and its length; one round of fuel for each byte. -/
def HttpText.reply (t : HttpText) : Exec (Nat × Cells U8 × Int) := do
  let (raw, resp) ← httpParseResponse (t.bytes.length + 1) (ofList t.bytes)
  return (resp.statusCode, take resp.bodyLen.toNat (raw.drop resp.body), resp.bodyLen)

/-- What framing makes of a body. -/
inductive Framed (body : List U8) : Framing → List U8 → Int → Prop
  | chunked (cb : ChunkedBody) (h : body = cb.bytes) : Framed body .chunked cb.data cb.data.length
  | sized (n : Nat) : Framed body (.sized n) (body.take (clampLength n body.length).toNat) (clampLength n body.length)
  | toEnd : Framed body .toEnd body body.length

theorem HttpText.drop_ofList_bytes (t : HttpText) : (ofList t.bytes).drop t.bodyStart = ofList t.body := by
  unfold ofList
  rw [← map_drop, t.drop_bodyStart]

/-- **The reply, by the framing.** -/
theorem HttpText.reply_eq {t : HttpText} (hlen : t.bytes.length < 2 ^ 31) {code : Nat} (hcode : statusOf t.status = some code)
    {out : List U8} {n : Int} (h : Framed t.body (framingOf t.fields) out n) : t.reply = .done (code, ofList out, n) := by
  have hsize := t.length_bytes
  unfold reply
  rw [t.httpParseResponse_eq, hcode]
  dsimp only
  generalize hframing : framingOf t.fields = framing at h
  cases h with
  | chunked cb hbody =>
    rw [t.answer_chunked hlen hbody hframing (by omega), Exec.done_bind]
    refine congrArg (fun bytes => Exec.done (code, bytes, (cb.data.length : Int))) ?_
    have hdata : ((splice t.bytes t.bodyStart cb.data).drop t.bodyStart).take cb.data.length = cb.data := by
      unfold splice
      rw [append_assoc, drop_left' (by rw [length_take]; omega), take_left]
    unfold ofList
    rw [← map_drop, ← map_take]
    exact congrArg (List.map some) hdata
  | sized k =>
    unfold answer
    rw [hframing]
    rw [Exec.done_bind]
    dsimp only
    rw [t.drop_ofList_bytes]
    unfold ofList
    rw [← map_take]
    rfl
  | toEnd =>
    unfold answer
    rw [hframing]
    rw [Exec.done_bind]
    rw [t.drop_ofList_bytes, Int.toNat_natCast, take_of_length_le (by rw [length_ofList])]
    rfl

/-! ## Headers of a name -/

/-- The headers of a name. -/
def named (name : List U8) (fs : List HeaderField) : List HeaderField :=
  fs.filter fun f => lowered f.name = lowered name

theorem lookup_eq_named (name : List U8) (fs : List HeaderField) :
    lookup name (fs.map HeaderField.field) = (named name fs).head?.map HeaderField.value := by
  unfold lookup named
  rw [find?_map, head?_filter, Option.map_map]
  rfl

/-- The header lines `fs` in some order, with lines of other names among them. -/
def Rearranged (fs fs' : List HeaderField) : Prop :=
  ∃ extra, fs'.Perm (fs ++ extra) ∧ named contentLengthName extra = [] ∧ named transferEncodingName extra = []

/-- The headers that frame the body are among those kept. -/
def Kept (fs : List HeaderField) : Prop :=
  named contentLengthName (fs.drop httpMaxHeaders) = [] ∧ named transferEncodingName (fs.drop httpMaxHeaders) = []

/-- Of each of the two names there is one header at most, and a body that is taken for chunked is. -/
structure WellFramed (fs : List HeaderField) (body : List U8) : Prop where
  length_once : (named contentLengthName fs).length ≤ 1
  coding_once : (named transferEncodingName fs).length ≤ 1
  chunked : ∀ v ∈ lookup transferEncodingName (fs.map HeaderField.field), codesChunks v → ∃ cb : ChunkedBody, body = cb.bytes

theorem named_append (name : List U8) (fs gs : List HeaderField) : named name (fs ++ gs) = named name fs ++ named name gs :=
  filter_append _ _

variable {fs fs' : List HeaderField} {name : List U8}

/-- A header that occurs once is the same after a rearrangement. -/
theorem named_of_perm {extra : List HeaderField} (hperm : fs'.Perm (fs ++ extra)) (hextra : named name extra = [])
    (honce : (named name fs).length ≤ 1) : named name fs' = named name fs := by
  have hnamed : (named name fs').Perm (named name fs) := by
    have h := hperm.filter fun f => decide (lowered f.name = lowered name)
    rwa [filter_append, show extra.filter _ = [] from hextra, append_nil] at h
  match hfs : named name fs, honce with
  | [], _ => exact perm_nil.mp (hfs ▸ hnamed)
  | [f], _ => exact perm_singleton.mp (hfs ▸ hnamed)

/-- What the kept lines show of a header that occurs once: the header, or nothing. -/
theorem named_take (honce : (named name fs).length ≤ 1) :
    named name (fs.take httpMaxHeaders) = named name fs ∨ named name (fs.take httpMaxHeaders) = [] := by
  have hsplit := named_append name (fs.take httpMaxHeaders) (fs.drop httpMaxHeaders)
  rw [take_append_drop] at hsplit
  cases htake : named name (fs.take httpMaxHeaders) with
  | nil => exact .inr rfl
  | cons f l =>
    rw [htake] at hsplit
    have hlen := congrArg List.length hsplit
    rw [length_append, length_cons] at hlen
    have hdrop : named name (fs.drop httpMaxHeaders) = [] := eq_nil_of_length_eq_zero (by omega)
    rw [hsplit, hdrop, append_nil]
    exact .inl rfl

theorem named_take_of_kept (h : named name (fs.drop httpMaxHeaders) = []) :
    named name (fs.take httpMaxHeaders) = named name fs := by
  have hsplit := named_append name (fs.take httpMaxHeaders) (fs.drop httpMaxHeaders)
  rw [take_append_drop, h, append_nil] at hsplit
  exact hsplit.symm

/-! ## Rearranged responses -/

/-- How the body of a response is framed. -/
def framingIn (fs : List HeaderField) : Framing := framingOf ((fs.take httpMaxHeaders).map HeaderField.field)

/-- A header that is kept of a rearrangement is the one of the original. -/
theorem lookup_take (h : named name fs' = named name fs) (honce : (named name fs).length ≤ 1) {v : List U8}
    (hv : lookup name ((fs'.take httpMaxHeaders).map HeaderField.field) = some v) :
    lookup name (fs.map HeaderField.field) = some v := by
  rw [lookup_eq_named] at hv ⊢
  rcases named_take (h ▸ honce : (named name fs').length ≤ 1) with hsame | hnone
  · rwa [hsame, h] at hv
  · rw [hnone] at hv
    simp at hv

variable {s : StatusLine} {fs fs' : List HeaderField} {body : List U8}

theorem framingIn_cases (hwf : WellFramed fs body) (hre : Rearranged fs fs') :
    (framingIn fs' = .chunked ∧ ∃ v ∈ lookup transferEncodingName (fs.map HeaderField.field), codesChunks v) ∨
    (∃ v ∈ lookup contentLengthName (fs.map HeaderField.field), framingIn fs' = .sized (decimalValue (v.takeWhile isDigit))) ∨
    framingIn fs' = .toEnd := by
  obtain ⟨extra, hperm, hcl, hte⟩ := hre
  unfold framingIn framingOf
  split
  · rename_i hchunked
    obtain ⟨v, hv, hcodes⟩ := hchunked
    exact .inl ⟨rfl, v, lookup_take (named_of_perm hperm hte hwf.coding_once) hwf.coding_once hv, hcodes⟩
  · cases hv : lookup contentLengthName ((fs'.take httpMaxHeaders).map HeaderField.field) with
    | none => exact .inr (Or.inr rfl)
    | some v =>
      exact .inr (Or.inl ⟨v, lookup_take (named_of_perm hperm hcl hwf.length_once) hwf.length_once hv, rfl⟩)

/-- The reply to a rearrangement, whatever its framing. -/
theorem reply_of_framed (hlen : (responseText s fs' body).bytes.length < 2 ^ 31) {out : List U8} {n : Int}
    (h : Framed body (framingIn fs') out n) :
    (responseText s fs' body).reply = .done (decimalValue s.digits, ofList out, n) :=
  HttpText.reply_eq hlen s.statusOf_line (by rw [fields_responseText]; exact h)

theorem exists_framed (hwf : WellFramed fs body) (hre : Rearranged fs fs') : ∃ out n, Framed body (framingIn fs') out n := by
  rcases framingIn_cases hwf hre with ⟨hframing, v, hv, hcodes⟩ | ⟨v, -, hframing⟩ | hframing
  · obtain ⟨cb, hcb⟩ := hwf.chunked v hv hcodes
    rw [hframing]
    exact ⟨_, _, .chunked cb hcb⟩
  · rw [hframing]
    exact ⟨_, _, .sized _⟩
  · rw [hframing]
    exact ⟨_, _, .toEnd⟩

/-- The framing makes no difference: the body is not chunked, and a length reaches to its end. -/
def Immaterial (fs : List HeaderField) (body : List U8) : Prop :=
  (∀ v ∈ lookup transferEncodingName (fs.map HeaderField.field), ¬ codesChunks v) ∧
  ∀ v ∈ lookup contentLengthName (fs.map HeaderField.field), (body.length : Int) ≤ i32 (decimalValue (v.takeWhile isDigit))

theorem reply_of_immaterial (hwf : WellFramed fs body) (him : Immaterial fs body) (hre : Rearranged fs fs')
    (hlen : (responseText s fs' body).bytes.length < 2 ^ 31) :
    (responseText s fs' body).reply = .done (decimalValue s.digits, ofList body, body.length) := by
  refine reply_of_framed hlen ?_
  rcases framingIn_cases hwf hre with ⟨-, v, hv, hcodes⟩ | ⟨v, hv, hframing⟩ | hframing
  · exact absurd hcodes (him.1 v hv)
  · have hclamp : clampLength (decimalValue (v.takeWhile isDigit)) body.length = body.length := by
      have hle := him.2 v hv
      unfold clampLength
      split <;> omega
    have hsized : Framed body _ _ _ := .sized (decimalValue (v.takeWhile isDigit))
    rw [hclamp, Int.toNat_natCast, take_length] at hsized
    rwa [hframing]
  · rw [hframing]
    exact .toEnd

/-! ## Losing the framing -/

theorem noSep_empty : NoSep 0x0D 0x0A ([] : List U8) := by decide

/-- The header line `x:`. -/
def otherField : HeaderField := ⟨[0x78], 0, [], by decide, by decide, noSep_empty, by decide⟩

theorem rearranged_behind (fs : List HeaderField) : Rearranged fs (List.replicate 16 otherField ++ fs) :=
  ⟨List.replicate 16 otherField, perm_append_comm, by decide, by decide⟩

theorem framingIn_behind (fs : List HeaderField) : framingIn (List.replicate 16 otherField ++ fs) = .toEnd := by
  unfold framingIn
  rw [take_left' (by decide)]
  decide

/-- The headers of a name in front. -/
def front (name : List U8) (fs : List HeaderField) : List HeaderField :=
  named name fs ++ fs.filter fun f => !decide (lowered f.name = lowered name)

theorem rearranged_front (name : List U8) (fs : List HeaderField) : Rearranged fs (front name fs) :=
  ⟨[], by rw [append_nil]; exact filter_append_perm _ _, rfl, rfl⟩

theorem lookup_front {v : List U8} (hv : lookup name (fs.map HeaderField.field) = some v) :
    lookup name (((front name fs).take httpMaxHeaders).map HeaderField.field) = some v := by
  unfold front
  rw [lookup_eq_named] at hv
  cases hnamed : named name fs with
  | nil =>
    rw [hnamed] at hv
    simp at hv
  | cons f l =>
    rw [hnamed] at hv
    have hname : lowered f.name = lowered name := by
      have hmem : f ∈ named name fs := hnamed ▸ mem_cons_self
      exact of_decide_eq_true (mem_filter.mp hmem).2
    unfold lookup
    rw [cons_append, httpMaxHeaders, take_succ_cons, map_cons, find?_cons]
    rw [show decide (lowered f.field.1 = lowered name) = true from decide_eq_true hname]
    exact hv

theorem length_responseText (s : StatusLine) (fs : List HeaderField) (body : List U8) :
    (responseText s fs body).bytes.length = s.line.length + (fs.map fun f => f.line.length + 2).sum + 4 + body.length := by
  rw [HttpText.length_bytes]
  unfold HttpText.bodyStart HttpText.headerEnd linesLength responseText
  rw [map_map]
  rfl

theorem length_front (name : List U8) (s : StatusLine) (fs : List HeaderField) (body : List U8) :
    (responseText s (front name fs) body).bytes.length = (responseText s fs body).bytes.length := by
  have hsum := ((filter_append_perm (fun f : HeaderField => decide (lowered f.name = lowered name)) fs).map
    fun f => f.line.length + 2).sum_nat
  rw [length_responseText, length_responseText]
  exact congrArg (fun n => s.line.length + n + 4 + body.length) hsum

/-- A framing that is seen in front makes a difference to one that is lost. -/
theorem immaterial_of_stable (hwf : WellFramed fs body) (hlen : (responseText s fs body).bytes.length + 64 < 2 ^ 31)
    (h : ∀ fs', Rearranged fs fs' → (responseText s fs' body).bytes.length < 2 ^ 31 →
      (responseText s fs' body).reply = (responseText s fs body).reply) : Immaterial fs body := by
  have hlost : (responseText s fs body).reply = .done (decimalValue s.digits, ofList body, (body.length : Int)) := by
    have hroom : (responseText s (List.replicate 16 otherField ++ fs) body).bytes.length < 2 ^ 31 := by
      have hextra : ((List.replicate 16 otherField).map fun f => f.line.length + 2).sum = 64 := rfl
      rw [length_responseText] at hlen
      rw [length_responseText, map_append, sum_append, hextra]
      omega
    rw [← h _ (rearranged_behind fs) hroom]
    exact reply_of_framed hroom (by rw [framingIn_behind]; exact .toEnd)
  -- the reply with the headers of a name in front has the length of the whole body
  have hfront : ∀ name {out : List U8} {n : Int}, Framed body (framingIn (front name fs)) out n → n = body.length := by
    intro name out n hframed
    have hroom := (length_front name s fs body).trans_lt (show (responseText s fs body).bytes.length < 2 ^ 31 by omega)
    have hreply := (reply_of_framed hroom hframed).symm.trans ((h _ (rearranged_front name fs) hroom).trans hlost)
    exact (Prod.mk.inj (Prod.mk.inj (Exec.done.inj hreply)).2).2
  constructor
  · intro v hv hcodes
    obtain ⟨cb, hcb⟩ := hwf.chunked v hv hcodes
    have hframing : framingIn (front transferEncodingName fs) = .chunked := if_pos ⟨v, lookup_front hv, hcodes⟩
    have heq := hfront transferEncodingName (by rw [hframing]; exact .chunked cb hcb)
    have hlt := cb.length_data_lt
    rw [← hcb] at hlt
    omega
  · intro v hv
    rcases framingIn_cases hwf (rearranged_front contentLengthName fs) with ⟨hframing, v', hv', hcodes⟩ | hrest
    · obtain ⟨cb, hcb⟩ := hwf.chunked v' hv' hcodes
      have heq := hfront contentLengthName (by rw [hframing]; exact .chunked cb hcb)
      have hlt := cb.length_data_lt
      rw [← hcb] at hlt
      omega
    · have hframing : framingIn (front contentLengthName fs) = .sized (decimalValue (v.takeWhile isDigit)) := by
        have hnot : ¬ framingIn (front contentLengthName fs) = .chunked := by
          rcases hrest with ⟨w, -, hw⟩ | hw <;> rw [hw] <;> exact nofun
        unfold framingIn framingOf at hnot ⊢
        rw [lookup_front hv] at hnot ⊢
        split at hnot
        · exact absurd rfl hnot
        · rename_i hplain
          rw [if_neg hplain]
          rfl
      have heq := hfront contentLengthName (by rw [hframing]; exact .sized _)
      unfold clampLength at heq
      split at heq <;> omega

/-- **When the order of the headers matters.** As long as the headers that frame the body are kept, the reply is the same;
and for every order and number of headers only if the framing makes no difference. -/
theorem reply_rearranged (s : StatusLine) (fs : List HeaderField) (body : List U8) (hwf : WellFramed fs body)
    (hlen : (responseText s fs body).bytes.length < 2 ^ 31) :
    (∀ fs', Rearranged fs fs' → (responseText s fs' body).bytes.length < 2 ^ 31 → Kept fs → Kept fs' →
      (responseText s fs' body).reply = (responseText s fs body).reply) ∧
    (Immaterial fs body → ∀ fs', Rearranged fs fs' → (responseText s fs' body).bytes.length < 2 ^ 31 →
      (responseText s fs' body).reply = (responseText s fs body).reply) ∧
    ((responseText s fs body).bytes.length + 64 < 2 ^ 31 →
      (∀ fs', Rearranged fs fs' → (responseText s fs' body).bytes.length < 2 ^ 31 →
        (responseText s fs' body).reply = (responseText s fs body).reply) → Immaterial fs body) := by
  have hself : Rearranged fs fs := ⟨[], by rw [append_nil], rfl, rfl⟩
  refine ⟨?_, ?_, immaterial_of_stable hwf⟩
  · rintro fs' ⟨extra, hperm, hcl, hte⟩ hlen' ⟨hkcl, hkte⟩ ⟨hkcl', hkte'⟩
    -- the framing depends on the headers of the two names
    have hsame : framingIn fs' = framingIn fs := by
      unfold framingIn framingOf
      rw [lookup_eq_named, lookup_eq_named, lookup_eq_named, lookup_eq_named]
      rw [named_take_of_kept hkcl', named_take_of_kept hkcl, named_of_perm hperm hcl hwf.length_once]
      rw [named_take_of_kept hkte', named_take_of_kept hkte, named_of_perm hperm hte hwf.coding_once]
    obtain ⟨out, n, hframed⟩ := exists_framed hwf hself
    rw [reply_of_framed hlen hframed, reply_of_framed hlen' (by rw [hsame]; exact hframed)]
  · intro him fs' hre hlen'
    rw [reply_of_immaterial hwf him hre hlen', reply_of_immaterial hwf him hself hlen]

/-- `Content-Length:0`. -/
def noLength : HeaderField := ⟨contentLengthName, 0, [0x30], by decide, by decide, by decide, by decide⟩

theorem wellFramed_noLength : WellFramed [noLength] [0x58] :=
  ⟨by decide, by decide, fun v hv => absurd hv (by rw [show lookup _ _ = none by decide]; exact nofun)⟩

theorem reply_rearranged_noLength : (responseText okStatus [noLength] [0x58]).bytes.length < 2 ^ 31 ∧
    (responseText okStatus [otherField, noLength] [0x58]).reply = (responseText okStatus [noLength] [0x58]).reply :=
  ⟨by decide, (reply_rearranged okStatus [noLength] [0x58] wellFramed_noLength (by decide)).1 [otherField, noLength]
    ⟨[otherField], List.Perm.swap _ _ _, by decide, by decide⟩ (by decide) ⟨by decide, by decide⟩ ⟨by decide, by decide⟩⟩

/-- **Sixteen header lines hide a `Content-Length`.** -/
theorem reply_hidden : WellFramed [noLength] [0x58] ∧ Rearranged [noLength] (List.replicate 16 otherField ++ [noLength]) ∧
    (responseText okStatus [noLength] [0x58]).reply = .done (200, [], 0) ∧
    (responseText okStatus (List.replicate 16 otherField ++ [noLength]) [0x58]).reply = .done (200, [some 0x58], 1) := by
  refine ⟨wellFramed_noLength, rearranged_behind _, ?_, ?_⟩
  · decide +kernel
  · decide +kernel

end MinicOs
