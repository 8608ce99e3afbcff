import MinicOs.Net.HttpHead

/-!
# The framing of a response

A response is a status line, header lines, and what follows the empty line (`HttpText`); every buffer with an empty line in
it is one (`exists_httpText`). How its body ends is decided by the first `Transfer-Encoding` and the first `Content-Length`
among its first sixteen header lines (`framingOf`).
-/

namespace MinicOs

open List Exec Cells

/-- A response. No line holds a separator, and no header line is empty. -/
structure HttpText where
  status : List U8
  lines : List (List U8)
  body : List U8
  status_noSep : NoSep 0x0D 0x0A status
  lines_ok : HeaderLines lines

namespace HttpText

variable (t : HttpText)

def bytes : List U8 := block 0x0D 0x0A (t.status :: t.lines) t.body

def headerEnd : Nat := t.status.length + linesLength t.lines

def bodyStart : Nat := t.headerEnd + 4

/-- The views of the headers that are kept. -/
def views : List (Option HttpHeader) := (headerViews (t.status.length + 2) t.lines).take httpMaxHeaders

/-- The names and values of the headers that are kept. -/
def fields : List (List U8 × List U8) := (t.lines.take httpMaxHeaders).filterMap fieldOf

theorem length_inLines_eq : (inLines 0x0D 0x0A (t.status :: t.lines)).length = t.headerEnd := by
  have hsize := length_inLines t.status t.lines
  rw [linesLength_cons] at hsize
  unfold headerEnd
  omega

theorem bytes_eq : t.bytes = inLines 0x0D 0x0A (t.status :: t.lines) ++ (crlf ++ crlf ++ t.body) :=
  block_eq t.status t.lines t.body

theorem length_bytes : t.bytes.length = t.bodyStart + t.body.length := by
  rw [bytes_eq, length_append, length_inLines_eq, length_append, bodyStart]
  show t.headerEnd + (4 + t.body.length) = _
  omega

theorem drop_bodyStart : t.bytes.drop t.bodyStart = t.body := by
  rw [bytes_eq, bodyStart, ← length_inLines_eq, drop_append, drop_eq_nil_of_le (by omega),
    nil_append, Nat.add_sub_cancel_left]
  rfl

theorem linesAt : LinesAt t.bytes (t.status.length + 2) t.lines := by
  have hwhole : LinesAt t.bytes 0 (t.status :: t.lines) := ⟨_, t.bytes_eq.symm⟩
  have htail := hwhole.tail
  rwa [Nat.zero_add] at htail

end HttpText

/-- **Every buffer with an empty line is a response.** -/
theorem exists_httpText {raw : List U8} (h : crlf ++ crlf <:+: raw) : ∃ t : HttpText, t.bytes = raw := by
  obtain ⟨status, lines, body, rfl, hstatus, hlines⟩ := exists_block cr_ne_lf h
  exact ⟨⟨status, lines, body, hstatus, hlines⟩, rfl⟩

/-- **And it is one response only.** -/
theorem HttpText.bytes_injective {t t' : HttpText} (h : t.bytes = t'.bytes) : t = t' := by
  obtain ⟨hstatus, htail⟩ := line_inj cr_ne_lf t.status_noSep t'.status_noSep h
  obtain ⟨hlines, hbody⟩ := block_inj cr_ne_lf t.lines_ok t'.lines_ok htail
  cases t
  cases t'
  subst hstatus hlines hbody
  rfl

/-! ## How the body ends -/

/-- The value of the first header of a name. -/
def lookup (name : List U8) (fields : List (List U8 × List U8)) : Option (List U8) :=
  (fields.find? fun f => lowered f.1 = lowered name).map Prod.snd

/-- How the end of the body is found. -/
inductive Framing
  | chunked
  | sized (n : Nat)
  | toEnd
deriving DecidableEq

/-- Whether a transfer coding is taken for `chunked`. -/
def codesChunks (value : List U8) : Prop := lowered (value.take 7) = lowered chunkedText

instance (value : List U8) : Decidable (codesChunks value) := inferInstanceAs (Decidable (_ = _))

/-- The framing without a transfer coding. -/
def plainFraming : Option (List U8) → Framing
  | some v => .sized (decimalValue (v.takeWhile isDigit))
  | none => .toEnd

/-- The framing that headers give. -/
def framingOf (fields : List (List U8 × List U8)) : Framing :=
  if ∃ v ∈ lookup transferEncodingName fields, codesChunks v then .chunked
  else plainFraming (lookup contentLengthName fields)

/-- The body length that `Content-Length` gives, with `available` bytes there. -/
def clampLength (n available : Nat) : Int := if i32 n > available then (available : Int) else i32 n

namespace HttpText

variable (t : HttpText)

/-- What is answered for a response with a status code. -/
def answer (fuel code : Nat) : Exec (Cells U8 × HttpResponse) :=
  match framingOf t.fields with
  | .chunked => do
    let (raw', writeLen) ← dechunk t.bytes.length t.bodyStart fuel (ofList t.bytes) t.bodyStart 0
    return (raw', ⟨code, t.views, t.bodyStart, writeLen⟩)
  | .sized n => .done (ofList t.bytes, ⟨code, t.views, t.bodyStart, clampLength n t.body.length⟩)
  | .toEnd => .done (ofList t.bytes, ⟨code, t.views, t.bodyStart, t.body.length⟩)

/-- The first header of a name among those kept. -/
def viewOf (name : List U8) : Option HttpHeader :=
  (t.views.filterMap id).find? fun v => lowered (v.nameIn t.bytes) = lowered name

theorem views_show : (∀ v, some v ∈ t.views → v.Inside t.bytes.length) ∧
    (t.views.filterMap id).map (fun v => (v.nameIn t.bytes, v.valueIn t.bytes)) = t.fields := by
  obtain ⟨hinside, hshown⟩ := headerViews_show t.lines_ok t.linesAt httpMaxHeaders
  refine ⟨hinside, ?_⟩
  have hfields := congrArg (List.filterMap id) hshown
  rw [filterMap_map, filterMap_map] at hfields
  rw [map_filterMap]
  exact hfields

theorem lookup_fields (name : List U8) : lookup name t.fields = (t.viewOf name).map (HttpHeader.valueIn t.bytes) := by
  unfold lookup viewOf
  rw [← t.views_show.2, find?_map, Option.map_map]
  rfl

theorem inside_viewOf {name : List U8} {v : HttpHeader} (h : t.viewOf name = some v) : v.Inside t.bytes.length := by
  have hmem := mem_of_find?_eq_some h
  obtain ⟨o, ho, hv⟩ := mem_filterMap.mp hmem
  exact t.views_show.1 v (hv ▸ ho)

theorem isChunked_viewOf : isChunked (ofList t.bytes) (t.viewOf transferEncodingName) =
      .done (decide (∃ v ∈ lookup transferEncodingName t.fields, codesChunks v)) := by
  rw [lookup_fields]
  cases hte : t.viewOf transferEncodingName with
  | none =>
    refine congrArg Exec.done (decide_eq_false ?_).symm
    rintro ⟨v, hv, -⟩
    simp at hv
  | some te =>
    rw [isChunked_eq (starts_ofList _) (t.inside_viewOf hte)]
    refine congrArg Exec.done (decide_eq_decide.mpr ?_)
    simp only [Option.map_some, Option.mem_some_iff, exists_eq_left']
    rfl

theorem sizedBody_eq {cl : HttpHeader} (h : cl.Inside t.bytes.length) (available : Nat) :
    sizedBody (ofList t.bytes) cl available =
      .done (clampLength (decimalValue ((cl.valueIn t.bytes).takeWhile isDigit)) available) := by
  have hlen : (cl.valueIn t.bytes).length = cl.valueLen := length_bytesAt h.2
  have hread := readContentLength_eq (starts_bytesAt (starts_ofList t.bytes) cl.value cl.valueLen)
    (n := cl.valueLen) (i := 0) (by rw [show (bytesAt t.bytes cl.value cl.valueLen).length = cl.valueLen from hlen]; omega) 0
  unfold sizedBody
  rw [show (0 : Int) = i32 ((0 : Nat) : Int) from rfl, hread, done_bind]
  rfl

theorem httpParseBody_eq (fuel code : Nat) :
    httpParseBody fuel (ofList t.bytes) t.bodyStart code t.views = t.answer fuel code := by
  have hfind := fun name => httpFindHeader_eq (starts_ofList t.bytes) name t.views_show.1
  have havailable : t.bytes.length - t.bodyStart = t.body.length := by
    rw [length_bytes]
    omega
  unfold httpParseBody answer framingOf
  rw [hfind, done_bind, hfind, done_bind, show (t.views.filterMap id).find? _ = t.viewOf transferEncodingName from rfl,
    isChunked_viewOf, done_bind, length_ofList, havailable]
  by_cases hchunked : ∃ v ∈ lookup transferEncodingName t.fields, codesChunks v
  · rw [if_pos hchunked, decide_eq_true hchunked, if_pos rfl]
  · rw [if_neg hchunked, decide_eq_false hchunked, if_neg Bool.false_ne_true, lookup_fields]
    rw [show (t.views.filterMap id).find? _ = t.viewOf contentLengthName from rfl]
    cases hcl : t.viewOf contentLengthName with
    | none => rfl
    | some cl =>
      dsimp only
      rw [sizedBody_eq t (t.inside_viewOf hcl), done_bind]
      rfl

/-- **What `http_parse_response` comes to.** -/
theorem httpParseResponse_eq (fuel : Nat) :
    httpParseResponse fuel (ofList t.bytes) =
      match statusOf t.status with
      | none => .refused
      | some code => t.answer fuel code := by
  have hstarts := starts_ofList t.bytes
  have hblock : indexOf? (crlf ++ crlf) t.bytes = some t.headerEnd := by
    rw [← length_inLines_eq]
    exact indexOf?_block cr_ne_lf t.status_noSep t.lines_ok t.body
  have hhead : LinesAt t.bytes 0 (t.status :: t.lines) := ⟨_, t.bytes_eq.symm⟩
  have hline := findBytes_eq (hstarts.at hhead) (show crlf ≠ [] by decide)
  rw [drop_zero, length_inLines_eq] at hline
  have hlen := indexOf?_inLines t.status_noSep t.lines
  rw [length_inLines_eq] at hlen
  have hstatus := parseStatusLine_eq (hstarts.at hhead.head)
  rw [drop_zero] at hstatus
  have hheaders := @parseHeaders_eq (ofList t.bytes) t.bytes t.lines t.lines_ok (t.headerEnd + 1)
    (t.status.length + 2) t.headerEnd hstarts t.linesAt (by unfold headerEnd; omega)
    (by unfold headerEnd; have := length_le_linesLength t.lines; omega) []
  unfold httpParseResponse
  rw [length_ofList, findBytes_eq hstarts (show crlf ++ crlf ≠ [] by decide), hblock, done_bind]
  dsimp only
  rw [hline, done_bind, hlen, hstatus]
  cases statusOf t.status with
  | none => rfl
  | some code =>
    rw [done_bind, hheaders, done_bind]
    exact t.httpParseBody_eq fuel code

end HttpText

end MinicOs
