import Mathlib.Data.List.TakeWhile
import MinicOs.Net.HttpSafe

/-!
# Well-formed responses

A status line with three digits, header lines with a name and a value, and a chunked body, as they are written; and what
`http_parse_response` answers for them.
-/

namespace MinicOs

open List Cells Nat

/-! ## The head -/

/-- A header line: a name without a colon, spaces, and a value that does not begin with one. -/
structure HeaderField where
  name : List U8
  spaces : Nat
  value : List U8
  name_colon : 0x3A ∉ name
  name_noSep : NoSep 0x0D 0x0A name
  value_noSep : NoSep 0x0D 0x0A value
  value_space : value.head? ≠ some 0x20

namespace HeaderField

variable (f : HeaderField)

/-- The line as it is written. -/
def line : List U8 := f.name ++ 0x3A :: (List.replicate f.spaces 0x20 ++ f.value)

def field : List U8 × List U8 := (f.name, f.value)

theorem line_ok : NoSep 0x0D 0x0A f.line ∧ f.line ≠ [] := by
  have hvalue : NoSep 0x0D 0x0A (List.replicate f.spaces 0x20 ++ f.value) := by
    induction f.spaces with
    | zero => exact f.value_noSep
    | succ n ih => exact ih.cons (by decide)
  exact ⟨f.name_noSep.append_cons hvalue (by decide) (by decide), append_ne_nil_of_right_ne_nil _ (cons_ne_nil _ _)⟩

theorem indexOf?_colon : indexOf? [0x3A] f.line = some f.name.length := by
  refine indexOf?_eq_some.mpr ⟨?_, ?_, fun j hj hocc => ?_⟩
  · unfold line
    rw [length_append]
    exact Nat.add_le_add_left (Nat.succ_le_succ (Nat.zero_le _)) _
  · unfold line
    rw [drop_left]
    exact ⟨_, rfl⟩
  · unfold line at hocc
    rw [drop_append_of_le_length hj.le, drop_eq_getElem_cons hj, cons_append, cons_prefix_cons] at hocc
    exact f.name_colon (hocc.1 ▸ getElem_mem hj)

theorem valueStart_line : valueStart f.line f.name.length = f.name.length + 1 + f.spaces := by
  have hdrop : f.line.drop (f.name.length + 1) = List.replicate f.spaces 0x20 ++ f.value := by
    unfold line
    rw [drop_append, drop_eq_nil_of_le (by omega), nil_append, Nat.add_sub_cancel_left]
    rfl
  have hnone : f.value.takeWhile (· = 0x20) = [] := by
    cases hv : f.value with
    | nil => rfl
    | cons x xs =>
      refine takeWhile_cons_of_neg ?_
      have hx := f.value_space
      rw [hv] at hx
      simpa using hx
  unfold valueStart
  rw [hdrop, takeWhile_append_of_pos (by intro x hx; simpa using (mem_replicate.mp hx).2), hnone,
    append_nil, length_replicate]

/-- **A header line shows its name and its value.** -/
theorem fieldOf_line : fieldOf f.line = some f.field := by
  unfold fieldOf
  rw [indexOf?_colon, Option.map_some, valueStart_line]
  unfold line field
  rw [take_left, drop_append, drop_eq_nil_of_le (by omega), nil_append,
    show f.name.length + 1 + f.spaces - f.name.length = f.spaces + 1 by omega, drop_succ_cons,
    drop_left' length_replicate]

end HeaderField

theorem headerLines_map (fs : List HeaderField) : HeaderLines (fs.map HeaderField.line) := by
  intro line hline
  obtain ⟨f, -, rfl⟩ := mem_map.mp hline
  exact f.line_ok

theorem filterMap_fieldOf (fs : List HeaderField) :
    (fs.map HeaderField.line).filterMap fieldOf = fs.map HeaderField.field := by
  induction fs with
  | nil => rfl
  | cons f fs ih => rw [map_cons, filterMap_cons_some f.fieldOf_line, ih, map_cons]

/-- `HTTP/1.1`, three digits and a reason. -/
structure StatusLine where
  digits : List U8
  reason : List U8
  three : digits.length = 3
  digits_ok : ∀ d ∈ digits, isDigit d = true
  reason_noSep : NoSep 0x0D 0x0A reason

namespace StatusLine

variable (s : StatusLine)

/-- The line as it is written. -/
def line : List U8 := [0x48, 0x54, 0x54, 0x50, 0x2F, 0x31, 0x2E, 0x31, 0x20] ++ (s.digits ++ 0x20 :: s.reason)

theorem statusOf_line : statusOf s.line = some (decimalValue s.digits) := by
  have hword : s.line.dropWhile (· ≠ 0x20) = 0x20 :: (s.digits ++ 0x20 :: s.reason) := rfl
  have hdigits : (s.digits ++ 0x20 :: s.reason).takeWhile isDigit = s.digits := by
    rw [takeWhile_append_of_pos s.digits_ok, takeWhile_cons_of_neg (by decide), append_nil]
  unfold statusOf
  rw [hword]
  dsimp only
  rw [hdigits, if_pos s.three]

theorem line_noSep : NoSep 0x0D 0x0A s.line := by
  have hdigits : NoSep 0x0D 0x0A s.digits := by
    intro hinfix
    have hmem : (0x0D : U8) ∈ s.digits := hinfix.subset mem_cons_self
    exact absurd (s.digits_ok _ hmem) (by decide)
  have hversion : NoSep 0x0D 0x0A ([0x48, 0x54, 0x54, 0x50, 0x2F, 0x31, 0x2E, 0x31] : List U8) := by decide
  exact hversion.append_cons (hdigits.append_cons s.reason_noSep (by decide) (by decide)) (by decide) (by decide)

end StatusLine

/-- The response with a status line, header lines and a body. -/
def responseText (s : StatusLine) (fs : List HeaderField) (body : List U8) : HttpText where
  status := s.line
  lines := fs.map HeaderField.line
  body := body
  status_noSep := s.line_noSep
  lines_ok := headerLines_map fs

theorem fields_responseText (s : StatusLine) (fs : List HeaderField) (body : List U8) :
    (responseText s fs body).fields = (fs.take httpMaxHeaders).map HeaderField.field := by
  unfold HttpText.fields responseText
  rw [← map_take, filterMap_fieldOf]

/-! ## Chunks -/

/-- A chunk: its size in hexadecimal digits of either case, an extension behind a semicolon, and the data. -/
structure HttpChunk where
  digits : List U8
  extension : List U8
  data : List U8
  digits_ok : ∀ d ∈ digits, (hexDigit d).isSome = true
  extension_ok : extension = [] ∨ extension.head? = some 0x3B
  extension_noSep : NoSep 0x0D 0x0A extension
  size_eq : hexValue digits = data.length

namespace HttpChunk

variable (c : HttpChunk)

def sizeLine : List U8 := c.digits ++ c.extension

/-- The chunk as it is written. -/
def encode : List U8 := c.sizeLine ++ crlf ++ c.data ++ crlf

theorem sizeLine_noSep : NoSep 0x0D 0x0A c.sizeLine := by
  have hfront : ∀ ds : List U8, (∀ d ∈ ds, (hexDigit d).isSome = true) → NoSep 0x0D 0x0A (ds ++ c.extension) := by
    intro ds hds
    induction ds with
    | nil => exact c.extension_noSep
    | cons d ds ih =>
      refine (ih fun x hx => hds x (mem_cons_of_mem d hx)).cons ?_
      rintro rfl
      exact absurd (hds _ mem_cons_self) (by decide)
  exact hfront c.digits c.digits_ok

theorem hexValue_sizeLine : hexValue c.sizeLine = c.data.length := by
  have hstop : c.extension.takeWhile (fun d => (hexDigit d).isSome) = [] := by
    rcases c.extension_ok with hnil | hhead
    · rw [hnil]
      rfl
    · obtain ⟨rest, hrest⟩ := head?_eq_some_iff.mp hhead
      rw [hrest]
      exact takeWhile_cons_of_neg (by decide)
  rw [← c.size_eq]
  unfold hexValue sizeLine
  rw [takeWhile_append_of_pos c.digits_ok, hstop, append_nil, takeWhile_eq_self_iff.mpr c.digits_ok]

theorem length_encode : c.encode.length = c.sizeLine.length + 2 + c.data.length + 2 := by
  unfold encode
  rw [length_append, length_append, length_append]
  rfl

end HttpChunk

/-- Chunks with data, the last chunk, and what trails behind. -/
structure ChunkedBody where
  chunks : List HttpChunk
  last : HttpChunk
  trailing : List U8
  chunks_ne : ∀ c ∈ chunks, c.data ≠ []
  last_eq : last.data = []

variable {fuel : Nat}

namespace ChunkedBody

/-- The chunks as they are written, with the last one and what trails. -/
def encodeFrom (cb : ChunkedBody) (cs : List HttpChunk) : List U8 :=
  cs.flatMap HttpChunk.encode ++ (cb.last.sizeLine ++ 0x0D :: 0x0A :: cb.trailing)

variable (cb : ChunkedBody)

/-- The body as it is written. -/
def bytes : List U8 := cb.encodeFrom cb.chunks

/-- What the chunks hold. -/
def data : List U8 := cb.chunks.flatMap HttpChunk.data

variable {cb} {body pre : List U8} {c : HttpChunk} {rest : List U8}

theorem at_sizeLine (hbody : body = pre ++ (c.sizeLine ++ 0x0D :: 0x0A :: rest)) (hlen : body.length < 2 ^ 31)
    (hdata : c.data.length ≤ rest.length) : indexOf? crlf (body.drop pre.length) = some c.sizeLine.length ∧
      chunkSize (bytesAt body pre.length c.sizeLine.length) = c.data.length := by
  have hdrop : body.drop pre.length = c.sizeLine ++ 0x0D :: 0x0A :: rest := by rw [hbody, drop_left]
  refine ⟨hdrop ▸ indexOf?_line cr_ne_lf c.sizeLine_noSep rest, ?_⟩
  have hsize := congrArg List.length hbody
  rw [length_append, length_append, length_cons, length_cons] at hsize
  unfold bytesAt chunkSize
  rw [hdrop, take_left, c.hexValue_sizeLine, mod_eq_of_lt (by omega)]

theorem encodeFrom_cons (cs : List HttpChunk) :
    cb.encodeFrom (c :: cs) = c.sizeLine ++ 0x0D :: 0x0A :: (c.data ++ (crlf ++ cb.encodeFrom cs)) := by
  unfold encodeFrom HttpChunk.encode crlf
  simp only [flatMap_cons, append_assoc, cons_append, nil_append]

variable {cs : List HttpChunk}

/-- What stands at the place of a chunk with data. -/
theorem at_chunk (hlen : body.length < 2 ^ 31) (hbody : body = pre ++ cb.encodeFrom (c :: cs)) :
    indexOf? crlf (body.drop pre.length) = some c.sizeLine.length ∧
      chunkSize (bytesAt body pre.length c.sizeLine.length) = c.data.length ∧ body = (pre ++ c.encode) ++ cb.encodeFrom cs ∧
      pre.length + c.sizeLine.length + 2 + c.data.length + 2 = (pre ++ c.encode).length := by
  have hplace := hbody.trans (congrArg (pre ++ ·) (encodeFrom_cons cs))
  obtain ⟨hm, hsize⟩ := at_sizeLine hplace hlen (by rw [length_append]; omega)
  refine ⟨hm, hsize, ?_, ?_⟩
  · rw [hbody]
    unfold encodeFrom
    simp only [flatMap_cons, append_assoc]
  · rw [length_append, c.length_encode]
    omega

/-- **The chunks are read as they were written.** -/
theorem readChunks_from (hlen : body.length < 2 ^ 31) (hcs : ∀ c ∈ cs, c.data ≠ [])
    (hbody : body = pre ++ cb.encodeFrom cs) (hfuel : cs.length < fuel) :
    readChunks body fuel pre.length = some (cs.flatMap HttpChunk.data) := by
  induction cs generalizing pre fuel with
  | nil =>
    obtain ⟨fuel, rfl⟩ : ∃ k, fuel = k + 1 := ⟨fuel - 1, by rw [length_nil] at hfuel; omega⟩
    have hlast := cb.last_eq
    obtain ⟨hm, hsize⟩ := at_sizeLine (c := cb.last) hbody hlen (by rw [hlast]; exact zero_le _)
    rw [readChunks, hm]
    dsimp only
    rw [hsize, hlast, if_pos length_nil]
    rfl
  | cons c cs ih =>
    obtain ⟨fuel, rfl⟩ : ∃ k, fuel = k + 1 := ⟨fuel - 1, by rw [length_cons] at hfuel; omega⟩
    obtain ⟨hm, hsize, hbody', hpre⟩ := at_chunk hlen hbody
    have hne : c.data.length ≠ 0 := fun h => hcs c mem_cons_self (eq_nil_of_length_eq_zero h)
    have hchunk : bytesAt body (pre.length + c.sizeLine.length + 2) c.data.length = c.data := by
      have hdata : body.drop pre.length = (c.sizeLine ++ crlf) ++ (c.data ++ (crlf ++ cb.encodeFrom cs)) := by
        rw [hbody, drop_left, encodeFrom_cons]
        simp only [crlf, append_assoc, cons_append, nil_append]
      have hbytes := bytesAt_eq hdata
      rwa [length_append, show crlf.length = 2 from rfl, ← add_assoc] at hbytes
    have hroom : ¬ body.length < (pre ++ c.encode).length := by
      have hle := congrArg List.length hbody'
      rw [length_append] at hle
      omega
    rw [readChunks, hm]
    dsimp only
    rw [hsize, if_neg hne, hpre, if_neg hroom,
      ih (fun x hx => hcs x (mem_cons_of_mem c hx)) hbody' (by rw [length_cons] at hfuel; omega), hchunk]
    rfl

theorem chunkEnd_le (hlen : body.length < 2 ^ 31) (hbody : body = pre ++ cb.encodeFrom cs) {q m : Nat}
    (hq : Relation.ReflTransGen (ChunkStep body) pre.length q) (hm : indexOf? crlf (body.drop q) = some m)
    (hsize : chunkSize (bytesAt body q m) ≠ 0) : q + m + 2 + chunkSize (bytesAt body q m) + 2 ≤ body.length := by
  induction cs generalizing pre with
  | nil =>
    have hlast := cb.last_eq
    obtain ⟨hm', hzero⟩ := at_sizeLine (c := cb.last) hbody hlen (by rw [hlast]; exact zero_le _)
    rw [hlast, length_nil] at hzero
    have hstuck : ∀ k, indexOf? crlf (body.drop pre.length) = some k → chunkSize (bytesAt body pre.length k) = 0 := by
      intro k hk
      obtain rfl := Option.some.inj (hk.symm.trans hm')
      exact hzero
    rcases Relation.ReflTransGen.cases_head hq with rfl | ⟨p, ⟨k, hk, hnz, -⟩, -⟩
    · exact absurd (hstuck m hm) hsize
    · exact absurd (hstuck k hk) hnz
  | cons c cs ih =>
    obtain ⟨hm', hsize', hbody', hpre⟩ := at_chunk hlen hbody
    rcases Relation.ReflTransGen.cases_head hq with rfl | ⟨p, ⟨k, hk, -, rfl⟩, hrest⟩
    · obtain rfl := Option.some.inj (hm.symm.trans hm')
      have hle := congrArg List.length hbody'
      rw [length_append] at hle
      omega
    · obtain rfl := Option.some.inj (hk.symm.trans hm')
      rw [hsize', hpre] at hrest
      exact ih hbody' hrest

theorem bytes_eq (cb : ChunkedBody) : cb.bytes = [] ++ cb.encodeFrom cb.chunks := rfl

/-- **The sizes of a body as it is written fit.** -/
theorem sizesFit (cb : ChunkedBody) {start : Nat} (hlen : start + cb.bytes.length < 2 ^ 31) : SizesFit start cb.bytes := by
  intro p m hp hm hsize
  have hle := chunkEnd_le (by omega) cb.bytes_eq hp hm hsize
  omega

theorem length_data_lt (cb : ChunkedBody) : cb.data.length < cb.bytes.length := by
  have hle : cb.data.length ≤ (cb.chunks.flatMap HttpChunk.encode).length := by
    unfold data
    induction cb.chunks with
    | nil => exact le_refl _
    | cons c cs ih =>
      rw [flatMap_cons, flatMap_cons, length_append, length_append, c.length_encode]
      omega
  unfold bytes encodeFrom
  rw [length_append, length_append, length_cons, length_cons]
  omega

theorem length_chunks_le (cb : ChunkedBody) : cb.chunks.length ≤ cb.bytes.length := by
  have hle : cb.chunks.length ≤ (cb.chunks.flatMap HttpChunk.encode).length := by
    induction cb.chunks with
    | nil => exact zero_le _
    | cons c cs ih =>
      rw [flatMap_cons, length_append, length_cons, c.length_encode]
      omega
  unfold bytes encodeFrom
  rw [length_append]
  omega

end ChunkedBody

/-! ## Chunked responses -/

/-- What the parser answers for a chunked response that is well formed. -/
theorem HttpText.answer_chunked (t : HttpText) (hlen : t.bytes.length < 2 ^ 31) {cb : ChunkedBody}
    (hbody : t.body = cb.bytes) (hframing : framingOf t.fields = .chunked) (hfuel : t.body.length < fuel) (code : Nat)
    : t.answer fuel code = .done (ofList (splice t.bytes t.bodyStart cb.data),
      ⟨code, t.views, t.bodyStart, cb.data.length⟩) := by
  have hsize := t.length_bytes
  have hchunks := cb.length_chunks_le
  rw [hbody] at hsize hfuel
  have hread := t.dechunk_body hlen (by rw [hbody]; exact cb.sizesFit (by omega)) (by rw [hbody]; exact hfuel)
  have hdata : readChunks cb.bytes fuel 0 = some cb.data :=
    ChunkedBody.readChunks_from (by omega) cb.chunks_ne cb.bytes_eq (by omega)
  rw [hbody, hdata] at hread
  unfold answer
  rw [hframing]
  rw [hread]
  rfl

/-- The headers are not touched when a body is written. -/
theorem HttpText.views_splice (t : HttpText) (out : List U8) :
    t.views.map (Option.map fun v => (v.nameIn (splice t.bytes t.bodyStart out), v.valueIn (splice t.bytes t.bodyStart out))) =
      (t.lines.take httpMaxHeaders).map fieldOf := by
  have hwhole : LinesAt (splice t.bytes t.bodyStart out) 0 (t.status :: t.lines) := by
    have hhead : inLines 0x0D 0x0A (t.status :: t.lines) <+: t.bytes.take t.bodyStart := by
      refine prefix_take_iff.mpr ⟨⟨_, t.bytes_eq.symm⟩, ?_⟩
      rw [length_inLines_eq, bodyStart]
      omega
    refine hhead.trans ?_
    unfold splice
    rw [append_assoc]
    exact prefix_append _ _
  have hat := hwhole.tail
  rw [zero_add] at hat
  exact (headerViews_show t.lines_ok hat httpMaxHeaders).2

/-- **A chunked response is parsed** to its status code, its headers with their names and values, and the data of its
chunks. -/
theorem httpParseResponse_chunked (s : StatusLine) (fs : List HeaderField) (cb : ChunkedBody) (hcount : fs.length ≤ 16)
    (hte : ∃ v, lookup transferEncodingName (fs.map HeaderField.field) = some v ∧ lowered v = lowered chunkedText)
    (hlen : (responseText s fs cb.bytes).bytes.length < 2 ^ 31) : ∃ fuel raw' resp,
      httpParseResponse fuel (ofList (responseText s fs cb.bytes).bytes) = .done (ofList raw', resp) ∧
      resp.statusCode = decimalValue s.digits ∧
      resp.headers.map (Option.map fun v => (v.nameIn raw', v.valueIn raw')) = fs.map (fun f => some f.field) ∧
      resp.bodyLen = cb.data.length ∧ bytesAt raw' resp.body cb.data.length = cb.data := by
  have htake : fs.take httpMaxHeaders = fs := take_of_length_le hcount
  have hframing : framingOf (responseText s fs cb.bytes).fields = .chunked := by
    obtain ⟨v, hv, hchunked⟩ := hte
    have hseven : v.take 7 = v := by
      have hlength := congrArg List.length hchunked
      unfold lowered at hlength
      rw [length_map, length_map, show chunkedText.length = 7 from rfl] at hlength
      exact take_of_length_le hlength.le
    rw [fields_responseText, htake]
    exact if_pos ⟨v, hv, by unfold codesChunks; rw [hseven, hchunked]⟩
  have hanswer := (responseText s fs cb.bytes).answer_chunked hlen rfl hframing (lt_succ_self _) (decimalValue s.digits)
  refine ⟨cb.bytes.length + 1, splice (responseText s fs cb.bytes).bytes (responseText s fs cb.bytes).bodyStart cb.data,
    ⟨decimalValue s.digits, (responseText s fs cb.bytes).views, (responseText s fs cb.bytes).bodyStart, cb.data.length⟩,
    ?_, rfl, ?_, rfl, ?_⟩
  · rw [HttpText.httpParseResponse_eq, show statusOf (responseText s fs cb.bytes).status = _ from s.statusOf_line]
    exact hanswer
  · refine ((responseText s fs cb.bytes).views_splice cb.data).trans ?_
    show ((fs.map HeaderField.line).take httpMaxHeaders).map fieldOf = _
    rw [← map_take, htake, map_map]
    exact map_congr_left fun f _ => f.fieldOf_line
  · have hsize := (responseText s fs cb.bytes).length_bytes
    unfold bytesAt splice
    dsimp only
    rw [append_assoc, drop_left' (by rw [length_take]; omega), take_left]

/-- `HTTP/1.1 200 OK`. -/
def okStatus : StatusLine where
  digits := [0x32, 0x30, 0x30]
  reason := [0x4F, 0x4B]
  three := rfl
  digits_ok := by decide
  reason_noSep := by decide

/-- `Transfer-Encoding: chunked`. -/
def chunkedField : HeaderField where
  name := transferEncodingName
  spaces := 1
  value := chunkedText
  name_colon := by decide
  name_noSep := by decide
  value_noSep := by decide
  value_space := by decide

/-- A chunk of one byte, and the last chunk. -/
def oneChunk : ChunkedBody where
  chunks := [⟨[0x31], [0x3B, 0x61], [0x58], by decide, by decide, by decide, by decide⟩]
  last := ⟨[0x30], [], [], by decide, by decide, by decide, by decide⟩
  trailing := crlf
  chunks_ne := by decide
  last_eq := rfl

theorem httpParseResponse_oneChunk : (responseText okStatus [chunkedField] oneChunk.bytes).bytes.length < 2 ^ 31 ∧
    ∃ fuel raw' resp, httpParseResponse fuel (ofList (responseText okStatus [chunkedField] oneChunk.bytes).bytes) =
        .done (ofList raw', resp) ∧ resp.statusCode = 200 ∧ bytesAt raw' resp.body 1 = [0x58] := by
  obtain ⟨fuel, raw', resp, hparse, hcode, -, -, hbody⟩ := httpParseResponse_chunked okStatus [chunkedField] oneChunk
    (by decide) ⟨chunkedText, by decide, rfl⟩ (by decide)
  exact ⟨by decide, fuel, raw', resp, hparse, hcode, hbody⟩

end MinicOs
