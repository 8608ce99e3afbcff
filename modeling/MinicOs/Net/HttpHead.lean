import MinicOs.Lib.Lines
import MinicOs.Net.Http
import MinicOs.Security.X509Reads

/-!
# The head of a response

What the functions over the status line and the headers compute, on the bytes of the buffer. A head is a block of lines
(`Lib/Lines.lean`), and the buffer of a response is such a block with the body behind it.
-/

namespace MinicOs

open List Exec Option Nat

variable {raw : Cells U8}

/-! ## Searches -/

variable {hay : List U8} {i : Nat}

theorem matchAt_eq (h : raw.Starts hay) (needle : List U8) (hi : i + needle.length ≤ hay.length) :
    matchAt raw needle i = .done (decide (needle <+: hay.drop i)) := by
  induction needle generalizing i with
  | nil =>
    rfl
  | cons c cs ih =>
    rw [length_cons] at hi
    have hlt : i < hay.length := by omega
    rw [matchAt, h.read (getElem?_eq_getElem hlt), done_bind, ih (by omega), drop_eq_getElem_cons hlt]
    by_cases hc : hay[i] = c
    · rw [if_pos hc, hc]
      simp only [cons_prefix_cons, true_and]
    · rw [if_neg hc]
      simp only [cons_prefix_cons, Ne.symm hc, false_and, decide_false]
      rfl

variable {n : Nat}

theorem findFrom_eq (h : raw.Starts hay) (needle : List U8) (hn : i + n + needle.length ≤ hay.length + 1) :
    findFrom raw needle n i = .done (scanFrom (fun i => decide (needle <+: hay.drop i)) n i) := by
  induction n generalizing i with
  | zero => rfl
  | succ n ih =>
    rw [findFrom, matchAt_eq h needle (by omega), done_bind, ih (by omega), scanFrom]
    split <;> rfl

/-- **`find_bytes` finds the first occurrence.** -/
theorem findBytes_eq (h : raw.Starts hay) {needle : List U8} (hne : needle ≠ []) :
    findBytes raw hay.length needle = .done (indexOf? needle hay) := by
  have hpos := length_pos_iff.mpr hne
  unfold findBytes indexOf?
  by_cases hlong : (needle.length : Int) > hay.length
  · rw [if_pos (Or.inr hlong), show hay.length + 1 - needle.length = 0 by omega]
    rfl
  · rw [if_neg (by omega), findFrom_eq h needle (by omega)]
    unfold scan
    rw [show ((hay.length : Int) - needle.length + 1).toNat = hay.length + 1 - needle.length by omega]

/-- The bytes compared without regard to case. -/
def lowered (bytes : List U8) : List U8 := bytes.map toLowerAscii

theorem streqCiFrom_eq {a : List U8} (h : raw.Starts a) (n : Nat) (b : List U8) (hi : i + n ≤ a.length) :
    streqCiFrom raw n b i = .done (decide (lowered ((a.drop i).take n) = lowered b)) := by
  induction n generalizing b i with
  | zero => cases b <;> rfl
  | succ n ih =>
    have hlt : i < a.length := by omega
    have htake : (a.drop i).take (n + 1) = a[i] :: (a.drop (i + 1)).take n := by
      rw [drop_eq_getElem_cons hlt, take_succ_cons]
    cases b with
    | nil =>
      rw [streqCiFrom, htake]
      rfl
    | cons c cs =>
      rw [streqCiFrom, h.read (getElem?_eq_getElem hlt), done_bind, ih cs (by omega), htake]
      unfold lowered
      rw [map_cons, map_cons]
      by_cases hc : toLowerAscii a[i] = toLowerAscii c
      · rw [if_neg (not_not.mpr hc), hc]
        simp only [cons.injEq, true_and]
      · rw [if_pos hc]
        simp only [cons.injEq, hc, false_and, decide_false]
        rfl

/-- **`streq_ci_n` compares a field with a text.** -/
theorem streqCiN_eq {a : List U8} (h : raw.Starts a) (b : List U8) :
    streqCiN raw b a.length = .done (decide (lowered a = lowered b)) := by
  unfold streqCiN
  rw [streqCiFrom_eq h a.length b (by omega), drop_zero, take_length]

/-! ## The status line -/

/-- A number in decimal. -/
def decimalValue (digits : List U8) : Nat := digits.foldl (fun v c => v * 10 + (c.toNat - 0x30)) 0

/-- The status code of a status line: three digits behind the first space. -/
def statusOf (line : List U8) : Option Nat :=
  match line.dropWhile (· ≠ 0x20) with
  | [] => none
  | _ :: rest =>
    if (rest.takeWhile isDigit).length = 3 then some (decimalValue (rest.takeWhile isDigit)) else none

variable {word : List U8}

theorem skipWord_eq (h : raw.Starts word) (hn : i + n = word.length) : skipWord raw n i =
      .done (if ((word.drop i).dropWhile (· ≠ 0x20)).length = 0 then none
        else some (word.length - ((word.drop i).dropWhile (· ≠ 0x20)).length)) := by
  induction n generalizing i with
  | zero =>
    rw [drop_eq_nil_of_le (by omega)]
    rfl
  | succ n ih =>
    have hlt : i < word.length := by omega
    rw [skipWord, h.read (getElem?_eq_getElem hlt), done_bind, ih (by omega),
      drop_eq_getElem_cons hlt]
    by_cases hb : word[i] = 0x20
    · rw [if_pos hb, dropWhile_cons_of_neg (by simpa using hb), length_cons, if_neg (by omega),
        length_drop, show word.length - (word.length - (i + 1) + 1) = i by omega]
      rfl
    · rw [if_neg hb, dropWhile_cons_of_pos (by simpa using hb)]

theorem statusDigits_eq (h : raw.Starts word) (hn : i + n = word.length) (code digits : Nat) :
    statusDigits raw n i code digits =
      .done (((word.drop i).takeWhile isDigit).foldl (fun v c => v * 10 + (c.toNat - 0x30)) code,
        digits + ((word.drop i).takeWhile isDigit).length) := by
  induction n generalizing i code digits with
  | zero =>
    rw [drop_eq_nil_of_le (by omega)]
    rfl
  | succ n ih =>
    have hlt : i < word.length := by omega
    rw [statusDigits, h.read (getElem?_eq_getElem hlt), done_bind, drop_eq_getElem_cons hlt, takeWhile_cons]
    cases isDigit word[i] with
    | true =>
      rw [if_pos rfl, if_pos rfl, ih (by omega), foldl_cons, length_cons]
      refine congrArg (fun d => Exec.done (_, d)) ?_
      omega
    | false =>
      rfl

variable {line : List U8}

theorem parseStatusLine_eq (h : raw.Starts line) : parseStatusLine raw line.length =
      match statusOf line with
      | none => .refused
      | some code => .done code := by
  unfold parseStatusLine statusOf
  rw [skipWord_eq h (by omega), drop_zero, done_bind]
  cases hrest : line.dropWhile (· ≠ 0x20) with
  | nil => rfl
  | cons x rest =>
    have hle : (x :: rest).length ≤ line.length := hrest ▸ (dropWhile_suffix _).length_le
    have hsuffix : line.drop (line.length - rest.length) = rest := by
      have hs := (suffix_cons x rest).trans (hrest ▸ dropWhile_suffix _)
      exact (suffix_iff_eq_drop.mp hs).symm
    rw [length_cons] at hle
    rw [length_cons, if_neg (by omega)]
    dsimp only
    rw [show line.length - (rest.length + 1) + 1 = line.length - rest.length by omega,
      statusDigits_eq h (by omega), done_bind, hsuffix]
    rw [zero_add]
    by_cases h3 : (rest.takeWhile isDigit).length = 3
    · rw [if_neg (not_not.mpr h3), if_pos h3]
      rfl
    · rw [if_pos h3, if_neg h3]

/-! ## Header lines -/

/-- Where the value of a header line begins, behind the colon and the spaces after it. -/
def valueStart (line : List U8) (colon : Nat) : Nat :=
  colon + 1 + ((line.drop (colon + 1)).takeWhile (· = 0x20)).length

/-- What `parse_header_line` records of a line that begins at a place. -/
def headerView (cursor : Nat) (line : List U8) : Option HttpHeader :=
  (indexOf? [0x3A] line).map fun colon =>
    ⟨cursor, colon, cursor + valueStart line colon, line.length - valueStart line colon⟩

/-- The name and the value of a header line. -/
def fieldOf (line : List U8) : Option (List U8 × List U8) :=
  (indexOf? [0x3A] line).map fun colon => (line.take colon, line.drop (valueStart line colon))

theorem skipSpaces_eq (h : raw.Starts word) {vstart : Nat} (hn : vstart + n = word.length) :
    skipSpaces raw n vstart = .done (vstart + ((word.drop vstart).takeWhile (· = 0x20)).length) := by
  induction n generalizing vstart with
  | zero =>
    rw [drop_eq_nil_of_le (by omega)]
    rfl
  | succ n ih =>
    have hlt : vstart < word.length := by omega
    rw [skipSpaces, h.read (getElem?_eq_getElem hlt), done_bind, drop_eq_getElem_cons hlt]
    by_cases hb : word[vstart] = 0x20
    · rw [if_pos hb, ih (by omega), takeWhile_cons_of_pos (by simpa using hb), length_cons]
      refine congrArg Exec.done ?_
      omega
    · rw [if_neg hb, takeWhile_cons_of_neg (by simpa using hb)]
      rfl

variable {cursor : Nat}

theorem parseHeaderLine_eq (h : Cells.Starts (raw.drop cursor) line) :
    parseHeaderLine raw cursor line.length = .done (headerView cursor line) := by
  unfold parseHeaderLine headerView
  rw [findBytes_eq h (cons_ne_nil _ _), done_bind]
  cases hcolon : indexOf? [0x3A] line with
  | none => rfl
  | some colon =>
    have hle := (indexOf?_eq_some.mp hcolon).1
    rw [length_singleton] at hle
    dsimp only [map_some]
    rw [skipSpaces_eq h (by omega), done_bind]
    rfl

/-- The views of lines that follow each other. -/
def headerViews : Nat → List (List U8) → List (Option HttpHeader)
  | _, [] => []
  | cursor, line :: lines => headerView cursor line :: headerViews (cursor + line.length + 2) lines

/-- Lines as a head has them behind the status line. -/
def HeaderLines (lines : List (List U8)) : Prop := ∀ line ∈ lines, NoSep 0x0D 0x0A line ∧ line ≠ []

variable {lines : List (List U8)}

theorem HeaderLines.tail (h : HeaderLines (line :: lines)) : HeaderLines lines := fun l hl => h l (mem_cons_of_mem line hl)

theorem cr_ne_lf : (0x0D : U8) ≠ 0x0A := by decide

theorem indexOf?_inLines (hline : NoSep 0x0D 0x0A line) (lines : List (List U8)) :
    (indexOf? crlf (inLines 0x0D 0x0A (line :: lines))).getD (inLines 0x0D 0x0A (line :: lines)).length = line.length := by
  cases lines with
  | nil =>
    have hnone : indexOf? crlf line = none := indexOf?_eq_none.mpr hline
    rw [inLines, hnone]
    rfl
  | cons l ls =>
    have hsome : indexOf? crlf (line ++ 0x0D :: 0x0A :: inLines 0x0D 0x0A (l :: ls)) = some line.length :=
      indexOf?_line cr_ne_lf hline _
    rw [inLines, hsome]
    rfl

/-- The bytes that lines take, each with its separator. -/
def linesLength (lines : List (List U8)) : Nat := (lines.map fun line => line.length + 2).sum

theorem linesLength_cons (line : List U8) (lines : List (List U8)) :
    linesLength (line :: lines) = line.length + 2 + linesLength lines := sum_cons

theorem length_le_linesLength (lines : List (List U8)) : lines.length ≤ linesLength lines := by
  induction lines with
  | nil => exact zero_le _
  | cons line lines ih =>
    rw [linesLength_cons, length_cons]
    omega

theorem length_inLines (line : List U8) (lines : List (List U8)) :
    (inLines 0x0D 0x0A (line :: lines)).length + 2 = linesLength (line :: lines) := by
  induction lines generalizing line with
  | nil => rfl
  | cons l ls ih =>
    rw [inLines, linesLength_cons, ← ih, length_append, length_cons, length_cons]
    omega

/-- Lines that follow each other from a place on. -/
def LinesAt (data : List U8) (cursor : Nat) (lines : List (List U8)) : Prop :=
  inLines 0x0D 0x0A lines <+: data.drop cursor

variable {data : List U8}

theorem LinesAt.tail (h : LinesAt data cursor (line :: lines)) : LinesAt data (cursor + line.length + 2) lines := by
  cases lines with
  | nil => exact nil_prefix
  | cons l ls =>
    obtain ⟨rest, hrest⟩ := h
    refine ⟨rest, ?_⟩
    rw [add_assoc, ← drop_drop, ← hrest, inLines, append_assoc, drop_append,
      drop_eq_nil_of_le (by omega), nil_append, Nat.add_sub_cancel_left]
    rfl

theorem LinesAt.head (h : LinesAt data cursor (line :: lines)) : line <+: data.drop cursor := by
  cases lines with
  | nil => exact h
  | cons l ls => exact (prefix_append _ _).trans h

theorem Cells.Starts.at {xs : List U8} (h : raw.Starts data) {p : Nat} (hxs : xs <+: data.drop p) :
    Cells.Starts (raw.drop p) xs :=
  (hxs.map some).trans (h.drop p)

/-- **The loop over the header lines**: sixteen headers at most, each the view of its line. -/
theorem parseHeaders_eq {lines : List (List U8)} (hlines : HeaderLines lines) {fuel cursor headerBlockEnd : Nat}
    (h : raw.Starts data) (hat : LinesAt data cursor lines)
    (hend : headerBlockEnd + 2 = cursor + linesLength lines) (hfuel : lines.length < fuel)
    (headers : List (Option HttpHeader)) : parseHeaders raw headerBlockEnd fuel cursor headers =
      .done (headers ++ (headerViews cursor lines).take (httpMaxHeaders - headers.length)) := by
  induction fuel generalizing lines cursor headers with
  | zero => exact absurd hfuel (not_lt_zero _)
  | succ fuel ih =>
    rw [parseHeaders]
    cases lines with
    | nil =>
      rw [if_neg (by rw [show linesLength [] = 0 from rfl] at hend; omega), headerViews, take_nil, append_nil]
      rfl
    | cons line lines =>
      obtain ⟨hline, hne⟩ := hlines line mem_cons_self
      have hpos := length_pos_iff.mpr hne
      have hsize := length_inLines line lines
      have hnext := @ih lines hlines.tail (cursor + line.length + 2) hat.tail
        (by rw [linesLength_cons] at hend; omega) (by rw [length_cons] at hfuel; omega)
      have hremaining : headerBlockEnd - cursor = (inLines 0x0D 0x0A (line :: lines)).length := by omega
      have hcursor : cursor < headerBlockEnd := by
        rw [linesLength_cons] at hend hsize
        omega
      rw [if_pos hcursor]
      dsimp only
      rw [hremaining, findBytes_eq (h.at hat) (show crlf ≠ [] by decide), done_bind, indexOf?_inLines hline,
        parseHeaderLine_eq (h.at hat.head), done_bind, headerViews]
      by_cases hroom : headers.length < httpMaxHeaders
      · rw [if_pos ⟨hpos, hroom⟩, hnext, length_append, length_singleton, append_assoc]
        obtain ⟨k, hk⟩ : ∃ k, httpMaxHeaders - headers.length = k + 1 := ⟨httpMaxHeaders - headers.length - 1, by omega⟩
        rw [hk, take_succ_cons, show httpMaxHeaders - (headers.length + 1) = k by omega]
        rfl
      · rw [if_neg fun hboth => hroom hboth.2, hnext, show httpMaxHeaders - headers.length = 0 by omega, take_zero,
          take_zero]

/-! ## Finding a header -/

/-- A view lies in the buffer. -/
def HttpHeader.Inside (h : HttpHeader) (len : Nat) : Prop :=
  h.name + h.nameLen ≤ len ∧ h.value + h.valueLen ≤ len

def HttpHeader.nameIn (data : List U8) (h : HttpHeader) : List U8 := bytesAt data h.name h.nameLen

def HttpHeader.valueIn (data : List U8) (h : HttpHeader) : List U8 := bytesAt data h.value h.valueLen

theorem starts_bytesAt (h : raw.Starts data) (p n : Nat) : Cells.Starts (raw.drop p) (bytesAt data p n) :=
  (h.drop p).take n

/-- **`http_find_header` finds the first header of the name.** -/
theorem httpFindHeader_eq (h : raw.Starts data) (name : List U8) {headers : List (Option HttpHeader)}
    (hin : ∀ v, some v ∈ headers → v.Inside data.length) : httpFindHeader raw name headers =
      .done ((headers.filterMap id).find? fun v => lowered (v.nameIn data) = lowered name) := by
  induction headers with
  | nil => rfl
  | cons header headers ih =>
    have htail := ih fun v hv => hin v (mem_cons_of_mem _ hv)
    cases header with
    | none =>
      rw [httpFindHeader, htail]
      rfl
    | some v =>
      have hlen : (v.nameIn data).length = v.nameLen := length_bytesAt (hin v mem_cons_self).1
      have hsame := streqCiN_eq (starts_bytesAt h v.name v.nameLen) name
      rw [show (bytesAt data v.name v.nameLen).length = v.nameLen from hlen] at hsame
      rw [httpFindHeader, hsame, done_bind, htail]
      show _ = Exec.done (match decide (lowered (bytesAt data v.name v.nameLen) = lowered name) with
        | true => some v
        | false => _)
      cases decide (lowered (bytesAt data v.name v.nameLen) = lowered name) <;> rfl

theorem isChunked_eq (h : raw.Starts data) {te : HttpHeader} (hin : te.Inside data.length) :
    isChunked raw (some te) = .done (decide (lowered ((te.valueIn data).take 7) = lowered chunkedText)) := by
  have hlen : (te.valueIn data).length = te.valueLen := length_bytesAt hin.2
  rw [isChunked]
  by_cases h7 : te.valueLen ≥ 7
  · have hsame := streqCiN_eq ((starts_bytesAt h te.value te.valueLen).take 7) chunkedText
    rw [show ((bytesAt data te.value te.valueLen).take 7).length = 7 by
      rw [length_take, show (bytesAt data te.value te.valueLen).length = te.valueLen from hlen]; omega] at hsame
    rw [if_pos h7, hsame]
    rfl
  · rw [if_neg h7]
    refine congrArg Exec.done (decide_eq_false fun heq => ?_).symm
    have hlength := congrArg List.length heq
    unfold lowered at hlength
    rw [length_map, length_map, length_take, hlen] at hlength
    have : chunkedText.length = 7 := rfl
    omega

theorem readContentLength_eq {value : List U8} (h : raw.Starts value) (hn : i + n = value.length) (v : Nat) :
    readContentLength raw n i (i32 v) =
      .done (i32 (((value.drop i).takeWhile isDigit).foldl (fun v c => v * 10 + (c.toNat - 0x30)) v : Nat)) := by
  induction n generalizing i v with
  | zero =>
    rw [drop_eq_nil_of_le (by omega)]
    rfl
  | succ n ih =>
    have hlt : i < value.length := by omega
    rw [readContentLength, h.read (getElem?_eq_getElem hlt), done_bind, drop_eq_getElem_cons hlt]
    cases hd : isDigit value[i] with
    | true =>
      have hstep : i32 (i32 v * 10 + (value[i].toNat - 0x30)) = i32 ((v * 10 + (value[i].toNat - 0x30) : Nat)) := by
        have hge : 0x30 ≤ value[i].toNat := by
          exact (of_decide_eq_true hd).1
        unfold i32
        rw [Int.add_bmod, Int.mul_bmod, Int.bmod_bmod, ← Int.mul_bmod, ← Int.add_bmod]
        push_cast [cast_sub hge]
        rfl
      rw [if_pos rfl, takeWhile_cons_of_pos hd, foldl_cons, hstep, ih (by omega)]
    | false =>
      rw [if_neg Bool.false_ne_true, takeWhile_cons_of_neg (by simp [hd])]
      rfl

/-! ## What the views show -/

theorem valueStart_le {colon : Nat} (h : indexOf? [0x3A] line = some colon) : valueStart line colon ≤ line.length := by
  have hle := (indexOf?_eq_some.mp h).1
  have hspaces := ( takeWhile_prefix (fun b : U8 => decide (b = 0x20)) (l := line.drop (colon + 1))).length_le
  rw [length_drop] at hspaces
  unfold valueStart
  rw [length_singleton] at hle
  omega

/-- A part of a line, at its place in the buffer. -/
theorem bytesAt_line (h : line <+: data.drop cursor) {p : Nat} (hn : p + n ≤ line.length) :
    bytesAt data (cursor + p) n = bytesAt line p n := by
  obtain ⟨rest, hrest⟩ := h
  unfold bytesAt
  rw [← drop_drop, ← hrest, drop_append_of_le_length (by omega),
    take_append_of_le_length (by rw [length_drop]; omega)]

/-- **A view shows the name and the value of its line.** -/
theorem headerView_shows (h : line <+: data.drop cursor) (hlt : line ≠ []) :
    (∀ v ∈ headerView cursor line, v.Inside data.length) ∧
    (headerView cursor line).map (fun v => (v.nameIn data, v.valueIn data)) = fieldOf line := by
  have hroom : cursor + line.length ≤ data.length := by
    have hle := h.length_le
    have hpos := length_pos_iff.mpr hlt
    rw [length_drop] at hle
    omega
  unfold headerView fieldOf
  cases hcolon : indexOf? [0x3A] line with
  | none => exact ⟨fun v hv => absurd hv (by simp), rfl⟩
  | some colon =>
    have hcle := (indexOf?_eq_some.mp hcolon).1
    have hvle := valueStart_le hcolon
    constructor
    · rintro v hv
      rw [map_some, mem_some_iff] at hv
      subst hv
      unfold HttpHeader.Inside
      dsimp only
      omega
    · rw [map_some, map_some, map_some]
      refine congrArg some (Prod.ext ?_ ?_)
      · have hname := bytesAt_line h (p := 0) (n := colon) (by omega)
        exact hname
      · have hvalue := bytesAt_line h (p := valueStart line colon) (n := line.length - valueStart line colon) (by omega)
        refine hvalue.trans ?_
        exact take_of_length_le (by rw [length_drop])

/-- **The views show the fields of the lines.** -/
theorem headerViews_show (hlines : HeaderLines lines) (h : LinesAt data cursor lines) (k : Nat) :
    (∀ v, some v ∈ (headerViews cursor lines).take k → v.Inside data.length) ∧
    ((headerViews cursor lines).take k).map (Option.map fun v => (v.nameIn data, v.valueIn data)) =
      (lines.take k).map fieldOf := by
  induction lines generalizing cursor k with
  | nil =>
    rw [headerViews, take_nil, take_nil]
    exact ⟨fun v hv => absurd hv not_mem_nil, rfl⟩
  | cons line lines ih =>
    cases k with
    | zero => exact ⟨fun v hv => absurd hv not_mem_nil, rfl⟩
    | succ k =>
      obtain ⟨hinside, hshown⟩ := headerView_shows h.head (hlines line mem_cons_self).2
      obtain ⟨htail, hrest⟩ := ih hlines.tail h.tail k
      rw [headerViews, take_succ_cons, take_succ_cons]
      constructor
      · intro v hv
        rcases mem_cons.mp hv with hv | hv
        · exact hinside v hv.symm
        · exact htail v hv
      · rw [map_cons, map_cons, hshown, hrest]

end MinicOs
