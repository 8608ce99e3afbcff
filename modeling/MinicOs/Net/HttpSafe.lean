import MinicOs.Net.HttpChunks

/-!
# Safety of the HTTP parser

On which buffers `http_parse_response` ends, stays in the buffer and reports a body inside it (`HttpSafe`).
-/

namespace MinicOs

open List Cells Relation Exec

/-- The body that is reported lies in a buffer of `len` bytes. -/
def BodyInside (len : Nat) (r : Cells U8 × HttpResponse) : Prop :=
  r.1.length = len ∧ 0 ≤ r.2.bodyLen ∧ (r.2.body : Int) + r.2.bodyLen ≤ len

theorem bodyInside_iff {len : Nat} {raw : Cells U8} {code start : Nat} {views : List (Option HttpHeader)} {n : Int} :
    BodyInside len (raw, ⟨code, views, start, n⟩) ↔ raw.length = len ∧ 0 ≤ n ∧ (start : Int) + n ≤ len := Iff.rfl

/-- The call ends without an access outside the buffer, and a body that is reported lies in it. -/
def HttpSafe (raw : List U8) : Prop :=
  ∃ fuel, (httpParseResponse fuel (ofList raw)).Sound (BodyInside raw.length)

/-- The lengths of the body do not wrap around. -/
def HttpText.LengthsFit (t : HttpText) : Prop :=
  match framingOf t.fields with
  | .chunked => SizesFit t.bodyStart t.body
  | .sized n => n % 2 ^ 32 < 2 ^ 31
  | .toEnd => True

/-- A response in the buffer whose status line is accepted has lengths that fit. -/
def HttpFits (raw : List U8) : Prop := ∀ t : HttpText, t.bytes = raw → statusOf t.status ≠ none → t.LengthsFit

/-! ## Responses that fit -/

theorem i32_nonneg_iff (n : Nat) : 0 ≤ i32 n ↔ n % 2 ^ 32 < 2 ^ 31 := by
  unfold i32
  rw [Int.bmod_def]
  split <;> omega

theorem splice_nil (data : List U8) (b : Nat) : splice data b [] = data := by
  unfold splice
  rw [append_nil, length_nil, Nat.add_zero, take_append_drop]

variable {fuel : Nat}

/-- The body that chunks hold is shorter than what they take. -/
theorem length_readChunks {body : List U8} {p : Nat} {rest : List U8} (h : readChunks body fuel p = some rest) :
    p + rest.length ≤ body.length := by
  induction fuel generalizing p rest with
  | zero => simp [readChunks] at h
  | succ fuel ih =>
    rw [readChunks] at h
    cases hm : indexOf? crlf (body.drop p) with
    | none =>
      rw [hm] at h
      simp at h
    | some m =>
      have hle := (indexOf?_eq_some.mp hm).1
      rw [length_drop, show crlf.length = 2 from rfl] at hle
      rw [hm] at h
      dsimp only at h
      split at h
      · cases h
        rw [length_nil]
        omega
      · split at h
        · simp at h
        · obtain ⟨tail, htail, rfl⟩ := Option.map_eq_some_iff.mp h
          have hrest := ih htail
          have hchunk : (bytesAt body (p + m + 2) (chunkSize (bytesAt body p m))).length ≤
              chunkSize (bytesAt body p m) := by
            rw [bytesAt, length_take]
            exact Nat.min_le_left _ _
          rw [length_append]
          omega

namespace HttpText

variable (t : HttpText)

theorem dechunk_body (hlen : t.bytes.length < 2 ^ 31) (hfit : SizesFit t.bodyStart t.body)
    (hfuel : t.body.length < fuel) : dechunk t.bytes.length t.bodyStart fuel (ofList t.bytes) t.bodyStart 0 =
      match readChunks t.body fuel 0 with
      | none => .refused
      | some rest => .done (ofList (splice t.bytes t.bodyStart rest), (rest.length : Int)) := by
  have hsize := t.length_bytes
  have hbody := t.drop_bodyStart
  have hloop := @dechunk_eq t.bytes t.bodyStart [] 0 hlen (by rwa [hbody]) fuel ReflTransGen.refl (by omega)
    (le_refl _) (by omega)
  rw [dechunkAt, splice_nil, hbody] at hloop
  exact hloop

/-- **A response that fits is answered safely.** -/
theorem answer_sound (hlen : t.bytes.length < 2 ^ 31) (hfit : t.LengthsFit) (hfuel : t.body.length < fuel)
    (code : Nat) : (t.answer fuel code).Sound (BodyInside t.bytes.length) := by
  have hsize := t.length_bytes
  unfold LengthsFit at hfit
  unfold answer
  cases hframing : framingOf t.fields with
  | chunked =>
    rw [hframing] at hfit
    rw [t.dechunk_body hlen hfit hfuel]
    cases hread : readChunks t.body fuel 0 with
    | none => exact .refused
    | some rest =>
      have hle := length_readChunks hread
      refine .done (bodyInside_iff.mpr ⟨?_, Int.natCast_nonneg _, by omega⟩)
      exact (length_ofList _).trans (length_splice (by omega))
  | sized n =>
    rw [hframing] at hfit
    have hnonneg := (i32_nonneg_iff n).mpr hfit
    have hbounds : 0 ≤ clampLength n t.body.length ∧ clampLength n t.body.length ≤ t.body.length := by
      unfold clampLength
      split <;> omega
    exact .done (bodyInside_iff.mpr ⟨length_ofList _, hbounds.1, by omega⟩)
  | toEnd =>
    exact .done (bodyInside_iff.mpr ⟨length_ofList _, Int.natCast_nonneg _, by omega⟩)

end HttpText

/-- **A buffer whose lengths fit is safe.** -/
theorem httpSafe_of_fits {raw : List U8} (hlen : raw.length < 2 ^ 31) (hfit : HttpFits raw) : HttpSafe raw := by
  refine ⟨raw.length + 1, ?_⟩
  by_cases hblank : crlf ++ crlf <:+: raw
  · obtain ⟨t, rfl⟩ := exists_httpText hblank
    rw [t.httpParseResponse_eq]
    cases hcode : statusOf t.status with
    | none => exact .refused
    | some code =>
      have hsize := t.length_bytes
      exact t.answer_sound hlen (hfit t rfl (by rw [hcode]; exact Option.some_ne_none code)) (by omega) code
  · unfold httpParseResponse
    rw [length_ofList, findBytes_eq (starts_ofList raw) (by decide), indexOf?_eq_none.mpr hblank]
    exact .refused

/-! ## Responses that do not fit -/

variable {data out : List U8} {b p m : Nat}

theorem copyChunk_undefined {raw : Cells U8} {s w n : Nat} (hn : 0 < n) (hs : raw.length < s + n) :
    copyChunk b raw s w n = .undefined := by
  have hchecks : (count n (fun k raw => do
      let c ← readAt raw ((s : Int) + (k : Int))
      writeAt raw ((b : Int) + (w : Int) + (k : Int)) c) raw).Checks
        (fun r => r.length = raw.length) (∀ k < n, s + k < raw.length) := by
    refine count_checks rfl fun k _ r hr => ?_
    have hround := (read_checks r (s + k)).bind fun c _ => write_checks r (b + w + k) c
    exact hround.mono (fun r' hr' => hr'.trans hr) fun h => hr ▸ h.1
  refine hchecks.eq_undefined fun hall => ?_
  have hlast := hall (n - 1) (by omega)
  omega

/-- **A chunk whose end wraps around is copied beyond the buffer.** -/
theorem dechunk_overrun (hlen : data.length < 2 ^ 31 - 2) (hout : out.length ≤ p) (hp : b + p ≤ data.length)
    (hm : indexOf? crlf ((data.drop b).drop p) = some m) {size : Nat} (hsize : chunkSize (bytesAt (data.drop b) p m) = size)
    (hzero : size ≠ 0) (hint : size < 2 ^ 31) (hover : 2 ^ 31 ≤ b + (p + m + 2 + size + 2)) (fuel : Nat) :
    dechunkAt data b (fuel + 1) p out = .undefined := by
  have hle := (indexOf?_eq_some.mp hm).1
  rw [length_drop, length_drop, show crlf.length = 2 from rfl] at hle
  have hneg : i32 ((b + (p + m + 2 + size + 2) : Nat) : Int) < 0 := by
    unfold i32
    rw [Int.bmod_def]
    split <;> omega
  rw [dechunk_sized (by omega) hout hp hm hsize hzero hint, if_neg (by omega),
    copyChunk_undefined (by omega) (by rw [length_ofList, length_splice (by omega)]; omega), undefined_bind]

/-- Some chunk has a size of `2^31` or more: a negative `int`. -/
def Backwards (body : List U8) : Prop :=
  ∃ p m, SizeLineAt body p ∧ indexOf? crlf (body.drop p) = some m ∧ 2 ^ 31 ≤ chunkSize (bytesAt body p m)

/-- From a place on which a chunk is reached whose end wraps around, the loop is undefined. -/
theorem dechunk_undefined (hlen : data.length < 2 ^ 31 - 2) (hback : ¬ Backwards (data.drop b)) {q : Nat}
    (hpq : ReflTransGen (ChunkStep (data.drop b)) p q) (hat : SizeLineAt (data.drop b) p)
    (hm : indexOf? crlf ((data.drop b).drop q) = some m) (hzero : chunkSize (bytesAt (data.drop b) q m) ≠ 0)
    (hover : 2 ^ 31 ≤ b + (q + m + 2 + chunkSize (bytesAt (data.drop b) q m) + 2)) (hp : b + p ≤ data.length)
    (hout : out.length ≤ p) (fuel : Nat) : dechunkAt data b fuel p out = .undefined := by
  have hbelow : ∀ p m, SizeLineAt (data.drop b) p → indexOf? crlf ((data.drop b).drop p) = some m →
      chunkSize (bytesAt (data.drop b) p m) < 2 ^ 31 := fun p m hp hm => not_le.mp fun h => hback ⟨p, m, hp, hm, h⟩
  induction hpq using ReflTransGen.head_induction_on generalizing out fuel with
  | refl =>
    cases fuel with
    | zero => rfl
    | succ fuel => exact dechunk_overrun hlen hout hp hm rfl hzero (hbelow q m hat hm) hover fuel
  | head hstep hrest ih =>
    rename_i p p'
    obtain ⟨m', hm', hzero', rfl⟩ := hstep
    cases fuel with
    | zero => rfl
    | succ fuel =>
      by_cases hwrap : 2 ^ 31 ≤ b + (p + m' + 2 + chunkSize (bytesAt (data.drop b) p m') + 2)
      · exact dechunk_overrun hlen hout hp hm' rfl hzero' (hbelow p m' hat hm') hwrap fuel
      · by_cases hroom : b + (p + m' + 2 + chunkSize (bytesAt (data.drop b) p m') + 2) ≤ data.length
        · rw [dechunk_chunk (by omega) hout hp hm' rfl hzero' hroom]
          refine ih (hat.tail ⟨m', hm', hzero', rfl⟩) hroom ?_ fuel
          rw [length_append, bytesAt, length_take]
          omega
        · -- the places only grow, so there is no size line at `q`
          have hmono : ∀ x y, ReflTransGen (ChunkStep (data.drop b)) x y → x ≤ y := by
            intro x y hxy
            induction hxy with
            | refl => exact le_refl _
            | tail _ hs ih =>
              obtain ⟨k, -, -, rfl⟩ := hs
              omega
          have hq := hmono _ _ hrest
          have hle := (indexOf?_eq_some.mp hm).1
          rw [length_drop, length_drop, show crlf.length = 2 from rfl] at hle
          omega

/-- **Which buffers are safe.** A buffer that fits is safe; and a safe one fits, unless it has a chunk size that goes
backwards or is as long as an `int` allows. -/
theorem httpSafe_iff (raw : List U8) (hlen : raw.length < 2 ^ 31) : (HttpFits raw → HttpSafe raw) ∧
    (HttpSafe raw → HttpFits raw ∨ 2 ^ 31 - 2 ≤ raw.length ∨
      ∃ t : HttpText, t.bytes = raw ∧ framingOf t.fields = .chunked ∧ Backwards t.body) := by
  refine ⟨httpSafe_of_fits hlen, ?_⟩
  rintro ⟨fuel, hsound⟩
  by_contra hnot
  rw [not_or, not_or] at hnot
  obtain ⟨hunfit, hshort, hforwards⟩ := hnot
  refine hunfit ?_
  rintro t rfl hstatus
  obtain ⟨code, hcode⟩ := Option.ne_none_iff_exists'.mp hstatus
  rw [t.httpParseResponse_eq, hcode] at hsound
  unfold HttpText.answer at hsound
  unfold HttpText.LengthsFit
  cases hframing : framingOf t.fields with
  | chunked =>
    rw [hframing] at hsound
    intro p m hat hm hzero
    by_contra hover
    have hbody := t.drop_bodyStart
    have hsize := t.length_bytes
    have hundefined := @dechunk_undefined t.bytes [] t.bodyStart 0 m (by omega)
      (by rw [hbody]; exact fun h => hforwards ⟨t, rfl, hframing, h⟩) p (by rw [hbody]; exact hat)
      ReflTransGen.refl (by rw [hbody]; exact hm) (by rw [hbody]; exact hzero)
      (by rw [hbody]; exact not_lt.mp hover) (by omega) (le_refl _) fuel
    rw [dechunkAt, splice_nil] at hundefined
    refine hsound.ne_undefined ?_
    show (dechunk t.bytes.length t.bodyStart fuel (ofList t.bytes) ((t.bodyStart + 0 : Nat) : Int)
      (([] : List U8).length : Int) >>= _) = _
    rw [hundefined, undefined_bind]
  | sized n =>
    rw [hframing] at hsound
    have hnonneg := (bodyInside_iff.mp (hsound.of_done rfl)).2.1
    refine (i32_nonneg_iff n).mp ?_
    unfold clampLength at hnonneg
    split at hnonneg <;> omega
  | toEnd => trivial

/-- The response `H 200` with `Content-Length:2` and the body `XY`. -/
def twoByteText : HttpText where
  status := [0x48, 0x20, 0x32, 0x30, 0x30]
  lines := [contentLengthName ++ [0x3A, 0x32]]
  body := [0x58, 0x59]
  status_noSep := by decide
  lines_ok := by unfold HeaderLines; decide

theorem httpSafe_twoBytes : framingOf twoByteText.fields = .sized 2 ∧ HttpSafe twoByteText.bytes := by
  have hframing : framingOf twoByteText.fields = .sized 2 := by decide +kernel
  refine ⟨hframing, (httpSafe_iff twoByteText.bytes (by decide)).1 fun t ht _ => ?_⟩
  obtain rfl := HttpText.bytes_injective ht
  rw [HttpText.LengthsFit, hframing]
  decide

/-! ## Two responses that do not fit -/

/-- The response `H 200` with `Content-Length:2147483648` and no body. -/
def overLength : HttpText where
  status := [0x48, 0x20, 0x32, 0x30, 0x30]
  lines := [contentLengthName ++ [0x3A, 0x32, 0x31, 0x34, 0x37, 0x34, 0x38, 0x33, 0x36, 0x34, 0x38]]
  body := []
  status_noSep := by decide
  lines_ok := by unfold HeaderLines; decide

/-- The response `H 200` with `Transfer-Encoding:chunked` and the size line `7fffffff`. -/
def overChunk : HttpText where
  status := [0x48, 0x20, 0x32, 0x30, 0x30]
  lines := [transferEncodingName ++ [0x3A] ++ chunkedText]
  body := [0x37, 0x66, 0x66, 0x66, 0x66, 0x66, 0x66, 0x66, 0x0D, 0x0A]
  status_noSep := by decide
  lines_ok := by unfold HeaderLines; decide

/-- **Neither is safe**: the first is reported with a negative body length, and the second is copied beyond the buffer. -/
theorem httpSafe_overflow : (overLength.bytes.length < 2 ^ 31 ∧ ¬ HttpSafe overLength.bytes) ∧
    (overChunk.bytes.length < 2 ^ 31 ∧ ¬ HttpSafe overChunk.bytes) := by
  refine ⟨⟨by decide, ?_⟩, ⟨by decide, ?_⟩⟩
  · rintro ⟨fuel, hsound⟩
    rw [overLength.httpParseResponse_eq, show statusOf overLength.status = some 200 by decide] at hsound
    have hnonneg := (bodyInside_iff.mp (hsound.of_done rfl)).2.1
    exact absurd hnonneg (by decide)
  · rintro ⟨fuel, hsound⟩
    rw [overChunk.httpParseResponse_eq, show statusOf overChunk.status = some 200 by decide] at hsound
    refine hsound.ne_undefined ?_
    cases fuel with
    | zero => rfl
    | succ fuel =>
      have hundefined := @dechunk_overrun overChunk.bytes [] overChunk.bodyStart 0 8 (by decide) (le_refl _)
        (by decide) (by decide) (2 ^ 31 - 1) (by decide) (by decide) (by decide) (by decide) fuel
      rw [dechunkAt, splice_nil] at hundefined
      show (dechunk overChunk.bytes.length overChunk.bodyStart (fuel + 1) (ofList overChunk.bytes)
        ((overChunk.bodyStart + 0 : Nat) : Int) (([] : List U8).length : Int) >>= _) = _
      rw [hundefined, undefined_bind]

end MinicOs
