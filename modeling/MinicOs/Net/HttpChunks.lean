import Mathlib.Logic.Relation
import MinicOs.Net.HttpFraming

/-!
# Chunked bodies

The chunks of a body are compacted in the buffer they are read from. What has been written is always shorter than what has
been read, so the bytes that are still to come are those that arrived (`drop_splice`).
-/

namespace MinicOs

open List Cells Exec

/-! ## Sizes -/

/-- The number that the hexadecimal digits at the start of a line stand for. -/
def hexValue (line : List U8) : Nat :=
  (line.takeWhile fun c => (hexDigit c).isSome).foldl (fun v c => v * 16 + (hexDigit c).getD 0) 0

/-- The size that a size line gives, as a `u32`. -/
def chunkSize (line : List U8) : Nat := hexValue line % 2 ^ 32

theorem size_step (v digit : Nat) :
    BitVec.ofNat 32 v * 16 + BitVec.ofNat 32 digit = (BitVec.ofNat 32 (v * 16 + digit) : U32) := by
  rw [BitVec.ofNat_add, BitVec.ofNat_mul]
  rfl

variable {raw : Cells U8} {data : List U8}

theorem readAt_natCast (raw : Cells U8) (i : Nat) : readAt raw (i : Int) = raw.read i := if_neg (by omega)

theorem readChunkSize_eq {word : List U8} {p : Nat} (h : Starts (raw.drop p) word) {n i : Nat}
    (hn : i + n = word.length) (v : Nat) : readChunkSize raw n ((p + i : Nat) : Int) (BitVec.ofNat 32 v) =
      .done (BitVec.ofNat 32 (((word.drop i).takeWhile fun c => (hexDigit c).isSome).foldl
        (fun v c => v * 16 + (hexDigit c).getD 0) v)) := by
  induction n generalizing i v with
  | zero =>
    rw [drop_eq_nil_of_le (by omega)]
    rfl
  | succ n ih =>
    have hlt : i < word.length := by omega
    have hcell := h.getElem? (getElem?_eq_getElem hlt)
    rw [getElem?_drop] at hcell
    rw [readChunkSize, readAt_natCast, read_eq hcell, done_bind, drop_eq_getElem_cons hlt]
    by_cases hsemi : word[i] = 0x3B
    · rw [if_pos hsemi, takeWhile_cons_of_neg (by rw [hsemi]; decide)]
      rfl
    · rw [if_neg hsemi]
      cases hd : hexDigit word[i] with
      | none =>
        rw [takeWhile_cons_of_neg (by rw [hd]; exact Bool.false_ne_true)]
        rfl
      | some digit =>
        rw [takeWhile_cons_of_pos (by rw [hd]; rfl), foldl_cons, hd]
        dsimp only
        rw [size_step, show ((p + i : Nat) : Int) + 1 = ((p + (i + 1) : Nat) : Int) by omega, ih (by omega)]
        rfl

/-! ## Moving a chunk -/

/-- The buffer with `xs` written from the place `d` on. -/
def splice (data : List U8) (d : Nat) (xs : List U8) : List U8 := data.take d ++ xs ++ data.drop (d + xs.length)

variable {d : Nat} {xs : List U8}

theorem length_splice (h : d + xs.length ≤ data.length) : (splice data d xs).length = data.length := by
  unfold splice
  rw [length_append, length_append, length_take, length_drop]
  omega

theorem drop_splice {p : Nat} (h : d + xs.length ≤ data.length) (hp : d + xs.length ≤ p) :
    (splice data d xs).drop p = data.drop p := by
  unfold splice
  rw [drop_append, drop_eq_nil_of_le (by rw [length_append, length_take]; omega), nil_append,
    drop_drop, length_append, length_take]
  congr 1
  omega

theorem set_splice (h : d + xs.length < data.length) (x : U8) :
    (splice data d xs).set (d + xs.length) x = splice data d (xs ++ [x]) := by
  unfold splice
  have hpre : (data.take d ++ xs).length = d + xs.length := by
    rw [length_append, length_take]
    omega
  rw [set_append_right _ _ (by omega), hpre, Nat.sub_self, drop_eq_getElem_cons h, set_cons_zero,
    length_append, length_singleton, append_assoc, append_assoc, append_assoc]
  rfl

/-- **A chunk is moved** towards the start of the buffer. -/
theorem copyChunk_eq {b w s n : Nat} (hds : b + w ≤ s) (hs : s + n ≤ data.length) :
    copyChunk b (ofList data) s w n = .done (ofList (splice data (b + w) (bytesAt data s n))) := by
  have hstart : splice data (b + w) (bytesAt data s 0) = data := by
    unfold splice bytesAt
    rw [take_zero, append_nil, length_nil, Nat.add_zero, take_append_drop]
  conv_lhs => rw [← hstart]
  refine count_eq (fun k => ofList (splice data (b + w) (bytesAt data s k))) fun k hk => ?_
  have hlen : (bytesAt data s k).length = k := length_bytesAt (by omega)
  have hlt : s + k < data.length := by omega
  -- the byte that is read lies behind all that was written
  have hbyte : (splice data (b + w) (bytesAt data s k))[s + k]? = some (data.get ⟨s + k, hlt⟩) := by
    have hbehind : (splice data (b + w) (bytesAt data s k)).drop (s + k) = data.drop (s + k) :=
      drop_splice (by omega) (by omega)
    have hhead := congrArg (fun l => l[0]?) hbehind
    simp only [getElem?_drop, Nat.add_zero] at hhead
    rw [hhead, getElem?_eq_getElem hlt]
    rfl
  have hwrite : (splice data (b + w) (bytesAt data s k)).set (b + w + (bytesAt data s k).length) (data.get ⟨s + k, hlt⟩) =
      splice data (b + w) (bytesAt data s k ++ [data.get ⟨s + k, hlt⟩]) := set_splice (by omega) _
  rw [hlen, bytesAt_concat hlt] at hwrite
  rw [show (s : Int) + (k : Int) = ((s + k : Nat) : Int) by omega, readAt_natCast, read_ofList hbyte, done_bind,
    show (b : Int) + (w : Int) + (k : Int) = ((b + w + k : Nat) : Int) by omega, writeAt,
    if_neg (by omega), Int.toNat_natCast,
    write_ofList _ (by rw [length_splice (by omega)]; omega), hwrite]

/-! ## The loop over the chunks -/

/-- From a chunk that is not the last one to the next. -/
def ChunkStep (body : List U8) (p q : Nat) : Prop :=
  ∃ m, indexOf? crlf (body.drop p) = some m ∧ chunkSize (bytesAt body p m) ≠ 0 ∧
    q = p + m + 2 + chunkSize (bytesAt body p m) + 2

/-- Where the loop comes to, from the first chunk on. -/
def SizeLineAt (body : List U8) (p : Nat) : Prop := Relation.ReflTransGen (ChunkStep body) 0 p

/-- No chunk of a body that begins at `start` ends at `2^31` or later. -/
def SizesFit (start : Nat) (body : List U8) : Prop :=
  ∀ p m, SizeLineAt body p → indexOf? crlf (body.drop p) = some m → chunkSize (bytesAt body p m) ≠ 0 →
    start + (p + m + 2 + chunkSize (bytesAt body p m) + 2) < 2 ^ 31

/-- The body that the chunks from a place on hold; `none` if the last one is missing. -/
def readChunks (body : List U8) : Nat → Nat → Option (List U8)
  | 0, _ => none
  | fuel + 1, p =>
    match indexOf? crlf (body.drop p) with
    | none => none
    | some m =>
      let size := chunkSize (bytesAt body p m)
      if size = 0 then some []
      else if body.length < p + m + 2 + size + 2 then none
      else (readChunks body fuel (p + m + 2 + size + 2)).map (bytesAt body (p + m + 2) size ++ ·)

theorem splice_splice {b : Nat} {out : List U8} (h : b + out.length ≤ data.length) :
    splice (splice data b out) (b + out.length) xs = splice data b (out ++ xs) := by
  have hdrop : (splice data b out).drop (b + out.length + xs.length) = data.drop (b + out.length + xs.length) :=
    drop_splice h (by omega)
  have htake : (splice data b out).take (b + out.length) = data.take b ++ out := by
    exact take_left' (by rw [length_append, length_take]; omega)
  show (splice data b out).take (b + out.length) ++ xs ++ (splice data b out).drop (b + out.length + xs.length) = _
  rw [hdrop, htake, splice, length_append, append_assoc, append_assoc, append_assoc, append_assoc, Nat.add_assoc]

variable {b : Nat} {out : List U8} {p m : Nat}

/-- **The size line at a place**, as the loop reads it. -/
theorem readChunkSize_at (hb : b + out.length ≤ data.length) (hout : out.length ≤ p)
    (hm : indexOf? crlf ((data.drop b).drop p) = some m) :
    readChunkSize (ofList (splice data b out)) m ((b + p : Nat) : Int) 0 =
      .done (BitVec.ofNat 32 (chunkSize (bytesAt (data.drop b) p m))) := by
  have hle := (indexOf?_eq_some.mp hm).1
  have hlen : (bytesAt (data.drop b) p m).length = m := by
    rw [length_drop, show crlf.length = 2 from rfl] at hle
    exact length_bytesAt (by omega)
  have hstarts : Starts ((ofList (splice data b out)).drop (b + p)) (bytesAt (data.drop b) p m) := by
    refine (starts_ofList _).at ?_
    rw [drop_splice hb (by omega), ← drop_drop]
    exact take_prefix _ _
  have hread := readChunkSize_eq hstarts (n := m) (i := 0) (by rw [hlen]; omega) 0
  refine hread.trans (congrArg Exec.done ?_)
  unfold chunkSize
  refine BitVec.eq_of_toNat_eq ?_
  rw [BitVec.toNat_ofNat, BitVec.toNat_ofNat, Nat.mod_mod]
  rfl

theorem findBytes_at (hlen : data.length < 2 ^ 31) (hb : b + out.length ≤ data.length) (hout : out.length ≤ p)
    (hp : b + p ≤ data.length) : findBytes (pointerAt (ofList (splice data b out)) ((b + p : Nat) : Int))
      (i32 ((data.length : Int) - ((b + p : Nat) : Int))) crlf = .done (indexOf? crlf ((data.drop b).drop p)) := by
  have hstarts : Starts ((ofList (splice data b out)).drop (b + p)) ((data.drop b).drop p) := by
    refine (starts_ofList _).at ?_
    rw [drop_splice hb (by omega), ← drop_drop]
  have hcount : i32 ((data.length : Int) - ((b + p : Nat) : Int)) = (((data.drop b).drop p).length : Int) := by
    rw [length_drop, length_drop, show (data.length : Int) - ((b + p : Nat) : Int) =
      ((data.length - b - p : Nat) : Int) by omega, i32_natCast (by omega)]
  unfold pointerAt
  rw [if_neg (by omega), Int.toNat_natCast, hcount]
  exact findBytes_eq hstarts (by decide)

/-- The loop at the place `p` of the body, with `out` moved to its front. -/
def dechunkAt (data : List U8) (b fuel p : Nat) (out : List U8) : Exec (Cells U8 × Int) :=
  dechunk data.length b fuel (ofList (splice data b out)) ((b + p : Nat) : Int) out.length

section Rounds

variable (hlen : data.length < 2 ^ 31) (hout : out.length ≤ p) (hp : b + p ≤ data.length)
include hlen hout hp

/-- A round without the end of a size line gives up. -/
theorem dechunk_missing (hm : indexOf? crlf ((data.drop b).drop p) = none) (fuel : Nat) :
    dechunkAt data b (fuel + 1) p out = .refused := by
  rw [dechunkAt, dechunk]
  by_cases hend : b + p < data.length
  · rw [if_pos (by omega)]
    dsimp only
    rw [findBytes_at hlen (by omega) hout hp, done_bind, hm]
  · rw [if_neg (by omega)]

variable (hm : indexOf? crlf ((data.drop b).drop p) = some m)
include hm

theorem dechunk_round (fuel : Nat) : dechunkAt data b (fuel + 1) p out =
      (let size : U32 := BitVec.ofNat 32 (chunkSize (bytesAt (data.drop b) p m))
      if size = 0 then .done (ofList (splice data b out), (out.length : Int))
      else if i32 (((b + p + m + 2 : Nat) : Int) + size.toInt + 2) > data.length then .refused
      else do
        let raw ← copyChunk b (ofList (splice data b out)) ((b + p + m + 2 : Nat) : Int) out.length size.toInt
        dechunk data.length b fuel raw (i32 (((b + p + m + 2 : Nat) : Int) + size.toInt + 2))
          (i32 ((out.length : Int) + size.toInt))) := by
  have hle := (indexOf?_eq_some.mp hm).1
  rw [length_drop, length_drop, show crlf.length = 2 from rfl] at hle
  rw [dechunkAt, dechunk, if_pos (by omega)]
  dsimp only
  rw [findBytes_at hlen (by omega) hout hp, done_bind, hm]
  dsimp only
  rw [readChunkSize_at (by omega) hout hm, done_bind,
    show ((b + p : Nat) : Int) + (m : Int) + 2 = ((b + p + m + 2 : Nat) : Int) by omega, i32_natCast (by omega)]
  rfl

variable {size : Nat} (hsize : chunkSize (bytesAt (data.drop b) p m) = size) (hzero : size ≠ 0)
include hsize hzero

/-- A round with a size that is a positive `int`. -/
theorem dechunk_sized (hint : size < 2 ^ 31) (fuel : Nat) : dechunkAt data b (fuel + 1) p out =
      if i32 ((b + (p + m + 2 + size + 2) : Nat) : Int) > data.length then .refused
      else copyChunk b (ofList (splice data b out)) ((b + p + m + 2 : Nat) : Int) out.length size >>= fun raw =>
        dechunk data.length b fuel raw (i32 ((b + (p + m + 2 + size + 2) : Nat) : Int))
          (i32 ((out.length : Int) + size)) := by
  have hnat : (BitVec.ofNat 32 size).toNat = size := by rw [BitVec.toNat_ofNat, Nat.mod_eq_of_lt (by omega)]
  have hne : (BitVec.ofNat 32 size : U32) ≠ 0 := fun heq => hzero (hnat ▸ congrArg BitVec.toNat heq)
  rw [dechunk_round hlen hout hp hm, hsize]
  rw [if_neg hne, BitVec.toInt_eq_toNat_of_lt (by omega), hnat,
    show ((b + p + m + 2 : Nat) : Int) + (size : Int) + 2 = ((b + (p + m + 2 + size + 2) : Nat) : Int) by omega]

/-- **A chunk that has arrived** is moved, and the loop goes on behind it. -/
theorem dechunk_chunk (hroom : b + (p + m + 2 + size + 2) ≤ data.length) (fuel : Nat) : dechunkAt data b (fuel + 1) p out =
      dechunkAt data b fuel (p + m + 2 + size + 2) (out ++ bytesAt (data.drop b) (p + m + 2) size) := by
  have hb : b + out.length ≤ data.length := by omega
  have hchunk : bytesAt (splice data b out) (b + p + m + 2) size = bytesAt (data.drop b) (p + m + 2) size := by
    unfold bytesAt
    rw [drop_splice hb (by omega), drop_drop, show b + (p + m + 2) = b + p + m + 2 by omega]
  have hchunkLen : (bytesAt (data.drop b) (p + m + 2) size).length = size :=
    length_bytesAt (by rw [length_drop]; omega)
  have hcopy := @copyChunk_eq (splice data b out) b out.length (b + p + m + 2) size (by omega)
    (by rw [length_splice hb]; omega)
  rw [hchunk, splice_splice hb] at hcopy
  rw [dechunk_sized hlen hout hp hm hsize hzero (by omega), i32_natCast (by omega), if_neg (by omega), hcopy,
    done_bind, dechunkAt, length_append, hchunkLen, ← Int.natCast_add, i32_natCast (by omega)]

end Rounds

/-- **The loop over the chunks**, if the sizes fit. -/
theorem dechunk_eq (hlen : data.length < 2 ^ 31) (hfit : SizesFit b (data.drop b)) {fuel : Nat} (hat : SizeLineAt (data.drop b) p)
    (hp : b + p ≤ data.length) (hout : out.length ≤ p) (hfuel : data.length < b + p + fuel) :
    dechunkAt data b fuel p out =
      match readChunks (data.drop b) fuel p with
      | none => .refused
      | some rest => .done (ofList (splice data b (out ++ rest)), ((out ++ rest).length : Int)) := by
  induction fuel generalizing p out with
  | zero => omega
  | succ fuel ih =>
    rw [readChunks]
    cases hm : indexOf? crlf ((data.drop b).drop p) with
    | none => exact dechunk_missing hlen hout hp hm fuel
    | some m =>
      have hsum := hfit p m hat hm
      have hnext := fun hzero => Relation.ReflTransGen.tail hat ⟨m, hm, hzero, rfl⟩
      have hround := dechunk_round hlen hout hp hm fuel
      have hsized := @dechunk_sized data b out p m hlen hout hp hm
      have hchunk := @dechunk_chunk data b out p m hlen hout hp hm
      dsimp only
      generalize chunkSize (bytesAt (data.drop b) p m) = size at hsum hnext hround hsized hchunk ⊢
      by_cases hzero : size = 0
      · rw [hround, hzero, if_pos rfl]
        dsimp only
        rw [append_nil]
        rfl
      · have hend := hsum hzero
        rw [if_neg hzero, length_drop]
        by_cases hlong : data.length - b < p + m + 2 + size + 2
        · rw [hsized rfl hzero (by omega), i32_natCast hend, if_pos (by omega), if_pos hlong]
        · have hchunkLen : (bytesAt (data.drop b) (p + m + 2) size).length ≤ size := by
            unfold bytesAt
            rw [length_take]
            omega
          rw [hchunk rfl hzero (by omega), if_neg hlong,
            ih (hnext hzero) (by omega) (by rw [length_append]; omega) (by omega)]
          cases readChunks (data.drop b) fuel (p + m + 2 + size + 2) with
          | none => rfl
          | some rest =>
            dsimp only [Option.map_some]
            rw [append_assoc]

end MinicOs
