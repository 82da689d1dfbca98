import PhilzTouch.ApplyPatch.Imgpatch
import PhilzTouch.Lib.Cells
import PhilzTouch.Lib.Traced

/-!
# Breaking an image into chunks

`ReadImage` of `imgdiff.c`.  The image is read into a buffer with four zero bytes behind it; gzip
members are found by their magic and expanded, and the rest becomes normal chunks.  The reads of
the buffer are recorded.  Memory is assumed to suffice, and the file can be read.
-/

namespace PhilzTouch.ApplyPatch

open List Traced

/-- `CHUNK_NORMAL`, `CHUNK_DEFLATE` and `CHUNK_RAW`. -/
inductive ChunkType where
  | normal
  | deflate
  | raw
  deriving DecidableEq, Repr

/-- `ImageChunk`.  The lengths are those of the two strings; the fields below `data` other than
the suffix array `I` matter for a `CHUNK_DEFLATE` only. -/
structure ImageChunk where
  type : ChunkType
  start : Nat
  data : Bytes
  I : Option Cells
  deflateData : Bytes
  filename : Option Bytes
  params : DeflateParams
  deriving DecidableEq, Repr

/-- What the chunk is in the image file. -/
def ImageChunk.original (chunk : ImageChunk) : Bytes :=
  match chunk.type with
  | .deflate => chunk.deflateData
  | _ => chunk.data

/-- A range of the buffer that is read. -/
structure ImageRead where
  start : Nat
  count : Nat
  deriving DecidableEq, Repr

def ImageRead.Inside (size : Nat) (read : ImageRead) : Prop := read.start + read.count ≤ size

variable {count : Nat}

@[simp] theorem ImageRead.inside_iff {size start : Nat} :
    (⟨start, count⟩ : ImageRead).Inside size ↔ start + count ≤ size := Iff.rfl

/-! ## The source -/

/-- The buffer `img`. -/
def paddedImage (file : Bytes) : Bytes := file ++ [0, 0, 0, 0]

/-- The magic of gzip, deflate as the method and no header flags. -/
def gzipMagic : Bytes := [0x1f, 0x8b, 0x08, 0x00]

/-- The magic stands at a place of the buffer. -/
def gzipAt (file : Bytes) (place : Nat) : Prop := (paddedImage file).slice place 4 = gzipMagic

instance (file : Bytes) (place : Nat) : Decidable (gzipAt file place) := by
  unfold gzipAt
  infer_instance

/-- The fields that a chunk does not use are not set. -/
def unsetParams : DeflateParams := ⟨0, 0, 0, 0, 0⟩

def normalChunk (file : Bytes) (start length : Nat) : ImageChunk :=
  ⟨.normal, start, (paddedImage file).slice start length, none, [], none, unsetParams⟩

/-- The loop around `inflate`: how much of `total` bytes has been put out when the stream ends.
The buffer is doubled whenever it is full. -/
def inflateLoop (total : Nat) : (fuel allocated : Nat) → Nat
  | 0, _ => 0
  | fuel + 1, allocated =>
    let length := min total allocated
    if total ≤ allocated then length else inflateLoop total fuel (2 * allocated)

/-- A `CHUNK_DEFLATE` whose stream expands to some bytes. -/
def deflateChunk (file : Bytes) (start consumed : Nat) (expanded : Bytes) : ImageChunk :=
  ⟨.deflate, start, expanded.take (inflateLoop expanded.length (expanded.length + 1) 32768), none,
    (paddedImage file).slice start consumed, none, unsetParams⟩

/-- `Read4(p-4)` behind the footer, which ends at `after`. -/
def footerSize (file : Bytes) (after : Nat) : Nat :=
  ((paddedImage file).slice (after - 4) 4).toNatLE

/-- `strm.avail_in`. -/
def availIn (file : Bytes) (body : Nat) : Nat := (file.length + 2 ^ 32 - body) % 2 ^ 32

section ReadImage

variable (zlib : Zlib) (file : Bytes)

/-- The branch for a gzip member at `pos`: its three chunks and where it ends, or nothing if
`ReadImage` returns `NULL`.  `inflate` is called until it reports the end of the stream. -/
def readMember (pos : Nat) : Traced ImageRead Stop (Option (List ImageChunk × Nat)) := do
  let body := pos + 10
  .touch [⟨body, availIn file body⟩]
  if file.length < body then .halt .wild
  else match zlib.inflate (file.drop body) with
    | none => .halt .hang
    | some (expanded, consumed) => do
      let foot := body + consumed
      let after := foot + 8
      .touch [⟨after - 4, 4⟩]
      if file.length + 4 < after then .halt .wild
      else if footerSize file after ≠ (deflateChunk file body consumed expanded).data.length then
        pure none
      else pure (some ([normalChunk file pos 10, deflateChunk file body consumed expanded,
        normalChunk file foot 8], after))

/-- The scan for the next gzip header: how many of the `left` bytes at `place` come before it. -/
def scanPlain : (left place : Nat) → Traced ImageRead Stop Nat
  | 0, _ => pure 0
  | left + 1, place => do
    .touch [⟨place, 4⟩]
    if gzipAt file place then pure 0
    else do
      let length ← scanPlain left (place + 1)
      pure (length + 1)

/-- One round of the loop of `ReadImage`. -/
def readPiece (pos : Nat) : Traced ImageRead Stop (Option (List ImageChunk × Nat)) :=
  if 4 ≤ file.length - pos ∧ gzipAt file pos then do
    .touch [⟨pos, 4⟩]
    readMember zlib file pos
  else do
    let length ← scanPlain file (file.length - pos) pos
    pure (some ([normalChunk file pos length], pos + length))

/-- `ReadImage` from `pos` on; `fuel` bounds the number of rounds.  Nothing is the result
`NULL`. -/
def readImageFrom : (fuel pos : Nat) → Traced ImageRead Stop (Option (List ImageChunk))
  | 0, _ => .halt .hang
  | fuel + 1, pos =>
    if file.length ≤ pos then pure (some [])
    else do
      match ← readPiece zlib file pos with
      | none => pure none
      | some (chunks, next) => do
        let rest ← readImageFrom fuel next
        pure (rest.map (chunks ++ ·))

def readImage (fuel : Nat) : Traced ImageRead Stop (Option (List ImageChunk)) :=
  readImageFrom zlib file fuel 0

end ReadImage

/-! ## One round -/

theorem inflateLoop_eq {total fuel allocated : Nat} (enough : total < fuel + allocated)
    (some : 0 < fuel) (room : 0 < allocated) : inflateLoop total fuel allocated = total := by
  induction fuel generalizing allocated with
  | zero => omega
  | succ fuel ih =>
    rw [inflateLoop]
    by_cases all : total ≤ allocated
    · rw [if_pos all]
      omega
    · rw [if_neg all]
      exact ih (by omega) (by omega) (by omega)

@[simp] theorem deflateChunk_data (file : Bytes) (start consumed : Nat) (expanded : Bytes) :
    (deflateChunk file start consumed expanded).data = expanded := by
  rw [deflateChunk, inflateLoop_eq (by omega) (by omega) (by omega), take_length]

@[simp] theorem length_paddedImage (file : Bytes) :
    (paddedImage file).length = file.length + 4 := by
  simp [paddedImage]

variable {file : Bytes}

theorem length_slice_paddedImage {start : Nat} (inside : start + count ≤ file.length + 4) :
    ((paddedImage file).slice start count).length = count := by
  rw [Bytes.length_slice, length_paddedImage]
  omega

/-- The chunks stand one behind the other from `pos` to `stop`, each with what the buffer holds
there.  A deflate chunk counts by its compressed length. -/
def Tile (file : Bytes) : (pos : Nat) → List ImageChunk → (stop : Nat) → Prop
  | pos, [], stop => pos = stop
  | pos, chunk :: rest, stop =>
    chunk.start = pos ∧ chunk.original = (paddedImage file).slice pos chunk.original.length ∧
      Tile file (pos + chunk.original.length) rest stop

variable {pos : Nat}

theorem Tile.append {middle stop : Nat} {left right : List ImageChunk}
    (first : Tile file pos left middle) :
    Tile file pos (left ++ right) stop ↔ Tile file middle right stop := by
  induction left generalizing pos with
  | nil =>
    cases first
    rfl
  | cons chunk left ih =>
    obtain ⟨start, original, rest⟩ := first
    rw [cons_append, Tile, ih rest]
    exact ⟨fun tile => tile.2.2, fun tile => ⟨start, original, tile⟩⟩

/-- The plain bytes before the next gzip header. -/
def plainLength (file : Bytes) : (left place : Nat) → Nat
  | 0, _ => 0
  | left + 1, place => if gzipAt file place then 0 else plainLength file left (place + 1) + 1

theorem plainLength_le (file : Bytes) (left place : Nat) : plainLength file left place ≤ left := by
  fun_induction plainLength file left place <;> omega

theorem scanPlain_result (file : Bytes) (left place : Nat) :
    (scanPlain file left place).result = .ok (plainLength file left place) := by
  fun_induction plainLength file left place with
  | case1 => rfl
  | case2 left place gzip =>
    rw [scanPlain, touch_then_result, if_pos gzip]
    rfl
  | case3 left place plain ih =>
    rw [scanPlain, Traced.touch_then_result, if_neg plain, Traced.bind_ok ih]
    rfl

variable {left place : Nat}

theorem scanPlain_inside (ends : place + left ≤ file.length) :
    ∀ read ∈ (scanPlain file left place).trace, read.Inside (file.length + 4) := by
  induction left generalizing place with
  | zero => nofun
  | succ left ih =>
    rw [scanPlain, touch_then_trace]
    refine forall_mem_append.mpr ⟨?_, ?_⟩
    · rintro read (_ | ⟨_, ⟨⟩⟩)
      rw [ImageRead.inside_iff]
      omega
    · split
      · nofun
      · refine forall_mem_bind.mpr ⟨ih (by omega), fun _ _ => nofun⟩

/-- A gzip header begins at `pos` in the file. -/
def HeaderAt (file : Bytes) (pos : Nat) : Prop := pos + 4 ≤ file.length ∧ gzipAt file pos

/-- Near the end of the file only the zeros behind it can complete the magic. -/
theorem gzipAt_of_short (inside : pos < file.length) (short : file.length < pos + 4) :
    gzipAt file pos ↔ file.drop pos = [0x1f, 0x8b, 0x08] := by
  have length : (file.drop pos).length = file.length - pos := length_drop
  rw [gzipAt, paddedImage, Bytes.slice, drop_append_of_le_length (le_of_lt inside), gzipMagic]
  generalize file.drop pos = rest at length ⊢
  rcases rest with _ | ⟨_, _ | ⟨_, _ | ⟨_, _ | ⟨_, rest⟩⟩⟩⟩
  · simp only [length_nil] at length
    omega
  · simp
  · simp
  · simp
  · simp only [length_cons] at length
    omega

theorem plainLength_first :
    ∀ index < plainLength file left place, ¬ gzipAt file (place + index) := by
  fun_induction plainLength file left place with
  | case1 => nofun
  | case2 => nofun
  | case3 left place plain ih =>
    rintro (_ | index) below
    · exact plain
    · rw [Nat.add_comm index 1, ← Nat.add_assoc]
      exact ih index (by omega)

theorem plainLength_ends (file : Bytes) (left place : Nat) :
    plainLength file left place = left ∨ gzipAt file (place + plainLength file left place) := by
  induction left generalizing place with
  | zero => exact .inl rfl
  | succ left ih =>
    rw [plainLength]
    by_cases gzip : gzipAt file place
    · rw [if_pos gzip]
      exact .inr gzip
    · rw [if_neg gzip, ← Nat.add_assoc, Nat.add_right_comm]
      exact (ih (place + 1)).imp_left (congrArg (· + 1))

theorem plainLength_unique (le : count ≤ left)
    (first : ∀ index < count, ¬ gzipAt file (place + index))
    (ends : count = left ∨ gzipAt file (place + count)) : plainLength file left place = count := by
  rcases lt_trichotomy (plainLength file left place) count with less | same | more
  · rcases plainLength_ends file left place with all | gzip
    · omega
    · exact absurd gzip (first _ less)
  · exact same
  · have := plainLength_le file left place
    rcases ends with all | gzip
    · omega
    · exact absurd gzip (plainLength_first _ more)

section Splits

variable {zlib : Zlib} {file : Bytes}

/-- The places where a piece of the file ends: the file is read from its start as plain bytes up
to the next gzip magic, and as gzip members whose footer has the size of what their stream
expands to. -/
inductive Boundary (zlib : Zlib) (file : Bytes) : Nat → Prop where
  | start : Boundary zlib file 0
  | plain {pos count : Nat} : Boundary zlib file pos → 0 < count → pos + count ≤ file.length →
      (∀ index < count, ¬ gzipAt file (pos + index)) →
      (pos + count = file.length ∨ gzipAt file (pos + count)) → Boundary zlib file (pos + count)
  | member {pos consumed : Nat} {expanded : Bytes} : Boundary zlib file pos → HeaderAt file pos →
      zlib.inflate (file.drop (pos + 10)) = some (expanded, consumed) →
      footerSize file (pos + 18 + consumed) = expanded.length →
      Boundary zlib file (pos + 18 + consumed)

/-- What has to hold where a piece begins.  A gzip header is whole, a deflate stream follows it,
the size in its footer can be read, and it is inside the file if it is the right one.  The file
does not end with the first three bytes of the magic. -/
structure PieceSound (zlib : Zlib) (file : Bytes) (pos : Nat) : Prop where
  member : HeaderAt file pos → pos + 10 ≤ file.length ∧ ∃ expanded consumed,
    zlib.inflate (file.drop (pos + 10)) = some (expanded, consumed) ∧
      pos + 18 + consumed ≤ file.length + 4 ∧
      (footerSize file (pos + 18 + consumed) = expanded.length → pos + 18 + consumed ≤ file.length)
  plain : file.drop pos ≠ [0x1f, 0x8b, 0x08]

variable {expanded : Bytes}

theorem tile_member {consumed : Nat} (ends : pos + 10 + consumed + 8 ≤ file.length + 4) :
    Tile file pos [normalChunk file pos 10, deflateChunk file (pos + 10) consumed expanded,
      normalChunk file (pos + 10 + consumed) 8] (pos + 10 + consumed + 8) := by
  have header := length_slice_paddedImage (by omega : pos + 10 ≤ file.length + 4)
  have body := length_slice_paddedImage (by omega : pos + 10 + consumed ≤ file.length + 4)
  have footer := length_slice_paddedImage ends
  simp only [Tile, ImageChunk.original, normalChunk, deflateChunk, header, body, footer, and_self]

theorem tile_plain (ends : pos + count ≤ file.length + 4) :
    Tile file pos [normalChunk file pos count] (pos + count) := by
  simp only [Tile, ImageChunk.original, normalChunk, length_slice_paddedImage ends, and_self]

theorem readPiece_header (header : HeaderAt file pos) : readPiece zlib file pos =
      ⟨⟨pos, 4⟩ :: (readMember zlib file pos).trace, (readMember zlib file pos).result⟩ := by
  rw [readPiece, if_pos ⟨Nat.le_sub_of_add_le' header.1, header.2⟩, touch_then]
  rfl

theorem readPiece_plain (zlib : Zlib) (header : ¬ HeaderAt file pos) :
    (readPiece zlib file pos).trace = (scanPlain file (file.length - pos) pos).trace ∧
      (readPiece zlib file pos).result =
        .ok (some ([normalChunk file pos (plainLength file (file.length - pos) pos)],
          pos + plainLength file (file.length - pos) pos)) := by
  have unmet : ¬ (4 ≤ file.length - pos ∧ gzipAt file pos) :=
    fun ⟨room, gzip⟩ => header ⟨by omega, gzip⟩
  rw [readPiece, if_neg unmet, Traced.bind_ok (scanPlain_result file _ pos)]
  exact ⟨append_nil _, rfl⟩

theorem readMember_run {consumed : Nat} (whole : pos + 10 ≤ file.length)
    (inflated : zlib.inflate (file.drop (pos + 10)) = some (expanded, consumed)) :
    (readMember zlib file pos).trace =
        [⟨pos + 10, availIn file (pos + 10)⟩, ⟨pos + 10 + consumed + 8 - 4, 4⟩] ∧
      (readMember zlib file pos).result =
        if file.length + 4 < pos + 10 + consumed + 8 then .error .wild
        else if footerSize file (pos + 10 + consumed + 8) ≠ expanded.length then .ok none
        else .ok (some ([normalChunk file pos 10, deflateChunk file (pos + 10) consumed expanded,
          normalChunk file (pos + 10 + consumed) 8], pos + 10 + consumed + 8)) := by
  rw [readMember, touch_then_trace, touch_then_result, if_neg (by omega), inflated]
  rw [touch_then_trace, touch_then_result, deflateChunk_data]
  split
  · exact ⟨rfl, rfl⟩
  · split <;> exact ⟨rfl, rfl⟩

/-- The chunks that a round adds at `pos`, and where it ends. -/
inductive Piece (zlib : Zlib) (file : Bytes) (pos : Nat) : List ImageChunk → (next : Nat) → Prop where
  | member {consumed : Nat} {expanded : Bytes} : HeaderAt file pos → pos + 10 ≤ file.length →
      zlib.inflate (file.drop (pos + 10)) = some (expanded, consumed) →
      pos + 10 + consumed + 8 ≤ file.length + 4 →
      footerSize file (pos + 10 + consumed + 8) = expanded.length →
      Piece zlib file pos [normalChunk file pos 10, deflateChunk file (pos + 10) consumed expanded,
        normalChunk file (pos + 10 + consumed) 8] (pos + 10 + consumed + 8)
  | plain {count : Nat} : ¬ HeaderAt file pos → plainLength file (file.length - pos) pos = count →
      Piece zlib file pos [normalChunk file pos count] (pos + count)

variable {chunks : List ImageChunk}

theorem Piece.read {pos next : Nat} (piece : Piece zlib file pos chunks next) :
    (readPiece zlib file pos).result = .ok (some (chunks, next)) := by
  cases piece with
  | member header whole inflated ends size =>
    rw [readPiece_header header]
    exact (readMember_run whole inflated).2.trans
      (by rw [if_neg (by omega), if_neg (not_not.mpr size)])
  | plain header length =>
    subst length
    exact (readPiece_plain zlib header).2

variable {chunks : List ImageChunk}

theorem readPiece_piece {next : Nat}
    (read : (readPiece zlib file pos).result = .ok (some (chunks, next))) :
    Piece zlib file pos chunks next := by
  by_cases header : HeaderAt file pos
  · rw [readPiece_header header] at read
    by_cases whole : pos + 10 ≤ file.length
    · rcases inflated : zlib.inflate (file.drop (pos + 10)) with _ | ⟨expanded, consumed⟩
      · rw [readMember, touch_then_result, if_neg (by omega), inflated] at read
        cases read
      rw [(readMember_run whole inflated).2] at read
      split at read
      · cases read
      split at read
      · cases read
      rename_i ends size
      cases read
      exact .member header whole inflated (by omega) (not_not.mp size)
    · rw [readMember, touch_then_result, if_pos (by omega)] at read
      cases read
  · rw [(readPiece_plain zlib header).2] at read
    cases read
    exact .plain header rfl

theorem Piece.tile {next : Nat} (inside : pos < file.length)
    (piece : Piece zlib file pos chunks next) : Tile file pos chunks next := by
  cases piece with
  | member _ _ _ ends _ => exact tile_member ends
  | plain _ length =>
    have := plainLength_le file (file.length - pos) pos
    exact tile_plain (by omega)

theorem Piece.boundary {next : Nat} (inside : pos < file.length)
    (piece : Piece zlib file pos chunks next) (boundary : Boundary zlib file pos) :
    Boundary zlib file next := by
  cases piece with
  | @member consumed expanded header _ inflated _ size =>
    rw [show pos + 10 + consumed + 8 = pos + 18 + consumed by omega] at size ⊢
    exact .member boundary header inflated size
  | @plain count _ length =>
    subst length
    have le := plainLength_le file (file.length - pos) pos
    rcases Nat.eq_zero_or_pos (plainLength file (file.length - pos) pos) with none | some
    · rw [none]
      exact boundary
    · refine .plain boundary some (by omega) plainLength_first ?_
      exact (plainLength_ends file (file.length - pos) pos).imp_left fun all => by omega

/-- What every piece passes on holds at every boundary, if it shows that members are read to
their end. -/
theorem Boundary.carried {holds : Nat → Prop} (start : holds 0)
    (step : ∀ {pos next chunks}, holds pos → pos < file.length → Piece zlib file pos chunks next →
      holds next)
    (whole : ∀ {pos consumed expanded}, holds pos → pos < file.length → HeaderAt file pos →
      zlib.inflate (file.drop (pos + 10)) = some (expanded, consumed) →
      footerSize file (pos + 18 + consumed) = expanded.length →
      pos + 10 ≤ file.length ∧ pos + 18 + consumed ≤ file.length + 4)
    (boundary : Boundary zlib file pos) : holds pos := by
  induction boundary with
  | start => exact start
  | @plain pos count _ some ends first stops ih =>
    have header : ¬ HeaderAt file pos := fun header => first 0 some header.2
    exact step ih (by omega) (.plain header
      (plainLength_unique (by omega) first (stops.imp_left fun all => by omega)))
  | @member pos consumed expanded _ header inflated size ih =>
    have inside : pos < file.length := lt_of_lt_of_le (by omega) header.1
    obtain ⟨headerWhole, ends⟩ := whole ih inside header inflated size
    rw [show pos + 18 + consumed = pos + 10 + consumed + 8 by omega] at size ends ⊢
    exact step ih inside (.member header headerWhole inflated ends size)

/-! ## The whole loop -/

theorem readImageFrom_end (ends : file.length ≤ pos) (fuel : Nat) :
    readImageFrom zlib file (fuel + 1) pos = pure (some []) := by
  rw [readImageFrom, if_pos ends]

section

variable (inside : pos < file.length)

include inside

theorem readImageFrom_next {next : Nat}
    (read : (readPiece zlib file pos).result = .ok (some (chunks, next))) (fuel : Nat) :
    readImageFrom zlib file (fuel + 1) pos =
      ⟨(readPiece zlib file pos).trace ++ (readImageFrom zlib file fuel next).trace,
        (readImageFrom zlib file fuel next).result.map (Option.map (chunks ++ ·))⟩ := by
  rw [readImageFrom, if_neg (by omega), Traced.bind_ok read]
  dsimp only
  cases rest : (readImageFrom zlib file fuel next).result with
  | error why =>
    rw [bind_error rest]
    rfl
  | ok value =>
    rw [Traced.bind_ok rest]
    simp only [pure_trace, pure_result, append_nil, Except.map]

theorem readImageFrom_null (read : (readPiece zlib file pos).result = .ok none) (fuel : Nat) :
    readImageFrom zlib file (fuel + 1) pos = ⟨(readPiece zlib file pos).trace, .ok none⟩ := by
  rw [readImageFrom, if_neg (by omega), Traced.bind_ok read]
  rw [Traced.pure_trace, Traced.pure_result, append_nil]

theorem readImageFrom_error {why : Stop}
    (read : (readPiece zlib file pos).result = .error why) (fuel : Nat) :
    readImageFrom zlib file (fuel + 1) pos = ⟨(readPiece zlib file pos).trace, .error why⟩ := by
  rw [readImageFrom, if_neg (by omega), bind_error read]

theorem readImageFrom_some {fuel : Nat}
    (run : (readImageFrom zlib file (fuel + 1) pos).result = .ok (some chunks)) :
    ∃ first next rest, Piece zlib file pos first next ∧
      (readImageFrom zlib file fuel next).result = .ok (some rest) ∧ chunks = first ++ rest := by
  rcases read : (readPiece zlib file pos).result with why | _ | ⟨first, next⟩
  · rw [readImageFrom_error inside read] at run
    cases run
  · rw [readImageFrom_null inside read] at run
    cases run
  rw [readImageFrom_next inside read] at run
  rcases later : (readImageFrom zlib file fuel next).result with why | _ | rest
  all_goals rw [later] at run; cases run
  exact ⟨first, next, rest, readPiece_piece read, later, rfl⟩

end

/-- From `pos` on, `ReadImage` returns and reads the buffer only, and chunks that it returns tile
the rest of the file. -/
structure SplitsFrom (zlib : Zlib) (file : Bytes) (pos : Nat) : Prop where
  returns : ∃ fuel chunks, (readImageFrom zlib file fuel pos).result = .ok chunks
  inside : ∀ fuel, ∀ read ∈ (readImageFrom zlib file fuel pos).trace, read.Inside (file.length + 4)
  tile : ∀ fuel chunks, (readImageFrom zlib file fuel pos).result = .ok (some chunks) →
    Tile file pos chunks file.length

theorem splitsFrom_end : SplitsFrom zlib file file.length where
  returns := ⟨1, some [], by rw [readImageFrom_end le_rfl, pure_result]⟩
  inside := by
    rintro (_ | fuel)
    · nofun
    · rw [readImageFrom_end le_rfl]
      nofun
  tile := by
    rintro (_ | fuel) chunks read
    · cases read
    · rw [readImageFrom_end le_rfl] at read
      cases read
      rfl

theorem SplitsFrom.piece_inside (splits : SplitsFrom zlib file pos) (inside : pos < file.length) :
    ∀ read ∈ (readPiece zlib file pos).trace, read.Inside (file.length + 4) := by
  intro read mem
  apply splits.inside 1
  cases ran : (readPiece zlib file pos).result with
  | error why =>
    rw [readImageFrom_error inside ran]
    exact mem
  | ok value =>
    rcases value with _ | ⟨chunks, next⟩
    · rw [readImageFrom_null inside ran]
      exact mem
    · rw [readImageFrom_next inside ran]
      exact mem_append_left _ mem

theorem SplitsFrom.next {pos next : Nat}
    (splits : SplitsFrom zlib file pos) (inside : pos < file.length)
    (read : (readPiece zlib file pos).result = .ok (some (chunks, next))) :
    SplitsFrom zlib file next where
  returns := by
    obtain ⟨_ | fuel, value, returned⟩ := splits.returns
    · cases returned
    rw [readImageFrom_next inside read] at returned
    refine ⟨fuel, ?_⟩
    cases rest : (readImageFrom zlib file fuel next).result with
    | ok value => exact ⟨value, rfl⟩
    | error why =>
      rw [rest] at returned
      cases returned
  inside fuel access mem := by
    apply splits.inside (fuel + 1)
    rw [readImageFrom_next inside read]
    exact mem_append_right _ mem
  tile fuel rest returned := by
    have whole := splits.tile (fuel + 1) (chunks ++ rest)
    rw [readImageFrom_next inside read, returned] at whole
    exact ((readPiece_piece read).tile inside).append.mp (whole rfl)

theorem SplitsFrom.of_next {next : Nat} (inside : pos < file.length)
    (read : (readPiece zlib file pos).result = .ok (some (chunks, next)))
    (reads : ∀ read ∈ (readPiece zlib file pos).trace, read.Inside (file.length + 4))
    (splits : SplitsFrom zlib file next) : SplitsFrom zlib file pos where
  returns := by
    obtain ⟨fuel, value, returned⟩ := splits.returns
    refine ⟨fuel + 1, value.map (chunks ++ ·), ?_⟩
    rw [readImageFrom_next inside read, returned]
    rfl
  inside := by
    rintro (_ | fuel)
    · nofun
    · rw [readImageFrom_next inside read]
      exact forall_mem_append.mpr ⟨reads, splits.inside fuel⟩
  tile := by
    rintro (_ | fuel) all returned
    · cases returned
    rw [readImageFrom_next inside read] at returned
    rcases ran : (readImageFrom zlib file fuel next).result with why | _ | rest
    all_goals rw [ran] at returned; cases returned
    exact ((readPiece_piece read).tile inside).append.mpr (splits.tile fuel rest ran)

theorem SplitsFrom.of_null (inside : pos < file.length)
    (read : (readPiece zlib file pos).result = .ok none)
    (reads : ∀ read ∈ (readPiece zlib file pos).trace, read.Inside (file.length + 4)) :
    SplitsFrom zlib file pos where
  returns := ⟨1, none, by rw [readImageFrom_null inside read]⟩
  inside := by
    rintro (_ | fuel)
    · nofun
    · rw [readImageFrom_null inside read]
      exact reads
  tile := by
    rintro (_ | fuel) all returned
    · cases returned
    · rw [readImageFrom_null inside read] at returned
      cases returned

/-! ## When every file piece is sound -/

theorem availIn_inside (whole : pos ≤ file.length) :
    (⟨pos, availIn file pos⟩ : ImageRead).Inside (file.length + 4) := by
  have : availIn file pos ≤ file.length - pos := by
    rw [availIn, Nat.sub_add_comm whole, Nat.add_mod_right]
    exact Nat.mod_le _ _
  rw [ImageRead.inside_iff]
  omega

/-- A round at a sound place stays in the buffer; it ends `ReadImage`, or goes on inside the
file. -/
theorem readPiece_sound (inside : pos < file.length) (sound : PieceSound zlib file pos) :
    (∀ read ∈ (readPiece zlib file pos).trace, read.Inside (file.length + 4)) ∧
      ((readPiece zlib file pos).result = .ok none ∨
        ∃ chunks next, (readPiece zlib file pos).result = .ok (some (chunks, next)) ∧
          pos < next ∧ next ≤ file.length) := by
  by_cases header : HeaderAt file pos
  · obtain ⟨whole, expanded, consumed, inflated, room, ends⟩ := sound.member header
    obtain ⟨trace, result⟩ := readMember_run whole inflated
    have shift : pos + 18 + consumed = pos + 10 + consumed + 8 := by omega
    rw [shift] at room ends
    rw [readPiece_header header, trace, result, if_neg (by omega)]
    constructor
    · have room4 : pos + 4 ≤ file.length := header.1
      simp only [forall_mem_cons, not_mem_nil, false_implies, implies_true, and_true]
      refine ⟨?_, availIn_inside whole, ?_⟩ <;> rw [ImageRead.inside_iff] <;> omega
    · by_cases size : footerSize file (pos + 10 + consumed + 8) = expanded.length
      · rw [if_neg (not_not.mpr size)]
        exact .inr ⟨_, _, rfl, by omega, ends size⟩
      · rw [if_pos size]
        exact .inl rfl
  obtain ⟨trace, result⟩ := readPiece_plain zlib header
  have le := plainLength_le file (file.length - pos) pos
  have some : 0 < plainLength file (file.length - pos) pos := by
    apply Nat.pos_of_ne_zero
    intro zero
    rcases plainLength_ends file (file.length - pos) pos with all | gzip
    · omega
    · rw [zero] at gzip
      have short : file.length < pos + 4 := Nat.lt_of_not_le fun room => header ⟨room, gzip⟩
      exact sound.plain ((gzipAt_of_short inside short).mp gzip)
  rw [trace, result]
  exact ⟨scanPlain_inside (by omega), .inr ⟨_, _, rfl, by omega, by omega⟩⟩

theorem splitsFrom_of_sound (sound : ∀ pos, Boundary zlib file pos → pos < file.length →
      PieceSound zlib file pos) (boundary : Boundary zlib file pos) (inside : pos ≤ file.length) :
    SplitsFrom zlib file pos := by
  -- every round that goes on comes closer to the end of the file
  induction left : file.length - pos using Nat.strong_induction_on generalizing pos with
  | _ left ih =>
    rcases Nat.eq_or_lt_of_le inside with rfl | below
    · exact splitsFrom_end
    · obtain ⟨reads, null | ⟨chunks, next, read, more, le⟩⟩ :=
        readPiece_sound below (sound pos boundary below)
      · exact .of_null below null reads
      · have further := (readPiece_piece read).boundary below boundary
        exact .of_next below read reads (ih _ (by omega) further le rfl)

/-- A file that ends with the first three bytes of the magic is never finished. -/
theorem readImageFrom_stuck (tail : file.drop pos = [0x1f, 0x8b, 0x08]) (fuel : Nat) :
    (readImageFrom zlib file fuel pos).result = .error .hang := by
  have length : file.length - pos = 3 := by
    rw [← length_drop, tail]
    rfl
  have gzip : gzipAt file pos := (gzipAt_of_short (by omega) (by omega)).mpr tail
  have header : ¬ HeaderAt file pos := fun header => by
    have := header.1
    omega
  have none : plainLength file (file.length - pos) pos = 0 := by
    rw [length, plainLength, if_pos gzip]
  have read := (readPiece_plain zlib header).2
  rw [none] at read
  induction fuel with
  | zero => rfl
  | succ fuel ih =>
    rw [readImageFrom_next (by omega) read]
    show (readImageFrom zlib file fuel pos).result.map _ = _
    rw [ih]
    rfl

/-- What a run that meets the contract shows about the piece where it begins. -/
theorem SplitsFrom.sound (splits : SplitsFrom zlib file pos) (inside : pos < file.length) :
    PieceSound zlib file pos where
  member header := by
    have reads := splits.piece_inside inside
    rw [readPiece_header header] at reads
    have whole : pos + 10 ≤ file.length := by
      by_contra cut
      have handed : (⟨pos + 10, availIn file (pos + 10)⟩ : ImageRead) ∈
          (readMember zlib file pos).trace := by
        rw [readMember, touch_then_trace]
        exact mem_cons_self
      have room := header.1
      have := reads _ (mem_cons_of_mem _ handed)
      rw [ImageRead.inside_iff, availIn, Nat.mod_eq_of_lt (by omega)] at this
      omega
    refine ⟨whole, ?_⟩
    rcases inflated : zlib.inflate (file.drop (pos + 10)) with _ | ⟨expanded, consumed⟩
    · obtain ⟨_ | fuel, chunks, returned⟩ := splits.returns
      · cases returned
      have stuck : (readPiece zlib file pos).result = .error .hang := by
        rw [readPiece_header header, readMember, touch_then_result, if_neg (by omega), inflated]
        rfl
      rw [readImageFrom_error inside stuck] at returned
      cases returned
    obtain ⟨trace, result⟩ := readMember_run whole inflated
    have shift : pos + 18 + consumed = pos + 10 + consumed + 8 := by omega
    have room : pos + 10 + consumed + 8 ≤ file.length + 4 := by
      have : (⟨pos + 10 + consumed + 8 - 4, 4⟩ : ImageRead).Inside (file.length + 4) := by
        apply reads
        rw [trace]
        simp
      rw [ImageRead.inside_iff] at this
      omega
    refine ⟨expanded, consumed, rfl, by omega, fun size => ?_⟩
    rw [shift] at size ⊢
    by_contra beyond
    rw [if_neg (by omega), if_neg (not_not.mpr size)] at result
    have next := splits.next inside (by rw [readPiece_header header]; exact result)
    have ends := next.tile 1 [] (by rw [readImageFrom_end (by omega)]; rfl)
    rw [Tile] at ends
    omega
  plain := by
    intro tail
    obtain ⟨fuel, chunks, returned⟩ := splits.returns
    rw [readImageFrom_stuck tail] at returned
    cases returned

theorem SplitsFrom.boundary (splits : SplitsFrom zlib file 0) (boundary : Boundary zlib file pos) :
    SplitsFrom zlib file pos := by
  refine boundary.carried splits (fun before inside piece => before.next inside piece.read) ?_
  intro pos consumed expanded before inside header inflated _
  obtain ⟨whole, _, _, again, ends, _⟩ := (before.sound inside).member header
  cases inflated.symm.trans again
  exact ⟨whole, ends⟩

/-- `ReadImage` returns and reads the buffer only, and chunks that it returns tile the file. -/
def Splits (zlib : Zlib) (file : Bytes) : Prop := SplitsFrom zlib file 0

/-- `ReadImage` splits a file exactly if its pieces are sound. -/
theorem readImage_splits_iff (zlib : Zlib) (file : Bytes) : Splits zlib file ↔
      ∀ pos, Boundary zlib file pos → pos < file.length → PieceSound zlib file pos := by
  constructor
  · intro splits pos boundary inside
    exact (SplitsFrom.boundary splits boundary).sound inside
  · intro sound
    exact splitsFrom_of_sound sound .start (Nat.zero_le _)

/-- Three bytes for which `ReadImage` adds empty chunks for ever. -/
theorem readImage_never_ends :
    ¬ ∃ zlib fuel chunks, (readImage zlib [0x1f, 0x8b, 0x08] fuel).result = .ok chunks := by
  rintro ⟨zlib, fuel, chunks, returned⟩
  rw [readImage, readImageFrom_stuck rfl] at returned
  cases returned

end Splits

end PhilzTouch.ApplyPatch
