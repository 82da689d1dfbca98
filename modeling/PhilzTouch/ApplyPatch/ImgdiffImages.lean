import PhilzTouch.ApplyPatch.ImgdiffRoundTrip

/-!
# Round trips of images

`imgdiff` without `-z`, with and without bonus data.  What it writes reproduces the bytes that the
chunks of the target cover.  These are the target itself exactly if the gzip members of the target
end inside it.
-/

namespace PhilzTouch.ApplyPatch

open List ImageChunk

/-! ## What a patch for a chunk needs -/

/-- A chunk of the source as the decoder will see it: its bytes are there, and a deflate stream
expands to its data without the bonus. -/
structure SourceChunk (zlib : Zlib) (old bonus : Bytes) (chunk : ImageChunk) : Prop where
  inside : chunk.start + chunk.original.length ≤ old.length
  bytes : chunk.original = old.slice chunk.start chunk.original.length
  expands : chunk.type = .deflate → ∃ expanded consumed,
    zlib.inflate chunk.deflateData = some (expanded, consumed) ∧ chunk.data = expanded ++ bonus
  sorted : ∀ I, chunk.I = some I → Positions I chunk.data

/-- A deflate chunk of the target can be made again from its data. -/
def TargetChunk (zlib : Zlib) (chunk : ImageChunk) : Prop :=
  chunk.type = .deflate → chunk.params.Fits ∧ ∀ room, 0 < room →
    (zlib.deflate chunk.params chunk.data room).map flatten = some chunk.deflateData

variable {old : Bytes}

theorem bsdiff_diff {bz : Bz2} {new patch : Bytes} {ip : Option Cells} {I : Cells}
    (sorted : ∀ I, ip = some I → Positions I old) (oldFits : old.length < 2 ^ 31)
    (newFits : new.length < 2 ^ 31) (run : bsdiff bz old ip new = some (patch, I)) :
    Diff bz old patch new ∧ Positions I old := by
  obtain ⟨_, ctrl, db, eb, pos, made, positions, replay⟩ := bsdiff_spec bz old new ip sorted
  cases run.symm.trans made
  exact ⟨⟨oldFits, newFits, ctrl, db, eb, pos, rfl, replay⟩, positions⟩

/-- What `MakePatch` makes stands for what the target's chunk was in its file. -/
theorem makePatch_right {zlib : Zlib} {bz : Bz2} {bonus : Bytes} {src tgt after : ImageChunk}
    {made : MadeChunk} (source : SourceChunk zlib old bonus src) (target : TargetChunk zlib tgt)
    (types : src.type = tgt.type) (run : makePatch bz src tgt = .ok (made, after)) :
    Right zlib bz old bonus made tgt.original ∧ SourceChunk zlib old bonus after ∧
      after.type = src.type := by
  rw [makePatch] at run
  by_cases small : tgt.type = .normal ∧ tgt.data.length ≤ 160
  · rw [if_pos small] at run
    cases run
    rw [original, small.1]
    exact ⟨.raw (by omega), source, rfl⟩
  rw [if_neg small] at run
  split at run
  · cases run
  rename_i fits
  rcases diffed : bsdiff bz src.data src.I tgt.data with _ | ⟨patch, I⟩
  · rw [diffed] at run
    cases run
  rw [diffed] at run
  obtain ⟨diff, positions⟩ := bsdiff_diff source.sorted (by omega) (by omega) diffed
  have kept : SourceChunk zlib old bonus { src with I := some I } :=
    ⟨source.inside, source.bytes, source.expands, fun _ found => by cases found; exact positions⟩
  have bytes := source.bytes
  have inside := source.inside
  rw [original] at bytes inside ⊢
  cases type : tgt.type with
  | normal =>
    rw [type] at types
    rw [type] at run
    rw [types] at bytes inside
    dsimp only at run bytes inside ⊢
    split at run
    · cases run
      exact ⟨.raw (by omega), kept, rfl⟩
    · cases run
      rw [bytes] at diff
      exact ⟨.normal inside diff, kept, rfl⟩
  | deflate =>
    rw [type] at types
    rw [type] at run
    rw [types] at bytes inside
    dsimp only at run bytes inside ⊢
    cases run
    obtain ⟨expanded, consumed, inflated, data⟩ := source.expands types
    obtain ⟨params, deflated⟩ := target type
    refine ⟨?_, kept, rfl⟩
    rw [data] at diff ⊢
    rw [bytes] at inflated
    exact .deflate inside inflated diff params deflated
  | raw =>
    rw [type] at run
    dsimp only at run ⊢
    cases run
    exact ⟨.raw (by omega), kept, rfl⟩

/-! ## Merging -/

variable {chunk : ImageChunk} {chunks : List ImageChunk}

section Merging

variable {file : Bytes} {pos stop : Nat}

/-- Adjacent normal chunks become one. -/
def collapse : List ChunkType → List ChunkType
  | .normal :: .normal :: rest => collapse (.normal :: rest)
  | type :: rest => type :: collapse rest
  | [] => []

variable {run : ImageChunk} {rest : List ImageChunk} {next : ImageChunk}

theorem Tile.merge (tile : Tile file pos (run :: next :: rest) stop) (follows : Follows run next) :
    Tile file pos ({ run with data := run.data ++ next.data } :: rest) stop := by
  obtain ⟨runNormal, nextNormal, _⟩ := follows
  obtain ⟨start, bytes, _, nextBytes, tile⟩ := tile
  simp only [original, runNormal, nextNormal] at bytes nextBytes tile
  refine ⟨start, ?_, ?_⟩
  · simp only [original, runNormal, length_append]
    rw [← Bytes.slice_append_slice, ← bytes, ← nextBytes]
  · simp only [original, runNormal, length_append]
    rw [← add_assoc]
    exact tile

theorem mergeRun_tile (tile : Tile file pos (run :: rest) stop) :
    Tile file pos (mergeRun run rest) stop := by
  induction rest generalizing run pos with
  | nil => exact tile
  | cons next rest ih =>
    rw [mergeRun]
    by_cases follows : Follows run next
    · rw [if_pos follows]
      exact ih (tile.merge follows)
    · rw [if_neg follows]
      exact ⟨tile.1, tile.2.1, ih tile.2.2⟩

theorem Tile.follows (tile : Tile file pos (run :: next :: rest) stop) :
    Follows run next ↔ run.type = .normal ∧ next.type = .normal := by
  refine ⟨fun follows => ⟨follows.1, follows.2.1⟩, fun ⟨runNormal, nextNormal⟩ => ?_⟩
  obtain ⟨start, _, nextStart, _⟩ := tile
  simp only [original, runNormal] at nextStart
  exact ⟨runNormal, nextNormal, by rw [nextStart, start]⟩

theorem mergeRun_types (tile : Tile file pos (run :: rest) stop) :
    (mergeRun run rest).map type = collapse ((run :: rest).map type) := by
  induction rest generalizing run pos with
  | nil =>
    simp only [mergeRun, map_cons, map_nil]
    cases run.type <;> rfl
  | cons next rest ih =>
    rw [mergeRun]
    by_cases follows : Follows run next
    · rw [if_pos follows, ih (tile.merge follows)]
      simp only [map_cons, follows.1, follows.2.1]
      rfl
    rw [if_neg follows, map_cons, ih tile.2.2]
    rw [tile.follows] at follows
    simp only [map_cons]
    generalize run.type = runType at follows ⊢
    generalize next.type = nextType at follows ⊢
    cases runType <;> cases nextType
    · exact absurd ⟨rfl, rfl⟩ follows
    all_goals rfl

/-- A merged chunk has the suffixes of its first part, and merging leaves deflate chunks alone. -/
theorem mem_mergeRun (mem : chunk ∈ mergeRun run rest) :
    ∃ first ∈ run :: rest, chunk.I = first.I ∧ (chunk.type = .deflate → chunk = first) := by
  induction rest generalizing run with
  | nil => exact ⟨chunk, mem, rfl, fun _ => rfl⟩
  | cons next rest ih =>
    rw [mergeRun] at mem
    by_cases follows : Follows run next
    · rw [if_pos follows] at mem
      obtain ⟨first, member, same, alone⟩ := ih mem
      rcases mem_cons.mp member with rfl | later
      · refine ⟨run, mem_cons_self, same, fun deflate => ?_⟩
        rw [alone deflate] at deflate
        exact absurd (follows.1.symm.trans deflate) nofun
      · exact ⟨first, mem_cons_of_mem _ (mem_cons_of_mem _ later), same, alone⟩
    · rw [if_neg follows] at mem
      rcases mem_cons.mp mem with rfl | later
      · exact ⟨chunk, mem_cons_self, rfl, fun _ => rfl⟩
      · obtain ⟨first, member, merged⟩ := ih later
        exact ⟨first, mem_cons_of_mem _ member, merged⟩

theorem mem_merge (mem : chunk ∈ mergeAdjacentNormalChunks chunks) :
    ∃ first ∈ chunks, chunk.I = first.I ∧ (chunk.type = .deflate → chunk = first) := by
  cases chunks with
  | nil => cases mem
  | cons run rest => exact mem_mergeRun mem

section

variable (run : ImageChunk) (rest : List ImageChunk)

end

section

variable (tile : Tile file pos chunks stop)

include tile

theorem merge_tile : Tile file pos (mergeAdjacentNormalChunks chunks) stop := by
  cases chunks with
  | nil => exact tile
  | cons run rest => exact mergeRun_tile tile

theorem merge_types : (mergeAdjacentNormalChunks chunks).map type = collapse (chunks.map type) := by
  cases chunks with
  | nil => rfl
  | cons run rest => exact mergeRun_types tile

theorem Tile.flatten : pos ≤ stop ∧
      (chunks.map original).flatten = (paddedImage file).slice pos (stop - pos) := by
  induction chunks generalizing pos with
  | nil =>
    cases tile
    simp [Bytes.slice]
  | cons chunk chunks ih =>
    obtain ⟨_, bytes, rest⟩ := tile
    obtain ⟨le, flat⟩ := ih rest
    refine ⟨by omega, ?_⟩
    have split : stop - pos = chunk.original.length + (stop - (pos + chunk.original.length)) := by
      omega
    rw [map_cons, flatten_cons, flat, split, ← Bytes.slice_append_slice, ← bytes]

theorem Tile.le_padded (start : pos ≤ file.length + 4) : stop ≤ file.length + 4 := by
  induction chunks generalizing pos with
  | nil =>
    cases tile
    exact start
  | cons chunk chunks ih =>
    obtain ⟨_, bytes, rest⟩ := tile
    have length := congrArg length bytes
    rw [Bytes.length_slice, length_paddedImage] at length
    exact ih rest (by omega)

theorem Tile.mem (ends : stop ≤ file.length)
    (mem : chunk ∈ chunks) : chunk.start + chunk.original.length ≤ file.length ∧
      chunk.original = file.slice chunk.start chunk.original.length := by
  induction chunks generalizing pos with
  | nil => cases mem
  | cons first rest ih =>
    obtain ⟨start, bytes, tile⟩ := tile
    rcases mem_cons.mp mem with rfl | later
    · have le := tile.flatten.1
      rw [start]
      refine ⟨by omega, bytes.trans ?_⟩
      rw [Bytes.slice, Bytes.slice, paddedImage, drop_append_of_le_length (by omega),
        take_append_of_le_length (by rw [length_drop]; omega)]
    · exact ih tile later

end

end Merging

/-! ## The chunks of an image -/

variable {pos fuel stop : Nat}

section Image

variable {zlib : Zlib} {file : Bytes}

/-- A chunk as `ReadImage` leaves it: its suffixes are not sorted, and a deflate chunk holds what
its stream expands to. -/
structure FreshChunk (zlib : Zlib) (chunk : ImageChunk) : Prop where
  unsorted : chunk.I = none
  expands : chunk.type = .deflate →
    ∃ consumed, zlib.inflate chunk.deflateData = some (chunk.data, consumed)

theorem freshChunk_normal (file : Bytes) (start length : Nat) :
    FreshChunk zlib (normalChunk file start length) := ⟨rfl, nofun⟩

theorem Piece.fresh (stops : zlib.Stops) {next : Nat} (piece : Piece zlib file pos chunks next) :
    ∀ chunk ∈ chunks, FreshChunk zlib chunk := by
  cases piece with
  | @member consumed expanded _ whole inflated _ _ =>
    obtain ⟨consumes, again⟩ := stops _ _ _ inflated
    have stream : FreshChunk zlib (deflateChunk file (pos + 10) consumed expanded) := by
      refine ⟨rfl, fun _ => ⟨consumed, ?_⟩⟩
      have bytes : (deflateChunk file (pos + 10) consumed expanded).deflateData =
          (file.drop (pos + 10)).take consumed := by
        rw [deflateChunk, Bytes.slice, paddedImage, drop_append_of_le_length whole,
          take_append_of_le_length consumes]
      rw [bytes, again, deflateChunk_data]
    simp only [forall_mem_cons, not_mem_nil, false_implies, implies_true, and_true]
    exact ⟨freshChunk_normal _ _ _, stream, freshChunk_normal _ _ _⟩
  | plain _ _ =>
    simp only [forall_mem_cons, not_mem_nil, false_implies, implies_true, and_true]
    exact freshChunk_normal _ _ _

/-- A run that returns chunks: they tile the file from `pos` to a place where it can end. -/
theorem readImageFrom_chunks (stops : zlib.Stops) (boundary : Boundary zlib file pos)
    (run : (readImageFrom zlib file fuel pos).result = .ok (some chunks)) :
    (∀ chunk ∈ chunks, FreshChunk zlib chunk) ∧
      ∃ stop, Boundary zlib file stop ∧ file.length ≤ stop ∧ Tile file pos chunks stop := by
  induction fuel generalizing pos chunks with
  | zero => cases run
  | succ fuel ih =>
    by_cases ends : file.length ≤ pos
    · rw [readImageFrom_end ends] at run
      cases run
      exact ⟨nofun, pos, boundary, ends, rfl⟩
    have inside : pos < file.length := by omega
    obtain ⟨first, next, rest, piece, later, rfl⟩ := readImageFrom_some inside run
    obtain ⟨fresh, stop, last, le, tile⟩ := ih (piece.boundary inside boundary) later
    exact ⟨forall_mem_append.mpr ⟨piece.fresh stops, fresh⟩, stop, last, le,
      (piece.tile inside).append.mpr tile⟩

/-- Every gzip header, stream and footer that `ReadImage` finds lies in the file. -/
def MembersWhole (zlib : Zlib) (file : Bytes) : Prop :=
  ∀ pos expanded consumed, Boundary zlib file pos → HeaderAt file pos →
    zlib.inflate (file.drop (pos + 10)) = some (expanded, consumed) →
    footerSize file (pos + 18 + consumed) = expanded.length → pos + 18 + consumed ≤ file.length

theorem MembersWhole.boundary (whole : MembersWhole zlib file) (boundary : Boundary zlib file pos) :
    pos ≤ file.length := by
  cases boundary with
  | start => exact Nat.zero_le _
  | plain _ _ inside _ _ => exact inside
  | member before header inflated size => exact whole _ _ _ before header inflated size

/-- Chunks that `ReadImage` returns from a place on end at `stop`. -/
def EndsAt (zlib : Zlib) (file : Bytes) (stop pos : Nat) : Prop :=
  ∃ fuel chunks, (readImageFrom zlib file fuel pos).result = .ok (some chunks) ∧
    Tile file pos chunks stop

theorem EndsAt.first (run : EndsAt zlib file stop pos) (inside : pos < file.length) :
    ∃ chunks next, Piece zlib file pos chunks next ∧ EndsAt zlib file stop next := by
  obtain ⟨_ | fuel, all, run, tile⟩ := run
  · cases run
  obtain ⟨first, next, rest, piece, later, rfl⟩ := readImageFrom_some inside run
  exact ⟨first, next, piece, fuel, rest, later, (piece.tile inside).append.mp tile⟩

variable {chunks' : List ImageChunk}

theorem Piece.unique {next next' : Nat}
    (piece : Piece zlib file pos chunks next) (other : Piece zlib file pos chunks' next') :
    next = next' := by
  have same := piece.read.symm.trans other.read
  simp only [Except.ok.injEq, Option.some.injEq, Prod.mk.injEq] at same
  exact same.2

/-- A run that returns chunks goes through every boundary. -/
theorem EndsAt.boundary (run : EndsAt zlib file stop 0) (boundary : Boundary zlib file pos) :
    EndsAt zlib file stop pos := by
  refine boundary.carried run ?_ ?_
  · intro pos next chunks before inside piece
    obtain ⟨_, _, first, after⟩ := before.first inside
    rw [piece.unique first]
    exact after
  intro pos consumed expanded before inside header inflated _
  obtain ⟨_, _, first, _⟩ := before.first inside
  cases first with
  | member _ whole again ends _ =>
    cases inflated.symm.trans again
    exact ⟨whole, by omega⟩
  | plain plain _ => exact absurd header plain

/-- The chunks end with the file exactly if its members do not reach beyond it. -/
theorem EndsAt.whole_iff (run : EndsAt zlib file stop 0) (last : Boundary zlib file stop)
    (le : file.length ≤ stop) : MembersWhole zlib file ↔ stop = file.length := by
  constructor
  · intro whole
    exact le_antisymm (whole.boundary last) le
  intro atEnd pos expanded consumed boundary header inflated size
  by_contra beyond
  obtain ⟨_ | fuel, chunks, ran, tile⟩ := run.boundary (.member boundary header inflated size)
  · cases ran
  rw [readImageFrom_end (by omega)] at ran
  cases ran
  cases tile
  omega

end Image

/-! ## Demotion -/

variable {file : Bytes}

section Demotion

variable {zlib : Zlib}

/-- Where a chunk stands in its file, and what it is there. -/
def ImageChunk.place (chunk : ImageChunk) : Nat × Bytes := (chunk.start, chunk.original)

theorem Tile.congr (places : chunks'.map place = chunks.map place)
    (tile : Tile file pos chunks stop) : Tile file pos chunks' stop := by
  induction chunks generalizing pos chunks' with
  | nil =>
    rw [map_nil, map_eq_nil_iff] at places
    rw [places]
    exact tile
  | cons chunk chunks ih =>
    cases chunks' with
    | nil => cases places
    | cons chunk' chunks' =>
      simp only [map_cons, cons.injEq, place, Prod.mk.injEq] at places
      obtain ⟨⟨start, original⟩, later⟩ := places
      obtain ⟨chunkStart, bytes, rest⟩ := tile
      rw [Tile, start, original]
      exact ⟨chunkStart, bytes, ih later rest⟩

section

variable (deflate : chunk.type = .deflate)

include deflate

theorem changeToNormal_eq : changeDeflateChunkToNormal chunk =
    { chunk with type := .normal, data := chunk.deflateData } := by
  rw [changeDeflateChunkToNormal, deflate]

theorem changeToNormal_place : (changeDeflateChunkToNormal chunk).place = chunk.place := by
  simp only [changeToNormal_eq deflate, place, original, deflate]

theorem changeToNormal_fresh (fresh : FreshChunk zlib chunk) :
    FreshChunk zlib (changeDeflateChunkToNormal chunk) := by
  rw [changeToNormal_eq deflate]
  exact ⟨fresh.unsorted, nofun⟩

theorem changeToNormal_target : TargetChunk zlib (changeDeflateChunkToNormal chunk) := by
  rw [changeToNormal_eq deflate]
  exact nofun

end

theorem tryReconstruction_target (steady : zlib.Steady) (fits : chunk.params.Fits)
    (run : tryReconstruction zlib chunk = .ok true) : TargetChunk zlib chunk := by
  intro _
  refine ⟨fits, fun room some => ?_⟩
  rw [tryReconstruction] at run
  split at run
  · cases run
  · rename_i pieces deflated
    simp only [Except.ok.injEq, decide_eq_true_eq] at run
    rw [steady _ _ room bufferSize some (by decide), deflated, Option.map_some, run]

theorem encoderParams_fits {level : Int} (low : -2 ^ 31 ≤ level) (high : level < 2 ^ 31) :
    (encoderParams level).Fits := by
  constructor <;> simp only [encoderParams] <;> omega

/-- A chunk that was reconstructed differs from the one before in its parameters only. -/
theorem reconstructDeflateChunk_some (steady : zlib.Steady) {after : ImageChunk}
    (run : reconstructDeflateChunk zlib chunk = .ok (some after)) :
    TargetChunk zlib after ∧ after.place = chunk.place ∧ after.type = chunk.type := by
  obtain ⟨found, first, run⟩ := bind_ok run
  cases found with
  | true =>
    cases run
    exact ⟨tryReconstruction_target steady (encoderParams_fits (by decide) (by decide)) first,
      rfl, rfl⟩
  | false =>
    obtain ⟨found, second, run⟩ := bind_ok run
    cases found with
    | true =>
      cases run
      exact ⟨tryReconstruction_target steady (encoderParams_fits (by decide) (by decide))
        second, rfl, rfl⟩
    | false => cases run

/-- What the treatment of two corresponding chunks keeps. -/
structure Demoted (zlib : Zlib) (src tgt src' tgt' : ImageChunk) : Prop where
  types : src'.type = tgt'.type
  source : src'.place = src.place
  target : tgt'.place = tgt.place
  fresh : FreshChunk zlib src → FreshChunk zlib src'
  reconstructs : TargetChunk zlib tgt'

theorem demoted_normal {src tgt : ImageChunk} (source : src.type = .deflate)
    (target : tgt.type = .deflate) :
    Demoted zlib src tgt (changeDeflateChunkToNormal src) (changeDeflateChunkToNormal tgt) where
  types := by rw [changeToNormal_eq source, changeToNormal_eq target]
  source := changeToNormal_place source
  target := changeToNormal_place target
  fresh := changeToNormal_fresh source
  reconstructs := changeToNormal_target target

theorem demoteChunks_demoted (steady : zlib.Steady) {src tgt src' tgt' : ImageChunk}
    (types : src.type = tgt.type) (run : demoteChunks zlib src tgt = .ok (src', tgt')) :
    Demoted zlib src tgt src' tgt' := by
  rw [demoteChunks] at run
  cases type : tgt.type with
  | normal | raw =>
    rw [type] at run
    cases run
    exact ⟨types, rfl, rfl, id, fun deflate => absurd (type.symm.trans deflate) nofun⟩
  | deflate =>
    rw [type] at run
    obtain ⟨_ | after, made, run⟩ := bind_ok run
    · cases run
      exact demoted_normal (types.trans type) type
    obtain ⟨target, place, same⟩ := reconstructDeflateChunk_some steady made
    dsimp only at run
    split at run
    · cases run
      have demoted := @demoted_normal zlib src after (types.trans type) (same.trans type)
      exact ⟨demoted.types, demoted.source, demoted.target.trans place, demoted.fresh,
        demoted.reconstructs⟩
    · cases run
      exact ⟨types.trans same.symm, rfl, place, id, target⟩

theorem demoteAll_spec (steady : zlib.Steady) {srcs tgts srcs' tgts' : List ImageChunk}
    (types : srcs.map type = tgts.map type) (fresh : ∀ chunk ∈ srcs, FreshChunk zlib chunk)
    (run : demoteAll zlib srcs tgts = .ok (srcs', tgts')) : srcs'.map type = tgts'.map type ∧
      srcs'.map place = srcs.map place ∧ tgts'.map place = tgts.map place ∧
      (∀ chunk ∈ srcs', FreshChunk zlib chunk) ∧ ∀ chunk ∈ tgts', TargetChunk zlib chunk := by
  induction srcs generalizing tgts srcs' tgts' with
  | nil =>
    rw [map_nil, eq_comm, map_eq_nil_iff] at types
    subst types
    cases run
    exact ⟨rfl, rfl, rfl, nofun, nofun⟩
  | cons src srcs ih =>
    cases tgts with
    | nil => cases types
    | cons tgt tgts =>
      simp only [map_cons, cons.injEq] at types
      rw [forall_mem_cons] at fresh
      obtain ⟨⟨src', tgt'⟩, first, run⟩ := bind_ok run
      obtain ⟨⟨srcs'', tgts''⟩, later, run⟩ := bind_ok run
      cases run
      have demoted := demoteChunks_demoted steady types.1 first
      obtain ⟨types', sources, targets, freshs, reconstructs⟩ := ih types.2 fresh.2 later
      refine ⟨?_, ?_, ?_, ?_, ?_⟩
      · rw [map_cons, map_cons, demoted.types, types']
      · rw [map_cons, map_cons, demoted.source, sources]
      · rw [map_cons, map_cons, demoted.target, targets]
      · exact forall_mem_cons.mpr ⟨demoted.fresh fresh.1, freshs⟩
      · exact forall_mem_cons.mpr ⟨demoted.reconstructs, reconstructs⟩

end Demotion

/-! ## Whole images -/

section RoundTrip

variable {zlib : Zlib} {bz : Bz2}

theorem merge_fresh (fresh : ∀ chunk ∈ chunks, FreshChunk zlib chunk) :
    ∀ chunk ∈ mergeAdjacentNormalChunks chunks, FreshChunk zlib chunk := by
  intro chunk mem
  obtain ⟨first, member, same, alone⟩ := mem_merge mem
  refine ⟨same.trans (fresh first member).unsorted, fun deflate => ?_⟩
  cases alone deflate
  exact (fresh _ member).expands deflate

variable {bonus : Option Value}

theorem addBonus_source {i : Nat} {src after : ImageChunk} (fresh : FreshChunk zlib src)
    (inside : src.start + src.original.length ≤ old.length)
    (bytes : src.original = old.slice src.start src.original.length)
    (run : addBonus (bonus.map Value.data) i src = .ok after) :
    SourceChunk zlib old (bonusFor bonus i) after ∧ after.type = src.type := by
  have unsorted := fresh.unsorted
  have plain : SourceChunk zlib old [] src := by
    refine ⟨inside, bytes, fun deflate => ?_, fun I found => ?_⟩
    · obtain ⟨consumed, inflated⟩ := fresh.expands deflate
      exact ⟨src.data, consumed, inflated, (append_nil _).symm⟩
    · cases unsorted.symm.trans found
  unfold addBonus at run
  cases bonus with
  | none =>
    cases run
    rw [bonusFor, Option.map_none, Option.getD_none, ite_self]
    exact ⟨plain, rfl⟩
  | some bonus =>
    dsimp only [Option.map_some] at run
    by_cases second : i = 1
    · rw [if_neg (not_not.mpr second)] at run
      split at run
      case h_2 => cases run
      rename_i type
      cases run
      obtain ⟨consumed, inflated⟩ := fresh.expands type
      rw [bonusFor, if_pos second]
      simp only [original, type] at inside bytes
      refine ⟨⟨?_, ?_, fun _ => ⟨src.data, consumed, inflated, rfl⟩, fun I found => ?_⟩, rfl⟩
      · simpa only [original, type] using inside
      · simpa only [original, type] using bytes
      · cases unsorted.symm.trans found
    · rw [if_pos second] at run
      cases run
      rw [bonusFor, if_neg second]
      exact ⟨plain, rfl⟩

theorem makePatches_right {i : Nat} {srcs tgts : List ImageChunk} {made : List MadeChunk}
    (types : srcs.map type = tgts.map type) (fresh : ∀ chunk ∈ srcs, FreshChunk zlib chunk)
    (stands : ∀ chunk ∈ srcs, chunk.start + chunk.original.length ≤ old.length ∧
      chunk.original = old.slice chunk.start chunk.original.length)
    (targets : ∀ chunk ∈ tgts, TargetChunk zlib chunk)
    (run : makePatches bz (bonus.map Value.data) i srcs tgts = .ok made) :
    AllRight zlib bz old bonus i made (tgts.map original) := by
  induction srcs generalizing i tgts made with
  | nil =>
    rw [map_nil, eq_comm, map_eq_nil_iff] at types
    subst types
    cases run
    exact .nil
  | cons src srcs ih =>
    cases tgts with
    | nil => cases types
    | cons tgt tgts =>
      simp only [map_cons, cons.injEq] at types
      rw [forall_mem_cons] at fresh stands targets
      obtain ⟨src', bonused, run⟩ := bind_ok run
      obtain ⟨⟨one, after⟩, first, run⟩ := bind_ok run
      obtain ⟨rest, later, run⟩ := bind_ok run
      cases run
      obtain ⟨source, type⟩ := addBonus_source fresh.1 stands.1.1 stands.1.2 bonused
      have right := (makePatch_right source targets.1 (type.trans types.1) first).1
      exact .cons right (ih types.2 fresh.2 stands.2 targets.2 later)

theorem imageChunks_spec (stops : zlib.Stops) (run : imageChunks zlib fuel file = .ok chunks) :
    (∀ chunk ∈ chunks, FreshChunk zlib chunk) ∧
      ∃ stop, file.length ≤ stop ∧ Tile file 0 chunks stop ∧
        (MembersWhole zlib file ↔ stop = file.length) := by
  obtain ⟨_ | found, read, run⟩ := bind_ok run
  all_goals cases run
  obtain ⟨fresh, stop, last, le, tile⟩ := readImageFrom_chunks stops .start read
  exact ⟨merge_fresh fresh, stop, le, merge_tile tile,
    EndsAt.whole_iff ⟨fuel, found, read, tile⟩ last le⟩

/-- What `imgdiff` writes stands for the bytes that the chunks of the target cover, if the chunks
of the source lie in its file. -/
theorem imgdiff_right (stops : zlib.Stops) (steady : zlib.Steady) {source target patch : Bytes}
    (whole : MembersWhole zlib source)
    (run : imgdiff zlib bz fuel source target (bonus.map Value.data) = .ok patch) :
    ∃ made outs stop, patch = imagePatch made ∧ AllRight zlib bz source bonus 0 made outs ∧
      outs.flatten = (paddedImage target).take stop ∧ target.length ≤ stop ∧
      stop ≤ target.length + 4 ∧ (MembersWhole zlib target ↔ stop = target.length) := by
  obtain ⟨srcs, readSource, run⟩ := bind_ok run
  obtain ⟨tgts, readTarget, run⟩ := bind_ok run
  obtain ⟨fresh, srcStop, _, srcTile, srcWhole⟩ := imageChunks_spec stops readSource
  obtain ⟨_, stop, le, tile, tgtWhole⟩ := imageChunks_spec stops readTarget
  cases srcWhole.mp whole
  split at run
  · cases run
  rename_i types
  obtain ⟨⟨srcs', tgts'⟩, demotes, run⟩ := bind_ok run
  dsimp only at run
  obtain ⟨types', sources, targets, fresh', reconstructs⟩ :=
    demoteAll_spec steady (not_not.mp types) fresh demotes
  have srcTile' := srcTile.congr sources
  have tile' := tile.congr targets
  split at run
  · cases run
  obtain ⟨made, makes, run⟩ := bind_ok run
  cases run
  have merged : (mergeAdjacentNormalChunks srcs').map type =
      (mergeAdjacentNormalChunks tgts').map type := by
    rw [merge_types srcTile', merge_types tile', types']
  have remade : ∀ chunk ∈ mergeAdjacentNormalChunks tgts', TargetChunk zlib chunk := by
    intro chunk mem deflate
    obtain ⟨first, member, -, alone⟩ := mem_merge mem
    cases alone deflate
    exact reconstructs _ member deflate
  have right := makePatches_right merged (merge_fresh fresh')
    (fun chunk mem => (merge_tile srcTile').mem le_rfl mem) remade makes
  exact ⟨made, _, stop, rfl, right, (merge_tile tile').flatten.2, le,
    tile.le_padded (Nat.zero_le _), tgtWhole⟩

/-- The decoder on a patch of `imgdiff` gives what the chunks of the target cover. -/
theorem applyImagePatch_imgdiff_covered (Op : Type) (Reply : Op → Type) (bonus : Option Value)
    (bzStops : bz.Stops) (stops : zlib.Stops) (steady : zlib.Steady) {target : Bytes}
    {old patch : Value} (whole : MembersWhole zlib old.data)
    (run : imgdiff zlib bz fuel old.data target (bonus.map Value.data) = .ok patch.data) :
    ∃ stop, (applyImagePatch zlib bz old patch bonus collect [] [] : Prog Op Reply _) =
        .ret ⟨0, (paddedImage target).take stop, (paddedImage target).take stop⟩ ∧
      target.length ≤ stop ∧ stop ≤ target.length + 4 ∧
      (MembersWhole zlib target ↔ stop = target.length) := by
  obtain ⟨made, outs, stop, file, right, flat, le, ge, covers⟩ := imgdiff_right stops steady whole run
  refine ⟨stop, ?_, le, ge, covers⟩
  rw [applyImagePatch_imagePatch bzStops right file, flat]

theorem take_paddedImage (file : Bytes) : (paddedImage file).take file.length = file :=
  take_left

variable {Op : Type} {Reply : Op → Type}

/-- A small code: a 1 before every byte, and a 0 at the end. -/
def pairEncode : Bytes → Bytes
  | [] => [0]
  | byte :: rest => 1 :: byte :: pairEncode rest

@[inherit_doc pairEncode] def pairDecode : Bytes → Option (Bytes × Nat)
  | 0 :: _ => some ([], 1)
  | 1 :: byte :: rest => (pairDecode rest).map fun (data, consumed) => (byte :: data, consumed + 2)
  | _ => none

theorem pairDecode_pairEncode (data back : Bytes) :
    pairDecode (pairEncode data ++ back) = some (data, (pairEncode data).length) := by
  induction data with
  | nil => rfl
  | cons byte rest ih => simp [pairEncode, pairDecode, ih]

/-- A compressor and a decompressor that use the small code. -/
def pairBz : Bz2 where
  compress := pairEncode
  decompress input := match pairDecode input with
    | some (data, _) => (data, .streamEnd)
    | none => ([], .corrupt)

@[inherit_doc pairBz] def pairZlib : Zlib where
  inflate := pairDecode
  deflate _ data _ := some [pairEncode data]

theorem pairBz_stops : pairBz.Stops := fun data back => by
  simp only [pairBz, pairDecode_pairEncode]

theorem pairZlib_stops : pairZlib.Stops := by
  intro input
  induction input using pairDecode.induct with
  | case1 rest => rintro _ _ ⟨⟩; exact ⟨by simp, rfl⟩
  | case2 byte rest ih =>
    intro expanded consumed inflated
    simp only [pairZlib, pairDecode, Option.map_eq_some_iff] at inflated
    obtain ⟨⟨data, count⟩, found, same⟩ := inflated
    cases same
    obtain ⟨le, again⟩ := ih data count found
    refine ⟨by simpa using le, ?_⟩
    simp only [pairZlib] at again
    simp only [pairZlib, take_succ_cons, pairDecode, again, Option.map_some]
  | case3 input first second =>
    intro expanded consumed inflated
    simp only [pairZlib] at inflated
    rw [pairDecode] at inflated
    · cases inflated
    · exact first
    · exact second

theorem pairZlib_steady : pairZlib.Steady := fun _ _ _ _ _ _ => rfl

/-- A value with nothing of note around it. -/
def plainValue (data : Bytes) (fits : data.length < 2 ^ 31) : Value := ⟨data, fun _ => 0, fits⟩

/-- Members are whole if the chunks that `ReadImage` returns have the length of the file. -/
theorem membersWhole_of_chunks (stops : zlib.Stops)
    (run : (readImage zlib file fuel).result = .ok (some chunks))
    (covers : (chunks.map original).flatten.length = file.length) : MembersWhole zlib file := by
  obtain ⟨_, stop, last, le, tile⟩ := readImageFrom_chunks stops .start run
  have padded := tile.le_padded (Nat.zero_le _)
  rw [tile.flatten.2, Bytes.length_slice, length_paddedImage] at covers
  exact (EndsAt.whole_iff ⟨fuel, chunks, run, tile⟩ last le).mpr (by omega)

/-- A gzip member without content. -/
def emptyMember : Bytes := [0x1f, 0x8b, 0x08, 0, 0, 0, 0, 0, 0, 0, 0, 0, 0, 0, 0, 0, 0, 0, 0]

/-- A gzip member with one byte. -/
def byteMember : Bytes :=
  [0x1f, 0x8b, 0x08, 0, 0, 0, 0, 0, 0, 0, 1, 1, 0, 0, 0, 0, 0, 1, 0, 0, 0]

theorem emptyMember_whole : MembersWhole pairZlib emptyMember :=
  membersWhole_of_chunks pairZlib_stops (by rfl : (readImage pairZlib emptyMember 2).result = _)
    (by decide)

theorem byteMember_whole : MembersWhole pairZlib byteMember :=
  membersWhole_of_chunks pairZlib_stops (by rfl : (readImage pairZlib byteMember 3).result = _)
    (by decide)

/-- A patch for an empty file does not depend on the order of the suffixes. -/
theorem makePatch_nil (bz : Bz2) {src tgt : ImageChunk} (deflate : tgt.type = .deflate)
    (empty : tgt.data = []) (unsorted : src.I = none) (short : src.data.length < 2 ^ 31) :
    ∃ after, makePatch bz src tgt = .ok (.deflate src.start src.deflateData.length src.data.length 0
      tgt.params (patchFile bz 0 [] [] []), after) := by
  obtain ⟨_, _, _, _, _, run, -⟩ := bsdiff_spec bz src.data [] none nofun
  obtain ⟨I, found, -⟩ := Option.bind_eq_some_iff.mp run
  have diffed : bsdiff bz src.data none [] = some (patchFile bz 0 [] [] [], I) := by
    rw [bsdiff, found]
    rfl
  refine ⟨{ src with I := some I }, ?_⟩
  rw [makePatch, if_neg (by simp [deflate]), if_neg, unsorted, empty, diffed]
  · simp only [deflate, length_nil]
  · rw [empty]
    exact not_or.mpr ⟨not_le.mpr short, by decide⟩

/-- The deflate chunk of the member with one byte, with bonus data behind it. -/
def byteChunk (bonus : Bytes) : ImageChunk :=
  { deflateChunk byteMember 10 3 [1] with data := 1 :: bonus }

def emptyChunk : ImageChunk := { deflateChunk emptyMember 10 1 [] with params := encoderParams 6 }

/-- The patch from the member with one byte to the one without content. -/
def emptied (bonus : Bytes) : List MadeChunk :=
  [.raw (emptyMember.take 10), .deflate 10 3 (bonus.length + 1) 0 (encoderParams 6)
    (patchFile pairBz 0 [] [] []), .raw (replicate 8 0)]

theorem imgdiff_emptied (bonus : Option Bytes) (short : (bonus.getD []).length < 2 ^ 31 - 1) :
    imgdiff pairZlib pairBz 3 byteMember emptyMember bonus =
      .ok (imagePatch (emptied (bonus.getD []))) := by
  obtain ⟨after, middle⟩ := @makePatch_nil pairBz (byteChunk (bonus.getD [])) emptyChunk rfl rfl rfl
    (Nat.add_lt_of_lt_sub short)
  have others (i : Nat) (chunk : ImageChunk) (other : i ≠ 1) : addBonus bonus i chunk = .ok chunk := by
    cases bonus with
    | none => rfl
    | some bonus => exact if_pos other
  have extended : addBonus bonus 1 (deflateChunk byteMember 10 3 [1]) =
      .ok (byteChunk (bonus.getD [])) := by
    cases bonus <;> rfl
  have later : makePatches pairBz bonus 1
      [deflateChunk byteMember 10 3 [1], normalChunk byteMember 13 8]
      [emptyChunk, normalChunk emptyMember 11 8] = .ok (emptied (bonus.getD [])).tail := by
    rw [makePatches, extended]
    change (makePatch pairBz (byteChunk (bonus.getD [])) emptyChunk).bind _ = _
    rw [middle]
    change (makePatches pairBz bonus 2 [_] [_]).bind _ = _
    rw [makePatches, others 2 _ (by decide)]
    rfl
  change (makePatches pairBz bonus 0 (normalChunk byteMember 0 10 :: _)
    (normalChunk emptyMember 0 10 :: _)).bind _ = _
  rw [makePatches, others 0 _ Nat.zero_ne_one]
  change ((makePatches pairBz bonus 1
    [deflateChunk byteMember 10 3 [1], normalChunk byteMember 13 8]
    [emptyChunk, normalChunk emptyMember 11 8]).bind _).bind _ = _
  rw [later]
  rfl

/-- `imgdiff` without `-z` and `-b` makes a patch that turns the source into the target, when the
gzip members of both end in their files. -/
theorem applyImagePatch_imgdiff (bzStops : bz.Stops) (stops : zlib.Stops) (steady : zlib.Steady)
    (fuel : Nat) (target : Bytes) (old patch : Value) (sourceWhole : MembersWhole zlib old.data)
    (targetWhole : MembersWhole zlib target)
    (exits : imgdiff zlib bz fuel old.data target none = .ok patch.data) :
    (applyImagePatch zlib bz old patch none collect [] [] : Prog Op Reply _) =
      .ret ⟨0, target, target⟩ := by
  obtain ⟨stop, emits, _, _, covers⟩ :=
    applyImagePatch_imgdiff_covered Op Reply none bzStops stops steady sourceWhole exits
  rw [emits, covers.mp targetWhole, take_paddedImage]

theorem applyImagePatch_imgdiff_members :
    (applyImagePatch pairZlib pairBz (plainValue byteMember (by decide))
      (plainValue (imagePatch (emptied [])) (by decide +kernel)) none collect [] [] :
      Prog Unit (fun _ => Unit) _) = .ret ⟨0, emptyMember, emptyMember⟩ := by
  have exits : imgdiff pairZlib pairBz 3 byteMember emptyMember none =
      .ok (imagePatch (emptied [])) := imgdiff_emptied none (by decide)
  exact applyImagePatch_imgdiff pairBz_stops pairZlib_stops pairZlib_steady 3 emptyMember _ _
    byteMember_whole emptyMember_whole exits

/-- With bonus data, and a source whose gzip members end in its file, the patch gives the target
back exactly if the gzip members of the target end in its file. -/
theorem applyImagePatch_imgdiff_bonus_iff (bzStops : bz.Stops) (stops : zlib.Stops)
    (steady : zlib.Steady) (fuel : Nat) (target : Bytes) (old patch bonus : Value)
    (sourceWhole : MembersWhole zlib old.data)
    (exits : imgdiff zlib bz fuel old.data target (some bonus.data) = .ok patch.data) :
    (applyImagePatch zlib bz old patch (some bonus) collect [] [] : Prog Op Reply _) =
      .ret ⟨0, target, target⟩ ↔ MembersWhole zlib target := by
  obtain ⟨stop, emits, le, ge, covers⟩ :=
    applyImagePatch_imgdiff_covered Op Reply (some bonus) bzStops stops steady sourceWhole exits
  rw [emits]
  constructor
  · intro same
    simp only [Prog.ret.injEq, Applied.mk.injEq, true_and] at same
    have length := congrArg length same.1
    rw [length_take, length_paddedImage] at length
    exact covers.mpr (by omega)
  · intro whole
    rw [covers.mp whole, take_paddedImage]

theorem applyImagePatch_imgdiff_bonus_members :
    (applyImagePatch pairZlib pairBz (plainValue byteMember (by decide))
      (plainValue (imagePatch (emptied [7])) (by decide +kernel)) (some (plainValue [7] (by decide)))
      collect [] [] : Prog Unit (fun _ => Unit) _) = .ret ⟨0, emptyMember, emptyMember⟩ ↔
      MembersWhole pairZlib emptyMember := by
  have exits : imgdiff pairZlib pairBz 3 byteMember emptyMember (some [7]) =
      .ok (imagePatch (emptied [7])) := imgdiff_emptied (some [7]) (by decide)
  exact applyImagePatch_imgdiff_bonus_iff pairBz_stops pairZlib_stops pairZlib_steady 3 emptyMember
    _ _ _ byteMember_whole exits

/-- A target that lacks the last byte of its gzip footer comes back with a byte too many. -/
theorem applyImagePatch_imgdiff_bonus_cut :
    imgdiff pairZlib pairBz 2 emptyMember (emptyMember.take 18) (some [7]) =
        .ok (imagePatch [.raw emptyMember]) ∧
      (applyImagePatch pairZlib pairBz (plainValue emptyMember (by decide))
        (plainValue (imagePatch [.raw emptyMember]) (by decide))
        (some (plainValue [7] (by decide))) collect [] [] : Prog Unit (fun _ => Unit) _) =
        .ret ⟨0, emptyMember, emptyMember⟩ ∧ emptyMember ≠ emptyMember.take 18 := by
  have right : AllRight pairZlib pairBz emptyMember (some (plainValue [7] (by decide))) 0
      [.raw emptyMember] [emptyMember] := .cons (.raw (by decide)) .nil
  exact ⟨by rfl, (applyImagePatch_imagePatch pairBz_stops right rfl).trans rfl, by decide⟩

end RoundTrip

end PhilzTouch.ApplyPatch
