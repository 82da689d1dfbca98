import PhilzTouch.ApplyPatch.Bspatch
import PhilzTouch.Lib.Traced

/-!
# Memory accesses and termination of the bsdiff decoder

`ApplyBSDiffPatchMem` once more, with every access to the patch, the output and the old data, and
with the loop in `FillBuffer` over the calls of the decompressor.  Loops get some fuel; a run that
has not returned when it is used up ends with `Stop.hang`, and one that has written behind its
output buffer with `Stop.wild`.
-/

namespace PhilzTouch.ApplyPatch

open List

/-! ## Accesses -/

/-- A range of bytes that is read or written. -/
inductive Access where
  /-- Bytes of the patch, or what the memory around it holds. -/
  | patch (start : Int) (count : Nat)
  /-- Bytes written to `*new_data`. -/
  | output (start count : Nat)
  /-- A byte read from `old_data`. -/
  | old (place : Int)
  deriving DecidableEq, Repr

/-- The access stays in its block. -/
def Access.Inside (patchSize newSize oldSize : Nat) : Access → Prop
  | .patch start count => 0 ≤ start ∧ start + count ≤ patchSize
  | .output start count => start + count ≤ newSize
  | .old place => 0 ≤ place ∧ place < oldSize

/-! ## The decompressor -/

/-- `BZ_OK`, `BZ_STREAM_END` and the error codes. -/
inductive BzCode where
  | ok
  | streamEnd
  | error
  deriving DecidableEq, Repr

/-- A `bz_stream`: the bytes it has still to give, how it ends then, and whether it has reported
that end. -/
structure BzState where
  out : Bytes
  fin : BzEnd
  ended : Bool

/-- `BZ2_bzDecompress` with `room` bytes of output to fill.  Without input it succeeds and makes no
progress, and after the end of the stream it is an error to call it. -/
def bzDecompress (room : Nat) (stream : BzState) : BzCode × Bytes × BzState :=
  if stream.ended then (.error, [], stream)
  else if room ≤ stream.out.length then
    (.ok, stream.out.take room, { stream with out := stream.out.drop room })
  else
    match stream.fin with
    | .streamEnd => (.streamEnd, stream.out, { stream with out := [], ended := true })
    | .starved => (.ok, stream.out, { stream with out := [] })
    | .corrupt => (.error, stream.out, { stream with out := [] })

/-- What `FillBuffer` has written, and what came of it. -/
structure Filled where
  bytes : Bytes
  result : Except Stop BzState

/-- `FillBuffer`: the decompressor is called until there is no room left. -/
def fillCalls : (fuel room : Nat) → BzState → (got : Bytes) → Filled
  | _, 0, stream, got => ⟨got, .ok stream⟩
  | 0, _ + 1, _, got => ⟨got, .error .hang⟩
  | fuel + 1, room + 1, stream, got =>
    match bzDecompress (room + 1) stream with
    | (.error, bytes, _) => ⟨got ++ bytes, .error .failed⟩
    | (_, bytes, stream) => fillCalls fuel (room + 1 - bytes.length) stream (got ++ bytes)

/-! ## The decoder -/

/-- `FillBuffer` on a buffer of the function's own. -/
def fillOwn (fuel size : Nat) (stream : BzState) : Traced Access Stop (Bytes × BzState) :=
  let filled := fillCalls fuel size stream []
  ⟨[], filled.result.map fun stream => (filled.bytes, stream)⟩

/-- `FillBuffer` on the output from `newpos` on. -/
def fillOutput (fuel : Nat) (newSize : Int) (newpos size : Nat) (stream : BzState) :
    Traced Access Stop (Bytes × BzState) :=
  let filled := fillCalls fuel size stream []
  ⟨[.output newpos filled.bytes.length], if newSize < newpos + filled.bytes.length then .error .wild
    else filled.result.map fun stream => (filled.bytes, stream)⟩

/-- The check that the bytes fit, and `FillBuffer` on the output if they do. -/
def fillChecked (fuel : Nat) (newSize : Int) (newpos : Nat) (count : Int) (stream : BzState) :
    Traced Access Stop (Bytes × BzState) :=
  if wrap (newpos + count) > newSize then .halt .failed
  else fillOutput fuel newSize newpos count.toNat stream

/-- The reads of old data for `count` bytes, at those places that are inside. -/
def oldReads (old : Bytes) (oldpos : Int) (count : Nat) : List Access :=
  ((range count).map fun i : Nat => wrap (oldpos + i)).filterMap fun place : Int =>
    if 0 ≤ place ∧ place < old.length then some (.old place) else none

/-- The loop over the control triples, for at most `rounds` of them. -/
def tripleCalls (fuel : Nat) (old : Bytes) (newSize : Int) :
    (rounds : Nat) → (oldpos : Int) → (out : Bytes) → (cstream dstream estream : BzState) →
      Traced Access Stop Bytes
  | 0, _, _, _, _, _ => .halt .hang
  | rounds + 1, oldpos, out, cstream, dstream, estream =>
    if newSize ≤ out.length then pure out
    else do
      let (buf, cstream) ← fillOwn fuel 24 cstream
      let ctrl0 := offtin buf
      let ctrl1 := offtin (buf.drop 8)
      let ctrl2 := offtin (buf.drop 16)
      if ctrl0 < 0 ∨ ctrl1 < 0 then .halt .failed
      else do
        let (diff, dstream) ← fillChecked fuel newSize out.length ctrl0 dstream
        .touch (oldReads old oldpos diff.length)
        let out := out ++ addOld old oldpos diff
        let oldpos := wrap (oldpos + ctrl0)
        let (extra, estream) ← fillChecked fuel newSize out.length ctrl1 estream
        tripleCalls fuel old newSize rounds (wrap (oldpos + ctrl2)) (out ++ extra)
          cstream dstream estream

def BzState.start (stream : BzStream) : BzState := ⟨stream.1, stream.2, false⟩

def headerNumber (patch : Value) (patchOffset : Int) (place : Int) : Int :=
  offtin (patch.read (patchOffset + place) 8)

/-- `ApplyBSDiffPatchMem`. -/
def patchMemCalls (fuel : Nat) (bz : Bz2) (old : Bytes) (patch : Value) (patchOffset : Int) :
    Traced Access Stop Bytes := do
  .touch [.patch patchOffset 8]
  if patch.read patchOffset 8 ≠ bsdiffMagic then .halt .failed
  else do
    .touch [.patch (patchOffset + 8) 24]
    let ctrlLen := headerNumber patch patchOffset 8
    let dataLen := headerNumber patch patchOffset 16
    let newSize := headerNumber patch patchOffset 24
    if ctrlLen < 0 ∨ dataLen < 0 ∨ newSize < 0 then .halt .failed
    else do
      let extraStart := patchOffset + 32 + ctrlLen + dataLen
      let extraLen := (patch.data.length - extraStart) % 2 ^ 32
      .touch [.patch (patchOffset + 32) ctrlLen.toNat,
        .patch (patchOffset + 32 + ctrlLen) dataLen.toNat, .patch extraStart extraLen.toNat]
      let cstream := bz.decompress (patch.read (patchOffset + 32) ctrlLen.toNat)
      let dstream := bz.decompress (patch.read (patchOffset + 32 + ctrlLen) dataLen.toNat)
      let estream := bz.decompress (patch.read extraStart extraLen.toNat)
      -- two calls are enough for a buffer, unless the input has run out
      tripleCalls (fuel + 2) old newSize fuel 0 [] (.start cstream) (.start dstream) (.start estream)

/-! ## FillBuffer -/

section Filling

variable {fuel room : Nat} {stream : BzState} {got : Bytes}

/-- Without input the decompressor is called for ever. -/
theorem fillCalls_starved (some : 0 < room) :
    fillCalls fuel room ⟨[], .starved, false⟩ got = ⟨got, .error .hang⟩ := by
  obtain ⟨room, rfl⟩ : ∃ less, room = less + 1 := ⟨room - 1, by omega⟩
  induction fuel generalizing got with
  | zero => rfl
  | succ fuel ih =>
    have call : bzDecompress (room + 1) ⟨[], .starved, false⟩ =
      (.ok, [], ⟨[], .starved, false⟩) := rfl
    rw [fillCalls, call]
    simp only [length_nil, Nat.sub_zero, append_nil]
    exact ih

theorem fillCalls_of_le (calls : 0 < fuel) (open_ : stream.ended = false)
    (enough : room ≤ stream.out.length) : fillCalls fuel room stream got =
      ⟨got ++ stream.out.take room, .ok { stream with out := stream.out.drop room }⟩ := by
  cases room with
  | zero =>
    cases fuel
    · omega
    · simp [fillCalls]
  | succ room =>
    obtain ⟨fuel, rfl⟩ : ∃ less, fuel = less + 1 := ⟨fuel - 1, by omega⟩
    have call : bzDecompress (room + 1) stream = (.ok, stream.out.take (room + 1),
        { stream with out := stream.out.drop (room + 1) }) := by
      simp [bzDecompress, open_, enough]
    rw [fillCalls, call]
    dsimp only
    rw [length_take, Nat.min_eq_left enough, Nat.sub_self]
    cases fuel <;> rfl

theorem fillCalls_of_lt (calls : 2 ≤ fuel) (open_ : stream.ended = false)
    (short : stream.out.length < room) : fillCalls fuel room stream got =
      ⟨got ++ stream.out, .error (if stream.fin = .starved then .hang else .failed)⟩ := by
  obtain ⟨fuel, rfl⟩ : ∃ less, fuel = less + 2 := ⟨fuel - 2, by omega⟩
  obtain ⟨room, rfl⟩ : ∃ less, room = less + 1 := ⟨room - 1, by omega⟩
  have left : 0 < room + 1 - stream.out.length := by omega
  obtain ⟨out, fin, ended⟩ := stream
  subst open_
  rw [fillCalls]
  cases fin with
  | streamEnd =>
    have call : bzDecompress (room + 1) ⟨out, .streamEnd, false⟩ =
        (.streamEnd, out, ⟨[], .streamEnd, true⟩) := by
      simp [bzDecompress, not_le.mpr short]
    rw [call]
    obtain ⟨less, more⟩ : ∃ less, room + 1 - out.length = less + 1 := ⟨_, (Nat.sub_add_cancel left).symm⟩
    dsimp only
    rw [more, fillCalls]
    simp [bzDecompress]
  | starved =>
    have call : bzDecompress (room + 1) ⟨out, .starved, false⟩ =
        (.ok, out, ⟨[], .starved, false⟩) := by
      simp [bzDecompress, not_le.mpr short]
    rw [call]
    dsimp only
    rw [fillCalls_starved left, if_pos rfl]
  | corrupt =>
    have call : bzDecompress (room + 1) ⟨out, .corrupt, false⟩ =
        (.error, out, ⟨[], .corrupt, false⟩) := by
      simp [bzDecompress, not_le.mpr short]
    rw [call]
    rfl

end Filling

/-! ## The control triples in numbers -/

/-- Three numbers of the control stream: bytes to add, bytes to copy, bytes to seek. -/
structure Triple where
  add : Int
  copy : Int
  seek : Int
  deriving DecidableEq, Repr

/-- The triple at the front of a control stream. -/
def firstTriple (ctrl : Bytes) : Triple :=
  ⟨offtin (ctrl.take 24), offtin ((ctrl.take 24).drop 8), offtin ((ctrl.take 24).drop 16)⟩

def readTriples : (count : Nat) → Bytes → List Triple
  | 0, _ => []
  | count + 1, ctrl => firstTriple ctrl :: readTriples count (ctrl.drop 24)

/-- The triples that a control stream holds. -/
def controlTriples (ctrl : Bytes) : List Triple := readTriples (ctrl.length / 24) ctrl

theorem controlTriples_of_lt {ctrl : Bytes} (short : ctrl.length < 24) : controlTriples ctrl = [] := by
  rw [controlTriples, Nat.div_eq_of_lt short, readTriples]

theorem controlTriples_of_le {ctrl : Bytes} (enough : 24 ≤ ctrl.length) :
    controlTriples ctrl = firstTriple ctrl :: controlTriples (ctrl.drop 24) := by
  rw [controlTriples, controlTriples, length_drop,
    show ctrl.length / 24 = (ctrl.length - 24) / 24 + 1 by omega, readTriples]

/-- How far a run has come: the bytes written, and those left in the diff and the extra stream. -/
structure Place where
  newpos : Nat
  diff : Nat
  extra : Nat

/-- How the three streams end. -/
structure Ends where
  control : BzEnd
  diff : BzEnd
  extra : BzEnd

section Places

variable (newSize : Nat)

/-- One of the two counts of a triple: there is room for the bytes from `newpos` on, and the stream
has them left. -/
structure PartFits (newpos count left : Nat) : Prop where
  room : newpos + count ≤ newSize
  enough : count ≤ left

/-- The check lets a count pass whose sum with `newpos` overflows, and then the stream has more
bytes than there is room for. -/
structure PartOverruns (newpos count left : Nat) : Prop where
  wrapped : 2 ^ 31 ≤ newpos + count
  more : newSize < newpos + left

/-- The check lets a count pass for which the stream has too few bytes, and its input has run
out. -/
structure PartStarves (newpos count left : Nat) (fin : BzEnd) : Prop where
  passes : newpos + count ≤ newSize ∨ 2 ^ 31 ≤ newpos + count
  less : left < count
  starved : fin = .starved

/-- The bytes of a triple are there, and there is room for them. -/
def Fits (triple : Triple) (place : Place) : Prop :=
  0 ≤ triple.add ∧ 0 ≤ triple.copy ∧ PartFits newSize place.newpos triple.add.toNat place.diff ∧
    PartFits newSize (place.newpos + triple.add.toNat) triple.copy.toNat place.extra

/-- Where a triple that fits leads. -/
def Place.after (place : Place) (triple : Triple) : Place :=
  ⟨place.newpos + triple.add.toNat + triple.copy.toNat, place.diff - triple.add.toNat,
    place.extra - triple.copy.toNat⟩

/-- The loop gets from one place to another, with the triples that are left there. -/
inductive Reaches : List Triple → Place → List Triple → Place → Prop
  | here {triples : List Triple} {place : Place} (unfinished : place.newpos < newSize) :
      Reaches triples place triples place
  | next {triple : Triple} {triples rest : List Triple} {place last : Place}
      (unfinished : place.newpos < newSize) (fits : Fits newSize triple place)
      (later : Reaches triples (place.after triple) rest last) :
      Reaches (triple :: triples) place rest last

/-- A triple that writes behind the output. -/
def OverrunsAt (triple : Triple) (place : Place) : Prop :=
  0 ≤ triple.add ∧ 0 ≤ triple.copy ∧
    (PartOverruns newSize place.newpos triple.add.toNat place.diff ∨
      PartFits newSize place.newpos triple.add.toNat place.diff ∧
        PartOverruns newSize (place.newpos + triple.add.toNat) triple.copy.toNat place.extra)

/-- A stream whose input has run out is asked for more bytes than it has. -/
def StarvesAt (ends : Ends) (place : Place) : List Triple → Prop
  | [] => ends.control = .starved
  | triple :: _ => 0 ≤ triple.add ∧ 0 ≤ triple.copy ∧
      (PartStarves newSize place.newpos triple.add.toNat place.diff ends.diff ∨
        PartFits newSize place.newpos triple.add.toNat place.diff ∧
          PartStarves newSize (place.newpos + triple.add.toNat) triple.copy.toNat place.extra
            ends.extra)

/-- Some triple writes behind the output. -/
def Overruns (triples : List Triple) (place : Place) : Prop :=
  ∃ triple rest last, Reaches newSize triples place (triple :: rest) last ∧
    OverrunsAt newSize triple last

/-- Some call of `FillBuffer` never returns. -/
def Starves (ends : Ends) (triples : List Triple) (place : Place) : Prop :=
  ∃ rest last, Reaches newSize triples place rest last ∧ StarvesAt newSize ends last rest

end Places

/-! ## One triple -/

section Stepping

variable {fuel newSize rounds patchSize : Nat} {old out : Bytes} {oldpos : Int}
  {cstream dstream estream : BzState} {newpos count : Nat}

/-- The check before `FillBuffer`, with a sum that wraps. -/
theorem check_iff (position : newpos < 2 ^ 31) (size : newSize < 2 ^ 31) (high : count < 2 ^ 31) :
    ¬ wrap (newpos + count) > newSize ↔ newpos + count ≤ newSize ∨ 2 ^ 31 ≤ newpos + count := by
  by_cases large : 2 ^ 31 ≤ newpos + count
  · have negative : wrap (newpos + count) < 0 := by
      rw [wrap, Int.bmod_def]
      omega
    constructor
    · exact fun _ => .inr large
    · intro _
      omega
  · rw [wrap_eq (by omega) (by omega)]
    omega

/-- What comes of the check and the call of `FillBuffer` for one of the counts of a triple. -/
inductive PartOutcome (newSize newpos count : Nat) (stream : BzState) :
    Traced Access Stop (Bytes × BzState) → Prop
  | done {value : Bytes × BzState} (fits : PartFits newSize newpos count stream.out.length)
      (bytes : value.1 = stream.out.take count)
      (left : value.2 = { stream with out := stream.out.drop count }) :
      PartOutcome newSize newpos count stream ⟨[.output newpos count], .ok value⟩
  | overran {written : Nat} (overruns : PartOverruns newSize newpos count stream.out.length)
      (outside : newSize < newpos + written) :
      PartOutcome newSize newpos count stream ⟨[.output newpos written], .error .wild⟩
  | starved (starves : PartStarves newSize newpos count stream.out.length stream.fin)
      (inside : newpos + stream.out.length ≤ newSize) :
      PartOutcome newSize newpos count stream ⟨[.output newpos stream.out.length], .error .hang⟩
  | failed {accesses : List Access} (safe : ¬ PartOverruns newSize newpos count stream.out.length)
      (fed : ¬ PartStarves newSize newpos count stream.out.length stream.fin)
      (unfit : ¬ PartFits newSize newpos count stream.out.length)
      (inside : ∀ access ∈ accesses, ∃ written, access = .output newpos written ∧
        newpos + written ≤ newSize) :
      PartOutcome newSize newpos count stream ⟨accesses, .error .failed⟩

theorem fillChecked_outcome {stream : BzState} (calls : 2 ≤ fuel) (open_ : stream.ended = false)
    (position : newpos < 2 ^ 31) (size : newSize < 2 ^ 31) (high : count < 2 ^ 31) :
    PartOutcome newSize newpos count stream (fillChecked fuel newSize newpos count stream) := by
  unfold fillChecked
  by_cases passes : newpos + count ≤ newSize ∨ 2 ^ 31 ≤ newpos + count
  swap
  · rw [if_pos (not_not.mp fun unchecked => passes ((check_iff position size high).mp unchecked))]
    refine .failed (fun overruns => ?_) (fun starves => passes starves.passes) (fun fits => ?_) nofun
    · exact passes (.inr overruns.wrapped)
    · exact passes (.inl fits.room)
  rw [if_neg ((check_iff position size high).mpr passes), Int.toNat_natCast, fillOutput]
  rcases lt_or_ge stream.out.length count with less | enough
  · rw [fillCalls_of_lt calls open_ less]
    simp only [nil_append]
    by_cases outside : newSize < newpos + stream.out.length
    · rw [if_pos (by omega)]
      exact .overran ⟨by omega, outside⟩ outside
    rw [if_neg (by omega)]
    by_cases starved : stream.fin = .starved
    · rw [if_pos starved]
      exact .starved ⟨passes, less, starved⟩ (Nat.le_of_not_lt outside)
    rw [if_neg starved]
    refine .failed (fun overruns => outside overruns.more) (fun starves => starved starves.starved)
      (fun fits => not_le.mpr less fits.enough) ?_
    intro access member
    cases mem_singleton.mp member
    exact ⟨_, rfl, Nat.le_of_not_lt outside⟩
  rw [fillCalls_of_le (Nat.lt_of_lt_of_le Nat.two_pos calls) open_ enough]
  simp only [nil_append, length_take, Nat.min_eq_left enough]
  rcases passes with room | wrapped
  · rw [if_neg (by omega)]
    exact .done ⟨room, enough⟩ rfl rfl
  · rw [if_pos (by omega)]
    exact .overran ⟨wrapped, by omega⟩ (by omega)

theorem oldReads_inside (count : Nat) :
    ∀ access ∈ oldReads old oldpos count, access.Inside patchSize newSize old.length := by
  intro access member
  obtain ⟨place, _, inside⟩ := mem_filterMap.mp member
  split at inside
  · rename_i bounds
    cases inside
    exact bounds
  · cases inside

@[simp] theorem length_addOld (diff : Bytes) : (addOld old oldpos diff).length = diff.length := by
  simp [addOld]

theorem offtin_lt (buf : Bytes) : offtin buf < 2 ^ 31 := by
  unfold offtin
  dsimp only
  split
  · exact wrap_lt _
  · exact wrap_lt _

section Counts

variable {add copy : Nat} {seek : Int} {place : Place}

theorem overrunsAt_iff : OverrunsAt newSize ⟨add, copy, seek⟩ place ↔
    PartOverruns newSize place.newpos add place.diff ∨
      PartFits newSize place.newpos add place.diff ∧
        PartOverruns newSize (place.newpos + add) copy place.extra := by
  simp only [OverrunsAt, Int.natCast_nonneg, Int.toNat_natCast, true_and]

theorem starvesAt_iff {ends : Ends} {triples : List Triple} :
    StarvesAt newSize ends place (⟨add, copy, seek⟩ :: triples) ↔
      PartStarves newSize place.newpos add place.diff ends.diff ∨
        PartFits newSize place.newpos add place.diff ∧
          PartStarves newSize (place.newpos + add) copy place.extra ends.extra := by
  simp only [StarvesAt, Int.natCast_nonneg, Int.toNat_natCast, true_and]

/-- A count that writes behind the output neither fits nor waits for input: it ends the round. -/
theorem PartFits.not_overruns {left : Nat} (fits : PartFits newSize newpos count left)
    (size : newSize < 2 ^ 31) : ¬ PartOverruns newSize newpos count left := by
  intro overruns
  have := fits.room
  have := overruns.wrapped
  omega

theorem PartFits.not_starves {left : Nat} {fin : BzEnd} (fits : PartFits newSize newpos count left) :
    ¬ PartStarves newSize newpos count left fin :=
  fun starves => not_lt.mpr fits.enough starves.less

end Counts

/-- What one round of the loop can come to. -/
inductive Stepped (inside : Access → Prop) (overruns starves fits : Prop)
    (next : Traced Access Stop Bytes → Prop) : Traced Access Stop Bytes → Prop
  | overran {accesses : List Access} (here : overruns)
      (outside : ∃ access ∈ accesses, ¬ inside access) :
      Stepped inside overruns starves fits next ⟨accesses, .error .wild⟩
  | starved {accesses : List Access} (safe : ¬ overruns) (here : starves) (unfit : ¬ fits)
      (all : ∀ access ∈ accesses, inside access) :
      Stepped inside overruns starves fits next ⟨accesses, .error .hang⟩
  | failed {accesses : List Access} (safe : ¬ overruns) (fed : ¬ starves) (unfit : ¬ fits)
      (all : ∀ access ∈ accesses, inside access) :
      Stepped inside overruns starves fits next ⟨accesses, .error .failed⟩
  | goesOn {accesses : List Access} {rest : Traced Access Stop Bytes} (fit : fits)
      (all : ∀ access ∈ accesses, inside access) (continues : next rest) :
      Stepped inside overruns starves fits next ⟨accesses ++ rest.trace, rest.result⟩

section Sequence

variable {inside : Access → Prop} {overruns starves fits : Prop} {next : Traced Access Stop Bytes → Prop}
  {α : Type} {first : Traced Access Stop α} {rest : α → Traced Access Stop Bytes}

/-- A first part without harm does not change what a round comes to. -/
theorem Stepped.after_ok {value : α} (ok : first.result = .ok value)
    (all : ∀ access ∈ first.trace, inside access)
    (then_ : Stepped inside overruns starves fits next (rest value)) :
    Stepped inside overruns starves fits next (first >>= rest) := by
  rw [Traced.bind_ok ok]
  generalize rest value = second at then_ ⊢
  have both {accesses : List Access} (later : ∀ access ∈ accesses, inside access) :
      ∀ access ∈ first.trace ++ accesses, inside access := fun access member =>
    (mem_append.mp member).elim (all access) (later access)
  cases then_ with
  | overran here outside =>
    obtain ⟨access, member, out⟩ := outside
    exact .overran here ⟨access, mem_append_right _ member, out⟩
  | starved safe here unfit later => exact .starved safe here unfit (both later)
  | failed safe fed unfit later => exact .failed safe fed unfit (both later)
  | goesOn fit later continues =>
    rw [← append_assoc]
    exact .goesOn fit (both later) continues

theorem Stepped.after_error {why : Stop} (error : first.result = .error why)
    (then_ : Stepped inside overruns starves fits next ⟨first.trace, .error why⟩) :
    Stepped inside overruns starves fits next (first >>= rest) := by
  rw [Traced.bind_error error]
  exact then_

theorem Stepped.on {rest : Traced Access Stop Bytes} (fit : fits) (continues : next rest) :
    Stepped inside overruns starves fits next rest :=
  @Stepped.goesOn _ _ _ _ _ [] rest fit nofun continues

end Sequence

/-- A round is settled by the check and the call for one of its counts, or by what comes
behind them. -/
theorem Stepped.after_part {overruns starves fits laterOverruns laterStarves : Prop} {oldSize : Nat}
    {next : Traced Access Stop Bytes → Prop} {stream : BzState}
    {filled : Traced Access Stop (Bytes × BzState)} {rest : Bytes × BzState → Traced Access Stop Bytes}
    (outcome : PartOutcome newSize newpos count stream filled)
    (overrunning : overruns ↔ PartOverruns newSize newpos count stream.out.length ∨
      PartFits newSize newpos count stream.out.length ∧ laterOverruns)
    (starving : starves ↔ PartStarves newSize newpos count stream.out.length stream.fin ∨
      PartFits newSize newpos count stream.out.length ∧ laterStarves)
    (fitting : fits → PartFits newSize newpos count stream.out.length)
    (later : PartFits newSize newpos count stream.out.length →
      Stepped (Access.Inside patchSize newSize oldSize) overruns starves fits next
        (rest (stream.out.take count, { stream with out := stream.out.drop count }))) :
    Stepped (Access.Inside patchSize newSize oldSize) overruns starves fits next (filled >>= rest) := by
  cases outcome with
  | overran overruns outside =>
    exact .after_error rfl (.overran (overrunning.mpr (.inl overruns))
      ⟨_, mem_singleton_self _, not_le.mpr outside⟩)
  | starved starves inside =>
    refine .after_error rfl (.starved ?_ (starving.mpr (.inl starves))
      (fun fits => (fitting fits).not_starves starves) (forall_mem_singleton.mpr inside))
    rw [overrunning]
    rintro (overruns | ⟨fits, _⟩)
    · exact not_lt.mpr inside overruns.more
    · exact fits.not_starves starves
  | failed safe fed unfit inside =>
    refine .after_error rfl (.failed ?_ ?_ (mt fitting unfit) ?_)
    · rw [overrunning]
      exact fun overruns => overruns.elim safe fun later => unfit later.1
    · rw [starving]
      exact fun starves => starves.elim fed fun later => unfit later.1
    · intro access member
      obtain ⟨written, rfl, room⟩ := inside access member
      exact room
  | @done value fits bytes left =>
    obtain rfl : value = (_, _) := Prod.ext bytes left
    exact .after_ok rfl (forall_mem_singleton.mpr fits.room) (later fits)

theorem tripleCalls_step (calls : 2 ≤ fuel) (size : newSize < 2 ^ 31)
    (unfinished : out.length < newSize) (copen : cstream.ended = false)
    (dopen : dstream.ended = false) (eopen : estream.ended = false)
    (control : 24 ≤ cstream.out.length) (triples : List Triple) :
    Stepped (Access.Inside patchSize newSize old.length)
      (OverrunsAt newSize (firstTriple cstream.out)
        ⟨out.length, dstream.out.length, estream.out.length⟩)
      (StarvesAt newSize ⟨cstream.fin, dstream.fin, estream.fin⟩
        ⟨out.length, dstream.out.length, estream.out.length⟩ (firstTriple cstream.out :: triples))
      (Fits newSize (firstTriple cstream.out) ⟨out.length, dstream.out.length, estream.out.length⟩)
      (fun rest => ∃ oldpos out', out'.length = out.length + (firstTriple cstream.out).add.toNat +
          (firstTriple cstream.out).copy.toNat ∧
        rest = tripleCalls fuel old newSize rounds oldpos out'
          { cstream with out := cstream.out.drop 24 }
          { dstream with out := dstream.out.drop (firstTriple cstream.out).add.toNat }
          { estream with out := estream.out.drop (firstTriple cstream.out).copy.toNat })
      (tripleCalls fuel old newSize (rounds + 1) oldpos out cstream dstream estream) := by
  have read : fillOwn fuel 24 cstream =
      ⟨[], .ok (cstream.out.take 24, { cstream with out := cstream.out.drop 24 })⟩ := by
    rw [fillOwn, fillCalls_of_le (Nat.lt_of_lt_of_le Nat.two_pos calls) copen control]
    rfl
  have addHigh := offtin_lt (cstream.out.take 24)
  have copyHigh := offtin_lt ((cstream.out.take 24).drop 8)
  rw [tripleCalls, if_neg (by omega), read]
  refine .after_ok rfl nofun ?_
  dsimp only [firstTriple]
  generalize offtin (cstream.out.take 24) = add at addHigh ⊢
  generalize offtin ((cstream.out.take 24).drop 8) = copy at copyHigh ⊢
  generalize offtin ((cstream.out.take 24).drop 16) = seek
  by_cases negative : add < 0 ∨ copy < 0
  · rw [if_pos negative]
    refine .failed ?_ ?_ ?_ nofun
    all_goals
      rintro ⟨add, copy, _⟩
      dsimp only at add copy
      omega
  rw [if_neg negative]
  obtain ⟨add, rfl⟩ := Int.eq_ofNat_of_zero_le (show 0 ≤ add by omega)
  obtain ⟨copy, rfl⟩ := Int.eq_ofNat_of_zero_le (show 0 ≤ copy by omega)
  refine .after_part (fillChecked_outcome calls dopen (by omega) size (by omega)) overrunsAt_iff
    starvesAt_iff (fun fits => fits.2.2.1) fun fits => ?_
  have room := fits.room
  have counted : (out ++ addOld old oldpos (dstream.out.take add)).length = out.length + add := by
    rw [length_append, length_addOld, length_take, min_eq_left fits.enough]
  refine .after_ok rfl (oldReads_inside _) ?_
  dsimp only
  rw [counted]
  refine @Stepped.after_part _ _ _ _ _ _ _ False False _ _ _ _ _
    (fillChecked_outcome calls eopen (by omega) size (by omega)) ?_ ?_
    (fun fits => fits.2.2.2) fun fits' => .on
      ⟨Int.natCast_nonneg add, Int.natCast_nonneg copy, fits, fits'⟩ ⟨_, _, ?_, rfl⟩
  · rw [overrunsAt_iff, or_iff_right (fits.not_overruns size), and_iff_right fits, and_false, or_false]
  · rw [starvesAt_iff, or_iff_right fits.not_starves, and_iff_right fits, and_false, or_false]
  · rw [length_append, counted, length_take, min_eq_left fits'.enough]
    rfl

end Stepping

end PhilzTouch.ApplyPatch
