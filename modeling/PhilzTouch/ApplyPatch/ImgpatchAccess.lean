import PhilzTouch.ApplyPatch.Imgpatch
import PhilzTouch.Lib.Traced

/-!
# Memory accesses of the image patcher

`ApplyImagePatch` with its own reads of the patch, the ranges of the old data that it hands on and
the copy of the bonus data.  Positions are `ssize_t`s: the sums that the source compares with the
size of the patch wrap.
-/

namespace PhilzTouch.ApplyPatch

open List Traced

/-- A range of bytes that is used. -/
inductive ImageAccess where
  /-- Bytes of the patch; a negative count is no range at all. -/
  | patch (start count : Int)
  /-- Old data that `inflate` or `ApplyBSDiffPatch` is given. -/
  | source (start count : Nat)
  /-- Bytes written to `expanded_source`, which has `size` bytes. -/
  | expanded (start count size : Nat)
  deriving DecidableEq, Repr

/-- The range lies in its block. -/
def ImageAccess.Inside (patchSize oldSize : Nat) : ImageAccess → Prop
  | .patch start count => 0 ≤ start ∧ 0 ≤ count ∧ start + count ≤ patchSize
  | .source start count => start + count ≤ oldSize
  | .expanded start count size => start + count ≤ size

/-! ## The source -/

/-- The header of a record is read after the check of its end. -/
def readHeader {α : Type} (patch : Value) (pos : Int) (size : Nat) (header : α) :
    Traced ImageAccess Stop (α × Int) :=
  if wrap (pos + size) > patch.data.length then .halt .failed
  else do
    .touch [.patch pos size]
    pure (header, wrap (pos + size))

/-- The record at `pos`, and where the next one starts. -/
def readRecord (patch : Value) (pos : Int) : Traced ImageAccess Stop (Chunk × Int) := do
  let (type, pos) ← readHeader patch pos 4 (read4 (patch.read pos 4))
  if type = chunkNormal then
    readHeader patch pos 24 (.normal (read8Size (patch.read pos 8))
      (read8Size (patch.read (pos + 8) 8)) (read8Size (patch.read (pos + 16) 8)))
  else if type = chunkRaw then do
    let (dataLen, pos) ← readHeader patch pos 4 (read4 (patch.read pos 4))
    if wrap (pos + dataLen) > patch.data.length then .halt .failed
    else do
      .touch [.patch pos dataLen]
      pure (.raw (patch.read pos dataLen.toNat), wrap (pos + dataLen))
  else if type = chunkDeflate then readHeader patch pos 60 (.deflate (deflateHeader patch pos))
  else .halt .failed

section Image

variable (zlib : Zlib) (bz : Bz2) (old patch : Value) (bonus : Option Value)

/-- The result of an inner patch is ignored, unless it does not return. -/
def ignoreResult : Except Stop Bytes → Traced ImageAccess Stop Unit
  | .ok _ => pure ()
  | .error .failed => pure ()
  | .error why => .halt why

/-- What is done with a chunk; `taken` says whether the sink takes its buffers. -/
def chunkCalls (taken : Bool) (i : Nat) : Chunk → Traced ImageAccess Stop Unit
  | .normal srcStart srcLen patchOffset => do
    .touch [.source srcStart srcLen]
    ignoreResult (applyBSDiffPatchMem bz (signedRead old srcStart srcLen) patch (wrap patchOffset))
  | .raw _ => if taken then pure () else .halt .failed
  | .deflate header => do
    .touch [.source header.srcStart header.srcLen]
    match expandSource zlib old (bonusFor bonus i) header with
    | .error why => .halt why
    | .ok _ => do
      let bonusSize := (bonusFor bonus i).length
      .touch [.expanded (header.expandedLen - bonusSize) bonusSize header.expandedLen]
      match deflatePieces zlib bz old patch (bonusFor bonus i) header with
      | .error why => .halt why
      | .ok _ => if taken then pure () else .halt .failed

/-- The loop over the chunks; `taken` says for each chunk whether the sink takes its buffers. -/
def imageCalls (taken : Nat → Bool) : (left i : Nat) → (pos : Int) → Traced ImageAccess Stop Unit
  | 0, _, _ => pure ()
  | left + 1, i, pos => do
    let (chunk, pos) ← readRecord patch pos
    chunkCalls zlib bz old patch bonus (taken i) i chunk
    imageCalls taken left (i + 1) pos

/-- `ApplyImagePatch`. -/
def imagePatchCalls (taken : Nat → Bool) : Traced ImageAccess Stop Unit :=
  if patch.data.length < 12 then .halt .failed
  else do
    .touch [.patch 0 8]
    if patch.read 0 8 ≠ imgdiffMagic then .halt .failed
    else do
      .touch [.patch 8 4]
      imageCalls zlib bz old patch bonus taken (chunkCount patch) 0 12

/-! ## The records that are reached -/

/-- An inner patch that returns, with whatever result. -/
def InnerReturns (inner : Except Stop Bytes) : Prop := inner ≠ .error .hang ∧ inner ≠ .error .wild

/-- A chunk after which the loop can go on. -/
def Passable (i : Nat) : Chunk → Prop
  | .normal srcStart srcLen patchOffset => InnerReturns
      (applyBSDiffPatchMem bz (signedRead old srcStart srcLen) patch (wrap patchOffset))
  | .raw _ => True
  | .deflate header => ∃ pieces, deflatePieces zlib bz old patch (bonusFor bonus i) header = .ok pieces

/-- With `left` chunks to go, the loop gets from the record at one position to that at another. -/
inductive Walks : (left i : Nat) → (pos last : Int) → Prop
  | here {left i : Nat} {pos : Int} : Walks (left + 1) i pos pos
  | next {left i : Nat} {pos after last : Int} {chunk : Chunk}
      (read : readChunk patch pos = .ok (chunk, after))
      (passable : Passable zlib bz old patch bonus i chunk)
      (rest : Walks left (i + 1) after last) : Walks (left + 1) i pos last

end Image

/-- The source range of a chunk lies in the old data. -/
def Chunk.SourceInside (oldSize : Nat) : Chunk → Prop
  | .normal srcStart srcLen _ => srcStart + srcLen ≤ oldSize
  | .raw _ => True
  | .deflate header => header.srcStart + header.srcLen ≤ oldSize

/-- The record at a position is read without leaving the patch, and if it is one, its source range
lies in the old data. -/
def RecordInside (old patch : Value) (pos : Int) : Prop :=
  readChunk patch pos ≠ .error .wild ∧
    ∀ chunk after, readChunk patch pos = .ok (chunk, after) → chunk.SourceInside old.data.length

/-! ## One record -/

section Records

variable {α β : Type} {patch : Value} {oldSize : Nat} {pos : Int}

/-- A position inside the patch. -/
def Within (patch : Value) (pos : Int) : Prop := 0 ≤ pos ∧ pos ≤ patch.data.length

/-- What the reads of a record come to, next to what `readChunk` says about it. -/
inductive RecordOutcome (patch : Value) (oldSize : Nat) :
    Except Stop (α × Int) → Traced ImageAccess Stop (α × Int) → Prop
  | wild {run : Traced ImageAccess Stop (α × Int)}
      (outside : ∃ access ∈ run.trace, ¬ access.Inside patch.data.length oldSize) :
      RecordOutcome patch oldSize (.error .wild) run
  | failed {trace : List ImageAccess}
      (all : ∀ access ∈ trace, access.Inside patch.data.length oldSize) :
      RecordOutcome patch oldSize (.error .failed) ⟨trace, .error .failed⟩
  | ok {trace : List ImageAccess} {value : α} {pos : Int} (within : Within patch pos)
      (all : ∀ access ∈ trace, access.Inside patch.data.length oldSize) :
      RecordOutcome patch oldSize (.ok (value, pos)) ⟨trace, .ok (value, pos)⟩

theorem RecordOutcome.after {plain : Except Stop (α × Int)} {run : Traced ImageAccess Stop (α × Int)}
    {trace : List ImageAccess} (all : ∀ access ∈ trace, access.Inside patch.data.length oldSize)
    (rest : RecordOutcome patch oldSize plain run) :
    RecordOutcome patch oldSize plain ⟨trace ++ run.trace, run.result⟩ := by
  have both {later : List ImageAccess}
      (all' : ∀ access ∈ later, access.Inside patch.data.length oldSize) :
      ∀ access ∈ trace ++ later, access.Inside patch.data.length oldSize := fun access member =>
    (mem_append.mp member).elim (all access) (all' access)
  cases rest with
  | wild outside =>
    obtain ⟨access, member, out⟩ := outside
    exact .wild ⟨access, mem_append_right _ member, out⟩
  | failed all' => exact .failed (both all')
  | ok within all' => exact .ok within (both all')

/-- The check of an end position, with a sum that wraps. -/
theorem wrap_end {count : Int} (within : Within patch pos) (low : -2 ^ 31 ≤ pos + count)
    (high : count < 2 ^ 31) :
    wrap (pos + count) > patch.data.length ↔ pos + count < 2 ^ 31 ∧ pos + count > patch.data.length := by
  obtain ⟨nonneg, inside⟩ := within
  have size := patch.fits
  by_cases large : 2 ^ 31 ≤ pos + count
  · have negative : wrap (pos + count) < 0 := by
      rw [wrap, Int.bmod_def]
      omega
    omega
  · rw [wrap_eq low (by omega)]
    omega

/-- A range of the patch is read after the check of its end. -/
theorem checked_range {count : Int} {plain : Unit → Except Stop (α × Int)}
    {rest : Traced ImageAccess Stop (α × Int)} (within : Within patch pos) (low : 0 ≤ count)
    (high : count < 2 ^ 31)
    (next : Within patch (pos + count) → RecordOutcome patch oldSize (plain ()) rest) :
    RecordOutcome patch oldSize (checkEnd patch (pos + count) >>= plain)
      (if wrap (pos + count) > patch.data.length then .halt .failed
        else .touch [.patch pos count] >>= fun _ => rest) := by
  have nonneg := within.1
  have check := wrap_end within (by omega) high
  unfold checkEnd
  by_cases large : 2 ^ 31 ≤ pos + count
  · rw [if_pos large, if_neg (by omega)]
    refine .wild ⟨.patch pos count, mem_append_left _ (mem_singleton_self _), ?_⟩
    rintro ⟨_, _, inside⟩
    have := patch.fits
    omega
  rw [if_neg large]
  by_cases beyond : pos + count > patch.data.length
  · rw [if_pos beyond, if_pos (check.mpr ⟨by omega, beyond⟩)]
    exact .failed nofun
  · rw [if_neg beyond, if_neg (by omega)]
    refine .after (forall_mem_singleton.mpr ⟨nonneg, low, ?_⟩) (next ⟨?_, ?_⟩)
    all_goals omega

theorem readHeader_bind {size : Nat} {header : α} {plain : Unit → Except Stop (β × Int)}
    {rest : α × Int → Traced ImageAccess Stop (β × Int)} (within : Within patch pos)
    (small : size < 2 ^ 31) (next : Within patch (pos + size) →
      RecordOutcome patch oldSize (plain ()) (rest (header, pos + size))) :
    RecordOutcome patch oldSize (checkEnd patch (pos + size) >>= plain)
      (readHeader patch pos size header >>= rest) := by
  have wrapped := @checked_range β patch oldSize pos size plain
    (rest (header, wrap (pos + size))) within (by omega) (by omega) fun next' => by
      rw [wrap_eq (by have := within.1; omega) (by have := next'.2; have := patch.fits; omega)]
      exact next next'
  unfold readHeader
  split at wrapped
  · rw [if_pos ‹_›]
    exact wrapped
  · rw [if_neg ‹_›]
    exact wrapped

theorem readHeader_outcome {size : Nat} {header : α} (within : Within patch pos)
    (small : size < 2 ^ 31) :
    RecordOutcome patch oldSize (checkEnd patch (pos + size) >>= fun _ => .ok (header, pos + size))
      (readHeader patch pos size header) := by
  rw [← bind_pure (readHeader patch pos size header)]
  exact readHeader_bind within small fun within => .ok within nofun

theorem le_read4 (bytes : Bytes) : -2 ^ 31 ≤ read4 bytes := le_wrap _

theorem read4_lt (bytes : Bytes) : read4 bytes < 2 ^ 31 := wrap_lt _

/-- The data of a `CHUNK_RAW`; a negative length passes the check. -/
theorem rawData_outcome {dataLen : Int} (within : Within patch pos) (low : -2 ^ 31 ≤ dataLen)
    (high : dataLen < 2 ^ 31) : RecordOutcome patch oldSize (if dataLen < 0 then .error .wild
        else checkEnd patch (pos + dataLen) >>= fun _ =>
          .ok (Chunk.raw (patch.read pos dataLen.toNat), pos + dataLen))
      (if wrap (pos + dataLen) > patch.data.length then .halt .failed
        else .touch [.patch pos dataLen] >>= fun _ =>
          pure (.raw (patch.read pos dataLen.toNat), wrap (pos + dataLen))) := by
  have nonneg := within.1
  have inside := within.2
  have size := patch.fits
  by_cases negative : dataLen < 0
  · have check := wrap_end within (by omega) high
    rw [if_pos negative, if_neg (by omega)]
    refine .wild ⟨.patch pos dataLen, mem_append_left _ (mem_singleton_self _), ?_⟩
    rintro ⟨_, positive, _⟩
    omega
  · rw [if_neg negative]
    refine checked_range within (by omega) high fun within => ?_
    have := within.2
    rw [wrap_eq (by omega) (by omega)]
    exact .ok within nofun

theorem readRecord_outcome (within : Within patch pos) :
    RecordOutcome patch oldSize (readChunk patch pos) (readRecord patch pos) := by
  refine readHeader_bind within (by decide) fun within => ?_
  dsimp only
  generalize read4 (patch.read pos 4) = type
  by_cases normal : type = chunkNormal
  · rw [if_pos normal, if_pos normal]
    exact readHeader_outcome within (by decide)
  rw [if_neg normal, if_neg normal]
  by_cases raw : type = chunkRaw
  · rw [if_pos raw, if_pos raw, readRaw]
    refine readHeader_bind within (by decide) fun within => ?_
    have low := le_read4 (patch.read (pos + (4 : Nat)) 4)
    have high := read4_lt (patch.read (pos + (4 : Nat)) 4)
    generalize read4 (patch.read (pos + (4 : Nat)) 4) = dataLen at low high ⊢
    exact rawData_outcome within low high
  rw [if_neg raw, if_neg raw]
  by_cases deflate : type = chunkDeflate
  · rw [if_pos deflate, if_pos deflate]
    exact readHeader_outcome within (by decide)
  · rw [if_neg deflate, if_neg deflate]
    exact .failed nofun

end Records

/-! ## One chunk -/

section Chunks

variable {zlib : Zlib} {bz : Bz2} {old patch : Value} {bonus : Option Value} {taken : Bool}
  {patchSize i : Nat} {chunk : Chunk}

/-- The bonus data fill what `inflate` has left of the buffer. -/
theorem expandSource_room {bonus expanded : Bytes} {header : DeflateHeader}
    (ok : expandSource zlib old bonus header = .ok expanded) :
    header.expandedLen - bonus.length + bonus.length ≤ header.expandedLen := by
  unfold expandSource at ok
  split at ok
  · cases ok
  split at ok
  · cases ok
  split at ok
  · cases ok
  · omega

theorem ignoreResult_trace (inner : Except Stop Bytes) : (ignoreResult inner).trace = [] := by
  rcases inner with why | new
  · cases why <;> rfl
  · rfl

theorem ignoreResult_ok_iff (inner : Except Stop Bytes) :
    (ignoreResult inner).result = .ok () ↔ InnerReturns inner := by
  rcases inner with why | new
  · cases why <;> simp [ignoreResult, InnerReturns]
  · simp [ignoreResult, InnerReturns]

theorem chunkCalls_inside_iff :
    (∀ access ∈ (chunkCalls zlib bz old patch bonus taken i chunk).trace,
      access.Inside patchSize old.data.length) ↔ chunk.SourceInside old.data.length := by
  cases chunk with
  | normal srcStart srcLen patchOffset =>
    rw [chunkCalls, touch_then_trace, ignoreResult_trace, append_nil, forall_mem_singleton]
    rfl
  | raw data => cases taken <;> simp [chunkCalls, Chunk.SourceInside]
  | deflate header =>
    rw [chunkCalls, touch_then_trace]
    cases expanded : expandSource zlib old (bonusFor bonus i) header with
    | error why => simp [Chunk.SourceInside, ImageAccess.Inside]
    | ok expanded' =>
      have room := expandSource_room expanded
      rw [touch_then_trace]
      cases deflatePieces zlib bz old patch (bonusFor bonus i) header with
      | error why => simp [Chunk.SourceInside, ImageAccess.Inside, room]
      | ok pieces => cases taken <;> simp [Chunk.SourceInside, ImageAccess.Inside, room]

/-- The loop goes on only after a chunk that can be passed, and it does if the sink takes it. -/
theorem chunkCalls_passable
    (ok : (chunkCalls zlib bz old patch bonus taken i chunk).result = .ok ()) :
    Passable zlib bz old patch bonus i chunk := by
  cases chunk with
  | normal srcStart srcLen patchOffset =>
    rw [chunkCalls, touch_then_result, ignoreResult_ok_iff] at ok
    exact ok
  | raw data => trivial
  | deflate header =>
    rw [chunkCalls, touch_then_result] at ok
    cases expanded : expandSource zlib old (bonusFor bonus i) header with
    | error why =>
      rw [expanded] at ok
      cases ok
    | ok expanded' =>
      rw [expanded] at ok
      rw [touch_then_result] at ok
      cases made : deflatePieces zlib bz old patch (bonusFor bonus i) header with
      | error why =>
        rw [made] at ok
        cases ok
      | ok pieces => exact ⟨pieces, made⟩

theorem chunkCalls_taken (passable : Passable zlib bz old patch bonus i chunk) :
    (chunkCalls zlib bz old patch bonus true i chunk).result = .ok () := by
  cases chunk with
  | normal srcStart srcLen patchOffset =>
    rw [chunkCalls, touch_then_result, ignoreResult_ok_iff]
    exact passable
  | raw data => rfl
  | deflate header =>
    obtain ⟨pieces, made⟩ := passable
    rw [chunkCalls, touch_then_result]
    cases expanded : expandSource zlib old (bonusFor bonus i) header with
    | error why =>
      rw [deflatePieces, expanded] at made
      cases made
    | ok expanded' =>
      rw [touch_then_result, made]
      rfl

end Chunks

/-! ## The loop -/

section Loop

variable {zlib : Zlib} {bz : Bz2} {old patch : Value} {bonus : Option Value} {pos : Int}
  (within : Within patch pos)

include within

/-- The record itself is read inside exactly if `readChunk` does not give up. -/
theorem readRecord_inside_iff {oldSize : Nat} :
    (∀ access ∈ (readRecord patch pos).trace, access.Inside patch.data.length oldSize) ↔
      readChunk patch pos ≠ .error .wild := by
  have outcome := @readRecord_outcome patch oldSize pos within
  generalize readRecord patch pos = run at outcome ⊢
  generalize readChunk patch pos = plain at outcome ⊢
  cases outcome with
  | wild outside =>
    obtain ⟨access, member, out⟩ := outside
    exact ⟨fun all => absurd (all access member) out, fun tame => absurd rfl tame⟩
  | failed all => exact ⟨fun _ => nofun, fun _ => all⟩
  | ok within all => exact ⟨fun _ => nofun, fun _ => all⟩

/-- Apart from that, the record is what `readChunk` says. -/
theorem readRecord_result {after : Int} {chunk : Chunk}
    (tame : readChunk patch pos ≠ .error .wild) :
    (readRecord patch pos).result = .ok (chunk, after) ↔
      readChunk patch pos = .ok (chunk, after) := by
  have outcome := @readRecord_outcome patch 0 pos within
  generalize readRecord patch pos = run at outcome ⊢
  generalize readChunk patch pos = plain at outcome tame ⊢
  cases outcome with
  | wild outside => exact absurd rfl tame
  | failed all => exact ⟨nofun, nofun⟩
  | ok within all => exact Iff.rfl

theorem readChunk_within {after : Int} {chunk : Chunk}
    (read : readChunk patch pos = .ok (chunk, after)) : Within patch after := by
  have outcome := @readRecord_outcome patch 0 pos within
  rw [read] at outcome
  generalize readRecord patch pos = run at outcome
  cases outcome with
  | ok within all => exact within

theorem imageCalls_inside {left i : Nat}
    (inside : ∀ last, Walks zlib bz old patch bonus left i pos last → RecordInside old patch last)
    (taken : Nat → Bool) : ∀ access ∈ (imageCalls zlib bz old patch bonus taken left i pos).trace,
      access.Inside patch.data.length old.data.length := by
  induction left generalizing i pos with
  | zero => nofun
  | succ left ih =>
    have here := inside pos .here
    rw [imageCalls, forall_mem_bind, readRecord_inside_iff within]
    refine ⟨here.1, ?_⟩
    rintro ⟨chunk, after⟩ read
    rw [readRecord_result within here.1] at read
    rw [forall_mem_bind, chunkCalls_inside_iff]
    refine ⟨here.2 chunk after read, fun _ passed => ih (readChunk_within within read) ?_⟩
    exact fun last walks => inside last (.next read (chunkCalls_passable passed) walks)

theorem recordInside_of_imageCalls {left i : Nat} {last : Int}
    (inside : ∀ access ∈ (imageCalls zlib bz old patch bonus (fun _ => true) left i pos).trace,
      access.Inside patch.data.length old.data.length)
    (walks : Walks zlib bz old patch bonus left i pos last) : RecordInside old patch last := by
  induction walks with
  | here =>
    rw [imageCalls, forall_mem_bind, readRecord_inside_iff within] at inside
    refine ⟨inside.1, fun chunk after read => ?_⟩
    have chunkInside := inside.2 (chunk, after) ((readRecord_result within inside.1).mpr read)
    rw [forall_mem_bind, chunkCalls_inside_iff] at chunkInside
    exact chunkInside.1
  | next read passable rest ih =>
    rw [imageCalls, forall_mem_bind, readRecord_inside_iff within] at inside
    have later := inside.2 _ ((readRecord_result within inside.1).mpr read)
    rw [forall_mem_bind] at later
    exact ih (readChunk_within within read) (later.2 () (chunkCalls_taken passable))

end Loop

variable {old patch : Value} {bonus : Option Value}

theorem imagePatchCalls_trace {zlib : Zlib} {bz : Bz2}
    (accepted : HeaderAccepted patch) (taken : Nat → Bool) :
    (imagePatchCalls zlib bz old patch bonus taken).trace = [.patch 0 8] ++ ([.patch 8 4] ++
      (imageCalls zlib bz old patch bonus taken (chunkCount patch) 0 12).trace) := by
  rw [imagePatchCalls, if_neg (not_lt.mpr accepted.1), touch_then_trace,
    if_neg (not_not.mpr accepted.2), touch_then_trace]

theorem imagePatchCalls_refused {zlib : Zlib} {bz : Bz2}
    (refused : ¬ HeaderAccepted patch) (taken : Nat → Bool) :
    ∀ access ∈ (imagePatchCalls zlib bz old patch bonus taken).trace,
      access.Inside patch.data.length old.data.length := by
  unfold imagePatchCalls
  by_cases short : patch.data.length < 12
  · rw [if_pos short]
    nofun
  · rw [if_neg short, touch_then_trace, if_pos fun magic => refused ⟨Nat.le_of_not_lt short, magic⟩]
    refine forall_mem_singleton.mpr ⟨by decide, by decide, ?_⟩
    omega

/-- Whatever the sink takes, all ranges lie in their blocks exactly if this holds for every record
that the loop gets to: reading it does not leave the patch, and its source range lies in the old
data. -/
theorem imagePatchCalls_inside_iff (zlib : Zlib) (bz : Bz2) (old patch : Value)
    (bonus : Option Value) :
    (∀ taken, ∀ access ∈ (imagePatchCalls zlib bz old patch bonus taken).trace,
      access.Inside patch.data.length old.data.length) ↔ (HeaderAccepted patch → ∀ last,
      Walks zlib bz old patch bonus (chunkCount patch) 0 12 last → RecordInside old patch last) := by
  by_cases accepted : HeaderAccepted patch
  swap
  · exact ⟨fun _ header => absurd header accepted, fun _ => imagePatchCalls_refused accepted⟩
  have long := accepted.1
  have within : Within patch 12 := ⟨by decide, by omega⟩
  constructor
  · intro inside _ last walks
    have all := inside fun _ => true
    rw [imagePatchCalls_trace accepted, forall_mem_append, forall_mem_append] at all
    exact recordInside_of_imageCalls within all.2.2 walks
  intro inside taken
  rw [imagePatchCalls_trace accepted, forall_mem_append, forall_mem_append]
  refine ⟨forall_mem_singleton.mpr ⟨by decide, by decide, ?_⟩,
    forall_mem_singleton.mpr ⟨by decide, by decide, ?_⟩,
    imageCalls_inside within (inside accepted) taken⟩
  · omega
  · omega

/-- One `CHUNK_RAW` with a length of -1. -/
def negativeRaw : Value where
  data := imgdiffMagic ++ Bytes.ofNatLE 4 1 ++ Bytes.ofNatLE 4 3 ++ replicate 4 255
  around _ := 0
  fits := by decide

/-- One `CHUNK_NORMAL` whose source is the first byte. -/
def oneByteSource : Value where
  data := imgdiffMagic ++ Bytes.ofNatLE 4 1 ++ Bytes.ofNatLE 4 0 ++ Bytes.ofNatLE 8 0 ++
    Bytes.ofNatLE 8 1 ++ Bytes.ofNatLE 8 0
  around _ := 0
  fits := by decide

/-- The negative length reaches the hash and the sink, and the source byte is used although there
are no old data. -/
theorem imagePatchCalls_outside :
    let run := fun patch => (imagePatchCalls ⟨fun _ => none, fun _ _ _ => none⟩
      ⟨id, fun data => (data, .streamEnd)⟩ ⟨[], fun _ => 0, by decide⟩ patch none fun _ => true).trace
    (.patch 20 (-1) ∈ run negativeRaw ∧
      ¬ (ImageAccess.patch 20 (-1)).Inside negativeRaw.data.length 0) ∧
    (.source 0 1 ∈ run oneByteSource ∧
      ¬ (ImageAccess.source 0 1).Inside oneByteSource.data.length 0) := by
  refine ⟨⟨by decide +kernel, ?_⟩, by decide +kernel, ?_⟩
  · rintro ⟨_, positive, _⟩
    exact absurd positive (by decide)
  · exact (by decide : ¬ 0 + 1 ≤ 0)

end PhilzTouch.ApplyPatch
