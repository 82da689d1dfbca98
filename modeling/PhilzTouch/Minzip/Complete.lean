import Mathlib.Data.List.TakeWhile
import PhilzTouch.Minzip.Selected

/-!
# What a successful extraction has made

`mzExtractRecursive` keeps its result in a variable `ok`, and the block for regular files has
an `ok` of its own: a file that could not be written leaves the loop as if all was well.  As
long as nothing goes wrong while a file is written, the result is to be trusted: at the end every
entry under the prefix is there with its whole content, unless a later one has led to its file.
-/

namespace PhilzTouch.Minzip

open List hiding lookup

open FileTree

/-! ## Complete entries -/

def entryData (map : MemMapping) (entry : ZipEntry) : Bytes :=
  map.data.slice entry.offset.toNat entry.compLen.toNat

def entryContent (zlib : ApplyPatch.Zlib) (map : MemMapping) (entry : ZipEntry) : Option Bytes :=
  if entry.compression = STORED then some (entryData map entry)
  else if entry.compression = DEFLATED then (zlib.inflate (entryData map entry)).map Prod.fst
  else none

/-- In `tree` the entry is there as the archive has it: a directory, a link to the recorded
target or a file with the whole content, and link and file are among the places `touched`. -/
def Created (zlib : ApplyPatch.Zlib) (map : MemMapping) (entry : ZipEntry) (targetFile : Bytes)
    (tree : Tree) (touched : List Location) : Prop :=
  if endsInSlash map entry then stat tree true targetFile = .ok .dir
  else
    ∃ content, entryContent zlib map entry = some content ∧ ∃ here ∈ touched,
      if mzIsZipEntrySymlink entry then
        resolve tree false targetFile = .ok here ∧ lookup tree here = some (.link content)
      else resolve tree true targetFile = .ok here ∧ lookup tree here = some (.file content)

/-- The entry becomes a regular file. -/
def BecomesFile (args : ExtractArgs) (map : MemMapping) (entry : ZipEntry) : Prop :=
  endsInSlash map entry = false ∧ becomesLink args map entry = false

/-- Data that can be extracted: it is at a proper place, and that of a file has a known method and
the size as recorded. -/
structure Plain (zlib : ApplyPatch.Zlib) (args : ExtractArgs) (map : MemMapping)
    (entry : ZipEntry) : Prop where
  signs : endsInSlash map entry = false → 0 ≤ entry.offset ∧ 0 ≤ entry.compLen
  method : BecomesFile args map entry →
    entry.compression = STORED ∨ entry.compression = DEFLATED ∧
      ∀ content, entryContent zlib map entry = some content →
        toLong content.length = entry.uncompLen

/-- An entry of a kind that the flags let through; the text of a link has the size as recorded and
no zero byte. -/
structure Faithful (zlib : ApplyPatch.Zlib) (args : ExtractArgs) (map : MemMapping)
    (entry : ZipEntry) : Prop where
  kind : args.filesOnly = true → endsInSlash map entry = false ∧ mzIsZipEntrySymlink entry = false
  text : endsInSlash map entry = false → mzIsZipEntrySymlink entry = true →
    ∀ content, entryContent zlib map entry = some content →
      (content.length : Int) = entry.uncompLen ∧ (0 : UInt8) ∉ content

/-- What else it takes to extract an entry: it does not lie in the root itself, and a link has a
text, of the size as recorded. -/
structure Extractable (zlib : ApplyPatch.Zlib) (args : ExtractArgs) (map : MemMapping)
    (entry : ZipEntry) (targetFile : Bytes) : Prop where
  place : endsInSlash map entry = false → 1 < (upToSlash targetFile).length
  link : becomesLink args map entry = true → 0 < entry.uncompLen ∧ entry.uncompLen < 2 ^ 31 ∧
    ∃ content, entryContent zlib map entry = some content ∧
      (content.length : Int) = entry.uncompLen

section Steps

variable {archive : Bytes}

/-- The documented behaviour of `inflate`: at the end of the stream, what it has put out is
the expansion of what it has taken in. -/
def Documented (zlib : ApplyPatch.Zlib) (step : (extractMachine archive).Step) : Prop :=
  ∀ input room result, step.op = .inflate input room → step.choice = .inflated result →
    result.code = .streamEnd →
      ∃ used, zlib.inflate (step.before.fed ++ input.take result.consumed) =
        some (step.before.produced ++ result.output, used)

/-- Nothing goes wrong while a file is written: its data can be read, expanded and written,
and its time stamp can be set. -/
def Undisturbed (step : (extractMachine archive).Step) : Prop :=
  match step.op with
  | .read _ _ => step.before.writing ≠ none → step.choice ≠ .fail
  | .inflateInit => step.before.writing ≠ none → step.choice ≠ .fail
  | .inflate _ _ =>
    step.before.writing ≠ none → ∃ result, step.choice = .inflated result ∧ result.code ≠ .error
  | .write _ _ => step.choice ≠ .fail ∧ step.choice ≠ .amount 0
  | .utime path =>
    ∀ content, stat step.before.tree true path = .ok (.file content) → step.choice ≠ .fail
  | _ => True

/-- What `inflate` puts out is the beginning of the expansion, whatever input follows. -/
def Streaming (zlib : ApplyPatch.Zlib) (step : (extractMachine archive).Step) : Prop :=
  ∀ input room result, step.op = .inflate input room → step.choice = .inflated result →
    result.code ≠ .error → ∀ more content used,
      zlib.inflate (step.before.fed ++ input.take result.consumed ++ more) = some (content, used) →
        step.before.produced ++ result.output <+: content

/-- The steps of the runs to be looked at.  In a `calm` run no call fails at all. -/
def Orderly (zlib : ApplyPatch.Zlib) (calm : Prop) (step : (extractMachine archive).Step) : Prop :=
  Documented zlib step ∧ Undisturbed step ∧ (calm → Succeeds step ∧ Streaming zlib step)

/-- Orderly runs of a program end as `post` says. -/
abbrev Ends {α : Type} (zlib : ApplyPatch.Zlib) (calm : Prop) (archive : Bytes)
    (post : α → ExtractState → Prop) (program : ExtractProg α) (state : ExtractState) : Prop :=
  (extractMachine archive).Safe (Orderly zlib calm) (fun _ => True) post program state

/-- A call that does not fail disturbs nothing. -/
theorem Succeeds.undisturbed {step : (extractMachine archive).Step} (succeeds : Succeeds step) :
    Undisturbed step := by
  obtain ⟨op, choice, before⟩ := step
  cases op with
  | read position count =>
    rintro - rfl
    exact succeeds rfl
  | inflateInit =>
    rintro - rfl
    cases succeeds
  | inflate input room =>
    intro _
    simp only [Succeeds, GoodReply, extractPerform] at succeeds
    split at succeeds
    next result _ => exact ⟨_, rfl, succeeds⟩
    next => exact absurd rfl succeeds
  | write fd data =>
    refine ⟨?_, ?_⟩
    · rintro rfl
      exact succeeds rfl
    · rintro rfl
      exact succeeds rfl
  | utime path =>
    rintro - - rfl
    cases succeeds
  | _ => trivial

theorem perform_touched (op : ExtractOp) (choice : ExtractChoice) (state : ExtractState) :
    state.touched ⊆ (extractPerform archive op choice state).1.touched := by
  have made : ∀ path node, state.touched ⊆ (makeNode state choice path node).1.touched := by
    intro path node
    rcases @makeNode_cases state choice path node with failed | ⟨here, after, -, done⟩
    · rw [failed]
      exact .refl _
    · rw [done]
      exact subset_append_left _ _
  cases op with
  | mkdir path => exact made path .dir
  | symlink target path =>
    simp only [extractPerform]
    split
    · exact .refl _
    · exact made path (.link target)
  | creat path =>
    simp only [extractPerform]
    split
    · exact .refl _
    · split
      · exact subset_append_left _ _
      · exact .refl _
  | write fd data =>
    simp only [extractPerform]
    split
    · exact .refl _
    · exact .refl _
    · exact .refl _
    · exact subset_append_left _ _
    · exact subset_append_left _ _
  | _ =>
    rw [(perform_quiet ?_ choice state).2]
    · exact .refl _
    · trivial

theorem touched_kept {α : Type} {allowed : (extractMachine archive).Step → Prop}
    (program : ExtractProg α) (state : ExtractState) : (extractMachine archive).Safe allowed
      (fun after => state.touched ⊆ after.touched) (fun _ after => state.touched ⊆ after.touched)
      program state :=
  .invariantly (fun op choice _ known => List.Subset.trans known (perform_touched op choice _))
    (Subset.refl _)

end Steps

/-! ## Getting at the data of an entry -/

/-- The calls that bring the data of an entry. -/
def FromArchive : ExtractOp → Prop
  | .read _ _ => True
  | .inflateInit => True
  | .inflate _ _ => True
  | _ => False

/-- The same `inflate` stream. -/
def SameStream (before after : ExtractState) : Prop :=
  after.fed = before.fed ∧ after.produced = before.produced

/-- A process function does its part: `got received` holds when it has been given the bytes
`received` so far.  When it is `sure`, nothing disturbs it, and it takes what `fits`. -/
structure Receives (zlib : ApplyPatch.Zlib) (calm : Prop) (archive : Bytes) {σ : Type}
    (process : ProcessFunction σ) (sure : Prop) (fits : Bytes → Prop)
    (got : Bytes → σ → ExtractState → Prop) : Prop where
  keeps : ∀ op choice received cookie state, FromArchive op → got received cookie state →
    got received cookie (extractPerform archive op choice state).1
  secure : sure → ∀ received cookie state, got received cookie state → calm ∨ state.writing ≠ none
  takes : ∀ data received cookie state, got received cookie state → Ends zlib calm archive
      (fun value after =>
        (value.1 = true → got (received ++ data) value.2 after ∧ SameStream state after) ∧
          (sure → fits (received ++ data) → value.1 = true)) (process data cookie) state
  shorter : ∀ front more, fits (front ++ more) → fits front

/-- A deflate stream ends itself: what follows it does not matter. -/
def Stable (zlib : ApplyPatch.Zlib) : Prop :=
  ∀ input more result, zlib.inflate input = some result → zlib.inflate (input ++ more) = some result

/-- Between two rounds of `processDeflatedEntry`: what has been fed, what waits in the input
buffer and what has not been read are the data of the entry; what has been received and what
waits in the output buffer is what has been produced. -/
structure Midway (map : MemMapping) (entry : ZipEntry) (received : Bytes) (inner : DeflateState)
    (state : ExtractState) : Prop where
  input : state.fed ++ inner.input ++ map.data.slice inner.position inner.compRemaining =
    entryData map entry
  output : state.produced = received ++ inner.procBuf
  total : inner.total_out = state.produced.length
  inside : inner.position + inner.compRemaining ≤ map.data.length

section Contents

variable {zlib : ApplyPatch.Zlib} {calm : Prop} {map : MemMapping} {entry : ZipEntry} {σ α : Type}
  {process : ProcessFunction σ} {sure : Prop} {fits : Bytes → Prop} {got : Bytes → σ → ExtractState → Prop} {received : Bytes} {cookie : σ}
  {state : ExtractState} {post : α → ExtractState → Prop}
  (receives : Receives zlib calm map.data process sure fits got)

include receives

variable (held : got received cookie state)

include held

theorem Receives.read {position count : Nat} {rest : Option Bytes → ExtractProg α}
    (inside : position + count ≤ map.data.length)
    (missing : ¬ sure → ∀ after, Ends zlib calm map.data post (rest none) after)
    (found : ∀ after, got received cookie after → SameStream state after → Ends zlib calm map.data post
        (rest (some (map.data.slice position count))) after) :
    Ends zlib calm map.data post (Prog.call (ExtractOp.read position count) >>= rest) state := by
  refine .call fun choice admitted => ⟨trivial, ?_⟩
  have kept := receives.keeps (.read position count) choice received cookie state trivial held
  have whole : (map.data.slice position count).length = count := by
    rw [Bytes.length_slice]
    omega
  simp only [extractPerform] at kept ⊢
  by_cases failed : choice = .fail
  · rw [if_neg (fun both => both.1 failed)]
    refine missing (fun safe => ?_) _
    rcases receives.secure safe _ _ _ held with calm | writing
    · have good : (extractPerform map.data (.read position count) choice state).2 ≠ none :=
        (admitted.2.2 calm).1
      simp [extractPerform, failed] at good
    · exact admitted.2.1 writing failed
  · rw [if_pos ⟨failed, whole⟩] at kept ⊢
    exact found _ kept ⟨rfl, rfl⟩

theorem Receives.inflateInit {rest : Bool → ExtractProg α}
    (failed : ¬ sure → ∀ after, Ends zlib calm map.data post (rest false) after)
    (begun : ∀ after, got received cookie after → after.fed = [] → after.produced = [] →
      Ends zlib calm map.data post (rest true) after) :
    Ends zlib calm map.data post (Prog.call ExtractOp.inflateInit >>= rest) state := by
  refine .call fun choice admitted => ⟨trivial, ?_⟩
  have kept := receives.keeps .inflateInit choice received cookie state trivial held
  simp only [extractPerform] at kept ⊢
  by_cases fails : choice = .fail
  · rw [decide_eq_false (not_not.mpr fails)]
    refine failed (fun safe => ?_) _
    rcases receives.secure safe _ _ _ held with calm | writing
    · exact of_decide_eq_true (admitted.2.2 calm).1 fails
    · exact admitted.2.1 writing fails
  · rw [decide_eq_true fails]
    exact begun _ kept rfl rfl

theorem Receives.inflate {input : Bytes} {room : Nat} {rest : Inflated → ExtractProg α}
    (failed : ¬ sure → ∀ result after, result.code = .error →
      Ends zlib calm map.data post (rest result) after)
    (expanded : ∀ result after, got received cookie after → result.code ≠ .error →
      after.fed = state.fed ++ input.take result.consumed →
      after.produced = state.produced ++ result.output →
      (result.code = .streamEnd → ∃ used, zlib.inflate after.fed = some (after.produced, used)) →
      (calm → ∀ more content used, zlib.inflate (after.fed ++ more) = some (content, used) →
        after.produced <+: content) → Ends zlib calm map.data post (rest result) after) :
    Ends zlib calm map.data post (Prog.call (ExtractOp.inflate input room) >>= rest) state := by
  refine .call fun choice admitted => ⟨trivial, ?_⟩
  have kept := receives.keeps (.inflate input room) choice received cookie state trivial held
  have works : sure → ∃ result, choice = .inflated result ∧ result.code ≠ .error := by
    intro safe
    rcases receives.secure safe _ _ _ held with calm | writing
    · have good := (admitted.2.2 calm).1
      simp only [Succeeds, GoodReply, extractPerform] at good
      split at good
      next result => exact ⟨result, rfl, good⟩
      next => exact absurd rfl good
    · exact admitted.2.1 writing
  simp only [extractPerform] at kept ⊢
  split
  next result =>
    by_cases error : result.code = .error
    · refine failed (fun safe => ?_) _ _ error
      obtain ⟨other, same, fine⟩ := works safe
      cases same
      exact fine error
    · refine expanded _ _ kept error rfl rfl
        (fun ends => admitted.1 input room result rfl rfl ends) fun calm more content used => ?_
      exact (admitted.2.2 calm).2 input room result rfl rfl error more content used
  next other =>
    refine failed (fun safe => ?_) _ _ rfl
    obtain ⟨result, same, -⟩ := works safe
    exact other result same

/-- A stored entry is handed over byte for byte. -/
theorem Receives.storedLoop {fuel position bytesLeft : Nat}
    (enough : bytesLeft ≤ fuel) (inside : position + bytesLeft ≤ map.data.length)
    (room : sure → fits (received ++ map.data.slice position bytesLeft)) :
    Ends zlib calm map.data (fun value after =>
        (value.1 = true → got (received ++ map.data.slice position bytesLeft) value.2 after) ∧
          (sure → value.1 = true)) (storedLoop process fuel position bytesLeft cookie) state := by
  induction fuel generalizing position bytesLeft received cookie state with
  | zero =>
    rw [Nat.le_zero.mp enough]
    exact .ret ⟨fun _ => by simpa [Bytes.slice] using held, fun _ => rfl⟩
  | succ fuel ih =>
    rw [Minzip.storedLoop]
    split
    next none =>
      rw [none]
      exact .ret ⟨fun _ => by simpa [Bytes.slice] using held, fun _ => rfl⟩
    next some =>
    have size : 0 < bufSize := by decide
    refine receives.read held (by omega)
      (fun unsure _ => .ret ⟨by simp, fun safe => absurd safe unsure⟩) ?_
    intro after kept _
    have whole : received ++ map.data.slice position (min bytesLeft bufSize) ++
        map.data.slice (position + min bytesLeft bufSize) (bytesLeft - min bytesLeft bufSize) =
          received ++ map.data.slice position bytesLeft := by
      rw [append_assoc, Bytes.slice_append_slice, Nat.add_sub_cancel' (min_le_left _ _)]
    rw [← whole] at room
    refine (receives.takes _ received cookie after kept).bind fun value handed taken => ?_
    obtain ⟨ret, cookie'⟩ := value
    cases ret with
    | false => exact .ret ⟨by simp, fun safe => taken.2 safe (receives.shorter _ _ (room safe))⟩
    | true =>
      have rest := ih (taken.1 rfl).1 (show bytesLeft - min bytesLeft bufSize ≤ fuel by omega)
        (show position + min bytesLeft bufSize + (bytesLeft - min bytesLeft bufSize) ≤
          map.data.length by omega) room
      rwa [whole] at rest

theorem Receives.flush {procBuf : Bytes} {code : InflateCode} : Ends zlib calm map.data
      (fun value after => (sure → fits (received ++ procBuf) → value.1 = true) ∧ (value.1 = true →
        ∃ more, more ++ value.2.1 = procBuf ∧ got (received ++ more) value.2.2 after ∧
          SameStream state after ∧ (code = .streamEnd → value.2.1 = [])))
      (flush process procBuf code cookie) state := by
  rw [Minzip.flush]
  split
  · refine (receives.takes procBuf received cookie state held).bind fun value after taken => ?_
    exact .ret ⟨taken.2, fun ret =>
      ⟨procBuf, append_nil _, (taken.1 ret).1, (taken.1 ret).2, fun _ => rfl⟩⟩
  next waits =>
    refine .ret ⟨fun _ _ => rfl, fun _ => ⟨[], rfl, ?_, ⟨rfl, rfl⟩, fun ends => ?_⟩⟩
    · rwa [append_nil]
    · by_contra filled
      exact waits (.inr ⟨ends, filled⟩)

variable {inner : DeflateState}

theorem Receives.refill (midway : Midway map entry received inner state) : Ends zlib calm map.data
      (fun value after => (value = none ∧ ¬ sure) ∨
        ∃ next, value = some next ∧ got received cookie after ∧
          Midway map entry received next after) (refill inner) state := by
  obtain ⟨input, output, total, inside⟩ := midway
  rw [Minzip.refill]
  split
  next used =>
    refine receives.read held (by omega) (fun unsure _ => .ret (.inl ⟨rfl, unsure⟩)) ?_
    rintro after kept ⟨fed, produced⟩
    refine .ret (.inr ⟨_, rfl, kept, ?_, ?_, ?_, ?_⟩)
    · rw [fed, append_assoc, Bytes.slice_append_slice, Nat.add_sub_cancel' (min_le_left _ _)]
      rwa [used, append_nil] at input
    · rw [produced, output]
    · rw [produced, total]
    · dsimp only
      omega
  next => exact .ret (.inr ⟨inner, rfl, held, input, output, total, inside⟩)

/-- A deflated entry is handed over expanded.  A failure that is not excluded shows as -1. -/
theorem Receives.deflatedLoop {fuel : Nat}
    (stable : Stable zlib) (deflated : entry.compression = DEFLATED)
    (room : sure → (∀ out, fits out) ∨ calm ∧ ∃ content, entryContent zlib map entry = some content ∧
      fits content) (midway : Midway map entry received inner state) : Ends zlib calm map.data
      (fun value after => (value.1 = -1 ∧ ¬ sure) ∨
        ∃ content, entryContent zlib map entry = some content ∧ value.1 = toLong content.length ∧
          got content value.2 after) (deflatedLoop process fuel inner cookie) state := by
  induction fuel generalizing inner received cookie state with
  | zero => exact .stop
  | succ fuel ih =>
    rw [Minzip.deflatedLoop]
    refine (receives.refill held midway).bind fun value before known => ?_
    rcases known with ⟨rfl, unsure⟩ | ⟨next, rfl, kept, input, output, total, inside⟩
    · exact .ret (.inl ⟨rfl, unsure⟩)
    refine receives.inflate kept ?_ ?_
    · intro unsure result after error
      rw [if_pos error]
      exact .ret (.inl ⟨rfl, unsure⟩)
    intro result after keptAfter fine fed produced ends streams
    rw [if_neg fine]
    have taken : after.fed ++ (next.input.drop result.consumed ++
        map.data.slice next.position next.compRemaining) = entryData map entry := by
      rw [← input, fed, append_assoc, ← append_assoc (next.input.take _),
        take_append_drop, ← append_assoc]
    have expands : entryContent zlib map entry = (zlib.inflate (entryData map entry)).map Prod.fst := by
      rw [entryContent, if_neg (by rw [deflated]; decide), if_pos deflated]
    have all : received ++ (next.procBuf ++ result.output) = after.produced := by
      rw [produced, output, append_assoc]
    have fit : sure → fits after.produced := by
      intro safe
      rcases room safe with any | ⟨calm, content, known, fit⟩
      · exact any _
      obtain ⟨inflated, result, rfl⟩ := Option.map_eq_some_iff.mp (expands ▸ known)
      obtain ⟨rest, joined⟩ := streams calm _ inflated.1 inflated.2 (taken ▸ result)
      exact receives.shorter _ rest (joined ▸ fit)
    refine (receives.flush keptAfter).bind fun value flushed handed => ?_
    rw [all] at handed
    obtain ⟨ret, procBuf, cookie'⟩ := value
    cases ret with
    | false => exact .ret (.inl ⟨rfl, fun safe => by cases handed.1 safe (fit safe)⟩)
    | true =>
      obtain ⟨more, joined, keptMore, ⟨fed', produced'⟩, emptied⟩ := handed.2 rfl
      have whole : after.produced = received ++ more ++ procBuf := by
        rw [← all, append_assoc, joined]
      have size : next.total_out + result.output.length = after.produced.length := by
        rw [produced, length_append, total]
      dsimp only at keptMore emptied ⊢
      rw [if_neg (by decide)]
      split
      next finished =>
        obtain ⟨used, inflated⟩ := ends finished
        rw [emptied finished, append_nil] at whole
        refine .ret (.inr ⟨after.produced, ?_, by rw [size], whole ▸ keptMore⟩)
        rw [expands, ← taken, stable _ _ _ inflated]
        rfl
      next =>
        refine ih keptMore ⟨?_, ?_, ?_, inside⟩
        · rw [fed', ← taken, append_assoc]
        · rw [produced', whole]
        · rw [produced', size]

omit held in
/-- The whole content of an entry is handed over.  An entry that announces -1 bytes would make
a failure look like a success. -/
theorem Receives.contents (stable : Stable zlib) (signs : 0 ≤ entry.offset ∧ 0 ≤ entry.compLen)
    (inside : entry.offset + entry.compLen ≤ (map.length : Int))
    (sized : ¬ sure → entry.uncompLen ≠ -1)
    (method : sure → entry.compression = STORED ∨ entry.compression = DEFLATED ∧
      ∀ content, entryContent zlib map entry = some content →
        toLong content.length = entry.uncompLen)
    (room : sure → (∀ out, fits out) ∨ calm ∧ ∃ content, entryContent zlib map entry = some content ∧
      fits content) (held : got [] cookie state) (fuel oldOff : Nat) :
    Ends zlib calm map.data (fun value after => (value.1 = true →
        ∃ content, entryContent zlib map entry = some content ∧ got content value.2 after) ∧
          (sure → value.1 = true))
      (mzProcessZipEntryContents process fuel oldOff entry cookie) state := by
  have limit := map.fits
  have total : map.length = map.data.length := rfl
  rw [mzProcessZipEntryContents]
  rw [if_neg (not_lt.mpr signs.1)]
  split
  next stored =>
    have size : toSize entry.compLen = entry.compLen.toNat := by
      rw [toSize]
      omega
    have known : entryContent zlib map entry = some (entryData map entry) := by
      rw [entryContent, if_pos stored]
    rw [processStoredEntry, size]
    refine (receives.storedLoop held le_rfl (by omega) fun safe => ?_).weaken
      fun value after handed => ⟨fun ret => ⟨_, known, handed.1 ret⟩, handed.2⟩
    rcases room safe with any | ⟨-, content, same, fit⟩
    · exact any _
    · rw [known] at same
      cases same
      exact fit
  next notStored =>
  split
  next deflated =>
    rw [processDeflatedEntry]
    refine receives.inflateInit held ?_ ?_
    · intro unsure after
      refine .ret ⟨fun ret => ?_, fun safe => absurd safe unsure⟩
      exact absurd (of_decide_eq_true ret).symm (sized unsure)
    intro after kept fed produced
    rw [if_neg (not_lt.mpr signs.2)]
    have midway : Midway map entry [] ⟨entry.offset.toNat, entry.compLen.toNat, [], [], 0⟩ after :=
      ⟨by rw [fed]; rfl, by rw [produced]; rfl, by rw [produced]; rfl, by dsimp only; omega⟩
    refine (receives.deflatedLoop kept stable deflated room midway).bind fun value done result => ?_
    rcases result with ⟨minus, unsure⟩ | ⟨content, known, size, got'⟩
    · refine .ret ⟨fun ret => ?_, fun safe => absurd safe unsure⟩
      exact absurd ((of_decide_eq_true ret).symm.trans minus) (sized unsure)
    · refine .ret ⟨fun _ => ⟨content, known, got'⟩, fun safe => ?_⟩
      rcases method safe with stored | ⟨-, sizes⟩
      · exact absurd stored notStored
      · exact decide_eq_true (size.trans (sizes content known))
  next unknown =>
    refine .ret ⟨by simp, fun safe => ?_⟩
    rcases method safe with stored | ⟨deflated, -⟩
    · exact absurd stored notStored
    · exact absurd deflated unknown

end Contents

section Entries

variable {zlib : ApplyPatch.Zlib} {calm : Prop} {map : MemMapping} {entry : ZipEntry}
  {state : ExtractState} {targetFile : Bytes} {args : ExtractArgs}

/-! ## Links -/

/-- The bytes received have been copied to a buffer of `bufLen` bytes, and the tree is as it was. -/
def Copied (bufLen : Int) (tree : Tree) (received : Bytes) (cookie : Bytes × Int)
    (state : ExtractState) : Prop :=
  cookie = (received, bufLen - received.length) ∧ state.tree = tree

theorem copyProcessFunction_receives (bufLen : Int) (tree : Tree) :
    Receives zlib calm map.data copyProcessFunction calm
      (fun out => (out.length : Int) ≤ bufLen) (Copied bufLen tree) := by
  refine ⟨?_, fun known _ _ _ _ => .inl known, ?_, ?_⟩
  · rintro op choice received cookie state fromArchive ⟨copied, same⟩
    have quiet : Quiet op := by cases op <;> trivial
    exact ⟨copied, (perform_quiet quiet choice state).1.trans same⟩
  · rintro data received cookie state ⟨rfl, same⟩
    rw [copyProcessFunction]
    split
    · refine .ret ⟨fun _ => ⟨⟨?_, same⟩, rfl, rfl⟩, fun _ _ => rfl⟩
      rw [length_append]
      ext
      · rfl
      · dsimp only
        omega
    next full =>
      refine .ret ⟨by simp, fun _ fit => absurd ?_ full⟩
      rw [length_append] at fit
      dsimp only
      omega
  · intro front more fit
    rw [length_append] at fit
    omega

/-- What `mzReadZipEntry` returns is the content of the entry. -/
theorem mzReadZipEntry_content (stable : Stable zlib) (signs : 0 ≤ entry.offset ∧ 0 ≤ entry.compLen)
    (inside : entry.offset + entry.compLen ≤ (map.length : Int)) (sized : 0 ≤ entry.uncompLen)
    (short : calm → entry.uncompLen < 2 ^ 31)
    (known : calm → ∃ content, entryContent zlib map entry = some content ∧
      (content.length : Int) = entry.uncompLen) (fuel oldOff : Nat) : Ends zlib calm map.data
      (fun value after => (∀ copied, value = some copied →
        entryContent zlib map entry = some copied ∧ after.tree = state.tree) ∧
          (calm → value ≠ none))
      (mzReadZipEntry fuel oldOff entry entry.uncompLen) state := by
  rw [mzReadZipEntry]
  have empty : Copied entry.uncompLen state.tree [] ([], entry.uncompLen) state := by
    simp [Copied]
  have method : calm → entry.compression = STORED ∨ entry.compression = DEFLATED ∧
      ∀ content, entryContent zlib map entry = some content →
        toLong content.length = entry.uncompLen := by
    intro quiet
    obtain ⟨content, same, size⟩ := known quiet
    by_cases stored : entry.compression = STORED
    · exact .inl stored
    by_cases deflated : entry.compression = DEFLATED
    · have small := short quiet
      have fits : toLong content.length = content.length :=
        ApplyPatch.wrap_eq (by omega) (by omega)
      refine .inr ⟨deflated, fun other equal => ?_⟩
      rw [← Option.some.inj (same.symm.trans equal), fits, size]
    · rw [entryContent, if_neg stored, if_neg deflated] at same
      cases same
  have room : calm → (∀ out : Bytes, (out.length : Int) ≤ entry.uncompLen) ∨ calm ∧
      ∃ content, entryContent zlib map entry = some content ∧
        (content.length : Int) ≤ entry.uncompLen := by
    intro quiet
    obtain ⟨content, same, size⟩ := known quiet
    exact .inr ⟨quiet, content, same, size.le⟩
  have contents := (@copyProcessFunction_receives zlib calm map entry.uncompLen state.tree).contents
    stable signs inside (fun _ => by omega) method room empty fuel oldOff
  refine contents.bind fun value after handed => ?_
  obtain ⟨ret, copied, left⟩ := value
  cases ret with
  | false => exact .ret ⟨nofun, fun quiet => absurd (handed.2 quiet) nofun⟩
  | true =>
    obtain ⟨content, known, same, unchanged⟩ := handed.1 rfl
    refine .ret ⟨fun result equal => ?_, fun _ => nofun⟩
    cases equal
    rw [known, (Prod.mk.inj same).1]
    exact ⟨rfl, unchanged⟩

/-- What the work on an entry, begun in `tree`, has to achieve: it does not leave the loop with a
good result, and never in a calm run.  When the loop goes on nothing but the file that the path
leads to has been rewritten, and an entry that is faithfully recorded has been created. -/
structure Honest (zlib : ApplyPatch.Zlib) (calm : Prop) (args : ExtractArgs) (map : MemMapping)
    (entry : ZipEntry) (targetFile : Bytes) (tree : Tree) (step : LoopStep)
    (after : ExtractState) : Prop where
  reported : step ≠ .leave true
  calmly : calm → step = .next
  kept : step = .next → Grows (fun here => BecomesFile args map entry ∧
    resolve after.tree true targetFile = .ok here) tree after.tree
  created : step = .next → args.dryRun = false → Faithful zlib args map entry →
    Created zlib map entry targetFile after.tree after.touched

variable {tree : Tree}

theorem honest_leave (after : ExtractState) (never : ¬ calm) :
    Honest zlib calm args map entry targetFile tree (.leave false) after :=
  ⟨nofun, fun known => absurd known never, nofun, nofun⟩

theorem symlink_honest {linkTarget : Bytes} (noDir : endsInSlash map entry = false)
    (isLink : mzIsZipEntrySymlink entry = true) (known : Faithful zlib args map entry →
      entryContent zlib map entry = some linkTarget) :
    Ends zlib calm map.data (Honest zlib calm args map entry targetFile state.tree)
      (do
        match ← Prog.call (ExtractOp.symlink linkTarget targetFile) with
        | false => .ret (LoopStep.leave false)
        | true => .ret LoopStep.next) state := by
  refine .call fun choice admitted => ⟨trivial, ?_⟩
  have works : calm →
      (extractPerform map.data (.symlink linkTarget targetFile) choice state).2 = true :=
    fun quiet => (admitted.2.2 quiet).1
  simp only [extractPerform] at works ⊢
  by_cases empty : linkTarget = []
  · simp only [if_pos empty] at works ⊢
    exact .ret (honest_leave _ fun quiet => absurd (works quiet) (by simp))
  simp only [if_neg empty] at works ⊢
  rcases @makeNode_cases state choice targetFile (.link linkTarget) with
    failed | ⟨here, after, made, done⟩
  · rw [failed] at works ⊢
    exact .ret (honest_leave _ fun quiet => absurd (works quiet) (by simp))
  rw [done]
  refine .ret ⟨by simp, fun _ => rfl, fun _ => (make_grows made).more (by simp), fun _ _ faithful => ?_⟩
  rw [Created, if_neg (by rw [noDir]; simp)]
  refine ⟨linkTarget, known faithful, here, by simp [ExtractState.touch], ?_⟩
  rw [if_pos isLink]
  exact make_found false (fun _ _ => rfl) made

/-- A link is made with the recorded target. -/
theorem extractLink_honest (stable : Stable zlib) (signs : 0 ≤ entry.offset ∧ 0 ≤ entry.compLen)
    (inside : entry.offset + entry.compLen ≤ (map.length : Int))
    (noDir : endsInSlash map entry = false) (isLink : mzIsZipEntrySymlink entry = true)
    (link : calm → 0 < entry.uncompLen ∧ entry.uncompLen < 2 ^ 31 ∧ ∃ content,
      entryContent zlib map entry = some content ∧ (content.length : Int) = entry.uncompLen) :
    Ends zlib calm map.data (Honest zlib calm args map entry targetFile state.tree)
      (extractLink args entry targetFile) state := by
  rw [extractLink]
  split
  next none =>
    refine .ret (honest_leave _ fun quiet => ?_)
    have := (link quiet).1
    omega
  refine .call fun choice admitted => ⟨trivial, ?_⟩
  have works : calm → decide (choice ≠ .fail) = true := fun quiet => (admitted.2.2 quiet).1
  dsimp only [extractPerform]
  cases allocated : decide (choice ≠ .fail) with
  | false =>
    rw [allocated] at works
    exact .ret (honest_leave _ fun quiet => absurd (works quiet) (by simp))
  | true =>
    by_cases negative : entry.uncompLen < 0
    · refine .skip fun value after => ?_
      cases value with
      | none =>
        refine .ret (honest_leave _ fun quiet => ?_)
        have := (link quiet).1
        omega
      | some copied =>
        dsimp only
        rw [if_pos negative]
        exact .stop
    refine (mzReadZipEntry_content stable signs inside (not_lt.mp negative)
      (fun quiet => (link quiet).2.1) (fun quiet => (link quiet).2.2) args.fuel args.oldOff).bind
      fun value after read => ?_
    cases value with
    | none => exact .ret (honest_leave _ fun quiet => absurd rfl (read.2 quiet))
    | some copied =>
      obtain ⟨known, unchanged⟩ := read.1 copied rfl
      dsimp only
      rw [if_neg negative]
      refine .call fun choice _ => ⟨trivial, ?_⟩
      obtain ⟨fresh, count, same⟩ := perform_uninitialised map.data
        (entry.uncompLen.toNat - copied.length) choice after
      rw [same, ← unchanged]
      refine symlink_honest noDir isLink fun faithful => ?_
      obtain ⟨size, text⟩ := faithful.text noDir isLink copied known
      have nothing : fresh = [] := eq_nil_of_length_eq_zero (by omega)
      have text : copied.takeWhile (· ≠ 0) = copied := by
        rw [takeWhile_eq_self_iff]
        exact fun char member => decide_eq_true fun null => text (null ▸ member)
      rw [nothing, append_nil, text, known]

/-! ## Regular files -/

/-- The file at `here`, made in `tree`, is being written and holds the bytes received. -/
def Filling (tree : Tree) (here : Location) (received : Bytes) (_ : Unit)
    (state : ExtractState) : Prop :=
  state.writing = some here ∧ here ∈ state.touched ∧
    state.tree = Function.update tree here (some (.file received))

variable {here : Location}

theorem Filling.write {received : Bytes}
    (filling : Filling tree here received () state) (data : Bytes) :
    Filling tree here (received ++ data) ()
      (state.touch here (append state.tree here data)) := by
  obtain ⟨writing, touched, same⟩ := filling
  refine ⟨writing, mem_append_left _ touched, ?_⟩
  rw [same, append, Function.update_self]
  exact Function.update_idem _ _ _

/-- A `write` that does not fail is interrupted or takes the first part of the data. -/
theorem write_cases {archive : Bytes} {fd : Location} {data : Bytes} {choice : ExtractChoice}
    (works : choice ≠ .fail) (takes : choice ≠ .amount 0) :
    extractPerform archive (.write fd data) choice state = (state, .interrupted) ∨
      ∃ part rest, part ++ rest = data ∧ extractPerform archive (.write fd data) choice state =
        (state.touch fd (append state.tree fd part), .wrote part.length) := by
  have all : ∃ part rest, part ++ rest = data ∧
      (state.touch fd (append state.tree fd data), WriteResult.wrote data.length) =
        (state.touch fd (append state.tree fd part), .wrote part.length) :=
    ⟨data, [], append_nil _, rfl⟩
  cases choice with
  | fail => exact absurd rfl works
  | interrupt => exact .inl rfl
  | amount count =>
    cases count with
    | zero => exact absurd rfl takes
    | succ count => exact .inr ⟨_, _, take_append_drop (count + 1) data, rfl⟩
  | ok => exact .inr all
  | memory content => exact .inr all
  | inflated result => exact .inr all

theorem writeLoop_fills {received : Bytes} (fuel : Nat)
    (data : Bytes) (filling : Filling tree here received () state) : Ends zlib calm map.data
      (fun value after => value = true ∧ Filling tree here (received ++ data) () after ∧
        SameStream state after) (writeLoop here fuel data) state := by
  induction fuel generalizing received data state with
  | zero => exact .stop
  | succ fuel ih =>
    rw [writeLoop]
    refine .call fun choice admitted => ⟨trivial, ?_⟩
    obtain ⟨works, takes⟩ : choice ≠ .fail ∧ choice ≠ .amount 0 := admitted.2.1
    rcases @write_cases state map.data here data choice works takes with
      again | ⟨part, rest, rfl, wrote⟩
    · simp only [again]
      exact ih data filling
    simp only [wrote]
    have filled := filling.write part
    split
    next all =>
      have none : rest = [] := by simpa using all
      rw [none, append_nil]
      exact .ret ⟨rfl, filled, rfl, rfl⟩
    next =>
      have later := ih rest filled
      rw [append_assoc] at later
      rwa [drop_left]

theorem writeProcessFunction_receives (fuel : Nat) (tree : Tree) (here : Location) :
    Receives zlib calm map.data (writeProcessFunction fuel here) True (fun _ => True)
      (Filling tree here) := by
  refine ⟨?_, ?_, ?_, fun _ _ _ => trivial⟩
  · intro op choice received cookie state fromArchive filling
    cases op with
    | read position count =>
      simp only [extractPerform]
      split <;> exact filling
    | inflateInit => exact filling
    | inflate input room =>
      simp only [extractPerform]
      split <;> exact filling
    | _ => exact fromArchive.elim
  · intro _ received cookie state filling
    rw [filling.1]
    simp
  · intro data received cookie state filling
    refine (writeLoop_fills fuel data filling).bind fun value after written => ?_
    exact .ret ⟨fun _ => written.2, fun _ _ => written.1⟩

section

variable (stable : Stable zlib) (signs : 0 ≤ entry.offset ∧ 0 ≤ entry.compLen)
  (method : entry.compression = STORED ∨ entry.compression = DEFLATED ∧
    ∀ content, entryContent zlib map entry = some content →
      toLong content.length = entry.uncompLen)
  (inside : entry.offset + entry.compLen ≤ (map.length : Int))
  (file : BecomesFile args map entry)

include stable signs method inside file

/-- A file that is filled without disturbance gets the whole content. -/
theorem fillFile_honest {after : Tree}
    (made : create tree targetFile = .ok (here, after)) (filling : Filling tree here [] () state) :
    Ends zlib calm map.data (Honest zlib calm args map entry targetFile tree)
      (fillFile args entry targetFile here) state := by
  have contents := (@writeProcessFunction_receives zlib calm map args.fuel tree here).contents
    stable signs inside (fun unsure => absurd trivial unsure) (fun _ => method)
    (fun _ => .inl fun _ => trivial) filling args.fuel args.oldOff
  rw [fillFile, mzExtractZipEntryToFile]
  have filled : Ends zlib calm map.data
      (fun ok done => ok = true ∧ ∃ content, entryContent zlib map entry = some content ∧
        Filling tree here content () done)
      (mzExtractZipEntryToFile args.fuel args.oldOff entry here) state :=
    contents.bind fun value done handed =>
      .ret ⟨handed.2 trivial, handed.1 (handed.2 trivial)⟩
  refine filled.bind fun ok done written => ?_
  obtain ⟨rfl, content, known, -, touched, same⟩ := written
  refine .call fun choice _ => ⟨trivial, ?_⟩
  have found := create_found content made
  have grows := create_grows content made
  rw [← same] at found grows
  have honest : ∀ after : ExtractState, after.tree = done.tree → after.touched = done.touched →
      Honest zlib calm args map entry targetFile tree .next after := by
    intro after sameTree sameTouched
    refine ⟨nofun, fun _ => rfl, fun _ => ?_, fun _ real faithful => ?_⟩
    · rw [sameTree]
      refine grows.more fun place _ _ same => ⟨file, ?_⟩
      rw [same]
      exact found.1
    rw [Created, sameTree, sameTouched, if_neg (by rw [file.1]; simp)]
    refine ⟨content, known, here, touched, ?_⟩
    have noLink : mzIsZipEntrySymlink entry = false := by
      cases only : args.filesOnly with
      | true => exact (faithful.kind only).2
      | false =>
        have kind := file.2
        simpa [becomesLink, real, file.1, only] using kind
    rwa [if_neg (by rw [noLink]; simp)]
  have placed : stat done.tree true targetFile = .ok (.file content) := stat_iff.mpr ⟨here, found⟩
  dsimp only [extractPerform]
  split
  · refine .call fun choice admitted => ⟨trivial, ?_⟩
    have works : choice ≠ .fail := admitted.2.1 content placed
    simp only [extractPerform, decide_eq_true works]
    exact .ret (honest _ rfl rfl)
  · exact .ret (honest _ rfl rfl)

theorem extractFile_honest :
    Ends zlib calm map.data (Honest zlib calm args map entry targetFile state.tree)
      (extractFile args entry targetFile) state := by
  rw [extractFile]
  refine .call fun choice admitted => ⟨trivial, ?_⟩
  have works : calm → (extractPerform map.data (.creat targetFile) choice state).2 ≠ none :=
    fun quiet => (admitted.2.2 quiet).1
  simp only [extractPerform] at works ⊢
  by_cases failed : choice = .fail
  · simp only [if_pos failed] at works ⊢
    exact .ret (honest_leave _ fun quiet => works quiet rfl)
  simp only [if_neg failed] at works ⊢
  cases made : create state.tree targetFile with
  | error errno =>
    rw [made] at works
    exact .ret (honest_leave _ fun quiet => works quiet rfl)
  | ok result =>
    refine fillFile_honest stable signs method inside file made ⟨rfl, ?_, ?_⟩
    · exact mem_append_right _ (mem_singleton.mpr rfl)
    · exact (create_iff.mp made).2.2

end

/-! ## Entries -/

theorem hierarchy_made (path : Bytes) (timestamp stripFileName : Bool) : Ends zlib calm map.data
      (fun value after => Grows (fun _ => False) state.tree after.tree ∧
        (value = 0 →
          stat after.tree true (DirUtil.wanted path stripFileName) = .ok .dir) ∧
        (calm → path ≠ [] → hierarchyPath path stripFileName ≠ none → value = 0))
      (dirCreateHierarchy extractDirs path timestamp stripFileName) state := by
  have meets : DirUtil.Meets extractDirs (Orderly zlib calm : (extractMachine map.data).Step → Prop)
      (fun _ => True) ExtractState.tree (DirUtil.Component (DirUtil.wanted path stripFileName))
      calm := extractDirs_meets (fun _ _ _ _ _ => trivial) fun quiet _ orderly =>
    (orderly.2.2 quiet).1
  refine (DirUtil.dirCreateHierarchy_makes timestamp meets trivial).weaken fun value after made => ?_
  exact ⟨made.1, fun success => (made.2.1 success).1, made.2.2⟩

/-- Whatever goes wrong with an entry is reported, and otherwise it is there. -/
theorem extractEntry_honest (stable : Stable zlib)
    (plain : args.dryRun = false → Plain zlib args map entry)
    (ready : calm → args.dryRun = false → Extractable zlib args map entry targetFile)
    (inside : 0 ≤ entry.offset ∧ 0 ≤ entry.compLen →
      entry.offset + entry.compLen ≤ (map.length : Int))
    (slashed : endsInSlash map entry = true → ∃ core, targetFile = core ++ [slash]) :
    Ends zlib calm map.data (Honest zlib calm args map entry targetFile state.tree)
      (extractEntry args map entry targetFile) state := by
  rw [extractEntry]
  cases real : args.dryRun with
  | true => exact .ret ⟨by simp, fun _ => rfl, fun _ => .refl _ _, fun _ never => by cases real.symm.trans never⟩
  | false =>
    rw [if_neg (by simp)]
    have plain := plain real
    cases isDir : endsInSlash map entry with
    | true =>
      rw [if_pos rfl]
      split
      next only =>
        refine .ret ⟨by simp, fun _ => rfl, fun _ => .refl _ _, fun _ _ faithful => ?_⟩
        cases isDir.symm.trans (faithful.kind only).1
      obtain ⟨core, rfl⟩ := slashed isDir
      refine (hierarchy_made _ _ _).bind fun ret after made => ?_
      split
      next failed =>
        exact .ret (honest_leave _ fun quiet => failed (made.2.2 quiet (by simp) (by simp [hierarchyPath])))
      next success =>
        refine .ret ⟨by simp, fun _ => rfl, fun _ => made.1.more (by simp), fun _ _ _ => ?_⟩
        rw [Created, if_pos isDir]
        exact made.2.1 (not_not.mp success)
    | false =>
      rw [if_neg (by simp)]
      refine (hierarchy_made _ _ _).bind fun ret after made => ?_
      split
      next failed =>
        refine .ret (honest_leave _ fun quiet => failed (made.2.2 quiet ?_ ?_))
        · rintro rfl
          exact absurd ((ready quiet real).place isDir) (by decide)
        · rw [hierarchyPath, if_pos rfl, if_neg (not_le.mpr ((ready quiet real).place isDir))]
          simp
      have signs := plain.signs isDir
      -- the directories that were made on the way
      have later : ∀ step done,
          Honest zlib calm args map entry targetFile after.tree step done →
          Honest zlib calm args map entry targetFile state.tree step done := by
        intro step done honest
        refine ⟨honest.reported, honest.calmly, fun next => ?_, honest.created⟩
        exact (made.1.more (by simp)).trans (honest.kept next)
      split
      next link =>
        have becomes : becomesLink args map entry = true := by
          rw [becomesLink, real, isDir, Bool.and_assoc, link]
          rfl
        exact (extractLink_honest stable signs (inside signs) isDir (Bool.and_eq_true_iff.mp link).2
          fun quiet => (ready quiet real).link becomes).weaken later
      next noLink =>
        have file : BecomesFile args map entry := by
          refine ⟨isDir, ?_⟩
          rw [becomesLink, real, isDir, Bool.and_assoc, Bool.eq_false_iff.mpr noLink]
          rfl
        exact (extractFile_honest stable signs (plain.method file) (inside signs) file).weaken later

/-! ## The whole extraction -/

theorem targetPath_slash {map : MemMapping} {targetDir zpath : Bytes}
    (inside : map.Inside entry.fileName entry.fileNameLen) (isDir : endsInSlash map entry = true) :
    ∃ core, targetPath targetDir zpath (entryName map entry) = core ++ [slash] := by
  obtain ⟨core, slashed, -⟩ := withSlash_eq targetDir
  rw [targetPath, slashed]
  rcases eq_nil_or_concat ((entryName map entry).drop zpath.length) with empty | ⟨rest, char, more⟩
  · rw [empty, append_nil]
    exact ⟨core, rfl⟩
  rw [concat_eq_append] at more
  have whole : entryName map entry = (entryName map entry).take zpath.length ++ rest ++ [char] := by
    rw [append_assoc, ← more, take_append_drop]
  have size := MemMapping.length_bytes inside
  change (entryName map entry).length = _ at size
  have last : entryName map entry = map.bytes entry.fileName (entry.fileNameLen - 1) ++ [slash] := by
    have positive : 0 < entry.fileNameLen := by
      rw [← size, whole, length_append]
      exact Nat.succ_pos _
    have position : entry.fileName - map.addr + (entry.fileNameLen - 1) =
        entry.fileName + entry.fileNameLen - 1 - map.addr := by
      have := inside.1
      omega
    have cut := Bytes.slice_append_slice map.data (entry.fileName - map.addr)
      (entry.fileNameLen - 1) 1
    rw [Nat.sub_add_cancel positive, position] at cut
    rw [endsInSlash, beq_iff_eq, MemMapping.bytes] at isDir
    rw [entryName, MemMapping.bytes, MemMapping.bytes, ← cut, isDir]
  have same : char = slash := by
    have ends := congrArg List.getLast? (whole.symm.trans last)
    simpa using ends
  rw [more, same]
  exact ⟨core ++ [slash] ++ rest, (append_assoc _ _ _).symm⟩

/-- A later place does not touch what was created, unless a file is led to. -/
theorem Created.grows {rewritten : Location → Prop} {after : Tree} {touched touched' : List Location}
    (created : Created zlib map entry targetFile tree touched) (grows : Grows rewritten tree after)
    (more : touched ⊆ touched') (apart : endsInSlash map entry = false →
      mzIsZipEntrySymlink entry = false → ∀ here,
        resolve after true targetFile = .ok here → ¬ rewritten here) :
    Created zlib map entry targetFile after touched' := by
  rw [Created] at created ⊢
  split
  next isDir =>
    rw [if_pos isDir] at created
    exact stat_grows grows created
  next noDir =>
  rw [if_neg noDir] at created
  obtain ⟨content, known, here, touches, there⟩ := created
  refine ⟨content, known, here, more touches, ?_⟩
  split
  next isLink =>
    rw [if_pos isLink] at there
    exact ⟨walk_grows grows there.1 there.2, lookup_grows grows there.2 nofun⟩
  next noLink =>
    rw [if_neg noLink] at there
    have leads := walk_grows grows there.1 there.2
    refine ⟨leads, ?_⟩
    have inner : here ≠ [] := by
      rintro rfl
      cases there.2
    have isFile := there.2
    rw [lookup, if_neg inner] at isFile ⊢
    rcases grows here _ isFile with same | ⟨may, -⟩
    · exact same
    · exact absurd may (apart (Bool.eq_false_iff.mpr noDir) (Bool.eq_false_iff.mpr noLink) here leads)

/-- The account of a loop that began in `before`: only files that its entries lead to have been
rewritten, and what they have created is there, unless a later entry leads to the same file. -/
structure Accounted (zlib : ApplyPatch.Zlib) (args : ExtractArgs) (map : MemMapping)
    (before : ExtractState) (processed : List (ZipEntry × Bytes)) (after : ExtractState) : Prop where
  kept : Grows (fun here => ∃ done ∈ processed, BecomesFile args map done.1 ∧
    resolve after.tree true done.2 = .ok here) before.tree after.tree
  touched : before.touched ⊆ after.touched
  created : args.dryRun = false → ∀ entry targetFile behind,
    (entry, targetFile) :: behind <:+ processed → Faithful zlib args map entry →
    (BecomesFile args map entry → ∀ later ∈ behind, BecomesFile args map later.1 →
      resolve after.tree true later.2 ≠ resolve after.tree true targetFile) →
    Created zlib map entry targetFile after.tree after.touched

theorem Accounted.nil (state : ExtractState) : Accounted zlib args map state [] state :=
  ⟨.refl _ _, Subset.refl _, fun _ _ _ _ ends => absurd (suffix_nil.mp ends) nofun⟩

theorem Accounted.cons {before middle after : ExtractState} {processed : List (ZipEntry × Bytes)}
    (honest : Honest zlib calm args map entry targetFile before.tree .next middle)
    (touches : before.touched ⊆ middle.touched)
    (later : Accounted zlib args map middle processed after) :
    Accounted zlib args map before ((entry, targetFile) :: processed) after := by
  refine ⟨.trans ((honest.kept rfl).more ?_) (later.kept.more ?_),
    List.Subset.trans touches later.touched, ?_⟩
  · rintro here content isFile ⟨file, leads⟩
    have present : ∃ node, lookup middle.tree here = some node := by
      rw [lookup]
      split
      · exact ⟨_, rfl⟩
      · exact ⟨_, isFile⟩
    obtain ⟨node, known⟩ := present
    exact ⟨_, mem_cons_self, file, walk_grows later.kept leads known⟩
  · rintro here _ _ ⟨done, member, leads⟩
    exact ⟨done, mem_cons_of_mem _ member, leads⟩
  intro real other path behind ends faithful apart
  rcases suffix_cons_iff.mp ends with same | deeper
  · cases same
    refine (honest.created rfl real faithful).grows later.kept later.touched ?_
    rintro noDir noLink here leads ⟨done, member, file, same⟩
    refine apart ⟨noDir, ?_⟩ done member file (same.trans leads.symm)
    rw [becomesLink, noLink, Bool.and_false]
  · exact later.created real other path behind deeper faithful apart

/-- The loop reports what goes wrong, and accounts for its work otherwise; when the run is calm,
nothing goes wrong. -/
theorem extractLoop_accounts {zpath targetDir : Bytes} {entries : List ZipEntry} {seenMatch : Bool}
    {helper : MzPathHelper} (stable : Stable zlib) (table : Table map entries)
    (plain : ∀ entry ∈ entries, Under map zpath entry → args.dryRun = false →
      Plain zlib args map entry)
    (possible : calm → ∀ entry ∈ entries, Under map zpath entry → args.dryRun = false →
      Extractable zlib args map entry (targetPath targetDir zpath (entryName map entry)))
    (ready : Ready targetDir helper) :
    Ends zlib calm map.data
      (fun result after => (result.ok = true → result.ended = .finished) ∧
        (calm → result.ended ≠ .outside → result.ended = .finished) ∧
        (result.ended = .finished → Accounted zlib args map state result.processed after))
      (extractLoop args map zpath targetDir entries seenMatch helper) state := by
  induction entries generalizing seenMatch helper state with
  | nil => exact .ret ⟨fun _ => rfl, fun _ _ => rfl, fun _ => .nil state⟩
  | cons entry entries ih =>
    have plainLater := (forall_mem_cons.mp plain).2
    have possibleLater := fun known => (forall_mem_cons.mp (possible known)).2
    rw [extractLoop]
    by_cases under : underPath zpath (entryName map entry) = true
    · have isUnder := (underPath_iff (table.printed entry mem_cons_self)).mp under
      rw [if_pos under]
      refine (targetEntryPath_path (fun known _ orderly => (orderly.2.2 known).1) zpath _ ready
        trivial).bind fun value middle found => ?_
      obtain ⟨rfl, ⟨rfl, noisy⟩ | ⟨rfl, -⟩ | ⟨helper, rfl, readyNext⟩⟩ := found
      · exact .ret ⟨by simp, fun known => absurd known noisy, by simp⟩
      · exact .ret ⟨by simp, fun _ out => absurd rfl out, by simp⟩
      have work := @extractEntry_honest zlib calm map entry middle _ args stable
        (plain entry mem_cons_self isUnder) (fun known => possible known entry mem_cons_self isUnder)
        (table.data entry mem_cons_self) (targetPath_slash (table.inside entry mem_cons_self))
      refine ((work.both (touched_kept _ middle)).relax fun _ _ => trivial).bind
        fun step after worked => ?_
      obtain ⟨honest, touches⟩ := worked
      cases step with
      | leave ok =>
        refine .ret ⟨fun good => ?_, fun known => absurd (honest.calmly known) (by simp), by simp⟩
        dsimp only at good
        rw [good] at honest
        exact absurd rfl honest.reported
      | next =>
        refine (@ih after true helper table.tail plainLater possibleLater readyNext).bind
          fun later done accounts => ?_
        exact .ret ⟨accounts.1, accounts.2.1, fun finished =>
          .cons honest touches (accounts.2.2 finished)⟩
    · rw [if_neg under]
      split
      · exact .ret ⟨fun _ => rfl, fun _ _ => rfl, fun _ => .nil state⟩
      · exact ih table.tail plainLater possibleLater ready

end Entries

/-- The state and the result of an extraction. -/
def runExtraction (args : ExtractArgs) (map : MemMapping) (archive : ZipArchive)
    (zipDir targetDir : Bytes) (choices : List ExtractChoice) (tree : Tree) :
    ExtractState × Outcome Bool :=
  (extractMachine map.data).exec (mzExtractRecursive args map archive zipDir targetDir) choices
    (.initial tree)

/-- A result of true can be trusted when nothing went wrong while a file was written: in the end
every entry under the directory is there with its whole content, unless it is a file to which an
entry behind it leads as well. -/
theorem extraction_complete (zlib : ApplyPatch.Zlib) (stable : Stable zlib) (args : ExtractArgs)
    (map : MemMapping) (long : ENDHDR ≤ map.length) (spare : map.length + 92 ≤ 2 ^ 32)
    (archive : ZipArchive) (parsed : parseZipArchive map = .ok archive) (zipDir targetDir : Bytes)
    (tree : Tree) (choices : List ExtractChoice) (real : args.dryRun = false)
    (plain : ∀ entry ∈ archive.pEntries, Under map (zpathOf zipDir) entry →
      Plain zlib args map entry ∧ Faithful zlib args map entry)
    (orderly : ∀ step ∈ (extractMachine map.data).steps
      (mzExtractRecursive args map archive zipDir targetDir) choices (.initial tree),
      Documented zlib step ∧ Undisturbed step) (final : ExtractState)
    (success : runExtraction args map archive zipDir targetDir choices tree = (final, .done true))
    (entry : ZipEntry) (behind : List ZipEntry) (placed : entry :: behind <:+ archive.pEntries)
    (under : Under map (zpathOf zipDir) entry)
    (last : BecomesFile args map entry → ∀ later ∈ behind, Under map (zpathOf zipDir) later →
      BecomesFile args map later →
      resolve final.tree true (targetPath targetDir (zpathOf zipDir) (entryName map later)) ≠
        resolve final.tree true (targetPath targetDir (zpathOf zipDir) (entryName map entry))) :
    Created zlib map entry (targetPath targetDir (zpathOf zipDir) (entryName map entry))
      final.tree final.touched := by
  have table := parseZipArchive_table long spare parsed
  have selects := @extractSubtree_safe map.data targetDir (.initial tree) (Orderly zlib False) _ _ _
    args map archive zipDir False.elim (fun _ => ⟨False.elim, nil_prefix, nofun⟩) trivial
    (extractLoop_selects table .first False.elim nofun)
  have accounts := @extractSubtree_safe map.data targetDir (.initial tree) _ _ _ _ args map archive
    zipDir False.elim (fun _ => ⟨nofun, False.elim, nofun⟩) trivial
    (extractLoop_accounts stable table (fun entry member isUnder _ =>
      (plain entry member isUnder).1) False.elim .first)
  have safe : Ends zlib False map.data (fun value after => value = true →
      Accounted zlib args map (.initial tree)
        (subtree map (zpathOf zipDir) targetDir archive.pEntries) after)
      (mzExtractRecursive args map archive zipDir targetDir) (.initial tree) := by
    refine ((selects.both accounts).relax fun _ _ => trivial).bind
      fun result after facts => .ret fun good => ?_
    obtain ⟨selected, reported, -, accounted⟩ := facts
    have finished := reported good
    rw [← selected.all finished]
    exact accounted finished
  have ran : (extractMachine map.data).exec (mzExtractRecursive args map archive zipDir targetDir)
      choices (.initial tree) = (final, .done true) := success
  have accounted := (safe.exec trivial fun step member =>
    ⟨(orderly step member).1, (orderly step member).2, False.elim⟩).2 true (by rw [ran]) rfl
  rw [ran] at accounted
  refine accounted.created real entry _ (subtree map (zpathOf zipDir) targetDir behind) ?_
    (plain entry (placed.subset mem_cons_self) under).2 ?_
  · obtain ⟨front, whole⟩ := placed
    rw [← whole, subtree_append, subtree_cons_under under]
    exact suffix_append _ _
  · intro file later member becomes
    obtain ⟨other, inside, isUnder, rfl⟩ := mem_subtree.mp member
    exact last file other inside isUnder becomes

/-! ## A result that can be trusted and one that cannot -/

/-- The file `x` with two bytes. -/
def fileArchive : MemMapping :=
  ⟨4096, sampleZip [sampleFileEntry [0x78] [0x31, 0x32]], by decide +kernel⟩

def fileEntry : ZipEntry := ⟨1, 4174, 30, 2, 2, 0, 0, 0, 0, 0⟩

/-- A library that expands nothing. -/
def noInflate : ApplyPatch.Zlib := ⟨fun _ => none, fun _ _ _ => none⟩

theorem fileArchive_entries : (sampleParsed fileArchive).pEntries = [fileEntry] := by
  decide +kernel

/-- Extracting the file to `/t`. -/
def extractSample (choices : List ExtractChoice) : ExtractState × Outcome Bool :=
  runExtraction sampleArgs fileArchive (sampleParsed fileArchive) [] [0x2f, 0x74] choices sampleTree

theorem extraction_complete_file : (extractSample (replicate 40 .ok)).2 = .done true ∧
      Created noInflate fileArchive fileEntry
        (targetPath [0x2f, 0x74] (zpathOf []) (entryName fileArchive fileEntry))
        (extractSample (replicate 40 .ok)).1.tree (extractSample (replicate 40 .ok)).1.touched := by
  have success : (extractSample (replicate 40 .ok)).2 = .done true := by decide +kernel
  have ran : extractSample (replicate 40 .ok) =
      ((extractSample (replicate 40 .ok)).1, .done true) := Prod.ext rfl success
  refine ⟨success, extraction_complete noInflate nofun sampleArgs fileArchive
    (by decide +kernel) (by decide +kernel) (sampleParsed fileArchive) (by decide +kernel) []
    [0x2f, 0x74] sampleTree (replicate 40 .ok) rfl ?_ ?_ _ ran fileEntry []
    (fileArchive_entries ▸ suffix_rfl) nil_prefix fun _ _ member => absurd member not_mem_nil⟩
  · intro entry member _
    rw [fileArchive_entries, mem_singleton] at member
    subst member
    exact ⟨⟨fun _ => by decide, fun _ => .inl rfl⟩,
      ⟨nofun, fun _ isLink => absurd isLink (by decide)⟩⟩
  intro step member
  have fine := eq_of_mem_replicate (Machine.choice_mem _ member)
  have plainOps : ((extractMachine fileArchive.data).steps
      (mzExtractRecursive sampleArgs fileArchive (sampleParsed fileArchive) [] [0x2f, 0x74])
      (replicate 40 .ok) (.initial sampleTree)).all
      (fun step => match step.op with | .inflate _ _ => false | _ => true) = true := by
    decide +kernel
  have plainOp := all_eq_true.mp plainOps step member
  obtain ⟨op, choice, before⟩ := step
  subst fine
  refine ⟨fun input room result _ other => (nomatch other), ?_⟩
  cases op with
  | inflate input room => cases plainOp
  | read position count => exact fun _ => nofun
  | inflateInit => exact fun _ => nofun
  | write fd data => exact ⟨nofun, nofun⟩
  | utime path => exact fun _ _ => nofun
  | _ => trivial

/-- The first `write` to the file fails, the result is true and the file is empty. -/
theorem extraction_reports_success :
    (extractSample ([.ok, .ok, .ok, .ok, .ok, .ok, .ok, .fail] ++ replicate 10 .ok)).2 = .done true ∧
      parseZipArchive fileArchive = .ok (sampleParsed fileArchive) ∧
      [fileEntry] <:+ (sampleParsed fileArchive).pEntries ∧
      Under fileArchive (zpathOf []) fileEntry ∧
      ¬ Created noInflate fileArchive fileEntry
        (targetPath [0x2f, 0x74] (zpathOf []) (entryName fileArchive fileEntry))
        (extractSample ([.ok, .ok, .ok, .ok, .ok, .ok, .ok, .fail] ++ replicate 10 .ok)).1.tree
        (extractSample ([.ok, .ok, .ok, .ok, .ok, .ok, .ok, .fail] ++ replicate 10 .ok)).1.touched := by
  refine ⟨by decide +kernel, by decide +kernel, fileArchive_entries ▸ suffix_rfl, nil_prefix, ?_⟩
  intro created
  rw [Created, if_neg (by decide +kernel)] at created
  obtain ⟨content, known, here, -, found⟩ := created
  rw [if_neg (by decide)] at found
  have bytes : content = [0x31, 0x32] := by
    have stored : entryContent noInflate fileArchive fileEntry = some (entryData fileArchive fileEntry) :=
      if_pos rfl
    rw [stored] at known
    rw [← Option.some.inj known]
    decide +kernel
  have absent : stat (extractSample ([.ok, .ok, .ok, .ok, .ok, .ok, .ok, .fail] ++
      replicate 10 .ok)).1.tree true (targetPath [0x2f, 0x74] (zpathOf [])
        (entryName fileArchive fileEntry)) ≠ .ok (.file [0x31, 0x32]) := by
    decide +kernel
  exact absent (stat_iff.mpr ⟨here, found.1, bytes ▸ found.2⟩)

end PhilzTouch.Minzip
