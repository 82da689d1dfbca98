import PhilzTouch.ApplyPatch.BspatchAccess

/-!
# When the bsdiff decoder is safe, and when it returns

From what one control triple can come to (`tripleCalls_step`), what a whole run comes to, and from
that the patches on which `ApplyBSDiffPatchMem` stays in its buffers and those on which it returns.
-/

namespace PhilzTouch.ApplyPatch

open List

/-! ## Whole runs -/

section Runs

variable {newSize : Nat} {triple : Triple} {triples : List Triple} {place : Place} {ends : Ends}

theorem overruns_nil : ¬ Overruns newSize [] place := by
  rintro ⟨triple, rest, last, reaches, _⟩
  cases reaches

theorem overruns_finished (finished : newSize ≤ place.newpos) : ¬ Overruns newSize triples place := by
  rintro ⟨triple, rest, last, reaches, _⟩
  cases reaches <;> omega

theorem starves_finished (finished : newSize ≤ place.newpos) :
    ¬ Starves newSize ends triples place := by
  rintro ⟨rest, last, reaches, _⟩
  cases reaches <;> omega

section

variable (unfinished : place.newpos < newSize)

include unfinished

theorem starves_nil : Starves newSize ends [] place ↔ ends.control = .starved := by
  constructor
  · rintro ⟨rest, last, ⟨⟩, starves⟩
    exact starves
  · exact fun starved => ⟨_, _, .here unfinished, starved⟩

theorem overruns_unfit (unfit : ¬ Fits newSize triple place) :
    Overruns newSize (triple :: triples) place ↔ OverrunsAt newSize triple place := by
  constructor
  · rintro ⟨_, _, _, _ | ⟨_, fits, _⟩, overruns⟩
    · exact overruns
    · exact absurd fits unfit
  · exact fun overruns => ⟨_, _, _, .here unfinished, overruns⟩

theorem starves_unfit (unfit : ¬ Fits newSize triple place) :
    Starves newSize ends (triple :: triples) place ↔
      StarvesAt newSize ends place (triple :: triples) := by
  constructor
  · rintro ⟨_, _, _ | ⟨_, fits, _⟩, starves⟩
    · exact starves
    · exact absurd fits unfit
  · exact fun starves => ⟨_, _, .here unfinished, starves⟩

/-- A triple that fits does no harm itself. -/
theorem overruns_fits (size : newSize < 2 ^ 31) (fits : Fits newSize triple place) :
    Overruns newSize (triple :: triples) place ↔ Overruns newSize triples (place.after triple) := by
  constructor
  · rintro ⟨first, rest, last, _ | ⟨_, _, later⟩, overruns⟩
    · rcases overruns.2.2 with here | ⟨_, here⟩
      · exact absurd here (fits.2.2.1.not_overruns size)
      · exact absurd here (fits.2.2.2.not_overruns size)
    · exact ⟨_, _, _, later, overruns⟩
  · rintro ⟨first, rest, last, later, overruns⟩
    exact ⟨_, _, _, .next unfinished fits later, overruns⟩

theorem starves_fits (fits : Fits newSize triple place) :
    Starves newSize ends (triple :: triples) place ↔
      Starves newSize ends triples (place.after triple) := by
  constructor
  · rintro ⟨rest, last, _ | ⟨_, _, later⟩, starves⟩
    · rcases starves.2.2 with here | ⟨_, here⟩
      · exact absurd here fits.2.2.1.not_starves
      · exact absurd here fits.2.2.2.not_starves
    · exact ⟨_, _, later, starves⟩
  · rintro ⟨rest, last, later, starves⟩
    exact ⟨_, _, .next unfinished fits later, starves⟩

end

/-- What a run comes to, as far as it depends on overruns and starved streams; `enough` says that
there are rounds for all triples. -/
structure RunOutcome (inside : Access → Prop) (newSize : Nat) (overruns starves enough : Prop)
    (run : Traced Access Stop Bytes) : Prop where
  wild_iff : (∃ access ∈ run.trace, ¬ inside access) ↔ run.result = .error .wild
  full : ∀ out, run.result = .ok out → out.length = newSize
  overruns_of_wild : run.result = .error .wild → overruns
  wild_of_overruns : enough → overruns → run.result = .error .wild
  stuck : overruns ∨ starves → run.result = .error .wild ∨ run.result = .error .hang
  returns : enough → ¬ overruns → ¬ starves →
    (∃ out, run.result = .ok out) ∨ run.result = .error .failed

section Outcomes

variable {inside : Access → Prop} {overruns starves enough : Prop} {accesses : List Access}

theorem RunOutcome.wild (here : overruns) (outside : ∃ access ∈ accesses, ¬ inside access) :
    RunOutcome inside newSize overruns starves enough ⟨accesses, .error .wild⟩ where
  wild_iff := by simpa using outside
  full := nofun
  overruns_of_wild _ := here
  wild_of_overruns _ _ := rfl
  stuck _ := .inl rfl
  returns _ safe := absurd here safe

theorem RunOutcome.hang (safe : enough → ¬ overruns) (here : enough → starves)
    (all : ∀ access ∈ accesses, inside access) :
    RunOutcome inside newSize overruns starves enough ⟨accesses, .error .hang⟩ where
  wild_iff := by simpa using all
  full := nofun
  overruns_of_wild := nofun
  wild_of_overruns enough overruns := absurd overruns (safe enough)
  stuck _ := .inr rfl
  returns enough _ fed := absurd (here enough) fed

theorem RunOutcome.failed (safe : ¬ overruns) (fed : ¬ starves)
    (all : ∀ access ∈ accesses, inside access) :
    RunOutcome inside newSize overruns starves enough ⟨accesses, .error .failed⟩ where
  wild_iff := by simpa using all
  full := nofun
  overruns_of_wild := nofun
  wild_of_overruns _ overruns := absurd overruns safe
  stuck stuck := absurd stuck (not_or.mpr ⟨safe, fed⟩)
  returns _ _ _ := .inr rfl

theorem RunOutcome.ok {out : Bytes} (safe : ¬ overruns) (fed : ¬ starves)
    (full : out.length = newSize) :
    RunOutcome inside newSize overruns starves enough (pure out) where
  wild_iff := by simp
  full := by rintro _ ⟨⟩; exact full
  overruns_of_wild := nofun
  wild_of_overruns _ overruns := absurd overruns safe
  stuck stuck := absurd stuck (not_or.mpr ⟨safe, fed⟩)
  returns _ _ _ := .inl ⟨out, rfl⟩

theorem RunOutcome.after {rest : Traced Access Stop Bytes} (all : ∀ access ∈ accesses, inside access)
    (later : RunOutcome inside newSize overruns starves enough rest) :
    RunOutcome inside newSize overruns starves enough ⟨accesses ++ rest.trace, rest.result⟩ :=
  { later with
    wild_iff := by
      rw [← later.wild_iff]
      constructor
      · rintro ⟨access, member, outside⟩
        rcases mem_append.mp member with early | late
        · exact absurd (all access early) outside
        · exact ⟨access, late, outside⟩
      · rintro ⟨access, member, outside⟩
        exact ⟨access, mem_append_right _ member, outside⟩ }

end Outcomes

theorem tripleCalls_run {fuel patchSize : Nat} {old : Bytes} (calls : 2 ≤ fuel)
    (size : newSize < 2 ^ 31) (rounds : Nat) {oldpos : Int} {out : Bytes}
    {cstream dstream estream : BzState} (copen : cstream.ended = false)
    (dopen : dstream.ended = false) (eopen : estream.ended = false) (room : out.length ≤ newSize) :
    RunOutcome (Access.Inside patchSize newSize old.length) newSize
      (Overruns newSize (controlTriples cstream.out)
        ⟨out.length, dstream.out.length, estream.out.length⟩)
      (Starves newSize ⟨cstream.fin, dstream.fin, estream.fin⟩ (controlTriples cstream.out)
        ⟨out.length, dstream.out.length, estream.out.length⟩)
      ((controlTriples cstream.out).length < rounds)
      (tripleCalls fuel old newSize rounds oldpos out cstream dstream estream) := by
  induction rounds generalizing oldpos out cstream dstream estream with
  | zero => exact .hang (by omega) (by omega) (forall_mem_nil _)
  | succ rounds ih =>
    rcases lt_or_ge out.length newSize with unfinished | finished
    swap
    · rw [tripleCalls, if_pos (by omega)]
      exact .ok (overruns_finished finished) (starves_finished finished) (by omega)
    rcases lt_or_ge cstream.out.length 24 with short | control
    · rw [tripleCalls, if_neg (by omega), controlTriples_of_lt short]
      have read : (fillOwn fuel 24 cstream).result =
          .error (if cstream.fin = .starved then .hang else .failed) := by
        rw [fillOwn, fillCalls_of_lt calls copen short]
        rfl
      rw [Traced.bind_error read]
      by_cases starved : cstream.fin = .starved
      · rw [if_pos starved]
        exact .hang (fun _ => overruns_nil) (fun _ => (starves_nil unfinished).mpr starved)
          (forall_mem_nil _)
      · rw [if_neg starved]
        exact .failed overruns_nil (fun starves => starved ((starves_nil unfinished).mp starves))
          (forall_mem_nil _)
    rw [controlTriples_of_le control]
    have step := @tripleCalls_step fuel newSize rounds patchSize old out oldpos cstream dstream
      estream calls size unfinished copen dopen eopen control (controlTriples (cstream.out.drop 24))
    generalize tripleCalls fuel old newSize (rounds + 1) oldpos out cstream dstream estream = run
      at step ⊢
    cases step with
    | overran here outside =>
      exact .wild ⟨_, _, _, .here unfinished, here⟩ outside
    | starved safe here unfit all =>
      exact .hang (fun _ overruns => safe ((overruns_unfit unfinished unfit).mp overruns))
        (fun _ => (starves_unfit unfinished unfit).mpr here) all
    | failed safe fed unfit all =>
      exact .failed (fun overruns => safe ((overruns_unfit unfinished unfit).mp overruns))
        (fun starves => fed ((starves_unfit unfinished unfit).mp starves)) all
    | goesOn fit all continues =>
      obtain ⟨oldpos, out', length, rfl⟩ := continues
      rw [overruns_fits unfinished size fit, starves_fits unfinished fit, length_cons,
        Nat.add_lt_add_iff_right]
      have still : out'.length ≤ newSize := length ▸ fit.2.2.2.room
      have later := @ih oldpos out' { cstream with out := cstream.out.drop 24 }
        { dstream with out := dstream.out.drop (firstTriple cstream.out).add.toNat }
        { estream with out := estream.out.drop (firstTriple cstream.out).copy.toNat }
        copen dopen eopen still
      simp only [length, length_drop] at later
      exact later.after all

end Runs

/-! ## The decoder without accesses -/

section Refinement

variable {fuel : Nat} {old : Bytes} {newSize : Int}

/-- What `FillBuffer` hands over, with the stream as the decompressor keeps it. -/
def Opened (filled : Bytes × BzStream) : Bytes × BzState := (filled.1, .start filled.2)

theorem fillCalls_result (calls : 2 ≤ fuel) (size : Nat) (stream : BzStream) :
    (fillCalls fuel size (.start stream) []).result.map
        (fun left => ((fillCalls fuel size (.start stream) []).bytes, left)) =
      (fillBuffer size stream).map Opened := by
  unfold fillBuffer
  by_cases enough : size ≤ stream.1.length
  · rw [if_pos enough, fillCalls_of_le (Nat.lt_of_lt_of_le Nat.two_pos calls) rfl enough]
    rfl
  rw [if_neg enough, fillCalls_of_lt calls rfl (Nat.lt_of_not_le enough)]
  by_cases starved : stream.2 = .starved
  · simp only [BzState.start, starved, if_true]
    rfl
  · simp only [BzState.start, starved, if_false]
    rfl

theorem fillChecked_result (calls : 2 ≤ fuel) {newpos : Nat} {count : Int} (stream : BzStream)
    (low : 0 ≤ count) : (fillChecked fuel newSize newpos count (.start stream)).result =
      (checkRoom newpos count newSize stream >>= fun _ =>
        fillBuffer count.toNat stream).map Opened := by
  unfold fillChecked checkRoom
  by_cases beyond : wrap (newpos + count) > newSize
  · rw [if_pos beyond, if_pos beyond]
    rfl
  rw [if_neg beyond, if_neg beyond, fillOutput]
  have written : ((fillCalls fuel count.toNat (.start stream) []).bytes.length : Int) =
      min count stream.1.length := by
    rcases lt_or_ge stream.1.length count.toNat with less | enough
    · rw [fillCalls_of_lt calls rfl less]
      change (stream.1.length : Int) = _
      omega
    · rw [fillCalls_of_le (Nat.lt_of_lt_of_le Nat.two_pos calls) rfl enough]
      change ((stream.1.take count.toNat).length : Int) = _
      rw [length_take]
      omega
  dsimp only
  rw [written]
  split
  · rfl
  · exact fillCalls_result calls count.toNat stream

theorem fillChecked_bind (calls : 2 ≤ fuel) {newpos : Nat} {count : Int} {stream : BzStream}
    {rest : Bytes × BzState → Traced Access Stop Bytes} {plain : Bytes × BzStream → Except Stop Bytes}
    (low : 0 ≤ count) (later : ∀ filled, (rest (Opened filled)).result = plain filled) :
    (fillChecked fuel newSize newpos count (.start stream) >>= rest).result =
      (checkRoom newpos count newSize stream >>= fun _ =>
        fillBuffer count.toNat stream >>= plain) := by
  rw [Traced.bind_result, fillChecked_result calls stream low]
  generalize checkRoom newpos count newSize stream = check
  generalize fillBuffer count.toNat stream = filled
  match check, filled with
  | .error why, _ => rfl
  | .ok (), .error why => rfl
  | .ok (), .ok filled => exact later filled

theorem tripleCalls_result (calls : 2 ≤ fuel) {rounds : Nat} {oldpos : Int} {out : Bytes}
    {cstream dstream estream : BzStream} :
    (tripleCalls fuel old newSize rounds oldpos out (.start cstream) (.start dstream)
      (.start estream)).result =
      applyTriples old newSize rounds oldpos out cstream dstream estream := by
  induction rounds generalizing oldpos out cstream dstream estream with
  | zero => rfl
  | succ rounds ih =>
    rw [applyTriples, tripleCalls]
    by_cases finished : newSize ≤ out.length
    · rw [if_pos finished, if_pos finished]
      rfl
    rw [if_neg finished, if_neg finished, Traced.bind_result]
    have own : (fillOwn fuel 24 (.start cstream)).result = _ := fillCalls_result calls 24 cstream
    rw [own]
    generalize fillBuffer 24 cstream = control
    rcases control with why | ⟨buf, cstream⟩
    · rfl
    change Traced.result (ite _ _ _) = ite _ _ _
    by_cases negative : offtin buf < 0 ∨ offtin (buf.drop 8) < 0
    · rw [if_pos negative, if_pos negative]
      rfl
    rw [if_neg negative, if_neg negative]
    refine fillChecked_bind calls (Int.not_lt.mp fun low => negative (.inl low)) fun diff => ?_
    refine fillChecked_bind calls (Int.not_lt.mp fun low => negative (.inr low)) fun extra => ?_
    exact ih

end Refinement

/-! ## Hostile patches -/

/-- What a header that is not refused announces. -/
structure Streams where
  newSize : Nat
  control : BzStream
  diff : BzStream
  extra : BzStream
  deriving DecidableEq

/-- The streams behind a header with the right magic and no negative number. -/
def patchStreams (bz : Bz2) (patch : Value) (patchOffset : Int) : Option Streams :=
  let ctrlLen := headerNumber patch patchOffset 8
  let dataLen := headerNumber patch patchOffset 16
  let newSize := headerNumber patch patchOffset 24
  if patch.read patchOffset 8 ≠ bsdiffMagic ∨ ctrlLen < 0 ∨ dataLen < 0 ∨ newSize < 0 then none
  else
    let extraStart := patchOffset + 32 + ctrlLen + dataLen
    some ⟨newSize.toNat, bz.decompress (patch.read (patchOffset + 32) ctrlLen.toNat),
      bz.decompress (patch.read (patchOffset + 32 + ctrlLen) dataLen.toNat),
      bz.decompress (patch.read extraStart ((patch.data.length - extraStart) % 2 ^ 32).toNat)⟩

namespace Streams

variable (streams : Streams)

/-- Before the first triple. -/
def place : Place := ⟨0, streams.diff.1.length, streams.extra.1.length⟩

def ends : Ends := ⟨streams.control.2, streams.diff.2, streams.extra.2⟩

/-- Some triple writes behind the output. -/
def Overrun : Prop := Overruns streams.newSize (controlTriples streams.control.1) streams.place

/-- Some stream is asked for more bytes than its input holds. -/
def Starved : Prop :=
  Starves streams.newSize streams.ends (controlTriples streams.control.1) streams.place

/-- The loop over the triples. -/
def run (fuel : Nat) (old : Bytes) : Traced Access Stop Bytes :=
  tripleCalls (fuel + 2) old streams.newSize fuel 0 [] (.start streams.control)
    (.start streams.diff) (.start streams.extra)

end Streams

/-- The header lies in the patch, and so do the ranges that it announces. -/
def PatchInside (patch : Value) (patchOffset : Int) : Prop :=
  0 ≤ patchOffset ∧ patchOffset + 8 ≤ patch.data.length ∧
    (patch.read patchOffset 8 = bsdiffMagic → patchOffset + 32 ≤ patch.data.length ∧
      (0 ≤ headerNumber patch patchOffset 8 → 0 ≤ headerNumber patch patchOffset 16 →
        0 ≤ headerNumber patch patchOffset 24 →
          patchOffset + 32 + headerNumber patch patchOffset 8 + headerNumber patch patchOffset 16 ≤
            patch.data.length))

section Hostile

variable {bz : Bz2} {old : Bytes} {patch : Value} {patchOffset : Int}

/-- The reads of the patch. -/
def patchReads (patch : Value) (patchOffset : Int) : List Access :=
  if patch.read patchOffset 8 ≠ bsdiffMagic then [.patch patchOffset 8]
  else
    let ctrlLen := headerNumber patch patchOffset 8
    let dataLen := headerNumber patch patchOffset 16
    let newSize := headerNumber patch patchOffset 24
    if ctrlLen < 0 ∨ dataLen < 0 ∨ newSize < 0 then
      [.patch patchOffset 8, .patch (patchOffset + 8) 24]
    else
      let extraStart := patchOffset + 32 + ctrlLen + dataLen
      [.patch patchOffset 8, .patch (patchOffset + 8) 24, .patch (patchOffset + 32) ctrlLen.toNat,
        .patch (patchOffset + 32 + ctrlLen) dataLen.toNat,
        .patch extraStart ((patch.data.length - extraStart) % 2 ^ 32).toNat]

theorem patchReads_inside_iff {newSize oldSize : Nat} : (∀ access ∈ patchReads patch patchOffset,
      access.Inside patch.data.length newSize oldSize) ↔ PatchInside patch patchOffset := by
  unfold patchReads PatchInside
  by_cases magic : patch.read patchOffset 8 = bsdiffMagic
  swap
  · simp [magic, Access.Inside]
  by_cases negative : headerNumber patch patchOffset 8 < 0 ∨ headerNumber patch patchOffset 16 < 0 ∨
    headerNumber patch patchOffset 24 < 0
  · simp only [magic, negative, Access.Inside, ne_eq, not_true_eq_false, if_false, if_true,
      forall_mem_cons, not_mem_nil, false_imp_iff, implies_true, true_imp_iff, and_true]
    omega
  · simp only [magic, negative, Access.Inside, ne_eq, not_true_eq_false, if_false,
      forall_mem_cons, not_mem_nil, false_imp_iff, implies_true, true_imp_iff, and_true]
    omega

/-- The call reads the header, and unless it refuses it, the triples follow. -/
theorem patchMemCalls_eq (fuel : Nat) :
    patchMemCalls fuel bz old patch patchOffset = match patchStreams bz patch patchOffset with
      | none => ⟨patchReads patch patchOffset, .error .failed⟩
      | some streams => ⟨patchReads patch patchOffset ++ (streams.run fuel old).trace,
          (streams.run fuel old).result⟩ := by
  unfold patchMemCalls patchStreams patchReads
  rw [Traced.touch_then]
  by_cases magic : patch.read patchOffset 8 = bsdiffMagic
  swap
  · simp [magic]
  rw [if_neg (not_not.mpr magic), if_neg (not_not.mpr magic), Traced.touch_then]
  by_cases negative : headerNumber patch patchOffset 8 < 0 ∨ headerNumber patch patchOffset 16 < 0 ∨
    headerNumber patch patchOffset 24 < 0
  · simp [magic, negative]
  · have size := Int.toNat_of_nonneg (show 0 ≤ headerNumber patch patchOffset 24 by omega)
    simp only [magic, negative, ne_eq, not_true_eq_false, false_or, if_false, Traced.touch_then,
      Streams.run, size]
    rfl

/-- The two models of the function agree. -/
theorem patchMemCalls_result : ∃ fuel, (patchMemCalls fuel bz old patch patchOffset).result =
      applyBSDiffPatchMem bz old patch patchOffset := by
  have plain : applyBSDiffPatchMem bz old patch patchOffset =
      match patchStreams bz patch patchOffset with
      | none => .error .failed
      | some streams => applyTriples old streams.newSize (streams.control.1.length + 1) 0 []
          streams.control streams.diff streams.extra := by
    unfold applyBSDiffPatchMem patchStreams
    by_cases magic : patch.read patchOffset 8 = bsdiffMagic
    swap
    · simp [magic]
    by_cases negative : headerNumber patch patchOffset 8 < 0 ∨
      headerNumber patch patchOffset 16 < 0 ∨ headerNumber patch patchOffset 24 < 0
    · simp only [headerNumber] at negative
      simp [magic, negative, headerNumber]
    · have size := Int.toNat_of_nonneg (show 0 ≤ headerNumber patch patchOffset 24 by omega)
      simp only [headerNumber] at negative size
      simp only [magic, negative, ne_eq, not_true_eq_false, false_or, if_false, headerNumber, size]
  rw [plain]
  simp only [patchMemCalls_eq]
  cases accepted : patchStreams bz patch patchOffset with
  | none => exact ⟨0, rfl⟩
  | some streams => exact ⟨_, tripleCalls_result (Nat.le_add_left 2 _)⟩

variable {streams : Streams}

theorem patchStreams_newSize (accepted : patchStreams bz patch patchOffset = some streams) :
    headerNumber patch patchOffset 24 = streams.newSize ∧ streams.newSize < 2 ^ 31 := by
  have high : headerNumber patch patchOffset 24 < 2 ^ 31 := offtin_lt _
  unfold patchStreams at accepted
  dsimp only at accepted
  split at accepted
  · cases accepted
  · cases accepted
    dsimp only
    omega

theorem run_outcome (size : streams.newSize < 2 ^ 31) (fuel : Nat) :
    RunOutcome (Access.Inside patch.data.length streams.newSize old.length) streams.newSize
      streams.Overrun streams.Starved ((controlTriples streams.control.1).length < fuel)
      (streams.run fuel old) :=
  @tripleCalls_run streams.newSize (fuel + 2) patch.data.length old (Nat.le_add_left 2 fuel) size
    fuel 0 [] (.start streams.control) (.start streams.diff) (.start streams.extra) rfl rfl rfl
    (Nat.zero_le _)

end Hostile

/-- Every access of the decoder stays in its buffer, and success means that the output is complete,
exactly if the announced ranges lie in the patch and no triple writes behind the output. -/
theorem patchMemCalls_safe_iff (bz : Bz2) (old : Bytes) (patch : Value) (patchOffset : Int) :
    (∀ fuel, (∀ access ∈ (patchMemCalls fuel bz old patch patchOffset).trace,
        access.Inside patch.data.length (headerNumber patch patchOffset 24).toNat old.length) ∧
      ∀ out, (patchMemCalls fuel bz old patch patchOffset).result = .ok out →
        out.length = headerNumber patch patchOffset 24) ↔ PatchInside patch patchOffset ∧
      ∀ streams, patchStreams bz patch patchOffset = some streams → ¬ streams.Overrun := by
  rw [← @patchReads_inside_iff patch patchOffset (headerNumber patch patchOffset 24).toNat old.length]
  simp only [patchMemCalls_eq]
  cases accepted : patchStreams bz patch patchOffset with
  | none => simp
  | some streams =>
    obtain ⟨announced, size⟩ := patchStreams_newSize accepted
    have outcome := fun fuel => @run_outcome old patch streams size fuel
    simp only [announced, Int.toNat_natCast, Option.some.injEq, forall_eq', mem_append,
      Int.ofNat_inj]
    constructor
    · intro safe
      refine ⟨fun access member => (safe 0).1 access (.inl member), fun overruns => ?_⟩
      have enough := Nat.lt_succ_self (controlTriples streams.control.1).length
      obtain ⟨access, member, outside⟩ :=
        (outcome _).wild_iff.mpr ((outcome _).wild_of_overruns enough overruns)
      exact outside ((safe _).1 access (.inr member))
    · rintro ⟨reads, safe⟩ fuel
      refine ⟨fun access member => member.elim (reads access) fun later => ?_, (outcome fuel).full⟩
      by_contra outside
      exact safe ((outcome fuel).overruns_of_wild
        ((outcome fuel).wild_iff.mp ⟨access, later, outside⟩))

/-- A format that stores its data as they are; empty input is no complete stream. -/
def stored : Bz2 := ⟨id, fun data => (data, if data = [] then .starved else .streamEnd)⟩

/-- A patch that is nothing but its magic, with zeros behind it. -/
def magicOnly : Value := ⟨bsdiffMagic, fun _ => 0, by decide⟩

/-- The number 2^31 - 1. -/
def largest : Bytes := [255, 255, 255, 127, 0, 0, 0, 0]

/-- Two triples for two bytes of output: add one byte, then 2^31 - 1 bytes.  There are three. -/
def wrappingPatch : Value where
  data := bsdiffMagic ++ Bytes.ofNatLE 8 48 ++ Bytes.ofNatLE 8 3 ++ Bytes.ofNatLE 8 2 ++
    Bytes.ofNatLE 8 1 ++ replicate 16 0 ++ largest ++ replicate 16 0 ++ [1, 2, 3]
  around _ := 0
  fits := by decide

/-- The decoder reads behind the short patch, and writes behind the output of the other. -/
theorem patchMemCalls_unsafe : (.patch 8 24 ∈ (patchMemCalls 0 stored [] magicOnly 0).trace ∧
      ¬ (Access.patch 8 24).Inside magicOnly.data.length 0 0) ∧
    .output 1 2 ∈ (patchMemCalls 2 stored [] wrappingPatch 0).trace ∧
      headerNumber wrappingPatch 0 24 = 2 ∧
      ¬ (Access.output 1 2).Inside wrappingPatch.data.length 2 0 := by
  refine ⟨⟨by decide +kernel, ?_⟩, by decide +kernel, by decide +kernel, ?_⟩
  · rintro ⟨_, room⟩
    exact absurd room (by decide)
  · exact (by decide : ¬ 1 + 2 ≤ 2)

/-- The decoder has come to an end, with a patched file or an error code. -/
def Returned (run : Traced Access Stop Bytes) : Prop :=
  run.result ≠ .error .hang ∧ run.result ≠ .error .wild

/-- The decoder returns exactly if no triple writes behind the output and no stream is asked for
more bytes than its input holds. -/
theorem patchMemCalls_returns_iff (bz : Bz2) (old : Bytes) (patch : Value) (patchOffset : Int) :
    (∃ fuel, Returned (patchMemCalls fuel bz old patch patchOffset)) ↔
      ∀ streams, patchStreams bz patch patchOffset = some streams →
        ¬ streams.Overrun ∧ ¬ streams.Starved := by
  simp only [patchMemCalls_eq, Returned]
  cases accepted : patchStreams bz patch patchOffset with
  | none => simp
  | some streams =>
    have outcome := fun fuel => @run_outcome old patch streams (patchStreams_newSize accepted).2 fuel
    simp only [Option.some.injEq, forall_eq']
    constructor
    · rintro ⟨fuel, returned, tame⟩
      rw [← not_or]
      intro stuck
      exact ((outcome fuel).stuck stuck).elim tame returned
    rintro ⟨safe, fed⟩
    have enough := Nat.lt_succ_self (controlTriples streams.control.1).length
    refine ⟨(controlTriples streams.control.1).length + 1, ?_⟩
    rcases (outcome _).returns enough safe fed with ⟨out, ok⟩ | failed
    · rw [ok]
      exact ⟨nofun, nofun⟩
    · rw [failed]
      exact ⟨nofun, nofun⟩

/-- One byte of output, and no input for the decompressor. -/
def noInput : Value :=
  ⟨bsdiffMagic ++ replicate 16 0 ++ Bytes.ofNatLE 8 1, fun _ => 0, by decide⟩

/-- The decoder waits for the control stream for ever. -/
theorem patchMemCalls_hangs : ¬ ∃ fuel, Returned (patchMemCalls fuel stored [] noInput 0) := by
  have accepted : patchStreams stored noInput 0 =
      some ⟨1, ([], .starved), ([], .starved), ([], .starved)⟩ := by decide +kernel
  have starved : (Streams.mk 1 ([], .starved) ([], .starved) ([], .starved)).Starved :=
    (starves_nil (Nat.zero_lt_one)).mpr rfl
  rintro ⟨fuel, returned⟩
  rw [patchMemCalls_eq, accepted] at returned
  obtain ⟨returned, tame⟩ := returned
  exact ((@run_outcome [] noInput _ (by decide) fuel).stuck (.inr starved)).elim tame returned

end PhilzTouch.ApplyPatch
