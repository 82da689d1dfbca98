import PhilzTouch.ApplyPatch.Imgpatch

/-!
# When an image patch reports incomplete output

`ApplyImagePatch` against a sink that may answer anything.  The result of `ApplyBSDiffPatch` is
ignored for a `CHUNK_NORMAL`, so that a chunk whose inner patch fails, or whose bytes the sink
does not take, is missing from the output and from the hash of a run that returns 0.
-/

namespace PhilzTouch.ApplyPatch

open List

/-- What a sink answers when it is given some bytes. -/
abbrev Answer (_ : Bytes) : Type := Int

/-- The sink as an operation of the outside. -/
def askSink : Sink Bytes Answer Unit := fun data token => do
  let count ← Prog.call data
  .ret (count, token)

/-- A sink with arbitrary answers, and a list of what it was given and what it answered. -/
def sinkMachine : Machine Bytes Answer where
  Choice := Int
  State := List (Bytes × Int)
  perform data count log := (log ++ [(data, count)], count)

section Chunks

variable (zlib : Zlib) (bz : Bz2) (old patch : Value) (bonus : Option Value)

/-- The buffers that a chunk is to give to the sink. -/
def chunkPieces (i : Nat) : Chunk → Except Stop (List Bytes)
  | .normal srcStart srcLen patchOffset =>
    (applyBSDiffPatchMem bz (signedRead old srcStart srcLen) patch (wrap patchOffset)).map ([·])
  | .raw data => .ok [data]
  | .deflate header => deflatePieces zlib bz old patch (bonusFor bonus i) header

/-- Some buffers before other output. -/
def joined (pieces : Except Stop (List Bytes)) (rest : Except Stop Bytes) : Except Stop Bytes :=
  match pieces with
  | .error why => .error why
  | .ok pieces => rest.map (pieces.flatten ++ ·)

/-- The complete output of all chunks from a record on. -/
def chunksOutput : (left i : Nat) → (pos : Int) → Except Stop Bytes
  | 0, _, _ => .ok []
  | left + 1, i, pos =>
    match readChunk patch pos with
    | .error why => .error why
    | .ok (chunk, next) =>
      joined (chunkPieces zlib bz old patch bonus i chunk) (chunksOutput left (i + 1) next)

/-- The sink was given, and took, some complete output, and it was hashed. -/
def Delivered (made : Except Stop Bytes) (sent : List (Bytes × Int)) (hash : Bytes) : Prop :=
  made = .ok (sent.map Prod.fst).flatten ∧ made = .ok hash ∧ ∀ pair ∈ sent, pair.1.length ≤ pair.2

/-- What the sink has seen after a run, and what the run has returned, if it has. -/
def imageRun (answers : Nat → Int) : List (Bytes × Int) × Option (Applied Unit) :=
  sinkMachine.play (applyImagePatch zlib bz old patch bonus askSink () []) answers []

/-- A run that returns 0 has given the sink the complete output of every listed chunk, in order;
the sink has taken it, and the hash was fed with it. -/
def Reports (answers : Nat → Int) : Prop :=
  let run := imageRun zlib bz old patch bonus answers
  ∀ applied, run.2 = some applied → applied.result = 0 →
    Delivered (chunksOutput zlib bz old patch bonus (chunkCount patch) 0 12) run.1 applied.ctx

/-! ## Chunks that are taken -/

/-- The answers that are left after some buffers. -/
def later (count : Nat) (answers : Nat → Int) : Nat → Int := fun time => answers (time + count)

/-- The sink takes each buffer as a whole. -/
def PiecesTaken : List Bytes → (answers : Nat → Int) → Prop
  | [], _ => True
  | piece :: pieces, answers => answers 0 = piece.length ∧ PiecesTaken pieces (later 1 answers)

/-- The loop gets behind a chunk: the buffers of a `CHUNK_RAW` or `CHUNK_DEFLATE` can be made and
are taken; the inner patch of a `CHUNK_NORMAL` returns, with whatever result. -/
def Passes (answers : Nat → Int) (pieces : Except Stop (List Bytes)) : Chunk → Prop
  | .normal _ _ _ => pieces ≠ .error .hang ∧ pieces ≠ .error .wild
  | _ => ∃ made, pieces = .ok made ∧ PiecesTaken made answers

/-- The inner patch of a `CHUNK_NORMAL` can be applied, and the sink takes its output. -/
def NormalTaken (answers : Nat → Int) (pieces : Except Stop (List Bytes)) : Chunk → Prop
  | .normal _ _ _ => ∃ new, pieces = .ok [new] ∧ new.length ≤ answers 0
  | _ => True

/-- The number of buffers that the sink is given. -/
def pieceCount : Except Stop (List Bytes) → Nat
  | .ok pieces => pieces.length
  | .error _ => 0

/-- The loop gets through: every record can be read, and every chunk lets it pass. -/
def GoesThrough : (left i : Nat) → (pos : Int) → (answers : Nat → Int) → Prop
  | 0, _, _, _ => True
  | left + 1, i, pos, answers =>
    match readChunk patch pos with
    | .error _ => False
    | .ok (chunk, next) =>
      let pieces := chunkPieces zlib bz old patch bonus i chunk
      Passes answers pieces chunk ∧ GoesThrough left (i + 1) next (later (pieceCount pieces) answers)

/-- Every `CHUNK_NORMAL` is taken. -/
def NormalsTaken : (left i : Nat) → (pos : Int) → (answers : Nat → Int) → Prop
  | 0, _, _, _ => True
  | left + 1, i, pos, answers =>
    match readChunk patch pos with
    | .error _ => True
    | .ok (chunk, next) =>
      let pieces := chunkPieces zlib bz old patch bonus i chunk
      NormalTaken answers pieces chunk ∧
        NormalsTaken left (i + 1) next (later (pieceCount pieces) answers)

end Chunks

/-! ## The loop -/

section Loop

variable {answers : Nat → Int} {log : List (Bytes × Int)} {ctx data : Bytes}
  {run : List (Bytes × Int) × Option (Applied Unit)}

theorem play_ask (rest : Int × Unit → Prog Bytes Answer (Applied Unit)) :
    sinkMachine.play (askSink data () >>= rest) answers log =
      sinkMachine.play (rest (answers 0, ())) (later 1 answers) (log ++ [(data, answers 0)]) := rfl

/-- A run that does not return 0. -/
def Fails (run : List (Bytes × Int) × Option (Applied Unit)) : Prop :=
  ∀ applied, run.2 = some applied → applied.result ≠ 0

theorem fails_ret {result : Int} (nonzero : result ≠ 0) :
    Fails (sinkMachine.play (.ret ⟨result, (), ctx⟩) answers log) := by
  rintro applied ⟨⟩
  exact nonzero

/-- A run gets through just if `through` holds, and has then delivered what was made just if
`taken` does. -/
structure CarriesOut (through taken : Prop) (made : Except Stop Bytes) (log : List (Bytes × Int))
    (ctx : Bytes) (run : List (Bytes × Int) × Option (Applied Unit)) : Prop where
  fails : ¬ through → Fails run
  done : through → ∃ sent hash, run = (log ++ sent, some ⟨0, (), ctx ++ hash⟩) ∧
    (Delivered made sent hash ↔ taken)

variable {through taken : Prop} {made : Except Stop Bytes}

theorem CarriesOut.stuck (never : ¬ through) (fails : Fails run) :
    CarriesOut through taken made log ctx run :=
  ⟨fun _ => fails, fun wrong => absurd wrong never⟩

/-- A chunk that sends `sent` and hashes nothing, before the others. -/
theorem CarriesOut.lost {through' taken' : Prop} {made' : Except Stop Bytes}
    {log' sent : List (Bytes × Int)} (rest : CarriesOut through' taken' made' log' ctx run)
    (logged : log' = log ++ sent) (passes : through ↔ through') (never : ¬ taken)
    (missing : ∀ sent' hash, ¬ Delivered made (sent ++ sent') hash) :
    CarriesOut through taken made log ctx run := by
  refine ⟨fun stops => rest.fails (mt passes.mpr stops), fun holds => ?_⟩
  obtain ⟨sent', hash, ran, _⟩ := rest.done (passes.mp holds)
  refine ⟨sent ++ sent', hash, ?_, iff_of_false (missing sent' hash) never⟩
  rw [ran, logged, append_assoc]

/-- Output that was delivered does not matter for what follows. -/
theorem delivered_cons {answer : Int} {sent : List (Bytes × Int)} {hash : Bytes}
    (enough : data.length ≤ answer) :
    Delivered (made.map (data ++ ·)) ((data, answer) :: sent) (data ++ hash) ↔
      Delivered made sent hash := by
  unfold Delivered
  rw [forall_mem_cons, and_iff_right enough]
  cases made with
  | error why => exact iff_of_false (fun wrong => by cases wrong.1) fun wrong => by cases wrong.1
  | ok output => simp [Except.map]

/-- A buffer that the sink takes, before what follows. -/
theorem CarriesOut.buffer {through' taken' : Prop} {answer : Int} (enough : data.length ≤ answer)
    (rest : CarriesOut through' taken' made (log ++ [(data, answer)]) (ctx ++ data) run)
    (passes : through ↔ through') (takes : taken ↔ taken') :
    CarriesOut through taken (made.map (data ++ ·)) log ctx run := by
  refine ⟨fun stops => rest.fails (mt passes.mpr stops), fun holds => ?_⟩
  obtain ⟨sent, hash, ran, delivered⟩ := rest.done (passes.mp holds)
  refine ⟨(data, answer) :: sent, data ++ hash, ?_, ?_⟩
  · rw [ran, append_assoc, append_assoc, singleton_append]
  · rw [delivered_cons enough, delivered, takes]

@[simp] theorem joined_nil : joined (.ok []) made = made := by
  cases made <;> rfl

@[simp] theorem joined_cons (piece : Bytes) (pieces : List Bytes) :
    joined (.ok (piece :: pieces)) made = (joined (.ok pieces) made).map (piece ++ ·) := by
  cases made <;> simp [joined, Except.map]

variable {rest : Applied Unit → Prog Bytes Answer (Applied Unit)} {through taken : (Nat → Int) → Prop}

/-- A `CHUNK_NORMAL`, followed by the rest of the loop. -/
theorem applyBSDiffPatch_carriesOut {bz : Bz2} {source : Bytes} {patch : Value} {offset : Int}
    {pieces : Except Stop (List Bytes)} (srcStart srcLen patchOffset : Nat)
    (given : (applyBSDiffPatchMem bz source patch offset).map ([·]) = pieces)
    (next : ∀ result answers log ctx, CarriesOut (through answers) (taken answers) made log ctx
      (sinkMachine.play (rest ⟨result, (), ctx⟩) answers log)) :
    CarriesOut (Passes answers pieces (.normal srcStart srcLen patchOffset) ∧
        through (later (pieceCount pieces) answers))
      (NormalTaken answers pieces (.normal srcStart srcLen patchOffset) ∧
        taken (later (pieceCount pieces) answers)) (joined pieces made) log ctx
      (sinkMachine.play (applyBSDiffPatch bz source patch offset askSink () ctx >>= rest) answers
        log) := by
  subst given
  unfold applyBSDiffPatch
  match applyBSDiffPatchMem bz source patch offset with
  | .error .failed =>
    refine .lost (next (-1) answers log ctx) (append_nil log).symm
      (and_iff_right ⟨nofun, nofun⟩) ?_ fun _ _ => nofun
    rintro ⟨⟨_, wrong, _⟩, _⟩
    cases wrong
  | .error .hang => exact .stuck (fun passes => passes.1.1 rfl) nofun
  | .error .wild => exact .stuck (fun passes => passes.1.2 rfl) nofun
  | .ok new =>
    have passes : Passes answers (.ok [new]) (.normal srcStart srcLen patchOffset) :=
      ⟨nofun, nofun⟩
    dsimp only
    rw [Prog.bind_assoc, play_ask]
    by_cases short : answers 0 < new.length
    · simp only [short, if_true]
      refine .lost (next 1 _ _ ctx) rfl (and_iff_right passes) ?_ fun _ _ delivered => ?_
      · rintro ⟨⟨_, ⟨⟩, enough⟩, _⟩
        exact absurd enough (Int.not_le.mpr short)
      · exact absurd (delivered.2.2 _ mem_cons_self) (Int.not_le.mpr short)
    · have enough := Int.not_lt.mp short
      simp only [short, if_false]
      rw [show joined (Except.map ([·]) (.ok new)) made = made.map (new ++ ·) by
        simp [Except.map]]
      exact .buffer enough (next 0 _ _ _) (and_iff_right passes)
        (and_iff_right ⟨new, rfl, enough⟩)

/-- The buffers of a `CHUNK_DEFLATE`, followed by the rest of the loop. -/
theorem sinkPieces_carriesOut {pieces : List Bytes}
    (next : ∀ answers log ctx, CarriesOut (through answers) (taken answers) made log ctx
      (sinkMachine.play (rest ⟨0, (), ctx⟩) answers log))
    (stops : ∀ applied, applied.result ≠ 0 → rest applied = .ret applied) :
    CarriesOut (PiecesTaken pieces answers ∧ through (later pieces.length answers))
      (taken (later pieces.length answers)) (joined (.ok pieces) made) log ctx
      (sinkMachine.play (sinkPieces askSink pieces () ctx >>= rest) answers log) := by
  induction pieces generalizing answers log ctx with
  | nil =>
    rw [joined_nil, PiecesTaken, true_and]
    exact next answers log ctx
  | cons piece pieces ih =>
    rw [joined_cons, sinkPieces, Prog.bind_assoc, play_ask]
    by_cases whole : answers 0 = piece.length
    · simp only [whole, ne_eq, not_true, if_false]
      refine .buffer (Int.le_refl _) ih ?_ Iff.rfl
      rw [PiecesTaken, and_assoc, and_iff_right whole]
      exact Iff.rfl
    · refine .stuck (fun passes => whole passes.1.1) ?_
      simp only [whole, ne_eq, not_false_eq_true, if_true]
      rw [Prog.ret_bind, stops _ (by simp)]
      exact fails_ret (by decide)

variable {zlib : Zlib} {bz : Bz2} {old patch : Value} {bonus : Option Value}

theorem passes_ok {pieces : List Bytes} {header : DeflateHeader} :
    Passes answers (.ok pieces) (.deflate header) ↔ PiecesTaken pieces answers := by
  simp [Passes]

theorem not_passes {why : Stop} {header : DeflateHeader} :
    ¬ Passes answers (.error why) (.deflate header) := by
  simp [Passes]

theorem applyChunks_carriesOut (left i : Nat) (pos : Int) :
    CarriesOut (GoesThrough zlib bz old patch bonus left i pos answers)
      (NormalsTaken zlib bz old patch bonus left i pos answers)
      (chunksOutput zlib bz old patch bonus left i pos) log ctx
      (sinkMachine.play (applyChunks zlib bz old patch bonus askSink left i pos () ctx) answers
        log) := by
  induction left generalizing i pos answers log ctx with
  | zero =>
    refine ⟨fun never => absurd trivial never, fun _ => ⟨[], [], ?_, ?_⟩⟩
    · rw [append_nil, append_nil]
      rfl
    · exact iff_of_true ⟨rfl, rfl, nofun⟩ trivial
  | succ left ih =>
    unfold applyChunks GoesThrough NormalsTaken chunksOutput
    match readChunk patch pos with
    | .error .failed => exact .stuck id (fails_ret (by decide))
    | .error .hang => exact .stuck id nofun
    | .error .wild => exact .stuck id nofun
    | .ok (.normal srcStart srcLen patchOffset, pos) =>
      dsimp only [chunkPieces]
      generalize wrap (patchOffset : Int) = offset
      exact applyBSDiffPatch_carriesOut srcStart srcLen patchOffset rfl
        fun _ _ _ _ => ih (i + 1) pos
    | .ok (.raw data, pos) =>
      dsimp only [chunkPieces]
      rw [play_ask, joined_cons, joined_nil]
      by_cases whole : answers 0 = data.length
      · simp only [whole, ne_eq, not_true, if_false]
        exact .buffer (Int.le_refl _) (ih (i + 1) pos) (and_iff_right ⟨_, rfl, whole, trivial⟩)
          (and_iff_right trivial)
      · simp only [whole, ne_eq, not_false_eq_true, if_true]
        refine .stuck ?_ (fails_ret (by decide))
        rintro ⟨⟨_, ⟨⟩, taken, _⟩, _⟩
        exact whole taken
    | .ok (.deflate header, pos) =>
      dsimp only [chunkPieces]
      match deflatePieces zlib bz old patch (bonusFor bonus i) header with
      | .error .failed => exact .stuck (fun passes => not_passes passes.1) (fails_ret (by decide))
      | .error .hang => exact .stuck (fun passes => not_passes passes.1) nofun
      | .error .wild => exact .stuck (fun passes => not_passes passes.1) nofun
      | .ok pieces =>
        rw [passes_ok, and_iff_right (show NormalTaken answers (.ok pieces) (.deflate header) from
          trivial)]
        refine sinkPieces_carriesOut (fun answers log ctx => ?_) fun applied failed => ?_
        · rw [if_neg (not_not.mpr rfl)]
          exact ih (i + 1) pos
        · rw [if_pos failed]

end Loop

section Image

variable {zlib : Zlib} {bz : Bz2} {old patch : Value} {bonus : Option Value} {answers : Nat → Int}

theorem imageRun_refused (refused : ¬ HeaderAccepted patch) :
    Fails (imageRun zlib bz old patch bonus answers) := by
  unfold imageRun applyImagePatch
  by_cases short : patch.data.length < 12
  · rw [if_pos short]
    exact fails_ret (by decide)
  · rw [if_neg short, if_pos fun magic => refused ⟨Nat.le_of_not_lt short, magic⟩]
    exact fails_ret (by decide)

theorem imageRun_carriesOut (accepted : HeaderAccepted patch) :
    CarriesOut (GoesThrough zlib bz old patch bonus (chunkCount patch) 0 12 answers)
      (NormalsTaken zlib bz old patch bonus (chunkCount patch) 0 12 answers)
      (chunksOutput zlib bz old patch bonus (chunkCount patch) 0 12) [] []
      (imageRun zlib bz old patch bonus answers) := by
  unfold imageRun applyImagePatch
  rw [if_neg (not_lt.mpr accepted.1), if_neg (not_not.mpr accepted.2)]
  exact applyChunks_carriesOut _ 0 12

end Image

/-- Incomplete output is reported exactly if this holds: when all records can be read, all
`CHUNK_DEFLATE`s can be made and the sink takes their buffers and those of the `CHUNK_RAW`s, then
the inner patches of the `CHUNK_NORMAL`s apply and the sink takes what they give. -/
theorem applyImagePatch_reports_iff (zlib : Zlib) (bz : Bz2) (old patch : Value)
    (bonus : Option Value) (answers : Nat → Int) :
    Reports zlib bz old patch bonus answers ↔ (HeaderAccepted patch →
      GoesThrough zlib bz old patch bonus (chunkCount patch) 0 12 answers →
        NormalsTaken zlib bz old patch bonus (chunkCount patch) 0 12 answers) := by
  have refused := @imageRun_refused zlib bz old patch bonus answers
  have carries := @imageRun_carriesOut zlib bz old patch bonus answers
  unfold Reports
  generalize imageRun zlib bz old patch bonus answers = seen at refused carries ⊢
  generalize chunksOutput zlib bz old patch bonus (chunkCount patch) 0 12 = made at carries ⊢
  generalize GoesThrough zlib bz old patch bonus (chunkCount patch) 0 12 answers = through
    at carries ⊢
  generalize NormalsTaken zlib bz old patch bonus (chunkCount patch) 0 12 answers = taken
    at carries ⊢
  constructor
  · intro reports accepted passes
    obtain ⟨sent, hash, rfl, delivered⟩ := (carries accepted).done passes
    exact delivered.mp (reports _ rfl rfl)
  · intro complete _ applied returned zero
    by_cases passes : HeaderAccepted patch ∧ through
    · obtain ⟨accepted, passes⟩ := passes
      obtain ⟨sent, hash, rfl, delivered⟩ := (carries accepted).done passes
      cases returned
      exact delivered.mpr (complete accepted passes)
    · refine absurd zero ?_
      by_cases accepted : HeaderAccepted patch
      · exact (carries accepted).fails (fun holds => passes ⟨accepted, holds⟩) applied returned
      · exact refused accepted applied returned

/-- One `CHUNK_NORMAL` whose inner patch would have to start with `"BSDIFF40"`, and starts with
`"IMGDIFF2"`. -/
def brokenChunk : Value where
  data := imgdiffMagic ++ Bytes.ofNatLE 4 1 ++ Bytes.ofNatLE 4 0 ++ replicate 24 0
  around _ := 0
  fits := by decide

/-- The broken chunk goes unnoticed: the run returns 0 without any output. -/
theorem applyImagePatch_unreported :
    ¬ Reports ⟨fun _ => none, fun _ _ _ => none⟩ ⟨id, fun data => (data, .streamEnd)⟩
      ⟨[], fun _ => 0, by decide⟩ brokenChunk none (fun _ => 0) := by
  intro reports
  obtain ⟨_, listed, _⟩ := reports ⟨0, (), []⟩ (by decide +kernel) rfl
  have refused : chunksOutput ⟨fun _ => none, fun _ _ _ => none⟩ ⟨id, fun data => (data, .streamEnd)⟩
      ⟨[], fun _ => 0, by decide⟩ brokenChunk none (chunkCount brokenChunk) 0 12 =
        .error .failed := by decide +kernel
  rw [refused] at listed
  cases listed

end PhilzTouch.ApplyPatch
