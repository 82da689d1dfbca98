import PhilzTouch.ApplyPatch.PartitionCrash

/-!
# The hash of what applypatch has stored

The hash is taken over the bytes given to the sink, not over what the sink has stored,
and the chunk loop ignores a chunk that was not written.  Whether the two agree is
decided by the pattern of `write` results alone.
-/

namespace PhilzTouch.ApplyPatch

open List

/-- What the steps of a run have done to the output file and the target. -/
structure WriteTrace where
  /-- The last `write` stored a part of its data. -/
  pending : Bool
  /-- A `write` that stored a part of its data was followed by one that stored nothing,
  since the output file was last created. -/
  torn : Bool
  /-- The target was deleted after the output file had taken its place. -/
  dropped : Bool
  deriving DecidableEq

namespace WriteTrace

def start : WriteTrace := ⟨false, false, false⟩

def next (target : Text) (trace : WriteTrace) (op : Op) (choice : Choice) : WriteTrace :=
  match op with
  | .create path => if path = outname target ∧ choice = .ok then start else trace
  | .write path data =>
    let stored := choice.accepted data.length
    if path = outname target then
      { trace with
        pending := 0 < stored && stored < data.length
        torn := trace.torn || trace.pending && stored = 0 }
    else trace
  | .rename _ path => if path = target then { trace with dropped := false } else trace
  | .unlink path =>
    if path = target ∧ choice = .ok then { trace with dropped := true } else trace
  | _ => trace

def of (target : Text) (steps : List storage.Step) : WriteTrace :=
  steps.foldl (fun trace step => trace.next target step.op step.choice) start

@[simp] theorem of_append_singleton (target : Text) (steps : List storage.Step)
    (step : storage.Step) :
    of target (steps ++ [step]) = (of target steps).next target step.op step.choice := by
  simp [of]

theorem of_append_quiet (target : Text) (steps more : List storage.Step)
    (quiet : ∀ step ∈ more, step.op.Quiet) : of target (steps ++ more) = of target steps := by
  induction more generalizing steps with
  | nil => rw [append_nil]
  | cons step more ih =>
    have silent : ∀ trace : WriteTrace, trace.next target step.op step.choice = trace := by
      intro trace
      have := quiet step mem_cons_self
      cases op : step.op <;> simp only [op, Op.Quiet] at this <;> rfl
    have rest := ih (steps ++ [step]) (forall_mem_cons.mp quiet).2
    rw [append_assoc, singleton_append] at rest
    rw [rest, of_append_singleton, silent]

end WriteTrace

/-- The state of the storage with a log of steps. -/
abbrev Logged := Disk × List storage.Step

/-- The output file holds what was hashed, or it is longer because a write was torn. -/
def Tracks (content ctx : Bytes) (torn : Bool) : Prop :=
  (torn = false → content = ctx) ∧ (torn = true → ctx.length < content.length)

theorem Tracks.append {content ctx : Bytes} {torn : Bool} (tracks : Tracks content ctx torn)
    (data : Bytes) : Tracks (content ++ data) (ctx ++ data) torn := by
  refine ⟨fun whole => by rw [tracks.1 whole], fun broken => ?_⟩
  have := tracks.2 broken
  simp only [length_append]
  omega

theorem Tracks.extra {content ctx : Bytes} {torn : Bool} (tracks : Tracks content ctx torn)
    {data : Bytes} (stored : 0 < data.length) : Tracks (content ++ data) ctx true := by
  refine ⟨nofun, fun _ => ?_⟩
  rw [length_append]
  cases torn with
  | false =>
    rw [tracks.1 rfl]
    omega
  | true =>
    have := tracks.2 rfl
    omega

section

variable {target : Text} {disk : Disk} {log : List storage.Step}

/-- What holds after every run with a log. -/
abbrev Traces {α : Type} (post : α → Logged → Prop) (program : Action α) (state : Logged) : Prop :=
  storage.logged.Safe (fun _ => True) (fun _ => True) post program state

theorem logged_call {α : Type} {op : Op} {rest : Reply op → Action α} {post : α → Logged → Prop}
    (each : ∀ choice, Traces post
      (rest (perform op choice disk).2) ((perform op choice disk).1, log ++ [⟨op, choice, disk⟩])) :
    Traces post (Prog.call op >>= rest) (disk, log) :=
  .call fun choice _ => ⟨trivial, each choice⟩

variable {machine : Machine Op Reply}

theorem ret_one {post : machine.State → Prop} {state : machine.State} :
    machine.Safe (fun _ => True) (fun _ => True) (fun result after => result = 0 → post after)
      (.ret (1 : Int)) state :=
  .ret fun wrong => by simp at wrong

/-- The loop of `FileSink`, with what it does to the trace.  While a part of the data is
written, a short write is pending. -/
theorem fileSinkLoop_traced {rounds : Nat} (data : Bytes) (enough : data.length ≤ rounds)
    (done : Nat) (some : data = [] → done = 0) {content : Bytes}
    (contains : Contains (outname target) content disk)
    (pending : (WriteTrace.of target log).pending = decide (0 < done)) :
    Traces (fun (count : Int) (after : Logged) => ∃ stored, stored ≤ data.length ∧
        count = (done + stored : Nat) ∧ Contains (outname target) (content ++ data.take stored) after.1 ∧
        (WriteTrace.of target after.2).pending = false ∧
        (WriteTrace.of target after.2).torn = ((WriteTrace.of target log).torn ||
          decide (stored < data.length ∧ 0 < done + stored)))
      (fileSinkLoop (outname target) rounds data done) (disk, log) := by
  induction rounds generalizing data done content disk log with
  | zero =>
    have empty : data = [] := eq_nil_of_length_eq_zero (by omega)
    subst empty
    refine .ret ⟨0, by simp, by simp, by simpa using contains, ?_, by simp⟩
    rw [pending, some rfl]
    rfl
  | succ rounds ih =>
    apply logged_call
    intro choice
    rcases perform_write (outname target) data choice disk with
      ⟨same, nothing, failed⟩ | ⟨positive, bounded, grown⟩
    · simp only [same, if_pos failed]
      refine .ret ⟨0, by omega, by simp, by simpa using contains, ?_, ?_⟩
      · simp [WriteTrace.next, nothing]
      have some : 0 < done → data ≠ [] := fun positive empty => by
        rw [some empty] at positive
        omega
      by_cases positive : 0 < done
      · simp [WriteTrace.next, nothing, pending, positive, length_pos_iff.mpr (some positive)]
      · simp [WriteTrace.next, nothing, pending, positive]
    simp only [grown]
    generalize count_eq : choice.accepted data.length = count at positive bounded
    have contains := contains.modify (fun file =>
        { file with data := file.data ++ data.take count, synced := false })
      fun file same => show file.data ++ data.take count = content ++ data.take count by rw [same]
    have moved : ¬ (count : Int) ≤ 0 := by omega
    rw [if_neg moved, Int.toNat_natCast]
    split
    · rename_i all
      refine .ret ⟨count, bounded, rfl, contains, ?_, ?_⟩
      · simp [WriteTrace.next, count_eq, all]
      · have whole : ¬ count < data.length := by omega
        simp [WriteTrace.next, count_eq, positive.ne', whole]
    rename_i short
    have shorter : (data.drop count).length ≤ rounds := by
      rw [length_drop]
      omega
    have more : data.drop count = [] → done + count = 0 := by
      intro empty
      have := congrArg length empty
      rw [length_drop, length_nil] at this
      omega
    have tracked : (WriteTrace.of target
        (log ++ [⟨.write (outname target) data, choice, disk⟩])).pending =
          decide (0 < done + count) := by
      have part : count < data.length := by omega
      have further : 0 < done + count := by omega
      simp [WriteTrace.next, count_eq, part, positive, further]
    have untorn : (WriteTrace.of target
        (log ++ [⟨.write (outname target) data, choice, disk⟩])).torn =
          (WriteTrace.of target log).torn := by
      simp [WriteTrace.next, count_eq, positive.ne']
    apply (ih (data.drop count) shorter (done + count) more contains tracked).weaken
    rintro result after ⟨stored, within, same, contains, settled, torn⟩
    rw [length_drop] at within torn
    rw [append_assoc, ← take_add] at contains
    refine ⟨count + stored, by omega, by omega, contains, settled, ?_⟩
    rw [torn, untorn]
    congr 2
    apply propext
    omega

/-- The output file of a run with a log. -/
def OutputTracked (target : Text) (ctx : Bytes) (state : Logged) : Prop :=
  ∃ content, Contains (outname target) content state.1 ∧
    Tracks content ctx (WriteTrace.of target state.2).torn

/-- `FileSink` keeps track of what was hashed, and leaves no short write pending. -/
theorem fileSink_traced (target : Text) : SinkKeeps (fun _ => True) (fun _ => True)
      (fun ctx _ (_ : Unit) (state : storage.logged.State) =>
        OutputTracked target ctx state ∧ (WriteTrace.of target state.2).pending = false)
      (fileSink (outname target)) := by
  rintro data ctx want token ⟨disk, log⟩ ⟨⟨content, contains, tracks⟩, settled⟩
  refine .bind (fileSinkLoop_traced data le_rfl 0 (fun _ => rfl) contains settled) ?_
  rintro count after ⟨stored, within, rfl, contains, settled, torn⟩
  refine .ret ?_
  simp only [Nat.zero_add] at torn ⊢
  by_cases all : stored = data.length
  · refine .inl ⟨by rw [all], ⟨_, contains, ?_⟩, settled⟩
    have whole : ¬ (stored < data.length ∧ 0 < stored) := by omega
    rw [torn, decide_eq_false whole, Bool.or_false, all, take_length]
    exact tracks.append data
  refine .inr ⟨by omega, ⟨_, contains, ?_⟩, settled⟩
  by_cases nothing : stored = 0
  · have whole : ¬ (stored < data.length ∧ 0 < stored) := by omega
    rw [torn, decide_eq_false whole, Bool.or_false, nothing, take_zero, append_nil]
    exact tracks
  · have broken : stored < data.length ∧ 0 < stored := by omega
    rw [torn, decide_eq_true broken, Bool.or_true]
    apply tracks.extra
    rw [length_take]
    omega

theorem writeOutput_traced (lib : Library) (args : Args) (target : Text)
    (toUse : Option (Value × Meta × Patch)) (retry : Bool) (state : Logged) :
    Traces (fun pass after => ∀ ctx, pass = .applied ctx → OutputTracked target ctx after)
      (writeOutput lib args target toUse retry) state := by
  obtain ⟨disk, log⟩ := state
  have failed : ∀ {state : Logged}, Traces
      (fun pass after => ∀ ctx, pass = Pass.applied ctx → OutputTracked target ctx after)
      (.ret Pass.failed) state := .ret (by simp)
  unfold writeOutput
  rcases toUse with _ | ⟨value, st, patch⟩
  · exact .stop
  dsimp only
  split
  swap
  · exact failed
  apply logged_call
  intro choice
  by_cases created : choice = .ok
  swap
  · simp only [perform, if_neg created]
    exact failed
  simp only [perform, if_pos created]
  have fresh : OutputTracked target [] (disk.setFile (outname target)
        (some ⟨[], false, (disk.files (outname target)).elim createdMeta File.st⟩),
      log ++ [⟨.create (outname target), choice, disk⟩]) := by
    refine ⟨[], ⟨_, Disk.setFile_files_same _ _ _, rfl⟩, ?_⟩
    simp [WriteTrace.next, created, WriteTrace.start, Tracks]
  have settled : (WriteTrace.of target
      (log ++ [⟨.create (outname target), choice, disk⟩])).pending = false := by
    simp [WriteTrace.next, created, WriteTrace.start]
  have applying : Traces _ (applyPatchData lib value
      patch.value args.bonusData (fileSink (outname target)) ()) _ :=
    applyPatchData_keeps (fileSink_traced target) lib value patch.value args.bonusData
      ⟨fresh, settled⟩
  refine .bind applying ?_
  rintro result ⟨disk, log⟩ known
  rcases result with _ | applied
  · exact failed
  apply logged_call
  intro choice
  split
  · rename_i zero
    refine .ret ?_
    rintro ctx ⟨⟩
    obtain ⟨_, _, ⟨content, contains, tracks⟩, _⟩ := known applied rfl zero
    refine ⟨content, ?_, by simpa [WriteTrace.next] using tracks⟩
    have held : HeldByFile false (perform (.fsync (outname target)) choice disk).1
      (outname target) content := contains.fsync (by simp)
    obtain ⟨file, found, same, _⟩ := held
    exact ⟨file, found, same⟩
  · split
    · apply logged_call
      intro choice
      exact .ret (by simp)
    · exact failed

/-- What a run that returns 0 leaves: the target holds the output file, unless it was
deleted again. -/
def StoredTracked (lib : Library) (target : Text) (targetSha1 : Bytes) (state : Logged) : Prop :=
  ∃ ctx content, lib.sha1 ctx = targetSha1 ∧
    Tracks content ctx (WriteTrace.of target state.2).torn ∧
    ((WriteTrace.of target state.2).dropped = false ∧ Contains target content state.1 ∨
      (WriteTrace.of target state.2).dropped = true ∧ state.1.files target = none)

theorem moveOutput_traced {lib : Library} {ctx targetSha1 : Bytes} (madeCopy : Bool)
    (hash : lib.sha1 ctx = targetSha1) (tracked : OutputTracked target ctx (disk, log)) :
    Traces (fun result after => result = 0 → StoredTracked lib target targetSha1 after)
      (do
        let renamed ← Prog.call (Op.rename (outname target) target)
        if renamed then
          if madeCopy then do
            let _ ← Prog.call (Op.unlink cacheTempSource)
            .ret (0 : Int)
          else .ret 0
        else .ret 1) (disk, log) := by
  obtain ⟨content, ⟨file, found, data⟩, tracks⟩ := tracked
  dsimp only at found tracks
  apply logged_call
  intro choice
  by_cases ok : choice = .ok
  swap
  · simp only [perform_rename_of_ne ok]
    exact ret_one
  subst ok
  simp only [perform, found]
  have there := (disk.setFile (outname target) none).setFile_files_same target (some file)
  generalize (disk.setFile (outname target) none).setFile target (some file) = disk' at there
  have tracks : Tracks content ctx (WriteTrace.of target
      (log ++ [⟨.rename (outname target) target, .ok, disk⟩])).torn := by
    simpa [WriteTrace.next] using tracks
  have kept : (WriteTrace.of target
      (log ++ [⟨.rename (outname target) target, .ok, disk⟩])).dropped = false := by
    simp [WriteTrace.next]
  generalize log ++ [⟨.rename (outname target) target, .ok, disk⟩] = log' at tracks kept
  cases madeCopy with
  | false => exact .ret fun _ => ⟨ctx, content, hash, tracks, .inl ⟨kept, file, there, data⟩⟩
  | true =>
    apply logged_call
    intro choice
    refine .ret fun _ => ⟨ctx, content, hash, ?_, ?_⟩
    · simp only [WriteTrace.of_append_singleton, WriteTrace.next]
      split <;> exact tracks
    by_cases gone : cacheTempSource = target ∧ choice = .ok
    · right
      simp [WriteTrace.next, perform, gone]
    left
    simp only [WriteTrace.of_append_singleton, WriteTrace.next, if_neg gone]
    refine ⟨kept, file, ?_, data⟩
    simp only [perform]
    split
    · rename_i deleted
      rw [Disk.setFile_files_of_ne _ _ fun same => gone ⟨same.symm, deleted⟩, there]
    · exact there

theorem replaceTarget_traced (lib : Library) (target : Text) (targetSha1 : Bytes) (st : Meta)
    {ctx : Bytes} (madeCopy : Bool) {state : Logged} (tracked : OutputTracked target ctx state) :
    Traces (fun result after => result = 0 → StoredTracked lib target targetSha1 after)
      (replaceTarget lib target targetSha1 st ctx madeCopy) state := by
  obtain ⟨disk, log⟩ := state
  obtain ⟨content, contains, tracks⟩ := tracked
  unfold replaceTarget
  split
  · exact ret_one
  rename_i hash
  apply logged_call
  intro choice
  by_cases ok : choice = .ok
  swap
  · simp only [perform, if_neg ok]
    exact ret_one
  simp only [perform, if_pos ok]
  have contains := contains.modify
    (fun file => { file with st := { file.st with mode := st.mode } }) fun _ => id
  apply logged_call
  intro choice
  by_cases ok : choice = .ok
  swap
  · simp only [perform, if_neg ok]
    exact ret_one
  simp only [perform, if_pos ok]
  have contains := contains.modify
    (fun file => { file with st := { file.st with uid := st.uid, gid := st.gid } }) fun _ => id
  apply moveOutput_traced madeCopy (not_not.mp hash)
  refine ⟨content, contains, ?_⟩
  simp only [WriteTrace.of_append_singleton, WriteTrace.next]
  exact tracks

section Passes

variable (lib : Library) (args : Args) (target : Text) (targetSha1 : Bytes) (file : FileContents)
  (sourcePatch : Option Patch) (toUse : Option (Value × Meta × Patch)) (state : Logged)

theorem lastPass_traced :
    Traces (fun result after => result = 0 → StoredTracked lib target targetSha1 after)
      (lastPass lib args target targetSha1 file sourcePatch toUse) state := by
  refine .skip ?_
  intro room after
  cases room with
  | failed => exact ret_one
  | ready madeCopy =>
    refine .bind (writeOutput_traced lib args target toUse false after) ?_
    intro pass after tracked
    cases pass with
    | failed => exact ret_one
    | again => exact ret_one
    | applied ctx => exact replaceTarget_traced lib target targetSha1 _ madeCopy (tracked ctx rfl)

theorem generateFile_traced :
    Traces (fun result after => result = 0 → StoredTracked lib target targetSha1 after)
      (generateFile lib args target targetSha1 file sourcePatch toUse) state := by
  refine .skip ?_
  intro enough after
  cases enough with
  | false => exact lastPass_traced lib args target targetSha1 file sourcePatch toUse after
  | true =>
    refine .bind (writeOutput_traced lib args target toUse true after) ?_
    intro pass after tracked
    cases pass with
    | failed => exact ret_one
    | again => exact lastPass_traced lib args target targetSha1 file sourcePatch toUse after
    | applied ctx => exact replaceTarget_traced lib target targetSha1 _ false (tracked ctx rfl)

end Passes

variable {targetSha1 : Bytes}

/-- The part behind the check of the target, if only what it generates matters. -/
theorem patchSource_skips {post : Int → machine.State → Prop}
    {load : Loader} {lib : Library} {memory : Memory} {args : Args}
    (failed : ∀ state, post 1 state) (generates : ∀ file sourcePatch copyFile copyPatch state,
      machine.Safe (fun _ => True) (fun _ => True) post (generateTarget lib memory args
        (targetName args) targetSha1 file sourcePatch copyFile copyPatch) state)
    (file : FileContents) (state : machine.State) :
    machine.Safe (fun _ => True) (fun _ => True) post
      (loadSource load args file >>= patchSource load lib memory args targetSha1) state := by
  refine .skip fun file after => ?_
  unfold patchSource
  rcases patchFor lib args file with _ | patch
  · refine .skip ?_
    rintro ⟨loaded, copyFile⟩ after
    dsimp only
    split
    · exact .ret (failed _)
    rcases patchFor lib args copyFile with _ | patch
    · exact .ret (failed _)
    · exact generates _ _ _ _ after
  · exact generates _ _ _ _ after

theorem applypatch_traced (lib : Library) (memory : Memory) (args : Args)
    (parsed : parseSha1 args.targetSha1Str = some targetSha1)
    (fileTarget : isPartitionName (targetName args) = false) (disk : Disk) :
    Traces (fun result after => result = 0 → StoredTracked lib (targetName args) targetSha1 after)
      (applypatch lib memory args) (disk, []) := by
  unfold applypatch applypatchBy
  rw [parsed]
  have loading : storage.Observes True Op.Quiet (fun _ => True) _
      (loadFileContents lib memory (targetName args) ⟨none, memory.size, memory.st⟩) disk :=
    loadFileContents_visible (targetName args) _
  apply (loading.safe_logged [] perform_quiet).bind
  rintro ⟨loaded, file⟩ ⟨_, log⟩ ⟨held, rfl, more, rfl, quiet⟩
  dsimp only
  split
  · -- the target was right from the start
    rename_i done
    refine .ret fun _ => ?_
    rcases data : file.data with _ | value
    · simp [FileContents.sha1, data] at done
    have hash : lib.sha1 value.data = targetSha1 := by
      simpa [FileContents.sha1, data] using done.2
    have silent : WriteTrace.of (targetName args) log = .start :=
      WriteTrace.of_append_quiet _ [] log quiet
    rcases held value data with ⟨_, stored, found, same, _⟩ | ⟨wrong, _⟩
    · refine ⟨value.data, value.data, hash, ?_, .inl ⟨?_, stored, found, same⟩⟩
      · simp [silent, WriteTrace.start, Tracks]
      · simp [silent, WriteTrace.start]
    · rw [fileTarget] at wrong
      cases wrong
  refine patchSource_skips (fun _ wrong => by simp at wrong) (fun file _ copyFile _ after => ?_) file _
  simp only [generateTarget, fileTarget, Bool.false_eq_true, if_false]
  exact generateFile_traced lib args _ targetSha1 _ _ _ after

end

/-! ## Partitions -/

section

variable {lib : Library} {memory : Memory} {args : Args} {targetSha1 : Bytes} {disk : Disk}

theorem generatePartition_stores (parsed : parseSha1 args.targetSha1Str = some targetSha1)
    (partitionTarget : isPartitionName (targetName args) = true) (file : FileContents)
    (toUse : Option (Value × Meta × Patch)) : storage.Safe (fun _ => True) (fun _ => True)
      (fun result after => result = 0 → Finished lib args false after)
      (generatePartition lib memory args (targetName args) targetSha1 file toUse) disk := by
  refine .skip fun backedUp after => ?_
  cases backedUp with
  | false => exact ret_one
  | true =>
    rcases toUse with _ | ⟨value, st, patch⟩
    · exact .stop
    simp only [if_true]
    split
    swap
    · exact ret_one
    have sink : SinkKeeps (fun _ => True) (fun _ => True)
        (fun ctx _ buffer (_ : storage.State) => buffer = ctx ∧ True)
        (memorySink (wrap args.targetSize)) := memorySink_keeps _
    have applied : storage.Safe (fun _ => True) (fun _ => True) _
        (applyPatchData lib value patch.value args.bonusData
          (memorySink (wrap args.targetSize)) []) after :=
      applyPatchData_keeps sink lib value patch.value args.bonusData ⟨rfl, trivial⟩
    refine .bind applied ?_
    intro result after known
    rcases result with _ | applied
    · exact ret_one
    dsimp only
    split
    · exact ret_one
    rename_i success
    split
    · exact ret_one
    rename_i hash
    obtain ⟨_, _, same, _⟩ := known applied rfl (not_not.mp success)
    have written : storage.Safe (fun _ => True) (fun _ => True) _
        (writeToPartition memory applied.sink (targetName args)) after :=
      writeToPartition_keeps (fun _ _ _ _ _ => trivial)
        (fun _ _ _ _ (wrong : false = true) => by cases wrong) applied.sink trivial
    refine .bind written ?_
    rintro result after ⟨_, done⟩
    split
    · exact ret_one
    rename_i zero
    obtain ⟨partition, named, starts⟩ := done (not_not.mp zero)
    refine .call ?_
    intro choice _
    refine ⟨trivial, .ret fun _ => ⟨applied.sink, .inr ⟨partitionTarget, partition, named, ?_⟩, ?_⟩⟩
    · simp only [perform]
      split <;> exact starts
    · rw [parsed, same, not_not.mp hash]

/-- A run on a partition that returns 0 has left a partition with the hash asked for. -/
theorem applypatch_stores_partition (partitionTarget : isPartitionName (targetName args) = true) :
    storage.Safe (fun _ => True) (fun _ => True)
      (fun result after => result = 0 → Finished lib args false after)
      (applypatch lib memory args) disk := by
  unfold applypatch applypatchBy
  rcases parsed : parseSha1 args.targetSha1Str with _ | targetSha1
  · exact ret_one
  apply observing (loadFileContents_visible (targetName args) _) trivial
  rintro ⟨loaded, file⟩ held
  dsimp only
  split
  · rename_i done
    refine .ret fun _ => ?_
    rcases data : file.data with _ | value
    · simp [FileContents.sha1, data] at done
    refine ⟨value.data, held value data, ?_⟩
    rw [parsed]
    simpa [FileContents.sha1, data] using done.2.symm
  refine patchSource_skips (fun _ wrong => by simp at wrong) (fun file _ copyFile _ after => ?_) file _
  simp only [generateTarget, partitionTarget, if_true]
  exact generatePartition_stores parsed partitionTarget _ _

end

/-- Every `write` after the output file was last created stored all it was given or was
followed by one that stored more, and the target was not deleted at the end. -/
def WroteWhole (target : Text) (steps : List storage.Step) : Prop :=
  (WriteTrace.of target steps).torn = false ∧ (WriteTrace.of target steps).dropped = false

/-- What a return value of 0 says about the bytes stored.  A partition whose name starts
with `EMMC:` has the hash asked for; a file has it just when no write was torn in the
pass that succeeded, provided that the hash tells different contents apart. -/
theorem applypatch_stored_hash {lib : Library} {memory : Memory} {args : Args}
    {choices : List Choice} {disk : Disk}
    (success : (storage.exec (applypatch lib memory args) choices disk).2 = .done 0) :
    (['E', 'M', 'M', 'C', ':'].isPrefixOf (targetName args) = true →
        Finished lib args false (storage.exec (applypatch lib memory args) choices disk).1) ∧
      (isPartitionName (targetName args) = false →
        (WroteWhole (targetName args) (storage.steps (applypatch lib memory args) choices disk) →
          Finished lib args false (storage.exec (applypatch lib memory args) choices disk).1) ∧
        (Function.Injective lib.sha1 →
          Finished lib args false (storage.exec (applypatch lib memory args) choices disk).1 →
          WroteWhole (targetName args)
            (storage.steps (applypatch lib memory args) choices disk))) := by
  constructor
  · intro emmc
    have safe : storage.Safe _ _ _ (applypatch lib memory args) disk :=
      applypatch_stores_partition (by simp [isPartitionName, emmc])
    exact (safe.exec trivial fun _ _ => trivial).2 0 success rfl
  intro fileTarget
  rcases parsed : parseSha1 args.targetSha1Str with _ | targetSha1
  · rw [applypatch, applypatchBy, parsed] at success
    cases success
  have run := ((applypatch_traced lib memory args parsed fileTarget disk).exec trivial
    fun step (_ : step ∈ storage.logged.steps _ choices _) => trivial).2
  rw [storage.exec_logged, nil_append] at run
  obtain ⟨ctx, content, hash, tracks, stored⟩ := run 0 success rfl
  generalize (storage.exec (applypatch lib memory args) choices disk).1 = final at stored
  generalize storage.steps (applypatch lib memory args) choices disk = steps at tracks stored
  constructor
  · rintro ⟨whole, kept⟩
    rcases stored with ⟨_, file, found, data⟩ | ⟨dropped, _⟩
    · refine ⟨content, .inl ⟨fileTarget, file, found, data, by simp⟩, ?_⟩
      rw [parsed, tracks.1 whole, hash]
    · rw [kept] at dropped
      cases dropped
  rintro injective ⟨seen, ⟨_, file, found, data, _⟩ | ⟨wrong, _⟩, asked⟩
  swap
  · rw [fileTarget] at wrong
    cases wrong
  rcases stored with ⟨kept, file', found', data'⟩ | ⟨_, missing⟩
  · have same : content = ctx := by
      rw [found] at found'
      cases found'
      apply injective
      rw [← data', data, hash]
      exact (Option.some.inj (parsed.symm.trans asked)).symm
    refine ⟨?_, kept⟩
    by_contra torn
    have longer := tracks.2 (by simpa using torn)
    rw [same] at longer
    omega
  · rw [missing] at found
    cases found

/-! ## A torn write -/

namespace Sample

/-- An image patch with a chunk of two bytes and a raw chunk of twenty. -/
def twoChunks : Value where
  data := imgdiffMagic ++ [2, 0, 0, 0] ++
    ([0, 0, 0, 0] ++ replicate 16 0 ++ [68, 0, 0, 0, 0, 0, 0, 0]) ++
    ([3, 0, 0, 0, 20, 0, 0, 0] ++ content 2) ++
    (bsdiffMagic ++ [24, 0, 0, 0, 0, 0, 0, 0] ++ replicate 8 0 ++ [2, 0, 0, 0, 0, 0, 0, 0] ++
      replicate 8 0 ++ [2, 0, 0, 0, 0, 0, 0, 0] ++ replicate 8 0 ++ [7, 8])
  around := fun _ => 0
  fits := by decide +kernel

/-- A file that is patched in place, with the given patch. -/
def inPlace (value : Value) : Args where
  sourceFilename := ['/', 's']
  targetFilename := ['/', 's']
  targetSha1Str := digest '2'
  targetSize := 20
  patches := [⟨digest '1', true, value⟩]
  bonusData := none

def inPlaceDisk : Disk where
  files := Function.update (fun _ => none) ['/', 's'] (some (file (content 1)))
  devices := fun _ => ⟨[], true⟩

/-- The file is loaded, there is enough space, the output file is created, it is written
as given, and everything else succeeds. -/
def writing (writes : List Choice) : List Choice :=
  [.ok, .ok, .ok, .amount (2 ^ 20), .ok] ++ writes ++ [.ok, .ok, .ok, .ok]

end Sample

open Sample in
/-- A chunk of which one byte was written and then no more: the run goes on, the byte is
not hashed, and it stays in the file. -/
theorem applypatch_stores_torn_chunk :
    (storage.exec (applypatch lib memory (inPlace twoChunks)) (writing [.amount 1, .fail, .ok])
        inPlaceDisk).2 = .done 0 ∧ isPartitionName (targetName (inPlace twoChunks)) = false ∧
      ¬ Finished lib (inPlace twoChunks) false
        (storage.exec (applypatch lib memory (inPlace twoChunks))
          (writing [.amount 1, .fail, .ok]) inPlaceDisk).1 := by
  refine ⟨by decide +kernel, by decide, ?_⟩
  have stored : (storage.exec (applypatch lib memory (inPlace twoChunks))
      (writing [.amount 1, .fail, .ok]) inPlaceDisk).1.files ['/', 's'] =
    some ⟨7 :: content 2, true, ⟨0o600, 0, 0⟩⟩ := by decide +kernel
  rintro ⟨seen, ⟨_, file, found, data, _⟩ | ⟨wrong, _⟩, asked⟩
  · rw [show targetName (inPlace twoChunks) = ['/', 's'] from rfl, stored] at found
    cases found
    rw [← data] at asked
    exact absurd asked (by decide)
  · exact absurd wrong (by decide)

open Sample in
/-- The same with a patch of one chunk, written in two parts. -/
theorem applypatch_stored_hash_parts : Finished lib (inPlace patch.value) false
      (storage.exec (applypatch lib memory (inPlace patch.value)) (writing [.amount 1, .ok])
        inPlaceDisk).1 := by
  have success : (storage.exec (applypatch lib memory (inPlace patch.value))
    (writing [.amount 1, .ok]) inPlaceDisk).2 = .done 0 := by decide +kernel
  exact ((applypatch_stored_hash success).2 (by decide)).1 ⟨by decide +kernel, by decide +kernel⟩

end PhilzTouch.ApplyPatch
