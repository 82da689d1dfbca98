import PhilzTouch.ApplyPatch.PartitionCrash

/-!
# Crash safety for file targets

The new content goes to a file of its own and is moved over the target when its hash is
right.  Where space is short the source is moved to the cache first.  In between, the
target keeps what it held or is missing.
-/

namespace PhilzTouch.ApplyPatch

/-- The steps under which a file target is crash safe: where the power may be cut,
`fsync` succeeds. -/
def Syncs (cuts : Bool) (step : storage.Step) : Prop :=
  match step.op with
  | .fsync _ => cuts = true → step.choice = .ok
  | _ => True

/-- What is assumed of the arguments for a file target: four different files, except
that the source may be the target, none of them deletable; a hash without collisions;
and patches that yield `out`, which has the hash asked for. -/
structure FileSetting (lib : Library) (args : Args) (out : Bytes) : Prop where
  fileTarget : isPartitionName (targetName args) = false
  sourceOutput : args.sourceFilename ≠ outname (targetName args)
  sourceCopy : args.sourceFilename ≠ cacheTempSource
  targetCopy : targetName args ≠ cacheTempSource
  sourcePlace : ¬ Deletable args.sourceFilename
  targetPlace : ¬ Deletable (targetName args)
  collisionFree : Function.Injective lib.sha1
  yields : Yields lib args out
  hash : parseSha1 args.targetSha1Str = some (lib.sha1 out)

/-- The target is missing, holds what it held before, or has the hash asked for. -/
def TargetClean (lib : Library) (args : Args) (old : Option Bytes) (disk : Disk) : Prop :=
  ∀ file, disk.files (targetName args) = some file →
    old = some file.data ∨ parseSha1 args.targetSha1Str = some (lib.sha1 file.data)

/-- What holds of the source and the target whatever the phase of a run. -/
structure FileBase (lib : Library) (args : Args) (cuts : Bool) (old : Option Bytes)
    (disk : Disk) : Prop where
  sourceRests : Rests cuts args.sourceFilename disk
  targetRests : Rests cuts (targetName args) disk
  devicesRest : cuts = true → ∀ partition, (disk.devices partition).synced = true
  clean : TargetClean lib args old disk

/-- What every step of a run on a file keeps. -/
def FileKept (lib : Library) (args : Args) (cuts : Bool) (old : Option Bytes) (disk : Disk) : Prop :=
  FileBase lib args cuts old disk ∧ Recoverable lib args cuts disk

theorem outname_ne (target : Text) : target ≠ outname target := by
  intro same
  have length := congrArg List.length same
  simp [outname] at length

theorem outname_ne_copy (target : Text) : outname target ≠ cacheTempSource := by
  intro same
  have last := congrArg List.getLast? same
  simp [outname, cacheTempSource] at last

section

variable {lib : Library} {memory : Memory} {args : Args} {cuts : Bool} {old : Option Bytes}
  {out : Bytes} {disk : Disk} {keep : Disk → Prop} {allowed : storage.Step → Prop} {path : Text}

theorem FileBase.setFile (base : FileBase lib args cuts old disk)
    (notSource : args.sourceFilename ≠ path) (notTarget : targetName args ≠ path)
    (file : Option File) : FileBase lib args cuts old (disk.setFile path file) where
  sourceRests := base.sourceRests.setFile notSource file
  targetRests := base.targetRests.setFile notTarget file
  devicesRest := base.devicesRest
  clean := by
    intro stored found
    rw [Disk.setFile_files_of_ne disk file notTarget] at found
    exact base.clean stored found

theorem Recoverable.setFile (recoverable : Recoverable lib args cuts disk)
    (notSource : args.sourceFilename ≠ path) (notTarget : targetName args ≠ path)
    (notCopy : cacheTempSource ≠ path) (file : Option File) :
    Recoverable lib args cuts (disk.setFile path file) := by
  refine recoverable.imp fun name named content held => held.setFile ?_ file
  rintro rfl
  simp [notSource.symm, notTarget.symm, notCopy.symm] at named

/-- `FileSink`: the file holds what was hashed and was to be written, or some of what
was to be written is missing from the hash. -/
theorem fileSink_keeps (free : Unaffected keep path) : SinkKeeps allowed keep
      (fun ctx want (_ : Unit) disk => keep disk ∧ ∃ content, Contains path content disk ∧
        (content = ctx ∧ ctx = want ∨ ctx.length < want.length)) (fileSink path) := by
  rintro data ctx want token disk ⟨kept, content, contains, known⟩
  refine .bind (fileSinkLoop_keeps free data le_rfl 0 kept contains) ?_
  rintro count after ⟨stored, within, rfl, kept, contains⟩
  refine .ret ?_
  by_cases all : stored = data.length
  · refine .inl ⟨by simp [all], kept, content ++ data, ?_, ?_⟩
    · rwa [all, List.take_length] at contains
    · rcases known with ⟨rfl, rfl⟩ | shorter
      · exact .inl ⟨rfl, rfl⟩
      · right
        simp only [List.length_append]
        omega
  · refine .inr ⟨by simp only [Nat.zero_add]; omega, kept, _, contains, .inr ?_⟩
    rw [List.length_append]
    rcases known with ⟨rfl, rfl⟩ | shorter
    · omega
    · omega

/-- The source in use is one that its patch is for. -/
def Suits (lib : Library) (args : Args) (toUse : Option (Value × Meta × Patch)) : Prop :=
  ∀ value st patch, toUse = some (value, st, patch) → patch ∈ args.patches ∧
    parseSha1 patch.sha1Str = some (lib.sha1 value.data)

/-- The output file of a pass: what was hashed and intended, or less was hashed than was
intended. -/
def OutputWritten (args : Args) (cuts : Bool) (out ctx : Bytes) (disk : Disk) : Prop :=
  ∃ content, HeldByFile cuts disk (outname (targetName args)) content ∧
    (content = ctx ∧ ctx = out ∨ ctx.length < out.length)

variable {toUse : Option (Value × Meta × Patch)}

theorem writeOutput_keeps (yields : Yields lib args out)
    (free : Unaffected keep (outname (targetName args))) (suits : Suits lib args toUse)
    (retry : Bool) (kept : keep disk) : storage.Safe (Syncs cuts) keep
      (fun pass after => keep after ∧
        ∀ ctx, pass = .applied ctx → OutputWritten args cuts out ctx after)
      (writeOutput lib args (targetName args) toUse retry) disk := by
  have failed : ∀ {disk}, keep disk → storage.Safe (Syncs cuts) keep (fun pass after => keep after ∧
        ∀ ctx, pass = Pass.applied ctx → OutputWritten args cuts out ctx after)
      (.ret Pass.failed) disk := fun kept => .ret ⟨kept, by simp⟩
  unfold writeOutput
  rcases toUse with _ | ⟨value, st, patch⟩
  · exact .stop
  obtain ⟨member, hash⟩ := suits value st patch rfl
  dsimp only
  split
  swap
  · exact failed kept
  refine .call ?_
  intro choice _
  by_cases created : choice = .ok
  swap
  · simp only [perform, if_neg created]
    exact ⟨kept, failed kept⟩
  simp only [perform, if_pos created]
  have kept := free disk (some ⟨[], false,
    (disk.files (outname (targetName args))).elim createdMeta File.st⟩) kept
  refine ⟨kept, ?_⟩
  have applying : storage.Safe (Syncs cuts) keep _ (applyPatchData lib value patch.value
      args.bonusData (fileSink (outname (targetName args))) ()) _ :=
    applyPatchData_keeps (fileSink_keeps free) lib value patch.value args.bonusData
      ⟨kept, [], ⟨_, Disk.setFile_files_same _ _ _, rfl⟩, .inl ⟨rfl, rfl⟩⟩
  refine .bind (applying.keeping kept) ?_
  rintro result after ⟨known, kept⟩
  rcases result with _ | applied
  · exact failed kept
  refine .call fun choice admitted => ?_
  have kept := fsync_keeps choice free kept
  refine ⟨kept, ?_⟩
  split
  · rename_i zero
    refine .ret ⟨kept, ?_⟩
    rintro ctx ⟨⟩
    obtain ⟨made, output, _, content, contains, known⟩ := known applied rfl zero
    have same : made = out := by
      rw [(yields patch member value hash).2] at output
      simpa using output.symm
    exact ⟨content, contains.fsync admitted, same ▸ known⟩
  · split
    · refine .call ?_
      intro unlinkChoice _
      have kept := unlink_keeps unlinkChoice kept (free _ _ kept)
      exact ⟨kept, .ret ⟨kept, by simp⟩⟩
    · exact failed kept

theorem FileBase.replaced (setting : FileSetting lib args out)
    (base : FileBase lib args cuts old disk) {file : File} (data : file.data = out)
    (synced : cuts = true → file.synced = true) : FileBase lib args cuts old
        ((disk.setFile (outname (targetName args)) none).setFile (targetName args) (some file)) ∧
      Finished lib args cuts
        ((disk.setFile (outname (targetName args)) none).setFile (targetName args) (some file)) := by
  have base := base.setFile setting.sourceOutput (outname_ne _) none
  generalize disk.setFile (outname (targetName args)) none = moved at base
  have there := moved.setFile_files_same (targetName args) (some file)
  refine ⟨⟨?_, ?_, base.devicesRest, ?_⟩, out, .inl ⟨setting.fileTarget, file, there, data, synced⟩,
    setting.hash⟩
  · by_cases same : args.sourceFilename = targetName args
    · intro stored found
      rw [same, there] at found
      cases found
      exact synced
    · exact base.sourceRests.setFile same _
  · intro stored found
    rw [there] at found
    cases found
    exact synced
  · intro stored found
    rw [there] at found
    cases found
    exact .inr (data ▸ setting.hash)

variable {targetSha1 : Bytes}

theorem enoughSpace_observes (target : Text) (targetSize : Nat) :
    storage.Observes True Op.Quiet allowed (fun _ => True) (enoughSpace target targetSize) disk :=
  .call trivial fun _ _ => .ret trivial

/-- The source holds a content, whatever becomes of the copy. -/
def SourceBase (lib : Library) (args : Args) (cuts : Bool) (old : Option Bytes) (content : Bytes)
    (disk : Disk) : Prop :=
  FileBase lib args cuts old disk ∧ Held cuts disk args.sourceFilename content

/-- The copy holds a content, whatever becomes of the source. -/
def CopyBase (lib : Library) (args : Args) (cuts : Bool) (old : Option Bytes) (content : Bytes)
    (disk : Disk) : Prop :=
  FileBase lib args cuts old disk ∧ HeldByFile cuts disk cacheTempSource content

variable {content : Bytes}

theorem SourceBase.fileKept (listed : Listed lib args content) (disk : Disk)
    (kept : SourceBase lib args cuts old content disk) : FileKept lib args cuts old disk :=
  ⟨kept.1, .inr ⟨content, listed, .inl kept.2⟩⟩

theorem CopyBase.fileKept (listed : Listed lib args content) (disk : Disk)
    (kept : CopyBase lib args cuts old content disk) : FileKept lib args cuts old disk :=
  ⟨kept.1, .inr ⟨content, listed, .inr (.inl ⟨isFile_cacheTempSource, kept.2⟩)⟩⟩

theorem SourceBase.setFile (kept : SourceBase lib args cuts old content disk)
    (notSource : args.sourceFilename ≠ path) (notTarget : targetName args ≠ path)
    (file : Option File) : SourceBase lib args cuts old content (disk.setFile path file) :=
  ⟨kept.1.setFile notSource notTarget file, kept.2.setFile notSource file⟩

theorem CopyBase.unlinkSource (setting : FileSetting lib args out)
    (kept : CopyBase lib args cuts old content disk) :
    CopyBase lib args cuts old content (disk.setFile args.sourceFilename none) := by
  obtain ⟨base, file, found, rest⟩ := kept
  refine ⟨⟨?_, ?_, base.devicesRest, ?_⟩, file, ?_, rest⟩
  · intro stored found
    rw [Disk.setFile_files_same] at found
    cases found
  · by_cases same : targetName args = args.sourceFilename
    · intro stored found
      rw [same, Disk.setFile_files_same] at found
      cases found
    · exact base.targetRests.setFile same none
  · intro stored found
    by_cases same : targetName args = args.sourceFilename
    · rw [same, Disk.setFile_files_same] at found
      cases found
    · rw [Disk.setFile_files_of_ne _ _ same] at found
      exact base.clean stored found
  · rw [Disk.setFile_files_of_ne _ _ setting.sourceCopy.symm, found]

variable {file : FileContents} {value : Value}

/-- Moving a loaded source to the cache: afterwards the copy holds its content. -/
theorem moveSource_keeps (setting : FileSetting lib args out) (loaded : file.data = some value)
    (listed : Listed lib args value.data) (patch : Patch)
    (kept : SourceBase lib args cuts old value.data disk) :
    storage.Safe (Syncs cuts) (FileKept lib args cuts old)
      (fun room after => ∀ madeCopy, room = .ready madeCopy →
        CopyBase lib args cuts old value.data after)
      (moveSource args (targetName args) file (some patch)) disk := by
  unfold moveSource
  rw [if_neg (by simp)]
  split
  · exact .ret nofun
  have spared : ∀ disk path, Deletable path → SourceBase lib args cuts old value.data disk →
      SourceBase lib args cuts old value.data (disk.setFile path none) := by
    intro disk path deletable kept
    exact kept.setFile (fun same => setting.sourcePlace (same ▸ deletable))
      (fun same => setting.targetPlace (same ▸ deletable)) none
  have free : Unaffected (SourceBase lib args cuts old value.data) cacheTempSource :=
    fun disk file kept => kept.setFile setting.sourceCopy setting.targetCopy file
  have backUp : storage.Safe (Syncs cuts) _ _ (backUpSource file) disk :=
    backUpSource_keeps spared free (fun _ _ _ admitted => admitted) loaded kept
  refine .bind (backUp.relax (SourceBase.fileKept listed)) ?_
  rintro backedUp after ⟨kept, copied⟩
  cases backedUp with
  | false => exact .ret nofun
  | true =>
    have kept : CopyBase lib args cuts old value.data after := ⟨kept.1, copied rfl⟩
    refine .call ?_
    intro choice _
    have kept := unlink_keeps choice kept (kept.unlinkSource setting)
    have fine := CopyBase.fileKept listed _ kept
    refine ⟨fine, ?_⟩
    exact observing_call (by trivial) fine fun _ => .ret fun _ _ => kept

section

variable (setting : FileSetting lib args out) (free : Unaffected keep (outname (targetName args)))
  (keeps : ∀ disk, keep disk → FileKept lib args cuts old disk)
  (parsed : parseSha1 args.targetSha1Str = some targetSha1)

include setting free keeps parsed

theorem replaceTarget_keeps {ctx : Bytes} (st : Meta) (madeCopy : Bool)
    (kept : keep disk) (written : OutputWritten args cuts out ctx disk) :
    storage.Safe (Syncs cuts) (FileKept lib args cuts old) (fun _ _ => True)
      (replaceTarget lib (targetName args) targetSha1 st ctx madeCopy) disk := by
  unfold replaceTarget
  split
  · exact .ret trivial
  rename_i same
  have same : ctx = out := by
    apply setting.collisionFree
    rw [not_not.mp same]
    exact Option.some.inj (parsed.symm.trans setting.hash)
  have held : HeldByFile cuts disk (outname (targetName args)) out := by
    obtain ⟨content, held, ⟨rfl, whole⟩ | shorter⟩ := written
    · rwa [whole] at held
    · rw [same] at shorter
      omega
  refine .bind ((metadata_keeps (.inl ⟨_, rfl⟩) free kept held).relax keeps) ?_
  rintro modeSet disk ⟨kept, held⟩
  split
  swap
  · exact .ret trivial
  refine .bind ((metadata_keeps (.inr ⟨_, _, rfl⟩) free kept held).relax keeps) ?_
  rintro ownerSet disk ⟨kept, held⟩
  split
  swap
  · exact .ret trivial
  refine .call ?_
  intro choice _
  obtain ⟨file, there, data, synced⟩ := held
  by_cases renamed : choice = .ok
  swap
  · simp only [perform_rename_of_ne renamed]
    exact ⟨keeps disk kept, .ret trivial⟩
  simp only [perform, renamed, there]
  obtain ⟨base, finished⟩ := (keeps disk kept).1.replaced setting data synced
  refine ⟨⟨base, .inl finished⟩, ?_⟩
  cases madeCopy with
  | false => exact .ret trivial
  | true =>
    refine .call fun choice _ => ⟨?_, .ret trivial⟩
    obtain ⟨content, held, hash⟩ := finished
    exact unlink_keeps _ ⟨base, .inl ⟨content, held, hash⟩⟩
      ⟨base.setFile setting.sourceCopy setting.targetCopy none,
        .inl ⟨content, held.setFile setting.targetCopy none, hash⟩⟩

theorem lastPass_keeps_rest (suits : Suits lib args toUse)
    (st : Meta) (madeCopy : Bool) (kept : keep disk) :
    storage.Safe (Syncs cuts) (FileKept lib args cuts old) (fun _ _ => True)
      (do
        match ← writeOutput lib args (targetName args) toUse false with
        | .applied ctx => replaceTarget lib (targetName args) targetSha1 st ctx madeCopy
        | _ => .ret (1 : Int)) disk := by
  refine .bind ((writeOutput_keeps setting.yields free suits false kept).relax keeps) ?_
  rintro pass after ⟨kept, written⟩
  cases pass with
  | failed => exact .ret trivial
  | again => exact .ret trivial
  | applied ctx =>
    exact replaceTarget_keeps setting free keeps parsed st madeCopy kept (written ctx rfl)

/-- `GenerateTarget` for a file: a pass that may be repeated, and the last one. -/
theorem generateFile_keeps {sourcePatch : Option Patch} (suits : Suits lib args toUse)
    (last : ∀ disk, keep disk → storage.Safe (Syncs cuts) (FileKept lib args cuts old)
      (fun _ _ => True)
      (lastPass lib args (targetName args) targetSha1 file sourcePatch toUse) disk)
    (kept : keep disk) : storage.Safe (Syncs cuts) (FileKept lib args cuts old) (fun _ _ => True)
      (generateFile lib args (targetName args) targetSha1 file sourcePatch toUse) disk := by
  apply observing (enoughSpace_observes (targetName args) args.targetSize) (keeps disk kept)
  intro enough _
  cases enough with
  | false => exact last disk kept
  | true =>
    refine .bind ((writeOutput_keeps setting.yields free suits true kept).relax keeps) ?_
    rintro pass after ⟨kept, written⟩
    cases pass with
    | failed => exact .ret trivial
    | again => exact last after kept
    | applied ctx =>
      exact replaceTarget_keeps setting free keeps parsed _ false kept (written ctx rfl)

end

section

variable (setting : FileSetting lib args out)
  (parsed : parseSha1 args.targetSha1Str = some targetSha1) {copyFile : FileContents}
  {patch : Patch} (member : patch ∈ args.patches)
  (hash : parseSha1 patch.sha1Str = some (lib.sha1 value.data))

include setting parsed member hash

/-- With a source that was loaded, and that the last pass moves to the cache. -/
theorem generateFile_source_keeps (loaded : file.data = some value)
    (kept : SourceBase lib args cuts old value.data disk) :
    storage.Safe (Syncs cuts) (FileKept lib args cuts old) (fun _ _ => True)
      (generateFile lib args (targetName args) targetSha1 file (some patch)
        (sourceToUse file copyFile (some patch) none)) disk := by
  have listed : Listed lib args value.data := ⟨patch, member, hash⟩
  have suits : Suits lib args (sourceToUse file copyFile (some patch) none) := by
    intro value' st patch' same
    simp only [sourceToUse, loaded, Option.map_some, Option.some.injEq, Prod.mk.injEq] at same
    obtain ⟨rfl, _, rfl⟩ := same
    exact ⟨member, hash⟩
  have freeSource : Unaffected (SourceBase lib args cuts old value.data) (outname (targetName args)) :=
    fun disk file kept => kept.setFile setting.sourceOutput (outname_ne _) file
  have freeCopy : Unaffected (CopyBase lib args cuts old value.data) (outname (targetName args)) := by
    rintro disk file ⟨base, stored, found, rest⟩
    refine ⟨base.setFile setting.sourceOutput (outname_ne _) file, stored, ?_, rest⟩
    rw [Disk.setFile_files_of_ne _ _ (outname_ne_copy _).symm, found]
  refine generateFile_keeps setting freeSource (SourceBase.fileKept listed) parsed suits ?_ kept
  intro disk kept
  refine .bind (moveSource_keeps setting loaded listed patch kept) ?_
  intro room after moved
  cases room with
  | failed => exact .ret trivial
  | ready madeCopy =>
    exact lastPass_keeps_rest setting freeCopy (CopyBase.fileKept listed) parsed suits _ madeCopy
      (moved madeCopy rfl)

/-- With the copy in place of the source: neither of them is touched. -/
theorem generateFile_copy_keeps (loaded : copyFile.data = some value)
    (kept : FileKept lib args cuts old disk) :
    storage.Safe (Syncs cuts) (FileKept lib args cuts old) (fun _ _ => True)
      (generateFile lib args (targetName args) targetSha1 file none
        (sourceToUse file copyFile none (some patch))) disk := by
  have suits : Suits lib args (sourceToUse file copyFile none (some patch)) := by
    intro value' st patch' same
    simp only [sourceToUse, loaded, some_bind, Option.some.injEq, Prod.mk.injEq] at same
    obtain ⟨rfl, _, rfl⟩ := same
    exact ⟨member, hash⟩
  have free : Unaffected (FileKept lib args cuts old) (outname (targetName args)) := by
    rintro disk file ⟨base, recoverable⟩
    exact ⟨base.setFile setting.sourceOutput (outname_ne _) file,
      recoverable.setFile setting.sourceOutput (outname_ne _) (outname_ne_copy _).symm file⟩
  refine generateFile_keeps setting free (fun _ => id) parsed suits ?_ kept
  intro disk kept
  exact lastPass_keeps_rest setting free (fun _ => id) parsed suits _ false kept

end

/-- A run on a file keeps what a later run needs, and keeps the target clean. -/
theorem applypatch_file_keeps (setting : FileSetting lib args out)
    (kept : FileKept lib args cuts old disk) :
    storage.Safe (Syncs cuts) (FileKept lib args cuts old) (fun _ _ => True)
      (applypatch lib memory args) disk := by
  unfold applypatch applypatchBy
  rcases parsed : parseSha1 args.targetSha1Str with _ | targetSha1
  · exact .ret trivial
  have settled : ∀ partition choice, Syncs cuts ⟨.openPartition partition, choice, disk⟩ →
      cuts = true → (disk.devices partition).synced = true :=
    fun partition _ _ cut => kept.1.devicesRest cut partition
  apply observing (loadFileContents_observes (targetName args) _ (fun _ => kept.1.targetRests)
    settled) kept
  rintro ⟨loaded, file⟩ target
  dsimp only
  split
  · exact .ret trivial
  apply observing (loadSource_observes (fun _ => True) (fun value found _ => target value found)
    kept.1.sourceRests settled fun _ _ _ _ masked _ => stopAtTrailer_matched masked) kept
  intro file held
  unfold patchSource
  rcases found : patchFor lib args file with _ | patch
  · apply observing (loadFileContents_visible cacheTempSource _) kept
    rintro ⟨loaded, copyFile⟩ _
    dsimp only
    split
    · exact .ret trivial
    rcases found : patchFor lib args copyFile with _ | patch
    · exact .ret trivial
    obtain ⟨value, data, member, hash⟩ := patchFor_some found
    simp only [generateTarget, setting.fileTarget, Bool.false_eq_true, if_false]
    exact generateFile_copy_keeps setting parsed member hash data kept
  · obtain ⟨value, data, member, hash⟩ := patchFor_some found
    simp only [generateTarget, setting.fileTarget, Bool.false_eq_true, if_false]
    exact generateFile_source_keeps setting parsed member hash data
      ⟨kept.1, held value data trivial⟩

/-- Crash safety for files: in every sequence of runs with the same arguments, each cut
off after any step, and of power cuts where these may happen, the target is finished or
there is still something to patch, and the target never holds anything but its old
content, nothing, or a content with the hash asked for. -/
theorem applypatch_file_recoverable {start state : Disk} (setting : FileSetting lib args out)
    (rest : AtRest start) (recoverable : Recoverable lib args false start)
    (chain : storage.Chain (fun memory => applypatch lib memory args) (Syncs cuts)
      (Between cuts) start state) : Recoverable lib args false state ∧
      TargetClean lib args ((start.files (targetName args)).map File.data) state := by
  have kept : FileKept lib args cuts ((start.files (targetName args)).map File.data) start := by
    refine ⟨⟨fun file found _ => rest.1 _ file found, fun file found _ => rest.1 _ file found,
      fun _ => rest.2, ?_⟩, recoverable.imp fun _ _ _ => rest.held⟩
    intro file found
    exact .inl (by rw [found]; rfl)
  have final := chain.keeps kept (fun memory disk kept => applypatch_file_keeps setting kept) ?_
  · exact ⟨final.2.imp fun _ _ _ => .visible, final.1.clean⟩
  rintro disk after ⟨base, recoverable⟩ ⟨rfl, cut⟩
  refine ⟨⟨fun file found _ => cut.filesSynced _ file found,
    fun file found _ => cut.filesSynced _ file found, fun _ => cut.devicesSynced, ?_⟩,
    recoverable.imp fun _ _ _ held => held.powerCut cut⟩
  intro file found
  rcases before : disk.files (targetName args) with _ | stored
  · rw [cut.gone _ before] at found
    cases found
  · rw [cut.file _ stored before (base.targetRests stored before rfl)] at found
    cases found
    exact base.clean _ before

end

/-! ## A failed fsync -/

namespace Sample

def fileArgs : Args where
  sourceFilename := ['/', 's']
  targetFilename := ['-']
  targetSha1Str := digest '2'
  targetSize := 20
  patches := [patch]
  bonusData := none

theorem fileSetting : FileSetting lib fileArgs (content 2) where
  fileTarget := by decide
  sourceOutput := by decide
  sourceCopy := by decide
  targetCopy := by decide
  sourcePlace := by
    rintro ⟨_, ⟨name, _, wrong⟩ | ⟨name, _, wrong⟩⟩
    · simp [fileArgs, cacheDir] at wrong
    · simp [fileArgs, otatestDir, cacheDir] at wrong
  targetPlace := by
    rintro ⟨_, ⟨name, _, wrong⟩ | ⟨name, _, wrong⟩⟩
    · simp [targetName, fileArgs, cacheDir] at wrong
    · simp [targetName, fileArgs, otatestDir, cacheDir] at wrong
  collisionFree := fun _ _ same => same
  yields := by
    intro patch member old _
    cases List.mem_singleton.mp member
    exact ⟨rfl, rfl⟩
  hash := by decide

/-- A disk with one file. -/
def fileDisk (path : Text) (stored : Option File) : Disk where
  files := Function.update (fun _ => none) path stored
  devices := fun _ => ⟨[], true⟩

/-- The source is loaded, space is short, the copy is written, `fsync` is answered as
given, and the run is cut off after the source is deleted. -/
def moveChoices (fsync : Choice) : List Choice :=
  [.ok, .ok, .ok, .amount 0, .amount 4096, .ok, .ok, fsync, .ok, .ok, .ok]

/-- The run after which only the copy is left. -/
def movedDisk (fsync : Choice) : Disk :=
  (storage.exec (applypatch lib memory fileArgs) (moveChoices fsync)
    (fileDisk ['/', 's'] (some (file (content 1))))).1

/-- A power cut that loses every file that is not on the medium. -/
def afterCut (disk : Disk) : Disk where
  files := fun path => (disk.files path).filter File.synced
  devices := fun partition => ⟨(disk.devices partition).data, true⟩

theorem powerCut_afterCut (disk : Disk) : PowerCut disk (afterCut disk) where
  file := by
    intro path file found synced
    simp [afterCut, found, synced]
  gone := by
    intro path missing
    simp [afterCut, missing]
  device := by
    intro partition synced
    simp only [afterCut]
    rw [← synced]
  filesSynced := by
    intro path file found
    exact (Option.filter_eq_some_iff.mp found).2
  devicesSynced := fun _ => rfl

theorem atRest_fileDisk (path : Text) (data : Bytes) : AtRest (fileDisk path (some (file data))) := by
  refine ⟨?_, fun _ => rfl⟩
  intro other stored found
  simp only [fileDisk, Function.update_apply] at found
  split at found
  · cases found
    rfl
  · cases found

theorem recoverable_start :
    Recoverable lib fileArgs false (fileDisk ['/', 's'] (some (file (content 1)))) :=
  .inr ⟨content 1, ⟨patch, List.mem_singleton_self _, by decide⟩,
    .inl (.inl ⟨by decide, file (content 1), rfl, rfl, by simp⟩)⟩

end Sample

open Sample in
/-- The source is deleted although the copy is not on the medium: the result of `fsync`
is not looked at.  A power cut then loses both. -/
theorem applypatch_file_ignores_fsync :
    FileSetting lib fileArgs (content 2) ∧ AtRest (fileDisk ['/', 's'] (some (file (content 1)))) ∧
      Recoverable lib fileArgs false (fileDisk ['/', 's'] (some (file (content 1)))) ∧
      storage.Chain (fun memory => applypatch lib memory fileArgs) (fun _ => True) (Between true)
        (fileDisk ['/', 's'] (some (file (content 1)))) (afterCut (movedDisk .fail)) ∧
      ¬ Recoverable lib fileArgs false (afterCut (movedDisk .fail)) := by
  refine ⟨fileSetting, atRest_fileDisk _ _, recoverable_start, ?_, ?_⟩
  · exact .between (.run memory _ .start fun _ _ => trivial) ⟨rfl, powerCut_afterCut _⟩
  have gone : ∀ path content, path = ['/', 's'] ∨ path = cacheTempSource →
      ¬ Held false (afterCut (movedDisk .fail)) path content := by
    rintro path content (rfl | rfl) (⟨_, stored, found, _⟩ | ⟨wrong, _⟩)
    · exact absurd found (by rintro ⟨⟩)
    · exact absurd wrong (by decide)
    · exact absurd found (by rintro ⟨⟩)
    · exact absurd wrong (by decide)
  rintro (⟨content, held, _⟩ | ⟨content, _, held | held⟩)
  · exact gone _ content (.inl rfl) held
  · exact gone _ content (.inl rfl) held
  · exact gone _ content (.inr rfl) held

open Sample in
/-- The same run with a copy that has reached the medium, and then a power cut. -/
theorem applypatch_file_recoverable_moved :
    Recoverable lib fileArgs false (afterCut (movedDisk .ok)) := by
  have chain : storage.Chain (fun memory => applypatch lib memory fileArgs) (Syncs true)
      (Between true) (fileDisk ['/', 's'] (some (file (content 1)))) (afterCut (movedDisk .ok)) := by
    refine .between (.run memory _ .start ?_) ⟨rfl, powerCut_afterCut _⟩
    have checked : (storage.steps (applypatch lib memory fileArgs) (moveChoices .ok)
        (fileDisk ['/', 's'] (some (file (content 1))))).all (fun step =>
          match step.op with
          | .fsync _ => step.choice = .ok
          | _ => true) = true := rfl
    intro step member
    have fine := List.all_eq_true.mp checked step member
    unfold Syncs
    split
    · rename_i same
      simpa [same] using fine
    · trivial
  exact (applypatch_file_recoverable fileSetting (atRest_fileDisk _ _) recoverable_start chain).1

end PhilzTouch.ApplyPatch
