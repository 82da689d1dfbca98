import PhilzTouch.ApplyPatch.StorageSpec

/-!
# Crash safety for partition targets

At every moment either the target holds its new content, or the source or the copy in
the cache holds a content that one of the patches is for: that is what a run has to
keep, so that a later run can finish the work.
-/

namespace PhilzTouch.ApplyPatch

/-- One of the patches is for this content. -/
def Listed (lib : Library) (args : Args) (content : Bytes) : Prop :=
  ∃ patch ∈ args.patches, parseSha1 patch.sha1Str = some (lib.sha1 content)

/-- The target has the hash that was asked for. -/
def Finished (lib : Library) (args : Args) (cuts : Bool) (disk : Disk) : Prop :=
  ∃ content, Held cuts disk (targetName args) content ∧
    parseSha1 args.targetSha1Str = some (lib.sha1 content)

/-- The target is finished, or the source or the copy can still be patched. -/
def Recoverable (lib : Library) (args : Args) (cuts : Bool) (disk : Disk) : Prop :=
  Finished lib args cuts disk ∨ ∃ content, Listed lib args content ∧
    (Held cuts disk args.sourceFilename content ∨ Held cuts disk cacheTempSource content)

/-- What the target, the source and the copy hold is all that matters. -/
theorem Recoverable.imp {lib : Library} {args : Args} {cuts cuts' : Bool} {disk after : Disk}
    (recoverable : Recoverable lib args cuts disk)
    (kept : ∀ name ∈ [targetName args, args.sourceFilename, cacheTempSource], ∀ content,
      Held cuts disk name content → Held cuts' after name content) :
    Recoverable lib args cuts' after := by
  obtain ⟨target, source, copy, -⟩ : _ ∧ _ ∧ _ ∧ _ := by
    simpa only [List.forall_mem_cons] using kept
  rcases recoverable with ⟨content, held, hash⟩ | ⟨content, listed, held | held⟩
  · exact .inl ⟨content, target content held, hash⟩
  · exact .inr ⟨content, listed, .inl (source content held)⟩
  · exact .inr ⟨content, listed, .inr (copy content held)⟩

/-- A file is on the medium, if it matters and if there is one. -/
def Rests (cuts : Bool) (path : Text) (disk : Disk) : Prop :=
  ∀ file, disk.files path = some file → cuts = true → file.synced = true

theorem Rests.setFile {cuts : Bool} {disk : Disk} {path other : Text}
    (rests : Rests cuts path disk) (different : path ≠ other) (file : Option File) :
    Rests cuts path (disk.setFile other file) := by
  intro stored found
  rw [Disk.setFile_files_of_ne disk file different] at found
  exact rests stored found

/-- Nothing is pending: the bytes of every file and partition are on the medium. -/
def AtRest (disk : Disk) : Prop :=
  (∀ path file, disk.files path = some file → file.synced = true) ∧
    ∀ partition, (disk.devices partition).synced = true

/-- What may happen between two runs, besides nothing: a power cut. -/
def Between (cuts : Bool) (disk after : Disk) : Prop := cuts = true ∧ PowerCut disk after

section

variable {lib : Library} {memory : Memory} {args : Args} {cuts : Bool} {disk : Disk}
  {allowed : storage.Step → Prop} {keep : Disk → Prop}

theorem isFile_cacheTempSource : isPartitionName cacheTempSource = false := by decide

variable {file : FileContents}

theorem patchFor_some {patch : Patch} (found : patchFor lib args file = some patch) :
    ∃ value, file.data = some value ∧ patch ∈ args.patches ∧
      parseSha1 patch.sha1Str = some (lib.sha1 value.data) := by
  rcases data : file.data with _ | value
  · simp [patchFor, FileContents.sha1, data] at found
  · have found : findMatchingPatch (lib.sha1 value.data) args.patches = some patch := by
      simpa [patchFor, FileContents.sha1, data] using found
    exact ⟨value, rfl, List.mem_of_find?_eq_some found, by simpa using List.find?_some found⟩

/-- What counts as the source is what the source holds. -/
theorem loadSource_observes {mask : Bytes → Masked} (relevant : Bytes → Prop)
    (target : ∀ value, file.data = some value → relevant value.data →
      Held cuts disk (targetName args) value.data) (rests : Rests cuts args.sourceFilename disk)
    (settled : ∀ partition choice, allowed ⟨.openPartition partition, choice, disk⟩ →
      cuts = true → (disk.devices partition).synced = true)
    (reads : ∀ count choice data, allowed ⟨.readFile args.sourceFilename count, choice, disk⟩ →
      mask (perform (.readFile args.sourceFilename count) choice disk).2 = .matched data →
        relevant data → data = (perform (.readFile args.sourceFilename count) choice disk).2) :
    storage.Observes True Op.Quiet allowed (fun file => ∀ value, file.data = some value →
      relevant value.data → Held cuts disk args.sourceFilename value.data)
      (loadSource (loadFileWith mask lib memory) args file) disk := by
  unfold loadSource
  split
  · refine .bind (loadFileWith_held args.sourceFilename _ (fun _ => rests) settled reads) ?_
    exact fun loaded held => .ret held
  · rename_i same
    have same : targetName args = args.sourceFilename := by
      by_contra different
      exact same (.inr different)
    exact .ret fun value found chosen => same ▸ target value found chosen

/-- Backing up a loaded source: if it says so, the copy holds it. -/
theorem backUpSource_keeps (spared : ∀ disk path, Deletable path → keep disk →
      keep (disk.setFile path none)) (free : Unaffected keep cacheTempSource)
    (synced : ∀ path choice disk, allowed ⟨.fsync path, choice, disk⟩ → cuts = true → choice = .ok)
    {value : Value} (loaded : file.data = some value) (kept : keep disk) :
    storage.Safe allowed keep (fun backedUp after => keep after ∧
        (backedUp = true → HeldByFile cuts after cacheTempSource value.data))
      (backUpSource file) disk := by
  refine .bind (makeFreeSpaceOnCache_keeps spared _ kept) ?_
  intro room after kept
  split
  · exact .ret ⟨kept, nofun⟩
  · refine .bind (saveFileContents_keeps free (synced cacheTempSource) loaded kept) ?_
    rintro saved after ⟨kept, held⟩
    exact .ret ⟨kept, fun done => held (by simpa using done)⟩

end

/-! ## Runs that do not fall back on the copy -/

/-- The steps under which a partition target is crash safe: a file whose masked contents a
patch is for is not changed by masking, and is not the copy, since the run would then save
a source it has not loaded over it.  Where the power may be cut, `fsync` succeeds as well,
and no partition is loaded while bytes written to it are pending. -/
def SparesCopy (lib : Library) (args : Args) (cuts : Bool) (step : storage.Step) : Prop :=
  match step.op with
  | .readFile path count =>
    ∀ data, retouchMask (perform (.readFile path count) step.choice step.before).2 = .matched data →
      Listed lib args data → path ≠ cacheTempSource ∧
        data = (perform (.readFile path count) step.choice step.before).2
  | .fsync _ => cuts = true → step.choice = .ok
  | .fsyncDevice _ => cuts = true → step.choice = .ok
  | .openPartition partition => cuts = true → (step.before.devices partition).synced = true
  | _ => True

/-- What every step of a run on a partition keeps. -/
def PartitionKept (lib : Library) (args : Args) (cuts : Bool) (disk : Disk) : Prop :=
  Recoverable lib args cuts disk ∧ Rests cuts args.sourceFilename disk

/-- The source holds a content. -/
def SourceKept (args : Args) (cuts : Bool) (content : Bytes) (disk : Disk) : Prop :=
  Held cuts disk args.sourceFilename content ∧ Rests cuts args.sourceFilename disk

/-- The copy holds a content. -/
def CopyKept (args : Args) (cuts : Bool) (content : Bytes) (disk : Disk) : Prop :=
  HeldByFile cuts disk cacheTempSource content ∧ Rests cuts args.sourceFilename disk

section

variable {lib : Library} {memory : Memory} {args : Args} {cuts : Bool} {disk : Disk}
  {content : Bytes}

theorem SourceKept.setFile {path : Text} (kept : SourceKept args cuts content disk)
    (different : args.sourceFilename ≠ path) (file : Option File) :
    SourceKept args cuts content (disk.setFile path file) :=
  ⟨kept.1.setFile different file, kept.2.setFile different file⟩

theorem SourceKept.partitionKept (kept : SourceKept args cuts content disk)
    (listed : Listed lib args content) : PartitionKept lib args cuts disk :=
  ⟨.inr ⟨content, listed, .inl kept.1⟩, kept.2⟩

/-- While the copy holds a content that a patch is for, everything else may change. -/
theorem CopyKept.partitionKept (kept : CopyKept args cuts content disk)
    (listed : Listed lib args content) : PartitionKept lib args cuts disk :=
  ⟨.inr ⟨content, listed, .inr (.inl ⟨isFile_cacheTempSource, kept.1⟩)⟩, kept.2⟩

section

variable (partitionTarget : isPartitionName (targetName args) = true) (notCopy : args.sourceFilename ≠ cacheTempSource)

include partitionTarget notCopy

/-- Once the copy is made, the partition can be written and the copy then deleted. -/
theorem writeBackedUp_keeps {content out : Bytes} (listed : Listed lib args content)
    (parsed : parseSha1 args.targetSha1Str = some (lib.sha1 out))
    (kept : CopyKept args cuts content disk) :
    storage.Safe (SparesCopy lib args cuts) (PartitionKept lib args cuts) (fun _ _ => True)
      (do
        let written ← writeToPartition memory out (targetName args)
        if written ≠ 0 then .ret 1
        else do
          let _ ← Prog.call (Op.unlink cacheTempSource)
          .ret (0 : Int)) disk := by
  have free : ∀ partition, partitionOf (targetName args) = some partition →
      UnaffectedBy (CopyKept args cuts content) partition := fun _ _ _ _ kept => kept
  have written : storage.Safe (SparesCopy lib args cuts) _ _
      (writeToPartition memory out (targetName args)) disk :=
    writeToPartition_keeps free (fun _ _ _ admitted => admitted) out kept
  refine .bind (written.relax fun disk kept => CopyKept.partitionKept kept listed) ?_
  rintro result after ⟨kept, done⟩
  by_cases failed : result ≠ 0
  · rw [if_pos failed]
    exact .ret trivial
  rw [if_neg failed]
  refine .call fun choice _ => ⟨?_, .ret trivial⟩
  have held := done (not_not.mp failed)
  exact unlink_keeps _ ⟨.inl ⟨out, .inr ⟨partitionTarget, held⟩, parsed⟩, kept.2⟩
    ⟨.inl ⟨out, .inr ⟨partitionTarget, held⟩, parsed⟩, kept.2.setFile notCopy none⟩

/-- `GenerateTarget` for a partition, with a source that was loaded. -/
theorem generatePartition_keeps {file copyFile : FileContents} {value : Value} {patch : Patch}
    {targetSha1 : Bytes} (safePlace : ¬ Deletable args.sourceFilename)
    (parsed : parseSha1 args.targetSha1Str = some targetSha1) (loaded : file.data = some value)
    (listed : Listed lib args value.data) (kept : SourceKept args cuts value.data disk) :
    storage.Safe (SparesCopy lib args cuts) (PartitionKept lib args cuts) (fun _ _ => True)
      (generatePartition lib memory args (targetName args) targetSha1 file
        (sourceToUse file copyFile (some patch) none)) disk := by
  have spared : ∀ disk path, Deletable path → SourceKept args cuts value.data disk →
      SourceKept args cuts value.data (disk.setFile path none) := by
    intro disk path deletable kept
    exact kept.setFile (fun same => safePlace (same ▸ deletable)) none
  have free : Unaffected (SourceKept args cuts value.data) cacheTempSource :=
    fun disk file kept => kept.setFile notCopy file
  have backUp : storage.Safe (SparesCopy lib args cuts) _ _ (backUpSource file) disk :=
    backUpSource_keeps spared free (fun _ _ _ admitted => admitted) loaded kept
  refine .bind (backUp.relax fun disk kept => SourceKept.partitionKept kept listed) ?_
  rintro backedUp after ⟨⟨_, rests⟩, copied⟩
  cases backedUp with
  | false => exact .ret trivial
  | true =>
    have kept : CopyKept args cuts value.data after := ⟨copied rfl, rests⟩
    simp only [sourceToUse, loaded, Option.map_some, if_true]
    split
    swap
    · exact .ret trivial
    have applied : storage.Safe (SparesCopy lib args cuts) (CopyKept args cuts value.data) _
        (applyPatchData lib value patch.value args.bonusData
          (memorySink (wrap args.targetSize)) []) after :=
      applyPatchData_keeps (memorySink_keeps _) lib value patch.value args.bonusData ⟨rfl, kept⟩
    refine .bind (applied.relax fun disk kept => CopyKept.partitionKept kept listed) ?_
    intro result after known
    cases result with
    | none => exact .ret trivial
    | some applied =>
      dsimp only
      split
      · exact .ret trivial
      rename_i success
      split
      · exact .ret trivial
      rename_i hash
      obtain ⟨out, _, same, kept⟩ := known applied rfl (not_not.mp success)
      apply writeBackedUp_keeps partitionTarget notCopy listed _ kept
      rw [same, not_not.mp hash, parsed]

theorem applypatch_partition_keeps (safePlace : ¬ Deletable args.sourceFilename)
    (kept : PartitionKept lib args cuts disk) :
    storage.Safe (SparesCopy lib args cuts) (PartitionKept lib args cuts) (fun _ _ => True)
      (applypatchMasked lib memory args) disk := by
  unfold applypatchMasked applypatchBy
  rcases parsed : parseSha1 args.targetSha1Str with _ | targetSha1
  · exact .ret trivial
  have settled : ∀ partition choice,
      SparesCopy lib args cuts ⟨.openPartition partition, choice, disk⟩ →
        cuts = true → (disk.devices partition).synced = true := fun _ _ admitted => admitted
  have notFile : isPartitionName (targetName args) = false → Rests cuts (targetName args) disk := by
    rw [partitionTarget]
    intro wrong
    cases wrong
  have reads : ∀ path count choice data,
      SparesCopy lib args cuts ⟨.readFile path count, choice, disk⟩ →
        retouchMask (perform (.readFile path count) choice disk).2 = .matched data →
          Listed lib args data → data = (perform (.readFile path count) choice disk).2 :=
    fun _ _ _ data admitted masked listed => (admitted data masked listed).2
  apply observing (loadFileWith_held (targetName args) _ notFile settled (reads _)) kept
  rintro ⟨loaded, file⟩ target
  dsimp only
  split
  · exact .ret trivial
  apply observing (loadSource_observes (Listed lib args) target kept.2 settled (reads _)) kept
  intro file held
  unfold patchSource
  rcases found : patchFor lib args file with _ | patch
  · -- the copy can be loaded, but no patch is for it
    apply observing (loadFileWith_observes _ isFile_cacheTempSource) kept
    rintro ⟨loaded, copyFile⟩ copied
    dsimp only
    split
    · exact .ret trivial
    rcases found : patchFor lib args copyFile with _ | patch
    · exact .ret trivial
    obtain ⟨value, data, member, hash⟩ := patchFor_some found
    obtain ⟨_, _, masked, _, _, admitted, read⟩ := copied value data
    exact absurd rfl (admitted value.data (read ▸ masked) ⟨patch, member, hash⟩).1
  · obtain ⟨value, data, member, hash⟩ := patchFor_some found
    simp only [generateTarget, partitionTarget, if_true]
    exact generatePartition_keeps partitionTarget notCopy safePlace parsed data
      ⟨patch, member, hash⟩ ⟨held value data ⟨patch, member, hash⟩, kept.2⟩

end

theorem AtRest.held {name : Text} (rest : AtRest disk)
    (held : Held false disk name content) : Held cuts disk name content := by
  rcases held with ⟨isFile, file, found, same, _⟩ | ⟨isPartition, partition, named, starts, _⟩
  · exact .inl ⟨isFile, file, found, same, fun _ => rest.1 _ file found⟩
  · exact .inr ⟨isPartition, partition, named, starts, fun _ => rest.2 partition⟩

/-- What is loaded of a name: the contents of a partition, or the masked contents of a file. -/
def Loads (disk : Disk) (name : Text) (content : Bytes) : Prop :=
  ∃ raw, Held false disk name raw ∧
    if isPartitionName name then raw = content else retouchMask raw = .matched content

/-- A later run finds the target finished, or loads a source or a copy that a patch is for. -/
def Resumable (lib : Library) (args : Args) (disk : Disk) : Prop :=
  Finished lib args false disk ∨ ∃ content, Listed lib args content ∧
    (Loads disk args.sourceFilename content ∨ Loads disk cacheTempSource content)

theorem Recoverable.resumable (recoverable : Recoverable lib args false disk)
    (plain : ∀ content, Listed lib args content → retouchMask content = .matched content) :
    Resumable lib args disk := by
  have loads : ∀ {name content}, Listed lib args content → Held false disk name content →
      Loads disk name content := by
    intro name content listed held
    refine ⟨content, held, ?_⟩
    split
    · rfl
    · exact plain content listed
  rcases recoverable with finished | ⟨content, listed, held | held⟩
  · exact .inl finished
  · exact .inr ⟨content, listed, .inl (loads listed held)⟩
  · exact .inr ⟨content, listed, .inr (loads listed held)⟩

/-- Crash safety for partitions: in every sequence of runs with the same arguments, each
cut off after any step, and of power cuts where these may happen, the target is
finished or there is still something to patch that a later run can load, as long as no run
falls back on the copy and masking leaves the contents that can be patched alone. -/
theorem applypatch_partition_recoverable {start state : Disk}
    (partitionTarget : isPartitionName (targetName args) = true)
    (notCopy : args.sourceFilename ≠ cacheTempSource) (safePlace : ¬ Deletable args.sourceFilename)
    (plain : ∀ content, Listed lib args content → retouchMask content = .matched content)
    (rest : AtRest start) (recoverable : Recoverable lib args false start)
    (chain : storage.Chain (fun memory => applypatchMasked lib memory args)
      (SparesCopy lib args cuts) (Between cuts) start state) :
    Recoverable lib args false state ∧ Resumable lib args state := by
  have kept : PartitionKept lib args cuts start :=
    ⟨recoverable.imp fun _ _ _ => rest.held, fun file found _ => rest.1 _ file found⟩
  have final : PartitionKept lib args cuts state := by
    refine chain.keeps kept (fun memory disk kept => ?_) ?_
    · exact applypatch_partition_keeps partitionTarget notCopy safePlace kept
    · rintro disk after ⟨recoverable, _⟩ ⟨rfl, cut⟩
      exact ⟨recoverable.imp fun _ _ _ held => held.powerCut cut,
        fun file found _ => cut.filesSynced _ file found⟩
  have visible : Recoverable lib args false state := final.1.imp fun _ _ _ => .visible
  exact ⟨visible, visible.resumable plain⟩

end

/-! ## A run that falls back on the copy -/

/-- A patch yields `out` when it is applied to a source that it is listed for. -/
def Yields (lib : Library) (args : Args) (out : Bytes) : Prop :=
  ∀ patch ∈ args.patches, ∀ old : Value, parseSha1 patch.sha1Str = some (lib.sha1 old.data) →
    patch.isBlob = true ∧
      applyPatchData lib old patch.value args.bonusData collect [] = .ret (some ⟨0, out, out⟩)

namespace Sample

/-- A hash without collisions, and no compression. -/
def lib : Library where
  sha1 := id
  bz := ⟨id, fun data => (data, .streamEnd)⟩
  zlib := ⟨fun _ => none, fun _ _ _ => none⟩

def memory : Memory := ⟨0, ⟨0, 0, 0⟩, fun _ => 0, 1⟩

def content (byte : UInt8) : Bytes := List.replicate 20 byte

/-- The hash of twenty bytes of value `digit`, as it is written. -/
def digest (digit : Char) : Text := (List.replicate 20 ['0', digit]).flatten

/-- `"EMMC:p:20:<digest of 1>:20:<digest of 2>"`. -/
def partitionName : Text :=
  ['E', 'M', 'M', 'C', ':', 'p', ':', '2', '0', ':'] ++ digest '1' ++ [':', '2', '0', ':'] ++
    digest '2'

/-- An image patch with one raw chunk. -/
def patch : Patch where
  sha1Str := digest '1'
  isBlob := true
  value := ⟨imgdiffMagic ++ [1, 0, 0, 0, 3, 0, 0, 0, 20, 0, 0, 0] ++ content 2, fun _ => 0, by decide⟩

def partitionArgs : Args where
  sourceFilename := partitionName
  targetFilename := partitionName
  targetSha1Str := digest '2'
  targetSize := 20
  patches := [patch]
  bonusData := none

def file (data : Bytes) : File := ⟨data, true, ⟨0o600, 0, 0⟩⟩

/-- A partition with the given contents, and a copy of the source in the cache. -/
def partitionDisk (data : Bytes) (copy : Option File) : Disk where
  files := Function.update (fun _ => none) cacheTempSource copy
  devices := fun _ => ⟨data, true⟩

/-- The partition is loaded twice and the copy once, there is room on the cache, and the
run is cut off after it has opened the copy for writing. -/
def partitionChoices : List Choice :=
  [.ok, .ok, .ok, .ok, .ok, .ok, .ok, .amount 4096, .ok]

/-- The partition is loaded once, there is room on the cache, and the run is cut off after
it has opened the copy for writing. -/
def cutChoices : List Choice := [.ok, .ok, .amount 4096, .ok]

theorem yields : Yields lib partitionArgs (content 2) := by
  intro patch member old _
  cases List.mem_singleton.mp member
  exact ⟨rfl, rfl⟩

theorem listed_iff (data : Bytes) : Listed lib partitionArgs data ↔ data = content 1 := by
  have parsed : parseSha1 (digest '1') = some (content 1) := by decide
  simp [Listed, partitionArgs, patch, parsed, lib, eq_comm]

theorem atRest (data copy : Bytes) : AtRest (partitionDisk data (some (file copy))) := by
  refine ⟨?_, fun _ => rfl⟩
  intro path stored found
  simp only [partitionDisk, Function.update_apply] at found
  split at found
  · cases found
    rfl
  · cases found

/-- With nothing useful in the cache, all depends on what the partition starts with. -/
theorem not_recoverable {disk : Disk} {copy : File} (data : Bytes)
    (device : ∀ partition, (disk.devices partition).data = data)
    (stored : disk.files cacheTempSource = some copy) (useless : copy.data ≠ content 1)
    (notSource : ¬ content 1 <+: data) (notTarget : ¬ content 2 <+: data) :
    ¬ Recoverable lib partitionArgs false disk := by
  have starts : ∀ {content}, Held false disk partitionName content → content <+: data := by
    rintro content (⟨wrong, _⟩ | ⟨_, partition, _, starts, _⟩)
    · exact absurd wrong (by decide)
    · rwa [device] at starts
  rintro (⟨content, held, hash⟩ | ⟨content, listed, held | ⟨_, copy', found, same, _⟩ | ⟨wrong, _⟩⟩)
  · have parsed : parseSha1 partitionArgs.targetSha1Str = some (Sample.content 2) := by decide
    rw [parsed] at hash
    cases hash
    exact notTarget (starts held)
  · rw [(listed_iff content).mp listed] at held
    exact notSource (starts held)
  · rw [stored] at found
    cases found
    exact useless (same.trans ((listed_iff content).mp listed))
  · exact absurd wrong (by decide)

end Sample

open Sample in
/-- The copy of an interrupted run is truncated before anything else holds its content:
the source was not loaded, and what is saved in the place of the copy is nothing. -/
theorem applypatch_partition_truncates_copy :
    Function.Injective lib.sha1 ∧ isPartitionName (targetName partitionArgs) = true ∧
      Yields lib partitionArgs (content 2) ∧
      parseSha1 partitionArgs.targetSha1Str = some (lib.sha1 (content 2)) ∧
      AtRest (partitionDisk (content 3) (some (file (content 1)))) ∧
      Recoverable lib partitionArgs false (partitionDisk (content 3) (some (file (content 1)))) ∧
      ¬ Recoverable lib partitionArgs false
        (storage.exec (applypatchMasked lib memory partitionArgs) partitionChoices
          (partitionDisk (content 3) (some (file (content 1))))).1 := by
  refine ⟨fun _ _ same => same, by decide, yields, by decide, atRest _ _, ?_, ?_⟩
  · exact .inr ⟨content 1, (listed_iff _).mpr rfl,
      .inr (.inl ⟨isFile_cacheTempSource, file (content 1), rfl, rfl, by simp⟩)⟩
  have final : (storage.exec (applypatchMasked lib memory partitionArgs) partitionChoices
      (partitionDisk (content 3) (some (file (content 1))))).1 =
    (partitionDisk (content 3) (some (file (content 1)))).setFile cacheTempSource
      (some ⟨[], false, ⟨0o600, 0, 0⟩⟩) := by
    rfl
  rw [final]
  apply not_recoverable (content 3) (fun _ => rfl) rfl <;> decide

open Sample in
/-- A run that patches the partition itself and is cut off after the old copy is
truncated. -/
theorem applypatch_partition_recoverable_cut : Recoverable lib partitionArgs false
      (storage.exec (applypatchMasked lib memory partitionArgs) cutChoices
        (partitionDisk (content 1) (some (file (content 3))))).1 := by
  have steps : storage.steps (applypatchMasked lib memory partitionArgs) cutChoices
      (partitionDisk (content 1) (some (file (content 3)))) =
        [⟨.openPartition ⟨.emmc, ['p']⟩, .ok, partitionDisk (content 1) (some (file (content 3)))⟩,
          ⟨.readPartition ⟨.emmc, ['p']⟩ 0 20, .ok,
            partitionDisk (content 1) (some (file (content 3)))⟩,
          ⟨.statfs cacheDir, .amount 4096, partitionDisk (content 1) (some (file (content 3)))⟩,
          ⟨.create cacheTempSource, .ok, partitionDisk (content 1) (some (file (content 3)))⟩] := rfl
  have chain : storage.Chain (fun memory => applypatchMasked lib memory partitionArgs)
      (SparesCopy lib partitionArgs true) (Between true)
      (partitionDisk (content 1) (some (file (content 3)))) _ :=
    .run memory cutChoices .start (by rw [steps]; simp [SparesCopy, partitionDisk])
  refine (applypatch_partition_recoverable (by decide) (by decide) ?_ ?_ (atRest _ _) ?_ chain).1
  · rintro ⟨_, ⟨name, _, wrong⟩ | ⟨name, _, wrong⟩⟩
    · simp [partitionArgs, partitionName, cacheDir] at wrong
    · simp [partitionArgs, partitionName, otatestDir, cacheDir] at wrong
  · intro data listed
    rw [(listed_iff data).mp listed]
    decide +kernel
  · exact .inr ⟨content 1, (listed_iff _).mpr rfl,
      .inl (.inr ⟨by decide, ⟨.emmc, ['p']⟩, by decide, List.prefix_refl _, by simp⟩)⟩

end PhilzTouch.ApplyPatch
