import PhilzTouch.ApplyPatch.FileCrash
import PhilzTouch.ApplyPatch.Retouch

/-!
# Checking before patching

`applypatch_check` looks for a file with an expected hash, and then for the copy in the cache.  A
file that is missing is reported at once, so that a run that was cut off after the source had been
moved to the cache can be finished by `applypatch` and does not pass the check.
-/

namespace PhilzTouch.ApplyPatch

open List

/-- `FindMatchingPatch` on a loaded file. -/
def matchesSha1 (lib : Library) (patchSha1Str : List Text) (file : FileContents) : Bool :=
  patchSha1Str.any fun str => file.data.any fun value => parseSha1 str = some (lib.sha1 value.data)

/-- `applypatch_check`. -/
def applypatchCheck (lib : Library) (memory : Memory) (filename : Text) (patchSha1Str : List Text) :
    Action Int := do
  let (filestate, file) ← loadFileWith retouchMask lib memory filename
    ⟨none, memory.size, memory.st⟩
  if filestate = -2 then .ret (-2)
  else if filestate = 0 ∧ (patchSha1Str = [] ∨ matchesSha1 lib patchSha1Str file) then .ret 0
  else do
    let (loaded, file) ← loadFileWith retouchMask lib memory cacheTempSource
      { file with data := none, staleSize := file.size }
    if loaded = 0 ∧ matchesSha1 lib patchSha1Str file then .ret 0 else .ret 1

/-- The hashes that a script has checked before it patches a file. -/
def expectedSha1s (args : Args) : List Text := args.targetSha1Str :: args.patches.map Patch.sha1Str

/-- Every file is loaded as it is: its size fits, and it has no retouch trailer. -/
def PlainFiles (disk : Disk) : Prop :=
  ∀ path file, disk.files path = some file →
    file.data.length < 2 ^ 31 ∧ hasRetouchTrailer file.data = false

section

variable {lib : Library} {memory : Memory} {args : Args} {disk : Disk}

theorem exec_loadPlain {α : Type} (plain : PlainFiles disk) {filename : Text} {stored : File}
    (isFile : isPartitionName filename = false) (there : disk.files filename = some stored)
    (file : FileContents) (rest : Int × FileContents → Action α) (choices : List Choice) :
    ∃ value : Value, value.data = stored.data ∧
      storage.exec (loadFileWith retouchMask lib memory filename file >>= rest)
        (.ok :: .ok :: .ok :: choices) disk =
        storage.exec (rest (0, ⟨some value, wrap stored.data.length, stored.st⟩)) choices disk := by
  obtain ⟨fits, noTrailer⟩ := plain filename stored there
  have masked : retouchMask stored.data = .matched stored.data := by
    rw [retouchMask, if_neg (Nat.not_le.mpr fits), retouchMaskData, noTrailer]
    rfl
  refine ⟨⟨stored.data, memory.heap, fits⟩, rfl, ?_⟩
  rw [exec_loadFileWith isFile there, masked]
  simp only [Value.of?, dif_pos fits]

theorem Held.is_file {name : Text} {content : Bytes} (held : Held false disk name content)
    (isFile : isPartitionName name = false) :
    ∃ file, disk.files name = some file ∧ file.data = content := by
  rcases held with ⟨_, file, found, same, _⟩ | ⟨isPartition, _⟩
  · exact ⟨file, found, same⟩
  · cases isFile.symm.trans isPartition

theorem matchesSha1_of_expected {file : FileContents} {value : Value}
    (data : file.data = some value)
    (expected : parseSha1 args.targetSha1Str = some (lib.sha1 value.data) ∨
      Listed lib args value.data) : matchesSha1 lib (expectedSha1s args) file = true := by
  rw [matchesSha1, any_eq_true]
  rcases expected with target | ⟨patch, member, source⟩
  · exact ⟨_, mem_cons_self, by simp [data, target]⟩
  · exact ⟨_, mem_cons_of_mem _ (mem_map_of_mem member), by simp [data, source]⟩

/-- When a file is patched in place, and nothing fails, the check of a disk from which the
patch can be finished passes just if the file is there. -/
theorem applypatchCheck_recoverable (lib : Library) (memory : Memory) (args : Args) (disk : Disk)
    (inPlace : targetName args = args.sourceFilename)
    (isFile : isPartitionName args.sourceFilename = false) (plain : PlainFiles disk)
    (recoverable : Recoverable lib args false disk) :
    storage.exec (applypatchCheck lib memory args.sourceFilename (expectedSha1s args))
      (replicate 6 .ok) disk =
      (disk, .done (if disk.files args.sourceFilename = none then -2 else 0)) := by
  unfold applypatchCheck
  cases there : disk.files args.sourceFilename with
  | none =>
    rw [loadFileWith, if_neg (by simp [isFile]), Prog.bind_assoc]
    change storage.exec (.call _ >>= _) (.ok :: replicate 5 .ok) disk = _
    rw [Machine.exec_call_bind]
    simp only [perform, there]
    rfl
  | some stored =>
    obtain ⟨value, same, run⟩ := @exec_loadPlain lib memory disk _ plain _ _ isFile there
      ⟨none, memory.size, memory.st⟩ _ (replicate 3 .ok)
    refine run.trans ?_
    dsimp only
    rw [if_neg (by decide)]
    by_cases found : matchesSha1 lib (expectedSha1s args)
      ⟨some value, wrap stored.data.length, stored.st⟩ = true
    · rw [if_pos ⟨rfl, .inr found⟩]
      rfl
    -- the file has none of the hashes, so that the copy has one of them
    have unexpected := mt (matchesSha1_of_expected rfl) found
    rw [same] at unexpected
    obtain ⟨copy, copied, listed⟩ : ∃ copy, disk.files cacheTempSource = some copy ∧
        Listed lib args copy.data := by
      rcases recoverable with ⟨_, held, hash⟩ | ⟨_, listed, held | held⟩
      · rw [inPlace] at held
        obtain ⟨_, found, rfl⟩ := held.is_file isFile
        cases there.symm.trans found
        exact absurd (.inl hash) unexpected
      · obtain ⟨_, found, rfl⟩ := held.is_file isFile
        cases there.symm.trans found
        exact absurd (.inr listed) unexpected
      · obtain ⟨copy, copied, rfl⟩ := held.is_file (by decide)
        exact ⟨copy, copied, listed⟩
    rw [if_neg fun passed => passed.2.elim (cons_ne_nil _ _) found]
    obtain ⟨value, same, run⟩ :=
      @exec_loadPlain lib memory disk _ plain _ _ (by decide) copied _ _ []
    refine run.trans ?_
    rw [← same] at listed
    rw [if_pos ⟨rfl, matchesSha1_of_expected rfl (.inr listed)⟩]
    rfl

end

namespace Sample

/-- Only the copy in the cache is left. -/
def copyDisk : Disk := fileDisk cacheTempSource (some (file (content 1)))

theorem recoverable_copyDisk : Recoverable lib fileArgs false copyDisk :=
  .inr ⟨content 1, ⟨patch, mem_singleton_self _, by decide⟩,
    .inr (.inl ⟨by decide, file (content 1), rfl, rfl, by simp⟩)⟩

end Sample

open Sample in
/-- The patch can be finished, and the check does not pass. -/
theorem applypatchCheck_moved : Recoverable lib fileArgs false copyDisk ∧
    storage.exec (applypatchCheck lib memory ['/', 's'] (expectedSha1s fileArgs)) (replicate 6 .ok)
      copyDisk = (copyDisk, .done (-2)) := by
  refine ⟨recoverable_copyDisk, applypatchCheck_recoverable lib memory fileArgs copyDisk rfl
    (by decide) ?_ recoverable_copyDisk⟩
  intro path stored found
  simp only [copyDisk, fileDisk, Function.update_apply] at found
  split at found
  · cases found
    decide
  · cases found

end PhilzTouch.ApplyPatch
