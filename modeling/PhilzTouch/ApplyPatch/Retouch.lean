import PhilzTouch.ApplyPatch.StoredHash

/-!
# Retouched files, and applying a patch twice

`applypatch` masks a target before it compares hashes, but hashes what it writes as it is.  So a
second run finds the work done if masking does not change what the first has written.
-/

namespace PhilzTouch.ApplyPatch

/-! ## The first run -/

section FirstRun

variable {lib : Library} {memory : Memory} {args : Args} {disk : Disk} {targetSha1 : Bytes}

/-- Contents that are masked to some with the given hash. -/
def MasksTo (lib : Library) (targetSha1 : Bytes) (content : Bytes) : Prop :=
  ∃ value : Value, retouchMask content = .matched value.data ∧ lib.sha1 value.data = targetSha1

/-- The target holds contents that are masked to some with the hash asked for. -/
def MaskedRight (lib : Library) (target : Text) (targetSha1 : Bytes) (disk : Disk) : Prop :=
  ∃ stored, disk.files target = some stored ∧ MasksTo lib targetSha1 stored.data

/-- A run that returns 0 has found the target right and left it alone, or has stored what
it hashed. -/
theorem applypatchMasked_traced (parsed : parseSha1 args.targetSha1Str = some targetSha1)
    (fileTarget : isPartitionName (targetName args) = false) :
    storage.logged.Safe (fun _ => True) (fun _ => True) (fun result after => result = 0 →
        after.1 = disk ∧ MaskedRight lib (targetName args) targetSha1 disk ∨
          StoredTracked lib (targetName args) targetSha1 after)
      (applypatchMasked lib memory args) (disk, []) := by
  unfold applypatchMasked applypatchBy
  rw [parsed]
  have loading : storage.Observes True Op.Quiet (fun _ => True) _
      (loadFileWith retouchMask lib memory (targetName args) ⟨none, memory.size, memory.st⟩) disk :=
    loadFileWith_observes _ fileTarget
  apply (loading.safe_logged [] perform_quiet).bind
  rintro ⟨loaded, file⟩ ⟨disk, log⟩ ⟨held, rfl, -⟩
  dsimp only
  split
  · rename_i done
    refine .ret fun _ => .inl ?_
    rcases data : file.data with _ | value
    · simp [FileContents.sha1, data] at done
    obtain ⟨stored, found, masked, -⟩ := held value data
    exact ⟨rfl, stored, found, value, masked, by simpa [FileContents.sha1, data] using done.2⟩
  refine patchSource_skips (fun _ wrong => by simp at wrong) (fun file _ copyFile _ after => ?_) file _
  simp only [generateTarget, fileTarget, Bool.false_eq_true, if_false]
  refine (generateFile_traced lib args _ targetSha1 _ _ _ after).weaken ?_
  exact fun result after stored zero => .inr (stored zero)

end FirstRun

/-! ## The second run -/

section SecondRun

variable {lib : Library} {memory : Memory} {args : Args} {disk : Disk} {targetSha1 : Bytes}

theorem exec_loadFileWith {α : Type} {mask : Bytes → Masked} {filename : Text} {stored : File}
    (isFile : isPartitionName filename = false) (there : disk.files filename = some stored)
    (file : FileContents) (rest : Int × FileContents → Action α) (choices : List Choice) :
    storage.exec (loadFileWith mask lib memory filename file >>= rest)
        (.ok :: .ok :: .ok :: choices) disk =
      match mask stored.data with
      | .unknown => (disk, .stuck)
      | .failed =>
        storage.exec (rest (-1, ⟨none, wrap stored.data.length, stored.st⟩)) choices disk
      | .matched data =>
        match Value.of? data memory.heap with
        | none => (disk, .stuck)
        | some value =>
          storage.exec (rest (0, ⟨some value, wrap stored.data.length, stored.st⟩)) choices
            disk := by
  have whole : stored.data.take (Choice.ok.accepted stored.data.length) = stored.data := by
    simp [Choice.accepted]
  unfold loadFileWith
  rw [if_neg (by rw [isFile]; decide), Prog.bind_assoc, Machine.exec_call_bind]
  simp only [perform, there]
  rw [Prog.bind_assoc, Machine.exec_call_bind]
  simp only [perform, there, Option.isSome_some, and_self, decide_true, if_true]
  rw [Prog.bind_assoc, Machine.exec_call_bind]
  simp only [perform, there, Option.elim_some, whole, ne_eq, not_true_eq_false, if_false]
  cases mask stored.data with
  | matched data =>
    dsimp only
    cases Value.of? data memory.heap <;> rfl
  | failed => rfl
  | unknown => rfl

/-- Without any more choices, the part behind the check of the target does not return 0. -/
theorem exec_patchSource_nil (fileTarget : isPartitionName (targetName args) = false)
    (file : FileContents) :
    (storage.exec (loadSource (loadFileWith retouchMask lib memory) args file >>= fun file =>
      patchSource (loadFileWith retouchMask lib memory) lib memory args targetSha1 file) [] disk).2 ≠
      .done 0 := by
  apply storage.exec_bind_nil_ne_done
  intro file
  unfold patchSource
  rcases patchFor lib args file with _ | patch
  · apply storage.exec_bind_nil_ne_done
    rintro ⟨loaded, copyFile⟩
    dsimp only
    split
    · rintro ⟨⟩
    rcases patchFor lib args copyFile with _ | patch
    · rintro ⟨⟩
    simp only [generateTarget, fileTarget, Bool.false_eq_true, if_false]
    rintro ⟨⟩
  · simp only [generateTarget, fileTarget, Bool.false_eq_true, if_false]
    rintro ⟨⟩

/-- A run on a target that can be read finds the work done, whatever would happen after
that, just when the target is right. -/
theorem exec_applypatchMasked (parsed : parseSha1 args.targetSha1Str = some targetSha1)
    (fileTarget : isPartitionName (targetName args) = false) {stored : File}
    (there : disk.files (targetName args) = some stored) :
    (∀ choices, storage.exec (applypatchMasked lib memory args) (.ok :: .ok :: .ok :: choices) disk =
      (disk, .done 0)) ↔ MaskedRight lib (targetName args) targetSha1 disk := by
  unfold applypatchMasked applypatchBy
  simp only [parsed, exec_loadFileWith fileTarget there]
  constructor
  · intro always
    have now := always []
    split at now
    · cases now
    · rw [if_neg (by simp)] at now
      exact absurd (congrArg Prod.snd now) (exec_patchSource_nil fileTarget _)
    rename_i data masked
    split at now
    · cases now
    rename_i value made
    split at now
    · rename_i right
      refine ⟨stored, there, value, ?_, ?_⟩
      · rw [masked, Value.of?_data made]
      · simpa [FileContents.sha1] using right.2
    · exact absurd (congrArg Prod.snd now) (exec_patchSource_nil fileTarget _)
  rintro ⟨held, found, value, masked, hash⟩ choices
  cases there.symm.trans found
  have made : Value.of? value.data memory.heap = some ⟨value.data, memory.heap, value.fits⟩ := by
    rw [Value.of?, dif_pos value.fits]
  simp only [masked, made]
  rw [if_pos (by simp [FileContents.sha1, hash])]
  rfl

end SecondRun

/-! ## Both runs -/

/-- A run on a file target that returned 0 and whose writes were not torn, and another one
that can read the target.  If the first run has found the target right and left everything as it
was, or masking keeps the hash of all contents with the hash asked for, the second run returns 0
and leaves everything as it is.  If the hash tells contents apart, this is the only way. -/
theorem applypatch_twice {lib : Library} {memory : Memory} {args : Args} {targetSha1 : Bytes}
    {choices : List Choice} {disk : Disk} (parsed : parseSha1 args.targetSha1Str = some targetSha1)
    (fileTarget : isPartitionName (targetName args) = false)
    (success : (storage.exec (applypatchMasked lib memory args) choices disk).2 = .done 0)
    (whole : WroteWhole (targetName args)
      (storage.steps (applypatchMasked lib memory args) choices disk)) :
    ((storage.exec (applypatchMasked lib memory args) choices disk).1 = disk ∧
          MaskedRight lib (targetName args) targetSha1 disk ∨
        (∀ content, lib.sha1 content = targetSha1 → MasksTo lib targetSha1 content) →
      ∀ memoryAgain further, storage.exec (applypatchMasked lib memoryAgain args)
        (.ok :: .ok :: .ok :: further)
        (storage.exec (applypatchMasked lib memory args) choices disk).1 =
          ((storage.exec (applypatchMasked lib memory args) choices disk).1, .done 0)) ∧
      (Function.Injective lib.sha1 →
        (∀ memoryAgain further, storage.exec (applypatchMasked lib memoryAgain args)
          (.ok :: .ok :: .ok :: further)
          (storage.exec (applypatchMasked lib memory args) choices disk).1 =
            ((storage.exec (applypatchMasked lib memory args) choices disk).1, .done 0)) →
        (storage.exec (applypatchMasked lib memory args) choices disk).1 = disk ∧
            MaskedRight lib (targetName args) targetSha1 disk ∨
          ∀ content, lib.sha1 content = targetSha1 → MasksTo lib targetSha1 content) := by
  have traced : storage.logged.Safe _ _ _ (applypatchMasked lib memory args) (disk, []) :=
    applypatchMasked_traced parsed fileTarget
  have run := (traced.exec trivial
    fun step (_ : step ∈ storage.logged.steps _ choices _) => trivial).2
  rw [storage.exec_logged, List.nil_append] at run
  replace run := run 0 success rfl
  generalize (storage.exec (applypatchMasked lib memory args) choices disk).1 = final at run ⊢
  generalize storage.steps (applypatchMasked lib memory args) choices disk = steps at run whole
  -- what the target holds after the first run
  have stored : final = disk ∧ MaskedRight lib (targetName args) targetSha1 disk ∨
      ∃ file, final.files (targetName args) = some file ∧ lib.sha1 file.data = targetSha1 := by
    rcases run with early | ⟨ctx, content, hash, tracks, ⟨_, file, found, data⟩ | ⟨dropped, _⟩⟩
    · exact .inl early
    · refine .inr ⟨file, found, ?_⟩
      rw [data, tracks.1 whole.1, hash]
    · rw [whole.2] at dropped
      cases dropped
  constructor
  · intro either memoryAgain further
    have right : MaskedRight lib (targetName args) targetSha1 final := by
      rcases either with ⟨rfl, right⟩ | keeps
      · exact right
      rcases stored with ⟨rfl, right⟩ | ⟨file, found, hash⟩
      · exact right
      · exact ⟨file, found, keeps _ hash⟩
    obtain ⟨file, found, _⟩ := id right
    exact (exec_applypatchMasked parsed fileTarget found).mpr right further
  intro injective always
  refine stored.imp_right ?_
  rintro ⟨file, found, hash⟩ content same
  obtain ⟨file', found', masked⟩ :=
    (exec_applypatchMasked parsed fileTarget found).mp (always memory)
  cases found.symm.trans found'
  rwa [injective (same.trans hash.symm)]

namespace Sample

/-- A word with the value 1, an entry that says that it was 0, and the trailer. -/
def retouched : Bytes :=
  [1, 0, 0, 0] ++ [0, 0, 0, 0, 0, 0, 0, 0] ++
    ([0x52, 0x45, 0x54, 0x4F, 0x55, 0x43, 0x48, 0x20] ++ [8, 0, 0, 0] ++ [0, 0, 0, 0] ++
      [0x50, 0x52, 0x45, 0x20])

/-- As `lib`, but with the first twenty bytes as the hash. -/
def shortLib : Library := { lib with sha1 := fun data => (data ++ List.replicate 20 0).take 20 }

/-- An image patch with one raw chunk that replaces a file in place. -/
def retouchArgs : Args where
  sourceFilename := ['/', 's']
  targetFilename := ['-']
  targetSha1Str := "010000000000000000000000".toList ++ "5245544f55434820".toList
  targetSize := 32
  patches := [⟨digest '1', true, imgdiffMagic ++ [1, 0, 0, 0, 3, 0, 0, 0, 32, 0, 0, 0] ++ retouched,
    fun _ => 0, by decide⟩]
  bonusData := none

end Sample

open Sample in
/-- The first run stores the target with its trailer.  The second puts the word back before it
takes the hash, does not know the file any more, and fails. -/
theorem applypatch_twice_retouched :
    let first := storage.exec (applypatchMasked shortLib memory retouchArgs) (writing [.ok]) inPlaceDisk
    isPartitionName (targetName retouchArgs) = false ∧ first.2 = .done 0 ∧
      first.1.files ['/', 's'] = some ⟨retouched, true, ⟨0o600, 0, 0⟩⟩ ∧
      retouchMask retouched = .matched (0 :: retouched.tail) ∧
      (storage.exec (applypatchMasked shortLib memory retouchArgs) [.ok, .ok, .ok, .ok] first.1).2 =
        .done 1 := by
  decide +kernel

open Sample in
/-- Twice with contents that have no trailer. -/
theorem applypatch_twice_plain :
    let first := storage.exec (applypatchMasked lib memory (inPlace patch.value))
      (writing [.amount 1, .ok]) inPlaceDisk
    storage.exec (applypatchMasked lib memory (inPlace patch.value)) [.ok, .ok, .ok] first.1 =
      (first.1, .done 0) := by
  have parsed : parseSha1 (inPlace patch.value).targetSha1Str = some (content 2) := by decide
  have masks : ∀ data, lib.sha1 data = content 2 → MasksTo lib (content 2) data := by
    rintro data same
    cases show data = content 2 from same
    exact ⟨⟨content 2, fun _ => 0, by decide⟩, by decide +kernel, rfl⟩
  exact (applypatch_twice parsed (by decide) (by decide +kernel)
    ⟨by decide +kernel, by decide +kernel⟩).1 (.inr masks) memory []

end PhilzTouch.ApplyPatch
