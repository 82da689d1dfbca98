import PhilzTouch.Minzip.Complete
import PhilzTouch.Minzip.Lookup

/-!
# The subtree that an extraction works on

As long as the lengths of its paths are an `int`, an extraction does not write outside of its path
buffer, and when no step fails, it works on all entries under the directory.
-/

namespace PhilzTouch.Minzip

open FileTree List

/-- No step of the extraction fails: the two directories are as they should be, every call
succeeds, `inflate` works as documented, and every entry can be extracted. -/
structure NoStepFails (zlib : ApplyPatch.Zlib) (args : ExtractArgs) (map : MemMapping)
    (archive : ZipArchive) (zipDir targetDir : Bytes)
    (steps : List (extractMachine map.data).Step) : Prop where
  relative : zipDir.head? ≠ some slash
  absolute : targetDir.head? = some slash
  calls : ∀ step ∈ steps, Succeeds step
  documented : Stable zlib ∧ ∀ step ∈ steps, Documented zlib step ∧ Streaming zlib step
  entries : args.dryRun = false → ∀ entry ∈ archive.pEntries, Under map (zpathOf zipDir) entry →
    Plain zlib args map entry ∧ Extractable zlib args map entry
      (targetPath targetDir (zpathOf zipDir) (entryName map entry))

/-- No byte is written outside of the path buffer; an extraction in which no step fails runs to
its end; and one that does has worked on exactly the entries under the directory, each once, with
the paths below the target. -/
theorem extractSubtree_selects (args : ExtractArgs) {map : MemMapping} {targetDir : Bytes}
    (long : ENDHDR ≤ map.length) (spare : map.length + 92 ≤ 2 ^ 32)
    (archive : ZipArchive) (parsed : parseZipArchive map = .ok archive) (zipDir : Bytes)
    (fits : ∀ entry ∈ archive.pEntries, Under map (zpathOf zipDir) entry →
      FitsInt targetDir ((entryName map entry).length - (zpathOf zipDir).length))
    (state : ExtractState) (choices : List ExtractChoice)
    (result : Extraction) (ran : ((extractMachine map.data).exec
      (extractSubtree args map archive zipDir targetDir) choices state).2 = .done result) :
    result.ended ≠ .outside ∧
      ((∃ zlib, NoStepFails zlib args map archive zipDir targetDir ((extractMachine map.data).steps
        (extractSubtree args map archive zipDir targetDir) choices state)) →
        result.ended = .finished) ∧
      (result.ended = .finished → result.processed =
        (archive.pEntries.filter fun entry =>
          (zpathOf zipDir).isPrefixOf (entryName map entry)).map fun entry =>
            (entry, withSlash targetDir ++ (entryName map entry).drop (zpathOf zipDir).length)) := by
  have table := parseZipArchive_table long spare parsed
  have selects := @extractSubtree_safe map.data targetDir state (fun _ => True) _ _ _ args map
    archive zipDir False.elim (fun _ => ⟨fun _ => nofun, nil_prefix, nofun⟩) trivial
    (extractLoop_selects table .first (fun _ : True => fits) nofun)
  have selected := (selects.exec trivial fun _ _ => trivial).2 result ran
  refine ⟨selected.inside trivial, ?_, selected.all⟩
  rintro ⟨zlib, fine⟩
  have calm : ∀ step, Orderly zlib True step → @Succeeds map.data step :=
    fun step orderly => (orderly.2.2 trivial).1
  have accounts := @extractSubtree_safe map.data targetDir state _ _ _ _ args map archive zipDir
    (fun _ : True => calm) (fun refused => absurd (refused trivial) (not_or.mpr
      ⟨fine.relative, not_not.mpr fine.absolute⟩)) trivial
    (extractLoop_accounts fine.documented.1 table (fun entry member isUnder real =>
      (fine.entries real entry member isUnder).1) (fun _ entry member isUnder real =>
      (fine.entries real entry member isUnder).2) .first)
  refine ((accounts.exec trivial fun step member => ?_).2 result ran).2.1 trivial
    (selected.inside trivial)
  exact ⟨(fine.documented.2 step member).1, (fine.calls step member).undisturbed, fun _ =>
    ⟨fine.calls step member, (fine.documented.2 step member).2⟩⟩

/-- The entries `a/x` and `ab`. -/
def subtreeArchive : MemMapping :=
  ⟨4096, sampleArchive 0 2 (namedCentral 0 [0x61, slash, 0x78] ++ namedCentral 0 [0x61, 0x62]),
    by decide +kernel⟩

/-- The entry `a/x`. -/
def subtreeEntry : ZipEntry := ⟨3, 4172, 30, 0, 0, 0, 0, 0, 0, 0⟩

theorem subtreeArchive_entries : (sampleParsed subtreeArchive).pEntries =
    [subtreeEntry, ⟨2, 4221, 30, 0, 0, 0, 0, 0, 0, 0⟩] := by
  decide +kernel

/-- The entry is extracted to `/t`, with no call failing. -/
def sampleRun : ExtractProg Extraction :=
  extractSubtree sampleArgs subtreeArchive (sampleParsed subtreeArchive) [0x61] [slash, 0x74]

theorem extractSubtree_selects_one :
    NoStepFails noInflate sampleArgs subtreeArchive (sampleParsed subtreeArchive) [0x61]
        [slash, 0x74] ((extractMachine subtreeArchive.data).steps sampleRun (replicate 20 .ok)
          (.initial sampleTree)) ∧
      ∃ result, ((extractMachine subtreeArchive.data).exec sampleRun (replicate 20 .ok)
        (.initial sampleTree)).2 = .done result ∧ result.ended = .finished ∧
        result.processed = [(subtreeEntry, [slash, 0x74, slash, 0x78])] := by
  have parsed : parseZipArchive subtreeArchive = .ok (sampleParsed subtreeArchive) := by
    decide +kernel
  have checked : ((extractMachine subtreeArchive.data).steps sampleRun (replicate 20 .ok)
      (.initial sampleTree)).all (fun step =>
        decide (Succeeds step) && match step.op with | .inflate _ _ => false | _ => true) = true := by
    decide +kernel
  have calls := fun step member => Bool.and_eq_true_iff.mp (all_eq_true.mp checked step member)
  have under : ∀ entry ∈ (sampleParsed subtreeArchive).pEntries,
      Under subtreeArchive (zpathOf [0x61]) entry → entry = subtreeEntry := by
    rw [subtreeArchive_entries]
    unfold Under
    decide +kernel
  have fine : NoStepFails noInflate sampleArgs subtreeArchive (sampleParsed subtreeArchive) [0x61]
      [slash, 0x74] ((extractMachine subtreeArchive.data).steps sampleRun (replicate 20 .ok)
        (.initial sampleTree)) := by
    refine ⟨by decide, by decide, fun step member => of_decide_eq_true (calls step member).1,
      ⟨nofun, fun step member => ?_⟩, fun _ entry member isUnder => ?_⟩
    · obtain ⟨op, choice, before⟩ := step
      have other := (calls _ member).2
      refine ⟨fun input room result isInflate => ?_, fun input room result isInflate => ?_⟩
      · cases isInflate
        cases other
      · cases isInflate
        cases other
    · rw [under entry member isUnder]
      exact ⟨⟨fun _ => by decide, fun _ => .inl rfl⟩,
        ⟨fun _ => by decide +kernel, fun link => absurd link (by decide +kernel)⟩⟩
  obtain ⟨result, ran⟩ : ∃ result, ((extractMachine subtreeArchive.data).exec sampleRun
      (replicate 20 .ok) (.initial sampleTree)).2 = .done result :=
    ⟨⟨true, .finished, [(subtreeEntry, [slash, 0x74, slash, 0x78])]⟩, by decide +kernel⟩
  have fits : ∀ entry ∈ (sampleParsed subtreeArchive).pEntries,
      Under subtreeArchive (zpathOf [0x61]) entry → FitsInt [slash, 0x74]
        ((entryName subtreeArchive entry).length - (zpathOf [0x61]).length) := by
    intro entry member isUnder
    rw [under entry member isUnder, FitsInt]
    decide +kernel
  obtain ⟨-, finishes, selects⟩ := extractSubtree_selects _ (by decide +kernel)
    (by decide +kernel) _ parsed [0x61] fits _ _ _ ran
  have finished := finishes ⟨noInflate, fine⟩
  refine ⟨fine, result, ran, finished, (selects finished).trans ?_⟩
  decide +kernel

/-- A run that calls back for every entry and writes nothing. -/
def dryRun (zipDir targetDir : Bytes) : Outcome Extraction :=
  ((extractMachine subtreeArchive.data).exec (extractSubtree ⟨false, true, false, 0, 0⟩
    subtreeArchive (sampleParsed subtreeArchive) zipDir targetDir) [.ok, .ok, .ok] (.initial fun _ => none)).2

/-- The length of the path wraps around, and the target directory is copied to a null pointer. -/
theorem dryRun_outside {targetDir : Bytes} (absolute : targetDir.head? = some slash)
    (long : targetDir.length + 3 = 2 ^ 31) :
    dryRun [0x61] targetDir = .done ⟨false, .outside, []⟩ := by
  have under : underPath (zpathOf [0x61]) (entryName subtreeArchive subtreeEntry) = true := by
    decide +kernel
  have rest : ((entryName subtreeArchive subtreeEntry).drop (zpathOf [0x61]).length).length = 1 := by
    decide +kernel
  have negative : ¬ (0 : Int) < needLen targetDir.length 1 := by
    rw [needLen]
    have sum : (targetDir.length : Int) + 1 + (1 : Nat) + 1 = 2 ^ 31 := by omega
    rw [sum]
    decide
  have full : store [] 0 targetDir = none := by
    rw [store, if_neg]
    simp only [length_nil]
    omega
  have path : targetEntryPath targetDir (zpathOf [0x61]) (.initial targetDir)
      (entryName subtreeArchive subtreeEntry) = .ret .outside := by
    rw [targetEntryPath, rest, MzPathHelper.initial]
    dsimp only
    rw [if_neg negative, fillPath, if_pos rfl, fillFront, Option.getD_none, full]
    rfl
  rw [dryRun, extractSubtree, if_neg (by decide), if_neg (not_not.mpr absolute),
    subtreeArchive_entries, extractLoop, if_pos under, path]
  rfl

/-- With a directory `a/` the entry `a/x` is extracted, whose name does not begin with `a//`; and
with the target `/` its path is `/x` and not `//x`.  A path whose length is no `int` is written
outside of the buffer. -/
theorem extractSubtree_trailing_slash :
    dryRun [0x61, slash] [slash] = .done ⟨true, .finished, [(subtreeEntry, [slash, 0x78])]⟩ ∧
      ¬ [0x61, slash] ++ [slash] <+: entryName subtreeArchive subtreeEntry ∧
      [slash, 0x78] ≠ [slash] ++ [slash] ++ [(0x78 : UInt8)] ∧
      ∀ targetDir, targetDir.head? = some slash → targetDir.length + 3 = 2 ^ 31 →
        dryRun [0x61] targetDir = .done ⟨false, .outside, []⟩ := by
  refine ⟨by decide +kernel, by decide +kernel, by decide, fun targetDir absolute long => ?_⟩
  exact dryRun_outside absolute long

end PhilzTouch.Minzip
