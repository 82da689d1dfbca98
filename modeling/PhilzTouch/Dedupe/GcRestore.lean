import PhilzTouch.Dedupe.GcLossless
import PhilzTouch.Dedupe.Extract

/-!
# Restoring after a garbage collection

A manifest that was given to a successful `dedupe gc` is restored afterwards as it was before.
-/

namespace PhilzTouch.Dedupe

open List

/-- The blob directory after some files were removed from it; `leads` says to which file a path
leads. -/
def Store.without (store : Store) (leads : Bytes → Bytes) (removed : List Bytes) : Store :=
  fun path => if leads path ∈ removed then none else store path

section Lines

variable {blobDir : Bytes} {unmasked : Nat} {store after : Store} {version : Int}

/-- A line is restored from the blob that `gc` has noted for it. -/
theorem extractLine_congr {line : Bytes} {blob : Option Bytes}
    (noted : gcLine blobDir version line = .ok blob)
    (same : ∀ path ∈ blob, after path = store path) (files : Files) :
    extractLine blobDir unmasked after version line files =
      extractLine blobDir unmasked store version line files := by
  obtain ⟨record, read, noted⟩ := bind_ok noted
  simp only [extractLine, read]
  split at noted
  next regular =>
    obtain ⟨⟨key, token⟩, keyRead, noted⟩ := bind_ok noted
    obtain ⟨size, sizeRead, noted⟩ := bind_ok noted
    split at noted
    · cases noted
      have found : after (join blobDir key) = store (join blobDir key) := same _ rfl
      simp only [extractFile, keyRead, orFault, bind, Except.bind, copyBlob, found]
    · cases noted
  next other =>
    rw [fileType] at other
    simp only [orFault, bind, Except.bind, if_neg other]

theorem extractLines_congr {body used : List Bytes}
    (noted : gcLines blobDir version body = .ok used)
    (same : ∀ path ∈ used, after path = store path) (files : Files) :
    extractLines blobDir unmasked after version body files =
      extractLines blobDir unmasked store version body files := by
  induction body generalizing used files with
  | nil => rfl
  | cons line body ih =>
    obtain ⟨blob, lineNoted, noted⟩ := bind_ok noted
    obtain ⟨more, bodyNoted, noted⟩ := bind_ok noted
    cases noted
    rw [extractLines, extractLines, extractLine_congr lineNoted fun path member =>
      same path (mem_append_left _ (Option.mem_toList.mpr member))]
    congr 1
    funext files
    exact ih bodyNoted (fun path member => same path (mem_append_right _ member)) files

end Lines

/-- What a loop over all manifests notes for one of them. -/
theorem gcManifests_notes {blobDir stale content : Bytes} {manifests : List (Option Bytes)}
    {used : List Bytes} (read : gcManifests blobDir stale manifests = .ok (.all used))
    (given : some content ∈ manifests) (filled : content ≠ []) :
    ∃ noted, gcLines blobDir (gcBody content).1 (gcBody content).2 = .ok noted ∧ noted ⊆ used := by
  induction manifests generalizing stale used with
  | nil => cases given
  | cons first rest ih =>
    cases first with
    | none => cases read
    | some first =>
      rw [gcManifests] at read
      split at read
      · cases read
      obtain ⟨noted, linesRead, read⟩ := bind_ok read
      obtain ⟨more, restRead, read⟩ := bind_ok read
      cases more with
      | unreadable => cases read
      | newer more => cases read
      | all more =>
        cases read
        rcases mem_cons.mp given with same | later
        · cases same
          rw [openManifest_of_ne_nil stale filled] at linesRead
          exact ⟨noted, linesRead, subset_append_left _ _⟩
        · obtain ⟨others, othersRead, inside⟩ := ih restRead later
          exact ⟨others, othersRead, fun _ member => mem_append_right _ (inside member)⟩

/-- After a collection that returns 0, each of its manifests is restored as before it, if its keys
lead to blobs without detours. -/
theorem extract_without_garbage (dir : BlobDir) (stack : Bytes) (manifests : List (Option Bytes))
    (ended : (gc dir stack manifests).ending = .returned 0) (content : Bytes)
    (given : some content ∈ manifests) (leads : Bytes → Bytes)
    (plain : ∀ key ∈ recordedKeys (fgetsLines content),
      leads (join dir.path key) = join dir.path key)
    (store : Store) (unmasked : Nat) (buffer : Bytes) :
    extract dir.path unmasked (store.without leads (gc dir stack manifests).removed) buffer
      content = extract dir.path unmasked store buffer content := by
  unfold gc at ended ⊢
  split at ended
  any_goals cases ended
  next used read =>
  -- an empty manifest has no lines, whatever its version is taken to be
  by_cases filled : content = []
  · rw [filled]
    rfl
  obtain ⟨noted, linesRead, inside⟩ := gcManifests_notes read given filled
  simp only [extract, openManifest_of_ne_nil buffer filled]
  split
  · rfl
  refine extractLines_congr linesRead (fun path member => if_neg fun removed => ?_) _
  obtain ⟨key, recorded, rfl⟩ := mem_map.mp (gcLines_ok linesRead ▸ member)
  rw [plain key recorded] at removed
  exact (BlobDir.mem_removeUnused.mp removed).2 (inside member)

theorem extract_without_garbage_file : (extract sampleDir.path 0o755
      (Store.without (fun _ => some [1]) id (gc sampleDir [] (newerThenOld.drop 1)).removed) []
        ((newerThenOld.getLastD none).getD [])).toOption.bind (· [ascii "file"]) =
      some (.file 0o644 0 0 [1]) := by
  rw [extract_without_garbage sampleDir [] (newerThenOld.drop 1) (by decide +kernel)
    ((newerThenOld.getLastD none).getD []) (mem_singleton_self _) id fun _ _ => rfl]
  decide +kernel

end PhilzTouch.Dedupe
