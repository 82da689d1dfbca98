import PhilzTouch.Dedupe.Gc

/-!
# When garbage collection loses nothing

The run is followed up to the manifest at which reading stops.  What the lines read
until then keep in use is what they record, as long as the lines that `fgets` returns are
taken for the lines of the manifest.
-/

namespace PhilzTouch.Dedupe

open List

variable {blobDir : Bytes} {dir : BlobDir}

/-! ## The sweep -/

variable {blob : Bytes}

theorem mem_listFile {stats : Bytes → Bool} {path : Bytes} (listed : blob ∈ listFile stats path) :
    blob = path := by
  rw [listFile] at listed
  split at listed
  · exact mem_singleton.mp listed
  · cases listed

theorem listEntries_subset (opens stats : Bytes → Bool) (d : Bytes) (entries : Dir) :
    ∀ blob ∈ listEntries opens stats d entries, blob ∈ entries.leaves d := by
  induction entries generalizing d with
  | empty => exact fun blob listed => listed
  | file entry content rest ih | link entry content rest ih | special entry rest ih =>
    intro blob listed
    rcases mem_append.mp listed with here | later
    · exact mem_cons.mpr (Or.inl (mem_listFile here))
    · exact mem_cons_of_mem _ (ih d blob later)
  | dir entry entries rest ihEntries ihRest =>
    intro blob listed
    rcases mem_append.mp listed with below | later
    · split at below
      · exact mem_append_left _ (ihEntries _ blob below)
      · cases below
    · exact mem_append_right _ (ihRest d blob later)

variable {used : List Bytes}

namespace BlobDir

/-- The blobs that the command can reach and remove. -/
def removable (dir : BlobDir) : List Bytes := dir.recursiveListDir.filter dir.removes

theorem removable_subset (able : blob ∈ dir.removable) : blob ∈ dir.blobs := by
  have listed := (mem_filter.mp able).1
  rw [recursiveListDir] at listed
  split at listed
  · exact listEntries_subset _ _ _ _ blob listed
  · cases listed

theorem mem_removeUnused : blob ∈ dir.removeUnused used ↔ blob ∈ dir.removable ∧ blob ∉ used := by
  have swept : blob ∈ sweep compare (sortBy compare dir.recursiveListDir) (sortBy compare used) ↔
      blob ∈ sortBy compare dir.recursiveListDir ∧ blob ∉ sortBy compare used :=
    mem_sweep (sortBy_sorted _) (sortBy_sorted _)
  rw [removeUnused, mem_filter, swept, removable, mem_filter, mem_sortBy, mem_sortBy]
  exact and_right_comm

end BlobDir

/-! ## One manifest -/

variable {version : Int} {blob : Option Bytes}

theorem gcLine_ok {line : Bytes} (read : gcLine blobDir version line = .ok blob) :
    blob = (recordedKey version line).map (join blobDir) := by
  obtain ⟨record, recordRead, read⟩ := bind_ok read
  obtain ⟨typed, behind⟩ := readRecord_ok recordRead
  have sameType := fields_cString typed
  rw [recordedKey, sameType]
  split at read
  next regular =>
    obtain ⟨⟨key, token⟩, keyRead, read⟩ := bind_ok read
    obtain ⟨size, sizeRead, read⟩ := bind_ok read
    split at read
    · cases read
      have found := (behind.next keyRead).2 (tokenize_isSome sizeRead)
      rw [if_pos (by rw [regular]), fields_cString found]
      rfl
    · cases read
  next other =>
    cases read
    rw [if_neg fun same => other (Option.some.inj same)]
    rfl

variable {body : List Bytes}

theorem gcLines_ok (read : gcLines blobDir version body = .ok used) :
    used = (body.filterMap (recordedKey version)).map (join blobDir) := by
  induction body generalizing used with
  | nil =>
    cases read
    rfl
  | cons line body ih =>
    obtain ⟨blob, lineRead, read⟩ := bind_ok read
    obtain ⟨more, bodyRead, read⟩ := bind_ok read
    cases read
    rw [gcLine_ok lineRead, ih bodyRead]
    cases keyed : recordedKey version line with
    | none => simp [keyed]
    | some key => simp [keyed]

/-- The lines of a manifest that `gc` works through, and its version. -/
def gcBody (content : Bytes) : Int × List Bytes := openManifest [] (fgetsLines content)

/-- The manifest announces a version newer than the program. -/
def Newer (content : Bytes) : Prop := dedupeVersion < (gcBody content).1

/-- The manifest is read to its end. -/
def ReadsThrough (blobDir content : Bytes) : Prop :=
  ¬ Newer content ∧ ∃ used, gcLines blobDir (gcBody content).1 (gcBody content).2 = .ok used

/-- A field of the manifest does not fit the buffer it is read into. -/
def Overruns (blobDir content : Bytes) : Prop :=
  ¬ Newer content ∧ gcLines blobDir (gcBody content).1 (gcBody content).2 = .error .overrun

/-- The blobs recorded on the lines that `fgets` returns. -/
def fgetsRecorded (blobDir : Bytes) (contents : List Bytes) : List Bytes :=
  contents.flatMap fun content => (recordedKeys (fgetsLines content)).map (join blobDir)

variable {content : Bytes}

/-- If every line is shorter than the buffer, these are the blobs recorded on the lines
of the manifest. -/
theorem fgetsLines_eq_lines (short : ∀ line ∈ lines newline content, line.length < pathMax) :
    fgetsLines content = lines newline content :=
  pieces_eq_lines fun line member => Nat.le_of_lt_succ (short line member)

/-! ## The line buffer between two manifests -/

/-- Scanning this buffer finds no version newer than the program. -/
def Benign (buffer : Bytes) : Prop :=
  (sscanfVersion (cString buffer)).getD 1 ≤ dedupeVersion

theorem benign_nil : Benign [] := by
  rw [Benign]
  decide

/-- A line that is read to its end is no version line: its first field is too short. -/
theorem sscanfVersion_of_gcLine {line : Bytes}
    (read : gcLine blobDir version line = .ok blob) : sscanfVersion (cString line) = none := by
  obtain ⟨record, recordRead, -⟩ := bind_ok read
  obtain ⟨⟨type, token⟩, typeRead, recordRead⟩ := bind_ok recordRead
  obtain ⟨⟨mode, token'⟩, modeRead, -⟩ := bind_ok recordRead
  obtain ⟨rest, rfl⟩ := Option.isSome_iff_exists.mp (tokenize_isSome modeRead)
  rw [tokenize] at typeRead
  split at typeRead
  next found =>
    split at typeRead
    next short =>
      cases typeRead
      obtain ⟨split, -⟩ := eq_append_of_cut found
      rw [sscanfVersion, if_neg]
      intro opening
      have inside : dedupeWord[type.length]? = some tab := by
        obtain ⟨more, whole⟩ := isPrefixOf_iff_prefix.mp opening
        have bound : type.length < dedupeWord.length := lt_of_lt_of_le short (by decide)
        rw [← getElem?_append_left bound, whole, split,
          getElem?_append_right (Nat.le_refl _), Nat.sub_self]
        rfl
      exact absurd (mem_of_getElem? inside) (by decide)
    next => cases typeRead
  next =>
    split at typeRead
    · cases typeRead
    · cases typeRead

theorem gcLine_of_gcLines (read : gcLines blobDir version body = .ok used) :
    ∀ line ∈ body, ∃ blob, gcLine blobDir version line = .ok blob := by
  induction body generalizing used with
  | nil => exact fun line member => absurd member not_mem_nil
  | cons head body ih =>
    obtain ⟨blob, lineRead, read⟩ := bind_ok read
    obtain ⟨more, bodyRead, -⟩ := bind_ok read
    exact forall_mem_cons.mpr ⟨⟨blob, lineRead⟩, ih bodyRead⟩

variable {stale : Bytes}

/-- After a manifest that was read to its end, the buffer holds no newer version. -/
theorem ReadsThrough.benign (reads : ReadsThrough blobDir content) (before : Benign stale) :
    Benign ((fgetsLines content).getLast?.getD stale) := by
  obtain ⟨notNewer, used, read⟩ := reads
  cases last : (fgetsLines content).getLast? with
  | none => exact before
  | some line =>
    change (sscanfVersion (cString line)).getD 1 ≤ dedupeVersion
    have member := mem_of_getLast? last
    rw [Newer, gcBody] at notNewer
    rw [gcBody] at read
    cases split : fgetsLines content with
    | nil =>
      rw [split] at member
      cases member
    | cons first rest =>
      rw [split, openManifest] at notNewer read
      rw [split] at member
      cases scanned : sscanfVersion (cString first) with
      | none =>
        simp only [scanned] at read
        obtain ⟨blob, lineRead⟩ := gcLine_of_gcLines read line member
        rw [sscanfVersion_of_gcLine lineRead]
        decide
      | some version =>
        simp only [scanned] at read notNewer
        rcases mem_cons.mp member with rfl | later
        · rw [scanned]
          exact not_lt.mp notNewer
        · obtain ⟨blob, lineRead⟩ := gcLine_of_gcLines read line later
          rw [sscanfVersion_of_gcLine lineRead]
          decide

/-! ## The run up to the manifest where it stops -/

theorem openManifest_cons (stale : Bytes) {text : List Bytes} (some : text ≠ []) :
    openManifest stale text = openManifest [] text := by
  cases text with
  | nil => exact absurd rfl some
  | cons first rest => rfl

theorem fgetsLines_ne_nil (some : content ≠ []) : fgetsLines content ≠ [] := by
  cases content with
  | nil => exact absurd rfl some
  | cons first rest =>
    rw [fgetsLines, pathMax, pieces_cons]
    exact cons_ne_nil _ _

theorem openManifest_of_ne_nil (stale : Bytes) (some : content ≠ []) :
    openManifest stale (fgetsLines content) = gcBody content :=
  openManifest_cons stale (fgetsLines_ne_nil some)

theorem Collected.noting_nil (rest : Collected) : rest.noting [] = rest := by
  cases rest <;> rfl

theorem Collected.noting_noting (first second : List Bytes) (rest : Collected) :
    (rest.noting second).noting first = rest.noting (first ++ second) := by
  cases rest <;> simp [noting]

theorem gcManifests_newer (newer : Newer content) (stale : Bytes) (rest : List (Option Bytes)) :
    gcManifests blobDir stale (some content :: rest) = .ok (.newer []) := by
  have filled : content ≠ [] := by
    rintro rfl
    exact absurd newer (by rw [Newer]; decide)
  rw [Newer, ← openManifest_of_ne_nil stale filled] at newer
  simp only [gcManifests, if_pos newer]
  rfl

theorem gcManifests_old (filled : content ≠ []) (old : ¬ Newer content) (stale : Bytes)
    (rest : List (Option Bytes)) :
    gcManifests blobDir stale (some content :: rest) = (do
      let used ← gcLines blobDir (gcBody content).1 (gcBody content).2
      let more ← gcManifests blobDir ((fgetsLines content).getLast?.getD stale) rest
      pure (more.noting used)) := by
  rw [Newer, ← openManifest_of_ne_nil stale filled] at old
  rw [← openManifest_of_ne_nil stale filled]
  simp only [gcManifests, if_neg old]

theorem gcManifests_cons (benign : Benign stale) (reads : ReadsThrough blobDir content)
    (rest : List (Option Bytes)) : gcManifests blobDir stale (some content :: rest) =
      (gcManifests blobDir ((fgetsLines content).getLast?.getD stale) rest).map
        (Collected.noting ((recordedKeys (fgetsLines content)).map (join blobDir))) := by
  obtain ⟨notNewer, used, read⟩ := reads
  have noted := gcLines_ok read
  by_cases filled : content = []
  · subst filled
    have old : ¬ dedupeVersion < (openManifest stale (fgetsLines [])).1 := not_lt.mpr benign
    rw [gcManifests]
    simp only [if_neg old]
    rfl
  · rw [gcManifests_old filled notNewer, read, noted]
    rfl

variable {before : List Bytes}

theorem gcManifests_append (benign : Benign stale)
    (reads : ∀ content ∈ before, ReadsThrough blobDir content) (rest : List (Option Bytes)) :
    ∃ buffer, Benign buffer ∧ gcManifests blobDir stale (before.map some ++ rest) =
        (gcManifests blobDir buffer rest).map
          (Collected.noting (fgetsRecorded blobDir before)) := by
  induction before generalizing stale with
  | nil =>
    refine ⟨stale, benign, ?_⟩
    have nothing : Collected.noting [] = id := funext Collected.noting_nil
    rw [fgetsRecorded, flatMap_nil, nothing, Except.map_id]
    rfl
  | cons content before ih =>
    have first := reads content mem_cons_self
    obtain ⟨buffer, harmless, later⟩ := ih (first.benign benign) (forall_mem_cons.mp reads).2
    refine ⟨buffer, harmless, ?_⟩
    rw [map_cons, cons_append, gcManifests_cons benign first, later]
    cases gcManifests blobDir buffer rest with
    | error fault => rfl
    | ok collected => exact congrArg Except.ok (Collected.noting_noting _ _ _)

/-- The manifest at which reading stops decides the outcome. -/
theorem gcManifests_stop (stops : ¬ ReadsThrough blobDir content) (rest : List (Option Bytes)) :
    gcManifests blobDir stale (some content :: rest) = .ok (.newer []) ∧ Newer content ∨
      gcManifests blobDir stale (some content :: rest) = .error .overrun ∧
        Overruns blobDir content ∨
      gcManifests blobDir stale (some content :: rest) = .error .null := by
  have filled : content ≠ [] := by
    rintro rfl
    exact stops ⟨by rw [Newer]; decide, [], rfl⟩
  by_cases newer : Newer content
  · exact Or.inl ⟨gcManifests_newer newer stale rest, newer⟩
  rw [gcManifests_old filled newer]
  cases read : gcLines blobDir (gcBody content).1 (gcBody content).2 with
  | ok used => exact absurd ⟨newer, used, read⟩ stops
  | error fault =>
    cases fault with
    | null => exact Or.inr (Or.inr rfl)
    | overrun => exact Or.inr (Or.inl ⟨rfl, newer, read⟩)

theorem exists_stop (blobDir : Bytes) (manifests : List (Option Bytes)) :
    (∃ contents : List Bytes, manifests = contents.map some ∧
      ∀ content ∈ contents, ReadsThrough blobDir content) ∨
    ∃ (before : List Bytes) (stop : Option Bytes) (after : List (Option Bytes)),
      manifests = before.map some ++ stop :: after ∧
      (∀ content ∈ before, ReadsThrough blobDir content) ∧
      ∀ content, stop = some content → ¬ ReadsThrough blobDir content := by
  induction manifests with
  | nil => exact Or.inl ⟨[], rfl, by simp⟩
  | cons manifest manifests ih =>
    by_cases stops : ∀ content, manifest = some content → ¬ ReadsThrough blobDir content
    · exact Or.inr ⟨[], manifest, manifests, rfl, by simp, stops⟩
    push Not at stops
    obtain ⟨content, rfl, reads⟩ := stops
    rcases ih with ⟨contents, rfl, all⟩ | ⟨before, stop, after, rfl, all, stops⟩
    · exact Or.inl ⟨content :: contents, rfl, forall_mem_cons.mpr ⟨reads, all⟩⟩
    · exact Or.inr ⟨content :: before, stop, after, rfl, forall_mem_cons.mpr ⟨reads, all⟩, stops⟩

variable {manifests : List (Option Bytes)}

/-- What the line buffer holds at first only matters to an empty first manifest. -/
theorem gcManifests_buffer (blobDir stack : Bytes) (filled : ∀ after, manifests ≠ some [] :: after) :
    gcManifests blobDir stack manifests = gcManifests blobDir [] manifests := by
  cases manifests with
  | nil => rfl
  | cons manifest rest =>
    cases manifest with
    | none => rfl
    | some content =>
      have some : content ≠ [] := by
        rintro rfl
        exact filled rest rfl
      obtain ⟨last, found⟩ := Option.isSome_iff_exists.mp
        (getLast?_isSome.mpr (fgetsLines_ne_nil some))
      by_cases newer : Newer content
      · rw [gcManifests_newer newer, gcManifests_newer newer]
      · rw [gcManifests_old some newer, gcManifests_old some newer, found]
        rfl

/-! ## The outcome -/

theorem lossless_of_nothing {ending : Ending} (known : ending ≠ .unknown)
    (failed : ending ≠ .returned 0) : Lossless dir manifests ⟨ending, []⟩ where
  known := known
  kept := by simp
  failure _ _ _ := rfl
  success succeeded := absurd succeeded failed

/-- After a failure that still sweeps, nothing is lost only if nothing is removed. -/
theorem lossless_newer : Lossless dir manifests ⟨.returned 1, dir.removeUnused used⟩ ↔
      ∀ blob ∈ dir.removable, blob ∈ used := by
  constructor
  · intro lossless blob able
    by_contra unused
    have removed := BlobDir.mem_removeUnused.mpr ⟨able, unused⟩
    rw [show dir.removeUnused used = [] from lossless.failure 1 rfl (by decide)] at removed
    cases removed
  intro all
  have nothing : dir.removeUnused used = [] := by
    refine eq_nil_iff_forall_not_mem.mpr fun blob removed => ?_
    obtain ⟨able, unused⟩ := BlobDir.mem_removeUnused.mp removed
    exact unused (all blob able)
  rw [nothing]
  exact lossless_of_nothing (by decide) (by decide)

/-- After a success nothing is lost if what was in use is what is recorded. -/
theorem lossless_all : Lossless dir manifests ⟨.returned 0, dir.removeUnused used⟩ ↔
      (∀ blob ∈ dir.blobs, ¬ Recorded dir manifests blob → blob ∈ dir.removable) ∧
        ∀ blob ∈ dir.removable, blob ∈ used ↔ Recorded dir manifests blob := by
  constructor
  · intro lossless
    have sweeps : ∀ blob ∈ dir.blobs,
        blob ∈ dir.removable ∧ blob ∉ used ↔ ¬ Recorded dir manifests blob := by
      intro blob stored
      rw [← BlobDir.mem_removeUnused]
      exact lossless.success rfl blob stored
    constructor
    · intro blob stored unrecorded
      exact ((sweeps blob stored).mpr unrecorded).1
    · intro blob able
      have swept := sweeps blob (BlobDir.removable_subset able)
      rw [and_iff_right able, not_iff_not] at swept
      exact swept
  rintro ⟨reached, faithful⟩
  refine ⟨nofun, ?_, ?_, ?_⟩
  · intro blob removed recorded
    obtain ⟨able, unused⟩ := BlobDir.mem_removeUnused.mp removed
    exact unused ((faithful blob able).mpr recorded)
  · intro code returned failed
    exact absurd (Ending.returned.inj returned).symm failed
  intro _ blob stored
  change blob ∈ dir.removeUnused used ↔ _
  rw [BlobDir.mem_removeUnused]
  constructor
  · rintro ⟨able, unused⟩ recorded
    exact unused ((faithful blob able).mpr recorded)
  · intro unrecorded
    have able := reached blob stored unrecorded
    exact ⟨able, fun noted => unrecorded ((faithful blob able).mp noted)⟩

/-- The command comes to the manifest `content` after it has read those in `before`. -/
def Reaches (dir : BlobDir) (manifests : List (Option Bytes)) (before : List Bytes)
    (content : Bytes) : Prop :=
  (∃ after, manifests = before.map some ++ some content :: after) ∧
    ∀ earlier ∈ before, ReadsThrough dir.path earlier

/-- The command reads all manifests, and these are their contents. -/
def ReadsAll (dir : BlobDir) (manifests : List (Option Bytes)) (contents : List Bytes) : Prop :=
  manifests = contents.map some ∧ ∀ content ∈ contents, ReadsThrough dir.path content

/-- The manifests on which `gc` loses nothing. -/
structure Harmless (dir : BlobDir) (manifests : List (Option Bytes)) : Prop where
  /-- Up to where reading stops, every field fits its buffer. -/
  fits : ∀ before content, Reaches dir manifests before content → ¬ Overruns dir.path content
  /-- Where reading stops at a newer version, or may do so because the first manifest is
  empty and the line buffer is not initialised, nothing is left to be removed. -/
  newer : ∀ before content, Reaches dir manifests before content →
    Newer content ∨ before = [] ∧ content = [] →
    ∀ blob ∈ dir.removable, blob ∈ fgetsRecorded dir.path before
  /-- If all manifests are read, the unrecorded blobs can be listed and removed. -/
  reached : ∀ contents, ReadsAll dir manifests contents →
    ∀ blob ∈ dir.blobs, ¬ Recorded dir manifests blob → blob ∈ dir.removable
  /-- If all manifests are read, the lines that `fgets` returns record the same blobs as
  the lines of the manifests. -/
  faithful : ∀ contents, ReadsAll dir manifests contents → ∀ blob ∈ dir.removable,
    blob ∈ fgetsRecorded dir.path contents ↔ Recorded dir manifests blob

/-- What the line buffer may hold when it is not initialised. -/
def newerStack : Bytes := ascii "dedupe\t3"

variable {stack : Bytes}

theorem gc_all (benign : Benign stack) {contents : List Bytes}
    (reads : ReadsAll dir manifests contents) :
    gc dir stack manifests = ⟨.returned 0, dir.removeUnused (fgetsRecorded dir.path contents)⟩ := by
  obtain ⟨rfl, reads⟩ := reads
  obtain ⟨buffer, -, run⟩ := gcManifests_append benign reads []
  rw [append_nil] at run
  rw [gc, run]
  simp only [gcManifests, pure, Except.pure, Except.map, Collected.noting, append_nil]

theorem gc_newer (benign : Benign stack) (reaches : Reaches dir manifests before content)
    (newer : Newer content) :
    gc dir stack manifests = ⟨.returned 1, dir.removeUnused (fgetsRecorded dir.path before)⟩ := by
  obtain ⟨⟨after, rfl⟩, reads⟩ := reaches
  obtain ⟨buffer, -, run⟩ := gcManifests_append benign reads (some content :: after)
  rw [gc, run, gcManifests_newer newer]
  simp only [Except.map, Collected.noting, append_nil]

theorem gc_overrun (benign : Benign stack) (reaches : Reaches dir manifests before content)
    (overruns : Overruns dir.path content) : gc dir stack manifests = ⟨.unknown, []⟩ := by
  obtain ⟨⟨after, rfl⟩, reads⟩ := reaches
  obtain ⟨buffer, -, run⟩ := gcManifests_append benign reads (some content :: after)
  have filled : content ≠ [] := by
    rintro rfl
    exact nomatch overruns.2
  rw [gc, run, gcManifests_old filled overruns.1, overruns.2]
  rfl

/-- The first manifest is empty and the line buffer happens to hold a newer version. -/
theorem gc_empty (danger : ¬ Benign stack) (after : List (Option Bytes)) :
    gc dir stack (some [] :: after) = ⟨.returned 1, dir.removeUnused []⟩ := by
  have newer : dedupeVersion < (openManifest stack (fgetsLines [])).1 := not_le.mp danger
  rw [gc, gcManifests]
  simp only [if_pos newer]
  rfl

theorem Harmless.lossless (harmless : Harmless dir manifests) (benign : Benign stack) :
    Lossless dir manifests (gc dir stack manifests) := by
  rcases exists_stop dir.path manifests with
    ⟨contents, all, reads⟩ | ⟨before, stop, after, split, reads, stops⟩
  · have readsAll : ReadsAll dir manifests contents := ⟨all, reads⟩
    rw [gc_all benign readsAll]
    exact lossless_all.mpr ⟨harmless.reached _ readsAll, harmless.faithful _ readsAll⟩
  obtain ⟨buffer, -, run⟩ := gcManifests_append benign reads (stop :: after)
  rw [← split] at run
  cases stop with
  | none =>
    rw [gc, run]
    exact lossless_of_nothing nofun (by decide)
  | some content =>
    have reaches : Reaches dir manifests before content := ⟨⟨after, split⟩, reads⟩
    rcases gcManifests_stop (stops content rfl) after with
      ⟨-, newer⟩ | ⟨-, overruns⟩ | outcome
    · rw [gc_newer benign reaches newer]
      exact lossless_newer.mpr (harmless.newer _ _ reaches (Or.inl newer))
    · exact absurd overruns (harmless.fits _ _ reaches)
    · rw [gc, run, outcome]
      exact lossless_of_nothing nofun nofun

/-- Garbage collection loses nothing, whatever the line buffer holds at first, exactly
on the manifests that are harmless. -/
theorem gc_lossless_iff (dir : BlobDir) (manifests : List (Option Bytes)) :
    (∀ stack, Lossless dir manifests (gc dir stack manifests)) ↔ Harmless dir manifests := by
  constructor
  · intro lossless
    have calm := lossless []
    refine ⟨?_, ?_, ?_, ?_⟩
    · intro before content reaches overruns
      rw [gc_overrun benign_nil reaches overruns] at calm
      exact calm.known rfl
    · rintro before content reaches (newer | ⟨rfl, rfl⟩)
      · rw [gc_newer benign_nil reaches newer] at calm
        exact lossless_newer.mp calm
      obtain ⟨⟨after, rfl⟩, -⟩ := reaches
      have danger : ¬ Benign newerStack := by
        rw [Benign]
        decide
      have swept := lossless newerStack
      rw [map_nil, nil_append, gc_empty danger] at swept
      exact lossless_newer.mp swept
    · intro contents readsAll
      rw [gc_all benign_nil readsAll] at calm
      exact (lossless_all.mp calm).1
    · intro contents readsAll
      rw [gc_all benign_nil readsAll] at calm
      exact (lossless_all.mp calm).2
  intro harmless stack
  by_cases benign : Benign stack
  · exact harmless.lossless benign
  by_cases filled : ∀ after, manifests ≠ some [] :: after
  · have same := harmless.lossless benign_nil
    rw [gc, ← gcManifests_buffer dir.path stack filled] at same
    exact same
  · push Not at filled
    obtain ⟨after, rfl⟩ := filled
    rw [gc_empty benign]
    have reaches : Reaches dir (some [] :: after) [] [] := ⟨⟨after, rfl⟩, by simp⟩
    exact lossless_newer.mpr (harmless.newer _ _ reaches (Or.inr ⟨rfl, rfl⟩))

/-- A blob directory with the single blob `abc/d`. -/
def sampleDir : BlobDir where
  path := ascii "/blobs"
  entries := .dir ⟨ascii "abc", ⟨0o755, 0, 0, 0, 0, 0⟩, none⟩
    (.file ⟨ascii "d", ⟨0o644, 0, 0, 0, 0, 0⟩, none⟩ [1] .empty) .empty
  opens _ := true
  stats _ := true
  removes _ := true
  short := by decide +kernel

/-- A manifest of version 3, and behind it one of version 2 that records the blob. -/
def newerThenOld : List (Option Bytes) :=
  [some (ascii "dedupe\t3\n"),
    some (ascii "dedupe\t2\nf\t644\t0\t0\tunlabel\t1\t1\t1\t./file\tabc/d\t1\t\n")]

/-- A recorded blob is removed, and the command reports a failure. -/
theorem gc_removes_recorded_blob :
    gc sampleDir [] newerThenOld = ⟨.returned 1, [ascii "/blobs/abc/d"]⟩ ∧
      Recorded sampleDir newerThenOld (ascii "/blobs/abc/d") ∧
      ¬ Lossless sampleDir newerThenOld (gc sampleDir [] newerThenOld) := by
  have outcome : gc sampleDir [] newerThenOld = ⟨.returned 1, [ascii "/blobs/abc/d"]⟩ := by
    decide +kernel
  refine ⟨outcome, ?_, ?_⟩
  · refine ⟨ascii "dedupe\t2\nf\t644\t0\t0\tunlabel\t1\t1\t1\t./file\tabc/d\t1\t\n", ?_,
      ascii "abc/d", ?_, ?_⟩
    · exact mem_cons_of_mem _ mem_cons_self
    · decide +kernel
    · decide +kernel
  · intro lossless
    have unchanged := lossless.failure 1 (by rw [outcome]) (by decide)
    rw [outcome] at unchanged
    cases unchanged

end PhilzTouch.Dedupe
