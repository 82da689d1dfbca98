import PhilzTouch.Dedupe.ManifestText

/-!
# The blob directory over histories of backups and collections

Any number of `c` and `gc` runs follow each other on one blob directory.  A `c` run may
fail or be killed after any system call; a `gc` run may be killed after any removal, and
is given the manifests of all `c` runs that returned 0.  In every state on the way, a
file under a final name is complete, and every key in one of these manifests names such
a file.
-/

namespace PhilzTouch.Dedupe

open List Function

variable {sha256 : Bytes → Digest} {blobDir : Bytes}

variable {excludes : List Bytes}

/-! ## Histories -/

/-- A tree that `dedupe c` can store: its texts can be told apart in the manifest, and its
paths and manifest lines are shorter than `PATH_MAX`. -/
structure Storable (sha256 : Bytes → Digest) (excludes : List Bytes) (tree : Dir) : Prop where
  legible : tree.Legible
  paths : ∀ path ∈ tree.paths (ascii "."), path.length < pathMax
  lines : ShortLines sha256 excludes tree

/-- The files after some of them were removed. -/
def Store.remove (store : Store) (removed : List Bytes) : Store := fun path =>
  if path ∈ removed then none else store path

/-- The files of a blob directory and the manifests of the `c` runs that returned 0, in
every state that some history of runs reaches.  A run that leaves the C language may
leave any files behind. -/
inductive History (sha256 : Bytes → Digest) (blobDir : Bytes) : Store → List Bytes → Prop where
  /-- The blob directory is empty. -/
  | start : History sha256 blobDir (fun _ => none) []
  /-- A `c` run returned 0. -/
  | stored {store : Store} {manifests : List Bytes} {excludes : List Bytes} {tree : Dir}
      {choices : List StoreChoice} {text : Bytes} :
      History sha256 blobDir store manifests → Storable sha256 excludes tree →
      (blobStore.exec (backup sha256 blobDir excludes tree) choices store).2 = .done (0, text) →
      History sha256 blobDir
        (blobStore.exec (backup sha256 blobDir excludes tree) choices store).1 (manifests ++ [text])
  /-- A `c` run failed or was killed. -/
  | interrupted {store : Store} {manifests : List Bytes} {excludes : List Bytes} {tree : Dir}
      {choices : List StoreChoice} :
      History sha256 blobDir store manifests → Storable sha256 excludes tree →
      History sha256 blobDir
        (blobStore.exec (backup sha256 blobDir excludes tree) choices store).1 manifests
  /-- A `c` run overran a buffer. -/
  | undefined {store after : Store} {manifests : List Bytes} {excludes : List Bytes} {tree : Dir}
      {choices : List StoreChoice} :
      History sha256 blobDir store manifests → Storable sha256 excludes tree →
      (blobStore.exec (backup sha256 blobDir excludes tree) choices store).2 = .stuck →
      History sha256 blobDir after manifests
  /-- A `gc` run ended, or was killed, after it had removed some of the files. -/
  | collected {store : Store} {manifests given removed : List Bytes} {dir : BlobDir}
      {stack : Bytes} :
      History sha256 blobDir store manifests → dir.path = blobDir →
      (∀ path, path ∈ dir.blobs ↔ (store path).isSome) →
      (∀ text, text ∈ given ↔ text ∈ manifests) →
      removed <+: (gc dir stack (given.map some)).removed →
      History sha256 blobDir (store.remove removed) manifests
  /-- A `gc` run overran a buffer. -/
  | scrambled {store after : Store} {manifests given : List Bytes} {dir : BlobDir} {stack : Bytes} :
      History sha256 blobDir store manifests → dir.path = blobDir →
      (∀ path, path ∈ dir.blobs ↔ (store path).isSome) →
      (∀ text, text ∈ given ↔ text ∈ manifests) →
      (gc dir stack (given.map some)).ending = .unknown →
      History sha256 blobDir after manifests

/-! ## What every history keeps -/

/-- Files under final names are complete, and the files of every manifest are there. -/
structure Intact (sha256 : Bytes → Digest) (blobDir : Bytes) (manifests : List Bytes)
    (store : Store) : Prop where
  named : ∀ path content, store path = some content →
    (∃ other, path = tmpOutBlob sha256 blobDir other) ∨ path = outBlob sha256 blobDir content
  backed : ∀ text ∈ manifests, ∃ excludes tree, Storable sha256 excludes tree ∧
    text = manifestText sha256 excludes tree ∧
    ∀ content ∈ storedContents excludes (ascii ".") tree,
      (store (outBlob sha256 blobDir content)).isSome

variable {manifests : List Bytes} {store : Store}

/-- A change that keeps the names right and loses no blob. -/
theorem Intact.change {after : Store} (intact : Intact sha256 blobDir manifests store)
    (named : ∀ path content, after path = some content → store path = some content ∨
      (∃ other, path = tmpOutBlob sha256 blobDir other) ∨ path = outBlob sha256 blobDir content)
    (kept : ∀ content, (store (outBlob sha256 blobDir content)).isSome →
      (after (outBlob sha256 blobDir content)).isSome) : Intact sha256 blobDir manifests after where
  named path content found := by
    rcases named path content found with old | new
    · exact intact.named path content old
    · exact new
  backed text member := by
    obtain ⟨excludes, tree, storable, same, stored⟩ := intact.backed text member
    exact ⟨excludes, tree, storable, same, fun content inside => kept content (stored content inside)⟩

theorem keeps_intact (manifests contents : List Bytes) :
    Keeps sha256 blobDir False contents (Intact sha256 blobDir manifests)
      fun content store => (store (outBlob sha256 blobDir content)).isSome where
  tmp {store} content data intact := by
    refine intact.change ?_ ?_
    · intro path other found
      by_cases same : path = tmpOutBlob sha256 blobDir content
      · exact .inr (.inl ⟨content, same⟩)
      · rw [update_of_ne same] at found
        exact .inl found
    · intro other present
      rwa [update_of_ne (outBlob_ne_tmpOutBlob other content)]
  tmpEach content data present := by
    rwa [update_of_ne (outBlob_ne_tmpOutBlob _ content)]
  reuse _ _ same := by
    obtain ⟨old, stored, -⟩ := same
    rw [stored]
    rfl
  place {store content} _ intact _ := by
    refine intact.change ?_ ?_
    · intro path other found
      by_cases same : path = outBlob sha256 blobDir content
      · subst same
        rw [update_self] at found
        cases found
        exact .inr (.inr rfl)
      · rw [update_of_ne same] at found
        exact .inl found
    · intro other present
      by_cases same : outBlob sha256 blobDir other = outBlob sha256 blobDir content
      · rw [same, update_self]
        rfl
      · rwa [update_of_ne same]
  placed {store content stored} _ _ _ before := by
    by_cases same : outBlob sha256 blobDir stored = outBlob sha256 blobDir content
    · rw [same, update_self]
      rfl
    · rw [update_of_ne same]
      rcases before with rfl | present
      · exact absurd rfl same
      · exact present

/-- What a `c` run leaves behind, however it ends. -/
theorem Intact.backup {tree : Dir} (room : blobDir.length + 70 < pathMax)
    (storable : Storable sha256 excludes tree) (intact : Intact sha256 blobDir manifests store)
    (choices : List StoreChoice) : Intact sha256 blobDir manifests
        (blobStore.exec (backup sha256 blobDir excludes tree) choices store).1 ∧
      (blobStore.exec (backup sha256 blobDir excludes tree) choices store).2 ≠ .stuck ∧
      ∀ text, (blobStore.exec (backup sha256 blobDir excludes tree) choices store).2 =
          .done (0, text) → text = manifestText sha256 excludes tree ∧
        ∀ content ∈ storedContents excludes (ascii ".") tree,
          ((blobStore.exec (backup sha256 blobDir excludes tree) choices store).1
            (outBlob sha256 blobDir content)).isSome := by
  have safe := backup_safe (keeps_intact manifests (storedContents excludes (ascii ".") tree))
    (.inr room : False ∨ _) (fun path member => .inr (storable.paths path member)) intact
  obtain ⟨kept, returned⟩ := safe.exec intact fun step _ wrong => wrong.elim
  refine ⟨kept, safe.exec_stuck fun step _ wrong => wrong.elim, fun text ended => ?_⟩
  obtain ⟨same, -, stored⟩ := returned (0, text) ended rfl
  exact ⟨same, stored⟩

variable {given removed : List Bytes} {dir : BlobDir}

section

variable (intact : Intact sha256 dir.path manifests store) (room : dir.path.length + 70 < pathMax)
  (same : ∀ text, text ∈ given ↔ text ∈ manifests)

include intact room same

/-- The manifests of earlier runs, as `gc` reads them. -/
theorem Intact.gc_reads (stack : Bytes) : gc dir stack (given.map some) =
      ⟨.returned 0, dir.removeUnused (fgetsRecorded dir.path given)⟩ := by
  have short : dir.path.length + 66 < pathMax := by omega
  have reads : ∀ text ∈ given, ReadsThrough dir.path text := by
    intro text member
    obtain ⟨excludes, tree, storable, rfl, -⟩ := intact.backed text ((same text).mp member)
    exact readsThrough_manifestText short storable.legible storable.lines
  have filled : ∀ after, given.map some ≠ some [] :: after := by
    intro after first
    have member : some [] ∈ given.map some := first ▸ mem_cons_self
    obtain ⟨text, inside, empty⟩ := mem_map.mp member
    obtain ⟨excludes, tree, -, text', -⟩ := intact.backed text ((same text).mp inside)
    rw [Option.some.inj empty, manifestText, flatten_cons] at text'
    exact absurd (append_eq_nil_iff.mp text'.symm).1 (by decide)
  rw [gc, gcManifests_buffer dir.path stack filled, ← gc]
  exact gc_all benign_nil ⟨rfl, reads⟩

/-- A `gc` run that is given all manifests removes no blob that they record. -/
theorem Intact.collect {stack : Bytes}
    (started : removed <+: (gc dir stack (given.map some)).removed) :
    Intact sha256 dir.path manifests (store.remove removed) := by
  rw [intact.gc_reads room same] at started
  constructor
  · intro path content found
    rw [Store.remove] at found
    split at found
    · cases found
    · exact intact.named path content found
  intro text member
  obtain ⟨excludes, tree, storable, rfl, stored⟩ := intact.backed text member
  refine ⟨excludes, tree, storable, rfl, fun content inside => ?_⟩
  have recorded : outBlob sha256 dir.path content ∈ fgetsRecorded dir.path given := by
    refine mem_flatMap.mpr ⟨_, (same _).mpr member, ?_⟩
    rw [fgetsLines_manifestText storable.legible storable.lines,
      ← lines_manifestText storable.legible,
      recordedKeys_manifestText storable.legible storable.lines, map_map]
    exact mem_map.mpr ⟨content, inside, rfl⟩
  have kept : outBlob sha256 dir.path content ∉ removed := by
    intro gone
    exact (BlobDir.mem_removeUnused.mp (started.subset gone)).2 recorded
  rw [Store.remove, if_neg kept]
  exact stored content inside

end

theorem History.intact (room : blobDir.length + 70 < pathMax)
    (history : History sha256 blobDir store manifests) : Intact sha256 blobDir manifests store := by
  induction history with
  | start => exact ⟨nofun, nofun⟩
  | stored _ storable ended ih =>
    obtain ⟨kept, -, returned⟩ := ih.backup room storable _
    obtain ⟨text, present⟩ := returned _ ended
    refine ⟨kept.named, ?_⟩
    refine forall_mem_append.mpr ⟨kept.backed, forall_mem_singleton.mpr ?_⟩
    exact ⟨_, _, storable, text, present⟩
  | interrupted _ storable ih => exact (ih.backup room storable _).1
  | undefined _ storable stuck ih => exact absurd stuck (ih.backup room storable _).2.1
  | collected _ path _ same started ih =>
    subst path
    exact ih.collect room same started
  | scrambled _ path _ same unknown ih =>
    subst path
    rw [ih.gc_reads room same] at unknown
    cases unknown

/-- In every state that a history of runs reaches, each key recorded in the manifest of a
successful `c` run names a blob whose whole content has that key, and each file under
another than a temporary name is complete. -/
theorem history_keeps_blobs (room : blobDir.length + 70 < pathMax) {store : Store}
    {manifests : List Bytes} (history : History sha256 blobDir store manifests) :
    (∀ text ∈ manifests, ∀ key ∈ recordedKeys (lines newline text), ∃ content,
      store (join blobDir key) = some content ∧ blobKey (sha256 content) = key) ∧
    ∀ path content, store path = some content →
      (∃ other, path = tmpOutBlob sha256 blobDir other) ∨ path = outBlob sha256 blobDir content := by
  have intact := history.intact room
  refine ⟨?_, intact.named⟩
  intro text member key recorded
  obtain ⟨excludes, tree, storable, rfl, stored⟩ := intact.backed text member
  rw [recordedKeys_manifestText storable.legible storable.lines] at recorded
  obtain ⟨content, inside, rfl⟩ := mem_map.mp recorded
  obtain ⟨held, found⟩ := Option.isSome_iff_exists.mp (stored content inside)
  refine ⟨held, found, ?_⟩
  rcases intact.named _ held found with ⟨other, wrong⟩ | named
  · exact absurd wrong (outBlob_ne_tmpOutBlob content other)
  · exact (join_injective blobDir named).symm

/-- A digest that is easy to evaluate: the first 32 bytes. -/
def sampleSha (content : Bytes) : Digest :=
  ⟨(content ++ replicate 32 0).take 32, by simp⟩

def sampleTree : Dir := .file ⟨ascii "file", ⟨0o644, 0, 0, 1, 2, 3⟩, none⟩ [1] .empty

/-- The tree is stored into an empty blob directory. -/
theorem history_keeps_blobs_stored :
    ∃ content, (blobStore.exec (backup sampleSha (ascii "/blobs") [] sampleTree)
        (replicate 10 .ok) fun _ => none).1
          (join (ascii "/blobs") (blobKey (sampleSha [1]))) = some content ∧
      blobKey (sampleSha content) = blobKey (sampleSha [1]) := by
  have storable : Storable sampleSha [] sampleTree :=
    ⟨by decide +kernel, by decide +kernel, by unfold ShortLines; decide +kernel⟩
  have ended : (blobStore.exec (backup sampleSha (ascii "/blobs") [] sampleTree)
      (replicate 10 .ok) fun _ => none).2 =
        .done (0, manifestText sampleSha [] sampleTree) := by decide +kernel
  have history := History.stored .start storable ended
  have recorded : blobKey (sampleSha [1]) ∈
      recordedKeys (lines newline (manifestText sampleSha [] sampleTree)) := by decide +kernel
  exact (history_keeps_blobs (by decide) history).1 _ (mem_append_right _ mem_cons_self) _ recorded

end PhilzTouch.Dedupe
