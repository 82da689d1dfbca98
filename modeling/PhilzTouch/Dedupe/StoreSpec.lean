import PhilzTouch.Dedupe.Store

/-!
# What storing a tree does to the blob directory

A run changes the files of the blob directory in two ways only: it writes under temporary
names, and it puts the whole content of a file under its final name.  `Keeps` says what
a property of the blob directory needs to survive both; the walk over the tree is done
once, for any such property.
-/

namespace PhilzTouch.Dedupe

open List Function

variable {sha256 : Bytes → Digest} {blobDir : Bytes} {excludes : List Bytes}

/-! ## Blob names -/

theorem length_psum (digest : Digest) : (psum digest).length = 64 := by
  have pairs : ∀ bytes : Bytes, (bytes.flatMap hexByte).length = 2 * bytes.length := by
    intro bytes
    induction bytes with
    | nil => rfl
    | cons value bytes ih =>
      rw [flatMap_cons, length_append, ih, length_cons]
      simp only [hexByte, length_cons, length_nil]
      omega
  rw [psum, pairs, digest.2]

theorem length_blobKey (digest : Digest) : (blobKey digest).length = 65 := by
  have size := length_psum digest
  rw [blobKey, length_append, length_cons, length_take, length_drop]
  omega

theorem length_outBlob (content : Bytes) :
    (outBlob sha256 blobDir content).length = blobDir.length + 66 := by
  rw [outBlob, join, length_append, length_cons, length_blobKey]

theorem length_tmpOutBlob (content : Bytes) :
    (tmpOutBlob sha256 blobDir content).length = blobDir.length + 70 := by
  rw [tmpOutBlob, length_append, length_outBlob]
  rfl

theorem outBlob_ne_tmpOutBlob (content other : Bytes) :
    outBlob sha256 blobDir content ≠ tmpOutBlob sha256 blobDir other := by
  intro same
  have sizes := congrArg length same
  rw [length_outBlob, length_tmpOutBlob] at sizes
  omega

theorem join_injective (d : Bytes) : Function.Injective (join d) := fun _ _ same =>
  cons_injective (append_cancel_left same)

/-! ## Copying -/

/-- `stat` finds what is there. -/
def Truthful (step : blobStore.Step) : Prop :=
  ∀ path, step.op = .stat path → step.choice ≠ .fail

variable {stuck : Prop} {allowed : blobStore.Step → Prop} {invariant : Store → Prop} {start : Store}

/-- After each `write` the file under `dst` has grown, and nothing else has changed. -/
theorem copyLoop_safe {dst : Bytes} (stable : ∀ data, invariant (update start dst data))
    (fuel : Nat) (content written : Bytes) (enough : content.length ≤ fuel) :
    blobStore.Runs stuck allowed invariant (fun code after => (∃ data, after = update start dst data) ∧
        (code = 0 → after = update start dst (some (written ++ content))))
      (copyLoop dst fuel content) (update start dst (some written)) := by
  induction fuel generalizing content written with
  | zero =>
    have empty : content = [] := length_eq_zero_iff.mp (Nat.le_zero.mp enough)
    subst empty
    exact .ret ⟨⟨_, rfl⟩, fun _ => by rw [append_nil]⟩
  | succ fuel ih =>
    cases content with
    | nil => exact .ret ⟨⟨_, rfl⟩, fun _ => by rw [append_nil]⟩
    | cons next rest =>
      have grows : ∀ count, invariant (Store.append (update start dst (some written)) dst
            ((next :: rest).take 4096) count).1 ∧ blobStore.Runs stuck allowed invariant
            (fun code after => (∃ data, after = update start dst data) ∧ (code = 0 → after =
                update start dst (some (written ++ (next :: rest)))))
            (if ((((next :: rest).take 4096).take count).length : Int) =
                ((next :: rest).take 4096).length
              then copyLoop dst fuel ((next :: rest).drop 4096) else .ret 5)
            (Store.append (update start dst (some written)) dst ((next :: rest).take 4096) count).1 := by
        intro count
        rw [Store.append, update_self, update_idem]
        refine ⟨stable _, ?_⟩
        change blobStore.Runs stuck _ _ _ _ (update start dst (some (written ++ _)))
        split
        next whole =>
          have all : ((next :: rest).take 4096).take count = (next :: rest).take 4096 :=
            take_of_length_le (by
              have sizes := Int.ofNat_inj.mp whole
              rw [length_take] at sizes
              omega)
          have shorter : ((next :: rest).drop 4096).length ≤ fuel := by
            rw [length_drop]
            rw [length_cons] at enough ⊢
            omega
          have later := ih ((next :: rest).drop 4096) (written ++ (next :: rest).take 4096) shorter
          rw [append_assoc, take_append_drop] at later
          rw [all]
          exact later
        next => exact .ret ⟨⟨_, rfl⟩, nofun⟩
      refine .call ?_
      intro choice _
      cases choice with
      | fail =>
        refine ⟨stable _, ?_⟩
        have short : ((-1 : Int) : Int) ≠ ((next :: rest).take 4096).length := by omega
        change blobStore.Runs stuck _ _ _ (if (-1 : Int) = ((next :: rest).take 4096).length
          then copyLoop dst fuel ((next :: rest).drop 4096) else .ret 5) _
        rw [if_neg short]
        exact .ret ⟨⟨_, rfl⟩, nofun⟩
      | ok => exact grows _
      | amount count => exact grows count

variable {content : Bytes}

theorem copyFile_safe {src dst : Bytes} (holds : invariant start)
    (stable : ∀ data, invariant (update start dst data)) : blobStore.Runs stuck allowed invariant
      (fun code after => (∃ data, after = update start dst data) ∧
        (code = 0 → after = update start dst (some content))) (copyFile src content dst) start := by
  have same : start = update start dst (start dst) := (update_eq_self _ _).symm
  refine .call ?_
  intro choice _
  refine ⟨holds, ?_⟩
  change blobStore.Runs stuck _ _ _ (if decide (choice ≠ .fail) then _ else _) start
  split
  · refine .call ?_
    intro choice _
    by_cases failed : choice = .fail
    · subst failed
      exact ⟨holds, .ret ⟨⟨_, same⟩, nofun⟩⟩
    have created : storePerform (.create dst) choice start =
        (update start dst (some []), true) := by
      rw [storePerform, if_neg failed]
    change invariant (storePerform (.create dst) choice start).1 ∧
      blobStore.Runs stuck _ _ _ (if (storePerform (.create dst) choice start).2 then _ else _)
        (storePerform (.create dst) choice start).1
    rw [created]
    exact ⟨stable _, copyLoop_safe stable content.length content [] le_rfl⟩
  · exact .ret ⟨⟨_, same⟩, nofun⟩

/-! ## One file -/

/-- The blob of this content is there already, as far as the size tells. -/
def SameSize (sha256 : Bytes → Digest) (blobDir : Bytes) (store : Store) (content : Bytes) :
    Prop :=
  ∃ old, store (outBlob sha256 blobDir content) = some old ∧ toInt old.length = toInt content.length

/-- What a property `base` of the blob directory, and a property `each` of the blobs that
were stored, need to survive a run.  If `strict` holds, a blob is only replaced by one of
another size. -/
structure Keeps (sha256 : Bytes → Digest) (blobDir : Bytes) (strict : Prop)
    (contents : List Bytes) (base : Store → Prop) (each : Bytes → Store → Prop) : Prop where
  tmp : ∀ {store : Store} (content : Bytes) (data : Option Bytes), base store →
    base (update store (tmpOutBlob sha256 blobDir content) data)
  tmpEach : ∀ {store : Store} {stored : Bytes} (content : Bytes) (data : Option Bytes),
    each stored store →
    each stored (update store (tmpOutBlob sha256 blobDir content) data)
  reuse : ∀ {store : Store} {content : Bytes}, content ∈ contents → base store →
    SameSize sha256 blobDir store content → each content store
  place : ∀ {store : Store} {content : Bytes}, content ∈ contents → base store →
    (strict → ¬ SameSize sha256 blobDir store content) →
    base (update store (outBlob sha256 blobDir content) (some content))
  placed : ∀ {store : Store} {content stored : Bytes}, content ∈ contents → base store →
    (strict → ¬ SameSize sha256 blobDir store content) → stored = content ∨ each stored store →
    each stored (update store (outBlob sha256 blobDir content) (some content))

/-- The property holds, also of the blobs that were stored. -/
def Holding (base : Store → Prop) (each : Bytes → Store → Prop) (done : List Bytes)
    (store : Store) : Prop :=
  base store ∧ ∀ stored ∈ done, each stored store

variable {done : List Bytes} {store : Store}

theorem Holding.mono {base : Store → Prop} {each : Bytes → Store → Prop} {more : List Bytes}
    (holding : Holding base each done store) (fewer : ∀ stored ∈ more, stored ∈ done) :
    Holding base each more store :=
  ⟨holding.1, fun stored member => holding.2 stored (fewer stored member)⟩

/-- The steps of a run, with a `stat` that finds what is there if `strict` holds. -/
def Fair (strict : Prop) (step : blobStore.Step) : Prop := strict → Truthful step

variable {strict : Prop} {contents : List Bytes} {base : Store → Prop} {each : Bytes → Store → Prop}

theorem Keeps.holdingTmp (keeps : Keeps sha256 blobDir strict contents base each)
    (holding : Holding base each done store) (content : Bytes) (data : Option Bytes) :
    Holding base each done (update store (tmpOutBlob sha256 blobDir content) data) :=
  ⟨keeps.tmp content data holding.1, fun stored member => keeps.tmpEach content data
    (holding.2 stored member)⟩

theorem sameSize_tmp (data : Option Bytes) :
    SameSize sha256 blobDir (update store (tmpOutBlob sha256 blobDir content) data)
      content ↔ SameSize sha256 blobDir store content := by
  rw [SameSize, SameSize, update_of_ne (outBlob_ne_tmpOutBlob content content)]

variable {path : Bytes}

theorem storeBlob_safe (keeps : Keeps sha256 blobDir strict contents base each)
    (holding : Holding base each done start) (member : content ∈ contents)
    (fresh : strict → ¬ SameSize sha256 blobDir start content) :
    blobStore.Runs stuck (Fair strict) (Holding base each done)
      (fun code after => code = 0 → Holding base each (content :: done) after)
      (storeBlob sha256 blobDir path content) start := by
  have stable := keeps.holdingTmp holding content
  refine (copyFile_safe holding stable).bind ?_
  rintro copied after ⟨-, complete⟩
  split
  next good =>
    rw [complete good]
    refine .call ?_
    intro choice _
    by_cases failed : choice = .fail
    · subst failed
      exact ⟨stable _, .ret fun (wrong : (-1 : Int) = 0) => absurd wrong (by decide)⟩
    have moved : blobStore.perform (.rename (tmpOutBlob sha256 blobDir content)
          (outBlob sha256 blobDir content)) choice
          (update start (tmpOutBlob sha256 blobDir content) (some content)) =
        (update (update start (tmpOutBlob sha256 blobDir content) none)
          (outBlob sha256 blobDir content) (some content), (0 : Int)) := by
      change (if choice = .fail then _ else _) = _
      rw [if_neg failed, Store.move, update_self, update_idem]
    have cleared := keeps.holdingTmp holding content none
    have fresh' : strict → ¬ SameSize sha256 blobDir
        (update start (tmpOutBlob sha256 blobDir content) none) content :=
      fun isStrict => mt (sameSize_tmp none).mp (fresh isStrict)
    have stored : Holding base each (content :: done)
        (update (update start (tmpOutBlob sha256 blobDir content) none)
          (outBlob sha256 blobDir content) (some content)) := by
      refine ⟨keeps.place member cleared.1 fresh', ?_⟩
      intro other found
      rcases mem_cons.mp found with same | earlier
      · exact keeps.placed member cleared.1 fresh' (.inl same)
      · exact keeps.placed member cleared.1 fresh' (.inr (cleared.2 other earlier))
    rw [moved]
    exact ⟨stored.mono fun _ => mem_cons_of_mem _, .ret fun _ => stored⟩
  next bad =>
    exact .ret fun good => absurd good bad

variable {program : StoreProg (Int × Bytes)}

theorem whenInput_safe {post : Int × Bytes → Store → Prop} {code : Int} (holds : invariant store)
    (fails : post (code, []) store) (goes : blobStore.Runs stuck allowed invariant post program store) :
    blobStore.Runs stuck allowed invariant post (whenInput path code program) store := by
  refine .call ?_
  intro choice _
  refine ⟨holds, ?_⟩
  change blobStore.Runs stuck _ _ _ (if decide (choice ≠ .fail) then _ else _) store
  split
  · exact goes
  · exact .ret fails

/-- `store_file` stores the blob and prints its key. -/
theorem storeFile_safe (keeps : Keeps sha256 blobDir strict contents base each)
    (room : stuck ∨ blobDir.length + 70 < pathMax) (holding : Holding base each done start)
    (path : Bytes) (member : content ∈ contents) :
    blobStore.Runs stuck (Fair strict) (Holding base each done) (fun result after => result.1 = 0 →
        result.2 = printBlob sha256 content ∧ Holding base each (content :: done) after)
      (storeFile sha256 blobDir path content) start := by
  rw [storeFile]
  split
  · refine whenInput_safe holding (nofun) ?_
    refine .call ?_
    intro _ _
    refine ⟨holding, ?_⟩
    refine .call ?_
    intro choice fair
    refine ⟨holding, ?_⟩
    have reply : (blobStore.perform (.stat (outBlob sha256 blobDir content)) choice start).2 =
        if choice = .fail then none
        else (start (outBlob sha256 blobDir content)).map length := rfl
    generalize existing :
      (blobStore.perform (.stat (outBlob sha256 blobDir content)) choice start).2 = size at reply
    change blobStore.Runs stuck _ _ _ (if (blobStore.perform (.stat (outBlob sha256 blobDir content))
      choice start).2.map (fun size : Nat => toInt size) = some (toInt content.length) then _ else _) start
    rw [existing]
    split
    next found =>
      refine .ret fun _ => ⟨rfl, ?_⟩
      have same : SameSize sha256 blobDir start content := by
        rw [reply] at found
        split at found
        · cases found
        · obtain ⟨size, sized, equal⟩ := Option.map_eq_some_iff.mp found
          obtain ⟨old, stored, rfl⟩ := Option.map_eq_some_iff.mp sized
          exact ⟨old, stored, equal⟩
      refine ⟨holding.1, ?_⟩
      exact forall_mem_cons.mpr ⟨keeps.reuse member holding.1 same, holding.2⟩
    next missing =>
      have fresh : strict → ¬ SameSize sha256 blobDir start content := by
        rintro isStrict ⟨old, stored, equal⟩
        have truthful := fair isStrict _ rfl
        apply missing
        rw [reply, if_neg truthful, stored, Option.map_some, Option.map_some, equal]
      refine (storeBlob_safe keeps holding member fresh).bind ?_
      intro stored after complete
      rw [andPrint]
      split
      next good => exact .ret fun _ => ⟨rfl, complete good⟩
      next bad => exact .ret fun good => absurd good bad
  next long =>
    rw [length_tmpOutBlob] at long
    exact .stop (room.resolve_right long)

/-! ## The walk over the tree -/

/-- A program that returned 0 has printed these lines and stored these contents. -/
def Printed (base : Store → Prop) (each : Bytes → Store → Prop) (done text stored : List Bytes)
    (result : Int × Bytes) (after : Store) : Prop :=
  result.1 = 0 → result.2 = text.flatten ∧ Holding base each (stored ++ done) after

theorem mem_unlessExcluded {item : Bytes} {text : List Bytes} :
    item ∈ unlessExcluded excludes path text ↔ path ∉ excludes ∧ item ∈ text := by
  rw [unlessExcluded]
  split
  next excluded => simp [excluded]
  next included => simp [included]

theorem unlessExcluded_nil (path : Bytes) : unlessExcluded excludes path [] = [] := by
  rw [unlessExcluded, ite_self]

theorem printing_safe {text stored : List Bytes} {line : Bytes}
    (safe : blobStore.Runs stuck allowed invariant (fun result after => result.1 = 0 →
      line ++ result.2 = text.flatten ∧ Holding base each (stored ++ done) after) program store) :
    blobStore.Runs stuck allowed invariant (Printed base each done text stored)
      (printing line program) store :=
  safe.bind fun _ _ prints => .ret prints

theorem storeNext_safe {hereText hereStored restText restStored : List Bytes}
    {store rest : StoreProg (Int × Bytes)} (short : stuck ∨ path.length < pathMax)
    (holding : Holding base each done start) (here : path ∉ excludes →
      blobStore.Runs stuck (Fair strict) (Holding base each done) (Printed base each done hereText hereStored) store start)
    (later : ∀ done start, Holding base each done start →
      blobStore.Runs stuck (Fair strict) (Holding base each done)
      (Printed base each done restText restStored) rest start) :
    blobStore.Runs stuck (Fair strict) (Holding base each done)
      (Printed base each done (unlessExcluded excludes path hereText ++ restText)
        (unlessExcluded excludes path hereStored ++ restStored))
      (storeNext excludes path store rest) start := by
  rw [storeNext]
  split
  · split
    next excluded =>
      rw [unlessExcluded, unlessExcluded, if_pos excluded, if_pos excluded]
      exact later done start holding
    next included =>
    rw [unlessExcluded, unlessExcluded, if_neg included, if_neg included]
    refine whenInput_safe holding (nofun) ?_
    refine (here included).bind ?_
    intro result after printed
    split
    next good =>
      obtain ⟨text, stored⟩ := printed good
      have goesOn : blobStore.Runs stuck (Fair strict) (Holding base each done)
          (Printed base each (hereStored ++ done) restText restStored) rest after :=
        (later _ after stored).relax fun state kept => kept.mono fun _ => mem_append_right _
      refine goesOn.bind ?_
      intro more final printedMore
      refine .ret fun success => ?_
      obtain ⟨moreText, allStored⟩ := printedMore success
      refine ⟨?_, allStored.mono ?_⟩
      · change result.2 ++ more.2 = _
        rw [text, moreText, flatten_append]
      · intro item member
        simp only [mem_append] at member ⊢
        tauto
    next bad => exact .ret fun good => absurd good bad
  next long => exact .stop (short.resolve_right long)

/-- The loop of `store_dir` prints the lines of the directory and stores its files. -/
theorem storeEntries_safe (keeps : Keeps sha256 blobDir strict contents base each)
    (room : stuck ∨ blobDir.length + 70 < pathMax) (tree : Dir) {d : Bytes}
    (short : ∀ path ∈ tree.paths d, stuck ∨ path.length < pathMax) (holding : Holding base each done start)
    (inside : ∀ content ∈ storedContents excludes d tree, content ∈ contents) :
    blobStore.Runs stuck (Fair strict) (Holding base each done)
      (Printed base each done (manifestLines sha256 excludes d tree)
        (storedContents excludes d tree)) (storeEntries sha256 blobDir excludes d tree) start := by
  induction tree generalizing d done start with
  | empty => exact .ret fun _ => ⟨rfl, holding⟩
  | file entry content rest ih =>
    obtain ⟨here, later⟩ := forall_mem_cons.mp short
    refine storeNext_safe here holding ?_ ?_
    · intro included
      have member : content ∈ contents := inside content
        (mem_append_left _ (mem_unlessExcluded.mpr ⟨included, mem_cons_self⟩))
      refine printing_safe ((storeFile_safe keeps room holding _ member).weaken ?_)
      intro result after stored good
      rw [(stored good).1, flatten_singleton]
      exact ⟨rfl, (stored good).2⟩
    · intro done start holding
      exact ih later holding (forall_mem_append.mp inside).2
  | link entry target rest ih =>
    have nothing : storedContents excludes d (.link entry target rest) =
        unlessExcluded excludes (join d entry.name) [] ++ storedContents excludes d rest := by
      rw [unlessExcluded_nil]
      rfl
    rw [nothing] at inside ⊢
    obtain ⟨here, later⟩ := forall_mem_cons.mp short
    refine storeNext_safe here holding ?_ ?_
    · intro _
      refine printing_safe (whenInput_safe holding (nofun) ?_)
      refine .ret fun _ => ⟨?_, holding⟩
      rw [flatten_singleton]
    · intro done start holding
      exact ih later holding (forall_mem_append.mp inside).2
  | dir entry entries rest ihEntries ihRest =>
    obtain ⟨here, others⟩ := forall_mem_cons.mp short
    obtain ⟨inner, later⟩ := forall_mem_append.mp others
    refine storeNext_safe here holding ?_ ?_
    · intro included
      have below : ∀ content ∈ storedContents excludes (join d entry.name) entries,
          content ∈ contents := fun content member => inside content
        (mem_append_left _ (mem_unlessExcluded.mpr ⟨included, member⟩))
      refine printing_safe (whenInput_safe holding (nofun) ?_)
      refine (ihEntries inner holding below).weaken ?_
      intro result after printed good
      rw [(printed good).1, flatten_cons]
      exact ⟨rfl, (printed good).2⟩
    · intro done start holding
      exact ihRest later holding (forall_mem_append.mp inside).2
  | special entry rest ih =>
    have turn : blobStore.Runs stuck (Fair strict) (Holding base each done)
        (Printed base each done (unlessExcluded excludes (join d entry.name) [] ++ _)
          (unlessExcluded excludes (join d entry.name) [] ++ _))
        (storeNext excludes (join d entry.name) (.ret (0, [])) _) start :=
      storeNext_safe (forall_mem_cons.mp short).1 holding (fun _ => .ret fun _ => ⟨rfl, holding⟩)
        fun done start holding => ih (forall_mem_cons.mp short).2 holding inside
    rw [unlessExcluded_nil] at turn
    exact turn

def manifestText (sha256 : Bytes → Digest) (excludes : List Bytes) (tree : Dir) : Bytes :=
  (versionLine :: manifestLines sha256 excludes (ascii ".") tree).flatten

/-- `dedupe c` keeps the property throughout, and if it returns 0 it has printed the whole
manifest and stored every file. -/
theorem backup_safe {tree : Dir}
    (keeps : Keeps sha256 blobDir strict (storedContents excludes (ascii ".") tree) base each)
    (room : stuck ∨ blobDir.length + 70 < pathMax)
    (short : ∀ path ∈ tree.paths (ascii "."), stuck ∨ path.length < pathMax) (holds : base start) : blobStore.Runs stuck (Fair strict) base
      (fun result after => result.1 = 0 → result.2 = manifestText sha256 excludes tree ∧
        base after ∧ ∀ content ∈ storedContents excludes (ascii ".") tree, each content after)
      (backup sha256 blobDir excludes tree) start := by
  have holding : Holding base each [] start := ⟨holds, by simp⟩
  have walk := storeEntries_safe keeps room tree short holding fun _ member => member
  have whole : blobStore.Runs stuck (Fair strict) (Holding base each [])
      (Printed base each [] (versionLine :: manifestLines sha256 excludes (ascii ".") tree)
        (storedContents excludes (ascii ".") tree))
      (backup sha256 blobDir excludes tree) start := by
    refine printing_safe (whenInput_safe holding (nofun) ?_)
    refine walk.weaken ?_
    intro result after printed good
    rw [(printed good).1, flatten_cons]
    exact ⟨rfl, (printed good).2⟩
  refine (whole.relax fun _ kept => kept.1).weaken ?_
  intro result after printed good
  obtain ⟨text, stored⟩ := printed good
  rw [append_nil] at stored
  exact ⟨text, stored.1, stored.2⟩

end PhilzTouch.Dedupe
