import PhilzTouch.ApplyPatch.Applypatch
import PhilzTouch.ApplyPatch.SinkSpec

/-!
# What the parts of applypatch do to the storage

One lemma for each function of the source: what loading a file or a partition tells
about the disk, which files making room on the cache may delete, what saving a file and
writing a partition leave behind.  `cuts` says whether the power may be cut: contents
then only count as held once they are on the medium.
-/

namespace PhilzTouch.ApplyPatch

open List

/-- Operations that leave the storage as it is. -/
def Op.Quiet : Op → Prop
  | .stat _ | .openRead _ | .readFile _ _ | .statfs _ | .readdir _ | .openFiles
  | .openPartition _ | .readPartition _ _ _ | .openWrite _ | .readDevice _ _ _
  | .closeDevice _ => True
  | _ => False

theorem perform_quiet (op : Op) (choice : Choice) (disk : Disk) (quiet : op.Quiet) :
    (perform op choice disk).1 = disk := by
  cases op <;> simp only [Op.Quiet] at quiet <;> simp only [perform] <;> split <;> rfl

/-! ## Contents of files and partitions -/

/-- A file holds exactly this content. -/
def HeldByFile (cuts : Bool) (disk : Disk) (path : Text) (content : Bytes) : Prop :=
  ∃ file, disk.files path = some file ∧ file.data = content ∧ (cuts = true → file.synced = true)

/-- A partition starts with this content. -/
def HeldByDevice (cuts : Bool) (disk : Disk) (partition : Partition) (content : Bytes) : Prop :=
  content <+: (disk.devices partition).data ∧ (cuts = true → (disk.devices partition).synced = true)

/-- The file or partition of this name holds the content. -/
def Held (cuts : Bool) (disk : Disk) (name : Text) (content : Bytes) : Prop :=
  isPartitionName name = false ∧ HeldByFile cuts disk name content ∨ isPartitionName name = true ∧
      ∃ partition, partitionOf name = some partition ∧ HeldByDevice cuts disk partition content

variable {cuts : Bool} {disk : Disk} {name : Text} {content : Bytes}

theorem Held.visible (held : Held cuts disk name content) : Held false disk name content := by
  rcases held with ⟨isFile, file, found, same, _⟩ | ⟨isPartition, partition, named, starts, _⟩
  · exact .inl ⟨isFile, file, found, same, by simp⟩
  · exact .inr ⟨isPartition, partition, named, starts, by simp⟩

variable {path : Text}

theorem Held.setFile (held : Held cuts disk name content) (different : name ≠ path)
    (file : Option File) : Held cuts (disk.setFile path file) name content := by
  rcases held with ⟨isFile, stored, found, rest⟩ | partition
  · refine .inl ⟨isFile, stored, ?_, rest⟩
    rw [Disk.setFile_files_of_ne disk file different, found]
  · exact .inr partition

/-- Content on the medium survives a power cut. -/
theorem Held.powerCut {after : Disk} (held : Held true disk name content)
    (cut : PowerCut disk after) : Held true after name content := by
  rcases held with ⟨isFile, file, found, same, synced⟩ | ⟨isPartition, partition, named, starts, synced⟩
  · exact .inl ⟨isFile, file, cut.file name file found (synced rfl), same, synced⟩
  · refine .inr ⟨isPartition, partition, named, ?_⟩
    rw [HeldByDevice, cut.device partition (synced rfl)]
    exact ⟨starts, synced⟩

theorem prefix_join {front back whole : Bytes} (starts : front <+: whole)
    (goesOn : back <+: whole.drop front.length) : front ++ back <+: whole := by
  obtain ⟨behind, rfl⟩ := starts
  rw [drop_left] at goesOn
  exact prefix_append_right_inj front |>.mpr goesOn

/-! ## Loading -/

variable {file : FileContents}

section Loading

variable {lib : Library} {memory : Memory} {cuts : Bool} {disk : Disk}
  {allowed : storage.Step → Prop}

theorem readNext_observes (partition : Partition) (offset next : Nat) :
    storage.Observes True Op.Quiet allowed
      (fun read => read <+: (disk.devices partition).data.drop offset)
      (readNext partition offset next) disk := by
  unfold readNext
  split
  · exact .ret nil_prefix
  · exact .call trivial fun choice _ => .ret ( take_prefix _ _)

/-- What is loaded from a partition is what it starts with. -/
theorem readPairs_observes (partition : Partition) (file : FileContents)
    (pairs : List (Nat × Option Text)) (data : Bytes)
    (starts : data <+: (disk.devices partition).data) : storage.Observes True Op.Quiet allowed
      (fun loaded => ∀ value, loaded.2.data = some value →
        value.data <+: (disk.devices partition).data)
      (readPairs lib memory partition file pairs data) disk := by
  induction pairs generalizing data with
  | nil => exact .ret nofun
  | cons pair pairs ih =>
    obtain ⟨size, sha1sum⟩ := pair
    refine .bind (readNext_observes partition data.length (size - data.length)) ?_
    intro read more
    by_cases short : read.length ≠ size - data.length
    · rw [if_pos short]
      exact .ret nofun
    rw [if_neg short]
    have longer := prefix_join starts more
    cases sha1sum with
    | none => exact .stop
    | some sha1sum =>
      dsimp only
      split
      · exact .ret nofun
      split
      · split
        · exact .stop
        · rename_i value made
          refine .ret fun loaded found => ?_
          cases found
          rw [Value.of?_data made]
          exact longer
      · exact ih _ longer

variable {choice : Choice}

theorem perform_stat {size : Nat} {st : Meta}
    (found : (perform (.stat path) choice disk).2 = .found size st) :
    ∃ file, disk.files path = some file ∧ size = file.data.length ∧ st = file.st := by
  simp only [perform] at found
  split at found
  · rename_i file there
    cases found
    exact ⟨file, there, rfl, rfl⟩
  · cases found
  · cases found

theorem loadPartitionContents_observes {filename : Text}
    (isPartition : isPartitionName filename = true) (unloaded : file.data = none)
    (settled : ∀ partition choice, allowed ⟨.openPartition partition, choice, disk⟩ →
      cuts = true → (disk.devices partition).synced = true) : storage.Observes True Op.Quiet allowed
      (fun loaded => ∀ value, loaded.2.data = some value → Held cuts disk filename value.data)
      (loadPartitionContents lib memory filename file) disk := by
  have empty : ∀ result : Int, ∀ value, (result, file).2.data = some value →
      Held cuts disk filename value.data := by
    intro result value found
    rw [unloaded] at found
    cases found
  unfold loadPartitionContents
  rcases tokens : strtok filename with _ | ⟨magic, fields⟩
  · exact .stop
  rcases known : partitionType magic with _ | type
  · simp only [known]
    exact .ret (empty (-1))
  rcases fields with _ | ⟨name, fields⟩
  · simp only [known]
    exact .stop
  simp only [known]
  split
  · exact .ret (empty (-1))
  · exact .stop
  refine .call trivial ?_
  intro choice admitted
  split
  · split
    · exact .stop
    · apply (readPairs_observes ⟨type, name⟩ file _ [] nil_prefix).weaken
      intro loaded starts value found
      refine .inr ⟨isPartition, ⟨type, name⟩, ?_, starts value found, settled _ choice admitted⟩
      rw [partitionOf, tokens]
      simp [known]
  · exact .ret (empty (-1))

/-- What is loaded of a file are its masked contents, as they were read. -/
theorem loadFileWith_observes {mask : Bytes → Masked} {filename : Text} (file : FileContents)
    (isFile : isPartitionName filename = false) : storage.Observes True Op.Quiet allowed
      (fun loaded => ∀ value, loaded.2.data = some value → ∃ stored,
        disk.files filename = some stored ∧ mask stored.data = .matched value.data ∧
          ∃ count choice, allowed ⟨.readFile filename count, choice, disk⟩ ∧
            (perform (.readFile filename count) choice disk).2 = stored.data)
      (loadFileWith mask lib memory filename file) disk := by
  unfold loadFileWith
  rw [if_neg (by rw [isFile]; decide)]
  refine .call trivial ?_
  intro statChoice _
  split
  · exact .ret nofun
  · exact .ret nofun
  rename_i size st found
  refine .call trivial ?_
  intro openChoice _
  split
  swap
  · exact .ret nofun
  refine .call trivial ?_
  intro readChoice admitted
  split
  · exact .ret nofun
  rename_i complete
  -- the file that was there for `stat` is the one that was read
  obtain ⟨stored, there, size_eq, _⟩ := perform_stat found
  have read : (perform (.readFile filename size) readChoice disk).2 = stored.data := by
    simp only [perform, there, Option.elim_some, ne_eq, not_not] at complete ⊢
    exact take_of_length_le (by rw [length_take] at complete; omega)
  split
  · exact .stop
  · exact .ret nofun
  rename_i data masked
  split
  · exact .stop
  rename_i value made
  refine .ret fun loaded same => ?_
  cases same
  rw [Value.of?_data made]
  exact ⟨stored, there, read ▸ masked, size, readChoice, admitted, read⟩

/-- Where masking does not change what is read, the relevant contents that are loaded are what the
file or partition holds. -/
theorem loadFileWith_held {mask : Bytes → Masked} {relevant : Bytes → Prop} (filename : Text)
    (file : FileContents) (rests : isPartitionName filename = false →
      ∀ file, disk.files filename = some file → cuts = true → file.synced = true)
    (settled : ∀ partition choice, allowed ⟨.openPartition partition, choice, disk⟩ →
      cuts = true → (disk.devices partition).synced = true)
    (reads : ∀ count choice data, allowed ⟨.readFile filename count, choice, disk⟩ →
      mask (perform (.readFile filename count) choice disk).2 = .matched data → relevant data →
        data = (perform (.readFile filename count) choice disk).2) :
    storage.Observes True Op.Quiet allowed (fun loaded => ∀ value, loaded.2.data = some value →
      relevant value.data → Held cuts disk filename value.data)
      (loadFileWith mask lib memory filename file) disk := by
  by_cases isPartition : isPartitionName filename = true
  · unfold loadFileWith
    rw [if_pos isPartition]
    apply (loadPartitionContents_observes isPartition rfl settled).weaken
    exact fun loaded held value found _ => held value found
  have isFile : isPartitionName filename = false := by simpa using isPartition
  refine .weaken (loadFileWith_observes file isFile) ?_
  intro loaded held value found chosen
  obtain ⟨stored, there, masked, count, choice, admitted, read⟩ := held value found
  rw [← read] at masked
  have same := reads count choice value.data admitted masked chosen
  exact .inl ⟨isFile, stored, there, read.symm.trans same.symm, rests isFile stored there⟩

theorem stopAtTrailer_matched {data masked : Bytes} (known : stopAtTrailer data = .matched masked) :
    masked = data := by
  unfold stopAtTrailer at known
  split at known
  · cases known
  · exact (Masked.matched.inj known).symm

/-- What `LoadFileContents` loads is what the file or partition holds. -/
theorem loadFileContents_observes (filename : Text) (file : FileContents)
    (rests : isPartitionName filename = false →
      ∀ file, disk.files filename = some file → cuts = true → file.synced = true)
    (settled : ∀ partition choice, allowed ⟨.openPartition partition, choice, disk⟩ →
      cuts = true → (disk.devices partition).synced = true) : storage.Observes True Op.Quiet allowed
      (fun loaded => ∀ value, loaded.2.data = some value → Held cuts disk filename value.data)
      (loadFileContents lib memory filename file) disk :=
  (loadFileWith_held filename file rests settled fun _ _ _ _ masked (_ : True) =>
    stopAtTrailer_matched masked).weaken fun _ held value found => held value found trivial

/-- What is loaded is what can be seen of the disk. -/
theorem loadFileContents_visible (filename : Text) (file : FileContents) :
    storage.Observes True Op.Quiet allowed
      (fun loaded => ∀ value, loaded.2.data = some value → Held false disk filename value.data)
      (loadFileContents lib memory filename file) disk := by
  exact loadFileContents_observes filename file (fun _ _ _ (wrong : false = true) => by cases wrong)
    fun _ _ _ (wrong : false = true) => by cases wrong

end Loading

/-! ## Free space -/

/-- A file that stands directly in a directory. -/
def StandsIn (dir path : Text) : Prop := ∃ name, '/' ∉ name ∧ path = dir ++ '/' :: name

/-- The files that may be deleted to make room. -/
def Deletable (path : Text) : Prop :=
  path ≠ cacheTempSource ∧ (StandsIn cacheDir path ∨ StandsIn otatestDir path)

variable {α : Type} {post : α → Disk → Prop}

section FreeSpace

variable {allowed : storage.Step → Prop} {disk : Disk} {keep : Disk → Prop}

theorem regularFiles_observes (dir : Text) (names : List Text)
    (plain : ∀ name ∈ names, '/' ∉ name) : storage.Observes True Op.Quiet allowed
      (fun files => ∀ path ∈ files, path ≠ cacheTempSource ∧ StandsIn dir path)
      (regularFiles dir names) disk := by
  induction names with
  | nil => exact .ret (by simp)
  | cons name names ih =>
    have rest := ih (forall_mem_cons.mp plain).2
    unfold regularFiles
    by_cases saved : dir ++ '/' :: name = cacheTempSource
    · rw [if_pos saved]
      exact rest
    rw [if_neg saved]
    refine .call trivial ?_
    intro choice _
    split
    · refine .bind rest ?_
      intro files each
      refine .ret ?_
      exact forall_mem_cons.mpr ⟨⟨saved, name, plain name mem_cons_self, rfl⟩, each⟩
    · exact rest

theorem expendableIn_observes (dir : Text) : storage.Observes True Op.Quiet allowed
      (fun files => ∀ path ∈ files, path ≠ cacheTempSource ∧ StandsIn dir path)
      (expendableIn dir) disk := by
  refine .call trivial ?_
  intro choice _
  split
  · exact .ret (by simp)
  rename_i names shown
  apply regularFiles_observes
  intro name member
  simp only [perform] at shown
  split at shown
  · cases shown
    simpa using (mem_filter.mp member).2
  · cases shown

/-- Only files directly in the two directories are expendable, and the copy is not. -/
theorem findExpendableFiles_observes : storage.Observes True Op.Quiet allowed
      (fun found => ∀ names, found = some names → ∀ path, some path ∈ names → Deletable path)
      findExpendableFiles disk := by
  refine .bind (expendableIn_observes cacheDir) ?_
  intro inCache cached
  refine .bind (expendableIn_observes otatestDir) ?_
  intro inOtatest tested
  refine .call trivial ?_
  intro choice _
  split
  · exact .ret nofun
  refine .ret fun names found path member => ?_
  cases found
  simp only [mem_map] at member
  obtain ⟨file, listed, kept⟩ := member
  split at kept
  · cases kept
  · cases kept
    rcases mem_append.mp listed with there | there
    · exact ⟨(cached _ there).1, .inl (cached _ there).2⟩
    · exact ⟨(tested _ there).1, .inr (tested _ there).2⟩

theorem observing {β : Type} {program : Action β} {rest : β → Action α} {known : β → Prop}
    (observes : storage.Observes True Op.Quiet allowed known program disk) (kept : keep disk)
    (continues : ∀ value, known value → storage.Safe allowed keep post (rest value) disk) :
    storage.Safe allowed keep post (program >>= rest) disk := by
  refine .bind ((observes.safe perform_quiet).relax fun state same => same ▸ kept) ?_
  rintro value after ⟨holds, rfl⟩
  exact continues value holds

theorem observing_call {op : Op} {rest : Reply op → Action α} (quiet : op.Quiet) (kept : keep disk)
    (continues : ∀ reply, storage.Safe allowed keep post (rest reply) disk) :
    storage.Safe allowed keep post (Prog.call op >>= rest) disk := by
  refine .call ?_
  intro choice _
  rw [show (storage.perform op choice disk).1 = disk from perform_quiet op choice disk quiet]
  exact ⟨kept, continues _⟩

theorem unlink_keeps (choice : Choice) (kept : keep disk)
    (gone : keep (disk.setFile path none)) : keep (perform (.unlink path) choice disk).1 := by
  simp only [perform]
  split
  · exact gone
  · exact kept

section

variable (stable : ∀ disk path, Deletable path → keep disk → keep (disk.setFile path none))
  (bytesNeeded : Nat)

include stable

theorem deleteUntil_keeps (names : List (Option Text))
    (freeNow : Nat) (deletable : ∀ path, some path ∈ names → Deletable path) (kept : keep disk) :
    storage.Safe allowed keep (fun _ => keep) (deleteUntil bytesNeeded names freeNow) disk := by
  induction names generalizing freeNow disk with
  | nil => exact .ret kept
  | cons name names ih =>
    have rest : ∀ freeNow {disk : Disk}, keep disk → storage.Safe allowed keep (fun _ => keep)
        (deleteUntil bytesNeeded names freeNow) disk := fun freeNow disk kept =>
      ih freeNow (fun path member => deletable path (mem_cons_of_mem _ member)) kept
    unfold deleteUntil
    split
    · cases name with
      | none => exact rest freeNow kept
      | some path =>
        refine .call ?_
        intro choice _
        have deleted : keep (perform (.unlink path) choice disk).1 :=
          unlink_keeps choice kept (stable disk path (deletable path mem_cons_self) kept)
        refine ⟨deleted, ?_⟩
        exact observing_call (by trivial) deleted fun freeNow => rest freeNow deleted
    · exact .ret kept

/-- `MakeFreeSpaceOnCache` keeps whatever survives the loss of a deletable file. -/
theorem makeFreeSpaceOnCache_keeps (kept : keep disk) :
    storage.Safe allowed keep (fun _ => keep) (makeFreeSpaceOnCache bytesNeeded) disk := by
  apply observing_call (by trivial) kept
  intro freeNow
  split
  · exact .ret kept
  apply observing findExpendableFiles_observes kept
  intro found deletable
  cases found with
  | none => exact .ret kept
  | some names =>
    dsimp only
    split
    · exact .ret kept
    · refine .bind
        (deleteUntil_keeps stable bytesNeeded names freeNow (deletable names rfl) kept) ?_
      intro freeNow after kept
      exact .ret kept

end

end FreeSpace

/-! ## Writing files -/

section Writing

variable {allowed : storage.Step → Prop} {disk : Disk} {keep invariant : Disk → Prop} {path : Text}

/-- A call of `write` stores nothing and does not return a count, or it stores as many
bytes as it says. -/
theorem perform_write (path : Text) (data : Bytes) (choice : Choice) (disk : Disk) :
    (perform (.write path data) choice disk).1 = disk ∧ choice.accepted data.length = 0 ∧
        (perform (.write path data) choice disk).2 ≤ 0 ∨
      0 < choice.accepted data.length ∧ choice.accepted data.length ≤ data.length ∧
        perform (.write path data) choice disk = (disk.modify path fun file =>
            { file with
              data := file.data ++ data.take (choice.accepted data.length), synced := false },
          (choice.accepted data.length : Int)) := by
  have bounded : choice.accepted data.length ≤ data.length := by
    cases choice <;> simp [Choice.accepted]
  by_cases nothing : choice.accepted data.length = 0
  · left
    simp only [perform, if_pos nothing]
    refine ⟨trivial, nothing, ?_⟩
    split
    · exact (by decide : (-1 : Int) ≤ 0)
    · exact le_refl (0 : Int)
  · right
    simp only [perform, if_neg nothing]
    exact ⟨by omega, bounded, trivial⟩

/-- A file holds this content, on the medium or not. -/
def Contains (path : Text) (content : Bytes) (disk : Disk) : Prop :=
  ∃ file, disk.files path = some file ∧ file.data = content

theorem Contains.modify (contains : Contains path content disk) (change : File → File)
    {changed : Bytes} (effect : ∀ file, file.data = content → (change file).data = changed) :
    Contains path changed (disk.modify path change) := by
  obtain ⟨file, found, same⟩ := contains
  exact ⟨change file, by simp [Disk.modify, found], effect file same⟩

/-- Whatever does not depend on one file. -/
def Unaffected (keep : Disk → Prop) (path : Text) : Prop :=
  ∀ disk file, keep disk → keep (disk.setFile path file)

/-- The loop of `FileSink` stores a part of the data and says how long that part is. -/
theorem fileSinkLoop_keeps (free : Unaffected keep path) {rounds : Nat} (data : Bytes)
    (enough : data.length ≤ rounds) (done : Nat) (kept : keep disk)
    (contains : Contains path content disk) : storage.Safe allowed keep
      (fun (count : Int) after => ∃ stored, stored ≤ data.length ∧ count = (done + stored : Nat) ∧
        keep after ∧ Contains path (content ++ data.take stored) after)
      (fileSinkLoop path rounds data done) disk := by
  induction rounds generalizing data done content disk with
  | zero => exact .ret ⟨0, by omega, by simp, kept, by simpa using contains⟩
  | succ rounds ih =>
    refine .call ?_
    intro choice _
    rcases perform_write path data choice disk with ⟨same, _, failed⟩ | ⟨positive, bounded, grown⟩
    · simp only [same, if_pos failed]
      exact ⟨kept, .ret ⟨0, by omega, by simp, kept, by simpa using contains⟩⟩
    simp only [grown]
    generalize choice.accepted data.length = count at positive bounded
    have kept : keep (disk.modify path fun file =>
        { file with data := file.data ++ data.take count, synced := false }) := free _ _ kept
    have contains := contains.modify (fun file =>
        { file with data := file.data ++ data.take count, synced := false })
      fun file same => show file.data ++ data.take count = content ++ data.take count by rw [same]
    refine ⟨kept, ?_⟩
    have moved : ¬ (count : Int) ≤ 0 := by omega
    rw [if_neg moved, Int.toNat_natCast]
    split
    · exact .ret ⟨count, by omega, rfl, kept, contains⟩
    have shorter : (data.drop count).length ≤ rounds := by
      rw [length_drop]
      omega
    apply (ih (data.drop count) shorter (done + count) kept contains).weaken
    rintro result after ⟨stored, within, same, kept, contains⟩
    rw [length_drop] at within
    refine ⟨count + stored, by omega, by omega, kept, ?_⟩
    rwa [append_assoc, ← take_add] at contains

theorem HeldByFile.modify (held : HeldByFile cuts disk path content) (change : File → File)
    (same : ∀ file, (change file).data = file.data ∧ (change file).synced = file.synced) :
    HeldByFile cuts (disk.modify path change) path content := by
  obtain ⟨file, found, data, synced⟩ := held
  refine ⟨change file, by simp [Disk.modify, found], ?_, ?_⟩
  · rw [(same file).1, data]
  · rw [(same file).2]
    exact synced

/-- A content that was written counts as held after a successful `fsync`. -/
theorem Contains.fsync (contains : Contains path content disk)
    (synced : cuts = true → choice = .ok) :
    HeldByFile cuts (perform (.fsync path) choice disk).1 path content := by
  obtain ⟨file, found, same⟩ := contains
  by_cases ok : choice = .ok
  · simp only [perform, if_pos ok]
    exact ⟨{ file with synced := true }, by simp [Disk.modify, found], same, fun _ => rfl⟩
  · simp only [perform, if_neg ok]
    exact ⟨file, found, same, fun cut => absurd (synced cut) ok⟩

theorem fsync_keeps (choice : Choice) (free : Unaffected keep path) (kept : keep disk) :
    keep (perform (.fsync path) choice disk).1 := by
  simp only [perform]
  split
  · exact free _ _ kept
  · exact kept

theorem perform_rename_of_ne {target : Text} (failed : choice ≠ .ok) :
    perform (.rename path target) choice disk = (disk, false) := by
  simp only [perform]
  split
  · exact absurd rfl failed
  · rfl

/-- `chmod` and `chown` leave the content of a file. -/
theorem metadata_keeps {op : Op} (changes : (∃ mode, op = .chmod path mode) ∨
      ∃ uid gid, op = .chown path uid gid) (free : Unaffected keep path) (kept : keep disk)
    (held : HeldByFile cuts disk path content) :
    storage.Safe allowed keep (fun _ after => keep after ∧ HeldByFile cuts after path content)
      (Prog.call op) disk := by
  rw [← Prog.bind_ret (Prog.call _)]
  refine .call fun choice _ => ?_
  rcases changes with ⟨mode, rfl⟩ | ⟨uid, gid, rfl⟩
  all_goals
    simp only [perform]
    split
    · exact ⟨free _ _ kept, .ret ⟨free _ _ kept, held.modify _ fun _ => ⟨rfl, rfl⟩⟩⟩
    · exact ⟨kept, .ret ⟨kept, held⟩⟩

/-- `SaveFileContents` of loaded data: if it says so, the file holds them. -/
theorem saveFileContents_keeps (free : Unaffected keep path)
    (synced : ∀ choice disk, allowed ⟨.fsync path, choice, disk⟩ → cuts = true → choice = .ok)
    {value : Value} (loaded : file.data = some value) (kept : keep disk) : storage.Safe allowed keep
      (fun (result : Int) after => keep after ∧
        (0 ≤ result → HeldByFile cuts after path value.data))
      (saveFileContents path file) disk := by
  have failed : ∀ {disk}, keep disk → storage.Safe allowed keep
      (fun (result : Int) after => keep after ∧
        (0 ≤ result → HeldByFile cuts after path value.data)) (.ret (-1)) disk :=
    fun kept => .ret ⟨kept, nofun⟩
  refine .call ?_
  intro choice _
  by_cases created : choice = .ok
  swap
  · simp only [perform, if_neg created]
    exact ⟨kept, failed kept⟩
  simp only [perform, if_pos created]
  have kept := free disk (some ⟨[], false, (disk.files path).elim createdMeta File.st⟩) kept
  have empty : Contains path []
      (disk.setFile path (some ⟨[], false, (disk.files path).elim createdMeta File.st⟩)) :=
    ⟨_, Disk.setFile_files_same _ _ _, rfl⟩
  refine ⟨kept, ?_⟩
  unfold sinkContents
  rw [loaded]
  refine .bind (fileSinkLoop_keeps free value.data le_rfl 0 kept empty) ?_
  rintro count after ⟨stored, within, rfl, kept, contains⟩
  have size : file.size = value.data.length := by
    rw [FileContents.size, loaded]
  by_cases short : ((0 + stored : Nat) : Int) ≠ file.size
  · rw [if_pos short]
    exact failed kept
  rw [if_neg short]
  have all : stored = value.data.length := by
    rw [size] at short
    omega
  rw [all, nil_append, take_length] at contains
  refine .call ?_
  intro choice admitted
  have held := contains.fsync (synced choice after admitted)
  have kept := fsync_keeps choice free kept
  refine ⟨kept, ?_⟩
  refine .bind (metadata_keeps (.inl ⟨_, rfl⟩) free kept held) ?_
  rintro modeSet after ⟨kept, held⟩
  split
  swap
  · exact failed kept
  refine .bind (metadata_keeps (.inr ⟨_, _, rfl⟩) free kept held) ?_
  rintro ownerSet after ⟨kept, held⟩
  split
  · exact .ret ⟨kept, fun _ => held⟩
  · exact failed kept

end Writing

/-! ## Writing partitions -/

section Partitions

variable {allowed : storage.Step → Prop} {disk : Disk} {keep : Disk → Prop} {partition : Partition}

/-- Whatever does not depend on one partition. -/
def UnaffectedBy (keep : Disk → Prop) (partition : Partition) : Prop :=
  ∀ disk device, keep disk → keep (disk.setDevice partition device)

theorem writeFrom_keeps (free : UnaffectedBy keep partition) (data : Bytes)
    (patience start : Nat) (kept : keep disk) :
    storage.Safe allowed keep (fun _ => keep) (writeFrom partition data patience start) disk := by
  induction patience generalizing start disk with
  | zero =>
    unfold writeFrom
    split
    · exact .stop
    · exact .ret kept
  | succ patience ih =>
    unfold writeFrom
    split
    swap
    · exact .ret kept
    refine .call ?_
    intro choice _
    generalize data.slice start (min (data.length - start) (2 ^ 20)) = toWrite
    have kept : keep (perform (.writeDevice partition start toWrite) choice disk).1 := by
      simp only [perform]
      split
      · exact kept
      · exact free _ _ kept
      · exact free _ _ kept
      · exact free _ _ kept
      · exact kept
    refine ⟨kept, ?_⟩
    split
    · exact ih start kept
    · exact .ret kept
    · exact ih _ kept

theorem readBlock_observes (start toRead patience : Nat) (buffer : Bytes)
    (read : buffer <+: (disk.devices partition).data.drop start) : storage.Observes True Op.Quiet allowed
      (fun block => ∀ bytes, block = some bytes →
        bytes <+: (disk.devices partition).data.drop start)
      (readBlock partition start toRead patience buffer) disk := by
  have finished : ∀ bytes, some buffer = some bytes →
      bytes <+: (disk.devices partition).data.drop start := by
    intro bytes same
    cases same
    exact read
  induction patience generalizing buffer with
  | zero =>
    unfold readBlock
    split
    · exact .stop
    · exact .ret finished
  | succ patience ih =>
    unfold readBlock
    split
    swap
    · exact .ret finished
    refine .call trivial ?_
    intro choice _
    split
    · exact ih buffer read finished
    · exact .ret nofun
    rename_i bytes moved
    have more : bytes <+: (disk.devices partition).data.drop (start + buffer.length) := by
      simp only [perform] at moved
      split at moved
      · cases moved
      · cases moved
      · cases moved
        exact take_prefix _ _
    have longer : buffer ++ bytes <+: (disk.devices partition).data.drop start :=
      prefix_join read (by rwa [drop_drop])
    exact ih _ longer (by rintro _ ⟨⟩; exact longer)

/-- A verification that gets to the end has read the data back. -/
theorem verifyFrom_observes (data : Bytes) (patience blocks p : Nat)
    (enough : data.length ≤ p + 4096 * blocks) : storage.Observes True Op.Quiet allowed
      (fun verified => verified = some data.length →
        data.drop p <+: (disk.devices partition).data.drop p)
      (verifyFrom partition data patience blocks p) disk := by
  induction blocks generalizing p with
  | zero =>
    refine .ret fun _ => ?_
    rw [drop_of_length_le (by omega)]
    exact nil_prefix
  | succ blocks ih =>
    unfold verifyFrom
    by_cases inside : p < data.length
    swap
    · rw [if_neg inside]
      refine .ret fun _ => ?_
      rw [drop_of_length_le (by omega)]
      exact nil_prefix
    rw [if_pos inside]
    generalize size_eq : min (data.length - p) 4096 = toRead
    refine .bind (readBlock_observes p toRead patience [] nil_prefix) ?_
    intro block read
    cases block with
    | none => exact .ret nofun
    | some buffer =>
      dsimp only
      by_cases same : buffer = data.slice p toRead
      swap
      · rw [if_pos same]
        refine .ret fun wrong => ?_
        have := Option.some.inj wrong
        omega
      rw [if_neg (not_not.mpr same)]
      apply (ih (p + 4096) (by omega)).weaken
      intro verified rest done
      have block : data.slice p toRead <+: (disk.devices partition).data.drop p :=
        same ▸ read buffer rfl
      have length : (data.slice p toRead).length = toRead := by
        rw [Bytes.slice, length_take, length_drop]
        omega
      have parts : data.drop p = data.slice p toRead ++ data.drop (p + toRead) := by
        rw [Bytes.slice, ← drop_drop, take_append_drop]
      rw [parts]
      apply prefix_join block
      rw [length, drop_drop]
      by_cases last : data.length - p ≤ 4096
      · rw [drop_of_length_le (by omega)]
        exact nil_prefix
      · rw [show toRead = 4096 by omega]
        exact rest done

/-- The attempts to write a device: if one succeeds, the device starts with the data. -/
theorem writeAttempts_keeps (free : UnaffectedBy keep partition)
    (synced : ∀ choice disk, allowed ⟨.fsyncDevice partition, choice, disk⟩ →
      cuts = true → choice = .ok) (data : Bytes) (patience attempts start : Nat) (kept : keep disk) :
    storage.Safe allowed keep
      (fun success after => keep after ∧ (success = true → HeldByDevice cuts after partition data))
      (writeAttempts partition data patience attempts start) disk := by
  induction attempts generalizing start disk with
  | zero => exact .ret ⟨kept, nofun⟩
  | succ attempts ih =>
    refine .bind (writeFrom_keeps free data patience start kept) ?_
    intro written after kept
    cases written with
    | false => exact .ret ⟨kept, nofun⟩
    | true =>
      refine .call ?_
      intro choice admitted
      have onMedium : cuts = true →
          ((perform (.fsyncDevice partition) choice after).1.devices partition).synced = true := by
        intro cut
        simp [perform, synced choice after admitted cut]
      have kept : keep (perform (.fsyncDevice partition) choice after).1 := by
        simp only [perform]
        split
        · exact free _ _ kept
        · exact kept
      refine ⟨kept, ?_⟩
      generalize (perform (.fsyncDevice partition) choice after).1 = after at kept onMedium
      apply observing (verifyFrom_observes data patience _ 0 (by omega)) kept
      intro verified same
      split
      · exact .ret ⟨kept, nofun⟩
      · split
        · rename_i all
          rw [all] at same
          exact .ret ⟨kept, fun _ => ⟨by simpa using same rfl, onMedium⟩⟩
        · exact ih _ kept

theorem writeToEmmc_keeps {memory : Memory} (free : UnaffectedBy keep partition)
    (synced : ∀ choice disk, allowed ⟨.fsyncDevice partition, choice, disk⟩ →
      cuts = true → choice = .ok) (data : Bytes) (kept : keep disk) : storage.Safe allowed keep
      (fun result after => keep after ∧ (result = 0 → HeldByDevice cuts after partition data))
      (writeToEmmc memory partition data) disk := by
  apply observing_call (by trivial) kept
  intro opened
  cases opened with
  | false => exact .ret ⟨kept, fun wrong => by simp at wrong⟩
  | true =>
    refine .bind (writeAttempts_keeps free synced data memory.patience 2 0 kept) ?_
    rintro success after ⟨kept, held⟩
    cases success with
    | false => exact .ret ⟨kept, fun wrong => by simp at wrong⟩
    | true =>
      apply observing_call (by trivial) kept
      intro closed
      exact .ret ⟨kept, fun _ => held rfl⟩

theorem writeToMtd_keeps (free : UnaffectedBy keep partition) (data : Bytes) (kept : keep disk) :
    storage.Safe allowed keep
      (fun result after => keep after ∧ (result = 0 → HeldByDevice cuts after partition data))
      (writeToMtd partition data) disk := by
  have closing : ∀ (choice : Choice) {disk}, keep disk →
      keep (perform (.mtdWriteClose partition) choice disk).1 ∧
        ((perform (.mtdWriteClose partition) choice disk).2 = true →
          (perform (.mtdWriteClose partition) choice disk).1 = disk) := by
    intro choice disk kept
    simp only [perform]
    split
    · exact ⟨free _ _ kept, nofun⟩
    · exact ⟨kept, fun _ => rfl⟩
  apply observing_call (by trivial) kept
  intro opened
  cases opened with
  | false => exact .ret ⟨kept, fun wrong => by simp at wrong⟩
  | true =>
    refine .call ?_
    intro choice _
    have kept : keep (perform (.mtdWriteData partition data) choice disk).1 := by
      simp only [perform]
      split
      · exact free _ _ kept
      · exact free _ _ kept
      · exact kept
    refine ⟨kept, ?_⟩
    split
    · refine .call ?_
      intro choice _
      have closed := (closing choice kept).1
      exact ⟨closed, .ret ⟨closed, fun wrong => by simp at wrong⟩⟩
    generalize (perform (.mtdWriteData partition data) choice disk).1 = after at kept
    refine .call ?_
    intro choice _
    have erased : keep (perform (.mtdEraseBlocks partition data) choice after).1 ∧
        ((perform (.mtdEraseBlocks partition data) choice after).2 = true →
          HeldByDevice cuts (perform (.mtdEraseBlocks partition data) choice after).1
            partition data) := by
      simp only [perform]
      split
      · exact ⟨free _ _ kept, fun _ => ⟨by simp, by simp⟩⟩
      · exact ⟨free _ _ kept, nofun⟩
      · exact ⟨kept, nofun⟩
    refine ⟨erased.1, ?_⟩
    refine .call ?_
    intro closeChoice _
    have closed := closing closeChoice erased.1
    refine ⟨closed.1, .ret ⟨closed.1, fun success => ?_⟩⟩
    have both : (perform (.mtdEraseBlocks partition data) choice after).2 = true ∧
        (perform (.mtdWriteClose partition) closeChoice
          (perform (.mtdEraseBlocks partition data) choice after).1).2 = true := by
      split at success
      · rename_i both
        simpa using both
      · simp at success
    rw [show (storage.perform (.mtdWriteClose partition) closeChoice _).1 = _ from closed.2 both.2]
    exact erased.2 both.1

/-- `WriteToPartition`: if it succeeds, the partition starts with the data. -/
theorem writeToPartition_keeps {memory : Memory} {target : Text}
    (free : ∀ partition, partitionOf target = some partition → UnaffectedBy keep partition)
    (synced : ∀ partition choice disk, allowed ⟨.fsyncDevice partition, choice, disk⟩ →
      cuts = true → choice = .ok) (data : Bytes) (kept : keep disk) : storage.Safe allowed keep
      (fun result after => keep after ∧ (result = 0 →
        ∃ partition, partitionOf target = some partition ∧ HeldByDevice cuts after partition data))
      (writeToPartition memory data target) disk := by
  unfold writeToPartition
  cases named : partitionOf target with
  | none => exact .ret ⟨kept, fun wrong => by simp at wrong⟩
  | some partition =>
    have free := free partition named
    dsimp only
    split
    · apply (writeToMtd_keeps free data kept).weaken
      exact fun result after held => ⟨held.1, fun zero => ⟨partition, rfl, held.2 zero⟩⟩
    · apply (writeToEmmc_keeps free (synced partition) data kept).weaken
      exact fun result after held => ⟨held.1, fun zero => ⟨partition, rfl, held.2 zero⟩⟩

end Partitions

/-! ## Applying a patch -/

section Patching

variable {machine : Machine Op Reply} {allowed : machine.Step → Prop}
  {invariant : machine.State → Prop} {σ : Type}
  {track : (ctx want : Bytes) → σ → machine.State → Prop} {sink : Sink Op Reply σ}

/-- The memory sink: its buffer is what was hashed. -/
theorem memorySink_keeps {keep : machine.State → Prop} (size : Int) : SinkKeeps allowed invariant
      (fun ctx _ buffer state => buffer = ctx ∧ keep state) (memorySink size) := by
  rintro data ctx want buffer state ⟨rfl, kept⟩
  unfold memorySink
  split
  · exact .ret (.inr ⟨by omega, rfl, kept⟩)
  · exact .ret (.inl ⟨rfl, rfl, kept⟩)

/-- A patch applied with result 0: what a sink that never fails would have got is what
the relation speaks about. -/
theorem applyPatchData_keeps (keeps : SinkKeeps allowed invariant track sink) (lib : Library)
    (old patch : Value) (bonus : Option Value) {token : σ} {state : machine.State}
    (tracked : track [] [] token state) : machine.Safe allowed invariant
      (fun result after => ∀ applied, result = some applied → applied.result = 0 →
        ∃ out, applyPatchData lib old patch bonus collect [] = .ret (some ⟨0, out, out⟩) ∧
          track applied.ctx out applied.sink after)
      (applyPatchData lib old patch bonus sink token) state := by
  unfold applyPatchData
  by_cases bsdiff : 8 ≤ patch.data.length ∧ patch.data.take 8 = bsdiffMagic
  · simp only [if_pos bsdiff]
    refine .bind (applyBSDiffPatch_keeps keeps lib.bz old.data patch 0 tracked) ?_
    rintro applied after ⟨made, output, kept, zero⟩
    refine .ret fun _ same success => ?_
    cases same
    refine ⟨made.sink, ?_, kept⟩
    have result := zero success
    have hashed := bsdiffOutput_ctx output
    rw [applyBSDiffPatch_collect, output, ofOption, Prog.ret_bind]
    obtain ⟨_, _, _⟩ := made
    simp_all
  simp only [if_neg bsdiff]
  by_cases image : 8 ≤ patch.data.length ∧ patch.data.take 8 = imgdiffMagic
  · simp only [if_pos image]
    refine .bind (applyImagePatch_keeps keeps lib.zlib lib.bz old patch bonus tracked) ?_
    intro applied after known
    refine .ret fun _ same success => ?_
    cases same
    obtain ⟨out, made, kept⟩ := known success
    exact ⟨out, by rw [made, Prog.ret_bind], kept⟩
  · simp only [if_neg image]
    exact .ret (by simp)

end Patching

end PhilzTouch.ApplyPatch
