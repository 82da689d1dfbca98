import PhilzTouch.Minzip.Sorted

/-!
# Finding an entry by its name

`mzFindZipEntry` looks a name up in the hash table that `parseZipArchive` fills from the sorted
array.  An entry whose name is already in the array is put behind one of that name, and a name
that is already in the hash table is not added again.  The entry that is found is therefore the
first of its name in the array, which is the first in the central directory.
-/

namespace PhilzTouch.Minzip

open List

/-- `mzFindZipEntry`.  `entryName` holds the characters before the terminating NUL. -/
def mzFindZipEntry (map : MemMapping) (archive : ZipArchive) (entryName : Bytes) :
    Parse (Option ZipEntry) := do
  let names ← archive.pEntries.mapM fun entry => getBytes map entry.fileNameLen entry.fileName
  -- nothing is added, so the item that is passed to the lookup is not used
  match mzHashTableLookup archive.pHash (computeHash entryName) 0
      (fun index => names[index]? == some entryName) false with
  | none => .error .fault
  | some (_, none) => return none
  | some (_, some index) => return archive.pEntries[index]?

/-! ## The first entry of a name -/

theorem nameKey_inj {left right : Bytes} (same : nameKey left = nameKey right) : left = right :=
  map_injective_iff.mpr (fun _ _ equal => UInt8.toNat_inj.mp equal) same

/-- Whether an entry has the given name. -/
def named (map : MemMapping) (name : Bytes) (entry : ZipEntry) : Bool :=
  entryName map entry == name

variable {map : MemMapping} {entry : ZipEntry}

theorem named_iff {name : Bytes} :
    named map name entry = true ↔ entryName map entry = name := beq_iff_eq

/-- The records of the central directory as entries, in the order of the directory. -/
def directory (map : MemMapping) : List ZipEntry :=
  (lastRecord map.data (map.length - ENDHDR)).elim [] fun record =>
    walkEntries map (numEntriesAt map record) (map.addr + cdOffsetAt map record)

variable {count : Nat}

section Insert

variable {map : MemMapping} {entries : List ZipEntry}

theorem Separates.find_insert {target : Nat}
    (separates : Separates map entries (entryName map entry) target) (name : Bytes) :
    (entries.take target ++ entry :: entries.drop target).find? (named map name) =
      (entries ++ [entry]).find? (named map name) := by
  conv_rhs => rw [← take_append_drop target entries]
  simp only [find?_append, append_assoc]
  by_cases other : named map name entry = true
  · cases early : (entries.take target).find? (named map name) with
    | some first => rfl
    | none =>
      -- behind the place there can be no entry of this name either
      have late : (entries.drop target).find? (named map name) = none := by
        refine find?_eq_none.mpr fun found member equal => ?_
        have same := (named_iff.mp equal).trans (named_iff.mp other).symm
        obtain ⟨earlier, before, equal'⟩ := separates.behind found (mem_of_mem_drop member)
          (congrArg nameKey same)
        exact find?_eq_none.mp early earlier before
          (named_iff.mpr ((nameKey_inj equal').trans (named_iff.mp other)))
      rw [late, find?_cons_of_pos other, find?_cons_of_pos other]
      rfl
  · rw [find?_cons_of_neg other, find?_cons_of_neg other, find?_nil, Option.or_none]

/-- The loop over the directory puts the first record of every name before the others. -/
theorem parseEntries_find (spare : map.length + 92 ≤ 2 ^ 32) {result : List ZipEntry} {ptr : Nat}
    (table : Table map entries) (parsed : parseEntries map count entries ptr = .ok result)
    (name : Bytes) : result.find? (named map name) =
      (entries ++ walkEntries map count ptr).find? (named map name) := by
  induction count generalizing entries ptr with
  | zero =>
    rw [walkEntries, append_nil]
    exact congrArg (find? _) (Except.ok.inj parsed).symm
  | succ count ih =>
    have round := @parseEntry_outcome map ptr spare entries table.inside
    rw [parseEntries] at parsed
    generalize parseEntry map entries ptr = outcome at round parsed
    cases round with
    | fault => cases parsed
    | bail => cases parsed
    | next target tame accepted found =>
      rw [ok_then] at parsed
      have inside := entryAt_name tame accepted
      have inserted := table.insert inside (entryAt_data accepted) accepted.name.2.2 found
      have first := (findTarget_separates table inside found).find_insert name
      rw [ih inserted parsed, walkEntries, find?_append, first, ← find?_append,
        append_assoc, singleton_append]

end Insert

/-! ## The hash table of an archive -/

section Lookup

variable {α : Type} {hash : α → Nat} {same : α → α → Bool} {table : HashTable α} {contents : Set α}

/-- A search by a key that the items may have.  It finds an item with the key if there is one. -/
theorem Sound.lookup_key (sound : Sound hash same table contents) {itemHash : Nat}
    {fits : α → Bool} (hashed : ∀ value ∈ contents, fits value = true → hash value = itemHash)
    (item : α) : (∃ value ∈ contents, fits value = true ∧
      mzHashTableLookup table itemHash item fits false = some (table, some value)) ∨
    (∀ value ∈ contents, fits value = false) ∧
      mzHashTableLookup table itemHash item fits false = some (table, none) := by
  obtain ⟨exponent, size⟩ := sound.size
  obtain ⟨hole, free, holeFree, unused⟩ := exists_free sound.few
  have stops : free.answers itemHash fits = true := by
    rw [HashEntry.answers, HashEntry.live_null unused]
  obtain ⟨found, entry, probed, here, ends, first⟩ :=
    probe_first holeFree stops (home_lt size itemHash)
  rw [mzHashTableLookup, HashTable.tableSize, home_eq size, probed]
  simp only [here, some_bind, if_true]
  unfold HashEntry.answers at ends
  cases data : entry.data with
  | tombstone => simp [data] at ends
  | item value =>
    simp only [data, Bool.and_eq_true] at ends
    have stored := (sound.contents value).mp (mem_items.mpr ⟨found, entry, here, data⟩)
    exact .inl ⟨value, stored, ends.2, rfl⟩
  | null =>
    refine .inr ⟨fun value member => ?_, rfl⟩
    by_contra equal
    rw [Bool.not_eq_false] at equal
    obtain ⟨place, other, there, known⟩ := mem_items.mp ((sound.contents value).mpr member)
    have answers : other.answers itemHash fits = true := by
      rw [HashEntry.answers, known]
      simp [sound.placed.hashed there known, hashed value member equal, equal]
    have used := sound.placed.used_of_first size there known answers here
      (hashed value member equal) first
    rw [HashEntry.used, data] at used
    cases used

end Lookup

section Names

variable {names : List Bytes}

def nameHash (names : List Bytes) (index : Nat) : Nat := computeHash (names[index]?.getD [])

def sameName (names : List Bytes) (first second : Nat) : Bool := names[first]? == names[second]?

theorem names_compatible (names : List Bytes) : Compatible (nameHash names) (sameName names) where
  equivalence := by
    refine ⟨fun _ => beq_self_eq_true _, fun equal => ?_, fun first second => ?_⟩
    · exact beq_iff_eq.mpr (beq_iff_eq.mp equal).symm
    · exact beq_iff_eq.mpr ((beq_iff_eq.mp first).trans (beq_iff_eq.mp second))
  hash equal := by rw [nameHash, nameHash, beq_iff_eq.mp equal]

/-- The indices below `count` at which a name stands for the first time. -/
def firstIndices (names : List Bytes) (count : Nat) : Set Nat :=
  { index | index < count ∧ ∀ earlier < index, names[earlier]? ≠ names[index]? }

/-- An index whose name has stood before adds nothing. -/
theorem firstIndices_succ_of_old {earlier : Nat} (before : earlier < count)
    (equal : names[earlier]? = names[count]?) :
    firstIndices names (count + 1) = firstIndices names count := by
  ext index
  refine ⟨fun member => ⟨?_, member.2⟩, fun member => ⟨Nat.lt_succ_of_lt member.1, member.2⟩⟩
  rcases Nat.lt_succ_iff_lt_or_eq.mp member.1 with small | rfl
  · exact small
  · exact absurd equal (member.2 earlier before)

theorem firstIndices_succ_of_new (fresh : ∀ earlier < count, names[earlier]? ≠ names[count]?) :
    firstIndices names (count + 1) = Insert.insert count (firstIndices names count) := by
  ext index
  rw [Set.mem_insert_iff]
  refine ⟨fun member => ?_, ?_⟩
  · rcases Nat.lt_succ_iff_lt_or_eq.mp member.1 with small | rfl
    · exact .inr ⟨small, member.2⟩
    · exact .inl rfl
  · rintro (rfl | member)
    · exact ⟨Nat.lt_succ_self _, fresh⟩
    · exact ⟨Nat.lt_succ_of_lt member.1, member.2⟩

theorem exists_firstIndex {count index : Nat} (inside : index < count) :
    ∃ first ∈ firstIndices names count, names[first]? = names[index]? ∧ first ≤ index := by
  induction index using Nat.strong_induction_on with
  | _ index ih =>
    by_cases fresh : ∀ earlier < index, names[earlier]? ≠ names[index]?
    · exact ⟨index, ⟨inside, fresh⟩, rfl, le_rfl⟩
    · push Not at fresh
      obtain ⟨earlier, before, equal⟩ := fresh
      obtain ⟨first, member, same, low⟩ := ih earlier before (before.trans inside)
      exact ⟨first, member, same.trans equal, low.trans (le_of_lt before)⟩

theorem addEntryToHashTable_sound {table next : HashTable Nat} {index : Nat}
    (sound : Sound (nameHash names) (sameName names) table (firstIndices names index))
    (added : addEntryToHashTable names table index = some next) :
    Sound (nameHash names) (sameName names) next (firstIndices names (index + 1)) := by
  rw [addEntryToHashTable] at added
  cases known : names[index]? with
  | none => simp [known] at added
  | some name =>
    have hashed : computeHash name = nameHash names index := by rw [nameHash, known]; rfl
    have compared : (fun other => names[other]? == some name) = (sameName names · index) := by
      funext other
      rw [sameName, known]
    simp only [known, some_bind, hashed, compared] at added
    by_cases fresh : ∀ earlier < index, names[earlier]? ≠ names[index]?
    · have absent : ∀ value ∈ firstIndices names index, sameName names value index = false :=
        fun value member => beq_eq_false_iff_ne.mpr (fresh value member.1)
      obtain ⟨room, full⟩ := mzHashTableLookup_add (names_compatible names) sound absent
      rcases lt_or_ge (2 ^ 28) table.tableSize with large | small
      · rw [full large] at added
        cases added
      · obtain ⟨grown, kept, looked⟩ := room small
        rw [looked] at added
        cases added
        rw [firstIndices_succ_of_new fresh]
        exact kept.sound
    push Not at fresh
    obtain ⟨earlier, before, equal⟩ := fresh
    obtain ⟨first, member, same, -⟩ := @exists_firstIndex names index earlier before
    rw [mzHashTableLookup_found (names_compatible names) sound member
      (beq_iff_eq.mpr (same.trans equal))] at added
    cases added
    rw [firstIndices_succ_of_old before equal]
    exact sound

theorem foldlM_addEntry_sound {table filled : HashTable Nat} (count : Nat)
    (sound : Sound (nameHash names) (sameName names) table ∅)
    (added : (range count).foldlM (addEntryToHashTable names) table = some filled) :
    Sound (nameHash names) (sameName names) filled (firstIndices names count) := by
  induction count generalizing filled with
  | zero =>
    have empty : firstIndices names 0 = ∅ := Set.eq_empty_of_forall_notMem fun _ member =>
      Nat.not_lt_zero _ member.1
    cases added
    rwa [empty]
  | succ count ih =>
    rw [range_succ, foldlM_append] at added
    cases before : (range count).foldlM (addEntryToHashTable names) table with
    | none => simp [before] at added
    | some table' =>
      simp only [before, some_bind, foldlM_cons, foldlM_nil] at added
      cases last : addEntryToHashTable names table' count with
      | none => simp [last] at added
      | some next =>
        simp only [last, some_bind] at added
        cases added
        exact addEntryToHashTable_sound (ih before) last

theorem addEntriesToHashTable_sound {filled : HashTable Nat} (few : names.length < 2 ^ 16)
    (added : addEntriesToHashTable names = some filled) :
    Sound (nameHash names) (sameName names) filled (firstIndices names names.length) := by
  refine foldlM_addEntry_sound _ (mzHashTableCreate_sound ?_ ?_) added
  · exact Nat.succ_pos _
  · rw [mzHashSize]
    omega

end Names

/-! ## Finding an entry -/

theorem mzFindZipEntry_eq {archive : ZipArchive} (inside : NamesInside map archive.pEntries)
    (few : archive.pEntries.length < 2 ^ 16)
    (filled : addEntriesToHashTable (archive.pEntries.map (entryName map)) = some archive.pHash)
    (name : Bytes) :
    mzFindZipEntry map archive name = .ok (archive.pEntries.find? (named map name)) := by
  have sound := addEntriesToHashTable_sound (by rwa [length_map]) filled
  have nameAt : ∀ index, (archive.pEntries.map (entryName map))[index]? =
      archive.pEntries[index]?.map (entryName map) := fun index => getElem?_map
  have hashed : ∀ index ∈ firstIndices (archive.pEntries.map (entryName map))
      (archive.pEntries.map (entryName map)).length,
      ((archive.pEntries.map (entryName map))[index]? == some name) = true →
      nameHash (archive.pEntries.map (entryName map)) index = computeHash name := by
    intro index _ equal
    rw [nameHash, beq_iff_eq.mp equal]
    rfl
  rw [mzFindZipEntry, mapM_names inside, ok_then]
  rcases sound.lookup_key hashed 0 with ⟨index, member, fits, looked⟩ | ⟨absent, looked⟩
  · rw [looked]
    -- the index is the first at which the name stands
    obtain ⟨entry, here, equal⟩ := Option.map_eq_some_iff.mp ((nameAt index).symm.trans
      (beq_iff_eq.mp fits))
    have first : archive.pEntries.find? (named map name) = some entry := by
      obtain ⟨small, value⟩ := List.getElem?_eq_some_iff.mp here
      refine find?_eq_some_iff_getElem.mpr ⟨named_iff.mpr equal, index, small, value, ?_⟩
      intro earlier before
      have differ := member.2 earlier before
      rw [beq_iff_eq.mp fits, nameAt, getElem?_eq_getElem (before.trans small)] at differ
      rw [Bool.not_eq_true', ← Bool.not_eq_true, named_iff]
      exact fun same => differ (congrArg some same)
    rw [first]
    exact congrArg Except.ok here
  rw [looked]
  refine congrArg Except.ok (find?_eq_none.mpr fun entry member equal => ?_).symm
  obtain ⟨index, small, value⟩ := mem_iff_getElem.mp member
  have inRange : index < (archive.pEntries.map (entryName map)).length := by
    rwa [length_map]
  obtain ⟨first, stored, same, -⟩ := @exists_firstIndex
    (archive.pEntries.map (entryName map)) _ index inRange
  have here : (archive.pEntries.map (entryName map))[index]? = some name := by
    rw [nameAt, getElem?_eq_getElem small, value, Option.map_some, named_iff.mp equal]
  have fits := beq_iff_eq.mpr (same.trans here)
  rw [absent first stored] at fits
  cases fits

section Archive

variable {map : MemMapping} {record : Nat} {archive : ZipArchive}

theorem ReadFrom.directory (read : ReadFrom map record archive) : directory map =
      walkEntries map (numEntriesAt map record) (map.addr + cdOffsetAt map record) := by
  rw [Minzip.directory, read.last, Option.elim_some]

/-- The array is the central directory in another order. -/
theorem ReadFrom.perm (spare : map.length + 92 ≤ 2 ^ 32) (read : ReadFrom map record archive) :
    archive.pEntries.Perm (Minzip.directory map) := by
  have outcome := parseEntries_outcome spare (Table.empty map).inside (numEntriesAt map record)
    (map.addr + cdOffsetAt map record)
  rw [read.parsed] at outcome
  cases outcome with
  | done table tame accepted perm => rwa [append_nil, ← read.directory] at perm

/-- The array is the central directory in the order of its names, and the lookup of a name gives
the entry of its first record. -/
theorem mzFindZipEntry_first (map : MemMapping) (long : ENDHDR ≤ map.length)
    (spare : map.length + 92 ≤ 2 ^ 32) (archive : ZipArchive)
    (parsed : parseZipArchive map = .ok archive) :
    archive.pEntries.Perm (directory map) ∧ (archive.pEntries.Pairwise fun left right =>
        nameKey (entryName map left) ≤ nameKey (entryName map right)) ∧
      ∀ name : Bytes, mzFindZipEntry map archive name =
        .ok ((directory map).find? fun entry => entryName map entry == name) := by
  obtain ⟨record, read⟩ := parseZipArchive_readFrom long spare parsed
  have perm := read.perm spare
  refine ⟨perm, read.table.ascends, fun name => ?_⟩
  have few : archive.pEntries.length < 2 ^ 16 := by
    rw [perm.length_eq, read.directory, length_walkEntries]
    exact map.number_lt _ 2
  rw [mzFindZipEntry_eq read.table.inside few read.filled name, read.directory,
    parseEntries_find spare (Table.empty map) read.parsed name, nil_append]
  rfl

end Archive

/-- A central directory record of an empty entry with the given name. -/
def namedCentral (modTime : Nat) (name : Bytes) : Bytes :=
  Bytes.ofNatLE 4 CENSIG ++ replicate 8 0 ++ Bytes.ofNatLE 4 modTime ++
    replicate 12 0 ++ Bytes.ofNatLE 2 name.length ++ replicate 16 0 ++ name

/-- Records named `b`, `a` and twice `b` again. -/
def repeatedNames : MemMapping :=
  ⟨4096, sampleArchive 0 4 (namedCentral 1 [98] ++ namedCentral 2 [97] ++ namedCentral 3 [98] ++
    namedCentral 4 [98]), by decide +kernel⟩

theorem mzFindZipEntry_first_repeated : ∃ archive, parseZipArchive repeatedNames = .ok archive ∧
      archive.pEntries.map ZipEntry.modTime = [2, 1, 4, 3] ∧
      (mzFindZipEntry repeatedNames archive [98]).map (Option.map ZipEntry.modTime) = .ok (some 1) ∧
      mzFindZipEntry repeatedNames archive [99] = .ok none := by
  have table : (parseZipArchive repeatedNames).map
      (fun archive => archive.pEntries.map ZipEntry.modTime) = .ok [2, 1, 4, 3] := by
    decide +kernel
  cases parsed : parseZipArchive repeatedNames with
  | error stop =>
    rw [parsed] at table
    cases table
  | ok archive =>
    rw [parsed] at table
    obtain ⟨-, -, found⟩ := mzFindZipEntry_first repeatedNames (by decide +kernel)
      (by decide +kernel) archive parsed
    refine ⟨archive, rfl, Except.ok.inj table, ?_, ?_⟩
    · rw [found [98]]
      decide +kernel
    · rw [found [99]]
      decide +kernel

end PhilzTouch.Minzip
