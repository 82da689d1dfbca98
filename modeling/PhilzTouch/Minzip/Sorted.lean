import PhilzTouch.Lib.SuffixRank
import PhilzTouch.Minzip.ParseSafe

/-!
# The entry table is sorted

`parseZipArchive` puts each entry at the place that a binary search finds for its name.  The
names of the finished table ascend in the lexicographic order of their characters, so the
entries that begin with a given text stand together.
-/

namespace PhilzTouch.Minzip

open List

/-! ## The order of names -/

/-- A name as a list of numbers, which are compared lexicographically. -/
def nameKey (name : Bytes) : List Nat := name.map UInt8.toNat

theorem shorter_cons (char other : UInt8) (left right : Bytes) :
    (if (char :: left).length < (other :: right).length then (char :: left).length
      else (other :: right).length) =
      (if left.length < right.length then left.length else right.length) + 1 := by
  simp only [length_cons, Nat.add_lt_add_iff_right]
  split <;> rfl

theorem nameDiff_cons {char : UInt8} (printed : char ≠ 0) (left right : Bytes) :
    nameDiff (char :: left) (char :: right) = nameDiff left right := by
  rw [nameDiff, nameDiff, shorter_cons]
  have lengths : ((char :: left).length : Int) - (char :: right).length =
      (left.length : Int) - right.length := by
    simp only [length_cons]
    omega
  rw [lengths]
  simp only [take_succ_cons, strncmp, printed, ne_eq, not_true, if_false]

theorem nameDiff_cons_ne {char other : UInt8} (different : char ≠ other) (left right : Bytes) :
    nameDiff (char :: left) (other :: right) = (char.toNat : Int) - other.toNat := by
  have apart : char.toNat ≠ other.toNat := fun same => different (UInt8.toNat_inj.mp same)
  rw [nameDiff, shorter_cons]
  simp only [take_succ_cons, strncmp, different, ne_eq, not_false_iff, if_true]
  rw [if_neg (by omega)]

/-- The comparison decides the lexicographic order. -/
theorem nameDiff_spec {left right : Bytes} (printed : ∀ char ∈ left, char ≠ 0) :
    (nameDiff left right < 0 ↔ nameKey left < nameKey right) ∧
      (0 < nameDiff left right ↔ nameKey right < nameKey left) := by
  induction left generalizing right with
  | nil =>
    cases right with
    | nil => simp [nameDiff, strncmp, nameKey]
    | cons other right => simp [nameDiff, strncmp, nameKey]; omega
  | cons char left ih =>
    cases right with
    | nil => simp [nameDiff, strncmp, nameKey]; omega
    | cons other right =>
      by_cases same : char = other
      · subst same
        rw [nameDiff_cons (printed char mem_cons_self)]
        have inner := @ih right (forall_mem_cons.mp printed).2
        simpa [nameKey, cons_lt_cons_iff] using inner
      · have apart : char.toNat ≠ other.toNat := fun equal => same (UInt8.toNat_inj.mp equal)
        rw [nameDiff_cons_ne same]
        simp only [nameKey, map_cons, cons_lt_cons_iff]
        omega

/-! ## The table -/

/-- A table whose names lie inside the mapping, are printable and ascend.  The data of its
entries lies inside the mapping unless a `long` is negative. -/
structure Table (map : MemMapping) (entries : List ZipEntry) : Prop where
  inside : NamesInside map entries
  data : ∀ entry ∈ entries, 0 ≤ entry.offset ∧ 0 ≤ entry.compLen →
    entry.offset + entry.compLen ≤ (map.length : Int)
  printed : ∀ entry ∈ entries, (entryName map entry).all printable = true
  ascends : entries.Pairwise fun left right =>
    nameKey (entryName map left) ≤ nameKey (entryName map right)

theorem Table.empty (map : MemMapping) : Table map [] :=
  ⟨fun _ member => (nomatch member), fun _ member => (nomatch member),
    fun _ member => (nomatch member), .nil⟩

variable {map : MemMapping} {entry : ZipEntry}

theorem Table.tail {entries : List ZipEntry} (table : Table map (entry :: entries)) :
    Table map entries :=
  ⟨(forall_mem_cons.mp table.inside).2, (forall_mem_cons.mp table.data).2,
    (forall_mem_cons.mp table.printed).2, (pairwise_cons.mp table.ascends).2⟩

theorem printable_ne_zero {name : Bytes} (printed : name.all printable = true) :
    ∀ char ∈ name, char ≠ 0 := by
  intro char member null
  have := all_eq_true.mp printed char member
  rw [null] at this
  exact absurd this (by decide)

section Search

variable {map : MemMapping} {entries : List ZipEntry} {fileName fileNameLen : Nat}

/-- The place that the search finds separates the smaller names from the larger ones, and
stands behind an entry of the same name if there is one. -/
theorem searchSlot_separates (table : Table map entries) (name : map.Inside fileName fileNameLen)
    (fuel : Nat) (low high : Int) (bottom : 0 ≤ low) (top : high < entries.length)
    (meet : low ≤ high + 1) (enough : high + 1 - low < fuel)
    (below : ∀ index (inside : index < entries.length), (index : Int) < low →
      nameKey (entryName map entries[index]) < nameKey (map.bytes fileName fileNameLen))
    (above : ∀ index (inside : index < entries.length), high < (index : Int) →
      nameKey (map.bytes fileName fileNameLen) < nameKey (entryName map entries[index])) :
    ∃ slot, searchSlot map entries fileName fileNameLen fuel low high = .ok slot ∧ -1 ≤ slot ∧
      (∀ index (inside : index < entries.length), (index : Int) ≤ slot →
        nameKey (entryName map entries[index]) ≤ nameKey (map.bytes fileName fileNameLen)) ∧
      (∀ index (inside : index < entries.length), slot < (index : Int) →
        nameKey (map.bytes fileName fileNameLen) ≤ nameKey (entryName map entries[index])) ∧
      ∀ index (inside : index < entries.length),
        nameKey (entryName map entries[index]) = nameKey (map.bytes fileName fileNameLen) →
        ∃ earlier, ∃ inside : earlier < entries.length, (earlier : Int) ≤ slot ∧
          nameKey (entryName map entries[earlier]) = nameKey (map.bytes fileName fileNameLen) := by
  induction fuel generalizing low high with
  | zero => omega
  | succ fuel ih =>
    by_cases crossed : high < low
    · refine ⟨high, by rw [searchSlot, if_pos crossed]; rfl, by omega,
        fun index inside small => le_of_lt (below index inside (by omega)),
        fun index inside large => le_of_lt (above index inside large), ?_⟩
      intro index inside same
      rcases Int.lt_or_le high index with large | small
      · exact absurd same (above index inside large).ne'
      · exact absurd same (below index inside (by omega)).ne
    have wide := not_lt.mp crossed
    have index : (low + (high - low) / 2).toNat < entries.length := by omega
    rw [searchSlot_succ table.inside name fuel wide index]
    -- the names before the middle are at most its name, those behind it at least
    have ordered := pairwise_iff_getElem.mp table.ascends
    have order := @nameDiff_spec (entryName map entries[(low + (high - low) / 2).toNat])
      (map.bytes fileName fileNameLen) (printable_ne_zero (table.printed _ (getElem_mem index)))
    have lower : ∀ position (inside : position < entries.length),
        (position : Int) ≤ low + (high - low) / 2 →
        nameKey (entryName map entries[position]) ≤
          nameKey (entryName map entries[(low + (high - low) / 2).toNat]) := by
      intro position inside small
      rcases lt_or_eq_of_le (show position ≤ (low + (high - low) / 2).toNat by omega) with
        before | rfl
      · exact ordered position _ inside index before
      · exact le_rfl
    have upper : ∀ position (inside : position < entries.length),
        low + (high - low) / 2 ≤ (position : Int) →
        nameKey (entryName map entries[(low + (high - low) / 2).toNat]) ≤
          nameKey (entryName map entries[position]) := by
      intro position inside large
      rcases lt_or_eq_of_le (show (low + (high - low) / 2).toNat ≤ position by omega) with
        behind | same
      · exact ordered _ position index inside behind
      · subst same
        exact le_rfl
    split
    next smaller =>
      have less := order.1.mp smaller
      exact ih _ _ (by omega) top (by omega) (by omega)
        (fun position inside small =>
          lt_of_le_of_lt (lower position inside (by omega)) less) above
    next notSmaller =>
    split
    next larger =>
      have more := order.2.mp larger
      exact ih _ _ bottom (by omega) (by omega) (by omega) below
        (fun position inside large =>
          lt_of_lt_of_le more (upper position inside (by omega)))
    next notLarger =>
    have most := not_lt.mp (mt order.1.mpr notSmaller)
    have least := not_lt.mp (mt order.2.mpr notLarger)
    exact ⟨_, rfl, by omega,
      fun position inside small => (lower position inside small).trans least,
      fun position inside large => most.trans (upper position inside (by omega)),
      fun _ _ _ => ⟨_, index, by omega, le_antisymm least most⟩⟩

/-- What the place for a new name says about the entries before and behind it. -/
structure Separates (map : MemMapping) (entries : List ZipEntry) (name : Bytes) (target : Nat) :
    Prop where
  early : ∀ other ∈ entries.take target, nameKey (entryName map other) ≤ nameKey name
  late : ∀ other ∈ entries.drop target, nameKey name ≤ nameKey (entryName map other)
  behind : ∀ other ∈ entries, nameKey (entryName map other) = nameKey name →
    ∃ earlier ∈ entries.take target, nameKey (entryName map earlier) = nameKey name

theorem findTarget_separates (table : Table map entries) {target : Nat}
    (name : map.Inside fileName fileNameLen)
    (found : findTarget map entries fileName fileNameLen = .ok target) :
    Separates map entries (map.bytes fileName fileNameLen) target := by
  obtain ⟨slot, searched, low, below, above, behind⟩ := searchSlot_separates table name
    (entries.length + 1) 0 ((entries.length : Int) - 1) le_rfl (by omega) (by omega)
    (by omega) (fun index _ negative => by omega) (fun index inside large => by omega)
  rw [findTarget, searched, ok_then] at found
  have target_eq : (slot + 1).toNat = target := Except.ok.inj found
  refine ⟨?_, ?_, ?_⟩
  · intro other member
    obtain ⟨index, inside, rfl⟩ := mem_take_iff_getElem.mp member
    exact below index (by omega) (by omega)
  · intro other member
    obtain ⟨index, inside, rfl⟩ := mem_drop_iff_getElem.mp member
    exact above (target + index) (by omega) (by omega)
  · intro other member same
    obtain ⟨index, inside, rfl⟩ := mem_iff_getElem.mp member
    obtain ⟨earlier, there, before, equal⟩ := behind index inside same
    exact ⟨_, mem_take_iff_getElem.mpr ⟨earlier, by omega, rfl⟩, equal⟩

theorem Table.insert (table : Table map entries) {target : Nat}
    (name : map.Inside entry.fileName entry.fileNameLen)
    (data : 0 ≤ entry.offset ∧ 0 ≤ entry.compLen →
      entry.offset + entry.compLen ≤ (map.length : Int))
    (printed : (entryName map entry).all printable = true)
    (found : findTarget map entries entry.fileName entry.fileNameLen = .ok target) :
    Table map (entries.take target ++ entry :: entries.drop target) := by
  obtain ⟨early, late, -⟩ := findTarget_separates table name found
  have members : ∀ other ∈ entries.take target ++ entry :: entries.drop target,
      other = entry ∨ other ∈ entries := by
    intro other member
    rcases mem_append.mp member with early | late
    · exact .inr (mem_of_mem_take early)
    · rcases mem_cons.mp late with rfl | late
      · exact .inl rfl
      · exact .inr (mem_of_mem_drop late)
  refine ⟨?_, ?_, ?_, ?_⟩
  · intro other member
    rcases members other member with rfl | old
    · exact name
    · exact table.inside other old
  · intro other member
    rcases members other member with rfl | old
    · exact data
    · exact table.data other old
  · intro other member
    rcases members other member with rfl | old
    · exact printed
    · exact table.printed other old
  refine pairwise_append.mpr ⟨table.ascends.sublist (take_sublist _ _),
    pairwise_cons.mpr ⟨late, table.ascends.sublist (drop_sublist _ _)⟩, ?_⟩
  intro left before right behind
  rcases mem_cons.mp behind with rfl | behind
  · exact early left before
  · exact (early left before).trans (late right behind)

end Search

theorem parseEntries_table (spare : map.length + 92 ≤ 2 ^ 32) {entries result : List ZipEntry}
    {count ptr : Nat} (table : Table map entries)
    (parsed : parseEntries map count entries ptr = .ok result) : Table map result := by
  induction count generalizing entries ptr with
  | zero => exact Except.ok.inj parsed ▸ table
  | succ count ih =>
    have round := @parseEntry_outcome map ptr spare entries table.inside
    rw [parseEntries] at parsed
    generalize parseEntry map entries ptr = outcome at round parsed
    cases round with
    | fault => cases parsed
    | bail => cases parsed
    | next target tame accepted found =>
      rw [ok_then] at parsed
      exact ih (table.insert (entryAt_name tame accepted) (entryAt_data accepted)
        accepted.name.2.2 found) parsed

/-- How an archive that is accepted was read: the loop over the records that its end record
announces made the table, and the hash table was filled from it. -/
structure ReadFrom (map : MemMapping) (record : Nat) (archive : ZipArchive) : Prop where
  last : lastRecord map.data (map.length - ENDHDR) = some record
  parsed : parseEntries map (numEntriesAt map record) [] (map.addr + cdOffsetAt map record) =
    .ok archive.pEntries
  table : Table map archive.pEntries
  filled : addEntriesToHashTable (archive.pEntries.map (entryName map)) = some archive.pHash

variable {archive : ZipArchive}

section

variable (long : ENDHDR ≤ map.length) (spare : map.length + 92 ≤ 2 ^ 32)
  (parsed : parseZipArchive map = .ok archive)

include long spare parsed

theorem parseZipArchive_readFrom : ∃ record, ReadFrom map record archive := by
  rw [parseZipArchive_eq map long] at parsed
  split at parsed
  · split at parsed
    · split at parsed <;> cases parsed
    next record last =>
    split at parsed
    · cases parsed
    rw [readDirectory] at parsed
    cases loop : parseEntries map (numEntriesAt map record) [] (map.addr + cdOffsetAt map record) with
    | error stop => rw [loop] at parsed; cases parsed
    | ok entries =>
      have table := parseEntries_table spare (.empty map) loop
      rw [loop, ok_then, mapM_names table.inside, ok_then] at parsed
      split at parsed
      · cases parsed
      next filled =>
        cases parsed
        exact ⟨record, last, loop, table, filled⟩
  · cases parsed

theorem parseZipArchive_table : Table map archive.pEntries :=
  have ⟨_, read⟩ := parseZipArchive_readFrom long spare parsed
  read.table

end

end PhilzTouch.Minzip
