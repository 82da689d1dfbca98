import PhilzTouch.Minzip.HashTable
import PhilzTouch.Minzip.Zip

/-!
# The hash table never fills up

`parseZipArchive` creates the table with `mzHashSize` slots for its entries.  At that size
the load factor is not passed, so the table never grows, every probe ends at a free slot or
at an entry of the same name, and every entry can be added.
-/

namespace PhilzTouch.Minzip

open List

variable {α : Type}

/-- A table of `size` slots with at most `count` of them in use and none dead. -/
structure Filled (table : HashTable α) (size count : Nat) : Prop where
  size : table.pEntries.length = size
  dead : table.numDeadEntries = 0
  used : table.pEntries.countP HashEntry.used = table.numEntries
  few : table.numEntries ≤ count

theorem mzHashTableLookup_filled {table : HashTable α} {size count : Nat}
    (filled : Filled table size count) (two : 2 ≤ size) (room : (count + 1) * 8 ≤ size * 5)
    (small : size * 5 < 2 ^ 31) (itemHash : Nat) (item : α) (same : α → Bool) :
    ∃ result, mzHashTableLookup table itemHash item same true = some result ∧
      Filled result.1 size (count + 1) := by
  have few := filled.few
  have length := filled.size
  obtain ⟨hole, free, holeFree, unused⟩ := exists_free (show
    table.pEntries.countP HashEntry.used < table.pEntries.length by rw [filled.used]; omega)
  have start : itemHash &&& (table.pEntries.length - 1) < table.pEntries.length := by
    have := @Nat.and_le_right itemHash (table.pEntries.length - 1)
    omega
  obtain ⟨found, entry, probed, slot, ends, -⟩ :=
    probe_first holeFree (show free.answers itemHash same = true by
      rw [HashEntry.answers, HashEntry.live_null unused]) start
  obtain ⟨foundInside, slotEq⟩ := List.getElem?_eq_some_iff.mp slot
  rw [mzHashTableLookup]
  simp only [HashTable.tableSize, probed, slot, some_bind]
  cases data : entry.data with
  | tombstone =>
    rw [HashEntry.answers, data] at ends
    cases ends
  | item value =>
    exact ⟨_, rfl, ⟨filled.size, filled.dead, filled.used, Nat.le_succ_of_le few⟩⟩
  | null =>
    have added : addAt table found itemHash item = some { table with
        pEntries := table.pEntries.set found ⟨itemHash, .item item⟩
        numEntries := table.numEntries + 1 } := by
      unfold addAt HashTable.tableSize
      dsimp only
      rw [length_set, filled.dead, length, if_neg (by omega), if_neg (by omega)]
      simp only [some_bind, length_set, length]
      exact if_pos (by omega)
    rw [added]
    refine ⟨_, rfl, ⟨by rw [length_set, length], filled.dead, ?_, by dsimp only; omega⟩⟩
    rw [countP_set foundInside, slotEq]
    simp [HashEntry.used, data, filled.used]

variable {names : List Bytes} {table : HashTable Nat}

theorem addEntryToHashTable_filled
    {index size count : Nat} (inside : index < names.length) (filled : Filled table size count)
    (two : 2 ≤ size) (room : (count + 1) * 8 ≤ size * 5) (small : size * 5 < 2 ^ 31) :
    ∃ next, addEntryToHashTable names table index = some next ∧ Filled next size (count + 1) := by
  obtain ⟨result, added, next⟩ := mzHashTableLookup_filled filled two room small
    (computeHash names[index]) index fun other => names[other]? == some names[index]
  refine ⟨result.1, ?_, next⟩
  rw [addEntryToHashTable, getElem?_eq_getElem inside]
  simp only [some_bind, added]
  rfl

theorem foldlM_addEntry_isSome {indices : List Nat} {size count : Nat}
    (inside : ∀ index ∈ indices, index < names.length) (filled : Filled table size count)
    (two : 2 ≤ size) (room : (count + indices.length) * 8 ≤ size * 5) (small : size * 5 < 2 ^ 31) :
    (indices.foldlM (addEntryToHashTable names) table).isSome = true := by
  induction indices generalizing table count with
  | nil => rfl
  | cons index indices ih =>
    rw [length_cons] at room
    obtain ⟨next, added, nextFilled⟩ :=
      addEntryToHashTable_filled (inside index mem_cons_self) filled two (by omega) small
    rw [foldlM_cons, added, some_bind]
    exact ih (forall_mem_cons.mp inside).2 nextFilled (by omega)

theorem addEntriesToHashTable_isSome (names : List Bytes) (nonempty : names ≠ [])
    (few : names.length < 2 ^ 16) : (addEntriesToHashTable names).isSome = true := by
  have positive := length_pos_iff.mpr nonempty
  have size : mzHashSize names.length = names.length * 8 / 5 + 1 := rfl
  obtain ⟨exponent, rounded, large, limit⟩ :=
    @roundUpPower2_spec (mzHashSize names.length) (by omega) (by omega)
  rw [← rounded] at large limit
  have created : Filled (mzHashTableCreate Nat (mzHashSize names.length))
      (roundUpPower2 (.ofNat 32 (mzHashSize names.length))).toNat 0 :=
    ⟨by simp [mzHashTableCreate, emptySlots], rfl, by
      simp [mzHashTableCreate, emptySlots, countP_replicate, HashEntry.used], le_rfl⟩
  refine foldlM_addEntry_isSome ?_ created (by omega) (by rw [length_range]; omega) (by omega)
  exact fun index member => mem_range.mp member

end PhilzTouch.Minzip
