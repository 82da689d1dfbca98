import PhilzTouch.Lib.Bytes

/-!
# The minzip hash table

A model of `minzip/Hash.c`: an open-addressing table that probes linearly, keeps
tombstones for removed items and doubles when it is more than five eighths full.
The stored items are an arbitrary type, since the C code stores `void*`.
-/

namespace PhilzTouch.Minzip

variable {α : Type}

/-- The `data` word of one table slot: `NULL`, `HASH_TOMBSTONE` or an item. -/
inductive SlotData (α : Type) where
  | null
  | tombstone
  | item (value : α)
  deriving DecidableEq, Repr

/-- One slot: the stored hash and the data word. -/
structure HashEntry (α : Type) where
  hashValue : Nat
  data : SlotData α
  deriving DecidableEq, Repr

/-- The table itself.  `tableSize` is the number of slots. -/
structure HashTable (α : Type) where
  pEntries : List (HashEntry α)
  numEntries : Nat
  numDeadEntries : Nat
  deriving DecidableEq, Repr

namespace HashTable

/-- Number of slots of a table. -/
def tableSize (table : HashTable α) : Nat := table.pEntries.length

end HashTable

/-- Capacity needed for `size` elements at the load factor 5/8. -/
def mzHashSize (size : Nat) : Nat := size * 8 / 5 + 1

/-- Round up to the next power of two, in 32-bit unsigned arithmetic. -/
def roundUpPower2 (val : BitVec 32) : BitVec 32 :=
  let val := val - 1
  let val := val ||| (val >>> 1)
  let val := val ||| (val >>> 2)
  let val := val ||| (val >>> 4)
  let val := val ||| (val >>> 8)
  let val := val ||| (val >>> 16)
  val + 1

/-- `size` empty slots, as `calloc` leaves them. -/
def emptySlots (α : Type) (size : Nat) : List (HashEntry α) :=
  List.replicate size ⟨0, .null⟩

/-- A fresh table for at least `initialSize` slots. -/
def mzHashTableCreate (α : Type) (initialSize : Nat) : HashTable α where
  pEntries := emptySlots α (roundUpPower2 (.ofNat 32 initialSize)).toNat
  numEntries := 0
  numDeadEntries := 0

/-- Where the probe loop of `mzHashTableLookup` ends: at a free slot or at a match. -/
def HashEntry.answers (itemHash : Nat) (same : α → Bool) (entry : HashEntry α) : Bool :=
  match entry.data with
  | .null => true
  | .tombstone => false
  | .item value => entry.hashValue = itemHash && same value

/-- Where the probe loop of `mzHashTableRemove` ends: at a free slot or at the item itself. -/
def HashEntry.holds [DecidableEq α] (item : α) (entry : HashEntry α) : Bool :=
  match entry.data with
  | .null => true
  | .tombstone => false
  | .item value => value = item

/-- The probe loop: the slot where it ends, `none` when a full table keeps it going round for
ever.  `fuel` counts the slots left to look at. -/
def probe (slots : List (HashEntry α)) (ends : HashEntry α → Bool) :
    (fuel index : Nat) → Option Nat
  | 0, _ => none
  | fuel + 1, index =>
    match slots[index]? with
    | none => none
    | some entry =>
      if ends entry then
        some index
      else if index + 1 = slots.length then
        -- a one-slot table leaves the loop one past its end
        if slots.length = 1 then some 1 else probe slots ends fuel 0
      else
        probe slots ends fuel (index + 1)

/-- The number of slots that hold a tombstone. -/
def countTombStones (slots : List (HashEntry α)) : Nat :=
  slots.countP fun entry =>
    match entry.data with
    | .tombstone => true
    | _ => false

/-- The slot that `resizeHash` moves one entry to: the first empty one. -/
def freeSlot (slots : List (HashEntry α)) : (fuel index : Nat) → Option Nat
  | 0, _ => none
  | fuel + 1, index =>
    match slots[index]? with
    | none => none
    | some entry =>
      match entry.data with
      | .null => some index
      | _ => freeSlot slots fuel ((index + 1) &&& (slots.length - 1))

/-- Reinsert one old slot into the new storage; tombstones are dropped. -/
def moveEntry (slots : List (HashEntry α)) (entry : HashEntry α) :
    Option (List (HashEntry α)) :=
  match entry.data with
  | .item _ =>
    (freeSlot slots slots.length (entry.hashValue &&& (slots.length - 1))).map
      fun index => slots.set index entry
  | _ => some slots

/-- Rebuild the table with `newSize` slots. -/
def resizeHash (table : HashTable α) (newSize : Nat) : Option (HashTable α) := do
  -- assert(countTombStones(pHashTable) == pHashTable->numDeadEntries)
  if countTombStones table.pEntries ≠ table.numDeadEntries then none
  else
    let slots ← table.pEntries.foldlM moveEntry (emptySlots α newSize)
    -- assert(countTombStones(pHashTable) == 0)
    if countTombStones slots ≠ 0 then none
    else some { table with pEntries := slots, numDeadEntries := 0 }

/-- Add an item at a free slot, and resize the table if this brings it too close to full;
`none` when an `int` overflows or an assertion fails. -/
def addAt (table : HashTable α) (index itemHash : Nat) (item : α) : Option (HashTable α) := do
  let added : HashTable α :=
    { table with
      pEntries := table.pEntries.set index ⟨itemHash, .item item⟩
      numEntries := table.numEntries + 1 }
  if 2 ^ 31 ≤ (added.numEntries + added.numDeadEntries) * 8 ∨ 2 ^ 31 ≤ added.tableSize * 5 then none
  else
    let grown ←
      if added.tableSize * 5 < (added.numEntries + added.numDeadEntries) * 8 then
        resizeHash added (added.tableSize * 2)
      else
        some added
    -- assert(numEntries < tableSize): a full table would never halt a search
    if grown.numEntries < grown.tableSize then some grown else none

/-- `mzHashTableLookup`: the table afterwards and the item found or added; `none` also when the
code would loop for ever. -/
def mzHashTableLookup (table : HashTable α) (itemHash : Nat) (item : α) (same : α → Bool)
    (doAdd : Bool) : Option (HashTable α × Option α) := do
  let size := table.tableSize
  let index ← probe table.pEntries (HashEntry.answers itemHash same) size (itemHash &&& (size - 1))
  let entry ← table.pEntries[index]?
  match entry.data with
  | .item found => some (table, some found)
  | .tombstone => none
  | .null =>
    if doAdd = false then some (table, none)
    else do
      let grown ← addAt table index itemHash item
      some (grown, some item)

/-- `mzHashTableRemove`: whether the item was in the table. -/
def mzHashTableRemove [DecidableEq α] (table : HashTable α) (itemHash : Nat) (item : α) :
    Option (HashTable α × Bool) := do
  let size := table.tableSize
  let index ← probe table.pEntries (HashEntry.holds item) size (itemHash &&& (size - 1))
  match table.pEntries[index]? with
  -- the edge case of a single-entry table
  | none => some (table, false)
  | some entry =>
    match entry.data with
    | .item _ =>
      some
        ({ pEntries := table.pEntries.set index { entry with data := .tombstone }
           numEntries := table.numEntries - 1
           numDeadEntries := table.numDeadEntries + 1 }, true)
    | _ => some (table, false)

/-- `mzHashTableClear`: the empty table, and the items that the free function is called for. -/
def mzHashTableClear (table : HashTable α) : HashTable α × List α :=
  ({ pEntries := table.pEntries.map fun entry => { entry with data := .null }
     numEntries := 0
     numDeadEntries := 0 },
    table.pEntries.filterMap fun entry =>
      match entry.data with
      | .item value => some value
      | _ => none)

/-- The loop of `mzHashForeach`.  The state is whatever `func` works on. -/
def foreachLoop {σ : Type} (func : α → σ → Int × σ) : List (HashEntry α) → σ → Int × σ
  | [], state => (0, state)
  | entry :: slots, state =>
    match entry.data with
    | .item value =>
      let (val, state) := func value state
      if val ≠ 0 then (val, state) else foreachLoop func slots state
    | _ => foreachLoop func slots state

/-- `mzHashForeach`: its result, and the state that the calls of `func` leave. -/
def mzHashForeach {σ : Type} (table : HashTable α) (func : α → σ → Int × σ) (state : σ) : Int × σ :=
  foreachLoop func table.pEntries state

end PhilzTouch.Minzip
