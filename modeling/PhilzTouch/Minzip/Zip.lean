import PhilzTouch.Minzip.Hash
import PhilzTouch.Minzip.Mapping

/-!
# Parsing a Zip archive

A model of `parseZipArchive` of `minzip/Zip.c` on a 32-bit machine.
-/

namespace PhilzTouch.Minzip

/-! ## Constants of the format -/

def CENSIG : Nat := 0x02014b50
def CENHDR : Nat := 46
def CENVEM : Nat := 4
def CENHOW : Nat := 10
def CENTIM : Nat := 12
def CENCRC : Nat := 16
def CENSIZ : Nat := 20
def CENLEN : Nat := 24
def CENNAM : Nat := 28
def CENEXT : Nat := 30
def CENCOM : Nat := 32
def CENATX : Nat := 38
def CENOFF : Nat := 42

def ENDSIG : Nat := 0x06054b50
def ENDHDR : Nat := 22
def ENDSUB : Nat := 8
def ENDOFF : Nat := 16

def LOCSIG : Nat := 0x04034b50
def LOCHDR : Nat := 30
def LOCNAM : Nat := 26
def LOCEXT : Nat := 28

/-- The high byte of `CENVEM` for archives made on Unix. -/
def CENVEM_UNIX : Nat := 3 * 256

def PATH_MAX : Nat := 4096

/-! ## Entries -/

/-- One entry of the archive.  `fileName` points into the mapping. -/
structure ZipEntry where
  fileNameLen : Nat
  fileName : Nat
  offset : Int
  compLen : Int
  uncompLen : Int
  compression : Nat
  modTime : Int
  crc32 : Int
  versionMadeBy : Nat
  externalFileAttributes : Int
  deriving DecidableEq, Repr

/-- A parsed archive.  The items of `pHash` are indices into `pEntries`, as the
pointers of the C table are. -/
structure ZipArchive where
  numEntries : Nat
  pEntries : List ZipEntry
  pHash : HashTable Nat
  deriving DecidableEq, Repr

def printable (byte : UInt8) : Bool := decide (32 ≤ byte.toNat) && decide (byte.toNat < 127)

/-- Entry names must be short and printable ASCII. -/
def validFilename (name : Bytes) : Bool :=
  decide (name.length < PATH_MAX) && name.all printable

/-- The loop over the characters of a name, up to the first that is not printable. -/
def allPrintable (map : MemMapping) : (count ptr : Nat) → Parse Bool
  | 0, _ => .ok true
  | count + 1, ptr => do
    let byte ← get1 map ptr
    if printable byte then allPrintable map count (padd ptr 1) else return false

/-- `validFilename` on the name in memory; a name that is too long is not read. -/
def validFilenameAt (map : MemMapping) (fileName fileNameLen : Nat) : Parse Bool :=
  if PATH_MAX ≤ fileNameLen then .ok false else allPrintable map fileNameLen fileName

/-- `strncmp` on two byte strings of the compared length. -/
def strncmp : Bytes → Bytes → Int
  | left :: lefts, right :: rights =>
    if left ≠ right then (left.toNat : Int) - right.toNat
    else if left = 0 then 0
    else strncmp lefts rights
  | _, _ => 0

/-- The binary search for the place of a new entry: the final value of `high`.
Each round shrinks the interval, so `fuel` is never used up. -/
def searchSlot (map : MemMapping) (entries : List ZipEntry) (fileName fileNameLen : Nat) :
    (fuel : Nat) → (low high : Int) → Parse Int
  | 0, _, high => .ok high
  | fuel + 1, low, high => do
    if high < low then
      return high
    let mid := low + (high - low) / 2
    match entries[mid.toNat]? with
    | none => .error .fault
    | some entry => do
      let diffLen := if entry.fileNameLen < fileNameLen then entry.fileNameLen else fileNameLen
      let left ← getBytes map diffLen entry.fileName
      let right ← getBytes map diffLen fileName
      let diff := strncmp left right
      let diff := if diff = 0 then (entry.fileNameLen : Int) - fileNameLen else diff
      if diff < 0 then
        searchSlot map entries fileName fileNameLen fuel (mid + 1) high
      else if 0 < diff then
        searchSlot map entries fileName fileNameLen fuel low (mid - 1)
      else
        return mid

/-- The index `target` at which the new entry goes. -/
def findTarget (map : MemMapping) (entries : List ZipEntry)
    (fileName fileNameLen : Nat) : Parse Nat := do
  let high ← searchSlot map entries fileName fileNameLen (entries.length + 1) 0
    ((entries.length : Int) - 1)
  return (high + 1).toNat

/-- One round of the loop over the central directory: the entries with the new
one in place, and the pointer to the next record. -/
def parseEntry (map : MemMapping) (entries : List ZipEntry) (ptr : Nat) :
    Parse (List ZipEntry × Nat) := do
  bailIf (map.stop < padd ptr CENHDR)
  bailIf ((← get4LE map ptr) ≠ CENSIG)
  let localHdrOffset ← get4LE map (padd ptr CENOFF)
  let fileNameLen ← get2LE map (padd ptr CENNAM)
  let extraLen ← get2LE map (padd ptr CENEXT)
  let commentLen ← get2LE map (padd ptr CENCOM)
  let fileName := padd ptr CENHDR
  bailIf (map.stop < padd fileName fileNameLen)
  bailIf ((← validFilenameAt map fileName fileNameLen) = false)
  let target ← findTarget map entries fileName fileNameLen
  let compLen ← get4LE map (padd ptr CENSIZ)
  let uncompLen ← get4LE map (padd ptr CENLEN)
  let compression ← get2LE map (padd ptr CENHOW)
  let modTime ← get4LE map (padd ptr CENTIM)
  let crc32 ← get4LE map (padd ptr CENCRC)
  let versionMadeBy ← get2LE map (padd ptr CENVEM)
  bailIf (versionMadeBy / 256 * 256 ≠ 0 ∧ versionMadeBy / 256 * 256 ≠ CENVEM_UNIX)
  let externalFileAttributes ← get4LE map (padd ptr CENATX)
  -- safe_add(&localHdr, pMap->addr, localHdrOffset)
  bailIf (2 ^ 32 ≤ map.addr + localHdrOffset)
  let localHdr := map.addr + localHdrOffset
  bailIf (map.stop < padd localHdr LOCHDR)
  bailIf ((← get4LE map localHdr) ≠ LOCSIG)
  let nameLen ← get2LE map (padd localHdr LOCNAM)
  let extLen ← get2LE map (padd localHdr LOCEXT)
  let offset := toLong (localHdrOffset + LOCHDR + nameLen + extLen)
  -- safe_add(NULL, pEntry->offset, pEntry->compLen)
  bailIf (offset + toLong compLen < -2 ^ 31 ∨ 2 ^ 31 ≤ offset + toLong compLen)
  bailIf (map.length < padd (toSize offset) (toSize (toLong compLen)))
  let entry : ZipEntry :=
    { fileNameLen, fileName, offset, compression, versionMadeBy
      compLen := toLong compLen
      uncompLen := toLong uncompLen
      modTime := toLong modTime
      crc32 := toLong crc32
      externalFileAttributes := toLong externalFileAttributes }
  return (entries.take target ++ entry :: entries.drop target,
    padd ptr (CENHDR + fileNameLen + extraLen + commentLen))

/-- The loop over the central directory, `count` records from `ptr` on. -/
def parseEntries (map : MemMapping) :
    (count : Nat) → List ZipEntry → Nat → Parse (List ZipEntry)
  | 0, entries, _ => .ok entries
  | count + 1, entries, ptr => do
    let next ← parseEntry map entries ptr
    parseEntries map count next.1 next.2

/-- Hash of an entry name; only equality of hashes matters, so the byte is read
as the unsigned `char` of the target. -/
def computeHash (name : Bytes) : Nat :=
  name.foldl (fun hash byte => (hash * 31 + byte.toNat) % 2 ^ 32) 2

/-- Add one entry to the hash table.  A name that is already there is only reported. -/
def addEntryToHashTable (names : List Bytes) (table : HashTable Nat) (index : Nat) :
    Option (HashTable Nat) := do
  let name ← names[index]?
  let added ← mzHashTableLookup table (computeHash name) index
    (fun other => names[other]? == some name) true
  return added.1

/-- Add the entries to the hash table, in the order of the sorted array. -/
def addEntriesToHashTable (names : List Bytes) : Option (HashTable Nat) :=
  (List.range names.length).foldlM (addEntryToHashTable names)
    (mzHashTableCreate Nat (mzHashSize names.length))

/-- The backward scan for the end-of-central-directory record.  `index` is the
distance of `ptr` from the start of the block.  Below a block at address 0 the pointer
wraps and the scan goes on outside. -/
def findEOCD (map : MemMapping) : (index : Nat) → Parse Nat
  | 0 => do
    if (← get4LE map map.addr) = ENDSIG then return map.addr
    else if map.addr = 0 then .error .fault
    else .error .bail
  | index + 1 => do
    if (← get4LE map (map.addr + (index + 1))) = ENDSIG then
      return map.addr + (index + 1)
    else
      findEOCD map index

/-- Parse the archive: find the end-of-central-directory record, read the
central directory into the sorted entry array and build the hash table. -/
def parseZipArchive (map : MemMapping) : Parse ZipArchive := do
  let val ← get4LE map map.addr
  bailIf (val = ENDSIG)
  bailIf (val ≠ LOCSIG)
  -- mzOpenZipArchive has checked that the file holds an ENDHDR
  let ptr ← findEOCD map (map.length - ENDHDR)
  let numEntries ← get2LE map (padd ptr ENDSUB)
  let cdOffset ← get4LE map (padd ptr ENDOFF)
  bailIf (numEntries = 0 ∨ map.length ≤ cdOffset)
  let entries ← parseEntries map numEntries [] (map.addr + cdOffset)
  let names ← entries.mapM fun entry => getBytes map entry.fileNameLen entry.fileName
  match addEntriesToHashTable names with
  | none => .error .fault
  | some pHash => return { numEntries, pEntries := entries, pHash }

section

variable (map : MemMapping) (count start : Nat) (inside : start + count ≤ map.data.length)

include inside

theorem allPrintable_addr :
    allPrintable map count (map.addr + start) = .ok ((map.data.slice start count).all printable) := by
  induction count generalizing start with
  | zero => simp [allPrintable, Bytes.slice]
  | succ count ih =>
    have head : start < map.data.length := by omega
    simp only [allPrintable, map.get1_addr head, map.padd_one head, ih (start + 1) (by omega),
      Bytes.slice_succ head, List.all_cons]
    change (if printable map.data[start] = true then _ else _) = _
    cases printable map.data[start] <;> rfl

theorem validFilenameAt_addr : validFilenameAt map (map.addr + start) count =
      .ok (validFilename (map.data.slice start count)) := by
  have length : (map.data.slice start count).length = count := by
    rw [Bytes.length_slice]
    omega
  rw [validFilenameAt, validFilename, length]
  split
  next long => simp [Nat.not_lt.mpr long]
  next short => simp [allPrintable_addr map count start inside, Nat.lt_of_not_le short]

end

end PhilzTouch.Minzip
