import PhilzTouch.Minzip.HashSpec

/-!
# Memory safety of the archive parser

The guards of `parseZipArchive` compare wrapped sums of attacker-chosen numbers with the end
of the mapping.  Each guard is a predicate here, and a record is tame when the sums that its guards
let through do not wrap.  The parser stays inside, and its table is sound, exactly when the records
its loop reaches are tame.
-/

namespace PhilzTouch.Minzip

open List MemMapping Bytes

variable {width count : Nat}

namespace MemMapping

/-- The `size` bytes at `ptr` belong to the block. -/
def Inside (map : MemMapping) (ptr size : Nat) : Prop :=
  map.addr ≤ ptr ∧ ptr + size ≤ map.stop

instance (map : MemMapping) (ptr size : Nat) : Decidable (map.Inside ptr size) :=
  inferInstanceAs (Decidable (_ ∧ _))

/-- The bytes of the block from `ptr` on, cut short at its end. -/
def bytes (map : MemMapping) (ptr count : Nat) : Bytes :=
  map.data.slice (ptr - map.addr) count

def number (map : MemMapping) (ptr width : Nat) : Nat := (map.bytes ptr width).toNatLE

variable {map : MemMapping} {ptr : Nat}

theorem stop_eq (map : MemMapping) : map.stop = map.addr + map.data.length := rfl

theorem stop_lt (map : MemMapping) : map.stop < 2 ^ 32 := map.fits

theorem number_lt (map : MemMapping) (ptr width : Nat) : map.number ptr width < 256 ^ width := by
  refine lt_of_lt_of_le (toNatLE_lt _) (Nat.pow_le_pow_right (by decide) ?_)
  rw [bytes, length_slice]
  exact min_le_left _ _

theorem getLE_inside (inside : map.Inside ptr width) :
    getLE map width ptr = .ok (map.number ptr width) := by
  have stop := map.stop_eq
  have read := map.getLE_addr width (ptr - map.addr) (by unfold Inside at inside; omega)
  rwa [Nat.add_sub_cancel' inside.1] at read

theorem getBytes_inside (inside : map.Inside ptr count) :
    getBytes map count ptr = .ok (map.bytes ptr count) := by
  have stop := map.stop_eq
  have read := map.getBytes_addr count (ptr - map.addr) (by unfold Inside at inside; omega)
  rwa [Nat.add_sub_cancel' inside.1] at read

theorem length_bytes (inside : map.Inside ptr count) : (map.bytes ptr count).length = count := by
  have stop := map.stop_eq
  unfold Inside at inside
  rw [bytes, length_slice]
  omega

theorem take_bytes {part : Nat} (short : part ≤ count) :
    (map.bytes ptr count).take part = map.bytes ptr part := by
  rw [bytes, slice, take_take, min_eq_left short, bytes, slice]

variable {size offset : Nat}

theorem padd_inside (inside : map.Inside ptr size) (small : offset ≤ size) :
    padd ptr offset = ptr + offset := by
  have limit := map.stop_lt
  unfold Inside at inside
  exact Nat.mod_eq_of_lt (by omega)

theorem Inside.part (inside : map.Inside ptr size)
    (small : offset + width ≤ size) : map.Inside (ptr + offset) width := by
  unfold Inside at *
  omega

theorem Inside.first (inside : map.Inside ptr size) (small : width ≤ size) :
    map.Inside ptr width :=
  ⟨inside.1, le_trans (Nat.add_le_add_left small ptr) inside.2⟩

theorem Inside.read (inside : map.Inside ptr size) (small : offset + width ≤ size) :
    getLE map width (padd ptr offset) = .ok (map.number (ptr + offset) width) := by
  rw [padd_inside inside (by omega), getLE_inside (inside.part small)]

/-- A number that does not lie wholly inside the block cannot be read: the address after the
block is met before any wrap. -/
theorem getLE_outside (positive : 0 < width) (outside : ¬ map.Inside ptr width) :
    getLE map width ptr = .error .fault := by
  induction width generalizing ptr with
  | zero => exact absurd positive (lt_irrefl 0)
  | succ width ih =>
    rw [getLE]
    by_cases first : map.Inside ptr 1
    · have more : 0 < width := by
        rcases Nat.eq_zero_or_pos width with rfl | positive
        · exact absurd first outside
        · exact positive
      have rest : ¬ map.Inside (ptr + 1) width := by
        unfold Inside at *
        omega
      have stop := map.stop_eq
      have byte := @get1_addr map (ptr - map.addr) (by unfold Inside at first; omega)
      rw [Nat.add_sub_cancel' first.1] at byte
      rw [byte, padd_inside first le_rfl, ih more rest]
      rfl
    · rw [map.get1_fault (by unfold Inside at first; omega)]
      rfl

theorem get1_inside (inside : map.Inside ptr 1) : ∃ byte, get1 map ptr = .ok byte ∧ ∀ count,
      map.bytes ptr (count + 1) = byte :: map.bytes (ptr + 1) count := by
  have stop := map.stop_eq
  have index : ptr - map.addr < map.data.length := by
    unfold Inside at inside
    omega
  have byte := map.get1_addr index
  rw [Nat.add_sub_cancel' inside.1] at byte
  refine ⟨_, byte, fun count => ?_⟩
  rw [bytes, slice_succ index, bytes, Nat.sub_add_comm inside.1]

end MemMapping

/-- A name is read up to its end or up to its first character that is not printable; a name
that runs off the end of the block and is printable up to there faults. -/
theorem allPrintable_eq (map : MemMapping) (count ptr : Nat) (start : map.Inside ptr 0) :
    allPrintable map count ptr = if (map.bytes ptr count).all printable = true then
        if map.Inside ptr count then .ok true else .error .fault else .ok false := by
  induction count generalizing ptr with
  | zero =>
    rw [allPrintable, if_pos (by simp [bytes, slice]), if_pos start]
  | succ count ih =>
    rw [allPrintable]
    by_cases first : map.Inside ptr 1
    · obtain ⟨byte, read, cut⟩ := get1_inside first
      have next : map.Inside (ptr + 1) 0 := first.part le_rfl
      have same : map.Inside (ptr + 1) count ↔ map.Inside ptr (count + 1) := by
        unfold MemMapping.Inside at *
        omega
      rw [read, cut, padd_inside first le_rfl, ih (ptr + 1) next, all_cons]
      change (if printable byte = true then _ else _) = _
      cases printable byte with
      | true => simp only [if_true, Bool.true_and, same]
      | false => rfl
    have stop := map.stop_eq
    have finished : map.data.length ≤ ptr - map.addr := by
      unfold MemMapping.Inside at *
      omega
    have outside : ¬ map.Inside ptr (count + 1) := by
      unfold MemMapping.Inside at *
      omega
    rw [map.get1_fault (by unfold MemMapping.Inside at first; omega),
      if_pos (by simp [bytes, slice, drop_eq_nil_of_le finished]), if_neg outside]
    rfl

theorem bailIf_bind {α : Type} (condition : Prop) [Decidable condition] (next : Unit → Parse α) :
    (bailIf condition >>= next) = if condition then .error .bail else next () := by
  rw [bailIf]
  split <;> rfl

theorem ok_then {α β : Type} (value : α) (next : α → Parse β) :
    ((.ok value : Parse α) >>= next) = next value := rfl

theorem fault_then {α β : Type} (next : α → Parse β) :
    ((.error .fault : Parse α) >>= next) = .error .fault := rfl

/-! ## The search for the place of an entry -/

def entryName (map : MemMapping) (entry : ZipEntry) : Bytes :=
  map.bytes entry.fileName entry.fileNameLen

/-- The names of the entries lie inside the block. -/
def NamesInside (map : MemMapping) (entries : List ZipEntry) : Prop :=
  ∀ entry ∈ entries, map.Inside entry.fileName entry.fileNameLen

/-- The comparison of two names by the search: their common length first, then their lengths. -/
def nameDiff (left right : Bytes) : Int :=
  let diffLen := if left.length < right.length then left.length else right.length
  let diff := strncmp (left.take diffLen) (right.take diffLen)
  if diff = 0 then (left.length : Int) - right.length else diff

variable {map : MemMapping} {entries : List ZipEntry} {fileName fileNameLen : Nat}

section

variable (names : NamesInside map entries) (name : map.Inside fileName fileNameLen)

include names name

theorem searchSlot_succ (fuel : Nat) {low high : Int} (wide : low ≤ high)
    (index : (low + (high - low) / 2).toNat < entries.length) :
    searchSlot map entries fileName fileNameLen (fuel + 1) low high =
      if nameDiff (entryName map entries[(low + (high - low) / 2).toNat])
          (map.bytes fileName fileNameLen) < 0 then
        searchSlot map entries fileName fileNameLen fuel (low + (high - low) / 2 + 1) high
      else if 0 < nameDiff (entryName map entries[(low + (high - low) / 2).toNat])
          (map.bytes fileName fileNameLen) then
        searchSlot map entries fileName fileNameLen fuel low (low + (high - low) / 2 - 1)
      else .ok (low + (high - low) / 2) := by
  have inside := names _ (getElem_mem index)
  rw [searchSlot, if_neg (not_lt.mpr wide)]
  dsimp only
  rw [getElem?_eq_getElem index]
  generalize entries[(low + (high - low) / 2).toNat] = entry at inside
  have shorter : (if entry.fileNameLen < fileNameLen then entry.fileNameLen
      else fileNameLen) ≤ fileNameLen ∧
      (if entry.fileNameLen < fileNameLen then entry.fileNameLen else fileNameLen) ≤
        entry.fileNameLen := by
    split <;> omega
  simp only [nameDiff, entryName, length_bytes inside, length_bytes name]
  generalize (if entry.fileNameLen < fileNameLen then entry.fileNameLen
    else fileNameLen) = diffLen at shorter
  rw [take_bytes shorter.1, take_bytes shorter.2,
    getBytes_inside (by unfold MemMapping.Inside at *; omega), ok_then,
    getBytes_inside (by unfold MemMapping.Inside at *; omega), ok_then]
  rfl

theorem searchSlot_ok (fuel : Nat) (low high : Int) (bottom : 0 ≤ low)
    (top : high < entries.length) :
    ∃ slot, searchSlot map entries fileName fileNameLen fuel low high = .ok slot := by
  induction fuel generalizing low high with
  | zero => exact ⟨high, rfl⟩
  | succ fuel ih =>
    by_cases crossed : high < low
    · exact ⟨high, by rw [searchSlot, if_pos crossed]; rfl⟩
    rw [searchSlot_succ names name fuel (not_lt.mp crossed) (by omega)]
    split
    · exact ih _ _ (by omega) top
    · split
      · exact ih _ _ bottom (by omega)
      · exact ⟨_, rfl⟩

theorem findTarget_ok : ∃ target, findTarget map entries fileName fileNameLen = .ok target := by
  obtain ⟨slot, found⟩ := searchSlot_ok names name (entries.length + 1) 0
    ((entries.length : Int) - 1) le_rfl (by omega)
  exact ⟨(slot + 1).toNat, by rw [findTarget, found]; rfl⟩

end

/-! ## The guards of one record -/

section Record

variable (map : MemMapping) (ptr : Nat)

def fileNameLenAt : Nat := map.number (ptr + CENNAM) 2

def localHdrOffsetAt : Nat := map.number (ptr + CENOFF) 4

/-- The local header of the record at `ptr`. -/
def localHdrAt : Nat := map.addr + localHdrOffsetAt map ptr

/-- Position of the entry data, as the `long` that is stored. -/
def offsetAt : Int :=
  toLong (localHdrOffsetAt map ptr + LOCHDR + map.number (localHdrAt map ptr + LOCNAM) 2 +
    map.number (localHdrAt map ptr + LOCEXT) 2)

/-- Size of the entry data, as the `long` that is stored. -/
def compLenAt : Int := toLong (map.number (ptr + CENSIZ) 4)

/-- The record behind the one at `ptr`. -/
def nextRecord : Nat :=
  padd ptr (CENHDR + fileNameLenAt map ptr + map.number (ptr + CENEXT) 2 +
    map.number (ptr + CENCOM) 2)

/-- The entry made from the record at `ptr`. -/
def entryAt : ZipEntry where
  fileNameLen := fileNameLenAt map ptr
  fileName := ptr + CENHDR
  offset := offsetAt map ptr
  compLen := compLenAt map ptr
  uncompLen := toLong (map.number (ptr + CENLEN) 4)
  compression := map.number (ptr + CENHOW) 2
  modTime := toLong (map.number (ptr + CENTIM) 4)
  crc32 := toLong (map.number (ptr + CENCRC) 4)
  versionMadeBy := map.number (ptr + CENVEM) 2
  externalFileAttributes := toLong (map.number (ptr + CENATX) 4)

/-- The guard on the header of a record. -/
def HeaderPasses : Prop := padd ptr CENHDR ≤ map.stop

/-- The guards on the name of a record: its end, its length and the characters of it that
the block holds. -/
def NamePasses : Prop :=
  padd (ptr + CENHDR) (fileNameLenAt map ptr) ≤ map.stop ∧ fileNameLenAt map ptr < PATH_MAX ∧
    (map.bytes (ptr + CENHDR) (fileNameLenAt map ptr)).all printable = true

/-- The check of the system that made the archive. -/
def VersionPasses : Prop :=
  map.number (ptr + CENVEM) 2 / 256 * 256 = 0 ∨
    map.number (ptr + CENVEM) 2 / 256 * 256 = CENVEM_UNIX

/-- The guards on the local header. -/
def LocalPasses : Prop :=
  localHdrAt map ptr < 2 ^ 32 ∧ padd (localHdrAt map ptr) LOCHDR ≤ map.stop

/-- The guards on the entry data. -/
def DataPasses : Prop :=
  -2 ^ 31 ≤ offsetAt map ptr + compLenAt map ptr ∧ offsetAt map ptr + compLenAt map ptr < 2 ^ 31 ∧
    padd (toSize (offsetAt map ptr)) (toSize (compLenAt map ptr)) ≤ map.length

instance : Decidable (NamePasses map ptr) := inferInstanceAs (Decidable (_ ∧ _))

instance : Decidable (VersionPasses map ptr) := inferInstanceAs (Decidable (_ ∨ _))

instance : Decidable (LocalPasses map ptr) := inferInstanceAs (Decidable (_ ∧ _))

instance : Decidable (DataPasses map ptr) := inferInstanceAs (Decidable (_ ∧ _))

/-- The sums that the guards of the record at `ptr` let through do not wrap.  A sum does no harm
where another signature is read first. -/
structure RecordTame : Prop where
  header : HeaderPasses map ptr → (map.Inside ptr 4 → map.number ptr 4 = CENSIG) →
    map.addr ≤ ptr ∧ ptr + CENHDR < 2 ^ 32
  name : HeaderPasses map ptr → map.number ptr 4 = CENSIG → NamePasses map ptr →
    ptr + CENHDR + fileNameLenAt map ptr < 2 ^ 32
  localHeader : HeaderPasses map ptr → map.number ptr 4 = CENSIG → NamePasses map ptr →
    VersionPasses map ptr → LocalPasses map ptr →
    (map.Inside (localHdrAt map ptr) 4 → map.number (localHdrAt map ptr) 4 = LOCSIG) →
    localHdrAt map ptr + LOCHDR < 2 ^ 32

/-- The record at `ptr` passes every check. -/
structure RecordAccepted : Prop where
  header : HeaderPasses map ptr
  signature : map.number ptr 4 = CENSIG
  name : NamePasses map ptr
  version : VersionPasses map ptr
  localHeader : LocalPasses map ptr
  localSignature : map.number (localHdrAt map ptr) 4 = LOCSIG
  data : DataPasses map ptr

/-- How one round of the loop ends. -/
inductive EntryOutcome (entries : List ZipEntry) : Parse (List ZipEntry × Nat) → Prop where
  | fault : ¬ RecordTame map ptr → EntryOutcome entries (.error .fault)
  | bail : RecordTame map ptr → ¬ RecordAccepted map ptr → EntryOutcome entries (.error .bail)
  | next (target : Nat) : RecordTame map ptr → RecordAccepted map ptr →
      findTarget map entries (ptr + CENHDR) (fileNameLenAt map ptr) = .ok target →
      EntryOutcome entries (.ok (entries.take target ++ entryAt map ptr :: entries.drop target,
        nextRecord map ptr))

end Record

/-- What a guard on a sum lets through, if the sum does not wrap. -/
theorem MemMapping.Inside.of_guard {ptr size : Nat} (low : map.addr ≤ ptr)
    (fits : ptr + size < 2 ^ 32) (guard : padd ptr size ≤ map.stop) : map.Inside ptr size := by
  rw [padd, Nat.mod_eq_of_lt fits] at guard
  exact ⟨low, guard⟩

/-- The last field of a header that begins inside the block and does not end there. -/
theorem last_outside {ptr size offset : Nat} (spare : map.length + 92 ≤ 2 ^ 32)
    (begins : map.Inside ptr 4) (straddles : ¬ map.Inside ptr size) (last : offset + width = size)
    (small : size ≤ CENHDR) (positive : 0 < width) : ¬ map.Inside (padd ptr offset) width := by
  have stop : map.stop = map.addr + map.length := rfl
  simp only [MemMapping.Inside, padd, CENHDR] at *
  omega

section Outcome

variable {map : MemMapping} {ptr : Nat}

theorem localHeader_eq {β : Type} (spare : map.length + 92 ≤ 2 ^ 32) (rest : Nat → Nat → Parse β) :
    (do
      bailIf (2 ^ 32 ≤ map.addr + localHdrOffsetAt map ptr)
      bailIf (map.stop < padd (map.addr + localHdrOffsetAt map ptr) LOCHDR)
      bailIf ((← get4LE map (map.addr + localHdrOffsetAt map ptr)) ≠ LOCSIG)
      let nameLen ← get2LE map (padd (map.addr + localHdrOffsetAt map ptr) LOCNAM)
      let extLen ← get2LE map (padd (map.addr + localHdrOffsetAt map ptr) LOCEXT)
      bailIf (toLong (localHdrOffsetAt map ptr + LOCHDR + nameLen + extLen) +
          toLong (map.number (ptr + CENSIZ) 4) < -2 ^ 31 ∨
        2 ^ 31 ≤ toLong (localHdrOffsetAt map ptr + LOCHDR + nameLen + extLen) +
          toLong (map.number (ptr + CENSIZ) 4))
      bailIf (map.length < padd (toSize (toLong (localHdrOffsetAt map ptr + LOCHDR + nameLen +
        extLen))) (toSize (toLong (map.number (ptr + CENSIZ) 4))))
      rest nameLen extLen) =
      if ¬ LocalPasses map ptr then .error .bail
      else if ¬ map.Inside (localHdrAt map ptr) 4 then .error .fault
      else if map.number (localHdrAt map ptr) 4 ≠ LOCSIG then .error .bail
      else if ¬ map.Inside (localHdrAt map ptr) LOCHDR then .error .fault
      else if ¬ DataPasses map ptr then .error .bail
      else rest (map.number (localHdrAt map ptr + LOCNAM) 2)
        (map.number (localHdrAt map ptr + LOCEXT) 2) := by
  rw [bailIf_bind, ← localHdrAt, ← compLenAt]
  by_cases passes : LocalPasses map ptr
  · rw [if_neg (not_le.mpr passes.1), bailIf_bind, if_neg (not_lt.mpr passes.2),
      if_neg (not_not.mpr passes)]
    by_cases begins : map.Inside (localHdrAt map ptr) 4
    · rw [get4LE, getLE_inside begins, ok_then, bailIf_bind, if_neg (not_not.mpr begins)]
      split
      · rfl
      next signature =>
      by_cases inside : map.Inside (localHdrAt map ptr) LOCHDR
      · rw [get2LE, get2LE, inside.read (by decide), ok_then, inside.read (by decide), ok_then,
          if_neg (not_not.mpr inside), ← offsetAt, bailIf_bind, bailIf_bind]
        by_cases data : DataPasses map ptr
        · rw [if_neg (not_or.mpr ⟨not_lt.mpr data.1, not_le.mpr data.2.1⟩),
            if_neg (not_lt.mpr data.2.2), if_neg (not_not.mpr data)]
        rw [if_pos data]
        split
        · rfl
        next small =>
          rw [if_pos]
          by_contra fits
          rw [not_or] at small
          exact data ⟨not_lt.mp small.1, not_le.mp small.2, not_lt.mp fits⟩
      rw [if_pos inside]
      -- the last field of the header is outside, the one before it may be
      have extLen : get2LE map (padd (localHdrAt map ptr) LOCEXT) = .error .fault :=
        getLE_outside (by decide)
          (last_outside spare begins inside rfl (by decide) (by decide))
      by_cases field : map.Inside (padd (localHdrAt map ptr) LOCNAM) 2
      · rw [get2LE, getLE_inside field, ok_then, extLen, fault_then]
      · rw [get2LE, getLE_outside (by decide) field, fault_then]
    · rw [get4LE, getLE_outside (by decide) begins, fault_then, if_pos begins]
  rw [if_pos passes, bailIf_bind]
  split
  · rfl
  next low =>
    rw [if_pos]
    by_contra fits
    exact passes ⟨not_le.mp low, not_lt.mp fits⟩

/-- One round of the loop faults exactly at a record that is not tame. -/
theorem parseEntry_outcome (spare : map.length + 92 ≤ 2 ^ 32) {entries : List ZipEntry}
    (names : NamesInside map entries) : EntryOutcome map ptr entries (parseEntry map entries ptr) := by
  rw [parseEntry, bailIf_bind]
  split
  next low =>
    have guard : ¬ HeaderPasses map ptr := not_le.mpr low
    exact .bail ⟨fun h => absurd h guard, fun h => absurd h guard, fun h => absurd h guard⟩
      fun accepted => guard accepted.header
  next high =>
  have guard : HeaderPasses map ptr := Nat.le_of_not_lt high
  have whole (tame : RecordTame map ptr) (signed : map.Inside ptr 4 → map.number ptr 4 = CENSIG) :
      map.Inside ptr CENHDR := .of_guard (tame.header guard signed).1 (tame.header guard signed).2 guard
  by_cases begins : map.Inside ptr 4
  · rw [get4LE, getLE_inside begins, ok_then, bailIf_bind]
    split
    next different =>
      exact .bail ⟨fun _ h => absurd (h begins) different, fun _ h => absurd h different,
        fun _ h => absurd h different⟩ fun accepted => different accepted.signature
    next same =>
    have signature : map.number ptr 4 = CENSIG := not_not.mp same
    by_cases inside : map.Inside ptr CENHDR
    · have fits : map.addr ≤ ptr ∧ ptr + CENHDR < 2 ^ 32 :=
        ⟨inside.1, lt_of_le_of_lt inside.2 map.stop_lt⟩
      have read4 (offset : Nat) (small : offset + 4 ≤ CENHDR) :
          get4LE map (padd ptr offset) = .ok (map.number (ptr + offset) 4) := inside.read small
      have read2 (offset : Nat) (small : offset + 2 ≤ CENHDR) :
          get2LE map (padd ptr offset) = .ok (map.number (ptr + offset) 2) := inside.read small
      have localHdrOffset : get4LE map (padd ptr CENOFF) = .ok (localHdrOffsetAt map ptr) :=
        read4 CENOFF (by decide)
      have fileNameLen : get2LE map (padd ptr CENNAM) = .ok (fileNameLenAt map ptr) :=
        read2 CENNAM (by decide)
      rw [localHdrOffset, ok_then, fileNameLen, ok_then, read2 CENEXT (by decide), ok_then,
        read2 CENCOM (by decide), ok_then, padd_inside inside le_rfl]
      rw [bailIf_bind]
      have nameStart : map.Inside (ptr + CENHDR) 0 := inside.part le_rfl
      by_cases name : NamePasses map ptr
      · rw [if_neg (not_lt.mpr name.1), validFilenameAt, if_neg (not_le.mpr name.2.1),
          allPrintable_eq map _ _ nameStart, if_pos name.2.2]
        by_cases nameInside : map.Inside (ptr + CENHDR) (fileNameLenAt map ptr)
        · obtain ⟨target, found⟩ := findTarget_ok names nameInside
          have nameFits := lt_of_le_of_lt nameInside.2 map.stop_lt
          rw [if_pos nameInside, ok_then, bailIf_bind, if_neg (by decide), found, ok_then,
            read4 CENSIZ (by decide), ok_then, read4 CENLEN (by decide), ok_then,
            read2 CENHOW (by decide), ok_then, read4 CENTIM (by decide), ok_then,
            read4 CENCRC (by decide), ok_then, read2 CENVEM (by decide), ok_then, bailIf_bind,
            read4 CENATX (by decide), ok_then]
          by_cases version : VersionPasses map ptr
          · rw [if_neg (by unfold VersionPasses at version; omega)]
            rw [localHeader_eq spare]
            split
            next failed =>
              exact .bail ⟨fun _ _ => fits, fun _ _ _ => nameFits, fun _ _ _ _ h => absurd h failed⟩
                fun accepted => failed accepted.localHeader
            next passed =>
            have header := not_not.mp passed
            have localWhole (tame : RecordTame map ptr) (signed : map.Inside (localHdrAt map ptr) 4 →
                map.number (localHdrAt map ptr) 4 = LOCSIG) : map.Inside (localHdrAt map ptr) LOCHDR :=
              .of_guard (Nat.le_add_right _ _)
                (tame.localHeader guard signature name version header signed) header.2
            split
            next outside =>
              exact .fault fun tame =>
                outside ((localWhole tame fun h => absurd h outside).first (by decide))
            next localBegins =>
            split
            next different =>
              exact .bail ⟨fun _ _ => fits, fun _ _ _ => nameFits,
                fun _ _ _ _ _ h => absurd (h (not_not.mp localBegins)) different⟩
                fun accepted => different accepted.localSignature
            next equal =>
            have localSignature := not_not.mp equal
            split
            next outside => exact .fault fun tame => outside (localWhole tame fun _ => localSignature)
            next localInside =>
            have tame : RecordTame map ptr := ⟨fun _ _ => fits, fun _ _ _ => nameFits,
              fun _ _ _ _ _ _ => lt_of_le_of_lt (not_not.mp localInside).2 map.stop_lt⟩
            split
            next off => exact .bail tame fun accepted => off accepted.data
            next data =>
              exact .next target tame ⟨guard, signature, name, version, header, localSignature,
                not_not.mp data⟩ found
          · rw [if_pos (by unfold VersionPasses at version; omega)]
            exact .bail ⟨fun _ _ => fits, fun _ _ _ => nameFits, fun _ _ _ h => absurd h version⟩
              fun accepted => version accepted.version
        · rw [if_neg nameInside]
          exact .fault fun tame => nameInside
            (.of_guard nameStart.1 (tame.name guard signature name) name.1)
      have failed : EntryOutcome map ptr entries (.error .bail) :=
        .bail ⟨fun _ _ => fits, fun _ _ h => absurd h name, fun _ _ h => absurd h name⟩
          fun accepted => name accepted.name
      split
      · exact failed
      next short =>
      rw [validFilenameAt]
      split
      · exact failed
      next long =>
        rw [allPrintable_eq map _ _ nameStart, if_neg]
        · exact failed
        · exact fun chars => name ⟨Nat.le_of_not_lt short, Nat.lt_of_not_le long, chars⟩
    · have outside : getLE map 4 (padd ptr CENOFF) = .error .fault := getLE_outside (by decide)
          (last_outside spare begins inside rfl (by decide) (by decide))
      rw [get4LE, outside]
      exact .fault fun tame => inside (whole tame fun _ => signature)
  · rw [get4LE, getLE_outside (by decide) begins]
    exact .fault fun tame => begins ((whole tame fun h => absurd h begins).first (by decide))

theorem entryAt_name (tame : RecordTame map ptr) (accepted : RecordAccepted map ptr) :
    map.Inside (entryAt map ptr).fileName (entryAt map ptr).fileNameLen := by
  have low := (tame.header accepted.header fun _ => accepted.signature).1
  exact .of_guard (Nat.le_add_right_of_le low)
    (tame.name accepted.header accepted.signature accepted.name) accepted.name.1

/-- Data that passes its guards lies inside the block unless a `long` is negative. -/
theorem entryAt_data (accepted : RecordAccepted map ptr)
    (signs : 0 ≤ (entryAt map ptr).offset ∧ 0 ≤ (entryAt map ptr).compLen) :
    (entryAt map ptr).offset + (entryAt map ptr).compLen ≤ (map.length : Int) := by
  obtain ⟨-, high, guard⟩ := accepted.data
  obtain ⟨start, size⟩ := signs
  simp only [entryAt, padd, toSize] at high guard start size ⊢
  omega

end Outcome

/-! ## The loop over the records -/

section Walk

variable (map : MemMapping)

/-- Every record that the loop reaches is tame. -/
def WalkTame : (count ptr : Nat) → Prop
  | 0, _ => True
  | count + 1, ptr =>
    RecordTame map ptr ∧ (RecordAccepted map ptr → WalkTame count (nextRecord map ptr))

/-- The loop goes through all its records. -/
def WalkAccepted : (count ptr : Nat) → Prop
  | 0, _ => True
  | count + 1, ptr => RecordAccepted map ptr ∧ WalkAccepted count (nextRecord map ptr)

/-- The entries of the records, in the order of the directory. -/
def walkEntries : (count ptr : Nat) → List ZipEntry
  | 0, _ => []
  | count + 1, ptr => entryAt map ptr :: walkEntries count (nextRecord map ptr)

/-- How the loop ends. -/
inductive WalkOutcome (entries : List ZipEntry) (count ptr : Nat) :
    Parse (List ZipEntry) → Prop where
  | fault : ¬ WalkTame map count ptr → WalkOutcome entries count ptr (.error .fault)
  | bail : WalkTame map count ptr → ¬ WalkAccepted map count ptr →
      WalkOutcome entries count ptr (.error .bail)
  | done (table : List ZipEntry) : WalkTame map count ptr → WalkAccepted map count ptr →
      table.Perm (walkEntries map count ptr ++ entries) → WalkOutcome entries count ptr (.ok table)

variable {map}

theorem walkEntries_names {ptr : Nat} (tame : WalkTame map count ptr)
    (accepted : WalkAccepted map count ptr) : NamesInside map (walkEntries map count ptr) := by
  induction count generalizing ptr with
  | zero => nofun
  | succ count ih =>
    exact forall_mem_cons.mpr ⟨entryAt_name tame.1 accepted.1, ih (tame.2 accepted.1) accepted.2⟩

@[simp] theorem length_walkEntries (count ptr : Nat) :
    (walkEntries map count ptr).length = count := by
  induction count generalizing ptr with
  | zero => rfl
  | succ count ih => rw [walkEntries, length_cons, ih]

theorem walkEntries_data {ptr : Nat} (accepted : WalkAccepted map count ptr) {entry : ZipEntry}
    (member : entry ∈ walkEntries map count ptr) (start : 0 ≤ entry.offset)
    (size : 0 ≤ entry.compLen) : entry.offset + entry.compLen ≤ (map.length : Int) := by
  induction count generalizing ptr with
  | zero => cases member
  | succ count ih =>
    rcases mem_cons.mp member with rfl | later
    · exact entryAt_data accepted.1 ⟨start, size⟩
    · exact ih accepted.2 later

/-- The loop faults exactly when it reaches a record that is not tame, and otherwise fills
the table with the entries of all records. -/
theorem parseEntries_outcome (spare : map.length + 92 ≤ 2 ^ 32) {entries : List ZipEntry}
    (names : NamesInside map entries) (count ptr : Nat) :
    WalkOutcome map entries count ptr (parseEntries map count entries ptr) := by
  induction count generalizing entries ptr with
  | zero => exact .done entries trivial trivial (.refl _)
  | succ count ih =>
    have round := @parseEntry_outcome map ptr spare entries names
    rw [parseEntries]
    generalize parseEntry map entries ptr = result at round
    cases round with
    | fault wild => exact .fault fun tame => wild tame.1
    | bail tame refused =>
      exact .bail ⟨tame, fun accepted => absurd accepted refused⟩ fun accepted => refused accepted.1
    | next target tame accepted _ =>
      have inserted : (entries.take target ++ entryAt map ptr :: entries.drop target).Perm
          (entryAt map ptr :: entries) := by
        have moved := @perm_middle _ (entryAt map ptr) (entries.take target) (entries.drop target)
        rwa [take_append_drop] at moved
      have nextNames : NamesInside map
          (entries.take target ++ entryAt map ptr :: entries.drop target) := by
        intro entry member
        rcases mem_cons.mp (inserted.mem_iff.mp member) with rfl | old
        · exact entryAt_name tame accepted
        · exact names entry old
      rw [ok_then]
      have rest := ih nextNames (nextRecord map ptr)
      generalize parseEntries map count _ _ = result at rest
      cases rest with
      | fault wild => exact .fault fun walk => wild (walk.2 accepted)
      | bail walk refused =>
        exact .bail ⟨tame, fun _ => walk⟩ fun all => refused all.2
      | done table walk all filled =>
        refine .done table ⟨tame, fun _ => walk⟩ ⟨accepted, all⟩ (filled.trans ?_)
        exact (inserted.append_left _).trans perm_middle

end Walk

/-! ## The whole parser -/

/-- The last end-of-central-directory signature at or before `index`. -/
def lastRecord (data : Bytes) : (index : Nat) → Option Nat
  | 0 => if (data.slice 0 4).toNatLE = ENDSIG then some 0 else none
  | index + 1 =>
    if (data.slice (index + 1) 4).toNatLE = ENDSIG then some (index + 1)
    else lastRecord data index

theorem lastRecord_le {data : Bytes} {index record : Nat}
    (found : lastRecord data index = some record) : record ≤ index := by
  induction index with
  | zero =>
    rw [lastRecord] at found
    split at found <;> simp_all
  | succ index ih =>
    rw [lastRecord] at found
    split at found
    · exact le_of_eq (Option.some.inj found).symm
    · exact Nat.le_succ_of_le (ih found)

/-- The backward scan finds the last signature; without one it leaves a block at address 0. -/
theorem findEOCD_eq (map : MemMapping) (index : Nat) (inside : index + 4 ≤ map.data.length) :
    findEOCD map index = match lastRecord map.data index with
      | some record => .ok (map.addr + record)
      | none => if map.addr = 0 then .error .fault else .error .bail := by
  induction index with
  | zero =>
    have read : get4LE map map.addr = .ok (map.data.slice 0 4).toNatLE := map.getLE_addr 4 0 inside
    rw [findEOCD, read, ok_then, lastRecord]
    split <;> rfl
  | succ index ih =>
    have read : get4LE map (map.addr + (index + 1)) = .ok (map.data.slice (index + 1) 4).toNatLE :=
      map.getLE_addr 4 (index + 1) inside
    rw [findEOCD, read, ok_then, lastRecord]
    split
    · rfl
    · exact ih (by omega)

/-- The number of records that the record at `record` announces. -/
def numEntriesAt (map : MemMapping) (record : Nat) : Nat :=
  map.number (map.addr + record + ENDSUB) 2

/-- The start of the central directory that the record at `record` announces. -/
def cdOffsetAt (map : MemMapping) (record : Nat) : Nat :=
  map.number (map.addr + record + ENDOFF) 4

/-- The directory announced by the record at `record` is safe to walk: every record that the
loop reaches is tame, and the entries of a directory that passes every check have no negative
position or size. -/
structure DirectoryTame (map : MemMapping) (record : Nat) : Prop where
  records : WalkTame map (numEntriesAt map record) (map.addr + cdOffsetAt map record)
  signs : WalkAccepted map (numEntriesAt map record) (map.addr + cdOffsetAt map record) →
    ∀ entry ∈ walkEntries map (numEntriesAt map record) (map.addr + cdOffsetAt map record),
      0 ≤ entry.offset ∧ 0 ≤ entry.compLen

/-- An archive that the parser can be given. -/
def Tame (map : MemMapping) : Prop :=
  map.number map.addr 4 = LOCSIG → match lastRecord map.data (map.length - ENDHDR) with
    | none => map.addr ≠ 0
    | some record =>
      numEntriesAt map record ≠ 0 → cdOffsetAt map record < map.length → DirectoryTame map record

/-- An entry whose name and data lie inside the block. -/
structure EntryInside (map : MemMapping) (entry : ZipEntry) : Prop where
  name : map.Inside entry.fileName entry.fileNameLen
  data : 0 ≤ entry.offset ∧ 0 ≤ entry.compLen ∧ entry.offset + entry.compLen ≤ (map.length : Int)

/-- No read leaves the block, and the table of an accepted archive is sound. -/
structure ParseSafe (map : MemMapping) : Prop where
  reads : parseZipArchive map ≠ .error .fault
  sound : ∀ archive, parseZipArchive map = .ok archive →
    ∀ entry ∈ archive.pEntries, EntryInside map entry

theorem mapM_names (names : NamesInside map entries) :
    (entries.mapM fun entry => getBytes map entry.fileNameLen entry.fileName) =
      .ok (entries.map (entryName map)) := by
  induction entries with
  | nil => rfl
  | cons entry entries ih =>
    rw [mapM_cons, getBytes_inside (names entry mem_cons_self), ok_then,
      ih (forall_mem_cons.mp names).2]
    rfl

/-- The part of the parser behind the checks of the end-of-central-directory record. -/
def readDirectory (map : MemMapping) (record : Nat) : Parse ZipArchive := do
  let entries ← parseEntries map (numEntriesAt map record) [] (map.addr + cdOffsetAt map record)
  let names ← entries.mapM fun entry => getBytes map entry.fileNameLen entry.fileName
  match addEntriesToHashTable names with
  | none => .error .fault
  | some pHash => return { numEntries := numEntriesAt map record, pEntries := entries, pHash }

theorem parseZipArchive_eq (map : MemMapping) (long : ENDHDR ≤ map.length) :
    parseZipArchive map = if map.number map.addr 4 = LOCSIG then
        match lastRecord map.data (map.length - ENDHDR) with
        | none => if map.addr = 0 then .error .fault else .error .bail
        | some record =>
          if numEntriesAt map record = 0 ∨ map.length ≤ cdOffsetAt map record then .error .bail
          else readDirectory map record
      else .error .bail := by
  have stop : map.stop = map.addr + map.length := rfl
  have total : map.length = map.data.length := rfl
  have start : map.Inside map.addr 4 := ⟨le_rfl, by simp only [ENDHDR] at long; omega⟩
  rw [parseZipArchive, get4LE, getLE_inside start, ok_then, bailIf_bind, bailIf_bind]
  by_cases signature : map.number map.addr 4 = LOCSIG
  · rw [if_neg (by rw [signature]; decide), if_neg (not_not.mpr signature), if_pos signature,
      findEOCD_eq map _ (by simp only [ENDHDR] at long ⊢; omega)]
    cases found : lastRecord map.data (map.length - ENDHDR) with
    | none =>
      dsimp only
      split <;> rfl
    | some record =>
      have low := lastRecord_le found
      have inside : map.Inside (map.addr + record) ENDHDR := ⟨Nat.le_add_right _ _, by omega⟩
      rw [ok_then, get2LE, inside.read (by decide), ok_then, get4LE, inside.read (by decide), ok_then,
        bailIf_bind]
      rfl
  · rw [if_neg signature, if_pos signature]
    split <;> rfl

/-- Behind the checks the parser faults exactly when its loop does, and its table holds the
entries of the directory. -/
theorem readDirectory_outcome (spare : map.length + 92 ≤ 2 ^ 32) {record : Nat}
    (some : numEntriesAt map record ≠ 0) :
    WalkOutcome map [] (numEntriesAt map record) (map.addr + cdOffsetAt map record)
      ((readDirectory map record).map ZipArchive.pEntries) := by
  have loop := @parseEntries_outcome map spare [] nofun (numEntriesAt map record)
    (map.addr + cdOffsetAt map record)
  rw [readDirectory]
  generalize parseEntries map _ _ _ = result at loop
  cases loop with
  | fault wild => exact .fault wild
  | bail tame refused => exact .bail tame refused
  | done table tame accepted filled =>
    have listed := filled
    rw [append_nil] at listed
    have names : NamesInside map table := fun entry member =>
      walkEntries_names tame accepted entry (listed.mem_iff.mp member)
    have count : table.length = numEntriesAt map record := by
      rw [listed.length_eq, length_walkEntries]
    have added := addEntriesToHashTable_isSome (table.map (entryName map))
      (by rw [Ne, map_eq_nil_iff, ← length_eq_zero_iff, count]; exact some)
      (by rw [length_map, count]; exact map.number_lt _ 2)
    obtain ⟨pHash, hashed⟩ := Option.isSome_iff_exists.mp added
    rw [ok_then, mapM_names names, ok_then, hashed]
    exact .done table tame accepted filled

theorem ParseSafe.of_bail (refused : parseZipArchive map = .error .bail) : ParseSafe map :=
  ⟨by rw [refused]; nofun, by rw [refused]; nofun⟩

/-- The parser stays inside the mapping and its table is sound exactly when the archive is
tame.  The mapping may lie anywhere, as long as it leaves 92 bytes of the address space. -/
theorem parse_safe_iff (map : MemMapping) (long : ENDHDR ≤ map.length)
    (spare : map.length + 92 ≤ 2 ^ 32) : ParseSafe map ↔ Tame map := by
  have run := parseZipArchive_eq map long
  by_cases signature : map.number map.addr 4 = LOCSIG
  · rw [if_pos signature] at run
    cases found : lastRecord map.data (map.length - ENDHDR) with
    | none =>
      simp only [found] at run
      by_cases null : map.addr = 0
      · rw [if_pos null] at run
        constructor
        · exact fun safe => absurd run safe.reads
        · intro tame
          have := tame signature
          rw [found] at this
          exact absurd null this
      · rw [if_neg null] at run
        exact ⟨fun _ _ => by rw [found]; exact null, fun _ => .of_bail run⟩
    | some record =>
      simp only [found] at run
      by_cases empty : numEntriesAt map record = 0 ∨ map.length ≤ cdOffsetAt map record
      · rw [if_pos empty] at run
        refine ⟨fun _ _ => ?_, fun _ => .of_bail run⟩
        rw [found]
        intro some inside
        omega
      rw [if_neg empty] at run
      rw [not_or, not_le] at empty
      have meaning : Tame map ↔ DirectoryTame map record := by
        rw [Tame, found]
        exact ⟨fun tame => tame signature empty.1 empty.2, fun tame _ _ _ => tame⟩
      rw [meaning]
      have outcome := readDirectory_outcome spare empty.1
      rw [← run] at outcome
      cases parsed : parseZipArchive map with
      | error failure =>
        rw [parsed] at outcome
        cases outcome with
        | fault wild =>
          exact ⟨fun safe => absurd parsed safe.reads, fun tame => absurd tame.records wild⟩
        | bail walk refused =>
          exact ⟨fun _ => ⟨walk, fun all => absurd all refused⟩, fun _ => .of_bail parsed⟩
      | ok archive =>
        rw [parsed] at outcome
        cases outcome with
        | done _ walk accepted filled =>
        rw [append_nil] at filled
        constructor
        · intro safe
          refine ⟨walk, fun _ entry member => ?_⟩
          have inside := (safe.sound archive parsed entry (filled.mem_iff.mpr member)).data
          exact ⟨inside.1, inside.2.1⟩
        intro tame
        refine ⟨by rw [parsed]; nofun, fun other same entry member => ?_⟩
        cases parsed.symm.trans same
        have mine := filled.mem_iff.mp member
        have signs := tame.signs accepted entry mine
        exact ⟨walkEntries_names walk accepted entry mine, signs.1, signs.2,
          walkEntries_data accepted mine signs.1 signs.2⟩
  · rw [if_neg signature] at run
    exact ⟨fun _ same => absurd same signature, fun _ => .of_bail run⟩

/-! ## Archives that are tame and archives that are not -/

/-- A local header with a name and extra field of `skip` bytes altogether. -/
def sampleLocal (skip : Nat) : Bytes :=
  ofNatLE 4 LOCSIG ++ replicate 22 0 ++ ofNatLE 2 skip ++ [0, 0]

/-- A central directory record without a name. -/
def sampleCentral (compLen extraLen commentLen localHdrOffset : Nat) : Bytes :=
  ofNatLE 4 CENSIG ++ replicate 16 0 ++ ofNatLE 4 compLen ++
    replicate 6 0 ++ ofNatLE 2 extraLen ++ ofNatLE 2 commentLen ++
    replicate 8 0 ++ ofNatLE 4 localHdrOffset

/-- An archive of one local header and `count` announced records from position 30 on. -/
def sampleArchive (skip count : Nat) (central : Bytes) : Bytes :=
  sampleLocal skip ++ central ++ ofNatLE 4 ENDSIG ++ [0, 0, 0, 0] ++
    ofNatLE 2 count ++ ofNatLE 2 count ++ [0, 0, 0, 0] ++ ofNatLE 4 30 ++ [0, 0]

/-- One empty entry. -/
def plainArchive : MemMapping := ⟨4096, sampleArchive 0 1 (sampleCentral 0 0 0 0), by decide⟩

/-- A local header that would begin four bytes before the end of the address space. -/
def wrappedLocal : MemMapping :=
  ⟨4096, sampleArchive 0 1 (sampleCentral 0 0 0 (2 ^ 32 - 4100)), by decide⟩

/-- Data that would begin behind the block, with a size of -1000. -/
def negativeSize : MemMapping :=
  ⟨4096, sampleArchive 1000 1 (sampleCentral (2 ^ 32 - 1000) 0 0 0), by decide⟩

/-- A block near the end of the address space whose second record would lie behind it. -/
def wrappedRecord : MemMapping :=
  ⟨2 ^ 32 - 2 ^ 17, sampleArchive 0 2 (sampleCentral 0 65535 65535 0), by decide⟩

theorem parse_safe_iff_plain :
    ENDHDR ≤ plainArchive.length ∧ plainArchive.length + 92 ≤ 2 ^ 32 ∧ Tame plainArchive := by
  have long : ENDHDR ≤ plainArchive.length := by decide
  have spare : plainArchive.length + 92 ≤ 2 ^ 32 := by decide
  refine ⟨long, spare, (parse_safe_iff plainArchive long spare).mp ⟨by decide +kernel, ?_⟩⟩
  intro archive parsed entry member
  have table : (parseZipArchive plainArchive).map ZipArchive.pEntries =
      .ok [⟨0, 4172, 30, 0, 0, 0, 0, 0, 0, 0⟩] := by decide +kernel
  rw [parsed] at table
  rw [Except.ok.inj table, mem_singleton] at member
  subst member
  exact ⟨by decide, by decide⟩

/-- Each of three archives defeats a guard: the read of the local header and the read of the
second record leave the block, and the data of the third lies behind it. -/
theorem parse_leaves_mapping :
    parseZipArchive wrappedLocal = .error .fault ∧ parseZipArchive wrappedRecord = .error .fault ∧
      (parseZipArchive negativeSize).map
        (fun archive => archive.pEntries.map fun entry => (entry.offset, entry.compLen)) =
          .ok [(1030, -1000)] ∧ negativeSize.length = 98 ∧ ¬ ParseSafe wrappedLocal := by
  have outside : parseZipArchive wrappedLocal = .error .fault := by decide +kernel
  exact ⟨outside, by decide +kernel, by decide +kernel, by decide, fun safe => safe.reads outside⟩

end PhilzTouch.Minzip
