import Mathlib.Data.List.Forall2
import PhilzTouch.Minzip.Zip
import PhilzTouch.Verifier

/-!
# The archive that is parsed is the archive that was signed

`verify_file` and `parseZipArchive` locate the end-of-central-directory record
independently: the verifier counts back from the end of the file, the parser
scans backwards for the magic number.  This module shows that they agree on every
accepted file, and that the parsed entry table is then a function of the signed
bytes alone.
-/

namespace PhilzTouch.Minzip

open Verifier List Bytes

namespace MemMapping

/-- `signed` is the beginning of the mapped file. -/
def Covers (map : MemMapping) (signed : Bytes) : Prop := signed <+: map.data

variable {map : MemMapping} {signed : Bytes}

section Covers

variable (covers : map.Covers signed)

include covers

theorem Covers.length_le : signed.length ≤ map.length := List.IsPrefix.length_le covers

variable (count start : Nat) (inside : start + count ≤ signed.length)

include inside

/-- Reads inside a covered prefix depend on the prefix alone. -/
theorem Covers.getLE :
    Minzip.getLE map count (map.addr + start) = .ok (signed.slice start count).toNatLE := by
  rw [getLE_addr map _ _ (Nat.le_trans inside covers.length_le), prefix_iff_eq_take.mp covers,
    slice_take _ inside]

theorem Covers.getBytes :
    Minzip.getBytes map count (map.addr + start) = .ok (signed.slice start count) := by
  rw [getBytes_addr map _ _ (Nat.le_trans inside covers.length_le), prefix_iff_eq_take.mp covers,
    slice_take _ inside]

theorem Covers.validFilenameAt : Minzip.validFilenameAt map (map.addr + start) count =
      .ok (validFilename (signed.slice start count)) := by
  rw [validFilenameAt_addr map _ _ (Nat.le_trans inside covers.length_le),
    prefix_iff_eq_take.mp covers, slice_take _ inside]

end Covers

end MemMapping

/-! ## The two searches for the record -/

/-- The scan compares four bytes with the magic number of the verifier. -/
theorem toNatLE_eq_ENDSIG (bytes : Bytes) (start : Nat) (inside : start + 4 ≤ bytes.length) :
    (bytes.slice start 4).toNatLE = ENDSIG ↔ startsWithMarker (bytes.drop start) = true := by
  have cut : bytes.slice start 4 =
      [bytes[start], bytes[start + 1], bytes[start + 2], bytes[start + 3]] := by
    rw [slice, drop_marker inside]
    rfl
  rw [cut, drop_marker inside, startsWithMarker_cons]
  generalize bytes[start] = a, bytes[start + 1] = b, bytes[start + 2] = c, bytes[start + 3] = d
  have boundA := a.toNat_lt
  have boundB := b.toNat_lt
  have boundC := c.toNat_lt
  simp only [toNatLE, ENDSIG, Bool.and_eq_true, beq_iff_eq, ← UInt8.toNat_inj]
  change _ ↔ a.toNat = 80 ∧ b.toNat = 75 ∧ c.toNat = 5 ∧ d.toNat = 6
  omega

theorem findEOCD_of_unique (map : MemMapping) {start index : Nat}
    (below : start ≤ index) (room : index + 4 ≤ map.length)
    (marker : startsWithMarker (map.data.drop start) = true)
    (unique : ∀ later, start < later → startsWithMarker (map.data.drop later) = false) :
    findEOCD map index = .ok (map.addr + start) := by
  have total : map.length = map.data.length := rfl
  induction index with
  | zero =>
    have zero : start = 0 := by omega
    subst zero
    have read : get4LE map map.addr = .ok (map.data.slice 0 4).toNatLE :=
      map.getLE_addr 4 0 (by omega)
    simp only [findEOCD, read, (toNatLE_eq_ENDSIG map.data 0 (by omega)).mpr marker]
    rfl
  | succ index ih =>
    have read : get4LE map (map.addr + (index + 1)) = .ok (map.data.slice (index + 1) 4).toNatLE :=
      map.getLE_addr _ _ (by omega)
    have test := toNatLE_eq_ENDSIG map.data (index + 1) (by omega)
    by_cases here : start = index + 1
    · subst here
      simp only [findEOCD, read, test.mpr marker]
      rfl
    rw [unique (index + 1) (by omega)] at test
    simp only [findEOCD, read]
    change (if (map.data.slice (index + 1) 4).toNatLE = ENDSIG then _ else _) = _
    rw [if_neg fun equal => nomatch test.mp equal]
    exact ih (by omega) (by omega)

/-- After the marker of an accepted file there is no other one. -/
theorem no_later_marker {file : Bytes} (layout : Layout file) {later : Nat}
    (after : eocdStart file < later) : startsWithMarker (file.drop later) = false := by
  obtain ⟨distance, rfl⟩ : ∃ distance, later = eocdStart file + distance + 1 :=
    ⟨later - eocdStart file - 1, by omega⟩
  have marker := layout.marker
  by_cases near : distance < 3
  · -- the positions that overlap the marker itself hold 4b, 05 or 06
    unfold startsWithMarker at marker
    split at marker
    · rename_i rest equal
      have shift : file.drop (eocdStart file + distance + 1) =
          (file.drop (eocdStart file)).drop (distance + 1) := by
        rw [drop_drop]
        congr 1
      rw [shift, equal]
      rcases distance with _ | _ | _ | distance
      · rfl
      · rfl
      · rfl
      · omega
    · cases marker
  have shift : file.drop (eocdStart file + distance + 1) =
      ((file.drop (eocdStart file)).drop 4).drop (distance - 3) := by
    simp only [drop_drop]
    congr 1
    omega
  rw [shift]
  exact startsWithMarker_drop_of_containsMarker layout.unique _

/-- On an accepted file the scan of the parser stops at the record that the
verifier has checked. -/
theorem findEOCD_of_layout (map : MemMapping) (layout : Layout map.data) :
    findEOCD map (map.length - ENDHDR) = .ok (map.addr + eocdStart map.data) := by
  have total : map.length = map.data.length := rfl
  have start := layout.eocdStart_add
  simp only [eocdSize, EOCD_HEADER_SIZE] at start
  apply findEOCD_of_unique map
  · unfold ENDHDR
    omega
  · unfold ENDHDR
    omega
  · exact layout.marker
  · intro later after
    exact no_later_marker layout after

/-! ## Tables relative to the mapping -/

/-- An entry with its name pointer counted from the start of the block. -/
def ZipEntry.relativeTo (map : MemMapping) (entry : ZipEntry) : ZipEntry :=
  { entry with fileName := entry.fileName - map.addr }

/-- An archive with its name pointers counted from the start of the block. -/
def ZipArchive.relativeTo (map : MemMapping) (archive : ZipArchive) : ZipArchive :=
  { archive with pEntries := archive.pEntries.map (ZipEntry.relativeTo map) }

/-- The same entry parsed from two mappings of one signed prefix. -/
structure Twin (left right : MemMapping) (signed : Bytes) (l r : ZipEntry) : Prop where
  exists_start : ∃ start, l.fileName = left.addr + start ∧
    r = { l with fileName := right.addr + start } ∧
    start + l.fileNameLen ≤ signed.length

/-- Two parses end alike: with the same failure or with related results. -/
inductive Agree {α β : Type} (related : α → β → Prop) : Parse α → Parse β → Prop where
  | ok {l : α} {r : β} : related l r → Agree related (.ok l) (.ok r)
  | error (stop : Stop) : Agree related (.error stop) (.error stop)

namespace Agree

variable {α β : Type} {related : α → β → Prop}

theorem bind {γ δ : Type} {next : γ → δ → Prop} {l : Parse α} {r : Parse β}
    {f : α → Parse γ} {g : β → Parse δ} (first : Agree related l r)
    (rest : ∀ a b, related a b → Agree next (f a) (g b)) : Agree next (l >>= f) (r >>= g) := by
  cases first with
  | ok pair => exact rest _ _ pair
  | error stop => exact .error stop

theorem bailIf {p q : Prop} [Decidable p] [Decidable q] {f : Unit → Parse α}
    {g : Unit → Parse β} (same : p ↔ q) (rest : Agree related (f ()) (g ())) :
    Agree related (Minzip.bailIf p >>= f) (Minzip.bailIf q >>= g) := by
  by_cases holds : p
  · have other := same.mp holds
    simp only [Minzip.bailIf, holds, other, if_true]
    exact .error .bail
  · have other : ¬q := fun right => holds (same.mpr right)
    simp only [Minzip.bailIf, holds, other, if_false]
    exact rest

theorem value {γ : Type} {l r : Parse γ} {value : γ} {f : γ → Parse α} {g : γ → Parse β}
    (left : l = .ok value) (right : r = .ok value) (rest : Agree related (f value) (g value)) :
    Agree related (l >>= f) (r >>= g) := by
  rw [left, right]
  exact rest

theorem same {γ : Type} {l r : Parse γ} {f : γ → Parse α} {g : γ → Parse β}
    (equal : l = r) (rest : ∀ value, Agree related (f value) (g value)) :
    Agree related (l >>= f) (r >>= g) := by
  subst equal
  cases l with
  | ok value => exact rest value
  | error stop => exact .error stop

end Agree

/-- A 32-bit value survives the conversion to `long` and back. -/
theorem toSize_toLong {value : Nat} (small : value < 2 ^ 32) : toSize (toLong value) = value := by
  have wrapped : Int.bmod (value : Int) (2 ^ 32) % (2 ^ 32 : Nat) = value % (2 ^ 32 : Nat) :=
    Int.bmod_emod
  unfold toSize toLong
  omega

/-- Records of the central directory lie inside the signed bytes: `count` records
from `pos` on, each with its local header and its entry data. -/
def RecordsInside (signed : Bytes) : (count pos : Nat) → Prop
  | 0, _ => True
  | count + 1, pos =>
    let number := fun start width => (signed.slice start width).toNatLE
    let size := CENHDR + number (pos + CENNAM) 2 + number (pos + CENEXT) 2 + number (pos + CENCOM) 2
    let header := number (pos + CENOFF) 4
    let data := header + LOCHDR + number (header + LOCNAM) 2 + number (header + LOCEXT) 2
    pos + size ≤ signed.length ∧ header + LOCHDR ≤ signed.length ∧
      data + number (pos + CENSIZ) 4 ≤ signed.length ∧
      RecordsInside signed count (pos + size)

instance RecordsInside.decidable (signed : Bytes) :
    (count pos : Nat) → Decidable (RecordsInside signed count pos)
  | 0, _ => inferInstanceAs (Decidable True)
  | count + 1, pos =>
    have := RecordsInside.decidable signed count
    inferInstanceAs (Decidable (_ ∧ _ ∧ _ ∧ RecordsInside signed count (pos + _)))

/-- The central directory announced by the record at the end of the signed bytes
lies inside them, with all local headers and entry data. -/
def ContentsInside (signed : Bytes) : Prop :=
  let record := signed.length - (EOCD_HEADER_SIZE - 2)
  RecordsInside signed (signed.slice (record + ENDSUB) 2).toNatLE
    (signed.slice (record + ENDOFF) 4).toNatLE

variable {count pos : Nat}

/-- A nonempty directory starts inside the signed bytes. -/
theorem RecordsInside.directory {signed : Bytes}
    (inside : RecordsInside signed count pos) : count = 0 ∨ pos < signed.length := by
  cases count with
  | zero => exact .inl rfl
  | succ count =>
    have record := inside.1
    simp only [CENHDR] at record
    omega

instance (signed : Bytes) : Decidable (ContentsInside signed) :=
  inferInstanceAs (Decidable (RecordsInside signed _ _))

section Twins

variable {left right : MemMapping} {signed : Bytes}

theorem MemMapping.Covers.field {map : MemMapping} (covers : map.Covers signed)
    (pos offset width : Nat) (inside : pos + offset + width ≤ signed.length) :
    Minzip.getLE map width (padd (map.addr + pos) offset) =
      .ok (signed.slice (pos + offset) width).toNatLE := by
  have bound := covers.length_le
  rw [map.padd_addr _ _ (by omega), covers.getLE _ _ inside]

/-- Both mappings hold the signed bytes. -/
structure Shared (left right : MemMapping) (signed : Bytes) : Prop where
  left : left.Covers signed
  right : right.Covers signed

theorem Shared.field {α β : Type} {related : α → β → Prop} (shared : Shared left right signed)
    {pos offset width : Nat} {f : Nat → Parse α} {g : Nat → Parse β}
    (inside : pos + offset + width ≤ signed.length)
    (rest : Agree related (f (signed.slice (pos + offset) width).toNatLE)
      (g (signed.slice (pos + offset) width).toNatLE)) :
    Agree related (Minzip.getLE left width (padd (left.addr + pos) offset) >>= f)
      (Minzip.getLE right width (padd (right.addr + pos) offset) >>= g) :=
  .value (shared.left.field _ _ _ inside) (shared.right.field _ _ _ inside) rest

/-- The entries of two tables are twins. -/
abbrev Twins (left right : MemMapping) (signed : Bytes) : List ZipEntry → List ZipEntry → Prop :=
  List.Forall₂ (Twin left right signed)

variable {ls rs : List ZipEntry}

theorem Twin.getElem? (twins : Twins left right signed ls rs) (index : Nat) :
    (ls[index]? = none ∧ rs[index]? = none) ∨
      ∃ l r, ls[index]? = some l ∧ rs[index]? = some r ∧ Twin left right signed l r := by
  induction twins generalizing index with
  | nil => simp
  | @cons l r ls rs twin twins ih =>
    cases index with
    | zero => exact .inr ⟨l, r, rfl, rfl, twin⟩
    | succ index => exact ih index

theorem Twin.relativeTo_eq {l r : ZipEntry} (twin : Twin left right signed l r) :
    l.relativeTo left = r.relativeTo right := by
  obtain ⟨start, nameEq, rfl, -⟩ := twin.exists_start
  simp [ZipEntry.relativeTo, nameEq]

theorem relativeTo_map_eq (twins : Twins left right signed ls rs) :
    ls.map (ZipEntry.relativeTo left) = rs.map (ZipEntry.relativeTo right) := by
  induction twins with
  | nil => rfl
  | cons twin twins ih => simp only [map_cons, twin.relativeTo_eq, ih]

section

variable (shared : Shared left right signed) (twins : Twins left right signed ls rs)

include shared twins

/-- The binary search compares names, which both mappings hold. -/
theorem searchSlot_twin
    {start size : Nat} (inside : start + size ≤ signed.length) (fuel : Nat) (low high : Int) :
    searchSlot left ls (left.addr + start) size fuel low high =
      searchSlot right rs (right.addr + start) size fuel low high := by
  induction fuel generalizing low high with
  | zero => rfl
  | succ fuel ih =>
    unfold searchSlot
    by_cases crossed : high < low
    · simp [crossed]
    rcases Twin.getElem? twins (low + (high - low) / 2).toNat with
      ⟨leftNone, rightNone⟩ | ⟨l, r, leftSome, rightSome, ⟨nameStart, nameEq, rfl, nameIn⟩⟩
    · simp only [leftNone, rightNone]
    have shorter : (if l.fileNameLen < size then l.fileNameLen else size) ≤ size ∧
        (if l.fileNameLen < size then l.fileNameLen else size) ≤ l.fileNameLen := by
      split <;> omega
    simp only [leftSome, rightSome, nameEq, ih]
    generalize (if l.fileNameLen < size then l.fileNameLen else size) = diffLen at shorter ⊢
    rw [shared.left.getBytes _ nameStart (by omega), shared.right.getBytes _ nameStart (by omega),
      shared.left.getBytes _ start (by omega), shared.right.getBytes _ start (by omega)]

theorem findTarget_twin {start size : Nat} (inside : start + size ≤ signed.length) :
    findTarget left ls (left.addr + start) size =
      findTarget right rs (right.addr + start) size := by
  unfold findTarget
  rw [twins.length_eq, searchSlot_twin shared twins inside]

/-- One record inside the prefix is parsed alike from both mappings, and both
pointers move to the next record. -/
theorem parseEntry_twin (inside : RecordsInside signed (count + 1) pos) :
    Agree (fun l r => Twins left right signed l.1 r.1 ∧
        ∃ next, l.2 = left.addr + next ∧ r.2 = right.addr + next ∧ RecordsInside signed count next)
      (parseEntry left ls (left.addr + pos)) (parseEntry right rs (right.addr + pos)) := by
  have constants : CENHDR = 46 ∧ CENNAM = 28 ∧ CENEXT = 30 ∧ CENCOM = 32 ∧ CENOFF = 42 ∧
      CENVEM = 4 ∧ CENHOW = 10 ∧ CENTIM = 12 ∧ CENCRC = 16 ∧ CENLEN = 24 ∧ CENATX = 38 ∧
      CENSIZ = 20 ∧ LOCHDR = 30 ∧ LOCNAM = 26 ∧ LOCEXT = 28 := by decide
  have leftBound := shared.left.length_le
  have rightBound := shared.right.length_le
  have leftFits : left.addr + left.length < 2 ^ 32 := left.fits
  have rightFits : right.addr + right.length < 2 ^ 32 := right.fits
  have leftStop : left.stop = left.addr + left.length := rfl
  have rightStop : right.stop = right.addr + right.length := rfl
  unfold RecordsInside at inside
  dsimp only at inside
  generalize nameLenEq : (signed.slice (pos + CENNAM) 2).toNatLE = nameLen at inside
  generalize extraLenEq : (signed.slice (pos + CENEXT) 2).toNatLE = extraLen at inside
  generalize commentLenEq : (signed.slice (pos + CENCOM) 2).toNatLE = commentLen at inside
  generalize headerEq : (signed.slice (pos + CENOFF) 4).toNatLE = header at inside
  generalize compLenEq : (signed.slice (pos + CENSIZ) 4).toNatLE = compLen at inside
  obtain ⟨record, headerIn, data, rest⟩ := inside
  have leftName := left.padd_addr pos CENHDR (by omega)
  have rightName := right.padd_addr pos CENHDR (by omega)
  unfold parseEntry
  dsimp only
  rw [leftName, rightName]
  refine .bailIf (by omega) ?_
  refine .value (shared.left.getLE _ _ (by omega)) (shared.right.getLE _ _ (by omega)) ?_
  refine .bailIf Iff.rfl ?_
  iterate 4 refine shared.field (by omega) ?_
  rw [nameLenEq, extraLenEq, commentLenEq, headerEq]
  have leftNameEnd := left.padd_addr (pos + CENHDR) (nameLen) (by omega)
  have rightNameEnd := right.padd_addr (pos + CENHDR) (nameLen) (by omega)
  rw [leftNameEnd, rightNameEnd]
  refine .bailIf (by omega) ?_
  refine .value (shared.left.validFilenameAt _ _ (by omega))
    (shared.right.validFilenameAt _ _ (by omega)) ?_
  refine .bailIf Iff.rfl ?_
  refine .same (findTarget_twin shared twins (by omega)) fun target => ?_
  iterate 6 refine shared.field (by omega) ?_
  refine .bailIf Iff.rfl ?_
  refine shared.field (by omega) ?_
  refine .bailIf (by omega) ?_
  have leftHeader := left.padd_addr header LOCHDR (by omega)
  have rightHeader := right.padd_addr header LOCHDR (by omega)
  rw [leftHeader, rightHeader]
  refine .bailIf (by omega) ?_
  refine .value (shared.left.getLE _ _ (by omega)) (shared.right.getLE _ _ (by omega)) ?_
  refine .bailIf Iff.rfl ?_
  refine shared.field (by omega) ?_
  refine shared.field (by omega) ?_
  refine .bailIf Iff.rfl ?_
  rw [compLenEq, toSize_toLong (by omega), toSize_toLong (by omega)]
  refine .bailIf (by unfold padd; omega) ?_
  have leftNext := left.padd_addr pos (CENHDR + nameLen + extraLen + commentLen) (by omega)
  have rightNext := right.padd_addr pos (CENHDR + nameLen + extraLen + commentLen) (by omega)
  refine .ok ⟨?_, _, leftNext, rightNext, rest⟩
  refine rel_append (forall₂_take target twins) (.cons ?_ (forall₂_drop target twins))
  refine ⟨pos + CENHDR, ?_, ?_, ?_⟩ <;> dsimp only
  omega

theorem parseEntries_twin (inside : RecordsInside signed count pos) :
    Agree (Twins left right signed) (parseEntries left count ls (left.addr + pos))
      (parseEntries right count rs (right.addr + pos)) := by
  induction count generalizing ls rs pos with
  | zero => exact .ok twins
  | succ count ih =>
    refine .bind (parseEntry_twin shared twins inside) ?_
    rintro ⟨nextLs, _⟩ ⟨nextRs, _⟩ ⟨nextTwins, next, rfl, rfl, nextInside⟩
    exact ih nextTwins nextInside

theorem names_twin : (ls.mapM fun entry => getBytes left entry.fileNameLen entry.fileName) =
      rs.mapM fun entry => getBytes right entry.fileNameLen entry.fileName := by
  induction twins with
  | nil => rfl
  | cons twin twins ih =>
    obtain ⟨start, nameEq, rfl, inside⟩ := twin.exists_start
    simp only [mapM_cons, nameEq, shared.left.getBytes _ _ inside, shared.right.getBytes _ _ inside, ih]

end

/-- The checked record ends the signed prefix, short of its comment length field. -/
theorem eocdStart_of_signed {file : Bytes} (layout : Layout file)
    (isSigned : signedPrefix file = signed) :
    20 ≤ signed.length ∧ eocdStart file = signed.length - (EOCD_HEADER_SIZE - 2) := by
  have total := layout.signedLen_eq
  have length : signed.length = signedLen file := by
    rw [← isSigned, signedPrefix, length_take]
    omega
  simp only [signedLen, EOCD_HEADER_SIZE] at *
  omega

/-- Two accepted mappings of one signed prefix are parsed into the same table. -/
theorem parseZipArchive_twin (leftLayout : Layout left.data) (rightLayout : Layout right.data)
    (leftSigned : signedPrefix left.data = signed) (rightSigned : signedPrefix right.data = signed)
    (inside : ContentsInside signed) : Agree (fun l r => l.relativeTo left = r.relativeTo right)
      (parseZipArchive left) (parseZipArchive right) := by
  have constants : ENDSUB = 8 ∧ ENDOFF = 16 ∧ EOCD_HEADER_SIZE = 22 := by decide
  have shared : Shared left right signed :=
    ⟨leftSigned ▸ take_prefix _ _, rightSigned ▸ take_prefix _ _⟩
  have leftStart := eocdStart_of_signed leftLayout leftSigned
  have rightStart := eocdStart_of_signed rightLayout rightSigned
  have leftBound := shared.left.length_le
  have rightBound := shared.right.length_le
  unfold ContentsInside at inside
  dsimp only at inside
  refine .value (shared.left.getLE _ 0 (by omega)) (shared.right.getLE _ 0 (by omega)) ?_
  refine .bailIf Iff.rfl ?_
  refine .bailIf Iff.rfl ?_
  rw [findEOCD_of_layout left leftLayout, findEOCD_of_layout right rightLayout,
    leftStart.2, rightStart.2]
  change Agree _ (get2LE left _ >>= _) (get2LE right _ >>= _)
  refine shared.field (by omega) ?_
  refine shared.field (by omega) ?_
  generalize (signed.slice (signed.length - (EOCD_HEADER_SIZE - 2) + ENDSUB) 2).toNatLE =
    numEntries at inside ⊢
  generalize (signed.slice (signed.length - (EOCD_HEADER_SIZE - 2) + ENDOFF) 4).toNatLE =
    cdOffset at inside ⊢
  have directory := inside.directory
  refine .bailIf (by omega) ?_
  refine .bind (parseEntries_twin shared .nil inside) fun ls rs twins => ?_
  refine .same (names_twin shared twins) fun names => ?_
  cases addEntriesToHashTable names with
  | none => exact .error .fault
  | some pHash =>
    refine .ok ?_
    simp only [ZipArchive.relativeTo, relativeTo_map_eq twins]

end Twins

/-- What is installed is what was signed.  The scan of the parser stops at the
record that the verifier has checked, and two accepted files with the same signed
bytes, which hold the whole directory and its contents, give the same table
whatever their comments contain. -/
theorem parse_determined_by_signed {Key : Type} (crypto : Crypto Key)
    (leftKeys rightKeys : List (Certificate Key)) (left right : MemMapping)
    (leftAccepted : verifyFile crypto left.data leftKeys = .success)
    (rightAccepted : verifyFile crypto right.data rightKeys = .success) :
    findEOCD left (left.length - ENDHDR) = .ok (left.addr + eocdStart left.data) ∧
      (signedPrefix left.data = signedPrefix right.data → ContentsInside (signedPrefix left.data) →
        (parseZipArchive left).map (ZipArchive.relativeTo left) =
          (parseZipArchive right).map (ZipArchive.relativeTo right)) := by
  have leftLayout := layout_of_success leftAccepted
  have rightLayout := layout_of_success rightAccepted
  refine ⟨findEOCD_of_layout left leftLayout, fun same inside => ?_⟩
  have agree := parseZipArchive_twin leftLayout rightLayout rfl same.symm inside
  generalize parseZipArchive left = l at agree ⊢
  generalize parseZipArchive right = r at agree ⊢
  cases agree with
  | ok equal => exact congrArg Except.ok equal
  | error stop => rfl

/-- An archive with one stored, empty entry `a`, signed, with `comment` in front of
the signature. -/
def sampleFile (comment : Bytes) : Bytes :=
  ofNatLE 4 LOCSIG ++ replicate 22 0 ++ [1, 0, 0, 0, 0x61] ++
    ofNatLE 4 CENSIG ++ replicate 24 0 ++ [1] ++ replicate 17 0 ++ [0x61] ++
    ofNatLE 4 ENDSIG ++ [0, 0, 0, 0, 1, 0, 1, 0] ++ ofNatLE 4 47 ++
    ofNatLE 4 31 ++ ofNatLE 2 (comment.length + 262) ++
    comment ++ replicate 256 7 ++ ofNatLE 2 262 ++ [0xff, 0xff] ++
    ofNatLE 2 (comment.length + 262)

/-- A stand-in for the signature scheme: a signature repeats the key byte. -/
def sampleCrypto : Crypto UInt8 where
  sha1 := fun bytes => ofNatLE 20 bytes.toNatLE
  sha256 := fun bytes => ofNatLE 32 bytes.toNatLE
  rsaVerify := fun key signature _ => signature == replicate RSANUMBYTES key

/-- The sample with nothing in front of the signature. -/
def sampleLeft : MemMapping where
  addr := 4096
  data := sampleFile []
  fits := by decide +kernel

/-- The sample with the beginning of a marker in front of the signature. -/
def sampleRight : MemMapping where
  addr := 65536
  data := sampleFile [0x50, 0x4b, 0x05]
  fits := by decide +kernel

theorem parse_determined_by_signed_sample :
    verifyFile sampleCrypto sampleLeft.data [⟨20, 7⟩] = .success ∧
      verifyFile sampleCrypto sampleRight.data [⟨32, 9⟩, ⟨32, 7⟩] = .success ∧
      (parseZipArchive sampleLeft).map (ZipArchive.relativeTo sampleLeft) =
        (parseZipArchive sampleRight).map (ZipArchive.relativeTo sampleRight) := by
  have leftAccepted : verifyFile sampleCrypto sampleLeft.data [⟨20, 7⟩] = .success := by
    decide +kernel
  have rightAccepted : verifyFile sampleCrypto sampleRight.data [⟨32, 9⟩, ⟨32, 7⟩] = .success := by
    decide +kernel
  refine ⟨leftAccepted, rightAccepted, ?_⟩
  exact (parse_determined_by_signed sampleCrypto [⟨20, 7⟩] [⟨32, 9⟩, ⟨32, 7⟩]
    sampleLeft sampleRight leftAccepted rightAccepted).2 (by decide +kernel) (by decide +kernel)

end PhilzTouch.Minzip
