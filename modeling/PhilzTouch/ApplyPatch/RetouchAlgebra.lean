import PhilzTouch.ApplyPatch.StorageSpec
import PhilzTouch.Lib.CText
import PhilzTouch.Lib.Overwrite

/-!
# Shifting retouched words

The entries of a binary stand between the words and the trailer, so that putting the words to an
offset changes neither what is decoded nor what is found at the end.
-/

namespace PhilzTouch.ApplyPatch

open Places List

/-! ## Binaries whose entries can be decoded -/

/-- The entries from a position up to the trailer. -/
inductive Decodes (data : Bytes) (rOffs : Nat) : (ptr : Nat) → Decoder → List Decoder → Prop
  | done {previous : Decoder} : Decodes data rOffs rOffs previous []
  | entry {ptr : Nat} {previous : Decoder} {entries : List Decoder} (inside : ptr < rOffs)
      (rest : Decodes data rOffs (ptr + entrySize (entryByte data ptr)) (entryAt data ptr previous)
        entries) :
      Decodes data rOffs ptr previous (entryAt data ptr previous :: entries)

/-- An entry whose word is `mmap_addr`, or stands before the entries. -/
def EntryInside (bOffs : Nat) (entry : Decoder) : Prop :=
  entry.offset = -1 ∨ 0 ≤ entry.offset ∧ entry.offset + 4 ≤ bOffs

/-- A binary with both trailers and with entries, whose words do not meet. -/
structure Retouchable (data : Bytes) (bOffs : Nat) (entries : List Decoder) : Prop where
  fits : data.length < 2 ^ 31
  trailer : hasRetouchTrailer data = true
  blob : bOffs + (data.slice (data.length - 20 + 8) 4).toNatLE = data.length - 20
  decodes : Decodes data (data.length - 20) bOffs ⟨0, 0⟩ entries
  nonempty : entries ≠ []
  inside : ∀ entry ∈ entries, EntryInside bOffs entry
  apart : entries.Pairwise fun left right =>
    Apart 4 (entryPlace (data.length - 20) left) (entryPlace (data.length - 20) right)

/-! ## Words and shifts -/

@[simp] theorem length_shifted (shift : Int) (entry : Decoder) : (shifted shift entry).length = 4 :=
  Bytes.length_ofNatLE _ _

variable {entry : Decoder}

/-- The shift is inferred from a word that holds it. -/
theorem entryShift_of_shifted {rOffs : Nat} {data : Bytes} {shift : Int} (low : -2 ^ 31 ≤ shift)
    (high : shift < 2 ^ 31) (word : data.slice (entryPlace rOffs entry) 4 = shifted shift entry) :
    entryShift rOffs entry data = shift := by
  have value : ((shifted shift entry).toNatLE : Int) = (entry.contents + shift) % 2 ^ 32 := by
    rw [shifted, Bytes.toNatLE_ofNatLE]
    omega
  rw [entryShift, word, value, wrap, Int.bmod_def]
  omega

/-- A word that is put to an offset shows it. -/
theorem entryShift_applyEntry {rOffs : Nat} {data : Bytes} {shift : Int} (low : -2 ^ 31 ≤ shift)
    (high : shift < 2 ^ 31) (fits : entryPlace rOffs entry + 4 ≤ data.length) :
    entryShift rOffs entry (applyEntry (some shift) rOffs entry data) = shift := by
  rw [← length_shifted shift entry] at fits
  have word := read_write fits
  rw [length_shifted] at word
  exact entryShift_of_shifted low high word

/-! ## The entries stay -/

section Entries

variable {bOffs rOffs ptr fuel : Nat} {previous : Decoder} {entries : List Decoder}
  {origin data : Bytes} {shift : Int} {desired candidate : Option Int}

/-- Two binaries with the same entries and the same trailer, up to `mmap_addr`. -/
structure SameEntries (bOffs rOffs : Nat) (origin data : Bytes) : Prop where
  length : data.length = origin.length
  bytes : ∀ index, bOffs ≤ index → index < rOffs + 12 → data[index]? = origin[index]?

/-- What the trailer and the entries hold is left alone, up to `mmap_addr`. -/
structure Untouched (bOffs rOffs : Nat) (origin data : Bytes) : Prop where
  length : data.length = origin.length
  bytes : ∀ position, bOffs ≤ position → (position < rOffs + 12 ∨ rOffs + 16 ≤ position) →
    data[position]? = origin[position]?

/-- A word of an entry ends before the entries, or it is `mmap_addr`. -/
theorem EntryInside.place (inside : EntryInside bOffs entry) (rOffs : Nat) :
    entryPlace rOffs entry + 4 ≤ bOffs ∨ entryPlace rOffs entry = rOffs + 12 := by
  unfold entryPlace
  rcases inside with last | ⟨low, high⟩
  · exact .inr (if_pos last)
  · rw [if_neg (by omega)]
    omega

theorem untouched_applyEntry (inside : desired = none ∨ EntryInside bOffs entry)
    (order : bOffs ≤ rOffs) (size : rOffs + 20 = data.length) :
    Untouched bOffs rOffs data (applyEntry desired rOffs entry data) := by
  cases desired with
  | none => exact ⟨rfl, fun _ _ _ => rfl⟩
  | some shift =>
    have place := (inside.resolve_left nofun).place rOffs
    have fits : entryPlace rOffs entry + (shifted shift entry).length ≤ data.length := by
      rw [length_shifted]
      omega
    refine ⟨length_write fits, fun position low away => (getElem?_write fits position).trans ?_⟩
    rw [length_shifted, if_neg (by omega)]

theorem entrySize_le (first : Nat) : 2 ≤ entrySize first ∧ entrySize first ≤ 8 := by
  unfold entrySize
  split
  · omega
  · split <;> omega

theorem decodeBytes_congr {input input' : Nat → Nat} (same : ∀ index < 8, input index = input' index) :
    decodeBytes previous input = decodeBytes previous input' := by
  unfold decodeBytes
  simp only [same 0 (by decide), same 1 (by decide), same 2 (by decide), same 3 (by decide),
    same 4 (by decide), same 5 (by decide), same 6 (by decide), same 7 (by decide)]

section

variable (same : SameEntries bOffs rOffs origin data)

include same

theorem SameEntries.applyEntry
    (inside : EntryInside bOffs entry) (order : bOffs ≤ rOffs) (size : rOffs + 20 = origin.length) :
    SameEntries bOffs rOffs origin (applyEntry desired rOffs entry data) := by
  have kept := @untouched_applyEntry entry bOffs rOffs data desired (.inr inside) order
    (size.trans same.length.symm)
  refine ⟨kept.length.trans same.length, fun index low high => ?_⟩
  exact (kept.bytes index low (.inl high)).trans (same.bytes index low high)

theorem SameEntries.entryByte {position : Nat}
    (low : bOffs ≤ position) (high : position < rOffs + 12) :
    entryByte data position = entryByte origin position := by
  unfold ApplyPatch.entryByte
  rw [same.bytes position low high]

theorem SameEntries.entryAt (low : bOffs ≤ ptr)
    (high : ptr < rOffs) : entryAt data ptr previous = entryAt origin ptr previous :=
  decodeBytes_congr fun index small => same.entryByte (by omega) (by omega)

theorem retouchLoop_step (low : bOffs ≤ ptr)
    (high : ptr < rOffs) (inside : EntryInside bOffs (entryAt origin ptr previous))
    (found : entryShift rOffs (entryAt origin ptr previous)
      (applyEntry desired rOffs (entryAt origin ptr previous) data) = shift)
    (known : candidate = none ∨ candidate = some shift) :
    retouchLoop desired bOffs rOffs (fuel + 1) ptr previous data candidate false =
      retouchLoop desired bOffs rOffs fuel (ptr + entrySize (entryByte origin ptr))
        (entryAt origin ptr previous)
        (applyEntry desired rOffs (entryAt origin ptr previous) data) (some shift) false := by
  have accepted : ¬ ((entryAt origin ptr previous).offset < -1 ∨
      bOffs ≤ (entryAt origin ptr previous).offset) := by
    rcases inside with last | ⟨low, high⟩ <;> omega
  rw [retouchLoop, if_pos high, same.entryAt low high, same.entryByte low (by omega)]
  dsimp only
  rw [if_neg accepted, found]
  rcases known with rfl | rfl
  · rfl
  · simp

end

theorem retouchLoop_done :
    retouchLoop desired bOffs rOffs (fuel + 1) rOffs previous data candidate false =
      ⟨.matched, data, candidate.getD (desired.getD 0)⟩ := by
  simp [retouchLoop]

theorem Decodes.found {next : Nat} (inside : ptr < rOffs)
    (found : entryAt data ptr previous = entry)
    (after : ptr + entrySize (entryByte data ptr) = next)
    (rest : Decodes data rOffs next entry entries) :
    Decodes data rOffs ptr previous (entry :: entries) := by
  subst found after
  exact .entry inside rest

theorem Decodes.le (decodes : Decodes data rOffs ptr previous entries) : ptr ≤ rOffs := by
  cases decodes with
  | done => exact le_rfl
  | entry inside rest => exact le_of_lt inside

theorem SameEntries.decodes (same : SameEntries bOffs rOffs origin data) (start : bOffs ≤ ptr)
    (decodes : Decodes origin rOffs ptr previous entries) :
    Decodes data rOffs ptr previous entries := by
  induction decodes with
  | done => exact .done
  | @entry ptr previous entries before rest ih =>
    rw [← same.entryAt start before]
    refine .entry before ?_
    rw [same.entryAt start before, same.entryByte start (by omega)]
    exact ih (by omega)

section

variable (decodes : Decodes origin rOffs ptr previous entries) (low : -2 ^ 31 ≤ shift)
  (high : shift < 2 ^ 31)

include decodes low high

theorem retouchLoop_applies (order : bOffs ≤ rOffs)
    (size : rOffs + 20 = origin.length) (inside : ∀ entry ∈ entries, EntryInside bOffs entry)
    (start : bOffs ≤ ptr) (enough : rOffs < ptr + fuel) (same : SameEntries bOffs rOffs origin data)
    (known : candidate = none ∨ candidate = some shift) :
    retouchLoop (some shift) bOffs rOffs fuel ptr previous data candidate false =
      ⟨.matched, writeAll (entryPlace rOffs) (shifted shift) entries data, shift⟩ := by
  induction decodes generalizing fuel data candidate with
  | done =>
    obtain ⟨fuel, rfl⟩ : ∃ less, fuel = less + 1 := ⟨fuel - 1, by omega⟩
    rw [retouchLoop_done]
    rcases known with rfl | rfl <;> rfl
  | @entry ptr previous entries before rest ih =>
    obtain ⟨fuel, rfl⟩ : ∃ less, fuel = less + 1 := ⟨fuel - 1, by have := rest.le; omega⟩
    have here := inside _ mem_cons_self
    have fits : entryPlace rOffs (entryAt origin ptr previous) + 4 ≤ data.length := by
      have := here.place rOffs
      rw [same.length]
      omega
    rw [retouchLoop_step same start before here (entryShift_applyEntry low high fits) known]
    have advance := (entrySize_le (entryByte origin ptr)).1
    exact ih (forall_mem_cons.mp inside).2 (by omega) (by omega)
      (same.applyEntry here order size) (.inr rfl)

theorem retouchLoop_infers (inside : ∀ entry ∈ entries, EntryInside bOffs entry)
    (words : ∀ entry ∈ entries, data.slice (entryPlace rOffs entry) 4 = shifted shift entry)
    (start : bOffs ≤ ptr) (enough : rOffs < ptr + fuel) (same : SameEntries bOffs rOffs origin data)
    (known : candidate = none ∧ entries ≠ [] ∨ candidate = some shift) :
    retouchLoop none bOffs rOffs fuel ptr previous data candidate false =
      ⟨.matched, data, shift⟩ := by
  induction decodes generalizing fuel candidate with
  | done =>
    obtain ⟨fuel, rfl⟩ : ∃ less, fuel = less + 1 := ⟨fuel - 1, by omega⟩
    rw [retouchLoop_done]
    rcases known with ⟨_, empty⟩ | rfl
    · exact absurd rfl empty
    · rfl
  | @entry ptr previous entries before rest ih =>
    obtain ⟨fuel, rfl⟩ : ∃ less, fuel = less + 1 := ⟨fuel - 1, by have := rest.le; omega⟩
    have found : entryShift rOffs (entryAt origin ptr previous)
        (applyEntry none rOffs (entryAt origin ptr previous) data) = shift :=
      entryShift_of_shifted low high (words _ mem_cons_self)
    rw [retouchLoop_step same start before (inside _ mem_cons_self) found (known.imp And.left id)]
    have advance := (entrySize_le (entryByte origin ptr)).1
    exact ih (forall_mem_cons.mp inside).2 (forall_mem_cons.mp words).2 (by omega) (by omega)
      (.inr rfl)

end

end Entries

/-! ## Whole calls -/

section Calls

variable {data : Bytes} {bOffs : Nat} {entries : List Decoder} {shift : Int}
  (valid : Retouchable data bOffs entries)

include valid

theorem Retouchable.size : data.length - 20 + 20 = data.length := by
  have trailer := valid.trailer
  simp only [hasRetouchTrailer, Bool.and_eq_true, decide_eq_true_eq] at trailer
  omega

theorem Retouchable.order : bOffs ≤ data.length - 20 := by
  have := valid.blob
  omega

/-- With both trailers the loop starts at the first entry. -/
theorem Retouchable.call (desired : Option Int) : retouchMaskData data desired =
      retouchLoop desired bOffs (data.length - 20) (data.length - 20 + 1) bOffs ⟨0, 0⟩ data none
        false := by
  have fits := valid.fits
  have blob := valid.blob
  have start : wrap ((data.length - 20 : Nat) -
      ((data.slice (data.length - 20 + 8) 4).toNatLE : Nat)) = bOffs := by
    rw [wrap_eq (by omega) (by omega)]
    omega
  rw [retouchMaskData, if_pos valid.trailer]
  dsimp only
  rw [start, if_neg (by omega), Int.toNat_natCast]

/-- The binary after a call with a desired offset. -/
def shiftAll (shift : Int) (entries : List Decoder) (data : Bytes) : Bytes :=
  writeAll (entryPlace (data.length - 20)) (shifted shift) entries data

theorem Retouchable.places :
    Places.Inside (entryPlace (data.length - 20)) 4 entries data.length := by
  intro entry member
  have := (valid.inside entry member).place (data.length - 20)
  have := valid.order
  have := valid.size
  omega

theorem Retouchable.applies (low : -2 ^ 31 ≤ shift) (high : shift < 2 ^ 31) :
    retouchMaskData data (some shift) = ⟨.matched, shiftAll shift entries data, shift⟩ := by
  rw [valid.call]
  exact retouchLoop_applies valid.decodes low high valid.order valid.size valid.inside
    le_rfl (by have := valid.order; omega) ⟨rfl, fun _ _ _ => rfl⟩ (.inl rfl)

theorem Retouchable.length_shiftAll : (shiftAll shift entries data).length = data.length :=
  length_writeAll (length_shifted shift) valid.places

/-- From the entries on, only `mmap_addr` changes. -/
theorem Retouchable.getElem?_shiftAll {index : Nat} (low : bOffs ≤ index)
    (away : index < data.length - 20 + 12 ∨ data.length - 20 + 16 ≤ index) :
    (shiftAll shift entries data)[index]? = data[index]? := by
  refine getElem?_writeAll (length_shifted shift) valid.places fun entry member => ?_
  have := (valid.inside entry member).place (data.length - 20)
  omega

theorem Retouchable.same :
    SameEntries bOffs (data.length - 20) data (shiftAll shift entries data) :=
  ⟨valid.length_shiftAll, fun _ low high => valid.getElem?_shiftAll low (.inl high)⟩

theorem Retouchable.slice_shiftAll {start count : Nat} (low : bOffs ≤ start)
    (away : start + count ≤ data.length - 20 + 12 ∨ data.length - 20 + 16 ≤ start) :
    (shiftAll shift entries data).slice start count = data.slice start count := by
  apply ext_getElem?
  intro index
  simp only [Bytes.slice, getElem?_take, getElem?_drop]
  by_cases within : index < count
  · rw [if_pos within, if_pos within]
    exact valid.getElem?_shiftAll (by omega) (by omega)
  · rw [if_neg within, if_neg within]

omit valid in
theorem hasRetouchTrailer_iff : hasRetouchTrailer data = true ↔ 20 ≤ data.length ∧
      data.slice (data.length - 20) 8 = [0x52, 0x45, 0x54, 0x4F, 0x55, 0x43, 0x48, 0x20] ∧
      data.slice (data.length - 4) 4 = [0x50, 0x52, 0x45, 0x20] := by
  simp only [hasRetouchTrailer, Bool.and_eq_true, decide_eq_true_eq, Bytes.slice, and_assoc]
  refine and_congr_right fun long => and_congr_right fun _ => ?_
  rw [take_of_length_le (by rw [length_drop]; omega)]

theorem Retouchable.shiftAll : Retouchable (shiftAll shift entries data) bOffs entries := by
  have length := @Retouchable.length_shiftAll data bOffs entries shift valid
  have order := valid.order
  have size := valid.size
  obtain ⟨long, retouch, prelink⟩ := hasRetouchTrailer_iff.mp valid.trailer
  constructor
  · rw [length]
    exact valid.fits
  · rw [hasRetouchTrailer_iff, length, valid.slice_shiftAll order (by omega),
      valid.slice_shiftAll (by omega) (by omega)]
    exact ⟨long, retouch, prelink⟩
  · rw [length, valid.slice_shiftAll (by omega) (by omega)]
    exact valid.blob
  · rw [length]
    exact valid.same.decodes le_rfl valid.decodes
  · exact valid.nonempty
  · exact valid.inside
  · rw [length]
    exact valid.apart

theorem Retouchable.infers (low : -2 ^ 31 ≤ shift) (high : shift < 2 ^ 31) :
    retouchMaskData (ApplyPatch.shiftAll shift entries data) none =
      ⟨.matched, ApplyPatch.shiftAll shift entries data, shift⟩ := by
  have length := @Retouchable.length_shiftAll data bOffs entries shift valid
  rw [(@Retouchable.shiftAll data bOffs entries shift valid).call, length]
  exact retouchLoop_infers valid.decodes low high valid.inside
    (read_writeAll (length_shifted shift) valid.places valid.apart) le_rfl
    (by have := valid.order; omega) valid.same (.inl ⟨rfl, valid.nonempty⟩)

end Calls

/-- Applying an offset succeeds, the offset can be inferred afterwards, and another one applied
after it gives what that one alone gives. -/
theorem retouchMaskData_algebra (data : Bytes) (bOffs : Nat) (entries : List Decoder)
    (valid : Retouchable data bOffs entries) (k j : Int32) :
    (retouchMaskData data (some k.toInt)).result = .matched ∧
      (retouchMaskData (retouchMaskData data (some k.toInt)).data none).result = .matched ∧
      (retouchMaskData (retouchMaskData data (some k.toInt)).data none).offset = k.toInt ∧
      (retouchMaskData (retouchMaskData data (some k.toInt)).data (some j.toInt)).data =
        (retouchMaskData data (some j.toInt)).data := by
  have lowK := k.le_toInt
  have highK := k.toInt_lt
  have lowJ := j.le_toInt
  have highJ := j.toInt_lt
  rw [valid.applies lowK highK, valid.applies lowJ highJ]
  rw [valid.infers lowK highK, (@Retouchable.shiftAll data bOffs entries k.toInt valid).applies
    lowJ highJ]
  refine ⟨rfl, rfl, rfl, ?_⟩
  have length := @Retouchable.length_shiftAll data bOffs entries k.toInt valid
  unfold shiftAll at length ⊢
  rw [length]
  exact writeAll_writeAll (length_shifted _) valid.places (length_shifted _) valid.apart

/-- A word at offset 0 and `mmap_addr`, each with an entry of eight bytes. -/
def twoWords : Bytes :=
  [0, 0, 0, 0] ++ [0, 0, 0, 0, 0, 0, 0, 16] ++ [0x3f, 0xff, 0xff, 0xff, 0, 0, 0, 5] ++
    ascii "RETOUCH " ++ [16, 0, 0, 0] ++ [0, 0, 0, 0] ++ ascii "PRE "

theorem twoWords_retouchable : Retouchable twoWords 4 [⟨0, 16⟩, ⟨-1, 5⟩] where
  fits := by decide
  trailer := by decide +kernel
  blob := by decide +kernel
  decodes := .found (by decide) (by decide +kernel) (by decide +kernel : 4 + _ = 12)
    (.found (by decide) (by decide +kernel) (by decide +kernel : 12 + _ = 20) .done)
  nonempty := nofun
  inside := by simp [EntryInside]
  apart := by simp [Apart, entryPlace]

theorem retouchMaskData_algebra_twoWords :
    (retouchMaskData (retouchMaskData twoWords (some (-3))).data none).offset = -3 :=
  (retouchMaskData_algebra twoWords 4 [⟨0, 16⟩, ⟨-1, 5⟩] twoWords_retouchable (-3) 7).2.2.1

end PhilzTouch.ApplyPatch
