import PhilzTouch.ApplyPatch.RetouchAlgebra
import PhilzTouch.Lib.Traced

/-!
# The footprint of retouching

`retouch_mask_data` with the ranges of the binary that it reads and writes.  An entry is accepted
if its word begins before the entries do; its last bytes may lie among them.
-/

namespace PhilzTouch.ApplyPatch

open Places List Traced

/-- A range of the binary. -/
inductive RetouchAccess where
  | read (start count : Nat)
  | write (start count : Nat)
  deriving DecidableEq, Repr

/-- Reads stay in the binary.  Writes stay before the entries, or in the four bytes of
`mmap_addr`. -/
def RetouchAccess.Allowed (size blob mmap : Nat) : RetouchAccess → Prop
  | .read start count => start + count ≤ size
  | .write start count => ∀ position, start ≤ position → position < start + count →
      position < blob ∨ mmap ≤ position ∧ position < mmap + 4

/-! ## The source -/

def entryStore (desired : Option Int) (place : Nat) : List RetouchAccess :=
  match desired with
  | none => []
  | some _ => [.write place 4]

/-- The loop over the entries. -/
def retouchLoopCalls (desired : Option Int) (bOffs rOffs : Nat) :
    (fuel ptr : Nat) → Decoder → Bytes → (candidate : Option Int) → (mismatch : Bool) →
      Traced RetouchAccess Empty RetouchOutcome
  | 0, _, _, data, _, _ => pure ⟨.error, data, desired.getD 0⟩
  | fuel + 1, ptr, previous, data, candidate, mismatch =>
    if ptr < rOffs then do
      .touch [.read ptr (entrySize (entryByte data ptr))]
      let entry := entryAt data ptr previous
      if entry.offset < -1 ∨ bOffs ≤ entry.offset then pure ⟨.error, data, desired.getD 0⟩
      else do
        let place := entryPlace rOffs entry
        .touch (entryStore desired place ++ [.read place 4])
        let after := applyEntry desired rOffs entry data
        let offset := entryShift rOffs entry after
        retouchLoopCalls desired bOffs rOffs fuel (ptr + entrySize (entryByte data ptr)) entry
          after (some (candidate.getD offset)) (mismatch || candidate.any (· ≠ offset))
    else if rOffs < ptr then pure ⟨.error, data, desired.getD 0⟩
    else if mismatch then pure ⟨.mismatched, data, desired.getD 0⟩
    else pure ⟨.matched, data, candidate.getD (desired.getD 0)⟩

/-- `b_offs`. -/
def blobStart (data : Bytes) : Int :=
  wrap ((data.length - 20 : Nat) - ((data.slice (data.length - 20 + 8) 4).toNatLE : Nat))

/-- `retouch_mask_data`. -/
def retouchMaskCalls (data : Bytes) (desired : Option Int) :
    Traced RetouchAccess Empty RetouchOutcome :=
  let plain := ⟨if desired.isNone then .notApplicable else .matched, data, desired.getD 0⟩
  if data.length < 20 then pure plain
  else do
    let rOffs := data.length - 20
    .touch [.read (data.length - 4) 4, .read rOffs 8]
    if hasRetouchTrailer data then do
      .touch [.read (rOffs + 8) 4]
      let bOffs := blobStart data
      if bOffs < 0 then pure ⟨.error, data, desired.getD 0⟩
      else retouchLoopCalls desired bOffs.toNat rOffs (rOffs + 1) bOffs.toNat ⟨0, 0⟩ data none false
    else pure plain

/-! ## The calls compute what the model without them does -/

section Results

variable {desired candidate : Option Int} {bOffs rOffs fuel ptr : Nat} {previous : Decoder}
  {data : Bytes} {mismatch : Bool}

theorem retouchLoopCalls_result :
    (retouchLoopCalls desired bOffs rOffs fuel ptr previous data candidate mismatch).result =
      .ok (retouchLoop desired bOffs rOffs fuel ptr previous data candidate mismatch) := by
  induction fuel generalizing ptr previous data candidate mismatch with
  | zero => rfl
  | succ fuel ih =>
    rw [retouchLoopCalls, retouchLoop]
    split
    · rw [touch_then_result]
      dsimp only
      split
      · rfl
      · rw [touch_then_result]
        exact ih
    · split
      · rfl
      · split <;> rfl

theorem retouchMaskCalls_result :
    (retouchMaskCalls data desired).result = .ok (retouchMaskData data desired) := by
  rw [retouchMaskCalls, retouchMaskData]
  by_cases short : data.length < 20
  · have plain : hasRetouchTrailer data = false := by
      simp only [hasRetouchTrailer, Bool.and_eq_false_iff, decide_eq_false_iff_not]
      exact .inl (.inl (by omega))
    rw [if_pos short, plain]
    rfl
  rw [if_neg short, touch_then_result]
  split
  · rw [touch_then_result]
    change (ite _ _ _ : Traced RetouchAccess Empty _).result =
      .ok (if blobStart data < 0 then _ else _)
    split
    · rfl
    · exact retouchLoopCalls_result
  · rfl

end Results

/-! ## Entries that are reached -/

/-- The positions at which entries are decoded, with the entry before, as long as all entries are
accepted. -/
inductive Reached (data : Bytes) (bOffs rOffs : Nat) : (ptr : Nat) → Decoder → Prop where
  | start : Reached data bOffs rOffs bOffs ⟨0, 0⟩
  | next {ptr : Nat} {previous : Decoder} : Reached data bOffs rOffs ptr previous → ptr < rOffs →
      ¬ ((entryAt data ptr previous).offset < -1 ∨ bOffs ≤ (entryAt data ptr previous).offset) →
      Reached data bOffs rOffs (ptr + entrySize (entryByte data ptr)) (entryAt data ptr previous)

/-- The word of an entry begins before the entries and ends among them. -/
def Straddles (bOffs : Nat) (entry : Decoder) : Prop :=
  0 ≤ entry.offset ∧ entry.offset < bOffs ∧ bOffs < entry.offset + 4

/-- No store reaches into the entries: there is no trailer or no entry, or nothing is to be
stored, or no entry that is reached straddles their start. -/
def StoresClear (data : Bytes) (desired : Option Int) : Prop :=
  desired = none ∨ (hasRetouchTrailer data = true → 0 ≤ blobStart data →
    ∀ ptr previous, Reached data (blobStart data).toNat (data.length - 20) ptr previous →
      ptr < data.length - 20 → ¬ Straddles (blobStart data).toNat (entryAt data ptr previous))

section Loop

variable {desired candidate : Option Int} {bOffs rOffs fuel ptr : Nat} {previous : Decoder}
  {origin data : Bytes} {mismatch : Bool}

theorem Untouched.same (kept : Untouched bOffs rOffs origin data) :
    SameEntries bOffs rOffs origin data :=
  ⟨kept.length, fun position low high => kept.bytes position low (.inl high)⟩

variable {entry : Decoder}

theorem Untouched.applyEntry (kept : Untouched bOffs rOffs origin data)
    (inside : desired = none ∨ EntryInside bOffs entry) (order : bOffs ≤ rOffs)
    (size : rOffs + 20 = origin.length) :
    Untouched bOffs rOffs origin (applyEntry desired rOffs entry data) := by
  have more := untouched_applyEntry inside order (size.trans kept.length.symm)
  refine ⟨more.length.trans kept.length, fun position low away => ?_⟩
  exact (more.bytes position low away).trans (kept.bytes position low away)

/-- An entry that is accepted lies clear of the entries, unless it straddles their start. -/
theorem entryInside_of_accepted (accepted : ¬ (entry.offset < -1 ∨ bOffs ≤ entry.offset))
    (clear : ¬ Straddles bOffs entry) : EntryInside bOffs entry := by
  unfold Straddles at clear
  unfold EntryInside
  omega

theorem retouchLoopCalls_next (same : SameEntries bOffs rOffs origin data) (low : bOffs ≤ ptr)
    (high : ptr < rOffs) (accepted : ¬ ((entryAt origin ptr previous).offset < -1 ∨
      bOffs ≤ (entryAt origin ptr previous).offset)) : ∃ candidate' mismatch',
      (retouchLoopCalls desired bOffs rOffs (fuel + 1) ptr previous data candidate mismatch).trace =
        .read ptr (entrySize (entryByte origin ptr)) ::
          (entryStore desired (entryPlace rOffs (entryAt origin ptr previous)) ++
            [.read (entryPlace rOffs (entryAt origin ptr previous)) 4]) ++
          (retouchLoopCalls desired bOffs rOffs fuel (ptr + entrySize (entryByte origin ptr))
            (entryAt origin ptr previous)
            (applyEntry desired rOffs (entryAt origin ptr previous) data) candidate'
            mismatch').trace ∧
      retouchLoop desired bOffs rOffs (fuel + 1) ptr previous data candidate mismatch =
        retouchLoop desired bOffs rOffs fuel (ptr + entrySize (entryByte origin ptr))
          (entryAt origin ptr previous)
          (applyEntry desired rOffs (entryAt origin ptr previous) data) candidate' mismatch' := by
  let offset := entryShift rOffs (entryAt origin ptr previous)
    (applyEntry desired rOffs (entryAt origin ptr previous) data)
  refine ⟨some (candidate.getD offset), mismatch || candidate.any (· ≠ offset), ?_, ?_⟩
  · rw [retouchLoopCalls, if_pos high, touch_then_trace, same.entryAt low high,
      same.entryByte low (by omega)]
    rw [if_neg accepted, touch_then_trace]
    rfl
  · rw [retouchLoop, if_pos high, same.entryAt low high, same.entryByte low (by omega)]
    rw [if_neg accepted]

variable {size mmap : Nat}

theorem allowed_entry (order : bOffs ≤ rOffs) (sizeEq : rOffs + 20 = size)
    (mmapEq : rOffs + 12 = mmap) (accepted : ¬ (entry.offset < -1 ∨ bOffs ≤ entry.offset))
    (clear : desired = none ∨ ¬ Straddles bOffs entry) :
    ∀ access ∈ entryStore desired (entryPlace rOffs entry) ++ [.read (entryPlace rOffs entry) 4],
      access.Allowed size bOffs mmap := by
  have place : entryPlace rOffs entry + 4 ≤ size := by
    unfold entryPlace
    split <;> omega
  rw [forall_mem_append, forall_mem_singleton]
  refine ⟨?_, place⟩
  cases desired with
  | none => nofun
  | some shift =>
    have inside := (entryInside_of_accepted accepted (clear.resolve_left nofun)).place rOffs
    rw [entryStore, forall_mem_singleton]
    intro position low high
    omega

theorem retouchLoopCalls_clear (sizeEq : rOffs + 20 = origin.length)
    (originEq : origin.length = size) (mmapEq : rOffs + 12 = mmap)
    (clear : desired = none ∨ ∀ ptr previous, Reached origin bOffs rOffs ptr previous → ptr < rOffs →
      ¬ Straddles bOffs (entryAt origin ptr previous))
    (reached : Reached origin bOffs rOffs ptr previous) (start : bOffs ≤ ptr)
    (kept : Untouched bOffs rOffs origin data) :
    (∀ access ∈ (retouchLoopCalls desired bOffs rOffs fuel ptr previous data candidate
        mismatch).trace, access.Allowed size bOffs mmap) ∧ Untouched bOffs rOffs origin
        (retouchLoop desired bOffs rOffs fuel ptr previous data candidate mismatch).data := by
  induction fuel generalizing ptr previous data candidate mismatch with
  | zero => exact ⟨forall_mem_nil _, kept⟩
  | succ fuel ih =>
    by_cases high : ptr < rOffs
    swap
    · rw [retouchLoopCalls, if_neg high, retouchLoop, if_neg high]
      split
      · exact ⟨forall_mem_nil _, kept⟩
      · split <;> exact ⟨forall_mem_nil _, kept⟩
    have size8 := (entrySize_le (entryByte origin ptr)).2
    have first : (RetouchAccess.read ptr (entrySize (entryByte origin ptr))).Allowed size bOffs
        mmap := by
      rw [RetouchAccess.Allowed]
      omega
    by_cases bad : (entryAt origin ptr previous).offset < -1 ∨
        bOffs ≤ (entryAt origin ptr previous).offset
    · rw [retouchLoopCalls, if_pos high, retouchLoop, if_pos high, touch_then_trace,
        kept.same.entryAt start high, kept.same.entryByte start (by omega)]
      rw [if_pos bad, if_pos bad]
      exact ⟨forall_mem_singleton.mpr first, kept⟩
    obtain ⟨candidate', mismatch', trace, result⟩ := @retouchLoopCalls_next desired candidate
      bOffs rOffs fuel ptr previous origin data mismatch kept.same start high bad
    have clearHere : desired = none ∨ ¬ Straddles bOffs (entryAt origin ptr previous) :=
      clear.imp_right fun clear => clear ptr previous reached high
    have later := @ih candidate' (ptr + entrySize (entryByte origin ptr))
      (entryAt origin ptr previous)
      (applyEntry desired rOffs (entryAt origin ptr previous) data) mismatch'
      (reached.next high bad) (by omega)
      (kept.applyEntry (clearHere.imp_right (entryInside_of_accepted bad)) (by omega) sizeEq)
    rw [trace, result]
    refine ⟨forall_mem_append.mpr ⟨?_, later.1⟩, later.2⟩
    exact forall_mem_cons.mpr ⟨first, allowed_entry (by omega) (by omega) mmapEq bad clearHere⟩

/-- From an entry on, everything that a call with a desired offset does is allowed. -/
structure AllowedFrom (shift : Int) (origin : Bytes) (bOffs rOffs size mmap : Nat) (ptr : Nat)
    (previous : Decoder) : Prop where
  start : bOffs ≤ ptr
  run : ∃ fuel data candidate mismatch, rOffs < ptr + fuel ∧ Untouched bOffs rOffs origin data ∧
    ∀ access ∈ (retouchLoopCalls (some shift) bOffs rOffs fuel ptr previous data candidate
      mismatch).trace, access.Allowed size bOffs mmap

theorem AllowedFrom.next {shift : Int} (sizeEq : rOffs + 20 = origin.length)
    (mmapEq : rOffs + 12 = mmap)
    (allowed : AllowedFrom shift origin bOffs rOffs size mmap ptr previous) (high : ptr < rOffs)
    (accepted : ¬ ((entryAt origin ptr previous).offset < -1 ∨
      bOffs ≤ (entryAt origin ptr previous).offset)) :
    ¬ Straddles bOffs (entryAt origin ptr previous) ∧
      AllowedFrom shift origin bOffs rOffs size mmap (ptr + entrySize (entryByte origin ptr))
        (entryAt origin ptr previous) := by
  obtain ⟨start, fuel, data, candidate, mismatch, enough, kept, allowed⟩ := allowed
  obtain ⟨fuel, rfl⟩ : ∃ less, fuel = less + 1 := ⟨fuel - 1, by omega⟩
  obtain ⟨candidate', mismatch', trace, -⟩ := @retouchLoopCalls_next (some shift) candidate bOffs
    rOffs fuel ptr previous origin data mismatch kept.same start high accepted
  rw [trace, forall_mem_append, forall_mem_cons, forall_mem_append] at allowed
  obtain ⟨⟨-, stores, -⟩, later⟩ := allowed
  have clear : ¬ Straddles bOffs (entryAt origin ptr previous) := by
    rintro ⟨nonneg, before, ends⟩
    have store := stores _ (mem_singleton.mpr rfl) bOffs
    rw [entryPlace, if_neg (by omega)] at store
    have := store (by omega) (by omega)
    omega
  have advance := (entrySize_le (entryByte origin ptr)).1
  exact ⟨clear, by omega, fuel, _, candidate', mismatch', by omega,
    kept.applyEntry (.inr (entryInside_of_accepted accepted clear)) (by omega) sizeEq, later⟩

theorem Reached.allowedFrom {shift : Int} (sizeEq : rOffs + 20 = origin.length)
    (mmapEq : rOffs + 12 = mmap)
    (allowed : ∀ access ∈ (retouchLoopCalls (some shift) bOffs rOffs (rOffs + 1) bOffs ⟨0, 0⟩ origin
      none false).trace, access.Allowed size bOffs mmap)
    (reached : Reached origin bOffs rOffs ptr previous) :
    AllowedFrom shift origin bOffs rOffs size mmap ptr previous := by
  induction reached with
  | start =>
    exact ⟨le_rfl, rOffs + 1, origin, none, false, by omega, ⟨rfl, fun _ _ _ => rfl⟩, allowed⟩
  | next _ high accepted ih => exact (ih.next sizeEq mmapEq high accepted).2

end Loop

/-! ## Whole calls -/

/-- `retouch_mask_data` reads the binary only and writes before the entries or to `mmap_addr`, so
that the entries and both trailers stay. -/
structure Footprint (data : Bytes) (desired : Option Int) : Prop where
  allowed : ∀ access ∈ (retouchMaskCalls data desired).trace,
    access.Allowed data.length (blobStart data).toNat (data.length - 8)
  kept : ∀ position, (blobStart data).toNat ≤ position →
    (position < data.length - 8 ∨ data.length - 4 ≤ position) →
    (retouchMaskData data desired).data[position]? = data[position]?

variable {data : Bytes} {desired : Option Int}

/-- Without a trailer, or with one that says too much, nothing but the trailer is read. -/
theorem footprint_of_idle (idle : hasRetouchTrailer data = true → blobStart data < 0) :
    Footprint data desired := by
  constructor
  · rw [retouchMaskCalls]
    split
    · nofun
    rename_i long
    rw [touch_then_trace, forall_mem_append, forall_mem_cons, forall_mem_singleton]
    refine ⟨⟨by rw [RetouchAccess.Allowed]; omega, by rw [RetouchAccess.Allowed]; omega⟩, ?_⟩
    split
    · rename_i trailer
      rw [touch_then_trace, forall_mem_append, forall_mem_singleton]
      refine ⟨by rw [RetouchAccess.Allowed]; omega, ?_⟩
      rw [if_pos (idle trailer)]
      nofun
    · nofun
  intro position _ _
  rw [retouchMaskData]
  split
  · rename_i trailer
    change (if blobStart data < 0 then _ else _ : RetouchOutcome).data[position]? = _
    rw [if_pos (idle trailer)]
  · rfl

theorem retouchMaskCalls_trace (trailer : hasRetouchTrailer data = true)
    (entries : 0 ≤ blobStart data) : (retouchMaskCalls data desired).trace =
      [.read (data.length - 4) 4, .read (data.length - 20) 8, .read (data.length - 20 + 8) 4] ++
        (retouchLoopCalls desired (blobStart data).toNat (data.length - 20) (data.length - 20 + 1)
          (blobStart data).toNat ⟨0, 0⟩ data none false).trace := by
  have long := (hasRetouchTrailer_iff.mp trailer).1
  rw [retouchMaskCalls, if_neg (by omega), touch_then_trace, if_pos trailer, touch_then_trace]
  rw [if_neg (not_lt.mpr entries)]
  rfl

theorem retouchMaskData_entries (trailer : hasRetouchTrailer data = true)
    (entries : 0 ≤ blobStart data) : retouchMaskData data desired =
      retouchLoop desired (blobStart data).toNat (data.length - 20) (data.length - 20 + 1)
        (blobStart data).toNat ⟨0, 0⟩ data none false := by
  rw [retouchMaskData, if_pos trailer]
  exact if_neg (not_lt.mpr entries)

/-- A call keeps to its footprint exactly if no entry that is reached straddles the start of the
entries, or if nothing is stored. -/
theorem retouchMaskData_footprint_iff (data : Bytes) (desired : Option Int) :
    Footprint data desired ↔ StoresClear data desired := by
  by_cases idle : hasRetouchTrailer data = true → blobStart data < 0
  · refine iff_of_true (footprint_of_idle idle) (.inr fun trailer entries => ?_)
    have := idle trailer
    omega
  obtain ⟨trailer, some⟩ := Classical.not_imp.mp idle
  have entries : 0 ≤ blobStart data := not_lt.mp some
  have long := (hasRetouchTrailer_iff.mp trailer).1
  constructor
  · intro footprint
    have allowed := footprint.allowed
    rw [retouchMaskCalls_trace trailer entries, forall_mem_append] at allowed
    cases desired with
    | none => exact .inl rfl
    | some shift =>
      refine .inr fun _ _ ptr previous reached high straddles => ?_
      have from_ := reached.allowedFrom (by omega) (by omega) allowed.2
      have accepted := straddles
      unfold Straddles at accepted
      exact (from_.next (by omega) (by omega) high (by omega)).1 straddles
  intro clear
  have run := @retouchLoopCalls_clear desired none _ _ (data.length - 20 + 1) _ _ data data false
    _ _ (by omega : data.length - 20 + 20 = data.length) rfl
    (by omega : data.length - 20 + 12 = data.length - 8)
    (clear.imp_right fun clear => clear trailer entries) .start le_rfl
    ⟨rfl, fun _ _ _ => rfl⟩
  constructor
  · rw [retouchMaskCalls_trace trailer entries, forall_mem_append]
    refine ⟨?_, run.1⟩
    simp only [forall_mem_cons, not_mem_nil, false_implies, implies_true, and_true,
      RetouchAccess.Allowed]
    omega
  · intro position low high
    rw [retouchMaskData_entries trailer entries]
    exact run.2.bytes position low (by omega)

/-- A word at offset 1, with an entry of eight bytes that begins at offset 4. -/
def straddlingWord : Bytes :=
  [0, 0, 0, 0] ++ [0, 0, 0, 1, 0, 0, 0, 16] ++ ascii "RETOUCH " ++ [8, 0, 0, 0] ++ [0, 0, 0, 0] ++
    ascii "PRE "

/-- The first byte of the entry becomes the last of the word. -/
theorem retouchMaskData_straddles :
    (retouchMaskData straddlingWord (some 0x02000000)).result = .matched ∧
      (retouchMaskData straddlingWord (some 0x02000000)).data[4]? = some 2 ∧
      straddlingWord[4]? = some 0 ∧ (blobStart straddlingWord).toNat = 4 := by
  decide +kernel

end PhilzTouch.ApplyPatch
