import PhilzTouch.ApplyPatch.BsdiffRoundTrip
import PhilzTouch.ApplyPatch.Imgdiff
import PhilzTouch.ApplyPatch.SinkSpec

/-!
# Image patches reproduce their target

The records that `imgdiff` writes are the ones `ApplyImagePatch` reads, and the patches behind
them stand where the records say.  What a chunk of the target was in its image survives the
demotion and the merging of chunks; what a chunk of the source expands to is what the decoder
sees.
-/

namespace PhilzTouch.ApplyPatch

open List MadeChunk Bytes

/-! ## Numbers in a patch -/

@[simp] theorem length_write4 (value : Int) : (write4 value).length = 4 := by
  simp [write4]

@[simp] theorem length_write8 (value : Nat) : (write8 value).length = 8 := by
  simp [write8]

variable {patch : Value} {offset : Nat} {rest : Bytes}

theorem read4_read {x : Int} (stands : patch.data.drop offset = write4 x ++ rest)
    (inside : offset ≤ patch.data.length) (low : -2 ^ 31 ≤ x) (high : x < 2 ^ 31) :
    read4 (patch.read offset 4) = x := by
  have read := patch.read_of_drop stands inside
  rw [length_write4] at read
  have all : (write4 x).take 4 = write4 x := take_of_length_le (by simp)
  rw [read, read4, all, write4, toNatLE_ofNatLE, wrap]
  have small : ((x % 2 ^ 32).toNat % 256 ^ 4 : Nat) = (x % 2 ^ 32).toNat := by omega
  rw [small, Int.toNat_of_nonneg (by omega), show (2 : Int) ^ 32 = ((2 ^ 32 : Nat) : Int) from rfl,
    Int.emod_bmod]
  exact wrap_eq low high

theorem read8Size_read {x : Nat} (stands : patch.data.drop offset = write8 x ++ rest)
    (inside : offset ≤ patch.data.length) (small : x < 2 ^ 32) :
    read8Size (patch.read offset 8) = x := by
  have read := patch.read_of_drop stands inside
  rw [length_write8] at read
  have all : (write8 x).take 8 = write8 x := take_of_length_le (by simp)
  rw [read, read8Size, all, write8, toNatLE_ofNatLE]
  omega

/-! ## Records -/

/-- The values of the parameters are `int`s. -/
structure DeflateParams.Fits (params : DeflateParams) : Prop where
  level : -2 ^ 31 ≤ params.level ∧ params.level < 2 ^ 31
  method : -2 ^ 31 ≤ params.method ∧ params.method < 2 ^ 31
  windowBits : -2 ^ 31 ≤ params.windowBits ∧ params.windowBits < 2 ^ 31
  memLevel : -2 ^ 31 ≤ params.memLevel ∧ params.memLevel < 2 ^ 31
  strategy : -2 ^ 31 ≤ params.strategy ∧ params.strategy < 2 ^ 31

/-- The fields of a record have room for the values of a chunk. -/
def MadeChunk.Fits (offset : Nat) : MadeChunk → Prop
  | .raw data => data.length < 2 ^ 31
  | .normal sourceStart sourceLen _ =>
    sourceStart < 2 ^ 32 ∧ sourceLen < 2 ^ 32 ∧ offset < 2 ^ 32
  | .deflate sourceStart sourceLen sourceUncompressedLen _ params _ =>
    sourceStart < 2 ^ 32 ∧ sourceLen < 2 ^ 32 ∧ offset < 2 ^ 32 ∧
      sourceUncompressedLen < 2 ^ 32 ∧ params.Fits

/-- What the decoder reads from the record of a chunk. -/
def MadeChunk.chunk (offset : Nat) : MadeChunk → Chunk
  | .raw data => .raw data
  | .normal sourceStart sourceLen _ => .normal sourceStart sourceLen offset
  | .deflate sourceStart sourceLen sourceUncompressedLen _ params _ =>
    .deflate ⟨sourceStart, sourceLen, offset, sourceUncompressedLen, params⟩

theorem MadeChunk.length_record (made : MadeChunk) (offset : Nat) :
    (made.record offset).length = made.headerSize := by
  cases made <;> simp [record, headerSize, writeParams]

theorem checkEnd_inside {pos : Int} (inside : pos ≤ patch.data.length) :
    checkEnd patch pos = .ok () := by
  have := patch.fits
  rw [checkEnd, if_neg (by omega), if_neg (by omega)]

variable {pos : Nat}

theorem readRaw_record {data : Bytes}
    (stands : patch.data.drop pos = write4 data.length ++ (data ++ rest))
    (inside : pos + 4 + data.length ≤ patch.data.length) :
    readRaw patch pos = .ok (.raw data, (pos + 4 + data.length : Nat)) := by
  have fits := patch.fits
  have length := read4_read stands (by omega) (by omega) (by omega)
  have atData := drop_of_drop stands
  rw [length_write4] at atData
  have read := patch.read_of_drop atData (by omega)
  simp only [Int.natCast_add, Int.cast_ofNat_Int] at read ⊢
  rw [readRaw, checkEnd_inside (by omega), length]
  simp only [bind, Except.bind]
  rw [if_neg (by omega), checkEnd_inside (by omega)]
  simp only [Int.toNat_natCast, read]

theorem readChunk_of_type {type : Int} (inside : pos + 4 ≤ patch.data.length)
    (read : read4 (patch.read pos 4) = type) :
    readChunk patch pos = if type = chunkNormal then do
        checkEnd patch (pos + 4 + 24)
        .ok (.normal (read8Size (patch.read (pos + 4) 8)) (read8Size (patch.read (pos + 4 + 8) 8))
          (read8Size (patch.read (pos + 4 + 16) 8)), pos + 4 + 24)
      else if type = chunkRaw then readRaw patch (pos + 4)
      else if type = chunkDeflate then do
        checkEnd patch (pos + 4 + 60)
        .ok (.deflate (deflateHeader patch (pos + 4)), pos + 4 + 60)
      else .error .failed := by
  rw [readChunk, checkEnd_inside (by omega), read]
  rfl

theorem readChunk_raw {data : Bytes}
    (stands : patch.data.drop pos = write4 chunkRaw ++ (write4 data.length ++ (data ++ rest)))
    (inside : pos + (4 + (4 + data.length)) ≤ patch.data.length) :
    readChunk patch pos = .ok (.raw data, (pos + (4 + (4 + data.length)) : Nat)) := by
  have type := read4_read stands (by omega) (by decide) (by decide)
  have atLength := drop_of_drop stands
  rw [length_write4] at atLength
  have record := readRaw_record atLength (by omega)
  rw [Int.natCast_add, Int.cast_ofNat_Int] at record
  rw [readChunk_of_type (by omega) type, if_neg (by decide), if_pos rfl, record,
    show pos + 4 + 4 + data.length = pos + (4 + (4 + data.length)) by omega]

theorem readChunk_normal {sourceStart sourceLen : Nat}
    (stands : patch.data.drop pos = write4 chunkNormal ++ (write8 sourceStart ++
      (write8 sourceLen ++ (write8 offset ++ rest))))
    (inside : pos + (4 + 8 * 3) ≤ patch.data.length) (startFits : sourceStart < 2 ^ 32)
    (lenFits : sourceLen < 2 ^ 32) (offsetFits : offset < 2 ^ 32) : readChunk patch pos =
      .ok (.normal sourceStart sourceLen offset, (pos + (4 + 8 * 3) : Nat)) := by
  have type := read4_read stands (by omega) (by decide) (by decide)
  have atStart := drop_of_drop stands
  have atLen := drop_of_drop atStart
  have atOffset := drop_of_drop atLen
  simp only [length_write4, length_write8] at atStart atLen atOffset
  have start := read8Size_read atStart (by omega) startFits
  have len := read8Size_read atLen (by omega) lenFits
  have place := read8Size_read atOffset (by omega) offsetFits
  simp only [Int.natCast_add, Int.cast_ofNat_Int] at start len place
  rw [show (pos : Int) + 4 + 8 + 8 = pos + 4 + 16 by omega] at place
  rw [readChunk_of_type (by omega) type, if_pos rfl, checkEnd_inside (by omega), start, len, place]
  rfl

variable {params : DeflateParams}

theorem deflateHeader_record {sourceStart sourceLen uncompressed len : Nat}
    (stands : patch.data.drop pos = write8 sourceStart ++ (write8 sourceLen ++ (write8 offset ++
      (write8 uncompressed ++ (write8 len ++ (write4 params.level ++ (write4 params.method ++
      (write4 params.windowBits ++ (write4 params.memLevel ++ (write4 params.strategy ++
      rest)))))))))) (inside : pos + 60 ≤ patch.data.length) (startFits : sourceStart < 2 ^ 32)
    (lenFits : sourceLen < 2 ^ 32) (offsetFits : offset < 2 ^ 32)
    (uncompressedFits : uncompressed < 2 ^ 32) (fits : params.Fits) :
    deflateHeader patch pos = ⟨sourceStart, sourceLen, offset, uncompressed, params⟩ := by
  have atLen := drop_of_drop stands
  have atOffset := drop_of_drop atLen
  have atUncompressed := drop_of_drop atOffset
  have atTarget := drop_of_drop atUncompressed
  have atLevel := drop_of_drop atTarget
  have atMethod := drop_of_drop atLevel
  have atWindow := drop_of_drop atMethod
  have atMem := drop_of_drop atWindow
  have atStrategy := drop_of_drop atMem
  simp only [length_write4, length_write8, add_assoc, Nat.reduceAdd]
    at atLen atOffset atUncompressed atLevel atMethod atWindow atMem atStrategy
  have start := read8Size_read stands (by omega) startFits
  have srcLen := read8Size_read atLen (by omega) lenFits
  have place := read8Size_read atOffset (by omega) offsetFits
  have expanded := read8Size_read atUncompressed (by omega) uncompressedFits
  have level := read4_read atLevel (by omega) fits.level.1 fits.level.2
  have method := read4_read atMethod (by omega) fits.method.1 fits.method.2
  have window := read4_read atWindow (by omega) fits.windowBits.1 fits.windowBits.2
  have mem := read4_read atMem (by omega) fits.memLevel.1 fits.memLevel.2
  have strategy := read4_read atStrategy (by omega) fits.strategy.1 fits.strategy.2
  simp only [Int.natCast_add, Int.cast_ofNat_Int]
    at srcLen place expanded level method window mem strategy
  rw [deflateHeader, start, srcLen, place, expanded, level, method, window, mem, strategy]

variable {header : DeflateHeader}

theorem readChunk_deflate (stands : patch.data.drop pos = write4 chunkDeflate ++ rest)
    (inside : pos + (4 + (8 * 5 + 4 * 5)) ≤ patch.data.length)
    (read : deflateHeader patch (pos + 4 : Nat) = header) :
    readChunk patch pos = .ok (.deflate header, (pos + (4 + (8 * 5 + 4 * 5)) : Nat)) := by
  have type := read4_read stands (by omega) (by decide) (by decide)
  rw [Int.natCast_add, Int.cast_ofNat_Int] at read
  rw [readChunk_of_type (by omega) type, if_neg (by decide), if_neg (by decide), if_pos rfl,
    checkEnd_inside (by omega), read]
  rfl

variable {made : MadeChunk}

theorem readChunk_record (stands : patch.data.drop pos = made.record offset ++ rest)
    (inside : pos ≤ patch.data.length) (fits : made.Fits offset) :
    readChunk patch pos = .ok (made.chunk offset, (pos + made.headerSize : Nat)) := by
  have size := congrArg length stands
  rw [length_drop, length_append, made.length_record] at size
  cases made with
  | raw data =>
    rw [headerSize] at size
    rw [record, append_assoc, append_assoc] at stands
    exact readChunk_raw stands (by omega)
  | normal sourceStart sourceLen bytes =>
    rw [headerSize] at size
    rw [record, append_assoc, append_assoc, append_assoc] at stands
    exact readChunk_normal stands (by omega) fits.1 fits.2.1 fits.2.2
  | deflate sourceStart sourceLen sourceUncompressedLen len params bytes =>
    obtain ⟨startFits, lenFits, offsetFits, uncompressedFits, paramsFit⟩ := fits
    rw [headerSize] at size
    simp only [record, writeParams, append_assoc] at stands
    have atStart := drop_of_drop stands
    rw [length_write4] at atStart
    exact readChunk_deflate stands (by omega) (deflateHeader_record atStart (by omega) startFits
      lenFits offsetFits uncompressedFits paramsFit)

/-! ## Chunks of a patch -/

/-- Decompression ends with the stream, whatever follows it. -/
def Bz2.Stops (bz : Bz2) : Prop :=
  ∀ data back, bz.decompress (bz.compress data ++ back) = (data, .streamEnd)

/-- `inflate` uses a part at the front of its input and depends on nothing else. -/
def Zlib.Stops (zlib : Zlib) : Prop :=
  ∀ input expanded consumed, zlib.inflate input = some (expanded, consumed) →
    consumed ≤ input.length ∧ zlib.inflate (input.take consumed) = some (expanded, consumed)

/-- The output of `deflate` does not depend on the size of the buffer that receives it. -/
def Zlib.Steady (zlib : Zlib) : Prop :=
  ∀ params data room room', 0 < room → 0 < room' → (zlib.deflate params data room).map flatten =
      (zlib.deflate params data room').map flatten

/-- A patch of `bsdiff` that leads from one string to another. -/
structure Diff (bz : Bz2) (old patch new : Bytes) : Prop where
  oldFits : old.length < 2 ^ 31
  newFits : new.length < 2 ^ 31
  replays : ∃ ctrl db eb pos, patch = patchFile bz new.length ctrl db eb ∧
    Replay old new 0 0 new.length pos ctrl db eb

variable {bz : Bz2}

theorem Diff.apply {old bytes new back : Bytes} (diff : Diff bz old bytes new) (stops : bz.Stops)
    (stands : patch.data.drop offset = bytes ++ back) (inside : offset ≤ patch.data.length) :
    applyBSDiffPatchMem bz old patch offset = .ok new := by
  obtain ⟨ctrl, db, eb, pos, rfl, replay⟩ := diff.replays
  have front : (patch.data.take offset).length = offset := length_take_of_le inside
  have layout : patch.data =
      patch.data.take offset ++ patchFile bz new.length ctrl db eb ++ back := by
    rw [append_assoc, ← stands, take_append_drop]
  have inverts : bz.Inverts := fun data => by
    rw [← stops data [], append_nil]
  have applied := applyBSDiffPatchMem_patchFile _ inverts (fun data => stops data back)
    diff.oldFits diff.newFits replay patch layout
  rw [front] at applied
  exact applied

/-- A chunk of a patch stands for some bytes of the target. -/
inductive Right (zlib : Zlib) (bz : Bz2) (old bonus : Bytes) : MadeChunk → (out : Bytes) → Prop where
  | raw {data : Bytes} : data.length < 2 ^ 31 → Right zlib bz old bonus (.raw data) data
  | normal {start length : Nat} {patch out : Bytes} : start + length ≤ old.length →
      Diff bz (old.slice start length) patch out →
      Right zlib bz old bonus (.normal start length patch) out
  | deflate {start length consumed len : Nat} {params : DeflateParams}
      {patch expanded new out : Bytes} : start + length ≤ old.length →
      zlib.inflate (old.slice start length) = some (expanded, consumed) →
      Diff bz (expanded ++ bonus) patch new → params.Fits →
      (∀ room, 0 < room → (zlib.deflate params new room).map flatten = some out) →
      Right zlib bz old bonus
        (.deflate start length (expanded ++ bonus).length len params patch) out

variable {zlib : Zlib} {old : Value}

theorem Right.fits {bonus out : Bytes} (right : Right zlib bz old.data bonus made out)
    (small : offset < 2 ^ 31) : made.Fits offset := by
  have := old.fits
  cases right with
  | raw fits => exact fits
  | normal inside _ => exact ⟨by omega, by omega, by omega⟩
  | deflate inside _ diff fits _ =>
    exact ⟨by omega, by omega, by omega, lt_trans diff.oldFits (by decide), fits⟩

variable {length : Nat}

theorem signedRead_inside {start : Nat} (inside : start + length ≤ old.data.length) :
    signedRead old start length = old.data.slice start length := by
  have := old.fits
  rw [signedRead, wrap_eq (by omega) (by omega), Int.toNat_natCast, old.read_inside inside]

theorem deflatePieces_of {bonus expanded target : Bytes} {pieces : List Bytes} {offset : Int}
    (length32 : wrap header.expandedLen = length) (offset32 : wrap header.patchOffset = offset)
    (expands : expandSource zlib old bonus header = .ok expanded)
    (applied : applyBSDiffPatchMem bz (expanded.take length) patch offset = .ok target)
    (deflates : zlib.deflate header.params target (max length 32768) = some pieces) :
    deflatePieces zlib bz old patch bonus header = .ok pieces := by
  rw [deflatePieces, length32, offset32, Int.toNat_natCast, expands]
  change (applyBSDiffPatchMem bz (expanded.take length) patch offset >>= _) = _
  rw [applied]
  simp only [bind, Except.bind, deflates]

theorem deflatePieces_right {start consumed : Nat} {bonus bytes expanded new out back : Bytes}
    (stops : bz.Stops) (inside : start + length ≤ old.data.length)
    (inflated : zlib.inflate (old.data.slice start length) = some (expanded, consumed))
    (diff : Diff bz (expanded ++ bonus) bytes new)
    (deflated : ∀ room, 0 < room → (zlib.deflate params new room).map flatten = some out)
    (stands : patch.data.drop offset = bytes ++ back) (offsetInside : offset ≤ patch.data.length) :
    ∃ pieces, deflatePieces zlib bz old patch bonus
        ⟨start, length, offset, (expanded ++ bonus).length, params⟩ = .ok pieces ∧
      pieces.flatten = out := by
  have oldFits := diff.oldFits
  have patchFits := patch.fits
  have expands : expandSource zlib old bonus
      ⟨start, length, offset, (expanded ++ bonus).length, params⟩ = .ok (expanded ++ bonus) := by
    rw [expandSource, old.read_inside inside, inflated]
    dsimp only
    rw [length_append, if_neg (by omega), if_neg (by omega)]
  have applied := diff.apply stops stands offsetInside
  rw [← take_length (l := expanded ++ bonus)] at applied
  obtain ⟨pieces, deflates, flat⟩ :=
    Option.map_eq_some_iff.mp (deflated (max (expanded ++ bonus).length 32768) (by omega))
  have length32 : wrap ((expanded ++ bonus).length : Nat) = (expanded ++ bonus).length :=
    wrap_eq (by omega) (by omega)
  have offset32 : wrap (offset : Int) = offset := wrap_eq (by omega) (by omega)
  exact ⟨pieces, deflatePieces_of length32 offset32 expands applied deflates, flat⟩

/-- The chunks of a patch from chunk `i` on stand for some pieces of the target. -/
inductive AllRight (zlib : Zlib) (bz : Bz2) (old : Bytes) (bonus : Option Value) :
    (i : Nat) → List MadeChunk → (outs : List Bytes) → Prop where
  | nil {i : Nat} : AllRight zlib bz old bonus i [] []
  | cons {i : Nat} {made : MadeChunk} {out : Bytes} {rest : List MadeChunk} {outs : List Bytes} :
      Right zlib bz old (bonusFor bonus i) made out → AllRight zlib bz old bonus (i + 1) rest outs →
      AllRight zlib bz old bonus i (made :: rest) (out :: outs)

variable {Op : Type} {Reply : Op → Type} {bonus : Option Value}

theorem applyChunks_right {left i : Nat} {out back : Bytes} (want : Bytes) (stops : bz.Stops)
    (right : Right zlib bz old.data (bonusFor bonus i) made out)
    (atRecord : patch.data.drop pos = made.record offset ++ rest)
    (posInside : pos ≤ patch.data.length) (atPatch : patch.data.drop offset = made.patch ++ back)
    (offsetInside : offset ≤ patch.data.length) :
    (applyChunks zlib bz old patch bonus collect (left + 1) i pos want want : Prog Op Reply _) =
      applyChunks zlib bz old patch bonus collect left (i + 1) (pos + made.headerSize : Nat)
        (want ++ out) (want ++ out) := by
  have patchFits := patch.fits
  rw [applyChunks, readChunk_record atRecord posInside (right.fits (by omega))]
  cases right with
  | raw _ =>
    simp only [chunk]
    have first : (collect out want : Prog Op Reply _) = .ret (out.length, want ++ out) := rfl
    simp only [first, Prog.ret_bind, ne_eq, not_true, if_false]
  | @normal start length _ _ inside diff =>
    have applied := diff.apply stops atPatch offsetInside
    have output : bsdiffOutput bz (old.data.slice start length) patch offset want =
        some ⟨0, want ++ out, want ++ out⟩ := by
      rw [bsdiffOutput, applied]
    simp only [chunk]
    rw [wrap_eq (by omega) (by omega : (offset : Int) < 2 ^ 31), signedRead_inside inside,
      applyBSDiffPatch_collect, output]
    rfl
  | deflate inside inflated diff _ deflated =>
    obtain ⟨pieces, made, flat⟩ := deflatePieces_right stops inside inflated diff deflated atPatch
      offsetInside
    simp only [chunk]
    rw [made]
    dsimp only
    rw [sinkPieces_collect, flat]
    rfl

variable {outs : List Bytes} {made : List MadeChunk}

theorem applyChunks_allRight {i : Nat} (want : Bytes) (stops : bz.Stops)
    (right : AllRight zlib bz old.data bonus i made outs)
    (atRecords : patch.data.drop pos = records offset made ++ rest)
    (posInside : pos ≤ patch.data.length)
    (atPatches : patch.data.drop offset = (made.map MadeChunk.patch).flatten)
    (offsetInside : offset ≤ patch.data.length) :
    (applyChunks zlib bz old patch bonus collect made.length i pos want want : Prog Op Reply _) =
      .ret ⟨0, want ++ outs.flatten, want ++ outs.flatten⟩ := by
  induction right generalizing pos offset want with
  | nil => simp [applyChunks]
  | @cons i made out rest outs first _ ih =>
    rw [records, append_assoc] at atRecords
    rw [map_cons, flatten_cons] at atPatches
    have posAfter := drop_of_drop atRecords
    have offsetAfter := drop_of_drop atPatches
    have recordLength := congrArg length atRecords
    have patchLength := congrArg length atPatches
    rw [length_drop, length_append, made.length_record] at recordLength
    rw [length_drop, length_append] at patchLength
    rw [made.length_record] at posAfter
    rw [length_cons, applyChunks_right want stops first atRecords posInside atPatches
      offsetInside, ih (want ++ out) posAfter (by omega) offsetAfter (by omega),
      flatten_cons, append_assoc]

theorem length_records (offset : Nat) (made : List MadeChunk) :
    (records offset made).length = (made.map headerSize).sum := by
  induction made generalizing offset with
  | nil => rfl
  | cons first rest ih => simp [records, ih, first.length_record]

theorem length_le_headerSize (made : List MadeChunk) : made.length ≤ (made.map headerSize).sum := by
  induction made with
  | nil => exact le_rfl
  | cons first rest ih =>
    have : 1 ≤ first.headerSize := by
      cases first <;> simp only [headerSize] <;> omega
    rw [length_cons, map_cons, sum_cons]
    omega

/-- The decoder on a patch file whose chunks stand for pieces of the target. -/
theorem applyImagePatch_imagePatch (stops : bz.Stops)
    (right : AllRight zlib bz old.data bonus 0 made outs) (holds : patch.data = imagePatch made) :
    (applyImagePatch zlib bz old patch bonus collect [] [] : Prog Op Reply _) =
      .ret ⟨0, outs.flatten, outs.flatten⟩ := by
  have fits := patch.fits
  have counts := length_le_headerSize made
  have stands : patch.data.drop 0 = imgdiffMagic ++ (write4 made.length ++
      (records (12 + (made.map headerSize).sum) made ++
        (made.map MadeChunk.patch).flatten)) := by
    rw [drop_zero, holds, imagePatch, append_assoc, append_assoc]
  have atCount := drop_of_drop stands
  have atRecords := drop_of_drop atCount
  have atPatches := drop_of_drop atRecords
  have length := congrArg length stands
  simp only [drop_zero, length_append, length_write4, length_records,
    show imgdiffMagic.length = 8 from rfl] at length
  simp only [length_write4, length_records, show imgdiffMagic.length = 8 from rfl, zero_add,
    Nat.reduceAdd] at atCount atRecords atPatches
  have magic : patch.read 0 8 = imgdiffMagic := patch.read_of_drop stands (Nat.zero_le _)
  have count : chunkCount patch = made.length := by
    have read := read4_read atCount (by omega) (by omega) (by omega)
    rw [chunkCount]
    exact (congrArg Int.toNat read).trans (Int.toNat_natCast _)
  rw [applyImagePatch, if_neg (by omega), if_neg (not_not.mpr magic), count]
  have inside : 12 ≤ patch.data.length := by omega
  exact applyChunks_allRight [] stops right atRecords inside atPatches (by omega)

end PhilzTouch.ApplyPatch
