import PhilzTouch.ApplyPatch.Bsdiff
import PhilzTouch.ApplyPatch.ReadImage

/-!
# Making an image patch

The rest of `imgdiff.c` for images: the chunks of the source and of the target are made to
correspond, deflate chunks that gain nothing are treated as normal ones, and a patch for every
chunk goes into one file.  `size_t` and `off_t` have 32 bits, so a chunk of 2³¹ bytes has no
memory; other allocations and the files are assumed to be fine.
-/

namespace PhilzTouch.ApplyPatch

/-! ## Chunks -/

def bufferSize : Nat := 32768

/-- The parameters that `ReconstructDeflateChunk` tries for a level. -/
def encoderParams (level : Int) : DeflateParams where
  level := level
  method := 8
  windowBits := -15
  memLevel := 8
  strategy := 0

/-- `TryReconstruction`: the chunk's data, compressed, are the data it was read from.  The buffers
are compared as they are filled, and their total length at the end. -/
def tryReconstruction (zlib : Zlib) (chunk : ImageChunk) : Except Stop Bool :=
  match zlib.deflate chunk.params chunk.data bufferSize with
  | none => .error .hang
  | some pieces => .ok (pieces.flatten = chunk.deflateData)

/-- `ReconstructDeflateChunk` on a deflate chunk: the chunk with the encoder's parameters, if the
levels 6 or 9 reproduce it. -/
def reconstructDeflateChunk (zlib : Zlib) (chunk : ImageChunk) : Except Stop (Option ImageChunk) := do
  let default := { chunk with params := encoderParams 6 }
  if ← tryReconstruction zlib default then .ok (some default)
  else do
    let best := { chunk with params := encoderParams 9 }
    if ← tryReconstruction zlib best then .ok (some best) else .ok none

def changeDeflateChunkToNormal (chunk : ImageChunk) : ImageChunk :=
  match chunk.type with
  | .deflate => { chunk with type := .normal, data := chunk.deflateData }
  | _ => chunk

def areChunksEqual (a b : ImageChunk) : Bool :=
  a.type = b.type &&
    match a.type with
    | .normal => a.data = b.data
    | .deflate => a.deflateData = b.deflateData
    | .raw => false

/-- A chunk goes on where another ends.  The data of normal chunks are pointers into one image,
so that they follow each other exactly if the places do. -/
def Follows (chunk next : ImageChunk) : Prop :=
  chunk.type = .normal ∧ next.type = .normal ∧ next.start = chunk.start + chunk.data.length

instance (chunk next : ImageChunk) : Decidable (Follows chunk next) := by
  unfold Follows
  infer_instance

/-- The rest of `MergeAdjacentNormalChunks` with the chunk that the current run has become.  Its
fields other than type, start and data are not set; nothing reads them before suffixes are
sorted. -/
def mergeRun : (run : ImageChunk) → List ImageChunk → List ImageChunk
  | run, [] => [run]
  | run, next :: rest =>
    if Follows run next then mergeRun { run with data := run.data ++ next.data } rest
    else run :: mergeRun next rest

def mergeAdjacentNormalChunks : List ImageChunk → List ImageChunk
  | [] => []
  | chunk :: rest => mergeRun chunk rest

/-! ## Patches -/

/-- What `MakePatch` makes of a chunk of the target, with what its record needs. -/
inductive MadeChunk where
  | raw (data : Bytes)
  | normal (sourceStart sourceLen : Nat) (patch : Bytes)
  | deflate (sourceStart sourceLen sourceUncompressedLen len : Nat) (params : DeflateParams)
      (patch : Bytes)
  deriving DecidableEq, Repr

/-- `MakePatch`: what was made, and the source chunk, which keeps its sorted suffixes. -/
def makePatch (bz : Bz2) (src tgt : ImageChunk) : Except Stop (MadeChunk × ImageChunk) :=
  if tgt.type = .normal ∧ tgt.data.length ≤ 160 then .ok (.raw tgt.data, src)
  else if 2 ^ 31 ≤ src.data.length ∨ 2 ^ 31 ≤ tgt.data.length then .error .failed
  else match bsdiff bz src.data src.I tgt.data with
    | none => .error .failed
    | some (patch, I) =>
      let src := { src with I := some I }
      match tgt.type with
      | .normal =>
        if tgt.data.length ≤ patch.length then .ok (.raw tgt.data, src)
        else .ok (.normal src.start src.data.length patch, src)
      | .deflate =>
        .ok (.deflate src.start src.deflateData.length src.data.length tgt.data.length
          tgt.params patch, src)
      | .raw => .ok (.raw tgt.data, src)

/-- The chunk's bsdiff patch, which comes behind the records. -/
def MadeChunk.patch : MadeChunk → Bytes
  | .raw _ => []
  | .normal _ _ patch => patch
  | .deflate _ _ _ _ _ patch => patch

def write4 (value : Int) : Bytes := Bytes.ofNatLE 4 (value % 2 ^ 32).toNat

/-- `Write8` of a `size_t`. -/
def write8 (value : Nat) : Bytes := Bytes.ofNatLE 8 value

/-- The encoder's parameters, as they are written. -/
def writeParams (params : DeflateParams) : Bytes :=
  write4 params.level ++ write4 params.method ++ write4 params.windowBits ++
    write4 params.memLevel ++ write4 params.strategy

/-- The record of a chunk whose patch stands at `offset`. -/
def MadeChunk.record (offset : Nat) : MadeChunk → Bytes
  | .raw data => write4 chunkRaw ++ write4 data.length ++ data
  | .normal sourceStart sourceLen _ =>
    write4 chunkNormal ++ write8 sourceStart ++ write8 sourceLen ++ write8 offset
  | .deflate sourceStart sourceLen sourceUncompressedLen len params _ =>
    write4 chunkDeflate ++ write8 sourceStart ++ write8 sourceLen ++ write8 offset ++
      write8 sourceUncompressedLen ++ write8 len ++ writeParams params

/-- What a chunk adds to `total_header_size`. -/
def MadeChunk.headerSize : MadeChunk → Nat
  | .raw data => 4 + (4 + data.length)
  | .normal _ _ _ => 4 + 8 * 3
  | .deflate _ _ _ _ _ _ => 4 + (8 * 5 + 4 * 5)

/-- The records, with the first patch at `offset`. -/
def records : (offset : Nat) → List MadeChunk → Bytes
  | _, [] => []
  | offset, made :: rest => made.record offset ++ records (offset + made.patch.length) rest

def imagePatch (made : List MadeChunk) : Bytes :=
  imgdiffMagic ++ write4 made.length ++ records (12 + (made.map MadeChunk.headerSize).sum) made ++
    (made.map MadeChunk.patch).flatten

/-! ## Images -/

/-- The chunks of an image, if `ReadImage` returns them. -/
def imageChunks (zlib : Zlib) (fuel : Nat) (file : Bytes) : Except Stop (List ImageChunk) := do
  match ← (readImage zlib file fuel).result with
  | none => .error .failed
  | some chunks => .ok (mergeAdjacentNormalChunks chunks)

/-- The treatment of two chunks that correspond: deflate chunks stay so only if the target's can be
reconstructed and the two differ. -/
def demoteChunks (zlib : Zlib) (src tgt : ImageChunk) : Except Stop (ImageChunk × ImageChunk) :=
  match tgt.type with
  | .deflate => do
    match ← reconstructDeflateChunk zlib tgt with
    | none => .ok (changeDeflateChunkToNormal src, changeDeflateChunkToNormal tgt)
    | some tgt =>
      if areChunksEqual tgt src then
        .ok (changeDeflateChunkToNormal src, changeDeflateChunkToNormal tgt)
      else .ok (src, tgt)
  | _ => .ok (src, tgt)

/-- The loop over the chunks that correspond. -/
def demoteAll (zlib : Zlib) : (srcs tgts : List ImageChunk) →
    Except Stop (List ImageChunk × List ImageChunk)
  | src :: srcs, tgt :: tgts => do
    let (src, tgt) ← demoteChunks zlib src tgt
    let (srcs, tgts) ← demoteAll zlib srcs tgts
    .ok (src :: srcs, tgt :: tgts)
  | _, _ => .ok ([], [])

/-- Chunk 1 of the source has the bonus data at its end.  Its data are resized, which a pointer
into the image does not allow. -/
def addBonus (bonus : Option Bytes) (i : Nat) (src : ImageChunk) : Except Stop ImageChunk :=
  match bonus with
  | none => .ok src
  | some bonus =>
    if i ≠ 1 then .ok src
    else match src.type with
      | .deflate => .ok { src with data := src.data ++ bonus }
      | _ => .error .wild

/-- The loop that makes the patches of an image, from chunk `i` on. -/
def makePatches (bz : Bz2) (bonus : Option Bytes) :
    (i : Nat) → (srcs tgts : List ImageChunk) → Except Stop (List MadeChunk)
  | i, src :: srcs, tgt :: tgts => do
    let src ← addBonus bonus i src
    let (made, _) ← makePatch bz src tgt
    let rest ← makePatches bz bonus (i + 1) srcs tgts
    .ok (made :: rest)
  | _, _, _ => .ok []

/-- `main` without `-z`, with the content of the bonus file: the patch file if it returns 0. -/
def imgdiff (zlib : Zlib) (bz : Bz2) (fuel : Nat) (source target : Bytes) (bonus : Option Bytes) :
    Except Stop Bytes := do
  let srcs ← imageChunks zlib fuel source
  let tgts ← imageChunks zlib fuel target
  if srcs.map ImageChunk.type ≠ tgts.map ImageChunk.type then .error .failed
  else do
    let (srcs, tgts) ← demoteAll zlib srcs tgts
    let tgts := mergeAdjacentNormalChunks tgts
    let srcs := mergeAdjacentNormalChunks srcs
    if srcs.length ≠ tgts.length then .error .failed
    else do
      let made ← makePatches bz bonus 0 srcs tgts
      .ok (imagePatch made)

end PhilzTouch.ApplyPatch
