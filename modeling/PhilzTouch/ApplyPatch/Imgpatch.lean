import PhilzTouch.ApplyPatch.Bspatch
import PhilzTouch.Lib.Program

/-!
# Applying an image patch

`ApplyBSDiffPatch` of `bspatch.c` and `ApplyImagePatch` of `imgpatch.c`, for any sink.
A sink is a program: it may request operations, and it carries a state of its own (the
memory sink's buffer).  The SHA-1 context is the string of bytes hashed so far.
-/

namespace PhilzTouch.ApplyPatch

def read4 (bytes : Bytes) : Int := wrap (Bytes.toNatLE (bytes.take 4))

/-- `Read8`, stored in a `size_t` of 32 bits. -/
def read8Size (bytes : Bytes) : Nat := Bytes.toNatLE (bytes.take 8) % 2 ^ 32

/-- Parameters of `deflateInit2`. -/
structure DeflateParams where
  level : Int
  method : Int
  windowBits : Int
  memLevel : Int
  strategy : Int
  deriving DecidableEq, Repr

structure Zlib where
  /-- The raw deflate stream at the front of some input: what it expands to, and how
  many bytes of the input it takes. -/
  inflate : Bytes → Option (Bytes × Nat)
  /-- What `deflate` puts into an output buffer of the given size, call by call, until
  it returns `Z_STREAM_END`; nothing if it never does. -/
  deflate : DeflateParams → Bytes → (room : Nat) → Option (List Bytes)

/-- `CHUNK_NORMAL`, `CHUNK_DEFLATE` and `CHUNK_RAW`. -/
def chunkNormal : Int := 0

@[inherit_doc chunkNormal] def chunkDeflate : Int := 2

@[inherit_doc chunkNormal] def chunkRaw : Int := 3

/-- `"IMGDIFF2"`. -/
def imgdiffMagic : Bytes := [0x49, 0x4D, 0x47, 0x44, 0x49, 0x46, 0x46, 0x32]

/-- The data that a pointer and a length of type `ssize_t` stand for in a comparison
with indices: none when the length is negative. -/
def signedRead (memory : Value) (start length : Nat) : Bytes :=
  memory.read start (wrap length).toNat

variable {Op : Type} {Reply : Op → Type} {σ : Type}

/-- `SinkFn`, with the state behind its token. -/
abbrev Sink (Op : Type) (Reply : Op → Type) (σ : Type) := Bytes → σ → Prog Op Reply (Int × σ)

/-- What a patch routine leaves: its result, the state of the sink and the bytes
hashed. -/
structure Applied (σ : Type) where
  result : Int
  sink : σ
  ctx : Bytes
  deriving DecidableEq

def applyBSDiffPatch (bz : Bz2) (old : Bytes) (patch : Value) (patchOffset : Int)
    (sink : Sink Op Reply σ) (token : σ) (ctx : Bytes) : Prog Op Reply (Applied σ) :=
  match applyBSDiffPatchMem bz old patch patchOffset with
  | .error .failed => .ret ⟨-1, token, ctx⟩
  | .error _ => .stop
  | .ok new => do
    let (count, token) ← sink new token
    if count < new.length then .ret ⟨1, token, ctx⟩
    else .ret ⟨0, token, ctx ++ new⟩

/-- The buffers that `deflate` has filled go to the sink one after the other. -/
def sinkPieces (sink : Sink Op Reply σ) : (pieces : List Bytes) → (token : σ) → (ctx : Bytes) →
    Prog Op Reply (Applied σ)
  | [], token, ctx => .ret ⟨0, token, ctx⟩
  | piece :: pieces, token, ctx => do
    let (count, token) ← sink piece token
    if count ≠ piece.length then .ret ⟨-1, token, ctx⟩
    else sinkPieces sink pieces token (ctx ++ piece)

/-- The fields of a `CHUNK_DEFLATE` header. -/
structure DeflateHeader where
  srcStart : Nat
  srcLen : Nat
  patchOffset : Nat
  expandedLen : Nat
  params : DeflateParams

/-- The header of a `CHUNK_DEFLATE` at `pos`; `target_len` is read and not used. -/
def deflateHeader (patch : Value) (pos : Int) : DeflateHeader where
  srcStart := read8Size (patch.read pos 8)
  srcLen := read8Size (patch.read (pos + 8) 8)
  patchOffset := read8Size (patch.read (pos + 16) 8)
  expandedLen := read8Size (patch.read (pos + 24) 8)
  params := {
    level := read4 (patch.read (pos + 40) 4)
    method := read4 (patch.read (pos + 44) 4)
    windowBits := read4 (patch.read (pos + 48) 4)
    memLevel := read4 (patch.read (pos + 52) 4)
    strategy := read4 (patch.read (pos + 56) 4) }

/-- The source of a `CHUNK_DEFLATE`, expanded and with the bonus data appended.  One
call of `inflate` has to fill the buffer up to the size of the bonus data. -/
def expandSource (zlib : Zlib) (old : Value) (bonus : Bytes) (header : DeflateHeader) :
    Except Stop Bytes :=
  match zlib.inflate (old.read header.srcStart header.srcLen) with
  | none => .error .failed
  | some (expanded, _) =>
    if header.expandedLen < expanded.length then .error .failed
    else if header.expandedLen - expanded.length ≠ bonus.length then .error .failed
    else .ok (expanded ++ bonus)

/-- The bonus data that chunk `i` uses. -/
def bonusFor (bonus : Option Value) (i : Nat) : Bytes :=
  if i = 1 then (bonus.map Value.data).getD [] else []

/-- What a `CHUNK_DEFLATE` writes, buffer by buffer. -/
def deflatePieces (zlib : Zlib) (bz : Bz2) (old patch : Value) (bonus : Bytes)
    (header : DeflateHeader) : Except Stop (List Bytes) := do
  let expanded ← expandSource zlib old bonus header
  let target ← applyBSDiffPatchMem bz (expanded.take (wrap header.expandedLen).toNat) patch
    (wrap header.patchOffset)
  match zlib.deflate header.params target (max (wrap header.expandedLen).toNat 32768) with
  | none => .error .hang
  | some pieces => .ok pieces

/-- A chunk of an image patch, as its record gives it. -/
inductive Chunk where
  | normal (srcStart srcLen patchOffset : Nat)
  | raw (data : Bytes)
  | deflate (header : DeflateHeader)

/-- `pos > patch->size`, with `pos` a sum in 32 bits.  One that wraps passes the check, and
bytes behind the patch are read. -/
def checkEnd (patch : Value) (pos : Int) : Except Stop Unit :=
  if 2 ^ 31 ≤ pos then .error .wild
  else if pos > patch.data.length then .error .failed
  else .ok ()

/-- The rest of a `CHUNK_RAW` record at `pos`, and where the next record starts.  A
negative length passes the check of the source. -/
def readRaw (patch : Value) (pos : Int) : Except Stop (Chunk × Int) := do
  checkEnd patch (pos + 4)
  let dataLen := read4 (patch.read pos 4)
  let pos := pos + 4
  if dataLen < 0 then .error .wild
  else do
    checkEnd patch (pos + dataLen)
    .ok (.raw (patch.read pos dataLen.toNat), pos + dataLen)

/-- The record at `pos`, and where the next one starts. -/
def readChunk (patch : Value) (pos : Int) : Except Stop (Chunk × Int) := do
  checkEnd patch (pos + 4)
  let type := read4 (patch.read pos 4)
  let pos := pos + 4
  if type = chunkNormal then do
    checkEnd patch (pos + 24)
    .ok (.normal (read8Size (patch.read pos 8)) (read8Size (patch.read (pos + 8) 8))
      (read8Size (patch.read (pos + 16) 8)), pos + 24)
  else if type = chunkRaw then readRaw patch pos
  else if type = chunkDeflate then do
    checkEnd patch (pos + 60)
    .ok (.deflate (deflateHeader patch pos), pos + 60)
  else .error .failed

/-- The number of chunks that the patch header lists. -/
def chunkCount (patch : Value) : Nat := (read4 (patch.read 8 4)).toNat

/-- The loop over the chunks of an image patch: `left` chunks remain, the next one has
number `i` and its record starts at `pos`. -/
def applyChunks (zlib : Zlib) (bz : Bz2) (old patch : Value) (bonus : Option Value)
    (sink : Sink Op Reply σ) : (left i : Nat) → (pos : Int) → (token : σ) → (ctx : Bytes) →
      Prog Op Reply (Applied σ)
  | 0, _, _, token, ctx => .ret ⟨0, token, ctx⟩
  | left + 1, i, pos, token, ctx =>
    match readChunk patch pos with
    | .error .failed => .ret ⟨-1, token, ctx⟩
    | .error _ => .stop
    | .ok (.normal srcStart srcLen patchOffset, pos) => do
      -- the result of this call is ignored
      let applied ← applyBSDiffPatch bz (signedRead old srcStart srcLen) patch
        (wrap patchOffset) sink token ctx
      applyChunks zlib bz old patch bonus sink left (i + 1) pos applied.sink applied.ctx
    | .ok (.raw data, pos) => do
      let (count, token) ← sink data token
      if count ≠ data.length then .ret ⟨-1, token, ctx ++ data⟩
      else applyChunks zlib bz old patch bonus sink left (i + 1) pos token (ctx ++ data)
    | .ok (.deflate header, pos) =>
      match deflatePieces zlib bz old patch (bonusFor bonus i) header with
      | .error .failed => .ret ⟨-1, token, ctx⟩
      | .error _ => .stop
      | .ok pieces => do
        let applied ← sinkPieces sink pieces token ctx
        if applied.result ≠ 0 then .ret applied
        else applyChunks zlib bz old patch bonus sink left (i + 1) pos applied.sink applied.ctx

def applyImagePatch (zlib : Zlib) (bz : Bz2) (old patch : Value) (bonus : Option Value)
    (sink : Sink Op Reply σ) (token : σ) (ctx : Bytes) : Prog Op Reply (Applied σ) :=
  if patch.data.length < 12 then .ret ⟨-1, token, ctx⟩
  else if patch.read 0 8 ≠ imgdiffMagic then .ret ⟨-1, token, ctx⟩
  else applyChunks zlib bz old patch bonus sink (chunkCount patch) 0 12 token ctx

/-- A patch whose header is accepted. -/
def HeaderAccepted (patch : Value) : Prop :=
  12 ≤ patch.data.length ∧ patch.read 0 8 = imgdiffMagic

end PhilzTouch.ApplyPatch
