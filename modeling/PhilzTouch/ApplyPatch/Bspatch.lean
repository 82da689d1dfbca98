import PhilzTouch.Lib.Bytes
import Mathlib.Data.Int.Basic
import Mathlib.Data.List.GetD

/-!
# Applying a bsdiff patch

The decoder of `bspatch.c`, on a device whose `off_t`, `ssize_t` and `int` are
32 bits wide.  Signed results that do not fit wrap.  A read outside the patch
sees whatever the memory around it holds; a write outside the output buffer is
the end of what can be said about the run (`Stop.wild`).
-/

namespace PhilzTouch.ApplyPatch

/-- A signed 32-bit result. -/
def wrap (value : Int) : Int := value.bmod (2 ^ 32)

theorem wrap_eq {value : Int} (low : -2 ^ 31 ≤ value) (high : value < 2 ^ 31) :
    wrap value = value := by
  apply Int.bmod_eq_of_le <;> omega

theorem wrap_lt (value : Int) : wrap value < 2 ^ 31 := by
  have := @Int.bmod_lt value (2 ^ 32) (by decide)
  rw [wrap]
  omega

theorem le_wrap (value : Int) : -2 ^ 31 ≤ wrap value := by
  have := @Int.le_bmod value (2 ^ 32) (by decide)
  rw [wrap]
  omega

/-- How a decompressor leaves a stream whose output has been used up. -/
inductive BzEnd where
  /-- The end-of-stream marker was read: a further call is a sequence error. -/
  | streamEnd
  /-- The input ran out first: every further call succeeds and produces nothing. -/
  | starved
  /-- The input is not a bzip2 stream from here on. -/
  | corrupt
  deriving DecidableEq, Repr

/-- The bzip2 library: what it writes for some data, and what it reads back from
some input. -/
structure Bz2 where
  compress : Bytes → Bytes
  decompress : Bytes → Bytes × BzEnd

/-- Decompression inverts compression. -/
def Bz2.Inverts (bz : Bz2) : Prop :=
  ∀ data, bz.decompress (bz.compress data) = (data, .streamEnd)

/-- A block of memory handed to the patch routines: its bytes, whose number is an
`ssize_t`, and what the memory around the block holds. -/
structure Value where
  data : Bytes
  around : Int → UInt8
  fits : data.length < 2 ^ 31

namespace Value

/-- The byte at an offset from the start of the block. -/
def peek (value : Value) (offset : Int) : UInt8 :=
  if 0 ≤ offset then value.data.getD offset.toNat (value.around offset) else value.around offset

/-- The `count` bytes from an offset on. -/
def read (value : Value) (offset : Int) (count : Nat) : Bytes :=
  (List.range count).map fun index : Nat => value.peek (offset + index)

@[simp] theorem length_read (value : Value) (offset : Int) (count : Nat) :
    (value.read offset count).length = count := by
  simp [read]

theorem read_inside (value : Value) {offset count : Nat}
    (inside : offset + count ≤ value.data.length) :
    value.read offset count = value.data.slice offset count := by
  apply List.ext_getElem
  · simp
    omega
  · intro index _ _
    simp only [read, List.getElem_map, List.getElem_range, peek]
    rw [if_pos (by omega), List.getD_eq_getElem _ _ (by simp at *; omega)]
    simp [Bytes.slice]
    congr 1

theorem read_of_drop (value : Value) {offset : Nat} {found rest : Bytes}
    (stands : value.data.drop offset = found ++ rest) (inside : offset ≤ value.data.length) :
    value.read offset found.length = found := by
  have length := congrArg List.length stands
  rw [List.length_drop, List.length_append] at length
  rw [value.read_inside (by omega), Bytes.slice, stands, List.take_left]

end Value

/-- Why a patch routine stops without a result. -/
inductive Stop where
  /-- It returns an error code. -/
  | failed
  /-- It never returns. -/
  | hang
  /-- It has written outside its buffers: nothing can be said any more. -/
  | wild
  deriving DecidableEq, Repr

/-- `offtin`: eight bytes, the top bit of the last one being the sign. -/
def offtin (buf : Bytes) : Int :=
  let top := buf.getD 7 0
  let y := wrap (Bytes.toNatLE (buf.take 7 ++ [top &&& 0x7F]))
  if top &&& 0x80 ≠ 0 then wrap (-y) else y

/-- A decompressor: the output it still has to give, and how it ends then. -/
abbrev BzStream := Bytes × BzEnd

/-- `FillBuffer`: `size` bytes of the stream, and the stream after them. -/
def fillBuffer (size : Nat) (stream : BzStream) : Except Stop (Bytes × BzStream) :=
  if size ≤ stream.1.length then
    .ok (stream.1.take size, (stream.1.drop size, stream.2))
  else if stream.2 = .starved then .error .hang
  else .error .failed

/-- The byte of `old_data` that is added at `oldpos + i`. -/
def oldByte (old : Bytes) (place : Int) : UInt8 :=
  if 0 ≤ place then old.getD place.toNat 0 else 0

/-- The diff bytes with the old data added to them. -/
def addOld (old : Bytes) (oldpos : Int) (diff : Bytes) : Bytes :=
  diff.mapIdx fun i byte => byte + oldByte old (oldpos + i)

/-- `newpos + count > *new_size`, with the sum in 32 bits.  A sum that wraps passes
the check, and what the stream then has more than there is room for is written behind
the buffer. -/
def checkRoom (newpos : Nat) (count : Int) (newSize : Int) (stream : BzStream) : Except Stop Unit :=
  if wrap (newpos + count) > newSize then .error .failed
  else if newSize < newpos + min count stream.1.length then .error .wild
  else .ok ()

/-- The loop over the control triples.  `out` is the part of `*new_data` written so
far, so `newpos` is its length; `fuel` bounds the number of triples. -/
def applyTriples (old : Bytes) (newSize : Int) :
    (fuel : Nat) → (oldpos : Int) → (out : Bytes) → (cstream dstream estream : BzStream) →
      Except Stop Bytes
  | 0, _, _, _, _, _ => .error .hang
  | fuel + 1, oldpos, out, cstream, dstream, estream =>
    if newSize ≤ out.length then .ok out
    else do
      let (buf, cstream) ← fillBuffer 24 cstream
      let ctrl0 := offtin buf
      let ctrl1 := offtin (buf.drop 8)
      let ctrl2 := offtin (buf.drop 16)
      if ctrl0 < 0 ∨ ctrl1 < 0 then .error .failed
      else do
        checkRoom out.length ctrl0 newSize dstream
        let (diff, dstream) ← fillBuffer ctrl0.toNat dstream
        let out := out ++ addOld old oldpos diff
        let oldpos := wrap (oldpos + ctrl0)
        checkRoom out.length ctrl1 newSize estream
        let (extra, estream) ← fillBuffer ctrl1.toNat estream
        applyTriples old newSize fuel (wrap (oldpos + ctrl2)) (out ++ extra) cstream dstream estream

/-- `"BSDIFF40"`. -/
def bsdiffMagic : Bytes := [0x42, 0x53, 0x44, 0x49, 0x46, 0x46, 0x34, 0x30]

/-- `ApplyBSDiffPatchMem`: the new data, for a patch that starts at `patchOffset`. -/
def applyBSDiffPatchMem (bz : Bz2) (old : Bytes) (patch : Value) (patchOffset : Int) :
    Except Stop Bytes :=
  if patch.read patchOffset 8 ≠ bsdiffMagic then .error .failed
  else
    let ctrlLen := offtin (patch.read (patchOffset + 8) 8)
    let dataLen := offtin (patch.read (patchOffset + 16) 8)
    let newSize := offtin (patch.read (patchOffset + 24) 8)
    if ctrlLen < 0 ∨ dataLen < 0 ∨ newSize < 0 then .error .failed
    else
      let extraStart := patchOffset + 32 + ctrlLen + dataLen
      let extraLen := (patch.data.length - extraStart) % 2 ^ 32
      let cstream := bz.decompress (patch.read (patchOffset + 32) ctrlLen.toNat)
      let dstream := bz.decompress (patch.read (patchOffset + 32 + ctrlLen) dataLen.toNat)
      let estream := bz.decompress (patch.read extraStart extraLen.toNat)
      applyTriples old newSize (cstream.1.length + 1) 0 [] cstream dstream estream

end PhilzTouch.ApplyPatch
