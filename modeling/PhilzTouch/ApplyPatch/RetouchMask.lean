import PhilzTouch.ApplyPatch.Bspatch
import PhilzTouch.ApplyPatch.Storage

/-!
# Retouched binaries

`retouch_mask_data` of `Retouch.c`: with a desired offset it puts the words that the entries of a
binary list to their original values plus that offset, and without one it infers the offset from
the words.  `LoadFileContents` asks for an offset of 0.
-/

namespace PhilzTouch.ApplyPatch

/-- `offs_prev` and `cont_prev`. -/
structure Decoder where
  offset : Int
  contents : Nat
  deriving DecidableEq, Repr

/-- The bytes that an entry takes, from its first one. -/
def entrySize (first : Nat) : Nat := if 128 ≤ first then 2 else if 64 ≤ first then 3 else 8

/-- A difference of `bits` bits with a sign, as it is added to a word. -/
def signedDelta (bits value : Nat) : Nat :=
  if 2 ^ (bits - 1) ≤ value then 2 ^ 32 - 2 ^ bits + value else value

/-- `decode_bytes`; an entry of eight bytes does not depend on the one before. -/
def decodeBytes (previous : Decoder) (input : Nat → Nat) : Decoder :=
  if entrySize (input 0) = 2 then
    ⟨previous.offset + ((input 0 / 32 % 4 + 1) * 4 : Nat),
      (previous.contents + signedDelta 13 (input 0 % 32 * 256 + input 1)) % 2 ^ 32⟩
  else if entrySize (input 0) = 3 then
    ⟨previous.offset + ((input 0 / 16 % 4 + 1) * 4 : Nat),
      (previous.contents + signedDelta 20 (input 0 % 16 * 65536 + input 1 * 256 + input 2)) % 2 ^ 32⟩
  else
    let offset : Nat := input 0 * 2 ^ 24 + input 1 * 2 ^ 16 + input 2 * 2 ^ 8 + input 3
    ⟨if offset = 0x3fffffff then -1 else offset,
      input 4 * 2 ^ 24 + input 5 * 2 ^ 16 + input 6 * 2 ^ 8 + input 7⟩

/-- The byte at a position; an entry never reaches behind the trailer. -/
def entryByte (data : Bytes) (position : Nat) : Nat := (data[position]?.getD 0).toNat

/-- `RETOUCH_DATA_ERROR` and so on. -/
inductive RetouchData where
  | error
  | matched
  | mismatched
  | notApplicable
  deriving DecidableEq, Repr

/-- The result, the binary and `*retouch_offset` after a call. -/
structure RetouchOutcome where
  result : RetouchData
  data : Bytes
  offset : Int
  deriving DecidableEq, Repr

/-- Where the word of an entry stands; the one at offset -1 is `mmap_addr` in the trailer. -/
def entryPlace (rOffs : Nat) (entry : Decoder) : Nat :=
  if entry.offset = -1 then rOffs + 12 else entry.offset.toNat

/-- The original value of an entry plus an offset. -/
def shifted (shift : Int) (entry : Decoder) : Bytes :=
  Bytes.ofNatLE 4 ((entry.contents + shift) % 2 ^ 32).toNat

/-- The binary after an entry has been dealt with. -/
def applyEntry (desired : Option Int) (rOffs : Nat) (entry : Decoder) (data : Bytes) : Bytes :=
  match desired with
  | none => data
  | some shift => overwrite data (entryPlace rOffs entry) (shifted shift entry)

/-- `offset_of_this_entry`. -/
def entryShift (rOffs : Nat) (entry : Decoder) (data : Bytes) : Int :=
  wrap ((data.slice (entryPlace rOffs entry) 4).toNatLE - entry.contents)

def entryAt (data : Bytes) (ptr : Nat) (previous : Decoder) : Decoder :=
  decodeBytes previous fun index => entryByte data (ptr + index)

/-- The loop over the entries.  `candidate` is `offset_candidate` once it is set. -/
def retouchLoop (desired : Option Int) (bOffs rOffs : Nat) : (fuel ptr : Nat) → Decoder → Bytes →
    (candidate : Option Int) → (mismatch : Bool) → RetouchOutcome
  | 0, _, _, data, _, _ => ⟨.error, data, desired.getD 0⟩
  | fuel + 1, ptr, previous, data, candidate, mismatch =>
    if ptr < rOffs then
      let entry := entryAt data ptr previous
      if entry.offset < -1 ∨ bOffs ≤ entry.offset then ⟨.error, data, desired.getD 0⟩
      else
        let after := applyEntry desired rOffs entry data
        let offset := entryShift rOffs entry after
        retouchLoop desired bOffs rOffs fuel (ptr + entrySize (entryByte data ptr)) entry after
          (some (candidate.getD offset)) (mismatch || candidate.any (· ≠ offset))
    else if rOffs < ptr then ⟨.error, data, desired.getD 0⟩
    else if mismatch then ⟨.mismatched, data, desired.getD 0⟩
    else ⟨.matched, data, candidate.getD (desired.getD 0)⟩

/-- Whether the last 20 bytes are a `retouch_info_t` and a `prelink_info_t`: the tags
`"RETOUCH "` and `"PRE "`. -/
def hasRetouchTrailer (data : Bytes) : Bool :=
  20 ≤ data.length && (data.drop (data.length - 20)).take 8 =
      [0x52, 0x45, 0x54, 0x4F, 0x55, 0x43, 0x48, 0x20] &&
    data.drop (data.length - 4) = [0x50, 0x52, 0x45, 0x20]

/-- `retouch_mask_data`, for a binary whose size is an `int32_t`. -/
def retouchMaskData (data : Bytes) (desired : Option Int) : RetouchOutcome :=
  if hasRetouchTrailer data then
    let rOffs := data.length - 20
    let bOffs := wrap (rOffs - (data.slice (rOffs + 8) 4).toNatLE)
    if bOffs < 0 then ⟨.error, data, desired.getD 0⟩
    else retouchLoop desired bOffs.toNat rOffs (rOffs + 1) bOffs.toNat ⟨0, 0⟩ data none false
  else ⟨if desired.isNone then .notApplicable else .matched, data, desired.getD 0⟩

/-- What masking makes of the contents of a file. -/
inductive Masked where
  | matched (data : Bytes)
  | failed
  /-- Outside of the model. -/
  | unknown
  deriving DecidableEq

/-- What a call leaves for `LoadFileContents`. -/
def RetouchOutcome.masked (outcome : RetouchOutcome) : Masked :=
  if outcome.result = .matched then .matched outcome.data else .failed

/-- The masking of a loaded file: a call with a desired offset of 0. -/
def retouchMask (data : Bytes) : Masked :=
  if 2 ^ 31 ≤ data.length then .unknown else (retouchMaskData data (some 0)).masked

end PhilzTouch.ApplyPatch
