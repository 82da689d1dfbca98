import PhilzTouch.Mtd.Flash

/-!
# Reading and writing a raw partition

`mtd_write_data`, `mtd_erase_blocks`, `mtd_write_close` and `mtd_read_data` of
`mtdutils/mtdutils.c`, on a 32-bit machine.  Both sides work with whole erase blocks, keep a
partial block in a buffer, and step over the blocks that are bad.  A `.stop` is undefined
behaviour or a loop that does not end.
-/

namespace PhilzTouch.Mtd

open FlashOp Prog

/-- An unsigned number of 32 bits, converted to `int`. -/
@[irreducible] def asInt (value : Nat) : Int := (value : Int).bmod (2 ^ 32)

theorem asInt_of_lt {value : Nat} (small : value < 2 ^ 31) : asInt value = value := by
  unfold asInt
  exact Int.bmod_eq_of_le (by omega) (by omega)

/-- Seek and `read` one block; a result is a block that was read as a whole. -/
def readAt (partition : MtdPartition) (pos : Nat) : FlashProg (Option Bytes) := do
  if (← call (seek partition.device_index pos)) ≠ pos then .ret none
  else
    match ← call (read partition.device_index partition.erase_size) with
    | none => .ret none
    | some data =>
      if (data.length : Int) = asInt partition.erase_size then .ret (some data) else .ret none

/-! ## Reading -/

/-- The loop of `read_block`.  `before` is the number of failures to compare with; it is taken
anew only when a whole block was read. -/
def readBlockLoop (partition : MtdPartition) : (fuel before pos : Nat) → FlashProg (Option Bytes)
  | 0, _, _ => .stop
  | fuel + 1, before, pos =>
    if asInt partition.size < pos + asInt partition.erase_size then .ret none
    else do
      match ← readAt partition pos with
      | none => readBlockLoop partition fuel before (pos + partition.erase_size)
      | some data => do
        match ← call (eccGetStats partition.device_index) with
        | none => .ret none
        | some after =>
          if after ≠ before then
            readBlockLoop partition fuel after (pos + partition.erase_size)
          else do
            if (← call (getBadBlock partition.device_index pos)) ≠ 0 then
              readBlockLoop partition fuel before (pos + partition.erase_size)
            else .ret (some data)

def readBlock (partition : MtdPartition) : FlashProg (Option Bytes) := do
  match ← call (eccGetStats partition.device_index) with
  | none => .ret none
  | some before => do
    let pos ← call (tell partition.device_index)
    readBlockLoop partition (partition.size + 1) before pos.toNat

structure MtdReadContext where
  partition : MtdPartition
  buffer : Bytes
  consumed : Nat
  deriving DecidableEq, Repr

def mtdReadPartition (partition : MtdPartition) : FlashProg (Option MtdReadContext) := do
  if (← call malloc) = false then .ret none
  else if (← call malloc) = false then .ret none
  else if (← call (openDevice partition.device_index)) = false then .ret none
  else .ret (some ⟨partition, [], partition.erase_size⟩)

/-- Read complete blocks directly into the user's buffer: what is there then, and how much is
still needed. -/
def readWhole (partition : MtdPartition) : (fuel need : Nat) → (out : Bytes) →
    FlashProg (Option (Bytes × Nat))
  | 0, _, _ => .stop
  | fuel + 1, need, out =>
    if partition.erase_size ≤ need then do
      match ← readBlock partition with
      | none => .ret none
      | some data => readWhole partition fuel (need - partition.erase_size) (out ++ data)
    else .ret (some (out, need))

/-- The loop of `mtd_read_data`; `out` is the part of the user's buffer that is filled. -/
def readDataLoop : (fuel : Nat) → MtdReadContext → (need : Nat) → (out : Bytes) →
    FlashProg (Option (Bytes × MtdReadContext))
  | 0, _, _, _ => .stop
  | fuel + 1, ctx, need, out =>
    if need = 0 then .ret (some (out, ctx))
    else
      let copy := if ctx.consumed < ctx.partition.erase_size then
        min need (ctx.partition.erase_size - ctx.consumed) else 0
      let out := out ++ ctx.buffer.slice ctx.consumed copy
      let ctx := { ctx with consumed := ctx.consumed + copy }
      let need := need - copy
      if ctx.consumed = ctx.partition.erase_size then do
        match ← readWhole ctx.partition (need + 1) need out with
        | none => .ret none
        | some (out, need) =>
          if need = 0 then .ret (some (out, ctx))
          else do
            -- read the next block into the buffer
            match ← readBlock ctx.partition with
            | none => .ret none
            | some buffer =>
              readDataLoop fuel { ctx with buffer := buffer, consumed := 0 } need out
      else readDataLoop fuel ctx need out

/-- `mtd_read_data`.  The second round begins with a fresh buffer and finds all it needs there,
so that the third has nothing to do. -/
def mtdReadData (ctx : MtdReadContext) (len : Nat) : FlashProg (Option (Bytes × MtdReadContext)) :=
  readDataLoop 3 ctx len []

/-! ## Writing -/

/-- The tries to write one block.  A `write` that fails is only reported; what counts is
whether the block reads back as it should. -/
def tryWrite (partition : MtdPartition) (pos : Nat) (data : Bytes) : (tries : Nat) → FlashProg Bool
  | 0 => .ret false
  | tries + 1 => do
    if (← call (erase partition.device_index pos partition.erase_size)) = false then
      tryWrite partition pos data tries
    else do
      if (← call (seek partition.device_index pos)) = pos then
        let _ ← call (write partition.device_index data)
      match ← readAt partition pos with
      | none => tryWrite partition pos data tries
      | some verify => if data = verify then .ret true else tryWrite partition pos data tries

/-- The loop of `write_block`. -/
def writeBlockLoop (partition : MtdPartition) (data : Bytes) : (fuel pos : Nat) → FlashProg Bool
  | 0, _ => .stop
  | fuel + 1, pos =>
    -- pos + size does not fit an off_t
    if 2 ^ 31 ≤ pos + asInt partition.erase_size then .stop
    else if asInt partition.size < pos + asInt partition.erase_size then .ret false
    else do
      if (← call (getBadBlock partition.device_index pos)) ≠ 0 then
        writeBlockLoop partition data fuel (pos + partition.erase_size)
      else if ← tryWrite partition pos data 2 then .ret true
      else do
        let _ ← call (erase partition.device_index pos partition.erase_size)
        writeBlockLoop partition data fuel (pos + partition.erase_size)

def writeBlock (partition : MtdPartition) (data : Bytes) : FlashProg Bool := do
  let pos ← call (tell partition.device_index)
  if (← call malloc) = false then .ret false
  else writeBlockLoop partition data (partition.size + 1) pos.toNat

/-- `buffer` holds the bytes that are `stored`. -/
structure MtdWriteContext where
  partition : MtdPartition
  buffer : Bytes
  deriving DecidableEq, Repr

def mtdWritePartition (partition : MtdPartition) : FlashProg (Option MtdWriteContext) := do
  if (← call malloc) = false then .ret none
  else if (← call malloc) = false then .ret none
  else if (← call (openDevice partition.device_index)) = false then .ret none
  else .ret (some ⟨partition, []⟩)

/-- Write complete blocks directly from the user's buffer: what is left of it. -/
def writeWhole (partition : MtdPartition) : (fuel : Nat) → (data : Bytes) → FlashProg (Option Bytes)
  | 0, _ => .stop
  | fuel + 1, data =>
    if partition.erase_size ≤ data.length then do
      if (← writeBlock partition (data.take partition.erase_size)) = false then .ret none
      else writeWhole partition fuel (data.drop partition.erase_size)
    else .ret (some data)

/-- The loop of `mtd_write_data`. -/
def writeDataLoop : (fuel : Nat) → MtdWriteContext → (data : Bytes) →
    FlashProg (Option MtdWriteContext)
  | 0, _, _ => .stop
  | fuel + 1, ctx, data =>
    if data = [] then .ret (some ctx)
    else
      -- coalesce partial writes into complete blocks
      let copy := if ctx.buffer ≠ [] ∨ data.length < ctx.partition.erase_size then
        min data.length (ctx.partition.erase_size - ctx.buffer.length) else 0
      let buffer := ctx.buffer ++ data.take copy
      let data := data.drop copy
      if buffer.length = ctx.partition.erase_size then do
        if (← writeBlock ctx.partition buffer) = false then .ret none
        else
          match ← writeWhole ctx.partition (data.length + 1) data with
          | none => .ret none
          | some data => writeDataLoop fuel { ctx with buffer := [] } data
      else if buffer = [] then do
        match ← writeWhole ctx.partition (data.length + 1) data with
        | none => .ret none
        | some data => writeDataLoop fuel { ctx with buffer := [] } data
      else writeDataLoop fuel { ctx with buffer := buffer } data

/-- `mtd_write_data`; it returns the length of the data or fails. -/
def mtdWriteData (ctx : MtdWriteContext) (data : Bytes) : FlashProg (Option MtdWriteContext) :=
  writeDataLoop (data.length + 1) ctx data

/-- Erase the specified number of blocks. -/
def eraseLoop (partition : MtdPartition) : (blocks pos : Nat) → FlashProg Unit
  | 0, _ => .ret ()
  | blocks + 1, pos => do
    if 0 < (← call (getBadBlock partition.device_index pos)) then
      eraseLoop partition blocks (pos + partition.erase_size)
    else do
      let _ ← call (erase partition.device_index pos partition.erase_size)
      eraseLoop partition blocks (pos + partition.erase_size)

/-- The part of `mtd_erase_blocks` behind the pending data. -/
def eraseFrom (ctx : MtdWriteContext) (blocks : Int) : FlashProg (Option MtdWriteContext) := do
  let pos ← call (tell ctx.partition.device_index)
  if ctx.partition.erase_size = 0 then .stop
  else
    let total := asInt ((ctx.partition.size - pos.toNat) / ctx.partition.erase_size)
    let blocks := if blocks < 0 then total else blocks
    if total < blocks then .ret none
    else do
      eraseLoop ctx.partition blocks.toNat pos.toNat
      .ret (some ctx)

/-- `mtd_erase_blocks`: zero-pad and write any pending data, then erase. -/
def mtdEraseBlocks (ctx : MtdWriteContext) (blocks : Int) : FlashProg (Option MtdWriteContext) :=
  if ctx.buffer = [] then eraseFrom ctx blocks
  else do
    let zero := List.replicate (ctx.partition.erase_size - ctx.buffer.length) 0
    if (← writeBlock ctx.partition (ctx.buffer ++ zero)) = false then .ret none
    else eraseFrom { ctx with buffer := [] } blocks

def mtdWriteClose (ctx : MtdWriteContext) : FlashProg Bool := do
  let erased ← mtdEraseBlocks ctx 0
  let closed ← call close
  .ret (erased.isSome && closed)

/-! ## Whole sessions -/

/-- Calls of `mtd_write_data`, one after the other, as long as they succeed. -/
def writeCalls : MtdWriteContext → (pieces : List Bytes) → FlashProg (Option MtdWriteContext)
  | ctx, [] => .ret (some ctx)
  | ctx, piece :: pieces => do
    match ← mtdWriteData ctx piece with
    | none => .ret none
    | some ctx => writeCalls ctx pieces

/-- Write some pieces, erase the rest of the partition and close it; whether all succeeds. -/
def writeSession (partition : MtdPartition) (pieces : List Bytes) : FlashProg Bool := do
  match ← mtdWritePartition partition with
  | none => .ret false
  | some ctx => do
    match ← writeCalls ctx pieces with
    | none => .ret false
    | some ctx => do
      match ← mtdEraseBlocks ctx (-1) with
      | none => .ret false
      | some ctx => mtdWriteClose ctx

/-- Calls of `mtd_read_data` with the given lengths, as long as they succeed. -/
def readCalls : MtdReadContext → (lens : List Nat) → FlashProg (Option (List Bytes))
  | _, [] => .ret (some [])
  | ctx, len :: lens => do
    match ← mtdReadData ctx len with
    | none => .ret none
    | some (data, ctx) => do
      match ← readCalls ctx lens with
      | none => .ret none
      | some rest => .ret (some (data :: rest))

end PhilzTouch.Mtd
