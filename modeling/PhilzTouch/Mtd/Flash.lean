import PhilzTouch.Lib.Memory
import PhilzTouch.Lib.Program

/-!
# Raw flash partitions

The partitions of a flash chip as the programs of `mtdutils` see them: erase blocks that may be
bad, a driver that counts the reads it could not correct, and one descriptor for each partition.
Programming a block can only clear bits, so a block has to be erased before it is written.

The environment decides which calls fail, what a failed call leaves in the block it was made
for, and what the read of a bad block gives.
-/

namespace PhilzTouch.Mtd

open Function

/-- The geometry of a partition. -/
structure MtdInfo where
  size : Nat
  erasesize : Nat
  deriving DecidableEq, Repr

/-- The partitions of a chip: their geometry and their bad erase blocks. -/
structure Chip where
  info : Nat → MtdInfo
  bad : (device block : Nat) → Bool

/-- The position belongs to a bad erase block. -/
def Chip.isBad (chip : Chip) (device position : Nat) : Bool :=
  chip.bad device (position / (chip.info device).erasesize)

/-- System calls on the descriptor of a partition. -/
inductive FlashOp where
  | malloc
  | openDevice (device : Nat)
  | close
  /-- `lseek` by 0 from the current position. -/
  | tell (device : Nat)
  | seek (device : Nat) (offset : Int)
  | read (device count : Nat)
  | write (device : Nat) (data : Bytes)
  | getBadBlock (device : Nat) (offset : Int)
  | erase (device start length : Nat)
  | eccGetStats (device : Nat)
  deriving DecidableEq, Repr

abbrev FlashReply : FlashOp → Type
  | .malloc => Bool
  | .openDevice _ => Bool
  | .close => Bool
  | .tell _ => Int
  | .seek _ _ => Int
  | .read _ _ => Option Bytes
  | .write _ _ => Int
  | .getBadBlock _ _ => Int
  | .erase _ _ _ => Bool
  | .eccGetStats _ => Option Nat

/-- What the environment decides about a call. -/
inductive FlashChoice where
  | ok
  | fail
  /-- A transfer of one byte more than this at most. -/
  | short (count : Nat)
  /-- A failure that leaves this content behind. -/
  | damage (content : Bytes)
  /-- The read of a bad block: its result, and how many failures the driver counts. -/
  | noise (result : Option Bytes) (failures : Nat)
  deriving DecidableEq, Repr

/-- The content of the partitions, the failures that the driver has counted, and the positions of
the descriptors. -/
structure FlashState where
  cells : Nat → Memory
  failed : Nat → Nat
  position : Nat → Nat

namespace FlashState

/-- The partition `device` with `data` at `start`. -/
def store (state : FlashState) (device start : Nat) (data : Bytes) : FlashState :=
  { state with
    cells := update state.cells device ((state.cells device).store start data) }

/-- The `count` bytes of the partition at `start`. -/
def load (state : FlashState) (device start count : Nat) : Bytes :=
  (state.cells device).load start count

def moveTo (state : FlashState) (device position : Nat) : FlashState :=
  { state with position := update state.position device position }

variable (state : FlashState) (device start count : Nat)

@[simp] theorem length_load : (state.load device start count).length = count :=
  Memory.length_load _ _ _

@[simp] theorem load_moveTo (other position : Nat) :
    (state.moveTo other position).load device start count = state.load device start count := rfl

@[simp] theorem failed_moveTo (position : Nat) :
    (state.moveTo device position).failed = state.failed := rfl

@[simp] theorem position_moveTo (position : Nat) :
    (state.moveTo device position).position device = position := by
  simp [moveTo]

@[simp] theorem moveTo_moveTo (first second : Nat) :
    (state.moveTo device first).moveTo device second = state.moveTo device second := by
  simp [moveTo]

theorem load_store (data : Bytes) :
    (state.store device start data).load device start data.length = data := by
  simp only [load, store, update_self, Memory.load_store]

theorem load_store_apart {data : Bytes} {other : Nat}
    (apart : other + count ≤ start ∨ start + data.length ≤ other) :
    (state.store device start data).load device other count = state.load device other count := by
  simp only [load, store, update_self, Memory.load_store_apart apart]

end FlashState

/-- What is in cells that held `old` and are programmed with `data`. -/
def program (old data : Bytes) : Bytes := List.zipWith (· &&& ·) old data

/-- The bytes that a transfer of at most `count` of them moves. -/
def transferred (choice : FlashChoice) (count : Nat) : Nat :=
  match choice with
  | .short less => min (less + 1) count
  | _ => count

/-- A `read` of a block that is not bad, or that is as if it were not. -/
def readCells (chip : Chip) (state : FlashState) (device count : Nat) (choice : FlashChoice) :
    FlashState × Option Bytes :=
  let start := state.position device
  let count := transferred choice (min count ((chip.info device).size - start))
  (state.moveTo device (start + count), some (state.load device start count))

def flashPerform (chip : Chip) : (op : FlashOp) → FlashChoice → FlashState →
    FlashState × FlashReply op
  | .malloc, choice, state => (state, (choice ≠ .fail : Bool))
  | .openDevice device, choice, state =>
    if choice = .fail then (state, false) else (state.moveTo device 0, true)
  | .close, choice, state => (state, (choice ≠ .fail : Bool))
  | .tell device, _, state => (state, (state.position device : Int))
  | .seek device offset, _, state =>
    if 0 ≤ offset ∧ offset ≤ (chip.info device).size then
      (state.moveTo device offset.toNat, offset)
    else (state, -1)
  | .read device count, choice, state =>
    match choice with
    | .fail => (state, none)
    | .damage _ => (state, none)
    | .noise result failures =>
      if chip.isBad device (state.position device) then
        ({ state with
            failed := update state.failed device (state.failed device + failures) },
          result.map (·.take count))
      else (state, none)
    | other => readCells chip state device count other
  | .write device data, choice, state =>
    let start := state.position device
    match choice with
    | .ok =>
      if start + data.length ≤ (chip.info device).size then
        ((state.store device start (program (state.load device start data.length) data)).moveTo
          device (start + data.length), (data.length : Int))
      else (state, -1)
    | .damage content => (state.store device start (content.take data.length), -1)
    | _ => (state, -1)
  | .getBadBlock device offset, _, state =>
    if 0 ≤ offset ∧ offset < (chip.info device).size then
      (state, if chip.isBad device offset.toNat then 1 else 0)
    else (state, -1)
  | .erase device start length, choice, state =>
    match choice with
    | .ok =>
      if start % (chip.info device).erasesize = 0 ∧ start + length ≤ (chip.info device).size then
        (state.store device start (List.replicate length 0xff), true)
      else (state, false)
    | .damage content => (state.store device start (content.take length), false)
    | _ => (state, false)
  | .eccGetStats device, choice, state =>
    (state, if choice = .fail then none else some (state.failed device))

abbrev flashMachine (chip : Chip) : Machine FlashOp FlashReply where
  Choice := FlashChoice
  State := FlashState
  perform := flashPerform chip

abbrev FlashProg := Prog FlashOp FlashReply

/-- A partition as `mtd_scan_partitions` has found it. -/
structure MtdPartition where
  device_index : Nat
  size : Nat
  erase_size : Nat
  deriving DecidableEq, Repr

/-- The numbers of `/proc/mtd` are those of the partition, and its erase blocks are not
empty. -/
structure Scanned (chip : Chip) (partition : MtdPartition) : Prop where
  size : partition.size = (chip.info partition.device_index).size
  erase_size : partition.erase_size = (chip.info partition.device_index).erasesize
  positive : 0 < partition.erase_size

end PhilzTouch.Mtd
