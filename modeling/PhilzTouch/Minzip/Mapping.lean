import PhilzTouch.Lib.Bytes

/-!
# Memory-mapped files

The archive is a block of memory at some address; every read goes through the mapping
and a read outside it is a fault.  Pointers and `unsigned int` values are natural
numbers below `2 ^ 32`, `long` values are integers.
-/

namespace PhilzTouch.Minzip

/-- A file mapped into memory.  The block does not wrap around the end of the
address space. -/
structure MemMapping where
  addr : Nat
  data : Bytes
  fits : addr + data.length < 2 ^ 32

namespace MemMapping

def length (map : MemMapping) : Nat := map.data.length

def stop (map : MemMapping) : Nat := map.addr + map.length

end MemMapping

/-- The two ways in which parsing ends early: `goto bail`, and a read outside the
mapping. -/
inductive Stop where
  | bail
  | fault
  deriving DecidableEq, Repr

/-- Computations that may stop early. -/
abbrev Parse := Except Stop

/-- `goto bail` when the condition holds. -/
def bailIf (condition : Prop) [Decidable condition] : Parse Unit :=
  if condition then .error .bail else .ok ()

/-- Pointer plus offset, modulo the size of the address space. -/
def padd (ptr offset : Nat) : Nat := (ptr + offset) % 2 ^ 32

/-- Conversion of a 32-bit `unsigned int` to `long`. -/
def toLong (value : Nat) : Int := Int.bmod value (2 ^ 32)

/-- Conversion of a `long` to `size_t`. -/
def toSize (value : Int) : Nat := (value % 2 ^ 32).toNat

def get1 (map : MemMapping) (ptr : Nat) : Parse UInt8 :=
  if map.addr ≤ ptr then
    match map.data[ptr - map.addr]? with
    | some byte => .ok byte
    | none => .error .fault
  else
    .error .fault

/-- Read `count` consecutive bytes as a little-endian number. -/
def getLE (map : MemMapping) : (count ptr : Nat) → Parse Nat
  | 0, _ => .ok 0
  | count + 1, ptr => do
    let byte ← get1 map ptr
    let rest ← getLE map count (padd ptr 1)
    return byte.toNat + 256 * rest

def get2LE (map : MemMapping) (ptr : Nat) : Parse Nat := getLE map 2 ptr

def get4LE (map : MemMapping) (ptr : Nat) : Parse Nat := getLE map 4 ptr

/-- The bytes at `ptr`, faulting like the string functions that walk them. -/
def getBytes (map : MemMapping) : (count ptr : Nat) → Parse Bytes
  | 0, _ => .ok []
  | count + 1, ptr => do
    let byte ← get1 map ptr
    let rest ← getBytes map count (padd ptr 1)
    return byte :: rest

namespace MemMapping

variable (map : MemMapping)

theorem padd_addr (start offset : Nat) (inside : start + offset ≤ map.length) :
    padd (map.addr + start) offset = map.addr + (start + offset) := by
  have fits := map.fits
  have total : map.length = map.data.length := rfl
  unfold padd
  rw [Nat.mod_eq_of_lt (by omega)]
  omega

theorem padd_one {start : Nat} (inside : start < map.data.length) :
    padd (map.addr + start) 1 = map.addr + (start + 1) :=
  map.padd_addr start 1 inside

theorem get1_addr {start : Nat} (inside : start < map.data.length) :
    get1 map (map.addr + start) = .ok map.data[start] := by
  simp [get1, inside]

theorem get1_fault {ptr : Nat} (outside : ptr < map.addr ∨ map.stop ≤ ptr) :
    get1 map ptr = .error .fault := by
  rw [get1]
  rcases outside with below | above
  · rw [if_neg (Nat.not_le.mpr below)]
  · simp only [stop, length] at above
    rw [if_pos (by omega), List.getElem?_eq_none (by omega)]

theorem getLE_addr (count start : Nat) (inside : start + count ≤ map.data.length) :
    getLE map count (map.addr + start) = .ok (map.data.slice start count).toNatLE := by
  induction count generalizing start with
  | zero => simp [getLE, Bytes.slice, Bytes.toNatLE]
  | succ count ih =>
    have head : start < map.data.length := by omega
    simp only [getLE, get1_addr map head, padd_one map head, ih (start + 1) (by omega),
      Bytes.slice_succ head, Bytes.toNatLE]
    rfl

theorem getBytes_addr (count start : Nat) (inside : start + count ≤ map.data.length) :
    getBytes map count (map.addr + start) = .ok (map.data.slice start count) := by
  induction count generalizing start with
  | zero => simp [getBytes, Bytes.slice]
  | succ count ih =>
    have head : start < map.data.length := by omega
    simp only [getBytes, get1_addr map head, padd_one map head, ih (start + 1) (by omega),
      Bytes.slice_succ head]
    rfl

end MemMapping

end PhilzTouch.Minzip
