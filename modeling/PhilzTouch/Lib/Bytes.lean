import Mathlib.Algebra.Group.Int.Defs
import Mathlib.Algebra.GroupWithZero.Nat
import Mathlib.Data.List.Basic

/-!
# Byte strings and little-endian numbers

Files, memory blocks and patches are lists of bytes.  This module fixes the two
readings every format below needs: the little-endian value of a byte string and
the little-endian digits of a number.
-/

namespace PhilzTouch

open List

/-- A finite string of bytes: a file, a buffer or a block of a device. -/
abbrev Bytes := List UInt8

instance Bytes.lawfulBEq : LawfulBEq Bytes := inferInstanceAs (LawfulBEq (List UInt8))

/-- The code of a character of the C source. -/
def byte (char : Char) : UInt8 := UInt8.ofNat char.toNat

/-- The codes of a string of the C source. -/
def ascii (text : String) : Bytes := text.toList.map byte

theorem some_bind {α β : Type} (value : α) (rest : α → Option β) : (some value >>= rest) = rest value :=
  rfl

theorem bind_ok {ε α β : Type} {first : Except ε α} {next : α → Except ε β} {result : β}
    (run : first >>= next = .ok result) : ∃ value, first = .ok value ∧ next value = .ok result := by
  cases first with
  | error fault => cases run
  | ok value => exact ⟨value, rfl, run⟩

namespace Bytes

/-- The bytes of `bytes` at positions `start, …, start + count - 1`, cut short at
the end of the string. -/
def slice (bytes : Bytes) (start count : Nat) : Bytes :=
  (bytes.drop start).take count

@[simp] theorem length_slice (bytes : Bytes) (start count : Nat) :
    (bytes.slice start count).length = min count (bytes.length - start) := by
  simp [slice]

theorem slice_succ {bytes : Bytes} {start : Nat} (inside : start < bytes.length) (count : Nat) :
    bytes.slice start (count + 1) = bytes[start] :: bytes.slice (start + 1) count := by
  rw [slice, drop_eq_getElem_cons inside, take_succ_cons, slice]

/-- A slice of a prefix is the slice of the whole when it ends inside the
prefix. -/
theorem slice_take (bytes : Bytes) {start count size : Nat} (inside : start + count ≤ size) :
    slice (bytes.take size) start count = bytes.slice start count := by
  simp only [slice, drop_take, take_take]
  congr 1
  omega

theorem slice_append_slice (bytes : Bytes) (start left right : Nat) :
    bytes.slice start left ++ bytes.slice (start + left) right =
      bytes.slice start (left + right) := by
  simp only [slice, take_add, drop_drop]

theorem take_append_slice (bytes : Bytes) (start count : Nat) :
    bytes.take start ++ bytes.slice start count = bytes.take (start + count) :=
  take_add.symm

theorem drop_of_drop {bytes first rest : Bytes} {offset : Nat}
    (found : bytes.drop offset = first ++ rest) : bytes.drop (offset + first.length) = rest := by
  rw [← drop_drop, found, drop_left]

def toNatLE : Bytes → Nat
  | [] => 0
  | byte :: rest => byte.toNat + 256 * toNatLE rest

theorem toNatLE_lt (bytes : Bytes) : bytes.toNatLE < 256 ^ bytes.length := by
  induction bytes with
  | nil => simp [toNatLE]
  | cons byte rest ih =>
    have small := byte.toNat_lt
    simp only [toNatLE, length_cons, Nat.pow_succ]
    omega

/-- The `width` low little-endian digits of `value`. -/
def ofNatLE : (width value : Nat) → Bytes
  | 0, _ => []
  | width + 1, value => UInt8.ofNat value :: ofNatLE width (value / 256)

@[simp] theorem length_ofNatLE (width value : Nat) : (ofNatLE width value).length = width := by
  induction width generalizing value with
  | zero => rfl
  | succ width ih => simp [ofNatLE, ih]

/-- Reading back the digits of a number loses only what the width cannot hold. -/
theorem toNatLE_ofNatLE (width value : Nat) :
    (ofNatLE width value).toNatLE = value % 256 ^ width := by
  induction width generalizing value with
  | zero => simp [ofNatLE, toNatLE, Nat.mod_one]
  | succ width ih =>
    simp only [ofNatLE, toNatLE, ih]
    rw [Nat.pow_succ, Nat.mul_comm (256 ^ width) 256, Nat.mod_mul]
    simp

theorem toNatLE_append (left right : Bytes) :
    toNatLE (left ++ right) = left.toNatLE + 256 ^ left.length * right.toNatLE := by
  induction left with
  | nil => simp [toNatLE]
  | cons byte rest ih =>
    simp only [cons_append, toNatLE, ih, length_cons, Nat.pow_succ]
    rw [Nat.mul_add, Nat.mul_comm (256 ^ rest.length) 256, Nat.mul_assoc, Nat.add_assoc]

theorem ofNatLE_succ (width value : Nat) :
    ofNatLE (width + 1) value = ofNatLE width value ++ [UInt8.ofNat (value / 256 ^ width)] := by
  induction width generalizing value with
  | zero => simp [ofNatLE]
  | succ width ih =>
    rw [ofNatLE, ih]
    simp only [ofNatLE, cons_append]
    rw [Nat.div_div_eq_div_mul, Nat.pow_succ, Nat.mul_comm 256]

end Bytes

end PhilzTouch
