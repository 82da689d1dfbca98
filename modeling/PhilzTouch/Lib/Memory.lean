import PhilzTouch.Lib.Bytes

/-!
# Byte-addressed memory

A memory gives a byte for every address.  Loading and storing work on ranges of addresses; the
two laws are that a range that was stored is loaded back, and that a range apart from it is
loaded as before.
-/

namespace PhilzTouch

/-- The byte at each address. -/
abbrev Memory := Nat → UInt8

namespace Memory

/-- The `count` bytes from `start` on. -/
def load (memory : Memory) (start count : Nat) : Bytes :=
  (List.range count).map fun index => memory (start + index)

/-- The memory with `data` at `start`. -/
def store (memory : Memory) (start : Nat) (data : Bytes) : Memory := fun address =>
  if start ≤ address then (data[address - start]?).getD (memory address) else memory address

variable {memory : Memory} {start count : Nat} {data : Bytes}

@[simp] theorem length_load (memory : Memory) (start count : Nat) :
    (memory.load start count).length = count := by
  simp [load]

theorem store_inside {index : Nat} (inside : index < data.length) :
    memory.store start data (start + index) = data[index] := by
  simp [store, List.getElem?_eq_getElem inside]

theorem store_outside {address : Nat} (outside : address < start ∨ start + data.length ≤ address) :
    memory.store start data address = memory address := by
  rw [store]
  split
  · rw [List.getElem?_eq_none (by omega), Option.getD_none]
  · rfl

theorem load_store (memory : Memory) (start : Nat) (data : Bytes) :
    (memory.store start data).load start data.length = data := by
  refine List.ext_getElem (length_load _ _ _) fun index _ inside => ?_
  simp only [load, List.getElem_map, List.getElem_range, store_inside inside]

theorem take_prefix_load (memory : Memory) (data : Bytes) :
    data.take count <+: (memory.store start data).load start count := by
  have short : (data.take count).length ≤ ((memory.store start data).load start count).length := by
    rw [List.length_take, length_load]
    exact Nat.min_le_left _ _
  refine List.prefix_iff_getElem.mpr ⟨short, fun index inside => ?_⟩
  rw [List.length_take] at inside
  simp [load, store_inside (show index < data.length by omega)]

theorem load_store_apart {other : Nat}
    (apart : other + count ≤ start ∨ start + data.length ≤ other) :
    (memory.store start data).load other count = memory.load other count := by
  refine List.map_congr_left fun index member => store_outside ?_
  have := List.mem_range.mp member
  omega

end Memory

end PhilzTouch
