import Mathlib.Data.Int.Basic

/-!
# Arrays with checked access

A C array of integers is a list of cells.  Indices are integers, as pointer
arithmetic makes them; an access outside the array has no result, so that a
computation that returns one has stayed inside its arrays.
-/

namespace PhilzTouch

/-- The cells of an array of integers. -/
abbrev Cells := List Int

namespace Cells

/-- The value of the cell at `index`, if there is such a cell. -/
def load (cells : Cells) (index : Int) : Option Int :=
  if index < 0 then none else cells[index.toNat]?

/-- The array after a write at `index`, if there is such a cell. -/
def store (cells : Cells) (index value : Int) : Option Cells :=
  if 0 ≤ index ∧ index.toNat < cells.length then some (cells.set index.toNat value) else none

/-- Exchange of two cells through a temporary, the way the C code writes it. -/
def swap (cells : Cells) (left right : Int) : Option Cells := do
  let tmp ← cells.load left
  let other ← cells.load right
  let cells ← cells.store left other
  cells.store right tmp

@[simp] theorem load_natCast (cells : Cells) (index : Nat) :
    cells.load (index : Int) = cells[index]? := by
  rw [load, if_neg (by omega), Int.toNat_natCast]

/-- A write inside the array succeeds, keeps the length, puts the value in its
cell and leaves every other cell alone. -/
theorem store_spec (cells : Cells) (index : Nat) (value : Int) (inside : index < cells.length) :
    ∃ after, cells.store index value = some after ∧ after.length = cells.length ∧
      ∀ other : Nat, after.load other = if other = index then some value else cells.load other := by
  refine ⟨cells.set index value, by simp [store, inside], by simp, ?_⟩
  intro other
  by_cases same : other = index
  · subst same
    simp [inside]
  · simp [same, Ne.symm same]

theorem load_eq_none_of_length_le (cells : Cells) {index : Nat} (outside : cells.length ≤ index) :
    cells.load index = none := by
  simpa using outside

theorem lt_length_of_load {cells : Cells} {index : Nat} {value : Int}
    (found : cells.load index = some value) : index < cells.length := by
  by_contra outside
  rw [load_eq_none_of_length_le cells (by omega)] at found
  cases found

theorem swap_spec (cells : Cells) {left right : Nat} {leftValue rightValue : Int}
    (leftFound : cells.load left = some leftValue)
    (rightFound : cells.load right = some rightValue) :
    ∃ after, cells.swap left right = some after ∧ after.length = cells.length ∧
      ∀ index : Nat, after.load index = if index = right then some leftValue
        else if index = left then some rightValue else cells.load index := by
  obtain ⟨middle, middleStore, middleLength, middleLoad⟩ :=
    store_spec cells left rightValue (lt_length_of_load leftFound)
  obtain ⟨after, afterStore, afterLength, afterLoad⟩ :=
    store_spec middle right leftValue (middleLength ▸ lt_length_of_load rightFound)
  refine ⟨after, ?_, afterLength.trans middleLength, ?_⟩
  · simp only [swap, leftFound, rightFound, Option.bind_eq_bind, Option.bind_some, middleStore,
      afterStore]
  · intro index
    rw [afterLoad, middleLoad]

end Cells

end PhilzTouch
