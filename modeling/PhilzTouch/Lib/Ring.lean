import Mathlib.Order.Basic

/-!
# Searching around a ring

A search that starts at some place of a ring and goes forward, one place at a time, until a place
stops it.  Distances from the start say which places it has passed.
-/

namespace PhilzTouch.Ring

/-- How far `place` is from `start`, going forward on a ring of `size` places. -/
def distance (size start place : Nat) : Nat :=
  if start ≤ place then place - start else place + size - start

def next (size place : Nat) : Nat := if place + 1 = size then 0 else place + 1

/-- The place where a search ends that looks at no more than `fuel` places. -/
def search (size : Nat) (stop : Nat → Bool) : (fuel place : Nat) → Option Nat
  | 0, _ => none
  | fuel + 1, place => if stop place then some place else search size stop fuel (next size place)

/-- `found` is the first place from `start` on at which the search stops. -/
structure First (size : Nat) (stop : Nat → Bool) (start found : Nat) : Prop where
  inside : found < size
  stops : stop found = true
  passes : ∀ place < size, distance size start place < distance size start found →
    stop place = false

variable {size start place other : Nat} {stop : Nat → Bool}

theorem distance_self (size start : Nat) : distance size start start = 0 := by
  rw [distance, if_pos (Nat.le_refl _), Nat.sub_self]

section

variable (inside : start < size)

include inside

theorem distance_lt (placed : place < size) : distance size start place < size := by
  unfold distance
  split <;> omega

theorem distance_inj (placed : place < size) (placed' : other < size)
    (same : distance size start place = distance size start other) : place = other := by
  unfold distance at same
  split at same <;> split at same <;> omega

theorem next_lt : next size start < size := by
  unfold next
  split <;> omega

theorem distance_next (placed : place < size) (apart : start ≠ place) :
    distance size start place = distance size (next size start) place + 1 := by
  unfold distance next
  split <;> split <;> split <;> omega

/-- A search that has a stop ahead of it ends at the first one. -/
theorem search_first {hole : Nat} (holeInside : hole < size)
    (stops : stop hole = true) (fuel : Nat) (ahead : distance size start hole < fuel) :
    ∃ found, search size stop fuel start = some found ∧ First size stop start found := by
  induction fuel generalizing start with
  | zero => omega
  | succ fuel ih =>
    rw [search]
    split
    next here =>
      refine ⟨start, rfl, inside, here, fun place _ nearer => ?_⟩
      rw [distance_self] at nearer
      omega
    next onward =>
    have apart : start ≠ hole := by
      rintro rfl
      exact onward stops
    rw [distance_next inside holeInside apart] at ahead
    obtain ⟨found, searched, first⟩ := ih (next_lt inside) (Nat.lt_of_succ_lt_succ ahead)
    have other : start ≠ found := by
      rintro rfl
      exact onward first.stops
    refine ⟨found, searched, first.inside, first.stops, fun place placed nearer => ?_⟩
    by_cases same : start = place
    · rw [← same]
      exact Bool.eq_false_iff.mpr onward
    · rw [distance_next inside placed same, distance_next inside first.inside other] at nearer
      exact first.passes place placed (Nat.lt_of_succ_lt_succ nearer)

end

theorem First.le (first : First size stop start place) (placed : other < size)
    (stops : stop other = true) : distance size start place ≤ distance size start other := by
  by_contra nearer
  rw [first.passes other placed (Nat.lt_of_not_le nearer)] at stops
  exact Bool.false_ne_true stops

end PhilzTouch.Ring
