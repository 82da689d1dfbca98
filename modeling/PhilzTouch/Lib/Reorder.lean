import Mathlib.Algebra.BigOperators.Intervals
import PhilzTouch.Lib.Cells

/-!
# Reordering part of an array

In-place sorting permutes the entries between two bounds.  `Reorders` says that
one placement of entries is another one permuted there, `Moved` adds that an
array follows the change, and the counting lemmas are what a partition loop needs
to know that it still has room.
-/

namespace PhilzTouch

open Finset

/-- `after` places the entries of `before`, those from `low` to `high` possibly in
another order. -/
def Reorders (before after : Equiv.Perm Nat) (low high : Nat) : Prop :=
  ∃ shuffle : Equiv.Perm Nat,
    (∀ place, ¬(low ≤ place ∧ place < high) → shuffle place = place) ∧ after = shuffle.trans before

namespace Reorders

variable {before middle after : Equiv.Perm Nat} {low high place left right : Nat}

theorem refl (placement : Equiv.Perm Nat) (low high : Nat) :
    Reorders placement placement low high :=
  ⟨Equiv.refl _, fun _ _ => rfl, rfl⟩

theorem trans (first : Reorders before middle low high) (second : Reorders middle after low high) :
    Reorders before after low high := by
  obtain ⟨firstShuffle, firstFixed, rfl⟩ := first
  obtain ⟨secondShuffle, secondFixed, rfl⟩ := second
  refine ⟨secondShuffle.trans firstShuffle, ?_, rfl⟩
  intro place outside
  rw [Equiv.trans_apply, secondFixed place outside, firstFixed place outside]

theorem swap (leftIn : low ≤ left ∧ left < high) (rightIn : low ≤ right ∧ right < high) :
    Reorders before ((Equiv.swap left right).trans before) low high := by
  refine ⟨Equiv.swap left right, ?_, rfl⟩
  intro place outside
  apply Equiv.swap_apply_of_ne_of_ne
  · rintro rfl
    exact outside leftIn
  · rintro rfl
    exact outside rightIn

private theorem shuffle_inside {shuffle : Equiv.Perm Nat}
    (fixed : ∀ place, ¬(low ≤ place ∧ place < high) → shuffle place = place)
    (inside : low ≤ place ∧ place < high) : low ≤ shuffle place ∧ shuffle place < high := by
  by_contra out
  have same := shuffle.injective (fixed _ out)
  rw [same] at out
  exact out inside

variable (reorders : Reorders before after low high)

include reorders

theorem mono {low' high' : Nat}
    (lowLe : low' ≤ low) (highLe : high ≤ high') : Reorders before after low' high' := by
  obtain ⟨shuffle, fixed, rfl⟩ := reorders
  refine ⟨shuffle, ?_, rfl⟩
  intro place outside
  apply fixed
  omega

theorem outside (out : ¬(low ≤ place ∧ place < high)) : after place = before place := by
  obtain ⟨shuffle, fixed, rfl⟩ := reorders
  rw [Equiv.trans_apply, fixed place out]

theorem inside (within : low ≤ place ∧ place < high) :
    ∃ source, (low ≤ source ∧ source < high) ∧ after place = before source := by
  obtain ⟨shuffle, fixed, rfl⟩ := reorders
  exact ⟨shuffle place, shuffle_inside fixed within, rfl⟩

theorem symm : Reorders after before low high := by
  obtain ⟨shuffle, fixed, rfl⟩ := reorders
  refine ⟨shuffle.symm, ?_, ?_⟩
  · intro place outside
    rw [Equiv.symm_apply_eq, fixed place outside]
  · ext place
    simp

theorem forall_inside (property : Nat → Prop)
    (holds : ∀ place, low ≤ place → place < high → property (before place)) :
    ∀ place, low ≤ place → place < high → property (after place) := by
  intro place lowLe ltHigh
  obtain ⟨source, within, same⟩ := reorders.inside ⟨lowLe, ltHigh⟩
  rw [same]
  exact holds source within.1 within.2

theorem card_filter (property : Nat → Prop) [DecidablePred property] :
    ((Finset.Ico low high).filter fun place => property (after place)).card =
      ((Finset.Ico low high).filter fun place => property (before place)).card := by
  obtain ⟨shuffle, fixed, rfl⟩ := reorders
  apply card_equiv shuffle
  intro place
  rw [mem_filter, mem_filter, mem_Ico, mem_Ico]
  apply and_congr_left
  intro _
  constructor
  · exact shuffle_inside fixed
  · intro within
    by_contra out
    rw [fixed place out] at within
    exact out within

end Reorders

/-- The entries that stand between two bounds. -/
def members (placement : Equiv.Perm Nat) (low high : Nat) : Set Nat :=
  { entry | ∃ place, (low ≤ place ∧ place < high) ∧ placement place = entry }

theorem mem_members {placement : Equiv.Perm Nat} {low high place : Nat} :
    placement place ∈ members placement low high ↔ low ≤ place ∧ place < high := by
  constructor
  · rintro ⟨other, within, same⟩
    rwa [placement.injective same] at within
  · intro within
    exact ⟨place, within, rfl⟩

theorem Reorders.members_eq {before after : Equiv.Perm Nat} {low high : Nat}
    (reorders : Reorders before after low high) :
    members after low high = members before low high := by
  ext entry
  constructor
  · rintro ⟨place, within, rfl⟩
    obtain ⟨source, sourceIn, same⟩ := reorders.inside within
    exact ⟨source, sourceIn, same.symm⟩
  · rintro ⟨place, within, rfl⟩
    obtain ⟨source, sourceIn, same⟩ := reorders.symm.inside within
    exact ⟨source, sourceIn, same.symm⟩

/-- A block of places with a property and one more such place: the count is larger
than the block. -/
theorem lt_card_filter (property : Nat → Prop) [DecidablePred property]
    {low high first last extra : Nat}
    (blockIn : low ≤ first ∧ last ≤ high) (extraIn : low ≤ extra ∧ extra < high)
    (apart : ¬(first ≤ extra ∧ extra < last))
    (block : ∀ place, first ≤ place → place < last → property place) (one : property extra) :
    last - first < ((Finset.Ico low high).filter property).card := by
  have contained : insert extra (Finset.Ico first last) ⊆ (Finset.Ico low high).filter property := by
    intro place member
    simp only [mem_insert, mem_Ico] at member
    simp only [mem_filter, mem_Ico]
    rcases member with rfl | within
    · exact ⟨extraIn, one⟩
    · exact ⟨by omega, block place within.1 within.2⟩
  have size := card_le_card contained
  rw [card_insert_of_notMem (by simpa using apart), Nat.card_Ico] at size
  omega

theorem card_filter_Ico_succ (property : Nat → Prop) [DecidablePred property] (low left : Nat) :
    ((Finset.Ico low (low + (left + 1))).filter property).card = (if property low then 1 else 0) +
        ((Finset.Ico (low + 1) (low + 1 + left)).filter property).card := by
  rw [← insert_Ico_add_one_left_eq_Ico (by omega : low < low + (left + 1)),
    filter_insert, show low + (left + 1) = low + 1 + left by omega]
  split
  · rw [card_insert_of_notMem (by simp), add_comm]
  · rw [zero_add]

theorem card_filter_trichotomy (value : Nat → Nat) (pivot low high : Nat) :
    ((Finset.Ico low high).filter fun place => value place < pivot).card +
      ((Finset.Ico low high).filter fun place => value place = pivot).card +
      ((Finset.Ico low high).filter fun place => pivot < value place).card = high - low := by
  simp only [card_filter, ← sum_add_distrib]
  rw [← Nat.card_Ico low high, card_eq_sum_ones]
  apply sum_congr rfl
  intro place _
  rcases lt_trichotomy (value place) pivot with less | same | more
  · rw [if_pos less, if_neg (by omega), if_neg (by omega)]
  · rw [if_neg (by omega), if_pos same, if_neg (by omega)]
  · rw [if_neg (by omega), if_neg (by omega), if_pos more]

/-- A one-to-one assignment of cells to the entries `0, …, size` comes from a placement
of the entries on the cells. -/
theorem exists_placement {size : Nat} (cellOf : Nat → Nat)
    (inside : ∀ entry ≤ size, cellOf entry ≤ size)
    (injective : ∀ left ≤ size, ∀ right ≤ size, cellOf left = cellOf right → left = right) :
    ∃ placement : Equiv.Perm Nat, (∀ entry ≤ size, placement (cellOf entry) = entry) ∧
      ∀ place, placement place ≤ size ↔ place ≤ size := by
  have onto : (range (size + 1)).image cellOf = range (size + 1) := by
    apply eq_of_subset_of_card_le
    · intro place member
      simp only [mem_image, mem_range] at *
      obtain ⟨entry, entryIn, rfl⟩ := member
      have := inside entry (by omega)
      omega
    · rw [card_image_of_injOn]
      intro left leftIn right rightIn same
      simp only [coe_range, Set.mem_Iio] at leftIn rightIn
      exact injective left (by omega) right (by omega) same
  have bijective : Function.Bijective fun entry => if entry ≤ size then cellOf entry else entry := by
    constructor
    · intro left right same
      dsimp only at same
      split at same <;> split at same
      · exact injective left ‹_› right ‹_› same
      · have := inside left ‹_›
        omega
      · have := inside right ‹_›
        omega
      · exact same
    intro place
    by_cases within : place ≤ size
    · have member : place ∈ (range (size + 1)).image cellOf := by
        rw [onto, mem_range]
        omega
      obtain ⟨entry, entryIn, same⟩ := mem_image.mp member
      rw [mem_range] at entryIn
      exact ⟨entry, by simp [Nat.le_of_lt_succ entryIn, same]⟩
    · exact ⟨place, by simp [within]⟩
  have cell : ∀ entry, Equiv.ofBijective _ bijective entry =
      if entry ≤ size then cellOf entry else entry := fun _ => rfl
  refine ⟨(Equiv.ofBijective _ bijective).symm, ?_, ?_⟩
  · intro entry entryIn
    rw [Equiv.symm_apply_eq, cell, if_pos entryIn]
  intro place
  obtain ⟨entry, rfl⟩ := (Equiv.ofBijective _ bijective).surjective place
  rw [Equiv.symm_apply_apply, cell]
  split
  · exact ⟨fun _ => inside entry ‹_›, fun _ => ‹_›⟩
  · exact Iff.rfl

/-- The cells between two bounds hold the entries placed there. -/
def Shows (cells : Cells) (placement : Equiv.Perm Nat) (low high : Nat) : Prop :=
  ∀ place, low ≤ place → place < high → cells.load place = some (placement place : Int)

/-- An array whose cells between the bounds held `before` now holds `after` there and
is otherwise unchanged. -/
structure Moved (low high : Nat) (cells : Cells) (before : Equiv.Perm Nat)
    (cells' : Cells) (after : Equiv.Perm Nat) : Prop where
  length : cells'.length = cells.length
  shows : Shows cells' after low high
  outside : ∀ place : Nat, ¬(low ≤ place ∧ place < high) → cells'.load place = cells.load place
  reorders : Reorders before after low high

namespace Moved

variable {low high : Nat} {cells cells' cells'' : Cells} {before middle after : Equiv.Perm Nat}

theorem refl (shows : Shows cells before low high) : Moved low high cells before cells before :=
  ⟨rfl, shows, fun _ _ => rfl, .refl _ _ _⟩

theorem trans (first : Moved low high cells before cells' middle)
    (second : Moved low high cells' middle cells'' after) :
    Moved low high cells before cells'' after where
  length := second.length.trans first.length
  shows := second.shows
  outside place out := (second.outside place out).trans (first.outside place out)
  reorders := first.reorders.trans second.reorders

theorem swap (left right : Nat) (shows : Shows cells before low high)
    (leftIn : low ≤ left ∧ left < high) (rightIn : low ≤ right ∧ right < high) :
    ∃ cells', cells.swap left right = some cells' ∧
      Moved low high cells before cells' ((Equiv.swap left right).trans before) := by
  obtain ⟨cells', swapped, length, loads⟩ := Cells.swap_spec cells
    (shows left leftIn.1 leftIn.2) (shows right rightIn.1 rightIn.2)
  refine ⟨cells', swapped, length, ?_, ?_, .swap leftIn rightIn⟩
  · intro place lowLe ltHigh
    rw [loads, Equiv.trans_apply, Equiv.swap_apply_def]
    by_cases isRight : place = right
    · subst isRight
      by_cases isLeft : place = left <;> simp [isLeft]
    · by_cases isLeft : place = left
      · subst isLeft
        simp [isRight]
      · simp [isLeft, isRight, shows place lowLe ltHigh]
  · intro place out
    rw [loads, if_neg (by rintro rfl; exact out rightIn), if_neg (by rintro rfl; exact out leftIn)]

end Moved

end PhilzTouch
