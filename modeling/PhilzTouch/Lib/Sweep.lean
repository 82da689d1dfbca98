import Mathlib.Data.List.Sort

/-!
# Sweeping one sorted list against another

Two sorted lists are walked together, and the items of the first that the second does
not hold are picked out.  The order is any lawful comparison.
-/

namespace PhilzTouch

open List

variable {α : Type}

def sortBy (cmp : α → α → Ordering) (items : List α) : List α :=
  items.insertionSort fun left right => (cmp left right).isLE = true

/-- The items swept out: those that `kept`, walked along with them, does not hold. -/
def sweep (cmp : α → α → Ordering) : List α → List α → List α
  | [], _ => []
  | item :: items, kept =>
    let ahead := kept.dropWhile fun other => cmp other item == .lt
    match ahead with
    | [] => item :: sweep cmp items ahead
    | other :: _ =>
      if cmp other item = .gt then item :: sweep cmp items ahead else sweep cmp items ahead

section

variable {cmp : α → α → Ordering}

@[simp] theorem mem_sortBy {items : List α} {item : α} : item ∈ sortBy cmp items ↔ item ∈ items :=
  mem_insertionSort _

variable [Std.TransCmp cmp]

theorem not_lt_self (item : α) : cmp item item ≠ .lt := by
  have self : cmp item item = .eq := Std.ReflCmp.compare_self
  rw [self]
  nofun

instance isLE_total : Std.Total fun left right => (cmp left right).isLE = true where
  total left right := by
    cases order : cmp left right with
    | lt => exact Or.inl rfl
    | eq => exact Or.inl rfl
    | gt =>
      have other := Std.OrientedCmp.gt_iff_lt.mp order
      exact Or.inr (by rw [other]; rfl)

instance isLE_trans : IsTrans α fun left right => (cmp left right).isLE = true where
  trans _ _ _ := Std.TransCmp.isLE_trans

theorem sortBy_sorted (items : List α) :
    (sortBy cmp items).Pairwise fun left right => (cmp left right).isLE = true :=
  pairwise_insertionSort _ items

/-- Skipping what is smaller loses no item that is not smaller. -/
theorem mem_skip {kept : List α} {item other : α} (notBefore : (cmp item other).isLE = true) :
    other ∈ kept ↔ other ∈ kept.dropWhile fun entry => cmp entry item == .lt := by
  induction kept with
  | nil => rfl
  | cons entry kept ih =>
    rw [dropWhile_cons]
    split
    next smaller =>
      have before : cmp entry other = .lt :=
        Std.TransCmp.lt_of_lt_of_isLE (by simpa using smaller) notBefore
      have different : other ≠ entry := by
        rintro rfl
        exact not_lt_self _ before
      rw [mem_cons, ← ih]
      exact or_iff_right different
    next => rfl

/-- What a sorted list does not hold, if its head is already greater. -/
theorem notMem_of_head_gt {item other : α} {rest : List α}
    (sorted : (other :: rest).Pairwise fun left right => (cmp left right).isLE = true)
    (greater : cmp other item = .gt) : item ∉ other :: rest := by
  have before := Std.OrientedCmp.gt_iff_lt.mp greater
  intro member
  rcases mem_cons.mp member with rfl | later
  · exact not_lt_self _ before
  · have after := rel_of_pairwise_cons sorted later
    exact not_lt_self _ (Std.TransCmp.lt_of_lt_of_isLE before after)

/-- The sweep picks out exactly the items of the first list that are not in the
second. -/
theorem mem_sweep [Std.LawfulEqCmp cmp] {items kept : List α} {item : α}
    (itemsSorted : items.Pairwise fun left right => (cmp left right).isLE = true)
    (keptSorted : kept.Pairwise fun left right => (cmp left right).isLE = true) :
    item ∈ sweep cmp items kept ↔ item ∈ items ∧ item ∉ kept := by
  induction items generalizing kept with
  | nil => simp [sweep]
  | cons head items ih =>
    obtain ⟨first, restSorted⟩ := pairwise_cons.mp itemsSorted
    have aheadSorted := keptSorted.sublist (dropWhile_sublist fun other => cmp other head == .lt)
    have later : item ∈ sweep cmp items (kept.dropWhile fun other => cmp other head == .lt) ↔
        item ∈ items ∧ item ∉ kept := by
      rw [ih restSorted aheadSorted]
      refine and_congr_right fun member => not_congr ?_
      exact (mem_skip (first item member)).symm
    have self : cmp head head = .eq := Std.ReflCmp.compare_self
    have now : head ∈ kept ↔ head ∈ kept.dropWhile fun other => cmp other head == .lt :=
      mem_skip (by rw [self]; rfl)
    have stays : head ∉ kept →
        (item = head ∨ item ∈ items ∧ item ∉ kept ↔ (item = head ∨ item ∈ items) ∧ item ∉ kept) := by
      intro absent
      constructor
      · rintro (rfl | ⟨member, out⟩)
        · exact ⟨Or.inl rfl, absent⟩
        · exact ⟨Or.inr member, out⟩
      · rintro ⟨rfl | member, out⟩
        · exact Or.inl rfl
        · exact Or.inr ⟨member, out⟩
    rw [sweep]
    cases skipped : kept.dropWhile fun other => cmp other head == .lt with
    | nil =>
      rw [skipped] at later now
      simp only [mem_cons, later]
      exact stays fun member => not_mem_nil (now.mp member)
    | cons other rest =>
      rw [skipped] at later now aheadSorted
      have notLess : cmp other head ≠ .lt := by
        have refused := head_dropWhile_not (fun other => cmp other head == .lt)
          (l := kept) (by rw [skipped]; exact cons_ne_nil _ _)
        simpa [skipped] using refused
      by_cases greater : cmp other head = .gt
      · simp only [greater, if_true, mem_cons, later]
        exact stays fun member => notMem_of_head_gt aheadSorted greater (now.mp member)
      have equal : cmp other head = .eq := by
        cases order : cmp other head with
        | lt => exact absurd order notLess
        | eq => rfl
        | gt => exact absurd order greater
      have same := Std.LawfulEqCmp.eq_of_compare equal
      simp only [greater, if_false, mem_cons, later]
      constructor
      · rintro ⟨member, out⟩
        exact ⟨Or.inr member, out⟩
      · rintro ⟨rfl | member, out⟩
        · exact absurd (now.mpr (same ▸ mem_cons_self)) out
        · exact ⟨member, out⟩

end

end PhilzTouch
