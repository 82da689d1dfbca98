import Mathlib.Data.List.Lex

/-!
# Ranks of suffixes

Prefix doubling sorts the suffixes of a text by refining a rank function.  A
rank function of depth `h` never contradicts the lexicographic order, and the
suffixes it cannot tell apart agree on their first `h` symbols.  The refinement
step assigns one new rank to a set of suffixes; this module says when that step
keeps the two properties.
-/

namespace PhilzTouch.SuffixRank

open List

/-- Texts that stand between two texts with a common beginning begin the same way. -/
theorem prefix_between {α : Type*} [LT α] [Std.Trichotomous (· < · : α → α → Prop)]
    {start low middle high : List α} (below : ¬ middle < low) (above : ¬ high < middle)
    (first : start <+: low) (last : start <+: high) : start <+: middle := by
  induction start generalizing low middle high with
  | nil => exact nil_prefix
  | cons char start ih =>
    obtain ⟨lowRest, rfl⟩ := first
    obtain ⟨highRest, rfl⟩ := last
    cases middle with
    | nil => exact absurd (nil_lt_cons _ _) below
    | cons other middle =>
      simp only [cons_append, cons_lt_cons_iff, not_or] at below above
      obtain rfl := Std.Trichotomous.trichotomous _ _ above.1 below.1
      have inner := ih (fun less => below.2 ⟨rfl, less⟩) (fun less => above.2 ⟨rfl, less⟩)
        (prefix_append _ _) (prefix_append _ _)
      exact cons_prefix_cons.mpr ⟨rfl, inner⟩

variable {α : Type*} (text : List α)

/-- The suffixes at `left` and `right` have the same first `depth` symbols.  A
suffix that ends earlier agrees only with itself. -/
def Agree (depth left right : Nat) : Prop :=
  (text.drop left).take depth = (text.drop right).take depth

variable {text}

theorem Agree.refl (depth place : Nat) : Agree text depth place place := rfl

variable {depth right left : Nat}

theorem Agree.add {more : Nat} (first : Agree text depth left right)
    (second : Agree text more (left + depth) (right + depth)) :
    Agree text (depth + more) left right := by
  unfold Agree at *
  rw [take_add, take_add, drop_drop, drop_drop, first, second]

/-- Different suffixes that agree on `depth` symbols both have that many. -/
theorem Agree.room (same : Agree text depth left right) (different : left ≠ right)
    (leftInside : left ≤ text.length) (rightInside : right ≤ text.length) :
    left + depth ≤ text.length := by
  have lengths := congrArg length same
  simp only [length_take, length_drop] at lengths
  omega

variable [LT α]

variable (text) in
/-- The suffix at `left` comes before the suffix at `right`. -/
def Before (left right : Nat) : Prop :=
  text.drop left < text.drop right

/-- The empty suffix comes first. -/
theorem before_of_length {place : Nat} (inside : place < text.length) :
    Before text text.length place := by
  unfold Before
  rw [drop_length, drop_eq_getElem_cons inside]
  exact nil_lt_cons _ _

/-- Suffixes that agree on `depth` symbols are ordered as what follows them. -/
theorem Before.of_agree (same : Agree text depth left right)
    (order : Before text (left + depth) (right + depth)) : Before text left right := by
  unfold Before Agree at *
  rw [← take_append_drop depth (text.drop left),
    ← take_append_drop depth (text.drop right), same, drop_drop, drop_drop]
  exact append_left_lt order

/-- Suffixes with different first symbols are ordered by those. -/
theorem before_of_getElem_lt (leftInside : left < text.length) (rightInside : right < text.length)
    (less : text[left] < text[right]) : Before text left right := by
  unfold Before
  rw [drop_eq_getElem_cons leftInside, drop_eq_getElem_cons rightInside]
  exact cons_lt_cons_iff.mpr (.inl less)

variable (text) in
/-- A rank function of depth `depth` for the suffixes of `text`, the empty one
included. -/
structure Ranking (depth : Nat) (rank : Nat → Nat) : Prop where
  /-- A smaller rank belongs to an earlier suffix. -/
  order : ∀ left right, left ≤ text.length → right ≤ text.length →
    rank left < rank right → Before text left right
  /-- Suffixes of one rank agree on `depth` symbols. -/
  agree : ∀ left right, left ≤ text.length → right ≤ text.length →
    rank left = rank right → Agree text depth left right

open Classical in
/-- The rank function after the suffixes in `members` get the rank `fresh`. -/
noncomputable def assign (rank : Nat → Nat) (members : Set Nat) (fresh : Nat) (place : Nat) : Nat :=
  if place ∈ members then fresh else rank place

variable {rank : Nat → Nat} {members : Set Nat} {fresh place : Nat}

theorem assign_mem (member : place ∈ members) :
    assign rank members fresh place = fresh := if_pos member

theorem assign_notMem (outside : place ∉ members) :
    assign rank members fresh place = rank place := if_neg outside

variable (text) in
/-- `members` may take the ranks `low, …, high - 1`: every other suffix has a rank
below them and comes before all members, or a rank above them and comes after. -/
def Apart (rank : Nat → Nat) (members : Set Nat) (low high : Nat) : Prop :=
  ∀ other ≤ text.length, other ∉ members →
    (rank other < low ∧ ∀ member ∈ members, Before text other member) ∨
      (high ≤ rank other ∧ ∀ member ∈ members, Before text member other)

theorem Ranking.assign {low high fresh : Nat} (ranking : Ranking text depth rank)
    (apart : Apart text rank members low high) (lowLe : low ≤ fresh) (freshLt : fresh < high)
    (same : ∀ left ∈ members, ∀ right ∈ members, Agree text depth left right) :
    Ranking text depth (assign rank members fresh) := by
  constructor
  · intro left right leftInside rightInside less
    by_cases leftMem : left ∈ members
    · rw [assign_mem leftMem] at less
      by_cases rightMem : right ∈ members
      · rw [assign_mem rightMem] at less
        exact absurd less (lt_irrefl _)
      · rw [assign_notMem rightMem] at less
        rcases apart right rightInside rightMem with ⟨below, _⟩ | ⟨_, after⟩
        · omega
        · exact after left leftMem
    rw [assign_notMem leftMem] at less
    by_cases rightMem : right ∈ members
    · rw [assign_mem rightMem] at less
      rcases apart left leftInside leftMem with ⟨_, before⟩ | ⟨above, _⟩
      · exact before right rightMem
      · omega
    · rw [assign_notMem rightMem] at less
      exact ranking.order left right leftInside rightInside less
  intro left right leftInside rightInside equal
  by_cases leftMem : left ∈ members
  · rw [assign_mem leftMem] at equal
    by_cases rightMem : right ∈ members
    · exact same left leftMem right rightMem
    · rw [assign_notMem rightMem] at equal
      rcases apart right rightInside rightMem with ⟨below, _⟩ | ⟨above, _⟩ <;> omega
  rw [assign_notMem leftMem] at equal
  by_cases rightMem : right ∈ members
  · rw [assign_mem rightMem] at equal
    rcases apart left leftInside leftMem with ⟨below, _⟩ | ⟨above, _⟩ <;> omega
  · rw [assign_notMem rightMem] at equal
    exact ranking.agree left right leftInside rightInside equal

end PhilzTouch.SuffixRank
