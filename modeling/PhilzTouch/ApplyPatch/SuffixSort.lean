import PhilzTouch.ApplyPatch.QsufsortSpec

/-!
# `qsufsort` sorts

The bucket sort by first byte sets up the arrays of the first pass; with the passes
of `QsufsortSpec` this gives the whole: `qsufsort` ends, stays inside its arrays and
leaves the suffixes in lexicographic order.
-/

namespace PhilzTouch.ApplyPatch

open SuffixRank List Function

/-- How many bytes of `old` have a value below `value`. -/
def below (old : Bytes) (value : Nat) : Nat := old.countP fun byte => byte.toNat < value

/-- How many bytes of `old` have the value `value`. -/
def number (old : Bytes) (value : Nat) : Nat := old.countP fun byte => byte.toNat = value

theorem below_zero (old : Bytes) : below old 0 = 0 := by
  simp [below]

theorem below_le (old : Bytes) (value : Nat) : below old value ≤ old.length :=
  countP_le_length

theorem below_all (old : Bytes) : below old 256 = old.length := by
  rw [below, countP_eq_length]
  intro byte _
  simpa using byte.toNat_lt

theorem below_succ (old : Bytes) (value : Nat) :
    below old (value + 1) = below old value + number old value := by
  induction old with
  | nil => rfl
  | cons byte rest ih =>
    simp only [below, number, countP_cons, decide_eq_true_eq] at *
    split <;> split <;> split <;> omega

theorem below_mono (old : Bytes) {low high : Nat} (le : low ≤ high) :
    below old low ≤ below old high := by
  apply countP_mono_left
  intro byte _ less
  simp only [decide_eq_true_eq] at *
  omega

variable {old : Bytes} {index : Nat}

theorem number_pos (inside : index < old.length) : 0 < number old old[index].toNat := by
  rw [number, countP_pos_iff]
  exact ⟨old[index], getElem_mem inside, by simp⟩

theorem number_append (left right : Bytes) (value : Nat) :
    number (left ++ right) value = number left value + number right value :=
  countP_append

/-- The array `buckets` holds one number per byte value. -/
structure Buckets (buckets : Cells) (count : Nat → Nat) : Prop where
  length : buckets.length = 256
  load : ∀ value : Nat, value < 256 → buckets.load value = some (count value : Int)

variable {buckets : Cells}

theorem Buckets.store {count : Nat → Nat} (holds : Buckets buckets count) {value : Nat}
    (inside : value < 256) (fresh : Nat) : ∃ buckets', buckets.store value fresh = some buckets' ∧
      Buckets buckets' (update count value fresh) := by
  obtain ⟨buckets', stored, length, loads⟩ := Cells.store_spec buckets value fresh
    (by rw [holds.length]; exact inside)
  refine ⟨buckets', stored, length.trans holds.length, ?_⟩
  intro other otherInside
  rw [loads, update_apply]
  split
  · rfl
  · exact holds.load other otherInside

theorem Buckets.congr {count count' : Nat → Nat} (holds : Buckets buckets count)
    (same : ∀ value < 256, count value = count' value) : Buckets buckets count' where
  length := holds.length
  load value inside := by
    rw [holds.load value inside, same value inside]

theorem countBytes_spec (old : Bytes) :
    ∀ (buckets : Cells) (count : Nat → Nat), Buckets buckets count →
      ∃ buckets', countBytes old buckets = some buckets' ∧
        Buckets buckets' fun value => count value + number old value := by
  induction old with
  | nil =>
    intro buckets count holds
    exact ⟨buckets, rfl, holds.congr fun value _ => by simp [number]⟩
  | cons byte rest ih =>
    intro buckets count holds
    have small : byte.toNat < 256 := byte.toNat_lt
    obtain ⟨middle, stored, holds'⟩ := holds.store small (count byte.toNat + 1)
    obtain ⟨buckets', run, done⟩ := ih middle _ holds'
    refine ⟨buckets', ?_, done.congr ?_⟩
    · rw [Int.natCast_add, Int.natCast_one] at stored
      simp only [countBytes, holds.load _ small, some_bind, stored, run]
    intro value _
    simp only [number, countP_cons, decide_eq_true_eq, update_apply]
    by_cases same : byte.toNat = value
    · simp only [same, if_true]
      omega
    · simp only [same, Ne.symm same, if_false]
      omega

theorem accumulate_spec (old : Bytes) (left : Nat) :
    ∀ (i : Nat) (buckets : Cells), 0 < i → i + left = 256 →
      (Buckets buckets fun value => if value < i then below old (value + 1) else number old value) →
      ∃ buckets', accumulate left i buckets = some buckets' ∧
        Buckets buckets' fun value => below old (value + 1) := by
  induction left with
  | zero =>
    intro i buckets _ reach holds
    refine ⟨buckets, rfl, holds.congr ?_⟩
    intro value inside
    rw [if_pos (by omega)]
  | succ left ih =>
    intro i buckets pos reach holds
    have here := holds.load i (by omega)
    have before := holds.load (i - 1) (by omega)
    rw [if_neg (lt_irrefl i)] at here
    rw [if_pos (by omega), Nat.sub_add_cancel pos] at before
    obtain ⟨middle, stored, holds'⟩ := holds.store (by omega : i < 256) (number old i + below old i)
    obtain ⟨buckets', run, done⟩ := ih (i + 1) middle (by omega) (by omega) (holds'.congr (by
      intro value _
      rw [update_apply]
      by_cases same : value = i
      · rw [if_pos same, if_pos (by omega), same, below_succ, add_comm]
      · rw [if_neg same]
        by_cases less : value < i
        · rw [if_pos less, if_pos (by omega)]
        · rw [if_neg less, if_neg (by omega)]))
    refine ⟨buckets', ?_, done⟩
    rw [Int.natCast_add] at stored
    simp only [accumulate, here, before, some_bind, stored, run]

theorem shiftUp_spec (old : Bytes) (i : Nat) : ∀ (buckets : Cells), i < 256 →
      (Buckets buckets fun value => if value ≤ i then below old (value + 1) else below old value) →
      ∃ buckets', shiftUp i buckets = some buckets' ∧
        Buckets buckets' fun value => if value = 0 then below old 1 else below old value := by
  induction i with
  | zero =>
    intro buckets _ holds
    refine ⟨buckets, rfl, holds.congr ?_⟩
    intro value _
    by_cases zero : value = 0
    · rw [if_pos (by omega), if_pos zero, zero]
    · rw [if_neg (by omega), if_neg zero]
  | succ i ih =>
    intro buckets inside holds
    have before := holds.load i (by omega)
    rw [if_pos (by omega)] at before
    obtain ⟨middle, stored, holds'⟩ := holds.store inside (below old (i + 1))
    obtain ⟨buckets', run, done⟩ := ih middle (by omega) (holds'.congr (by
      intro value _
      rw [update_apply]
      by_cases same : value = i + 1
      · rw [if_pos same, if_neg (by omega), same]
      · rw [if_neg same]
        by_cases less : value ≤ i
        · rw [if_pos (by omega), if_pos less]
        · rw [if_neg (by omega), if_neg less]))
    refine ⟨buckets', ?_, done⟩
    simp only [shiftUp, before, some_bind, stored, run]

/-- The cell that the bucket sort gives to the suffix at `index`: suffixes with a
smaller first byte come before it, and so do earlier ones with the same byte.  The
empty suffix gets cell 0. -/
def cellOf (old : Bytes) (index : Nat) : Nat :=
  match old[index]? with
  | none => 0
  | some byte => below old byte.toNat + number (old.take index) byte.toNat + 1

theorem cellOf_length (old : Bytes) : cellOf old old.length = 0 := by
  simp [cellOf]

theorem cellOf_eq (inside : index < old.length) : cellOf old index =
      below old old[index].toNat + number (old.take index) old[index].toNat + 1 := by
  simp [cellOf, inside]

/-- Reaching a later place passes over the byte at `index`. -/
theorem number_take_lt {stop : Nat} (inside : index < old.length) (before : index < stop) :
    number (old.take index) old[index].toNat < number (old.take stop) old[index].toNat := by
  have parts : old.take stop =
      old.take index ++ old[index] :: (old.drop (index + 1)).take (stop - (index + 1)) := by
    rw [← take_append_drop index (old.take stop), take_take, min_eq_left (by omega),
      drop_take, drop_eq_getElem_cons inside,
      show stop - index = stop - (index + 1) + 1 by omega, take_succ_cons]
  rw [parts, number_append]
  simp [number]

theorem cellOf_bounds (inside : index < old.length) :
    below old old[index].toNat < cellOf old index ∧
      cellOf old index ≤ below old (old[index].toNat + 1) := by
  have passed := number_take_lt inside inside
  rw [take_length] at passed
  rw [cellOf_eq inside, below_succ]
  omega

theorem cellOf_le (old : Bytes) (index : Nat) : cellOf old index ≤ old.length := by
  by_cases inside : index < old.length
  · have bounds := cellOf_bounds inside
    exact bounds.2.trans (below_le old _)
  · simp [cellOf, getElem?_eq_none (by omega : old.length ≤ index)]

theorem byte_eq_of_bounds (old : Bytes) {left right : Nat} (place : Nat)
    (leftLow : below old left < place) (leftHigh : place ≤ below old (left + 1))
    (rightLow : below old right < place) (rightHigh : place ≤ below old (right + 1)) :
    left = right := by
  rcases lt_trichotomy left right with less | same | more
  · have := below_mono old (by omega : left + 1 ≤ right)
    omega
  · exact same
  · have := below_mono old (by omega : right + 1 ≤ left)
    omega

theorem cellOf_injective (old : Bytes) : ∀ left ≤ old.length, ∀ right ≤ old.length,
    cellOf old left = cellOf old right → left = right := by
  intro left leftLe right rightLe same
  rcases lt_or_eq_of_le leftLe with leftIn | rfl
  · have leftBounds := cellOf_bounds leftIn
    rcases lt_or_eq_of_le rightLe with rightIn | rfl
    · have rightBounds := cellOf_bounds rightIn
      rw [← same] at rightBounds
      have bytes := byte_eq_of_bounds old _ leftBounds.1 leftBounds.2 rightBounds.1 rightBounds.2
      rw [cellOf_eq leftIn, cellOf_eq rightIn, bytes] at same
      rcases lt_trichotomy left right with less | equal | more
      · have := number_take_lt leftIn less
        rw [bytes] at this
        omega
      · exact equal
      · have := number_take_lt rightIn more
        omega
    · rw [cellOf_length] at same
      omega
  · rcases lt_or_eq_of_le rightLe with rightIn | rfl
    · have := cellOf_bounds rightIn
      rw [← same, cellOf_length] at this
      omega
    · rfl

theorem placeSuffixes_spec (old rest : Bytes) :
    ∀ (seen : Bytes) (buckets I : Cells), old = seen ++ rest →
      (Buckets buckets fun value => below old value + number seen value) →
      I.length = old.length + 1 →
      (∀ index < seen.length, I.load (cellOf old index) = some (index : Int)) →
      ∃ buckets' I', placeSuffixes rest seen.length buckets I = some (buckets', I') ∧
        (Buckets buckets' fun value => below old (value + 1)) ∧ I'.length = old.length + 1 ∧
        ∀ index < old.length, I'.load (cellOf old index) = some (index : Int) := by
  induction rest with
  | nil =>
    intro seen buckets I whole holds length placed
    rw [append_nil] at whole
    subst whole
    exact ⟨buckets, I, rfl, holds.congr fun value _ => (below_succ old value).symm, length, placed⟩
  | cons byte rest ih =>
    intro seen buckets I whole holds length placed
    have small : byte.toNat < 256 := byte.toNat_lt
    have inside : seen.length < old.length := by
      simp [whole]
    have here : old[seen.length] = byte := by
      simp [whole]
    have cell : cellOf old seen.length = below old byte.toNat + number seen byte.toNat + 1 := by
      rw [cellOf_eq inside, here]
      congr 2
      simp [whole]
    have cellLe := cellOf_le old seen.length
    obtain ⟨buckets₁, stored, holds₁⟩ := holds.store small (cellOf old seen.length)
    obtain ⟨I₁, put, length₁, loads⟩ := Cells.store_spec I (cellOf old seen.length) seen.length
      (by omega)
    have length' : (seen ++ [byte]).length = seen.length + 1 := by simp
    obtain ⟨buckets', I', run, done⟩ := ih (seen ++ [byte]) buckets₁ I₁ (by simp [whole])
      (holds₁.congr (by
        intro value _
        rw [update_apply, number_append]
        by_cases same : value = byte.toNat
        · subst same
          simp [cell, number, add_assoc]
        · simp [same, number, Ne.symm same]))
      (length₁.trans length) (by
        intro index lt
        rw [loads]
        by_cases same : index = seen.length
        · rw [same, if_pos rfl]
        · rw [if_neg, placed index (by omega)]
          intro clash
          exact same (cellOf_injective old index (by omega) seen.length (by omega) clash))
    refine ⟨buckets', I', ?_, done⟩
    rw [length'] at run
    rw [cell] at stored put
    simp only [Int.natCast_add, Int.natCast_one] at stored put
    simp only [placeSuffixes, holds.load _ small, some_bind, Int.natCast_add, stored, put, run]

theorem firstRanks_spec (holds : Buckets buckets fun value => below old (value + 1)) (rest : Bytes) :
    ∀ (seen : Bytes) (V : Cells), old = seen ++ rest → V.length = old.length + 1 →
      (∀ index, (inside : index < seen.length) →
        V.load index = some (below old (seen[index].toNat + 1) : Int)) →
      ∃ V', firstRanks buckets rest seen.length V = some V' ∧ V'.length = old.length + 1 ∧
        ∀ index, (inside : index < old.length) →
          V'.load index = some (below old (old[index].toNat + 1) : Int) := by
  induction rest with
  | nil =>
    intro seen V whole length ranked
    rw [append_nil] at whole
    subst whole
    exact ⟨V, rfl, length, ranked⟩
  | cons byte rest ih =>
    intro seen V whole length ranked
    have small : byte.toNat < 256 := byte.toNat_lt
    have inside : seen.length < V.length := by
      rw [length, whole, length_append, length_cons]
      omega
    obtain ⟨V₁, stored, length₁, loads⟩ := Cells.store_spec V seen.length
      (below old (byte.toNat + 1)) inside
    have length' : (seen ++ [byte]).length = seen.length + 1 := by simp
    obtain ⟨V', run, done⟩ := ih (seen ++ [byte]) V₁ (by simp [whole]) (length₁.trans length) (by
      intro index lt
      rw [loads]
      by_cases last : index = seen.length
      · subst last
        rw [if_pos rfl]
        simp
      · rw [if_neg last, ranked index (by omega), getElem_append_left])
    refine ⟨V', ?_, done⟩
    rw [length'] at run
    simp only [firstRanks, holds.load _ small, some_bind, stored, run]

/-- The marks that the bucket sort sets: one for each byte value above 0 that occurs
once. -/
theorem markSingles_spec (holds : Buckets buckets fun value => below old (value + 1)) (left : Nat) :
    ∀ (i : Nat) (I : Cells), 0 < i → i + left = 256 → I.length = old.length + 1 →
      ∃ I', markSingles buckets left i I = some I' ∧ I'.length = old.length + 1 ∧
        (∀ value, i ≤ value → value < 256 → number old value = 1 →
          I'.load (below old (value + 1)) = some (-1)) ∧
        ∀ place : Nat, (∀ value, i ≤ value → value < 256 → number old value = 1 →
          place ≠ below old (value + 1)) → I'.load place = I.load place := by
  induction left with
  | zero =>
    intro i I _ reach length
    refine ⟨I, rfl, length, ?_, fun _ _ => rfl⟩
    intro value ge lt
    omega
  | succ left ih =>
    intro i I pos reach length
    have here := holds.load i (by omega)
    have before := holds.load (i - 1) (by omega)
    rw [Nat.sub_add_cancel pos] at before
    have count := below_succ old i
    by_cases single : number old i = 1
    · have inside : below old (i + 1) < I.length := by
        have := below_le old (i + 1)
        omega
      obtain ⟨I₁, stored, length₁, loads⟩ := Cells.store_spec I (below old (i + 1)) (-1) inside
      obtain ⟨I', run, length', marked, kept⟩ := ih (i + 1) I₁ (by omega) (by omega)
        (length₁.trans length)
      refine ⟨I', ?_, length', ?_, ?_⟩
      · have equal : (below old (i + 1) : Int) = below old i + 1 := by omega
        rw [equal] at stored here
        simp only [markSingles, here, before, some_bind, if_true, stored, run]
      · intro value ge lt one
        rcases lt_or_eq_of_le ge with later | rfl
        · exact marked value later lt one
        · rw [kept, loads, if_pos rfl]
          intro other otherGe otherLt otherOne same
          have := below_mono old (by omega : i + 1 ≤ other)
          have := below_succ old other
          omega
      · intro place away
        rw [kept place fun value ge => away value (by omega), loads,
          if_neg (away i le_rfl (by omega) single)]
    obtain ⟨I', run, length', marked, kept⟩ := ih (i + 1) I (by omega) (by omega) length
    refine ⟨I', ?_, length', ?_, ?_⟩
    · have different : ¬((below old (i + 1) : Int) = below old i + 1) := by omega
      simp only [markSingles, here, before, some_bind, if_neg different, run]
    · intro value ge lt one
      rcases lt_or_eq_of_le ge with later | rfl
      · exact marked value later lt one
      · exact absurd one single
    · intro place away
      exact kept place fun value ge => away value (by omega)

/-- The rank of a suffix after the bucket sort: the last cell of its bucket. -/
def firstRank (old : Bytes) (index : Nat) : Nat :=
  match old[index]? with
  | none => 0
  | some byte => below old (byte.toNat + 1)

theorem firstRank_length (old : Bytes) : firstRank old old.length = 0 := by
  simp [firstRank]

theorem firstRank_eq (inside : index < old.length) :
    firstRank old index = below old (old[index].toNat + 1) := by
  simp [firstRank, inside]

theorem agree_one {left right : Nat} (leftIn : left < old.length) (rightIn : right < old.length)
    (same : old[left].toNat = old[right].toNat) : Agree old 1 left right := by
  rw [Agree, drop_eq_getElem_cons leftIn, drop_eq_getElem_cons rightIn, UInt8.toNat_inj.mp same]
  rfl

/-- The buckets are in the order of the first bytes. -/
theorem firstRank_ranking (old : Bytes) : Ranking old 1 (firstRank old) := by
  have positive : ∀ index, (inside : index < old.length) → 0 < firstRank old index := by
    intro index inside
    have := number_pos inside
    rw [firstRank_eq inside, below_succ]
    omega
  constructor
  · intro left right leftLe rightLe less
    have rightIn : right < old.length := by
      rcases lt_or_eq_of_le rightLe with inside | rfl
      · exact inside
      · rw [firstRank_length] at less
        omega
    rcases lt_or_eq_of_le leftLe with leftIn | rfl
    · apply before_of_getElem_lt leftIn rightIn
      rw [UInt8.lt_iff_toNat_lt]
      by_contra notLess
      rw [firstRank_eq leftIn, firstRank_eq rightIn] at less
      have := below_mono old (by omega : old[right].toNat + 1 ≤ old[left].toNat + 1)
      omega
    · exact before_of_length rightIn
  intro left right leftLe rightLe same
  rcases lt_or_eq_of_le leftLe with leftIn | rfl
  · rcases lt_or_eq_of_le rightLe with rightIn | rfl
    · apply agree_one leftIn rightIn
      have leftPos := number_pos leftIn
      have rightPos := number_pos rightIn
      rw [firstRank_eq leftIn, firstRank_eq rightIn] at same
      apply byte_eq_of_bounds old (below old (old[left].toNat + 1))
      · rw [below_succ]
        omega
      · exact le_rfl
      · rw [same, below_succ]
        omega
      · rw [same]
    · have := positive left leftIn
      rw [same, firstRank_length] at this
      omega
  · rcases lt_or_eq_of_le rightLe with rightIn | rfl
    · have := positive right rightIn
      rw [← same, firstRank_length] at this
      omega
    · exact .refl _ _

/-- The arrays after the bucket sort, cell by cell. -/
structure Bucketed (old : Bytes) (I : Cells) (suffixAt : Equiv.Perm Nat) : Prop where
  covers : Covers suffixAt old.length
  placed : ∀ index ≤ old.length, suffixAt (cellOf old index) = index
  first : I.load 0 = some (-1)
  marked : ∀ value, 1 ≤ value → value < 256 → number old value = 1 →
    I.load (below old (value + 1)) = some (-1)
  kept : ∀ place : Nat, 0 < place → place ≤ old.length →
    (∀ value, 1 ≤ value → value < 256 → number old value = 1 → place ≠ below old (value + 1)) →
    I.load place = some (suffixAt place : Int)

namespace Bucketed

variable {old : Bytes} {I : Cells} {suffixAt : Equiv.Perm Nat}

theorem byte_eq (bucketed : Bucketed old I suffixAt) {value place : Nat}
    (low : below old value < place) (high : place ≤ below old (value + 1)) :
    ∃ inside : suffixAt place < old.length, old[suffixAt place].toNat = value := by
  have whole := below_le old (value + 1)
  have le := (bucketed.covers place).mpr (by omega)
  have cell : cellOf old (suffixAt place) = place := suffixAt.injective (bucketed.placed _ le)
  rcases lt_or_eq_of_le le with inside | last
  · have bounds := cellOf_bounds inside
    rw [cell] at bounds
    exact ⟨inside, byte_eq_of_bounds old place bounds.1 bounds.2 low high⟩
  · rw [last, cellOf_length] at cell
    omega

/-- The buckets from `value` on are laid out as the first pass expects them. -/
theorem layout_from (bucketed : Bucketed old I suffixAt) (left : Nat) :
    ∀ value, value + left = 256 →
      Layout old 1 I suffixAt (firstRank old) (below old value + 1) (old.length + 1) := by
  induction left with
  | zero =>
    intro value reach
    rw [show value = 256 by omega, below_all]
    exact .nil _
  | succ left ih =>
    intro value reach
    have rest := ih (value + 1) (by omega)
    have count := below_succ old value
    rw [show below old (value + 1) + 1 = below old value + 1 + number old value by omega] at rest
    have bytes : ∀ place, below old value + 1 ≤ place →
        place < below old value + 1 + number old value →
        ∃ inside : suffixAt place < old.length, old[suffixAt place].toNat = value := by
      intro place ge lt
      exact bucketed.byte_eq (by omega) (by omega)
    have ranked : ∀ place, below old value + 1 ≤ place →
        place < below old value + 1 + number old value →
        firstRank old (suffixAt place) + 1 = below old value + 1 + number old value := by
      intro place ge lt
      obtain ⟨inside, byte⟩ := bytes place ge lt
      rw [firstRank_eq inside, byte]
      omega
    by_cases none : number old value = 0
    · rwa [none] at rest
    by_cases single : 1 ≤ value ∧ number old value = 1
    · refine .run (pos_of_ne_zero none) ?_ ?_ rest
      · rw [single.2, show below old value + 1 = below old (value + 1) by omega]
        exact bucketed.marked value single.1 (by omega) single.2
      · intro place ge lt
        have := ranked place ge lt
        omega
    refine .group (pos_of_ne_zero none) ?_ ranked ?_ ?_ rest
    · intro place ge lt
      have whole := below_le old (value + 1)
      apply bucketed.kept place (by omega) (by omega)
      intro other otherPos otherLt one same
      have otherCount := below_succ old other
      have this : value = other :=
        byte_eq_of_bounds old place (by omega) (by omega) (by omega) (by omega)
      subst this
      exact single ⟨otherPos, one⟩
    · intro place ge lt
      obtain ⟨inside, _⟩ := bytes place ge lt
      exact inside
    · intro left right leftGe leftLt rightGe rightLt
      obtain ⟨leftIn, leftByte⟩ := bytes left leftGe leftLt
      obtain ⟨rightIn, rightByte⟩ := bytes right rightGe rightLt
      exact agree_one leftIn rightIn (leftByte.trans rightByte.symm)

theorem layout (bucketed : Bucketed old I suffixAt) :
    Layout old 1 I suffixAt (firstRank old) 0 (old.length + 1) := by
  refine .run one_pos bucketed.first ?_ ?_
  · intro place _ lt
    have empty := bucketed.placed old.length le_rfl
    rw [cellOf_length] at empty
    rw [show place = 0 by omega, empty, firstRank_length]
  · have buckets := bucketed.layout_from 256 0 rfl
    rwa [below_zero] at buckets

end Bucketed

theorem bucketSort_spec {I V : Cells} (lengthI : I.length = old.length + 1)
    (lengthV : V.length = old.length + 1) : ∃ I' V' suffixAt, bucketSort old I V = some (I', V') ∧
      Sorting old 1 I' V' suffixAt (firstRank old) := by
  have zeros : Buckets (replicate 256 0) fun _ => 0 := by
    refine ⟨length_replicate, ?_⟩
    intro value small
    rw [Cells.load_natCast, getElem?_replicate, if_pos small]
    rfl
  obtain ⟨b₁, run₁, counted⟩ := countBytes_spec old _ _ zeros
  obtain ⟨b₂, run₂, summed⟩ := accumulate_spec old 255 1 b₁ one_pos rfl
    (counted.congr (by
      intro value _
      by_cases zero : value = 0
      · rw [zero, if_pos one_pos, below_succ, below_zero]
      · rw [if_neg (by omega), zero_add]))
  obtain ⟨b₃, run₃, shifted⟩ := shiftUp_spec old 255 b₂ (by omega)
    (summed.congr (by
      intro value small
      rw [if_pos (by omega)]))
  obtain ⟨b₄, run₄, starts⟩ := shifted.store (by omega : 0 < 256) 0
  obtain ⟨b₅, I₁, run₅, ends, length₁, placed⟩ := placeSuffixes_spec old old [] b₄ I rfl
    (starts.congr (by
      intro value _
      rw [update_apply]
      by_cases zero : value = 0
      · simp [zero, below_zero, number]
      · simp [zero, number]))
    lengthI (by intro index lt; simp at lt)
  obtain ⟨I₂, run₆, length₂, loads₂⟩ := Cells.store_spec I₁ 0 old.length (by omega)
  obtain ⟨V₁, run₇, lengthV₁, ranked⟩ := firstRanks_spec ends old [] V rfl lengthV
    (by intro index lt; simp at lt)
  obtain ⟨V₂, run₈, lengthV₂, loadsV⟩ := Cells.store_spec V₁ old.length 0 (by omega)
  obtain ⟨I₃, run₉, length₃, marked, kept⟩ := markSingles_spec ends 255 1 I₂ one_pos rfl
    (length₂.trans length₁)
  obtain ⟨I₄, run₁₀, length₄, loads₄⟩ := Cells.store_spec I₃ 0 (-1) (by omega)
  obtain ⟨suffixAt, holds, covers⟩ := exists_placement (cellOf old) (fun index _ => cellOf_le old index)
    (cellOf_injective old)
  have bucketed : Bucketed old I₄ suffixAt := by
    constructor
    · exact covers
    · exact holds
    · have := loads₄ 0
      rwa [if_pos rfl] at this
    · intro value pos small one
      have := below_succ old value
      rw [loads₄, if_neg (by omega), marked value pos small one]
    intro place pos le away
    have inside := (covers place).mpr le
    have cell : cellOf old (suffixAt place) = place := suffixAt.injective (holds _ inside)
    rw [loads₄, if_neg (by omega), kept place away, loads₂, if_neg (by omega)]
    rcases lt_or_eq_of_le inside with less | last
    · have := placed _ less
      rwa [cell] at this
    · rw [last, cellOf_length] at cell
      omega
  refine ⟨I₄, V₂, suffixAt, ?_, length₄.trans length₃, covers, ?_, firstRank_ranking old,
    bucketed.layout⟩
  · simp only [Int.natCast_zero] at run₄ run₆ run₁₀
    simp only [bucketSort, run₁, run₂, run₃, run₄, some_bind,
      show placeSuffixes old 0 b₄ I = some (b₅, I₁) from run₅, run₆,
      show firstRanks b₅ old 0 V = some V₁ from run₇, run₈, run₉, run₁₀]
  refine ⟨lengthV₂.trans lengthV₁, ?_⟩
  intro suffix le
  rw [loadsV]
  rcases lt_or_eq_of_le le with less | last
  · rw [if_neg (by omega), ranked suffix less, firstRank_eq less]
  · rw [if_pos last, last, firstRank_length]
    rfl

/-- `qsufsort` ends, stays inside its arrays whatever they hold at the start, and
leaves in `I` the suffixes of `old`, the empty one included, in lexicographic order. -/
theorem qsufsort_sorts {I V : Cells} (lengthI : I.length = old.length + 1)
    (lengthV : V.length = old.length + 1) :
    ∃ I' suffixAt, qsufsort I V old = some I' ∧ I'.length = old.length + 1 ∧
      Covers suffixAt old.length ∧ Shows I' suffixAt 0 (old.length + 1) ∧
      ∀ left right, left < right → right ≤ old.length →
        Before old (suffixAt left) (suffixAt right) := by
  obtain ⟨I₁, V₁, suffixAt₁, start, sorting₁⟩ := bucketSort_spec lengthI lengthV
  have deep : old.length < 1 * 2 ^ old.length := by
    rw [one_mul]
    exact Nat.lt_two_pow_self
  obtain ⟨h, I₂, V₂, suffixAt, rank, run, sorting, sorted⟩ :=
    passes_spec old.length 1 I₁ V₁ suffixAt₁ _ deep sorting₁
  obtain ⟨I', invert, length, shows⟩ := invertRanks_spec sorting.ranks sorted sorting.covers
    (old.length + 1) 0 I₂ (zero_add _) sorting.length (by intro suffix lt; omega)
  refine ⟨I', suffixAt, ?_, length, sorting.covers, shows, ?_⟩
  · simp only [qsufsort, start, some_bind, run, invert]
  intro left right less le
  apply sorting.ranking.order
  · rw [sorting.covers]
    omega
  · rwa [sorting.covers]
  · rwa [sorted left (by omega), sorted right le]

/-- The arrays at the head of the loop over `h`, for arrays that held `I` and `V`. -/
inductive AtPass (old : Bytes) (I V : Cells) : (h : Nat) → (I' V' : Cells) → Prop where
  | first {I' V' : Cells} (run : bucketSort old I V = some (I', V')) : AtPass old I V 1 I' V'
  | next {h : Nat} {I₁ V₁ I' V' : Cells} (before : AtPass old I V h I₁ V₁)
      (more : I₁.load 0 ≠ some (-(old.length + 1 : Int)))
      (run : sweep old.length h (old.length + 2) 0 0 I₁ V₁ = some (I', V')) :
      AtPass old I V (h + h) I' V'

theorem AtPass.sorting {I V I' V' : Cells} {h : Nat} (reached : AtPass old I V h I' V')
    (lengthI : I.length = old.length + 1) (lengthV : V.length = old.length + 1) :
    ∃ suffixAt rank, Sorting old h I' V' suffixAt rank := by
  induction reached with
  | first run =>
    obtain ⟨I₁, V₁, suffixAt, run₁, sorting⟩ := bucketSort_spec lengthI lengthV
    cases run.symm.trans run₁
    exact ⟨suffixAt, _, sorting⟩
  | next _ _ run ih =>
    obtain ⟨suffixAt, rank, sorting⟩ := ih
    obtain ⟨I₁, V₁, suffixAt', rank', run₁, sorting', _⟩ :=
      sweep_spec (old.length + 2) 0 0 _ _ suffixAt rank (by omega) sorting.sweeping
    cases run.symm.trans run₁
    exact ⟨suffixAt', rank', sorting'⟩

/-- `qsufsort` ends with the suffix array, the empty suffix first; whenever the loop
over `h` is at its head, `V` ranks the suffixes in an order that their first `h` bytes
decide, and `I` lists them in that order. -/
theorem qsufsort_builds_suffix_array (old : Bytes)
    (I V : {cells : Cells // cells.length = old.length + 1}) :
    (∃ I' suffixAt, qsufsort I V old = some I' ∧ I'.length = old.length + 1 ∧
      Covers suffixAt old.length ∧ Shows I' suffixAt 0 (old.length + 1) ∧
      suffixAt 0 = old.length ∧ ∀ left right, left < right → right ≤ old.length →
        Before old (suffixAt left) (suffixAt right)) ∧
    ∀ h I' V', AtPass old I V h I' V' → ∃ suffixAt rank, Sorting old h I' V' suffixAt rank := by
  obtain ⟨I', suffixAt, run, length, covers, shows, sorted⟩ := qsufsort_sorts I.2 V.2
  refine ⟨⟨I', suffixAt, run, length, covers, shows, ?_, sorted⟩, ?_⟩
  · obtain ⟨place, empty⟩ := suffixAt.surjective old.length
    rcases Nat.eq_zero_or_pos place with rfl | later
    · exact empty
    · have less := sorted 0 place later ((covers place).mp empty.le)
      rw [Before, empty, drop_length] at less
      exact absurd less (not_lt_nil _)
  · intro h I₁ V₁ reached
    exact reached.sorting I.2 V.2

end PhilzTouch.ApplyPatch
