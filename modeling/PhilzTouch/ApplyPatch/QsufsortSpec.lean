import PhilzTouch.ApplyPatch.SplitSpec

/-!
# The passes of `qsufsort`

A pass at depth `h` turns a layout of depth `h` into one of depth `2 * h`, by one
call of `split` for each group; sorted runs are joined on the way.  Once `h` has
passed the length of the text no group is left, and the pass leaves one run.
-/

namespace PhilzTouch.ApplyPatch

open SuffixRank

variable {text : Bytes} {h : Nat}

/-- The placement permutes the suffixes of the text, the empty one included. -/
def Covers (suffixAt : Equiv.Perm Nat) (size : Nat) : Prop :=
  ∀ place, suffixAt place ≤ size ↔ place ≤ size

theorem Covers.reorder {before after : Equiv.Perm Nat} {size low high : Nat}
    (covers : Covers before size) (reorders : Reorders before after low high)
    (le : high ≤ size + 1) : Covers after size := by
  intro place
  by_cases within : low ≤ place ∧ place < high
  · obtain ⟨source, sourceIn, same⟩ := reorders.inside within
    rw [same, covers]
    omega
  · rw [reorders.outside within, covers]

/-- The arrays between two passes: a layout of depth `h` over all suffixes. -/
structure Sorting (text : Bytes) (h : Nat) (I V : Cells) (suffixAt : Equiv.Perm Nat)
    (rank : Nat → Nat) : Prop where
  length : I.length = text.length + 1
  covers : Covers suffixAt text.length
  ranks : Ranks V rank text.length
  ranking : Ranking text h rank
  layout : Layout text h I suffixAt rank 0 (text.length + 1)

/-- The arrays inside a pass, before cell `i`: the cells behind `i` still have the old
depth, those before it the new one, and the last `len` of these are sorted. -/
structure Sweeping (text : Bytes) (h i len : Nat) (I V : Cells) (suffixAt : Equiv.Perm Nat)
    (rank : Nat → Nat) : Prop where
  length : I.length = text.length + 1
  covers : Covers suffixAt text.length
  ranks : Ranks V rank text.length
  ranking : Ranking text h rank
  lenLe : len ≤ i
  done : Layout text (h + h) I suffixAt rank 0 (i - len)
  sorted : ∀ place, i - len ≤ place → place < i → rank (suffixAt place) = place
  todo : Layout text h I suffixAt rank i (text.length + 1)

namespace Sweeping

variable {i len : Nat} {I V : Cells} {suffixAt : Equiv.Perm Nat} {rank : Nat → Nat}

theorem closeRun (sweeping : Sweeping text h i len I V suffixAt rank) :
    ∃ I', closeRun I i len = some I' ∧ Sweeping text h i 0 I' V suffixAt rank ∧
      (∀ place : Nat, i ≤ place → I'.load place = I.load place) ∧
      (0 < len → I'.load (i - len : Nat) = some (-(len : Int))) := by
  have lenLe := sweeping.lenLe
  have iLe := sweeping.todo.le
  by_cases pending : len = 0
  · subst pending
    exact ⟨I, by simp [ApplyPatch.closeRun], sweeping, fun _ _ => rfl, by simp⟩
  obtain ⟨I', stored, length, loads⟩ := Cells.store_spec I (i - len) (-(len : Int))
    (by rw [sweeping.length]; omega)
  rw [show ((i - len : Nat) : Int) = (i : Int) - len by omega] at stored
  refine ⟨I', by simp only [ApplyPatch.closeRun, ne_eq, pending, not_false_eq_true, if_true,
    stored], ?_, ?_, ?_⟩
  · constructor
    · rw [length, sweeping.length]
    · exact sweeping.covers
    · exact sweeping.ranks
    · exact sweeping.ranking
    · exact Nat.zero_le i
    · have before : Layout text (h + h) I' suffixAt rank 0 (i - len) := by
        apply sweeping.done.congr
        · intro place _ lt
          rw [loads, if_neg (by omega)]
        · intro place _ _
          rfl
        · intro place _ _
          rfl
      apply before.append
      refine .run (pos_of_ne_zero pending) (by simp [loads]) ?_ ?_
      · intro place ge lt
        exact sweeping.sorted place ge (by omega)
      · rw [show i - len + len = i - 0 by omega]
        exact .nil _
    · intro place ge lt
      omega
    apply sweeping.todo.congr
    · intro place ge _
      rw [loads, if_neg (by omega)]
    · intro place _ _
      rfl
    · intro place _ _
      rfl
  · intro place ge
    rw [loads, if_neg (by omega)]
  · intro _
    rw [loads, if_pos rfl]

/-- The suffixes of the group at cell `i` stand apart from all others. -/
theorem unsplit (sweeping : Sweeping text h i 0 I V suffixAt rank) {count : Nat}
    (ranked : ∀ place, i ≤ place → place < i + count → rank (suffixAt place) + 1 = i + count)
    (room : Room suffixAt text.length h i (i + count))
    (agree : ∀ left right, i ≤ left → left < i + count → i ≤ right → right < i + count →
      Agree text h (suffixAt left) (suffixAt right))
    (rest : Layout text h I suffixAt rank (i + count) (text.length + 1)) :
    Unsplit text h suffixAt rank i (i + count) := by
  have inside : ∀ place, i ≤ place → place < i + count → suffixAt place ≤ text.length := by
    intro place ge lt
    exact Nat.le_of_add_right_le (room place ge lt)
  refine ⟨sweeping.ranking, room, agree, ?_, ?_⟩
  · intro place ge lt
    rw [ranked place ge lt]
  intro other otherInside out
  obtain ⟨place, rfl⟩ := suffixAt.surjective other
  rw [mem_members] at out
  rw [sweeping.covers] at otherInside
  by_cases earlier : place < i
  · have low := sweeping.done.rank_mem (Nat.zero_le place) earlier
    refine .inl ⟨low.2, ?_⟩
    rintro member ⟨source, sourceIn, rfl⟩
    have := ranked source sourceIn.1 sourceIn.2
    exact sweeping.ranking.order _ _ ((sweeping.covers place).mpr otherInside)
      (inside source sourceIn.1 sourceIn.2) (by omega)
  · have high := rest.rank_mem (by omega : i + count ≤ place) (by omega)
    refine .inr ⟨by omega, ?_⟩
    rintro member ⟨source, sourceIn, rfl⟩
    have := ranked source sourceIn.1 sourceIn.2
    exact sweeping.ranking.order _ _ (inside source sourceIn.1 sourceIn.2)
      ((sweeping.covers place).mpr otherInside) (by omega)

theorem advance (sweeping : Sweeping text h i 0 I V suffixAt rank) {count : Nat}
    (rest : Layout text h I suffixAt rank (i + count) (text.length + 1))
    {I' V' : Cells} {suffixAt' : Equiv.Perm Nat} {rank' : Nat → Nat}
    (refined : Refined text h i (i + count) I suffixAt rank I' V' suffixAt' rank') :
    Sweeping text h (i + count) 0 I' V' suffixAt' rank' := by
  have le := rest.le
  have kept : ∀ place, ¬(i ≤ place ∧ place < i + count) →
      rank' (suffixAt place) = rank (suffixAt place) := by
    intro place out
    apply refined.others
    rwa [mem_members]
  constructor
  · rw [refined.length, sweeping.length]
  · exact sweeping.covers.reorder refined.reorders le
  · exact refined.ranks
  · exact refined.ranking
  · exact Nat.zero_le _
  · apply Layout.append _ refined.layout
    apply sweeping.done.congr
    · intro place _ lt
      exact refined.outside place (by omega)
    · intro place _ lt
      exact refined.reorders.outside (by omega)
    · intro place _ lt
      exact kept place (by omega)
  · intro place ge lt
    omega
  apply rest.congr
  · intro place ge _
    exact refined.outside place (by omega)
  · intro place ge _
    exact refined.reorders.outside (by omega)
  · intro place ge _
    exact kept place (by omega)

end Sweeping

variable {suffixAt : Equiv.Perm Nat} {rank : Nat → Nat} {I V : Cells}

/-- A finished pass has doubled the depth. -/
theorem Sweeping.finish (sweeping : Sweeping text h (text.length + 1) 0 I V suffixAt rank) :
    Sorting text (h + h) I V suffixAt rank := by
  have layout : Layout text (h + h) I suffixAt rank 0 (text.length + 1) := sweeping.done
  refine ⟨sweeping.length, sweeping.covers, sweeping.ranks, ⟨sweeping.ranking.order, ?_⟩, layout⟩
  intro left right leftInside rightInside same
  obtain ⟨leftPlace, rfl⟩ := suffixAt.surjective left
  obtain ⟨rightPlace, rfl⟩ := suffixAt.surjective right
  rw [sweeping.covers] at leftInside rightInside
  exact layout.agree (Nat.zero_le _) (by omega) (Nat.zero_le _) (by omega) same

/-- One pass of `qsufsort`.  When `h` is larger than the text, nothing but one run of
sorted suffixes is left. -/
theorem sweep_spec (fuel : Nat) :
    ∀ (i len : Nat) (I V : Cells) (suffixAt : Equiv.Perm Nat) (rank : Nat → Nat),
      text.length + 1 - i < fuel → Sweeping text h i len I V suffixAt rank →
      ∃ I' V' suffixAt' rank', sweep text.length h fuel i len I V = some (I', V') ∧
        Sorting text (h + h) I' V' suffixAt' rank' ∧
        (text.length < h → len = i → I'.load 0 = some (-(text.length + 1 : Int))) := by
  induction fuel with
  | zero =>
    intro i len I V suffixAt rank enough
    omega
  | succ fuel ih =>
    intro i len I V suffixAt rank enough sweeping
    have todo := sweeping.todo
    have lenLe := sweeping.lenLe
    by_cases more : i < text.length + 1
    · simp only [sweep, if_pos more]
      cases todo with
      | nil => omega
      | @run _ count _ pos mark sorted rest =>
        have next : Sweeping text h (i + count) (len + count) I V suffixAt rank := by
          refine ⟨sweeping.length, sweeping.covers, sweeping.ranks, sweeping.ranking, by omega,
            ?_, ?_, rest⟩
          · rw [Nat.add_sub_add_right]
            exact sweeping.done
          · intro place ge lt
            by_cases earlier : place < i
            · exact sweeping.sorted place (by omega) earlier
            · exact sorted place (by omega) lt
        obtain ⟨I', V', suffixAt', rank', run, sorting, final⟩ :=
          ih (i + count) (len + count) I V suffixAt rank (by omega) next
        refine ⟨I', V', suffixAt', rank', ?_, sorting, fun large same => final large (by omega)⟩
        have negative : -(count : Int) < 0 := by omega
        have size : (- -(count : Int)).toNat = count := by omega
        simp only [mark, some_bind, if_pos negative, size, run]
      | @group _ count _ pos shows ranked room agree rest =>
        obtain ⟨I₁, closed, sweeping₁, kept, _⟩ := sweeping.closeRun
        have shows₁ : Shows I₁ suffixAt i (i + count) := by
          intro place ge lt
          rw [kept place ge, shows place ge lt]
        have rest₁ : Layout text h I₁ suffixAt rank (i + count) (text.length + 1) := by
          apply rest.congr
          · intro place ge _
            exact kept place (by omega)
          · intro place _ _
            rfl
          · intro place _ _
            rfl
        obtain ⟨I₂, V₂, suffixAt₂, rank₂, splitRun, refined⟩ := split_refines count pos le_rfl
          ⟨shows₁, sweeping.ranks, sweeping₁.unsplit ranked room agree rest₁⟩
        obtain ⟨I', V', suffixAt', rank', run, sorting, _⟩ := ih (i + count) 0 I₂ V₂ suffixAt₂
          rank₂ (by omega) (sweeping₁.advance rest₁ refined)
        refine ⟨I', V', suffixAt', rank', ?_, sorting, ?_⟩
        · have head := shows i le_rfl (by omega)
          have last := sweeping.ranks.load (suffixAt i)
            (Nat.le_of_add_right_le (room i le_rfl (by omega)))
          have size : ((rank (suffixAt i) : Int) + 1 - i).toNat = count := by
            have := ranked i le_rfl (by omega)
            omega
          have nonneg : ¬((suffixAt i : Int) < 0) := by omega
          simp only [head, some_bind, if_neg nonneg, closed, last, size, splitRun, run]
        · intro large _
          have := room i le_rfl (by omega)
          omega
    have atEnd : i = text.length + 1 := by
      have := todo.le
      omega
    subst atEnd
    obtain ⟨I', closed, finished, _, final⟩ := sweeping.closeRun
    refine ⟨I', V, suffixAt, rank, ?_, finished.finish, ?_⟩
    · simp only [sweep, if_neg more, closed, some_bind]
    · rintro _ rfl
      have written := final (Nat.succ_pos _)
      rw [Nat.sub_self] at written
      exact written

/-- The arrays hold the suffix order: every suffix is alone with its rank. -/
def Sorted (suffixAt : Equiv.Perm Nat) (rank : Nat → Nat) (size : Nat) : Prop :=
  ∀ place ≤ size, rank (suffixAt place) = place

/-- The first cell tells whether all suffixes are sorted. -/
theorem Sorting.head (sorting : Sorting text h I V suffixAt rank) : ∃ head, I.load 0 = some head ∧
      (head = -(text.length + 1 : Int) → Sorted suffixAt rank text.length) := by
  cases sorting.layout with
  | @run _ count _ pos mark sorted rest =>
    refine ⟨_, mark, ?_⟩
    intro whole place le
    exact sorted place (Nat.zero_le _) (by omega)
  | @group _ count _ pos shows ranked room agree rest =>
    refine ⟨_, shows 0 le_rfl (by omega), ?_⟩
    intro whole
    omega

theorem Sorting.sweeping (sorting : Sorting text h I V suffixAt rank) :
    Sweeping text h 0 0 I V suffixAt rank :=
  { sorting with
    lenLe := le_rfl
    done := .nil 0
    sorted := fun place _ lt => absurd lt (Nat.not_lt_zero place)
    todo := sorting.layout }

/-- The passes end with all suffixes sorted: after `doublings` passes the depth is
larger than the text, the next pass leaves one run, and the loop stops there. -/
theorem passes_spec (doublings : Nat) :
    ∀ (h : Nat) (I V : Cells) (suffixAt : Equiv.Perm Nat) (rank : Nat → Nat),
      text.length < h * 2 ^ doublings → Sorting text h I V suffixAt rank →
      ∃ h' I' V' suffixAt' rank', passes text.length (doublings + 2) h I V = some (I', V') ∧
        Sorting text h' I' V' suffixAt' rank' ∧ Sorted suffixAt' rank' text.length := by
  induction doublings with
  | zero =>
    intro h I V suffixAt rank large sorting
    obtain ⟨head, load, done⟩ := sorting.head
    by_cases whole : head = -(text.length + 1 : Int)
    · refine ⟨h, I, V, suffixAt, rank, ?_, sorting, done whole⟩
      simp [passes, load, whole]
    obtain ⟨I', V', suffixAt', rank', run, sorting', final⟩ := sweep_spec (text.length + 2) 0 0
      I V suffixAt rank (by omega) sorting.sweeping
    have load' := final (by simpa using large) rfl
    obtain ⟨head', found, done'⟩ := sorting'.head
    have whole' : head' = -(text.length + 1 : Int) := by
      rw [load'] at found
      exact (Option.some.inj found).symm
    refine ⟨h + h, I', V', suffixAt', rank', ?_, sorting', done' whole'⟩
    simp only [passes, load, some_bind, if_neg whole, run, load', if_true]
  | succ doublings ih =>
    intro h I V suffixAt rank large sorting
    obtain ⟨head, load, done⟩ := sorting.head
    by_cases whole : head = -(text.length + 1 : Int)
    · refine ⟨h, I, V, suffixAt, rank, ?_, sorting, done whole⟩
      simp [passes, load, whole]
    obtain ⟨I₁, V₁, suffixAt₁, rank₁, run, sorting₁, _⟩ := sweep_spec (text.length + 2) 0 0
      I V suffixAt rank (by omega) sorting.sweeping
    have large₁ : text.length < (h + h) * 2 ^ doublings := by
      rwa [pow_succ, mul_comm (2 ^ doublings) 2, ← mul_assoc, Nat.mul_two] at large
    obtain ⟨h', I', V', suffixAt', rank', rest, sorting', sorted⟩ :=
      ih (h + h) I₁ V₁ suffixAt₁ rank₁ large₁ sorting₁
    refine ⟨h', I', V', suffixAt', rank', ?_, sorting', sorted⟩
    rw [passes]
    simp only [load, some_bind, if_neg whole, run, rest]

/-- The last loop of `qsufsort` writes every suffix into the cell of its rank. -/
theorem invertRanks_spec {V : Cells} {size : Nat} (ranks : Ranks V rank size)
    (sorted : Sorted suffixAt rank size) (covers : Covers suffixAt size) (left : Nat) :
    ∀ (i : Nat) (I : Cells), i + left = size + 1 → I.length = size + 1 →
      (∀ suffix < i, I.load (rank suffix) = some (suffix : Int)) →
      ∃ I', invertRanks V left i I = some I' ∧ I'.length = size + 1 ∧
        Shows I' suffixAt 0 (size + 1) := by
  have rank_symm : ∀ suffix ≤ size, suffixAt (rank suffix) = suffix ∧ rank suffix ≤ size := by
    intro suffix inside
    obtain ⟨place, rfl⟩ := suffixAt.surjective suffix
    rw [covers] at inside
    rw [sorted place inside]
    exact ⟨rfl, inside⟩
  induction left with
  | zero =>
    intro i I reach length written
    refine ⟨I, rfl, length, ?_⟩
    intro place _ lt
    have inside := (covers place).mpr (Nat.le_of_lt_succ lt)
    rw [← written (suffixAt place) (by omega), sorted place (Nat.le_of_lt_succ lt)]
  | succ left ih =>
    intro i I reach length written
    obtain ⟨placed, inside⟩ := rank_symm i (by omega)
    obtain ⟨middle, stored, middleLength, loads⟩ := Cells.store_spec I (rank i) i (by omega)
    obtain ⟨I', run, length', shows⟩ := ih (i + 1) middle (by omega) (middleLength.trans length)
      (by
        intro suffix lt
        rw [loads]
        by_cases same : suffix = i
        · rw [same, if_pos rfl]
        · rw [if_neg, written suffix (by omega)]
          intro clash
          apply same
          rw [← (rank_symm suffix (by omega)).1, clash, placed])
    refine ⟨I', ?_, length', shows⟩
    simp only [invertRanks, ranks.load i (by omega), some_bind, stored, run]

end PhilzTouch.ApplyPatch
