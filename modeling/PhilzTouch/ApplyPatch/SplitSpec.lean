import PhilzTouch.ApplyPatch.SplitLoops

/-!
# `split` refines one group of suffixes

`Layout` describes how `I` and `V` record a stretch of cells as sorted runs and
unsorted groups.  `Unsplit` is what `split` may assume about the stretch it is
called on, `Refined` what it leaves behind: the rank function still respects the
lexicographic order, and the new groups agree on twice as many bytes.
-/

namespace PhilzTouch.ApplyPatch

open SuffixRank

/-- The cells from `low` to `high` as a sequence of sorted runs, whose first cell
holds the negated length, and of groups that agree on `depth` bytes and share the
index of their last cell as rank. -/
inductive Layout (text : Bytes) (depth : Nat) (I : Cells) (suffixAt : Equiv.Perm Nat)
    (rank : Nat → Nat) : Nat → Nat → Prop where
  | nil (low : Nat) : Layout text depth I suffixAt rank low low
  | run {low count high : Nat} (pos : 0 < count) (mark : I.load low = some (-(count : Int)))
      (sorted : ∀ place, low ≤ place → place < low + count → rank (suffixAt place) = place)
      (rest : Layout text depth I suffixAt rank (low + count) high) :
      Layout text depth I suffixAt rank low high
  | group {low count high : Nat} (pos : 0 < count) (shows : Shows I suffixAt low (low + count))
      (ranked : ∀ place, low ≤ place → place < low + count →
        rank (suffixAt place) + 1 = low + count)
      (room : Room suffixAt text.length depth low (low + count))
      (agree : ∀ left right, low ≤ left → left < low + count → low ≤ right → right < low + count →
        Agree text depth (suffixAt left) (suffixAt right))
      (rest : Layout text depth I suffixAt rank (low + count) high) :
      Layout text depth I suffixAt rank low high

namespace Layout

variable {text : Bytes} {depth : Nat} {I I' : Cells} {suffixAt suffixAt' : Equiv.Perm Nat}
  {rank rank' : Nat → Nat} {low middle high : Nat}

theorem append (first : Layout text depth I suffixAt rank low middle)
    (second : Layout text depth I suffixAt rank middle high) :
    Layout text depth I suffixAt rank low high := by
  induction first with
  | nil low => exact second
  | run pos mark sorted _ ih => exact .run pos mark sorted (ih second)
  | group pos shows ranked room agree _ ih => exact .group pos shows ranked room agree (ih second)

variable (layout : Layout text depth I suffixAt rank low high)

include layout

theorem le : low ≤ high := by
  induction layout with
  | nil low => exact le_rfl
  | run _ _ _ _ ih => omega
  | group _ _ _ _ _ _ ih => omega

/-- A layout looks only at its own cells and at the ranks of the suffixes there. -/
theorem congr (cells : ∀ place, low ≤ place → place < high → I'.load place = I.load place)
    (places : ∀ place, low ≤ place → place < high → suffixAt' place = suffixAt place)
    (ranks : ∀ place, low ≤ place → place < high → rank' (suffixAt place) = rank (suffixAt place)) :
    Layout text depth I' suffixAt' rank' low high := by
  induction layout with
  | nil low => exact .nil low
  | run pos mark sorted rest ih =>
    have := rest.le
    refine .run pos ((cells _ le_rfl (by omega)).trans mark) ?_
      (ih (fun place ge => cells place (by omega)) (fun place ge => places place (by omega))
        fun place ge => ranks place (by omega))
    intro place ge lt
    rw [places place ge (by omega), ranks place ge (by omega), sorted place ge lt]
  | group pos shows ranked room agree rest ih =>
    have := rest.le
    refine .group pos ?_ ?_ ?_ ?_
      (ih (fun place ge => cells place (by omega)) (fun place ge => places place (by omega))
        fun place ge => ranks place (by omega))
    · intro place ge lt
      rw [cells place ge (by omega), places place ge (by omega), shows place ge lt]
    · intro place ge lt
      rw [places place ge (by omega), ranks place ge (by omega), ranked place ge lt]
    · intro place ge lt
      rw [places place ge (by omega)]
      exact room place ge lt
    · intro left right leftGe leftLt rightGe rightLt
      rw [places left leftGe (by omega), places right rightGe (by omega)]
      exact agree left right leftGe leftLt rightGe rightLt

/-- The rank of a suffix is a cell of its stretch that is not before its own. -/
theorem rank_mem {place : Nat} (ge : low ≤ place) (lt : place < high) :
    place ≤ rank (suffixAt place) ∧ rank (suffixAt place) < high := by
  induction layout with
  | nil low => omega
  | @run low count high pos mark sorted rest ih =>
    have := rest.le
    by_cases inRun : place < low + count
    · rw [sorted place ge inRun]
      omega
    · exact ih (by omega) lt
  | @group low count high pos shows ranked room agree rest ih =>
    have := rest.le
    by_cases inGroup : place < low + count
    · have := ranked place ge inGroup
      omega
    · exact ih (by omega) lt

variable {left right : Nat}

/-- Suffixes of one rank agree as far as the layout promises. -/
theorem agree
    (leftGe : low ≤ left) (leftLt : left < high) (rightGe : low ≤ right) (rightLt : right < high)
    (same : rank (suffixAt left) = rank (suffixAt right)) :
    Agree text depth (suffixAt left) (suffixAt right) := by
  induction layout with
  | nil low => omega
  | @run low count high pos mark sorted rest ih =>
    by_cases leftIn : left < low + count <;> by_cases rightIn : right < low + count
    · rw [sorted left leftGe leftIn, sorted right rightGe rightIn] at same
      rw [same]
      exact .refl _ _
    · rw [sorted left leftGe leftIn] at same
      have := rest.rank_mem (by omega : low + count ≤ right) rightLt
      omega
    · rw [sorted right rightGe rightIn] at same
      have := rest.rank_mem (by omega : low + count ≤ left) leftLt
      omega
    · exact ih (by omega) leftLt (by omega) rightLt
  | @group low count high pos shows ranked room agree rest ih =>
    by_cases leftIn : left < low + count <;> by_cases rightIn : right < low + count
    · exact agree left right leftGe leftIn rightGe rightIn
    · have := ranked left leftGe leftIn
      have := rest.rank_mem (by omega : low + count ≤ right) rightLt
      omega
    · have := ranked right rightGe rightIn
      have := rest.rank_mem (by omega : low + count ≤ left) leftLt
      omega
    · exact ih (by omega) leftLt (by omega) rightLt

end Layout

variable {text : Bytes} {h : Nat}

/-- The cells from `low` to `high` may be split at depth `h`: their suffixes agree on
`h` bytes and stand apart from all others. -/
structure Unsplit (text : Bytes) (h : Nat) (suffixAt : Equiv.Perm Nat) (rank : Nat → Nat)
    (low high : Nat) : Prop where
  ranking : Ranking text h rank
  room : Room suffixAt text.length h low high
  agree : ∀ left right, low ≤ left → left < high → low ≤ right → right < high →
    Agree text h (suffixAt left) (suffixAt right)
  ranked : ∀ place, low ≤ place → place < high → high ≤ rank (suffixAt place) + 1
  apart : Apart text rank (members suffixAt low high) low high

namespace Unsplit

variable {suffixAt suffixAt' : Equiv.Perm Nat} {rank rank' : Nat → Nat} {low middle high : Nat}
  (unsplit : Unsplit text h suffixAt rank low high)

include unsplit

theorem reorder (reorders : Reorders suffixAt suffixAt' low high) :
    Unsplit text h suffixAt' rank low high where
  ranking := unsplit.ranking
  room := unsplit.room.reorder reorders
  agree left right leftGe leftLt rightGe rightLt := by
    obtain ⟨leftSource, leftIn, leftSame⟩ := reorders.inside ⟨leftGe, leftLt⟩
    obtain ⟨rightSource, rightIn, rightSame⟩ := reorders.inside ⟨rightGe, rightLt⟩
    rw [leftSame, rightSame]
    exact unsplit.agree _ _ leftIn.1 leftIn.2 rightIn.1 rightIn.2
  ranked := reorders.forall_inside (fun suffix => high ≤ rank suffix + 1) unsplit.ranked
  apart := by
    rw [reorders.members_eq]
    exact unsplit.apart

/-- A smaller key means an earlier suffix. -/
theorem before_of_key (leftIn : low ≤ left ∧ left < high) (rightIn : low ≤ right ∧ right < high)
    (less : rank (suffixAt left + h) < rank (suffixAt right + h)) :
    Before text (suffixAt left) (suffixAt right) := by
  apply Before.of_agree (unsplit.agree left right leftIn.1 leftIn.2 rightIn.1 rightIn.2)
  exact unsplit.ranking.order _ _ (unsplit.room left leftIn.1 leftIn.2)
    (unsplit.room right rightIn.1 rightIn.2) less

/-- Equal keys mean that the suffixes also agree on the next `h` bytes. -/
theorem agree_of_key (leftIn : low ≤ left ∧ left < high) (rightIn : low ≤ right ∧ right < high)
    (same : rank (suffixAt left + h) = rank (suffixAt right + h)) :
    Agree text (h + h) (suffixAt left) (suffixAt right) := by
  apply (unsplit.agree left right leftIn.1 leftIn.2 rightIn.1 rightIn.2).add
  exact unsplit.ranking.agree _ _ (unsplit.room left leftIn.1 leftIn.2)
    (unsplit.room right rightIn.1 rightIn.2) same

/-- The cells before `middle` come before the others. -/
def Ordered (text : Bytes) (suffixAt : Equiv.Perm Nat) (low middle high : Nat) : Prop :=
  ∀ left right, low ≤ left → left < middle → middle ≤ right → right < high →
    Before text (suffixAt left) (suffixAt right)

theorem first (le : middle ≤ high) (ordered : Ordered text suffixAt low middle high) :
    Unsplit text h suffixAt rank low middle where
  ranking := unsplit.ranking
  room place ge lt := unsplit.room place ge (by omega)
  agree left right leftGe leftLt rightGe rightLt :=
    unsplit.agree left right leftGe (by omega) rightGe (by omega)
  ranked place ge lt := le.trans (unsplit.ranked place ge (by omega))
  apart other inside outside := by
    by_cases later : other ∈ members suffixAt low high
    · obtain ⟨place, within, rfl⟩ := later
      rw [mem_members] at outside
      have := unsplit.ranked place within.1 within.2
      refine .inr ⟨by omega, ?_⟩
      rintro member ⟨source, sourceIn, rfl⟩
      exact ordered source place sourceIn.1 sourceIn.2 (by omega) within.2
    rcases unsplit.apart other inside later with ⟨less, before⟩ | ⟨more, after⟩
    · refine .inl ⟨less, ?_⟩
      rintro member ⟨source, sourceIn, rfl⟩
      exact before _ (mem_members.mpr (by omega))
    · refine .inr ⟨by omega, ?_⟩
      rintro member ⟨source, sourceIn, rfl⟩
      exact after _ (mem_members.mpr (by omega))

end Unsplit

/-- What splitting the cells from `low` to `high` at depth `h` has done. -/
structure Refined (text : Bytes) (h low high : Nat) (I : Cells) (suffixAt : Equiv.Perm Nat)
    (rank : Nat → Nat) (I' V' : Cells) (suffixAt' : Equiv.Perm Nat) (rank' : Nat → Nat) : Prop where
  length : I'.length = I.length
  outside : ∀ place : Nat, ¬(low ≤ place ∧ place < high) → I'.load place = I.load place
  reorders : Reorders suffixAt suffixAt' low high
  others : ∀ suffix, suffix ∉ members suffixAt low high → rank' suffix = rank suffix
  ranks : Ranks V' rank' text.length
  ranking : Ranking text h rank'
  layout : Layout text (h + h) I' suffixAt' rank' low high

namespace Refined

variable {I I₁ I₂ V₁ V₂ : Cells} {suffixAt suffixAt₁ suffixAt₂ : Equiv.Perm Nat}
  {rank rank₁ rank₂ : Nat → Nat} {low middle high : Nat}

/-- After the first part of a stretch has been split, the second part may be. -/
theorem second (refined : Refined text h low middle I suffixAt rank I₁ V₁ suffixAt₁ rank₁)
    (unsplit : Unsplit text h suffixAt rank low high)
    (ordered : Unsplit.Ordered text suffixAt low middle high) (lowLe : low ≤ middle) :
    Unsplit text h suffixAt₁ rank₁ middle high := by
  have kept : ∀ place, middle ≤ place → suffixAt₁ place = suffixAt place := by
    intro place ge
    exact refined.reorders.outside (by omega)
  have keptRank : ∀ place, middle ≤ place → rank₁ (suffixAt place) = rank (suffixAt place) := by
    intro place ge
    apply refined.others
    rw [mem_members]
    omega
  constructor
  · exact refined.ranking
  · intro place ge lt
    rw [kept place ge]
    exact unsplit.room place (by omega) lt
  · intro left right leftGe leftLt rightGe rightLt
    rw [kept left leftGe, kept right rightGe]
    exact unsplit.agree left right (by omega) leftLt (by omega) rightLt
  · intro place ge lt
    rw [kept place ge, keptRank place ge]
    exact unsplit.ranked place (by omega) lt
  intro other inside out
  by_cases earlier : other ∈ members suffixAt low middle
  · have place := earlier
    rw [← refined.reorders.members_eq] at place
    obtain ⟨cell, cellIn, rfl⟩ := place
    refine .inl ⟨(refined.layout.rank_mem cellIn.1 cellIn.2).2, ?_⟩
    rintro member ⟨source, sourceIn, rfl⟩
    obtain ⟨old, oldIn, same⟩ := earlier
    rw [kept source sourceIn.1, ← same]
    exact ordered old source oldIn.1 oldIn.2 sourceIn.1 sourceIn.2
  have far : other ∉ members suffixAt low high := by
    rintro ⟨place, within, rfl⟩
    rw [mem_members] at earlier
    apply out
    rw [← kept place (by omega), mem_members]
    omega
  rw [refined.others other earlier]
  rcases unsplit.apart other inside far with ⟨less, before⟩ | ⟨more, after⟩
  · refine .inl ⟨by omega, ?_⟩
    rintro member ⟨source, sourceIn, rfl⟩
    rw [kept source sourceIn.1]
    exact before _ (mem_members.mpr (by omega))
  · refine .inr ⟨more, ?_⟩
    rintro member ⟨source, sourceIn, rfl⟩
    rw [kept source sourceIn.1]
    exact after _ (mem_members.mpr (by omega))

theorem join (first : Refined text h low middle I suffixAt rank I₁ V₁ suffixAt₁ rank₁)
    (second : Refined text h middle high I₁ suffixAt₁ rank₁ I₂ V₂ suffixAt₂ rank₂)
    (lowLe : low ≤ middle) (leHigh : middle ≤ high) :
    Refined text h low high I suffixAt rank I₂ V₂ suffixAt₂ rank₂ where
  length := second.length.trans first.length
  outside place out := by
    rw [second.outside place (by omega), first.outside place (by omega)]
  reorders := (first.reorders.mono le_rfl leHigh).trans (second.reorders.mono lowLe le_rfl)
  others suffix out := by
    rw [second.others, first.others]
    · rintro ⟨place, within, rfl⟩
      exact out (mem_members.mpr (by omega))
    · rintro ⟨place, within, rfl⟩
      rw [first.reorders.outside (by omega), mem_members] at out
      omega
  ranks := second.ranks
  ranking := second.ranking
  layout := by
    refine (first.layout.congr ?_ ?_ ?_).append second.layout
    · intro place ge lt
      exact second.outside place (by omega)
    · intro place ge lt
      exact second.reorders.outside (by omega)
    · intro place ge lt
      apply second.others
      rw [mem_members]
      omega

end Refined

/-- The cells from `low` to `high` are in `I` and `V` and may be split at depth `h`. -/
structure Ready (text : Bytes) (h low high : Nat) (I V : Cells) (suffixAt : Equiv.Perm Nat)
    (rank : Nat → Nat) : Prop where
  shows : Shows I suffixAt low high
  ranks : Ranks V rank text.length
  unsplit : Unsplit text h suffixAt rank low high

/-- The result `run` of a call on `I` refines the cells from `low` to `high`. -/
def Settled (text : Bytes) (h low high : Nat) (I : Cells) (suffixAt : Equiv.Perm Nat)
    (rank : Nat → Nat) (run : Option (Cells × Cells)) : Prop :=
  ∃ I' V' suffixAt' rank', run = some (I', V') ∧
    Refined text h low high I suffixAt rank I' V' suffixAt' rank'

section Settled

variable {I I₁ V : Cells} {suffixAt suffixAt₁ : Equiv.Perm Nat} {rank : Nat → Nat}
  {low middle high : Nat} {run : Option (Cells × Cells)}

theorem Ready.first (ready : Ready text h low high I V suffixAt rank) (le : middle ≤ high)
    (ordered : Unsplit.Ordered text suffixAt low middle high) :
    Ready text h low middle I V suffixAt rank :=
  ⟨fun place ge lt => ready.shows place ge (by omega), ready.ranks, ready.unsplit.first le ordered⟩

theorem Ready.moved (ready : Ready text h low high I V suffixAt rank)
    (moved : Moved low high I suffixAt I₁ suffixAt₁) : Ready text h low high I₁ V suffixAt₁ rank :=
  ⟨moved.shows, ready.ranks, ready.unsplit.reorder moved.reorders⟩

theorem Ready.empty (ready : Ready text h low low I V suffixAt rank) :
    Settled text h low low I suffixAt rank (some (I, V)) :=
  ⟨I, V, suffixAt, rank, rfl, rfl, fun _ _ => rfl, .refl _ _ _, fun _ _ => rfl, ready.ranks,
    ready.unsplit.ranking, .nil low⟩

/-- A reordering of the stretch before it is split does not matter. -/
theorem Settled.after_move (moved : Moved low high I suffixAt I₁ suffixAt₁)
    (settled : Settled text h low high I₁ suffixAt₁ rank run) :
    Settled text h low high I suffixAt rank run := by
  obtain ⟨I₂, V₂, suffixAt₂, rank₂, ran, refined⟩ := settled
  refine ⟨I₂, V₂, suffixAt₂, rank₂, ran, { refined with
    length := refined.length.trans moved.length
    outside := fun place out => (refined.outside place out).trans (moved.outside place out)
    reorders := moved.reorders.trans refined.reorders
    others := fun suffix out => refined.others suffix ?_ }⟩
  rwa [moved.reorders.members_eq]

/-- Splitting two adjacent stretches that are in order, one after the other. -/
theorem Settled.bind {next : Cells × Cells → Option (Cells × Cells)}
    (first : Settled text h low middle I suffixAt rank run)
    (ready : Ready text h low high I V suffixAt rank)
    (ordered : Unsplit.Ordered text suffixAt low middle high) (lowLe : low ≤ middle)
    (leHigh : middle ≤ high)
    (second : ∀ {I₁ V₁ suffixAt₁ rank₁}, (∀ place, middle ≤ place → suffixAt₁ place = suffixAt place) →
      Ready text h middle high I₁ V₁ suffixAt₁ rank₁ →
      Settled text h middle high I₁ suffixAt₁ rank₁ (next (I₁, V₁))) :
    Settled text h low high I suffixAt rank (run >>= next) := by
  obtain ⟨I₁, V₁, suffixAt₁, rank₁, rfl, refined⟩ := first
  have kept : ∀ place, middle ≤ place → suffixAt₁ place = suffixAt place :=
    fun place ge => refined.reorders.outside (by omega)
  have shows : Shows I₁ suffixAt₁ middle high := by
    intro place ge lt
    rw [refined.outside place (by omega), kept place ge, ready.shows place (by omega) lt]
  obtain ⟨I₂, V₂, suffixAt₂, rank₂, ran, rest⟩ :=
    second kept ⟨shows, refined.ranks, refined.second ready.unsplit ordered lowLe⟩
  exact ⟨I₂, V₂, suffixAt₂, rank₂, ran, refined.join rest lowLe leHigh⟩

end Settled

variable {suffixAt : Equiv.Perm Nat} {rank : Nat → Nat}

/-- Closing a group of suffixes that agree on twice as many bytes refines its
stretch. -/
theorem closeGroup_refines {I V : Cells} {base count : Nat}
    (ready : Ready text h base (base + count) I V suffixAt rank) (pos : 0 < count)
    (agree : ∀ left right, base ≤ left → left < base + count → base ≤ right →
      right < base + count → Agree text (h + h) (suffixAt left) (suffixAt right)) :
    Settled text h base (base + count) I suffixAt rank (closeGroup I V base count) := by
  obtain ⟨shows, ranks, unsplit⟩ := ready
  have inside : Room suffixAt text.length 0 base (base + count) := by
    intro place ge lt
    exact Nat.le_of_add_right_le (unsplit.room place ge lt)
  obtain ⟨I', V', run, length, loads, ranks'⟩ := closeGroup_spec shows ranks inside pos
  have ranked : ∀ place, base ≤ place → place < base + count →
      assign rank (members suffixAt base (base + count)) (base + count - 1) (suffixAt place) =
        base + count - 1 := by
    intro place ge lt
    exact assign_mem (mem_members.mpr ⟨ge, lt⟩)
  refine ⟨I', V', suffixAt, _, run, length, ?_, .refl _ _ _, ?_, ranks', ?_, ?_⟩
  · intro place out
    rw [loads, if_neg (by omega)]
  · intro suffix out
    exact assign_notMem out
  · apply unsplit.ranking.assign unsplit.apart (by omega) (by omega)
    rintro _ ⟨left, leftIn, rfl⟩ _ ⟨right, rightIn, rfl⟩
    exact unsplit.agree left right leftIn.1 leftIn.2 rightIn.1 rightIn.2
  by_cases single : count = 1
  · subst single
    refine .run one_pos (by simp [loads]) ?_ (.nil _)
    intro place ge lt
    rw [ranked place ge lt]
    omega
  refine .group pos ?_ ?_ ?_ agree (.nil _)
  · intro place ge lt
    rw [loads, if_neg (by omega), shows place ge lt]
  · intro place ge lt
    rw [ranked place ge lt]
    omega
  intro place ge lt
  -- a group of two or more has another member, so its suffixes are long enough
  obtain ⟨other, otherIn, different⟩ :
      ∃ other, (base ≤ other ∧ other < base + count) ∧ place ≠ other := by
    by_cases isFirst : place = base
    · exact ⟨base + 1, by omega, by omega⟩
    · exact ⟨base, by omega, isFirst⟩
  exact (agree place other ge lt otherIn.1 otherIn.2).room
    (fun same => different (suffixAt.injective same)) (inside place ge lt)
    (inside other otherIn.1 otherIn.2)

theorem splitShort_refines {stop : Nat} (fuel : Nat) :
    ∀ {k I V suffixAt rank}, k ≤ stop → stop - k < fuel → Ready text h k stop I V suffixAt rank →
      Settled text h k stop I suffixAt rank (splitShort h stop fuel k I V) := by
  induction fuel with
  | zero =>
    intro k I V suffixAt rank le enough
    omega
  | succ fuel ih =>
    intro k I V suffixAt rank le enough ready
    rw [splitShort]
    by_cases more : k < stop
    · have start : Selected rank h k (k + 1) suffixAt 1 (rank (suffixAt k + h)) := by
        constructor
        · exact one_pos
        · exact le_rfl
        · intro place ge lt
          rw [show place = k by omega]
        · intro place ge lt
          omega
      obtain ⟨j, x, I₁, suffixAt₁, select, moved, selected⟩ := selectLeast_spec ready.ranks
        (stop - (k + 1)) 1 1 _ I suffixAt (by omega) ready.shows ready.unsplit.room start
      have pos := selected.pos
      have leStop := selected.le
      have ready₁ := ready.moved moved
      have ordered : Unsplit.Ordered text suffixAt₁ k (k + j) stop := by
        intro left right leftGe leftLt rightGe rightLt
        apply ready₁.unsplit.before_of_key (by omega) (by omega)
        rw [selected.equal left leftGe leftLt]
        exact selected.above right rightGe rightLt
      have closed := closeGroup_refines (ready₁.first leStop ordered) pos (by
        intro left right leftGe leftLt rightGe rightLt
        apply ready₁.unsplit.agree_of_key (by omega) (by omega)
        rw [selected.equal left leftGe leftLt, selected.equal right rightGe rightLt])
      rw [if_pos more, key_eq k ready.ranks ready.shows ready.unsplit.room le_rfl more, some_bind,
        select, some_bind]
      exact .after_move moved (closed.bind ready₁ ordered (by omega) leStop
        fun _ ready₂ => ih leStop (by omega) ready₂)
    · obtain rfl : k = stop := by omega
      rw [if_neg more]
      exact ready.empty

/-- The partition of the long branch of `split`: smaller keys up to `jj`, equal ones up
to `kk`, larger ones behind them. -/
theorem partition_spec {start stop : Nat} {I V : Cells} {pivot : Nat}
    (shows : Shows I suffixAt start stop) (ranks : Ranks V rank text.length)
    (room : Room suffixAt text.length h start stop) (le : start ≤ stop)
    (found : ∃ place, (start ≤ place ∧ place < stop) ∧ rank (suffixAt place + h) = pivot) :
    ∃ less equal j k I₁ I₂ suffixAt₂,
      countKeys I V h pivot (stop - start) start 0 0 = some (less, equal) ∧
      moveUp V h pivot (start + less) (start + less + equal) (stop - start + 1) start 0 0 I =
        some (j, k, I₁) ∧
      moveEqual V h pivot (start + less) (start + less + equal) (stop - start + 1) j k I₁ =
        some I₂ ∧
      Moved start stop I suffixAt I₂ suffixAt₂ ∧ 0 < equal ∧ start + less + equal ≤ stop ∧
      (∀ place, start ≤ place → place < start + less → rank (suffixAt₂ place + h) < pivot) ∧
      (∀ place, start + less ≤ place → place < start + less + equal →
        rank (suffixAt₂ place + h) = pivot) ∧
      ∀ place, start + less + equal ≤ place → place < stop → pivot < rank (suffixAt₂ place + h) := by
  have count := countKeys_spec ranks shows room pivot (stop - start) start 0 0 le_rfl (by omega)
  rw [zero_add, zero_add, Nat.add_sub_cancel' le] at count
  have whole := card_filter_trichotomy (fun place => rank (suffixAt place + h)) pivot start stop
  have pos : 0 < ((Finset.Ico start stop).filter fun place =>
      rank (suffixAt place + h) = pivot).card := by
    obtain ⟨place, within, same⟩ := found
    exact Finset.card_pos.mpr ⟨place, by simp [within, same]⟩
  generalize lessEq : ((Finset.Ico start stop).filter fun place =>
    rank (suffixAt place + h) < pivot).card = less at count whole
  generalize equalEq : ((Finset.Ico start stop).filter fun place =>
    rank (suffixAt place + h) = pivot).card = equal at count whole pos
  have begun : Parted rank h pivot start stop (start + less) (start + less + equal) suffixAt
      start 0 0 := by
    constructor
    · omega
    · intro place ge lt
      omega
    · intro place ge lt
      omega
    · intro place ge lt
      omega
    · rw [lessEq]
    · rw [equalEq]
  obtain ⟨j, k, I₁, suffixAt₁, up, moved₁, parted₁⟩ := moveUp_spec ranks (stop - start + 1) start 0 0 I
    suffixAt (by omega) shows room begun
  have bounds₁ := parted₁.bounds
  obtain ⟨k₂, I₂, suffixAt₂, even, moved₂, parted₂⟩ := moveEqual_spec ranks (stop - start + 1) j k I₁
    suffixAt₁ (by omega) moved₁.shows (room.reorder moved₁.reorders) parted₁
  refine ⟨less, equal, j, k, I₁, I₂, suffixAt₂, count, up, even, moved₁.trans moved₂, pos, ?_,
    parted₂.low, ?_, fun place => parted₂.lt_of_full⟩
  · omega
  · intro place ge lt
    exact parted₂.mid place ge (by omega)

/-- `split` refines its stretch.  The fuel is the length of the stretch: each of the
two recursive calls leaves out the cells whose key is the pivot. -/
theorem split_refines (fuel : Nat) : ∀ {start len I V suffixAt rank}, 0 < len → len ≤ fuel →
      Ready text h start (start + len) I V suffixAt rank →
      Settled text h start (start + len) I suffixAt rank (split h fuel start len I V) := by
  induction fuel with
  | zero =>
    intro start len I V suffixAt rank pos enough
    omega
  | succ fuel ih =>
    intro start len I V suffixAt rank pos enough ready
    rw [split]
    by_cases short : len < 16
    · rw [if_pos short]
      exact splitShort_refines (len + 1) (by omega) (by omega) ready
    have pivot := key_eq (start + len / 2) ready.ranks ready.shows ready.unsplit.room (by omega)
      (by omega)
    obtain ⟨less, equal, j, k, I₁, I₂, suffixAt₂, count, up, even, moved, equalPos, leStop, low,
      mid, top⟩ := partition_spec ready.shows ready.ranks ready.unsplit.room (by omega)
        ⟨start + len / 2, by omega, rfl⟩
    rw [Nat.add_sub_cancel_left] at count up even
    have ready₂ := ready.moved moved
    have lowOrdered : Unsplit.Ordered text suffixAt₂ start (start + less) (start + len) := by
      intro left right leftGe leftLt rightGe rightLt
      apply ready₂.unsplit.before_of_key (by omega) (by omega)
      apply lt_of_lt_of_le (low left leftGe leftLt)
      by_cases inMid : right < start + less + equal
      · exact le_of_eq (mid right rightGe inMid).symm
      · exact le_of_lt (top right (by omega) rightLt)
    have part : ∀ {low high I V suffixAt rank}, low < high → high - low ≤ fuel →
        Ready text h low high I V suffixAt rank →
        Settled text h low high I suffixAt rank (split h fuel low (high - low) I V) := by
      intro low high I V suffixAt rank less enough ready
      obtain ⟨count, rfl⟩ := Nat.exists_eq_add_of_le less.le
      rw [Nat.add_sub_cancel_left] at enough ⊢
      exact ih (by omega) enough ready
    -- the cells with the pivot as key and those behind them, once the first part is settled
    have tail : ∀ {I₃ V₃ suffixAt₃ rank₃},
        (∀ place, start + less ≤ place → suffixAt₃ place = suffixAt₂ place) →
        Ready text h (start + less) (start + len) I₃ V₃ suffixAt₃ rank₃ →
        Settled text h (start + less) (start + len) I₃ suffixAt₃ rank₃
          (closeGroup I₃ V₃ (start + less) equal >>= fun cells =>
            if start + less + equal < start + len then
              split h fuel (start + less + equal) (start + len - (start + less + equal))
                cells.1 cells.2
            else some (cells.1, cells.2)) := by
      intro I₃ V₃ suffixAt₃ rank₃ kept ready₃
      have ordered : Unsplit.Ordered text suffixAt₃ (start + less) (start + less + equal)
          (start + len) := by
        intro left right leftGe leftLt rightGe rightLt
        rw [kept left leftGe, kept right (by omega)]
        apply ready₂.unsplit.before_of_key (by omega) (by omega)
        rw [mid left leftGe leftLt]
        exact top right rightGe rightLt
      have closed := closeGroup_refines (ready₃.first leStop ordered) equalPos (by
        intro left right leftGe leftLt rightGe rightLt
        rw [kept left leftGe, kept right rightGe]
        apply ready₂.unsplit.agree_of_key (by omega) (by omega)
        rw [mid left leftGe leftLt, mid right rightGe rightLt])
      refine closed.bind ready₃ ordered (by omega) leStop fun _ ready₄ => ?_
      dsimp only
      split_ifs with someTop
      · exact part someTop (by omega) ready₄
      · rw [Nat.le_antisymm leStop (Nat.le_of_not_lt someTop)] at ready₄ ⊢
        exact ready₄.empty
    rw [if_neg short, pivot]
    simp only [some_bind, count, up, even, Nat.add_sub_cancel_left (start + less)]
    refine .after_move moved ?_
    by_cases someLow : start < start + less
    · rw [if_pos someLow]
      exact (part someLow (by omega) (ready₂.first (by omega) lowOrdered)).bind ready₂ lowOrdered
        someLow.le (by omega) tail
    · rw [if_neg someLow]
      obtain rfl : less = 0 := by omega
      exact tail (fun _ _ => rfl) ready₂

end PhilzTouch.ApplyPatch
