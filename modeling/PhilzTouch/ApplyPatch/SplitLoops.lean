import PhilzTouch.ApplyPatch.Qsufsort
import PhilzTouch.Lib.Reorder
import PhilzTouch.Lib.SuffixRank

/-!
# What the loops of `split` do

Each loop of `split` gets one specification.  They are stated for a placement
`suffixAt` of the suffixes on the cells of `I` and a rank function `rank` held by
`V`, so that the key of a cell is `rank (suffixAt cell + h)`.
-/

namespace PhilzTouch.ApplyPatch

open SuffixRank

/-- `V` holds the rank of every suffix, the empty one included. -/
structure Ranks (V : Cells) (rank : Nat → Nat) (size : Nat) : Prop where
  length : V.length = size + 1
  load : ∀ suffix ≤ size, V.load suffix = some (rank suffix : Int)

/-- Every suffix between the bounds has at least `h` bytes. -/
def Room (suffixAt : Equiv.Perm Nat) (size h low high : Nat) : Prop :=
  ∀ place, low ≤ place → place < high → suffixAt place + h ≤ size

section Loops

variable {V : Cells} {rank : Nat → Nat} {size h : Nat} {I : Cells} {suffixAt : Equiv.Perm Nat}
  {low high : Nat}

theorem key_eq (place : Nat) (ranks : Ranks V rank size)
    (shows : Shows I suffixAt low high) (room : Room suffixAt size h low high) (lowLe : low ≤ place)
    (ltHigh : place < high) : key I V h place = some (rank (suffixAt place + h) : Int) := by
  have load := ranks.load (suffixAt place + h) (room place lowLe ltHigh)
  rw [Int.natCast_add] at load
  simp only [key, shows place lowLe ltHigh, some_bind, load]

theorem Room.reorder {before after : Equiv.Perm Nat}
    (room : Room before size h low high) (reorders : Reorders before after low high) :
    Room after size h low high :=
  reorders.forall_inside (fun suffix => suffix + h ≤ size) room

theorem forall_until_succ {P : Nat → Prop}
    (before : ∀ place, low ≤ place → place < high → P place) (last : P high) (place : Nat)
    (ge : low ≤ place) (lt : place < high + 1) : P place := by
  rcases Nat.lt_succ_iff_lt_or_eq.mp lt with early | rfl
  · exact before place ge early
  · exact last

/-- The cells from `k` on, with the least key in front: `count` cells have it, all
others have a larger one. -/
structure Selected (rank : Nat → Nat) (h k stop : Nat) (suffixAt : Equiv.Perm Nat)
    (count least : Nat) : Prop where
  pos : 0 < count
  le : k + count ≤ stop
  equal : ∀ place, k ≤ place → place < k + count → rank (suffixAt place + h) = least
  above : ∀ place, k + count ≤ place → place < stop → least < rank (suffixAt place + h)

variable {stop count k least : Nat}

section

variable (selected : Selected rank h k stop suffixAt count least)

include selected

theorem Selected.extend
    (more : least < rank (suffixAt stop + h)) : Selected rank h k (stop + 1) suffixAt count least :=
  { selected with
    le := Nat.le_succ_of_le selected.le
    above := forall_until_succ selected.above more }

/-- One step of the selection: the next cell is exchanged with the first cell behind
those that have the least key so far. -/
theorem Selected.exchange (same : rank (suffixAt stop + h) = least) :
    Selected rank h k (stop + 1) ((Equiv.swap (k + count) stop).trans suffixAt) (count + 1)
      least where
  pos := Nat.succ_pos _
  le := by
    have := selected.le
    omega
  equal place ge lt := by
    rw [Equiv.trans_apply]
    by_cases last : place = k + count
    · rw [last, Equiv.swap_apply_left, same]
    · have := selected.le
      rw [Equiv.swap_apply_of_ne_of_ne last (by omega)]
      exact selected.equal place ge (by omega)
  above place ge lt := by
    have := selected.le
    rw [Equiv.trans_apply]
    by_cases last : place = stop
    · rw [last, Equiv.swap_apply_right]
      exact selected.above (k + count) (by omega) (by omega)
    · rw [Equiv.swap_apply_of_ne_of_ne (by omega) last]
      exact selected.above place (by omega) (by omega)

/-- A step of the selection that finds a smaller key starts anew. -/
theorem Selected.restart (less : rank (suffixAt stop + h) < least) :
    Selected rank h k (stop + 1) ((Equiv.swap k stop).trans suffixAt) 1
      (rank (suffixAt stop + h)) where
  pos := one_pos
  le := by
    have := selected.pos
    have := selected.le
    omega
  equal place ge lt := by
    rw [show place = k by omega, Equiv.trans_apply, Equiv.swap_apply_left]
  above place ge lt := by
    have old : ∀ cell, k ≤ cell → cell < stop →
        rank (suffixAt stop + h) < rank (suffixAt cell + h) := by
      intro cell cellGe cellLt
      by_cases front : cell < k + count
      · rw [selected.equal cell cellGe front]
        exact less
      · exact less.trans (selected.above cell (by omega) cellLt)
    have := selected.pos
    have := selected.le
    rw [Equiv.trans_apply]
    by_cases last : place = stop
    · rw [last, Equiv.swap_apply_right]
      exact old k le_rfl (by omega)
    · rw [Equiv.swap_apply_of_ne_of_ne (by omega) last]
      exact old place (by omega) (by omega)

end

theorem selectLeast_spec (ranks : Ranks V rank size) {k : Nat} (left : Nat) :
    ∀ (i j x : Nat) (I : Cells) (suffixAt : Equiv.Perm Nat), k + i + left = stop →
      Shows I suffixAt k stop → Room suffixAt size h k stop →
      Selected rank h k (k + i) suffixAt j x →
      ∃ j' x' I' suffixAt', selectLeast V h k left i j x I = some (j', I') ∧
        Moved k stop I suffixAt I' suffixAt' ∧ Selected rank h k stop suffixAt' j' x' := by
  induction left with
  | zero =>
    intro i j x I suffixAt reach shows room selected
    refine ⟨j, x, I, suffixAt, rfl, .refl shows, ?_⟩
    rwa [← reach]
  | succ left ih =>
    intro i j x I suffixAt reach shows room selected
    have jPos := selected.pos
    have jLe := selected.le
    have next := key_eq (k + i) ranks shows room (by omega) (by omega)
    have swapped : ∀ count least, count ≤ i →
        Selected rank h k (k + (i + 1)) ((Equiv.swap (k + count) (k + i)).trans suffixAt)
          (count + 1) least →
        ∃ j' x' I' suffixAt',
          ((I.swap (k + count : Nat) (k + i : Nat)).bind fun I =>
            selectLeast V h k left (i + 1) (count + 1) least I) = some (j', I') ∧
          Moved k stop I suffixAt I' suffixAt' ∧ Selected rank h k stop suffixAt' j' x' := by
      intro count least countLe after
      obtain ⟨middle, exchange, moved⟩ := Moved.swap (k + count) (k + i) shows (by omega) (by omega)
      obtain ⟨j', x', I', suffixAt', run, moved', selected'⟩ :=
        ih (i + 1) (count + 1) least middle _ (by omega) moved.shows
          (room.reorder moved.reorders) after
      refine ⟨j', x', I', suffixAt', ?_, moved.trans moved', selected'⟩
      rw [exchange, Option.bind_some, run]
    simp only [selectLeast, next, some_bind, Int.ofNat_lt]
    rcases lt_trichotomy (rank (suffixAt (k + i) + h)) x with less | same | more
    · simp only [if_pos less, if_true]
      exact swapped 0 _ (Nat.zero_le i) (selected.restart less)
    · simp only [same, Nat.lt_irrefl, if_false, if_true]
      exact swapped j x (by omega) (selected.exchange same)
    · simp only [if_neg (not_lt.mpr (le_of_lt more)), Int.natCast_inj, if_neg (ne_of_gt more)]
      exact ih (i + 1) j x I suffixAt (by omega) shows room (selected.extend more)

theorem countKeys_spec (ranks : Ranks V rank size) {start : Nat}
    (shows : Shows I suffixAt start stop) (room : Room suffixAt size h start stop) (x left : Nat) :
    ∀ i jj kk, start ≤ i → i + left ≤ stop → countKeys I V h x left i jj kk = some
        (jj + ((Finset.Ico i (i + left)).filter fun place => rank (suffixAt place + h) < x).card,
          kk + ((Finset.Ico i (i + left)).filter fun place => rank (suffixAt place + h) = x).card) := by
  induction left with
  | zero =>
    intro i jj kk _ _
    simp [countKeys]
  | succ left ih =>
    intro i jj kk startLe leStop
    simp only [countKeys, key_eq i ranks shows room startLe (by omega), some_bind, Int.ofNat_lt, Int.natCast_inj, ih (i + 1) _ _ (by omega) (by omega),
      card_filter_Ico_succ]
    split <;> split <;> simp only [add_assoc, zero_add]

/-- The state of the three-way partition of the cells from `start` to `stop` around
the key `pivot`: the smaller keys belong before `jj`, the larger ones from `kk` on,
and the cells up to `i`, `jj + j` and `kk + k` are done. -/
structure Parted (rank : Nat → Nat) (h pivot start stop jj kk : Nat) (suffixAt : Equiv.Perm Nat)
    (i j k : Nat) : Prop where
  bounds : start ≤ i ∧ i ≤ jj ∧ jj + j ≤ kk ∧ kk + k ≤ stop
  low : ∀ place, start ≤ place → place < i → rank (suffixAt place + h) < pivot
  mid : ∀ place, jj ≤ place → place < jj + j → rank (suffixAt place + h) = pivot
  top : ∀ place, kk ≤ place → place < kk + k → pivot < rank (suffixAt place + h)
  lows : start +
    ((Finset.Ico start stop).filter fun place => rank (suffixAt place + h) < pivot).card = jj
  mids : jj +
    ((Finset.Ico start stop).filter fun place => rank (suffixAt place + h) = pivot).card = kk

namespace Parted

variable {pivot start stop jj kk i j k : Nat} {suffixAt : Equiv.Perm Nat}
  (parted : Parted rank h pivot start stop jj kk suffixAt i j k)

include parted

theorem tops :
    kk + ((Finset.Ico start stop).filter fun place => pivot < rank (suffixAt place + h)).card =
      stop := by
  have whole := card_filter_trichotomy (fun place => rank (suffixAt place + h)) pivot start stop
  have lows := parted.lows
  have mids := parted.mids
  have bounds := parted.bounds
  omega

variable {place : Nat}

/-- A cell with the pivot outside the middle part: the middle part has room for it. -/
theorem mid_room (within : start ≤ place ∧ place < stop) (apart : ¬(jj ≤ place ∧ place < jj + j))
    (same : rank (suffixAt place + h) = pivot) : jj + j < kk := by
  have bounds := parted.bounds
  have count := lt_card_filter (fun place => rank (suffixAt place + h) = pivot) (by omega) within
    apart parted.mid same
  have mids := parted.mids
  omega

theorem top_room (within : start ≤ place ∧ place < stop) (apart : ¬(kk ≤ place ∧ place < kk + k))
    (more : pivot < rank (suffixAt place + h)) : kk + k < stop := by
  have bounds := parted.bounds
  have count := lt_card_filter (fun place => pivot < rank (suffixAt place + h)) (by omega) within
    apart parted.top more
  have tops := parted.tops
  omega

theorem low_step (more : i < jj) (less : rank (suffixAt i + h) < pivot) :
    Parted rank h pivot start stop jj kk suffixAt (i + 1) j k :=
  { parted with
    bounds := by
      have := parted.bounds
      omega
    low := forall_until_succ parted.low less }

theorem mid_step (more : jj + j < kk) (same : rank (suffixAt (jj + j) + h) = pivot) :
    Parted rank h pivot start stop jj kk suffixAt i (j + 1) k :=
  { parted with
    bounds := by
      have := parted.bounds
      omega
    mid := forall_until_succ parted.mid same }

theorem top_step (more : kk + k < stop) (above : pivot < rank (suffixAt (kk + k) + h)) :
    Parted rank h pivot start stop jj kk suffixAt i j (k + 1) :=
  { parted with
    bounds := by
      have := parted.bounds
      omega
    top := forall_until_succ parted.top above }

theorem exchange (left right : Nat)
    (leftIn : i ≤ left ∧ left < stop) (rightIn : i ≤ right ∧ right < stop)
    (leftMid : ¬(jj ≤ left ∧ left < jj + j)) (rightMid : ¬(jj ≤ right ∧ right < jj + j))
    (leftTop : ¬(kk ≤ left ∧ left < kk + k)) (rightTop : ¬(kk ≤ right ∧ right < kk + k)) :
    Parted rank h pivot start stop jj kk ((Equiv.swap left right).trans suffixAt) i j k := by
  have bounds := parted.bounds
  have reorders : Reorders suffixAt ((Equiv.swap left right).trans suffixAt) start stop :=
    .swap (by omega) (by omega)
  have fixed : ∀ place, place ≠ left → place ≠ right →
      ((Equiv.swap left right).trans suffixAt) place = suffixAt place := by
    intro place notLeft notRight
    rw [Equiv.trans_apply, Equiv.swap_apply_of_ne_of_ne notLeft notRight]
  constructor
  · exact bounds
  · intro place startLe ltI
    rw [fixed place (by omega) (by omega)]
    exact parted.low place startLe ltI
  · intro place jjLe ltJ
    rw [fixed place (by rintro rfl; exact leftMid ⟨jjLe, ltJ⟩)
      (by rintro rfl; exact rightMid ⟨jjLe, ltJ⟩)]
    exact parted.mid place jjLe ltJ
  · intro place kkLe ltK
    rw [fixed place (by rintro rfl; exact leftTop ⟨kkLe, ltK⟩)
      (by rintro rfl; exact rightTop ⟨kkLe, ltK⟩)]
    exact parted.top place kkLe ltK
  · rw [reorders.card_filter (fun suffix => rank (suffix + h) < pivot)]
    exact parted.lows
  · rw [reorders.card_filter (fun suffix => rank (suffix + h) = pivot)]
    exact parted.mids

omit parted

/-- Once the low part is full, no other cell has a smaller key. -/
theorem le_of_full (parted : Parted rank h pivot start stop jj kk suffixAt jj j k)
    (jjLe : jj ≤ place) (ltStop : place < stop) : pivot ≤ rank (suffixAt place + h) := by
  by_contra less
  have bounds := parted.bounds
  have count := lt_card_filter (fun place => rank (suffixAt place + h) < pivot)
    (by omega) (by omega : start ≤ place ∧ place < stop) (by omega : ¬(start ≤ place ∧ place < jj))
    parted.low (Nat.lt_of_not_le less)
  have lows := parted.lows
  omega

/-- Once all three parts are full, the cells from `kk` on have the larger keys. -/
theorem lt_of_full (parted : Parted rank h pivot start stop jj kk suffixAt jj (kk - jj) k)
    (kkLe : kk ≤ place) (ltStop : place < stop) : pivot < rank (suffixAt place + h) := by
  have bounds := parted.bounds
  rcases lt_or_eq_of_le (parted.le_of_full (by omega : jj ≤ place) ltStop) with more | same
  · exact more
  · have room := parted.mid_room (by omega : start ≤ place ∧ place < stop) (by omega) same.symm
    omega

end Parted

variable {pivot start jj kk : Nat}

/-- The loop `while(i<jj)` of `split` fills the low part. -/
theorem moveUp_spec (ranks : Ranks V rank size) (fuel : Nat) :
    ∀ (i j k : Nat) (I : Cells) (suffixAt : Equiv.Perm Nat),
      (jj - i) + (kk - (jj + j)) + (stop - (kk + k)) < fuel →
      Shows I suffixAt start stop → Room suffixAt size h start stop →
      Parted rank h pivot start stop jj kk suffixAt i j k →
      ∃ j' k' I' suffixAt', moveUp V h pivot jj kk fuel i j k I = some (j', k', I') ∧
        Moved start stop I suffixAt I' suffixAt' ∧
        Parted rank h pivot start stop jj kk suffixAt' jj j' k' := by
  induction fuel with
  | zero =>
    intro i j k I suffixAt enough
    omega
  | succ fuel ih =>
    intro i j k I suffixAt enough shows room parted
    have bounds := parted.bounds
    by_cases more : i < jj
    · have next := key_eq i ranks shows room (by omega) (by omega)
      simp only [moveUp, if_pos more, next, some_bind, Int.ofNat_lt, Int.natCast_inj]
      rcases lt_trichotomy (rank (suffixAt i + h)) pivot with less | same | above
      · rw [if_pos less]
        exact ih (i + 1) j k I suffixAt (by omega) shows room (parted.low_step more less)
      · rw [if_neg (by omega), if_pos same]
        have midRoom := parted.mid_room (by omega : start ≤ i ∧ i < stop) (by omega) same
        obtain ⟨middle, exchange, moved⟩ := Moved.swap i (jj + j) shows (by omega) (by omega)
        have exchanged := parted.exchange i (jj + j) (by omega) (by omega)
          (by omega) (by omega) (by omega) (by omega)
        have after := exchanged.mid_step midRoom (by simp [same])
        obtain ⟨j', k', I', suffixAt', run, moved', done⟩ := ih i (j + 1) k middle _ (by omega)
          moved.shows (room.reorder moved.reorders) after
        refine ⟨j', k', I', suffixAt', ?_, moved.trans moved', done⟩
        rw [exchange, some_bind, run]
      rw [if_neg (by omega), if_neg (by omega)]
      have topRoom := parted.top_room (by omega : start ≤ i ∧ i < stop) (by omega) above
      obtain ⟨middle, exchange, moved⟩ := Moved.swap i (kk + k) shows (by omega) (by omega)
      have exchanged := parted.exchange i (kk + k) (by omega) (by omega)
        (by omega) (by omega) (by omega) (by omega)
      have after := exchanged.top_step topRoom (by simp [above])
      obtain ⟨j', k', I', suffixAt', run, moved', done⟩ := ih i j (k + 1) middle _ (by omega)
        moved.shows (room.reorder moved.reorders) after
      refine ⟨j', k', I', suffixAt', ?_, moved.trans moved', done⟩
      rw [exchange, some_bind, run]
    · refine ⟨j, k, I, suffixAt, by simp only [moveUp, if_neg more], .refl shows, ?_⟩
      rwa [show i = jj by omega] at parted

/-- The loop `while(jj+j<kk)` of `split` fills the middle part. -/
theorem moveEqual_spec (ranks : Ranks V rank size) (fuel : Nat) :
    ∀ (j k : Nat) (I : Cells) (suffixAt : Equiv.Perm Nat),
      (kk - (jj + j)) + (stop - (kk + k)) < fuel →
      Shows I suffixAt start stop → Room suffixAt size h start stop →
      Parted rank h pivot start stop jj kk suffixAt jj j k →
      ∃ k' I' suffixAt', moveEqual V h pivot jj kk fuel j k I = some I' ∧
        Moved start stop I suffixAt I' suffixAt' ∧
        Parted rank h pivot start stop jj kk suffixAt' jj (kk - jj) k' := by
  induction fuel with
  | zero =>
    intro j k I suffixAt enough
    omega
  | succ fuel ih =>
    intro j k I suffixAt enough shows room parted
    have bounds := parted.bounds
    by_cases more : jj + j < kk
    · have next := key_eq (jj + j) ranks shows room (by omega) (by omega)
      simp only [moveEqual, if_pos more, next, some_bind, Int.natCast_inj]
      rcases lt_or_eq_of_le (parted.le_of_full (by omega : jj ≤ jj + j) (by omega)) with
        above | same
      · rw [if_neg (by omega)]
        have topRoom := parted.top_room (by omega : start ≤ jj + j ∧ jj + j < stop) (by omega) above
        obtain ⟨middle, exchange, moved⟩ := Moved.swap (jj + j) (kk + k) shows (by omega) (by omega)
        have exchanged := parted.exchange (jj + j) (kk + k) (by omega) (by omega)
          (by omega) (by omega) (by omega) (by omega)
        have after := exchanged.top_step topRoom (by simp [above])
        obtain ⟨k', I', suffixAt', run, moved', done⟩ := ih j (k + 1) middle _ (by omega)
          moved.shows (room.reorder moved.reorders) after
        refine ⟨k', I', suffixAt', ?_, moved.trans moved', done⟩
        rw [exchange, some_bind, run]
      · rw [if_pos same.symm]
        exact ih (j + 1) k I suffixAt (by omega) shows room (parted.mid_step more same.symm)
    · refine ⟨k, I, suffixAt, by simp only [moveEqual, if_neg more], .refl shows, ?_⟩
      rwa [show j = kk - jj by omega] at parted

theorem Ranks.congr {rank' : Nat → Nat} (ranks : Ranks V rank size)
    (same : ∀ suffix ≤ size, rank suffix = rank' suffix) : Ranks V rank' size where
  length := ranks.length
  load suffix inside := by
    rw [ranks.load suffix inside, same suffix inside]

theorem setRanks_spec {base value : Nat} (shows : Shows I suffixAt base stop)
    (room : Room suffixAt size 0 base stop) (left : Nat) :
    ∀ (i : Nat) (V : Cells), base + i + left = stop →
      Ranks V (assign rank (members suffixAt base (base + i)) value) size →
      ∃ V', setRanks I base value left i V = some V' ∧
        Ranks V' (assign rank (members suffixAt base stop) value) size := by
  induction left with
  | zero =>
    intro i V reach ranks
    refine ⟨V, rfl, ?_⟩
    rwa [← reach]
  | succ left ih =>
    intro i V reach ranks
    have found := shows (base + i) (by omega) (by omega)
    have inside := room (base + i) (by omega) (by omega)
    obtain ⟨middle, stored, length, loads⟩ := Cells.store_spec V (suffixAt (base + i)) value
      (by rw [ranks.length]; omega)
    have after : Ranks middle (assign rank (members suffixAt base (base + (i + 1))) value)
        size := by
      constructor
      · rw [length, ranks.length]
      intro suffix within
      rw [loads]
      by_cases this : suffix = suffixAt (base + i)
      · rw [if_pos this, this, assign_mem (mem_members.mpr (by omega))]
      rw [if_neg this, ranks.load suffix within]
      by_cases member : suffix ∈ members suffixAt base (base + i)
      · obtain ⟨place, bounds, rfl⟩ := member
        rw [assign_mem (mem_members.mpr bounds), assign_mem (mem_members.mpr (by omega))]
      rw [assign_notMem member, assign_notMem]
      rintro ⟨place, bounds, rfl⟩
      apply member
      rw [mem_members]
      have : place ≠ base + i := fun same => this (by rw [same])
      omega
    obtain ⟨V', run, done⟩ := ih (i + 1) middle (by omega) after
    refine ⟨V', ?_, done⟩
    simp only [setRanks, found, some_bind, stored, run]

/-- Closing a group: its members get the index of its last cell, and the cell of a
group of one is marked. -/
theorem closeGroup_spec {base : Nat} (shows : Shows I suffixAt base (base + count))
    (ranks : Ranks V rank size) (room : Room suffixAt size 0 base (base + count)) (pos : 0 < count) :
    ∃ I' V', closeGroup I V base count = some (I', V') ∧ I'.length = I.length ∧
      (∀ place : Nat, I'.load place =
        if count = 1 ∧ place = base then some (-1) else I.load place) ∧
      Ranks V' (assign rank (members suffixAt base (base + count)) (base + count - 1)) size := by
  have start : Ranks V (assign rank (members suffixAt base (base + 0)) (base + count - 1))
      size := by
    apply ranks.congr
    intro suffix _
    rw [assign_notMem]
    rintro ⟨place, bounds, _⟩
    omega
  obtain ⟨V', run, done⟩ := setRanks_spec shows room count 0 V (by omega) start
  have value : ((base + count - 1 : Nat) : Int) = base + count - 1 := by omega
  rw [value] at run
  by_cases single : count = 1
  · obtain ⟨I', stored, length, loads⟩ := Cells.store_spec I base (-1)
      (Cells.lt_length_of_load (shows base le_rfl (by omega)))
    refine ⟨I', V', ?_, length, ?_, done⟩
    · simp only [closeGroup, run, some_bind, if_pos single, stored]
    · intro place
      rw [loads]
      simp [single]
  · refine ⟨I, V', ?_, rfl, ?_, done⟩
    · simp only [closeGroup, run, some_bind, if_neg single]
    · intro place
      simp [single]

end Loops

end PhilzTouch.ApplyPatch
