import Mathlib.Tactic.IntervalCases
import PhilzTouch.ApplyPatch.BsdiffTiles

/-!
# The match that `search` finds

The binary search compares a suffix with `new` only as far as both go.  A suffix that is a prefix of
`new` counts as one that is not less, so that longer matches behind it are given up.  The result is
a longest match just if every such suffix that is met is one itself.
-/

namespace PhilzTouch.ApplyPatch

open List SuffixRank

/-- `I` lists the positions of `old` in the order of the suffixes that start there. -/
structure SuffixArray (I : Cells) (old : Bytes) (suffixAt : Equiv.Perm Nat) : Prop where
  covers : Covers suffixAt old.length
  shows : Shows I suffixAt 0 (old.length + 1)
  sorted : ∀ left right, left < right → right ≤ old.length →
    Before old (suffixAt left) (suffixAt right)

theorem qsufsort_suffixArray {I V : Cells} {old : Bytes} (lengthI : I.length = old.length + 1)
    (lengthV : V.length = old.length + 1) :
    ∃ I' suffixAt, qsufsort I V old = some I' ∧ SuffixArray I' old suffixAt := by
  obtain ⟨I', suffixAt, run, -, covers, shows, sorted⟩ := qsufsort_sorts lengthI lengthV
  exact ⟨I', suffixAt, run, covers, shows, sorted⟩

/-- `old` from `place` on and `new` agree on `count` bytes. -/
def Agrees (old new : Bytes) (place count : Nat) : Prop :=
  count ≤ new.length ∧ new.take count <+: old.drop place

/-- No position of `old` agrees with `new` on more bytes. -/
def Longest (old new : Bytes) (len : Nat) : Prop :=
  ∀ place ≤ old.length, ∀ count, Agrees old new place count → count ≤ len

/-- The suffixes that `search` compares with `new`. -/
def compared (suffixAt : Equiv.Perm Nat) (old new : Bytes) : (fuel st en : Nat) → List Bytes
  | 0, _, _ => []
  | fuel + 1, st, en =>
    if en - st < 2 then []
    else
      let x := st + (en - st) / 2
      old.drop (suffixAt x) ::
        if memcmpLess (old.drop (suffixAt x)) new then compared suffixAt old new fuel x en
        else compared suffixAt old new fuel st x

/-! ## Matches of suffixes -/

section Matches

variable {suffix new : Bytes}

theorem le_matchlen_iff {count : Nat} :
    count ≤ matchlen suffix new ↔ count ≤ new.length ∧ new.take count <+: suffix := by
  induction suffix generalizing new count with
  | nil => cases new <;> cases count <;> simp [matchlen]
  | cons a suffix ih =>
    cases new with
    | nil => cases count <;> simp [matchlen]
    | cons b new =>
      cases count with
      | zero => simp
      | succ count =>
        rw [matchlen, length_cons, take_succ_cons, cons_prefix_cons, Nat.succ_le_succ_iff]
        by_cases same : a = b
        · rw [if_neg (not_not.mpr same), Nat.succ_le_succ_iff, ih, and_iff_right same.symm]
        · rw [if_pos same]
          exact iff_of_false (Nat.not_succ_le_zero _) fun both => same both.2.1.symm

theorem memcmpLess_iff : memcmpLess suffix new = true ↔ suffix < new ∧ ¬ suffix <+: new := by
  induction suffix generalizing new with
  | nil => simp [memcmpLess]
  | cons a suffix ih =>
    cases new with
    | nil => simp [memcmpLess]
    | cons b new =>
      rw [memcmpLess, cons_lt_cons_iff, cons_prefix_cons]
      by_cases same : a = b
      · simp [same, ih]
      · simp [same]

/-- The matches get longer towards `new`. -/
theorem matchlen_le_of_between {far : Bytes}
    (between : far ≤ suffix ∧ suffix ≤ new ∨ new ≤ suffix ∧ suffix ≤ far) :
    matchlen far new ≤ matchlen suffix new := by
  obtain ⟨le, start⟩ := le_matchlen_iff.mp (le_refl (matchlen far new))
  refine le_matchlen_iff.mpr ⟨le, ?_⟩
  rcases between with ⟨low, high⟩ | ⟨low, high⟩
  · exact prefix_between low high start ( take_prefix _ _)
  · exact prefix_between low high ( take_prefix _ _) start

theorem matchlen_of_prefix (start : suffix <+: new) : matchlen suffix new = suffix.length := by
  refine le_antisymm ?_ (le_matchlen_iff.mpr ⟨start.length_le, ?_⟩)
  · obtain ⟨le, start'⟩ := le_matchlen_iff.mp (le_refl (matchlen suffix new))
    have lengths := start'.length_le
    rw [length_take] at lengths
    omega
  · rw [← prefix_iff_eq_take.mp start]

end Matches

/-! ## The search -/

section Search

variable {I : Cells} {old new : Bytes} {suffixAt : Equiv.Perm Nat}
  (array : SuffixArray I old suffixAt)

include array

theorem SuffixArray.load {index : Nat} (inside : index ≤ old.length) :
    I.load index = some (suffixAt index : Int) ∧
      pointer old (suffixAt index) = some (old.drop (suffixAt index)) := by
  have le := (array.covers index).mpr inside
  refine ⟨array.shows index (Nat.zero_le _) (by omega), ?_⟩
  rw [pointer_eq (by omega) (by omega), Int.toNat_natCast]

theorem SuffixArray.longest_iff {len : Nat} : Longest old new len ↔
    ∀ index ≤ old.length, matchlen (old.drop (suffixAt index)) new ≤ len := by
  constructor
  · intro longest index inside
    exact longest _ ((array.covers index).mpr inside) _ (le_matchlen_iff.mp le_rfl)
  · intro all place le count agrees
    obtain ⟨index, rfl⟩ := suffixAt.surjective place
    exact (le_matchlen_iff.mpr agrees).trans (all index ((array.covers index).mp le))

omit array in
theorem Longest.mono {len more : Nat} (longest : Longest old new len) (le : len ≤ more) :
    Longest old new more :=
  fun place inside count agrees => (longest place inside count agrees).trans le

/-- Between the bounds the search finds a longest match, if there is one, just if each suffix that
it compares and that is a prefix of `new` is a longest match. -/
def FindsLongest (suffixAt : Equiv.Perm Nat) (old new : Bytes) (fuel st en index : Nat) : Prop :=
  (∃ best, st ≤ best ∧ best ≤ en ∧ Longest old new (matchlen (old.drop (suffixAt best)) new)) →
    (Longest old new (matchlen (old.drop (suffixAt index)) new) ↔
      ∀ suffix ∈ compared suffixAt old new fuel st en, suffix <+: new →
        Longest old new suffix.length)

omit array in
theorem findsLongest_of_close {fuel st en index : Nat} (close : en - st < 2)
    (most : ∀ place, place = st ∨ place = en →
      matchlen (old.drop (suffixAt place)) new ≤ matchlen (old.drop (suffixAt index)) new) :
    FindsLongest suffixAt old new (fuel + 1) st en index := by
  rintro ⟨best, above, below, longest⟩
  rw [compared, if_pos close]
  exact iff_of_true (longest.mono (most best (by omega))) (forall_mem_nil _)

/-- What the search returns belongs to a place between the bounds. -/
theorem SuffixArray.search_between (new : Bytes) (fuel st en : Nat) (ordered : st ≤ en)
    (inside : en ≤ old.length) (enough : en - st < fuel) :
    ∃ index, st ≤ index ∧ index ≤ en ∧ search I old new fuel st en =
        some ((matchlen (old.drop (suffixAt index)) new : Int), (suffixAt index : Int)) ∧
      FindsLongest suffixAt old new fuel st en index := by
  induction fuel generalizing st en with
  | zero => omega
  | succ fuel ih =>
    rw [search]
    by_cases close : en - st < 2
    · obtain ⟨lowLoad, lowOld⟩ := array.load (show st ≤ old.length by omega)
      obtain ⟨highLoad, highOld⟩ := array.load inside
      simp only [if_pos close, lowLoad, highLoad, some_bind, lowOld, highOld]
      by_cases more : matchlen (old.drop (suffixAt st)) new > matchlen (old.drop (suffixAt en)) new
      · rw [if_pos more]
        refine ⟨st, le_rfl, ordered, rfl, findsLongest_of_close close ?_⟩
        rintro _ (rfl | rfl)
        · exact le_rfl
        · exact more.le
      · rw [if_neg more]
        refine ⟨en, ordered, le_rfl, rfl, findsLongest_of_close close ?_⟩
        rintro _ (rfl | rfl)
        · exact not_lt.mp more
        · exact le_rfl
    obtain ⟨x, middle⟩ : ∃ x, x = st + (en - st) / 2 := ⟨_, rfl⟩
    obtain ⟨load, isOld⟩ := array.load (show x ≤ old.length by omega)
    unfold FindsLongest compared
    simp only [if_neg close, ← middle, load, some_bind, isOld]
    cases less : memcmpLess (old.drop (suffixAt x)) new with
    | true =>
      obtain ⟨below, notStart⟩ := memcmpLess_iff.mp less
      obtain ⟨index, low, high, run, finds⟩ := ih x en (by omega) inside (by omega)
      refine ⟨index, by omega, high, run, ?_⟩
      rintro ⟨best, -, last, longest⟩
      rw [forall_mem_cons, and_iff_right (fun start => absurd start notStart)]
      refine finds ?_
      by_cases kept : x ≤ best
      · exact ⟨best, kept, last, longest⟩
      · have order := array.sorted best x (by omega) (by omega)
        exact ⟨x, le_rfl, by omega,
          longest.mono (matchlen_le_of_between (.inl ⟨List.le_of_lt order, List.le_of_lt below⟩))⟩
    | false =>
      obtain ⟨index, low, high, run, finds⟩ := ih st x (by omega) (by omega) (by omega)
      refine ⟨index, low, by omega, run, ?_⟩
      rintro ⟨best, first, last, longest⟩
      by_cases start : old.drop (suffixAt x) <+: new
      · have whole := matchlen_of_prefix start
        by_cases long : Longest old new (old.drop (suffixAt x)).length
        · rw [forall_mem_cons, and_iff_right (fun _ => long)]
          exact finds ⟨x, by omega, le_rfl, whole.symm ▸ long⟩
        · -- everything up to `x` matches less than the suffix there
          refine iff_of_false (fun found => long (found.mono ?_))
            fun all => long (all _ mem_cons_self start)
          rw [← whole]
          rcases high.eq_or_lt with rfl | before
          · exact le_rfl
          · have order := array.sorted index x before (by omega)
            exact matchlen_le_of_between (.inl ⟨List.le_of_lt order, start.le⟩)
      · rw [forall_mem_cons, and_iff_right (fun wrong => absurd wrong start)]
        refine finds ?_
        by_cases kept : best ≤ x
        · exact ⟨best, first, kept, longest⟩
        · have above : ¬ old.drop (suffixAt x) < new := fun below =>
            Bool.false_ne_true (less.symm.trans (memcmpLess_iff.mpr ⟨below, start⟩))
          have order := array.sorted x best (by omega) (by omega)
          exact ⟨x, by omega, le_rfl,
            longest.mono (matchlen_le_of_between (.inr ⟨above, List.le_of_lt order⟩))⟩

end Search

/-- `search` over the whole array gives a position and a number of bytes on which `old` from there
and `new` agree.  No position agrees on more exactly if this holds for each suffix that is compared:
if it is a prefix of `new`, no position agrees on more bytes than it has. -/
theorem search_longest_iff {I : Cells} {old : Bytes} {suffixAt : Equiv.Perm Nat}
    (array : SuffixArray I old suffixAt) (new : Bytes) :
    ∃ len pos : Nat, search I old new (old.length + 1) 0 old.length =
        some ((len : Int), (pos : Int)) ∧ pos ≤ old.length ∧ Agrees old new pos len ∧
      (Longest old new len ↔ ∀ suffix ∈ compared suffixAt old new (old.length + 1) 0 old.length,
        suffix <+: new → Longest old new suffix.length) := by
  obtain ⟨index, -, inside, run, finds⟩ := array.search_between new
    (old.length + 1) 0 old.length (Nat.zero_le _) le_rfl (by omega)
  refine ⟨_, _, run, (array.covers index).mpr inside, le_matchlen_iff.mp le_rfl, finds ?_⟩
  obtain ⟨best, member, most⟩ := Finset.exists_max_image (Finset.range (old.length + 1))
    (fun index => matchlen (old.drop (suffixAt index)) new) ⟨0, Finset.mem_range.mpr (by omega)⟩
  rw [Finset.mem_range] at member
  refine ⟨best, Nat.zero_le _, by omega, array.longest_iff.mpr fun index inside => ?_⟩
  exact most index (Finset.mem_range.mpr (by omega))

/-- The suffixes of `aba`: nothing, `a`, `aba` and `ba`. -/
def abaOrder : Equiv.Perm Nat :=
  (Equiv.swap 1 2).trans ((Equiv.swap 0 3).trans (Equiv.swap 0 1))

theorem suffixArray_aba : SuffixArray [3, 2, 0, 1] [0x61, 0x62, 0x61] abaOrder where
  covers := by
    intro place
    simp only [abaOrder, Equiv.trans_apply, Equiv.swap_apply_def, length_cons, length_nil]
    split_ifs <;> omega
  shows := by
    intro place _ inside
    change place < 4 at inside
    interval_cases place <;> rfl
  sorted := by
    intro left right less inside
    change right ≤ 3 at inside
    rw [Before]
    interval_cases right <;> interval_cases left <;> decide

theorem search_longest_aba : ∃ len pos : Nat, search [3, 2, 0, 1] [0x61, 0x62, 0x61] [0x62] 4 0 3 =
    some ((len : Int), (pos : Int)) ∧ Longest [0x61, 0x62, 0x61] [0x62] len := by
  obtain ⟨len, pos, run, -, -, finds⟩ := search_longest_iff suffixArray_aba [0x62]
  have none : ∀ suffix ∈ compared abaOrder [0x61, 0x62, 0x61] [0x62] 4 0 3,
      ¬ suffix <+: [0x62] := by decide +kernel
  exact ⟨len, pos, run, finds.mpr fun suffix member start => absurd start (none suffix member)⟩

/-- For `ab`, the search meets `a` first and looks no further than there. -/
theorem search_misses_longest : SuffixArray [3, 2, 0, 1] [0x61, 0x62, 0x61] abaOrder ∧
    search [3, 2, 0, 1] [0x61, 0x62, 0x61] [0x61, 0x62] 4 0 3 = some (1, 2) ∧
      Agrees [0x61, 0x62, 0x61] [0x61, 0x62] 0 2 :=
  ⟨suffixArray_aba, by decide +kernel, by decide, by decide⟩

end PhilzTouch.ApplyPatch
