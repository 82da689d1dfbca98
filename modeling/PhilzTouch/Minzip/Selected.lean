import PhilzTouch.Minzip.Confined
import PhilzTouch.Minzip.Sorted

/-!
# The entries that an extraction works on

`mzExtractRecursive` leaves its loop at the first entry that does not match after one that did.
Since the entries are sorted, it works on exactly the entries under the directory.
-/

namespace PhilzTouch.Minzip

open List hiding lookup

open FileTree

variable {entry : ZipEntry}

/-- The entry lies under the directory to be extracted. -/
def Under (map : MemMapping) (zpath : Bytes) (entry : ZipEntry) : Prop :=
  zpath <+: entryName map entry

theorem strncmp_eq_zero {left right : Bytes} (sizes : left.length = right.length)
    (printed : ∀ char ∈ left, char ≠ 0) : strncmp left right = 0 ↔ left = right := by
  induction left generalizing right with
  | nil => simp [strncmp, length_eq_zero_iff.mp sizes.symm]
  | cons char left ih =>
    cases right with
    | nil => cases sizes
    | cons other right =>
      rw [strncmp]
      by_cases same : char = other
      · subst same
        rw [if_neg (not_not.mpr rfl), if_neg (printed char mem_cons_self),
          ih (Nat.succ.inj sizes) (forall_mem_cons.mp printed).2]
        simp
      · have apart : char.toNat ≠ other.toNat := fun equal => same (UInt8.toNat_inj.mp equal)
        rw [if_pos same]
        simp only [List.cons.injEq, same, false_and, iff_false]
        omega

theorem underPath_iff {map : MemMapping} {zpath : Bytes}
    (printed : (entryName map entry).all printable = true) :
    underPath zpath (entryName map entry) = true ↔ Under map zpath entry := by
  have chars := printable_ne_zero printed
  rw [underPath, Bool.and_eq_true, decide_eq_true_iff, beq_iff_eq, Under]
  constructor
  · rintro ⟨long, equal⟩
    rw [strncmp_eq_zero (by rw [length_take]; omega)
      fun char member => chars char (mem_of_mem_take member)] at equal
    rw [← equal]
    exact take_prefix _ _
  · rintro ⟨rest, whole⟩
    rw [← whole] at chars ⊢
    refine ⟨by simp, ?_⟩
    rw [take_left, strncmp_eq_zero rfl (forall_mem_append.mp chars).1]

/-- The entries under a directory stand together in the table. -/
theorem under_between {map : MemMapping} {zpath low : Bytes} {entry later : ZipEntry}
    (first : zpath <+: low) (below : nameKey low ≤ nameKey (entryName map entry))
    (above : nameKey (entryName map entry) ≤ nameKey (entryName map later))
    (last : Under map zpath later) : Under map zpath entry := by
  have between := SuffixRank.prefix_between (not_lt.mpr below) (not_lt.mpr above)
    (first.map UInt8.toNat) (last.map UInt8.toNat)
  exact (prefix_map_iff_of_injective fun _ _ => UInt8.toNat_inj.mp).mp between

/-! ## The entries -/

/-- The entries under a path, with the paths they are extracted to. -/
def subtree (map : MemMapping) (zpath targetDir : Bytes) (entries : List ZipEntry) :
    List (ZipEntry × Bytes) :=
  (entries.filter fun entry => zpath.isPrefixOf (entryName map entry)).map fun entry =>
    (entry, targetPath targetDir zpath (entryName map entry))

section Subtree

variable {map : MemMapping} {zpath targetDir : Bytes} {entry : ZipEntry} {entries : List ZipEntry}

theorem subtree_cons_under (under : Under map zpath entry) :
    subtree map zpath targetDir (entry :: entries) =
      (entry, targetPath targetDir zpath (entryName map entry)) ::
        subtree map zpath targetDir entries := by
  have chosen : zpath.isPrefixOf (entryName map entry) = true := isPrefixOf_iff_prefix.mpr under
  simp only [subtree, filter_cons, chosen, if_true, map_cons]

theorem subtree_cons_other (other : ¬ Under map zpath entry) :
    subtree map zpath targetDir (entry :: entries) = subtree map zpath targetDir entries := by
  have left : ¬ zpath.isPrefixOf (entryName map entry) = true := mt isPrefixOf_iff_prefix.mp other
  simp only [subtree, filter_cons, left, if_false, Bool.false_eq_true]

theorem subtree_eq_nil (none : ∀ entry ∈ entries, ¬ Under map zpath entry) :
    subtree map zpath targetDir entries = [] := by
  rw [subtree, map_eq_nil_iff, filter_eq_nil_iff]
  exact fun entry member => mt isPrefixOf_iff_prefix.mp (none entry member)

theorem subtree_append (front behind : List ZipEntry) : subtree map zpath targetDir (front ++ behind) =
      subtree map zpath targetDir front ++ subtree map zpath targetDir behind := by
  simp [subtree]

theorem mem_subtree {pair : ZipEntry × Bytes} : pair ∈ subtree map zpath targetDir entries ↔
      ∃ entry ∈ entries, Under map zpath entry ∧
        (entry, targetPath targetDir zpath (entryName map entry)) = pair := by
  simp [subtree, Under, and_assoc]

/-- The record of a loop over the given entries is about the entries under the path, one after
the other; about all of them if no step failed.  It stays inside the buffer where paths fit. -/
structure Selects (fits : Prop) (map : MemMapping) (zpath targetDir : Bytes)
    (entries : List ZipEntry) (result : Extraction) : Prop where
  inside : fits → result.ended ≠ .outside
  order : result.processed <+: subtree map zpath targetDir entries
  all : result.ended = .finished → result.processed = subtree map zpath targetDir entries

/-- What the loop over the remaining entries selects is what was left to be selected. -/
theorem extractLoop_selects {archive : Bytes} {allowed : (extractMachine archive).Step → Prop}
    {fits : Prop} {args : ExtractArgs} {seenMatch : Bool} {helper : MzPathHelper}
    {state : ExtractState} (table : Table map entries) (ready : Ready targetDir helper)
    (short : fits → ∀ entry ∈ entries, Under map zpath entry →
      FitsInt targetDir ((entryName map entry).length - zpath.length))
    (seen : seenMatch = true → ∃ low, zpath <+: low ∧
      ∀ entry ∈ entries, nameKey low ≤ nameKey (entryName map entry)) :
    (extractMachine archive).Safe allowed (fun _ => True)
      (fun result _ => Selects fits map zpath targetDir entries result)
      (extractLoop args map zpath targetDir entries seenMatch helper) state := by
  induction entries generalizing seenMatch helper state with
  | nil => exact .ret ⟨fun _ => by simp, prefix_rfl, fun _ => rfl⟩
  | cons entry entries ih =>
    have printed := table.printed entry mem_cons_self
    have ascends := (pairwise_cons.mp table.ascends).1
    have shortLater := fun known => (forall_mem_cons.mp (short known)).2
    rw [extractLoop]
    by_cases under : underPath zpath (entryName map entry) = true
    · have isUnder := (underPath_iff printed).mp under
      rw [if_pos under]
      refine (targetEntryPath_path False.elim zpath _ ready trivial).bind fun value after found => ?_
      obtain ⟨-, ⟨rfl, -⟩ | ⟨rfl, long⟩ | ⟨helper, rfl, readyLater⟩⟩ := found
      · exact .ret ⟨fun _ => by simp, nil_prefix, by simp⟩
      · refine .ret ⟨fun known => ?_, nil_prefix, by simp⟩
        exact absurd (short known entry mem_cons_self isUnder) long
      refine .skip fun step after => ?_
      cases step with
      | leave ok =>
        refine .ret ⟨fun _ => by simp, ?_, by simp⟩
        rw [subtree_cons_under isUnder]
        exact cons_prefix_cons.mpr ⟨rfl, nil_prefix⟩
      | next =>
        refine (@ih true helper after table.tail readyLater shortLater
          fun _ => ⟨_, isUnder, ascends⟩).bind fun later done selects => ?_
        refine .ret ⟨selects.inside, ?_, fun finished => ?_⟩
        · rw [subtree_cons_under isUnder]
          exact cons_prefix_cons.mpr ⟨rfl, selects.order⟩
        · rw [subtree_cons_under isUnder, ← selects.all finished]
    have notUnder : ¬ Under map zpath entry := mt (underPath_iff printed).mpr under
    rw [if_neg under]
    split
    next matched =>
      -- behind the entries under the path there are no others
      obtain ⟨low, first, below⟩ := seen matched
      have none : subtree map zpath targetDir (entry :: entries) = [] := by
        refine subtree_eq_nil fun other member underOther => ?_
        rcases mem_cons.mp member with rfl | later
        · exact notUnder underOther
        · exact notUnder (under_between first (below entry mem_cons_self)
            (ascends other later) underOther)
      exact .ret ⟨fun _ => by simp, nil_prefix, fun _ => none.symm⟩
    next unmatched =>
      refine (ih table.tail ready shortLater fun matched => absurd matched unmatched).weaken
        fun result after selects => ?_
      obtain ⟨inside, order, all⟩ := selects
      rw [← subtree_cons_other notUnder] at order all
      exact ⟨inside, order, all⟩

end Subtree

end PhilzTouch.Minzip
