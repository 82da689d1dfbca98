import PhilzTouch.Lib.FileTree
import PhilzTouch.Lib.Program

/-!
# Making the directories of a path

`dirCreateHierarchy` of `DirUtil.c` walks over a copy of the path that ends in a slash, cuts it at
each slash that ends a component, and makes what is missing there.  It is written over the calls
that it makes, since the extraction of an archive makes them among others; here they pass a mode
to `mkdir`.  Relative paths begin at the root, where the recovery runs.
-/

namespace PhilzTouch.Minzip

open Function
open List hiding lookup

open FileTree

/-! ## The program -/

/-- The result of `stat` as far as it is looked at. -/
inductive StatResult where
  | directory
  | other
  | missing
  | failed
  deriving DecidableEq, Repr

/-- The calls of `dirCreateHierarchy`. -/
structure DirCalls (Op : Type) (Reply : Op → Type) where
  malloc : Prog Op Reply Bool
  stat (path : Bytes) : Prog Op Reply StatResult
  mkdir (path : Bytes) : Prog Op Reply Bool
  utime (path : Bytes) : Prog Op Reply Bool

/-- `getPathDirStatus`. -/
inductive DirStatus where
  | missing
  | dir
  | illegal
  deriving DecidableEq, Repr

/-- The paths at which the loop of `dirCreateHierarchy` stops: up to each slash that ends a
component. -/
def levels (done : Bytes) : (rest : Bytes) → List Bytes
  | [] => []
  | char :: rest =>
    if char = slash ∧ done ≠ [] ∧ done.getLast? ≠ some slash then
      done :: levels (done ++ [char]) rest
    else levels (done ++ [char]) rest

/-- `path` up to its last slash. -/
def upToSlash (path : Bytes) : Bytes := (path.reverse.dropWhile (· ≠ slash)).reverse

/-- The modifiable path of `dirCreateHierarchy`, which ends in a slash. -/
def hierarchyPath (path : Bytes) (stripFileName : Bool) : Option Bytes :=
  if stripFileName then
    -- no slash, or none but the first character
    if (upToSlash path).length ≤ 1 then none else some (upToSlash path)
  else some (path ++ [slash])

section Program

variable {Op : Type} {Reply : Op → Type} (calls : DirCalls Op Reply)

@[inherit_doc DirStatus] def getPathDirStatus (path : Bytes) : Prog Op Reply DirStatus := do
  match ← calls.stat path with
  | .directory => .ret .dir
  | .other => .ret .illegal
  | .failed => .ret .illegal
  | .missing => .ret .missing

/-- Make one level of the hierarchy. -/
def makeLevel (timestamp : Bool) (cpath : Bytes) : Prog Op Reply Int := do
  match ← calls.mkdir cpath with
  | false => .ret (-1)
  | true =>
    if timestamp then do
      match ← calls.utime cpath with
      | false => .ret (-1)
      | true => .ret 0
    else .ret 0

/-- Walk up the path from the root and make each level. -/
def makeLevels (timestamp : Bool) : List Bytes → Prog Op Reply Int
  | [] => .ret 0
  | cpath :: rest => do
    match ← getPathDirStatus calls cpath with
    | .illegal => .ret (-1)
    | .dir => makeLevels timestamp rest
    | .missing => do
      let err ← makeLevel calls timestamp cpath
      if err ≠ 0 then .ret (-1) else makeLevels timestamp rest

def dirCreateHierarchy (path : Bytes) (timestamp stripFileName : Bool) : Prog Op Reply Int :=
  if path = [] then .ret (-1)
  else do
    match ← calls.malloc with
    | false => .ret (-1)
    | true =>
      match hierarchyPath path stripFileName with
      | none => .ret (-1)
      | some cpath => do
        match ← getPathDirStatus calls cpath with
        | .dir => .ret 0
        | .illegal => .ret (-1)
        | .missing => makeLevels calls timestamp (levels [] cpath)

end Program

namespace DirUtil

/-! ## Components -/

/-- A beginning of a path that ends where one of its components does. -/
structure Component (base part : Bytes) : Prop where
  nonempty : part ≠ []
  inner : part.getLast? ≠ some slash
  ends : part ++ [slash] <+: base ++ [slash]

theorem mem_levels {done rest part : Bytes} :
    part ∈ levels done rest ↔ part ≠ [] ∧ part.getLast? ≠ some slash ∧ done <+: part ∧
      part ++ [slash] <+: done ++ rest := by
  induction rest generalizing done with
  | nil =>
    refine ⟨by simp [levels], ?_⟩
    rintro ⟨_, _, below, above⟩
    have := above.length_le
    have := below.length_le
    rw [length_append, append_nil, length_singleton] at *
    omega
  | cons char rest ih =>
    have assoc : done ++ char :: rest = done ++ [char] ++ rest := by simp
    have deeper : done ++ [char] <+: part → done <+: part := (prefix_append _ _).trans
    -- a part that is longer than `done` goes on with the next character
    have longer : done <+: part → part ++ [slash] <+: done ++ char :: rest → part ≠ done →
        done ++ [char] <+: part := by
      rintro ⟨more, rfl⟩ above other
      cases more with
      | nil => exact absurd (append_nil _) other
      | cons first more =>
        rw [append_assoc, prefix_append_right_inj, cons_append, cons_prefix_cons] at above
        exact ⟨more, by simp [above.1]⟩
    rw [levels]
    split
    next stops =>
      rw [mem_cons, ih, assoc]
      constructor
      · rintro (rfl | ⟨nonempty, inner, below, above⟩)
        · refine ⟨stops.2.1, stops.2.2, prefix_rfl, ?_⟩
          rw [stops.1]
          exact prefix_append _ _
        · exact ⟨nonempty, inner, deeper below, above⟩
      · rintro ⟨nonempty, inner, below, above⟩
        by_cases same : part = done
        · exact .inl same
        · exact .inr ⟨nonempty, inner, longer below (assoc ▸ above) same, above⟩
    next goes =>
      rw [ih, assoc]
      refine ⟨And.imp_right (And.imp_right (And.imp_left deeper)), ?_⟩
      rintro ⟨nonempty, inner, below, above⟩
      refine ⟨nonempty, inner, longer below (assoc ▸ above) ?_, above⟩
      rintro rfl
      rw [← assoc, prefix_append_right_inj, cons_prefix_cons] at above
      exact goes ⟨above.1.symm, nonempty, inner⟩

/-- Each level is above those that follow it. -/
theorem levels_pairwise (done rest : Bytes) :
    (levels done rest).Pairwise fun upper lower => upper ++ [slash] <+: lower := by
  induction rest generalizing done with
  | nil => exact .nil
  | cons char rest ih =>
    rw [levels]
    split
    next stops =>
      refine pairwise_cons.mpr ⟨fun lower member => ?_, ih _⟩
      rw [stops.1] at member
      exact (mem_levels.mp member).2.2.1
    next => exact ih _

variable {base part : Bytes}

theorem Component.prefix_names (component : Component base part) :
    components part <+: names base := by
  obtain ⟨rest, whole⟩ := component.ends
  rw [append_assoc, singleton_append] at whole
  have same : names (base ++ [slash]) = names base := by
    rw [names_append_slash base [], names_nil, append_nil]
  rw [components_of_getLast component.inner, ← same, ← whole, names_append_slash]
  exact prefix_append _ _

theorem Component.split (component : Component base part) :
    ∃ more, more ≠ [] ∧ components (base ++ [slash]) = components part ++ more := by
  obtain ⟨rest, whole⟩ := component.ends
  rw [append_assoc, singleton_append] at whole
  refine ⟨names rest ++ [dot], append_ne_nil_of_right_ne_nil _ nofun, ?_⟩
  rw [components, if_pos getLast?_concat, ← whole, names_append_slash,
    components_of_getLast component.inner, append_assoc]

/-- A path that ends in a slash names its last level. -/
theorem levels_last (done rest : Bytes) (ends : (done ++ rest).getLast? = some slash) :
    (∃ level ∈ levels done rest, components level = names (done ++ rest)) ∨
      names (done ++ rest) = names done ∧ (done = [] ∨ done.getLast? = some slash) := by
  induction rest generalizing done with
  | nil =>
    rw [append_nil] at ends ⊢
    exact .inr ⟨rfl, .inr ends⟩
  | cons char rest ih =>
    have assoc : done ++ char :: rest = (done ++ [char]) ++ rest := by simp
    rw [assoc] at ends ⊢
    rw [levels]
    rcases ih (done ++ [char]) ends with ⟨level, member, same⟩ | ⟨same, last⟩
    · refine .inl ⟨level, ?_, same⟩
      split
      · exact mem_cons_of_mem _ member
      · exact member
    have isSlash : char = slash := by
      rcases last with empty | last
      · simp at empty
      · simpa using last
    subst isSlash
    have unchanged : names (done ++ [slash]) = names done := by
      rw [names_append_slash done [], names_nil, append_nil]
    rw [same, unchanged]
    split
    next stops =>
      exact .inl ⟨done, mem_cons_self, components_of_getLast stops.2.2⟩
    next goes =>
      refine .inr ⟨rfl, ?_⟩
      by_contra neither
      rw [not_or] at neither
      exact goes ⟨rfl, neither.1, neither.2⟩

theorem upToSlash_spec (path : Bytes) : ∃ file, path = upToSlash path ++ file ∧
      (upToSlash path = [] ∨ ∃ front, upToSlash path = front ++ [slash]) := by
  refine ⟨(path.reverse.takeWhile (· ≠ slash)).reverse, ?_, ?_⟩
  · rw [upToSlash, ← reverse_append, takeWhile_append_dropWhile, reverse_reverse]
  rw [upToSlash]
  cases rest : path.reverse.dropWhile (· ≠ slash) with
  | nil => exact .inl rfl
  | cons char more =>
    have first := head?_dropWhile_not (· ≠ slash) path.reverse
    rw [rest] at first
    refine .inr ⟨more.reverse, ?_⟩
    rw [reverse_cons]
    simp at first
    rw [first]

variable {tree : Tree}

theorem Component.isDir (component : Component base part)
    (isDir : stat tree true (base ++ [slash]) = .ok .dir) : stat tree true part = .ok .dir := by
  obtain ⟨here, found, -⟩ := stat_iff.mp isDir
  obtain ⟨more, goesOn, joined⟩ := component.split
  rw [resolve, joined] at found
  exact stat_iff.mpr (walk_front (.nil tree) found goesOn)

theorem isDir_above {upper lower : Bytes} {node : Node}
    (below : upper ++ [slash] <+: lower) (inner : upper.getLast? ≠ some slash)
    (inner' : lower.getLast? ≠ some slash) (present : stat tree false lower = .ok node) :
    stat tree true upper = .ok .dir := by
  obtain ⟨here, found, -⟩ := stat_iff.mp present
  obtain ⟨rest, whole⟩ := below
  rw [append_assoc, singleton_append] at whole
  have goesOn : names rest ≠ [] := by
    intro none
    refine inner' ?_
    rw [← whole, getLast?_append_of_ne_nil _ (cons_ne_nil _ _)]
    obtain ⟨last, known⟩ := getLast?_isSome.mpr (cons_ne_nil slash rest) |>
      Option.isSome_iff_exists.mp
    rw [known]
    rcases mem_cons.mp (mem_of_getLast? known) with same | member
    · rw [same]
    · rw [eq_slash_of_names none last member]
  rw [resolve, components_of_getLast inner', ← whole, names_append_slash,
    ← components_of_getLast inner] at found
  exact stat_iff.mpr (walk_front (.nil tree) found goesOn)

section Whole

/-- The part of the path that is to be a directory: all of it, or all up to its last slash. -/
def wanted (path : Bytes) (stripFileName : Bool) : Bytes :=
  if stripFileName then upToSlash path else path

theorem wanted_names (path : Bytes) (stripFileName : Bool) :
    names (wanted path stripFileName) <+: names path := by
  rw [wanted]
  split
  · obtain ⟨file, whole, none | ⟨front, ends⟩⟩ := upToSlash_spec path
    · rw [none, names_nil]
      exact nil_prefix
    rw [ends] at whole ⊢
    have left := names_append_slash front []
    have right := names_append_slash front file
    rw [names_nil, append_nil] at left
    rw [append_assoc, singleton_append] at whole
    rw [whole, left, right]
    exact prefix_append _ _
  · exact prefix_rfl

theorem hierarchyPath_spec {path cpath : Bytes} {stripFileName : Bool}
    (known : hierarchyPath path stripFileName = some cpath) :
    (∀ tree, stat tree true cpath = stat tree true (wanted path stripFileName ++ [slash])) ∧
      ∀ part, part ∈ levels [] cpath ↔ Component (wanted path stripFileName) part := by
  cases stripFileName with
  | false =>
    cases known
    refine ⟨fun _ => rfl, fun part => mem_levels.trans ?_⟩
    constructor
    · rintro ⟨nonempty, inner, _, ends⟩
      exact ⟨nonempty, inner, ends⟩
    · rintro ⟨nonempty, inner, ends⟩
      exact ⟨nonempty, inner, nil_prefix, ends⟩
  | true =>
    rw [hierarchyPath, if_pos rfl] at known
    split at known
    · cases known
    next long =>
    cases known
    obtain ⟨-, -, empty | ⟨front, slashed⟩⟩ := upToSlash_spec path
    · rw [empty] at long
      exact absurd (Nat.zero_le 1) long
    rw [wanted, if_pos rfl, slashed]
    have same : components (front ++ [slash] ++ [slash]) = components (front ++ [slash]) := by
      rw [components_slash, components_slash, names_append_slash front [], names_nil, append_nil]
    refine ⟨fun tree => by rw [stat, stat, resolve, resolve, same], fun part => mem_levels.trans ?_⟩
    constructor
    · rintro ⟨nonempty, inner, _, ends⟩
      exact ⟨nonempty, inner, ends.trans (prefix_append _ _)⟩
    rintro ⟨nonempty, inner, ends⟩
    refine ⟨nonempty, inner, nil_prefix, ?_⟩
    rcases prefix_concat_iff.mp ends with whole | shorter
    · -- a component does not end in a slash
      rw [append_left_inj] at whole
      rw [whole] at inner
      exact absurd getLast?_concat inner
    · exact shorter

theorem isDir_of_components (base : Bytes) (nonempty : base ≠ [])
    (all : ∀ part, Component base part → stat tree true part = .ok .dir) :
    stat tree true base = .ok .dir := by
  by_cases inner : base.getLast? = some slash
  · obtain ⟨front, rfl⟩ := getLast?_eq_some_iff.mp inner
    rcases levels_last [] (front ++ [slash]) (by simp) with ⟨level, member, last⟩ | ⟨none, -⟩
    · obtain ⟨nonempty, inner, -, ends⟩ := mem_levels.mp member
      refine stat_slash ?_ (all level ⟨nonempty, inner, ends.trans (prefix_append _ _)⟩)
      rw [last, components_slash, nil_append, names_append_slash front [], names_nil, append_nil]
    · -- only slashes: the root
      rw [nil_append, names_append_slash front [], names_nil, append_nil] at none
      rw [stat, resolve, components_slash, none]
      rfl
  · exact all base ⟨nonempty, inner, prefix_rfl⟩

end Whole

/-! ## What the calls are to do -/

section Calls

variable {Op : Type} {Reply : Op → Type} {machine : Machine Op Reply}

/-- The calls look at and change the tree of a state as they should.  They keep `invariant`,
`mkdir` as long as its path is one of those `asked` for, and none fails when the run is `calm`. -/
structure Meets (calls : DirCalls Op Reply) (allowed : machine.Step → Prop)
    (invariant : machine.State → Prop) (tree : machine.State → Tree) (asked : Bytes → Prop)
    (calm : Prop) : Prop where
  malloc : ∀ state, invariant state → machine.Safe allowed invariant
    (fun works after => after = state ∧ (calm → works = true)) calls.malloc state
  stat : ∀ path state, invariant state → machine.Safe allowed invariant
    (fun result after => after = state ∧
      (result = .directory → FileTree.stat (tree state) true path = .ok .dir) ∧
      (result = .missing → FileTree.stat (tree state) true path = .error .noEntry) ∧
      (calm → result = .directory ∨ result = .missing)) (calls.stat path) state
  mkdir : ∀ path state, asked path → invariant state → machine.Safe allowed invariant
    (fun made after => Grows (fun _ => False) (tree state) (tree after) ∧
      (made = true → FileTree.stat (tree after) true path = .ok .dir ∧
        ∀ node, FileTree.stat (tree state) false path ≠ .ok node) ∧
      (calm → made = true)) (calls.mkdir path) state
  utime : ∀ path state, invariant state → machine.Safe allowed invariant
    (fun works after => after = state ∧ (calm → works = true)) (calls.utime path) state

variable {calls : DirCalls Op Reply} {allowed : machine.Step → Prop}
  {invariant : machine.State → Prop} {tree : machine.State → Tree} {asked : Bytes → Prop}
  {calm : Prop} {state : machine.State} (meets : Meets calls allowed invariant tree asked calm)
  (held : invariant state)

include meets held

theorem getPathDirStatus_status (path : Bytes) : machine.Safe allowed invariant
      (fun value after => after = state ∧ (value = .dir → stat (tree state) true path = .ok .dir) ∧
        (value = .missing → stat (tree state) true path = .error .noEntry) ∧
        (calm → value ≠ .illegal)) (getPathDirStatus calls path) state := by
  rw [getPathDirStatus]
  refine (meets.stat path state held).bind fun result after known => ?_
  obtain ⟨rfl, isDir, missing, fine⟩ := known
  cases result with
  | directory => exact .ret ⟨rfl, fun _ => isDir rfl, nofun, fun _ => nofun⟩
  | missing => exact .ret ⟨rfl, nofun, fun _ => missing rfl, fun _ => nofun⟩
  | other => exact .ret ⟨rfl, nofun, nofun, fun calm => by simp at fine; exact absurd calm fine⟩
  | failed => exact .ret ⟨rfl, nofun, nofun, fun calm => by simp at fine; exact absurd calm fine⟩

theorem makeLevel_makes (timestamp : Bool) {part : Bytes} (asks : asked part) :
    machine.Safe allowed invariant
      (fun value after => invariant after ∧ Grows (fun _ => False) (tree state) (tree after) ∧
        (value = 0 → stat (tree after) true part = .ok .dir ∧
          ∀ node, stat (tree state) false part ≠ .ok node) ∧ (calm → value = 0))
      (makeLevel calls timestamp part) state := by
  rw [makeLevel]
  refine ((meets.mkdir part state asks held).keeping held).bind fun made after known => ?_
  obtain ⟨⟨grows, makes, works⟩, kept⟩ := known
  cases made with
  | false => exact .ret ⟨kept, grows, nofun, fun calm => absurd (works calm) nofun⟩
  | true =>
    dsimp only
    split
    · refine (meets.utime part after kept).bind fun touched done known => ?_
      obtain ⟨rfl, works⟩ := known
      cases touched with
      | false => exact .ret ⟨kept, grows, nofun, fun calm => absurd (works calm) nofun⟩
      | true => exact .ret ⟨kept, grows, fun _ => makes rfl, fun _ => rfl⟩
    · exact .ret ⟨kept, grows, fun _ => makes rfl, fun _ => rfl⟩

/-- After a success every level is a directory, and none of them was something else before. -/
theorem makeLevels_makes (timestamp : Bool) {paths : List Bytes} {base : Bytes}
    (asks : ∀ part ∈ paths, asked part) (parts : ∀ part ∈ paths, Component base part)
    (ordered : paths.Pairwise fun upper lower => upper ++ [slash] <+: lower) :
    machine.Safe allowed invariant
      (fun value after => Grows (fun _ => False) (tree state) (tree after) ∧
        (value = 0 → ∀ part ∈ paths, stat (tree after) true part = .ok .dir ∧ ∀ node,
          stat (tree state) false part = .ok node → stat (tree state) true part = .ok .dir) ∧
        (calm → value = 0)) (makeLevels calls timestamp paths) state := by
  induction paths generalizing state with
  | nil => exact .ret ⟨.refl _ _, fun _ => nofun, fun _ => rfl⟩
  | cons cpath rest ih =>
    have component := parts cpath mem_cons_self
    have laterParts := (forall_mem_cons.mp parts).2
    have laterAsks := (forall_mem_cons.mp asks).2
    obtain ⟨above, laterOrdered⟩ := pairwise_cons.mp ordered
    rw [makeLevels]
    refine (getPathDirStatus_status meets held cpath).bind fun status after known => ?_
    obtain ⟨rfl, isDir, missing, legal⟩ := known
    cases status with
    | illegal => exact .ret ⟨.refl _ _, nofun, fun calm => absurd rfl (legal calm)⟩
    | dir =>
      refine (ih held laterAsks laterParts laterOrdered).weaken fun value done later => ?_
      refine ⟨later.1, fun success part member => ?_, later.2.2⟩
      rcases mem_cons.mp member with rfl | other
      · exact ⟨stat_grows later.1 (isDir rfl), fun _ _ => isDir rfl⟩
      · exact later.2.1 success part other
    | missing =>
      refine (makeLevel_makes meets held timestamp (asks cpath mem_cons_self)).bind
        fun err made known => ?_
      obtain ⟨kept, grows, makes, works⟩ := known
      split
      next failed => exact .ret ⟨grows, nofun, fun calm => absurd (works calm) failed⟩
      next fine =>
      obtain ⟨present, fresh⟩ := makes (not_not.mp fine)
      refine (ih kept laterAsks laterParts laterOrdered).weaken fun value done later => ?_
      refine ⟨grows.trans later.1, fun success part member => ?_, later.2.2⟩
      rcases mem_cons.mp member with rfl | other
      · exact ⟨stat_grows later.1 present, fun node there => absurd there (fresh node)⟩
      -- what is below a level that was missing was not there
      refine ⟨(later.2.1 success part other).1, fun node there => ?_⟩
      have upper := isDir_above (above part other) component.inner (parts part member).inner there
      rw [missing rfl] at upper
      cases upper

end Calls

/-- Nothing that was there is changed; after a success the path and all its components are
directories, and none of them was something else before. -/
theorem dirCreateHierarchy_makes {Op : Type} {Reply : Op → Type} {machine : Machine Op Reply}
    {calls : DirCalls Op Reply} {allowed : machine.Step → Prop} {invariant : machine.State → Prop}
    {tree : machine.State → Tree} {calm : Prop} {state : machine.State} {path : Bytes}
    {stripFileName : Bool} (timestamp : Bool)
    (meets : Meets calls allowed invariant tree (Component (wanted path stripFileName)) calm)
    (held : invariant state) : machine.Safe allowed invariant
      (fun value after => Grows (fun _ => False) (tree state) (tree after) ∧
        (value = 0 → stat (tree after) true (wanted path stripFileName) = .ok .dir ∧
          ∀ part, Component (wanted path stripFileName) part →
            stat (tree after) true part = .ok .dir ∧ ∀ node,
              stat (tree state) false part = .ok node → stat (tree state) true part = .ok .dir) ∧
        (calm → path ≠ [] → hierarchyPath path stripFileName ≠ none → value = 0))
      (dirCreateHierarchy calls path timestamp stripFileName) state := by
  rw [dirCreateHierarchy]
  split
  next empty => exact .ret ⟨.refl _ _, nofun, fun _ nonempty => absurd empty nonempty⟩
  next nonempty =>
  refine (meets.malloc state held).bind fun allocated after known => ?_
  obtain ⟨rfl, works⟩ := known
  cases allocated with
  | false => exact .ret ⟨.refl _ _, nofun, fun calm => absurd (works calm) nofun⟩
  | true =>
    cases known : hierarchyPath path stripFileName with
    | none => exact .ret ⟨.refl _ _, nofun, fun _ _ some => absurd rfl some⟩
    | some cpath =>
      obtain ⟨same, listed⟩ := hierarchyPath_spec known
      have some : wanted path stripFileName ≠ [] := by
        rw [wanted]
        split
        next strips =>
          rw [hierarchyPath, if_pos strips] at known
          rintro empty
          rw [empty] at known
          cases known
        next => exact nonempty
      refine (getPathDirStatus_status meets held cpath).bind fun status after found => ?_
      obtain ⟨rfl, isDir, -, legal⟩ := found
      cases status with
      | illegal => exact .ret ⟨.refl _ _, nofun, fun calm => absurd rfl (legal calm)⟩
      | dir =>
        have whole := isDir rfl
        rw [same] at whole
        refine .ret ⟨.refl _ _, fun _ => ⟨?_, fun part component => ?_⟩, fun _ _ _ => rfl⟩
        · exact isDir_of_components _ some fun part component => component.isDir whole
        · exact ⟨component.isDir whole, fun _ _ => component.isDir whole⟩
      | missing =>
        have parts := fun part member => (listed part).mp member
        refine (makeLevels_makes meets held timestamp parts parts
          (levels_pairwise [] cpath)).weaken fun value done made => ?_
        refine ⟨made.1, fun success => ?_, fun calm _ _ => made.2.2 calm⟩
        have all := fun part component => made.2.1 success part ((listed part).mpr component)
        exact ⟨isDir_of_components _ some fun part component => (all part component).1, all⟩

/-! ## Directories with a mode -/

inductive DirOp where
  | malloc
  | stat (path : Bytes)
  | mkdir (path : Bytes) (mode : UInt16)
  | utime (path : Bytes)
  deriving DecidableEq, Repr

abbrev DirReply : DirOp → Type
  | .malloc => Bool
  | .stat _ => StatResult
  | .mkdir _ _ => Bool
  | .utime _ => Bool

abbrev dirCalls (mode : UInt16) : DirCalls DirOp DirReply where
  malloc := Prog.call DirOp.malloc
  stat path := Prog.call (DirOp.stat path)
  mkdir path := Prog.call (DirOp.mkdir path mode)
  utime path := Prog.call (DirOp.utime path)

/-- The tree, the permissions of its nodes, and the bits that `mkdir` takes away. -/
structure DirState where
  tree : Tree
  modes : Location → UInt16
  umask : UInt16

/-- What a call does.  The environment may let it fail. -/
def dirPerform : (op : DirOp) → (works : Bool) → DirState → DirState × DirReply op
  | .malloc, works, state => (state, works)
  | .stat path, works, state =>
    (state, if works then
        match stat state.tree true path with
        | .ok .dir => .directory
        | .ok _ => .other
        | .error .noEntry => .missing
        | .error _ => .failed
      else .failed)
  | .mkdir path mode, works, state =>
    if works then
      match make state.tree path .dir with
      | .ok (here, after) =>
        ({ state with
            tree := after
            modes := update state.modes here (mode &&& ~~~state.umask) }, true)
      | .error _ => (state, false)
    else (state, false)
  | .utime _, works, state => (state, works)

abbrev dirMachine : Machine DirOp DirReply where
  Choice := Bool
  State := DirState
  perform := dirPerform

/-! ## What a run changes -/

/-- What was there before is as it was, and what was not is still missing or has been made: a
directory with the requested mode, to which a component of the path leads. -/
structure Built (base : Bytes) (mode : UInt16) (before after : DirState) : Prop where
  umask : after.umask = before.umask
  kept : ∀ here node, before.tree here = some node →
    after.tree here = some node ∧ after.modes here = before.modes here
  made : ∀ here, before.tree here = none → after.tree here = none ∨
    after.tree here = some .dir ∧ after.modes here = mode &&& ~~~before.umask ∧
      ∃ part, Component base part ∧ resolve after.tree true part = .ok here

section Run

variable {base : Bytes} {mode : UInt16} {before state : DirState}

theorem Built.refl (base : Bytes) (mode : UInt16) (state : DirState) : Built base mode state state :=
  ⟨rfl, fun _ _ known => ⟨known, rfl⟩, fun _ missing => .inl missing⟩

theorem mkdir_cases (path : Bytes) (mode : UInt16) (works : Bool) (state : DirState) :
    dirMachine.perform (.mkdir path mode) works state = (state, false) ∨
      ∃ here after, make state.tree path .dir = .ok (here, after) ∧
        dirMachine.perform (.mkdir path mode) works state = ({ state with
              tree := after
              modes := update state.modes here (mode &&& ~~~state.umask) }, true) := by
  cases works with
  | false => exact .inl rfl
  | true =>
    simp only [dirPerform, if_true]
    cases made : make state.tree path .dir with
    | error errno => exact .inl rfl
    | ok result => exact .inr ⟨result.1, result.2, rfl, rfl⟩

theorem Built.mkdir (built : Built base mode before state) {part : Bytes}
    (component : Component base part) (works : Bool) :
    Built base mode before (dirMachine.perform (.mkdir part mode) works state).1 := by
  rcases mkdir_cases part mode works state with same | ⟨here, after, made, done⟩
  · rw [same]
    exact built
  rw [done]
  obtain ⟨free, changed⟩ := make_free made
  obtain ⟨found, -⟩ : resolve after true part = .ok here ∧ lookup after here = some .dir :=
    make_found true nofun made
  refine ⟨built.umask, fun place node known => ?_, fun place missing => ?_⟩
  · obtain ⟨old, same⟩ := built.kept place node known
    have apart : place ≠ here := by
      rintro rfl
      rw [free] at old
      cases old
    dsimp only
    rw [changed, update_of_ne apart, update_of_ne apart]
    exact ⟨old, same⟩
  by_cases same : place = here
  · subst same
    refine .inr ⟨?_, ?_, part, component, found⟩
    · dsimp only
      rw [changed, update_self]
    · dsimp only
      rw [update_self, built.umask]
  · rcases built.made place missing with none | ⟨isDir, moded, other, member, leads⟩
    · refine .inl ?_
      dsimp only
      rw [changed, update_of_ne same, none]
    refine .inr ⟨?_, ?_, other, member, ?_⟩
    · dsimp only
      rw [changed, update_of_ne same, isDir]
    · dsimp only
      rw [update_of_ne same, moded]
    have present : lookup state.tree place = some .dir := by
      rw [lookup]
      split
      · rfl
      · exact isDir
    rw [changed]
    exact walk_grows (.update (fun _ => False) _ free) leads present

theorem mkdir_makes (path : Bytes) (mode : UInt16) (works : Bool) (state : DirState) :
    Grows (fun _ => False) state.tree (dirMachine.perform (.mkdir path mode) works state).1.tree ∧
      ((dirMachine.perform (.mkdir path mode) works state).2 = true →
        stat (dirMachine.perform (.mkdir path mode) works state).1.tree true path = .ok .dir ∧
          ∀ node, stat state.tree false path ≠ .ok node) := by
  rcases mkdir_cases path mode works state with same | ⟨here, after, made, done⟩
  · rw [same]
    exact ⟨.refl _ _, nofun⟩
  rw [done]
  exact ⟨make_grows made, fun _ => make_dir made⟩

theorem dirCalls_meets (base : Bytes) (mode : UInt16) (before : DirState) :
    @Meets _ _ dirMachine (dirCalls mode) (fun _ => True) (Built base mode before) DirState.tree
      (Component base) False := by
  refine ⟨fun state built => ?_, fun path state built => ?_, fun path state component built => ?_,
    fun path state built => ?_⟩
  · exact .single DirOp.malloc fun works _ => ⟨built, rfl, False.elim⟩
  · refine .single (DirOp.stat path) fun works _ => ⟨built, rfl, ?_⟩
    simp only [dirPerform]
    cases works with
    | false => exact ⟨nofun, nofun, False.elim⟩
    | true =>
      cases known : stat state.tree true path with
      | error errno => cases errno <;> exact ⟨nofun, by simp, False.elim⟩
      | ok node => cases node <;> exact ⟨by simp, nofun, False.elim⟩
  · refine .single (DirOp.mkdir path mode) fun works _ => ⟨built.mkdir component works, ?_⟩
    obtain ⟨grows, makes⟩ := mkdir_makes path mode works state
    exact ⟨grows, makes, False.elim⟩
  · exact .single (DirOp.utime path) fun works _ => ⟨built, rfl, False.elim⟩

end Run

/-- The state and the outcome of a run of `dirCreateHierarchy`. -/
def runHierarchy (path : Bytes) (mode : UInt16) (timestamp stripFileName : Bool)
    (choices : List Bool) (before : DirState) : DirState × Outcome Int :=
  dirMachine.exec (dirCreateHierarchy (dirCalls mode) path timestamp stripFileName) choices before

/-- Whatever happens, only missing components are made; after a success the path and all its
components are directories; and a component that is there and is not a directory makes it fail. -/
theorem dirCreateHierarchy_builds (path : Bytes) (mode : UInt16) (timestamp stripFileName : Bool)
    (choices : List Bool) (before : DirState) : Built (wanted path stripFileName) mode before
        (runHierarchy path mode timestamp stripFileName choices before).1 ∧
      ((runHierarchy path mode timestamp stripFileName choices before).2 = .done 0 →
        stat (runHierarchy path mode timestamp stripFileName choices before).1.tree true
            (wanted path stripFileName) = .ok .dir ∧
          ∀ part, Component (wanted path stripFileName) part →
            stat (runHierarchy path mode timestamp stripFileName choices before).1.tree true part =
              .ok .dir) ∧ ((∃ part node, Component (wanted path stripFileName) part ∧
          stat before.tree false part = .ok node ∧ stat before.tree true part ≠ .ok .dir) →
        (runHierarchy path mode timestamp stripFileName choices before).2 ≠ .done 0) := by
  have safe := dirCreateHierarchy_makes timestamp
    (dirCalls_meets (wanted path stripFileName) mode before) (Built.refl _ mode before)
  obtain ⟨built, returns⟩ := safe.exec (Built.refl _ mode before)
    fun step (_ : step ∈ dirMachine.steps _ choices before) => trivial
  refine ⟨built, fun done => ?_, ?_⟩
  · obtain ⟨whole, parts⟩ := (returns 0 done).2.1 rfl
    exact ⟨whole, fun part component => (parts part component).1⟩
  · rintro ⟨part, node, component, present, other⟩ done
    exact other ((((returns 0 done).2.1 rfl).2 part component).2 node present)

end DirUtil

end PhilzTouch.Minzip
