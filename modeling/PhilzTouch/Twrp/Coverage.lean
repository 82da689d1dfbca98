import Mathlib.Data.List.Nodup
import PhilzTouch.Twrp.FileLists

/-!
# What the file lists cover

The lists are right if every file, link and directory outside of the excluded subtrees is archived
by exactly one item, nothing inside of them is, no list is empty, and the lines of a list are its
items.  A directory that is gone through is no item itself, and one that is added is added with
all that is in it; so it all depends on the entries of the directory that is backed up.
-/

namespace PhilzTouch.Twrp

open List

/-! ## Paths -/

/-- Names as they stand in a directory. -/
def GoodPath (path : List Bytes) : Prop := ∀ name ∈ path, name ≠ [] ∧ slash ∉ name

variable {first second : List Bytes}

theorem GoodPath.append (good : GoodPath first) (good' : GoodPath second) :
    GoodPath (first ++ second) := by
  exact forall_mem_append.mpr ⟨good, good'⟩

variable {path : List Bytes}

theorem GoodPath.of_prefix {first : List Bytes} (good : GoodPath path) (start : first <+: path) :
    GoodPath first := fun name member => good name (start.subset member)

theorem pathString_append (first second : List Bytes) :
    pathString (first ++ second) = pathString first ++ pathString second :=
  flatMap_append

/-- A directory that is added is written like a path that ends in an empty name. -/
theorem pathString_slash (path : List Bytes) : pathString path ++ [slash] = pathString (path ++ [[]]) := by
  rw [pathString_append]
  rfl

theorem pathString_concat (path : List Bytes) :
    pathString path ++ [slash] = slash :: path.flatMap (· ++ [slash]) := by
  induction path with
  | nil => rfl
  | cons name path ih =>
    change slash :: name ++ pathString path ++ [slash] = slash :: ((name ++ [slash]) ++ _)
    rw [append_assoc, ih, cons_append, append_assoc, singleton_append]
    rfl

/-- Names without a slash can be told from the path. -/
theorem pathString_injective (plain : ∀ name ∈ first, slash ∉ name)
    (plain' : ∀ name ∈ second, slash ∉ name) (same : pathString first = pathString second) :
    first = second := by
  have ended := congrArg (· ++ [slash]) same
  simp only [pathString_concat, cons.injEq, true_and] at ended
  rw [← fields_flatMap plain, ended, fields_flatMap plain']

/-- An item archives itself, and a directory all that is in it. -/
def Archives (item : Bytes) (path : List Bytes) : Prop :=
  item = pathString path ∨ ∃ dir, dir <+: path ∧ item = pathString dir ++ [slash]

/-- The path that an item was made from. -/
def IsItemOf (item : Bytes) (path : List Bytes) : Prop :=
  item = pathString path ∨ item = pathString path ++ [slash]

variable {item : Bytes}

theorem IsItemOf.archives (isItem : IsItemOf item path) : Archives item path := by
  rcases isItem with same | same
  · exact .inl same
  · exact .inr ⟨path, prefix_rfl, same⟩

variable {other : List Bytes}

/-- What an item archives lies at its path or below. -/
theorem Archives.prefix_of (archives : Archives item other)
    (isItem : IsItemOf item path) (good : GoodPath path) (good' : GoodPath other) :
    path <+: other := by
  have ended : ∀ {path : List Bytes}, GoodPath path → ∀ name ∈ path ++ [[]], slash ∉ name := by
    intro path good name member
    rcases mem_append.mp member with inside | last
    · exact (good name inside).2
    · rw [mem_singleton.mp last]
      exact not_mem_nil
  have whole : ∀ {path dir : List Bytes}, GoodPath path → GoodPath dir →
      pathString path ≠ pathString dir ++ [slash] := by
    intro path dir good good' same
    rw [pathString_slash] at same
    have paths := pathString_injective (fun name member => (good name member).2) (ended good') same
    exact (good [] (by rw [paths]; exact mem_append_right _ mem_cons_self)).1 rfl
  rcases archives with itself | ⟨dir, start, inside⟩
  · rcases isItem with same | same
    · rw [same] at itself
      rw [pathString_injective (fun name member => (good name member).2)
        (fun name member => (good' name member).2) itself]
    · exact absurd (itself.symm.trans same) (whole good' good)
  have goodDir := good'.of_prefix start
  rcases isItem with same | same
  · exact absurd (same.symm.trans inside) (whole good goodDir)
  · have paths := same.symm.trans inside
    rw [pathString_slash, pathString_slash] at paths
    have dirs := pathString_injective (ended good) (ended goodDir) paths
    rw [append_cancel_right dirs]
    exact start

/-! ## Excluded subtrees -/

/-- The names of the music cache directory. -/
def musicNames : List Bytes :=
  [ascii "data", ascii "data", ascii "com.google.android.music", ascii "files"]

/-- A path in `/data/media`, if that is data media, or in the music cache. -/
def Excluded (sys : System) (path : List Bytes) : Prop :=
  (sys.isDataMedia = true ∧ [ascii "data", ascii "media"] <+: path) ∨ musicNames <:+: path

instance (sys : System) (path : List Bytes) : Decidable (Excluded sys path) :=
  inferInstanceAs (Decidable (_ ∨ _))

variable {sys : System}

theorem Excluded.below (excluded : Excluded sys path) (start : path <+: other) :
    Excluded sys other := by
  rcases excluded with ⟨media, inside⟩ | music
  · exact .inl ⟨media, inside.trans start⟩
  · exact .inr (music.trans start.isInfix)

/-- What is excluded is skipped, one way or the other. -/
theorem Excluded.skipped (excluded : Excluded sys path) :
    isMedia sys path = true ∨ isMusic path = true := by
  rcases excluded with ⟨media, rest, rfl⟩ | ⟨front, rest, rfl⟩
  · refine .inl (decide_eq_true ⟨media, pathString rest, ?_⟩)
    rw [pathString_append]
    rfl
  · refine .inr (decide_eq_true ⟨pathString front ++ [slash], pathString rest, ?_⟩)
    rw [pathString_append, pathString_append, append_assoc (pathString front)]
    rfl

/-! ## Trees -/

/-- A tree: names as they stand in directories, and no two entries of a directory with the same
name. -/
inductive WellFormed : List Node → Prop where
  | nil : WellFormed []
  | leaf {name : Bytes} {typed : Bool} {entries : List Node} (good : GoodPath [name])
      (fresh : ∀ node ∈ entries, node.name ≠ name) (rest : WellFormed entries) :
      WellFormed (.leaf name typed :: entries)
  | dir {name : Bytes} {typed : Bool} {inner entries : List Node} (good : GoodPath [name])
      (fresh : ∀ node ∈ entries, node.name ≠ name) (inside : WellFormed inner)
      (rest : WellFormed entries) : WellFormed (.dir name typed inner :: entries)

/-- The entries have something at a path. -/
inductive Lies : List Node → List Bytes → Prop where
  | here {entries : List Node} {node : Node} (member : node ∈ entries) : Lies entries [node.name]
  | inside {entries inner : List Node} {name : Bytes} {typed : Bool} {path : List Bytes}
      (member : .dir name typed inner ∈ entries) (lies : Lies inner path) : Lies entries (name :: path)

variable {entries : List Node}

theorem Lies.mono {more : List Node} (lies : Lies entries path)
    (all : ∀ node ∈ entries, node ∈ more) : Lies more path := by
  cases lies with
  | here member => exact .here (all _ member)
  | inside member lies => exact .inside (all _ member) lies

variable {entries : List Node}

theorem Lies.entry {path : List Bytes} (lies : Lies entries path) :
    ∃ node ∈ entries, Lies [node] path ∧ ∃ rest, path = node.name :: rest := by
  cases lies with
  | @here entries node member =>
    exact ⟨node, member, .here mem_cons_self, [], rfl⟩
  | inside member lies =>
    exact ⟨_, member, .inside mem_cons_self lies, _, rfl⟩

variable {node : Node}

theorem WellFormed.tail (formed : WellFormed (node :: entries)) :
    WellFormed entries ∧ ∀ other ∈ entries, other.name ≠ node.name := by
  cases formed with
  | leaf good fresh rest => exact ⟨rest, fresh⟩
  | dir good fresh inside rest => exact ⟨rest, fresh⟩

theorem WellFormed.entry (formed : WellFormed entries) {node : Node}
    (member : node ∈ entries) : WellFormed [node] := by
  induction entries with
  | nil => cases member
  | cons first entries ih =>
    rcases mem_cons.mp member with rfl | later
    · cases formed with
      | leaf good fresh rest => exact .leaf good nofun .nil
      | dir good fresh inside rest => exact .dir good nofun inside .nil
    · exact ih formed.tail.1 later

theorem WellFormed.name (formed : WellFormed [node]) : GoodPath [node.name] := by
  cases formed with
  | leaf good fresh rest => exact good
  | dir good fresh inside rest => exact good

theorem Lies.good (lies : Lies entries path) (formed : WellFormed entries) : GoodPath path := by
  induction lies with
  | here member => exact (formed.entry member).name
  | @inside entries inner name typed path member lies ih =>
    cases formed.entry member with
    | dir good fresh inside rest => exact .append good (ih inside)

theorem WellFormed.unique (formed : WellFormed entries) {first second : Node}
    (member : first ∈ entries) (member' : second ∈ entries) (same : first.name = second.name) :
    first = second := by
  induction entries with
  | nil => cases member
  | cons node entries ih =>
    obtain ⟨rest, fresh⟩ := formed.tail
    rcases mem_cons.mp member with rfl | later
    · rcases mem_cons.mp member' with rfl | later'
      · rfl
      · exact absurd same.symm (fresh second later')
    · rcases mem_cons.mp member' with rfl | later'
      · exact absurd same (fresh first later)
      · exact ih rest later later'

/-! ## What a run adds -/

/-- A run has only added items, each made from a path below. -/
def Adds (path : List Bytes) (entries : List Node) (list after : Makelist) : Prop :=
  ∃ added, after.items = list.items ++ added ∧
    ∀ item ∈ added, ∃ rel, Lies entries rel ∧ IsItemOf item.2 (path ++ rel)

variable {last : Makelist}

section Adds

variable {sys : System} {path : List Bytes} {entries : List Node} {list after : Makelist}

theorem Adds.none : Adds path entries list list := ⟨[], (append_nil _).symm, nofun⟩

theorem Adds.trans (first : Adds path entries list after) (second : Adds path entries after last) :
    Adds path entries list last := by
  obtain ⟨added, same, made⟩ := first
  obtain ⟨added', same', made'⟩ := second
  refine ⟨added ++ added', by rw [same', same, append_assoc], fun item member => ?_⟩
  rcases mem_append.mp member with early | late
  · exact made item early
  · exact made' item late

theorem Adds.mono {more : List Node} (adds : Adds path entries list after)
    (all : ∀ node ∈ entries, node ∈ more) : Adds path more list after := by
  obtain ⟨added, same, made⟩ := adds
  refine ⟨added, same, fun item member => ?_⟩
  obtain ⟨rel, lies, isItem⟩ := made item member
  exact ⟨rel, lies.mono all, isItem⟩

variable {name : Bytes}

theorem Adds.outside {typed : Bool} (adds : Adds (path ++ [name]) entries list after) :
    Adds path [.dir name typed entries] list after := by
  obtain ⟨added, same, made⟩ := adds
  refine ⟨added, same, fun item member => ?_⟩
  obtain ⟨rel, lies, isItem⟩ := made item member
  refine ⟨name :: rel, .inside mem_cons_self lies, ?_⟩
  rwa [append_assoc, singleton_append] at isItem

theorem addItem_spec (ran : addItem sys item list = some after) :
    after = { list with items := list.items ++ [(list.fileCount, item)] } := by
  rw [addItem] at ran
  split at ran
  · cases ran
  · split at ran
    · exact (Option.some.inj ran).symm
    · cases ran

/-- What adding an entry leaves. -/
def Makelist.added (list : Makelist) (index size : Nat) (item : Bytes) : Makelist :=
  ⟨index, size, list.items ++ [(index, item)]⟩

theorem addFolder_spec (ran : addFolder sys path list = some after) :
    after = list.added list.fileCount
      (addSize list.currentSize (sys.getFolderSize (pathString path))) (pathString path ++ [slash]) := by
  rw [addFolder] at ran
  obtain ⟨between, adds, same⟩ := Option.bind_eq_some_iff.mp ran
  rw [addItem_spec adds] at same
  exact (Option.some.inj same).symm

theorem addFile_spec (ran : addFile sys path list = some after) : ∃ index, after = list.added index
        (addSize (if startsNew sys path list.currentSize then 0 else list.currentSize)
          (sys.statSize (pathString path))) (pathString path) ∧
      (index = list.fileCount ∨ index = list.fileCount + 1 ∧ list.currentSize ≠ 0) := by
  rw [addFile, startFile] at ran
  obtain ⟨between, adds, same⟩ := Option.bind_eq_some_iff.mp ran
  rw [addItem_spec adds] at same
  have ended := (Option.some.inj same).symm
  by_cases starts : startsNew sys path list.currentSize = true
  · rw [if_pos starts] at ended ⊢
    exact ⟨_, ended, .inr ⟨rfl, (of_decide_eq_true starts).1⟩⟩
  · rw [if_neg starts] at ended ⊢
    exact ⟨_, ended, .inl rfl⟩

theorem Makelist.added_adds {index size : Nat} (isItem : IsItemOf item (path ++ [node.name])) :
    Adds path [node] list (list.added index size item) := by
  refine ⟨[(index, item)], rfl, fun other member => ?_⟩
  rw [mem_singleton.mp member]
  exact ⟨[node.name], .here mem_cons_self, isItem⟩

end Adds

variable {list after : Makelist}

/-! ## Entries of the directory that is backed up -/

def itemOf (root : List Bytes) : Node → Bytes
  | .leaf name _ => pathString (root ++ [name])
  | .dir name _ _ => pathString (root ++ [name]) ++ [slash]

/-- Whether an entry is added when its turn comes, given the size of the current archive. -/
def takes (sys : System) (root : List Bytes) (size : Nat) : Node → Bool
  | .leaf name typed => !isMedia sys (root ++ [name]) && typed
  | .dir name typed _ => !isMedia sys (root ++ [name]) && typed && !tooLarge sys (root ++ [name]) size

/-- The size of the current archive once an entry has been added. -/
def sizeAfter (sys : System) (root : List Bytes) (size : Nat) : Node → Nat
  | .leaf name _ =>
    addSize (if startsNew sys (root ++ [name]) size then 0 else size)
      (sys.statSize (pathString (root ++ [name])))
  | .dir name _ _ => addSize size (sys.getFolderSize (pathString (root ++ [name])))

theorem isItemOf_itemOf (root : List Bytes) (node : Node) :
    IsItemOf (itemOf root node) (root ++ [node.name]) := by
  cases node with
  | leaf name typed => exact .inl rfl
  | dir name typed entries => exact .inr rfl

variable {root : List Bytes}

theorem itemOf_archives (lies : Lies [node] path) : Archives (itemOf root node) (root ++ path) := by
  cases lies with
  | here member =>
    rw [mem_singleton.mp member]
    exact (isItemOf_itemOf root node).archives
  | inside member lies =>
    rw [← mem_singleton.mp member]
    refine .inr ⟨root ++ [_], ?_, rfl⟩
    rw [prefix_append_right_inj]
    exact ⟨_, rfl⟩

theorem generateNode_cases (ran : generateNode sys root node list = some after) :
    (takes sys root list.currentSize node = true ∧ ∃ index, after =
      list.added index (sizeAfter sys root list.currentSize node) (itemOf root node) ∧
        (index = list.fileCount ∨ index = list.fileCount + 1 ∧ list.currentSize ≠ 0)) ∨
    (takes sys root list.currentSize node = false ∧ (after = list ∨
      ∃ name typed inner, node = .dir name typed inner ∧ isMedia sys (root ++ [name]) = false ∧
        generateFileLists sys (root ++ [name]) inner list = some after)) := by
  cases node with
  | leaf name typed =>
    rw [generateNode] at ran
    rw [takes]
    split at ran
    next media => exact .inr ⟨by rw [media]; rfl, .inl (Option.some.inj ran).symm⟩
    next other =>
    rw [Bool.not_eq_true] at other
    split at ran
    next known =>
      exact .inl ⟨by rw [other, known]; rfl, addFile_spec ran⟩
    next unknown =>
      rw [Bool.not_eq_true] at unknown
      exact .inr ⟨by rw [unknown, Bool.and_false], .inl (Option.some.inj ran).symm⟩
  | dir name typed inner =>
    rw [generateNode] at ran
    rw [takes]
    split at ran
    next media => exact .inr ⟨by rw [media]; rfl, .inl (Option.some.inj ran).symm⟩
    next other =>
    rw [Bool.not_eq_true] at other
    split at ran
    next known =>
      split at ran
      next large =>
        exact .inr ⟨by rw [large, Bool.not_true, Bool.and_false], .inr ⟨name, typed, inner, rfl, other, ran⟩⟩
      next fits =>
        rw [Bool.not_eq_true] at fits
        exact .inl ⟨by rw [other, known, fits]; rfl, _, addFolder_spec ran, .inl rfl⟩
    next unknown =>
      rw [Bool.not_eq_true] at unknown
      exact .inr ⟨by rw [unknown, Bool.and_false, Bool.false_and], .inl (Option.some.inj ran).symm⟩

theorem enterDir_adds {loop : Makelist → Option Makelist}
    (ran : enterDir sys path loop list = some after)
    (adds : loop list = some after → Adds path entries list after) :
    Adds path entries list after := by
  rw [enterDir] at ran
  split at ran
  · cases ran
    exact .none
  split at ran
  · cases ran
    exact .none
  · split at ran
    · exact adds ran
    · cases ran

mutual

theorem generateEntries_adds {sys : System} {path : List Bytes} (entries : List Node)
    {list after : Makelist} (ran : generateEntries sys path entries list = some after) :
    Adds path entries list after := by
  match entries with
  | [] =>
    rw [generateEntries] at ran
    cases ran
    exact .none
  | node :: entries =>
    rw [generateEntries] at ran
    obtain ⟨between, first, rest⟩ := Option.bind_eq_some_iff.mp ran
    refine ((generateNode_adds node first).mono ?_).trans ((generateEntries_adds entries rest).mono ?_)
    · exact fun other member => by rw [mem_singleton.mp member]; exact mem_cons_self
    · exact fun other member => mem_cons_of_mem _ member

theorem generateNode_adds {sys : System} {path : List Bytes} (node : Node)
    {list after : Makelist} (ran : generateNode sys path node list = some after) :
    Adds path [node] list after := by
  rcases generateNode_cases ran with
    ⟨-, index, rfl, -⟩ | ⟨-, rfl | ⟨name, typed, inner, isDir, -, descends⟩⟩
  · exact Makelist.added_adds (isItemOf_itemOf path node)
  · exact .none
  · match node, isDir with
    | .dir _ _ inner, rfl => exact (enterDir_adds descends (generateEntries_adds inner)).outside

end

theorem generateFileLists_adds (entries : List Node)
    (ran : generateFileLists sys path entries list = some after) : Adds path entries list after :=
  enterDir_adds ran (generateEntries_adds entries)

/-- What is excluded is left at once, so nothing changes. -/
theorem left_of_excluded (excluded : Excluded sys (root ++ [node.name]))
    (stays : after = list ∨ ∃ name typed inner, node = .dir name typed inner ∧
      isMedia sys (root ++ [name]) = false ∧
      generateFileLists sys (root ++ [name]) inner list = some after) : after = list := by
  rcases stays with same | ⟨name, typed, inner, rfl, other, descends⟩
  · exact same
  · have music : isMusic (root ++ [name]) = true :=
      excluded.skipped.resolve_left (by rw [Node.name, other]; decide)
    rw [generateFileLists, enterDir, other, if_neg (by decide), if_pos music] at descends
    exact (Option.some.inj descends).symm

/-- What has to hold of the entries, gone through in order: what is added is outside of the excluded
subtrees as a whole and has no newline in its path, and what is not added is inside of them. -/
def Fine (sys : System) (root : List Bytes) : (size : Nat) → List Node → Prop
  | _, [] => True
  | size, node :: entries =>
    if takes sys root size node then
      (∀ path, Lies [node] path → ¬ Excluded sys (root ++ path)) ∧ newline ∉ itemOf root node ∧
        Fine sys root (sizeAfter sys root size node) entries
    else Excluded sys (root ++ [node.name]) ∧ Fine sys root size entries

/-- Exactly one of the items archives a path. -/
def ArchivedOnce (items : List (Nat × Bytes)) (path : List Bytes) : Prop :=
  ∃ before item after, items = before ++ item :: after ∧ Archives item.2 path ∧
    ∀ other ∈ before ++ after, ¬ Archives other.2 path

/-- The lists are right. -/
structure Covers (sys : System) (root : List Bytes) (entries : List Node) (count : Nat)
    (items : List (Nat × Bytes)) : Prop where
  once : ∀ path, Lies entries path → ¬ Excluded sys (root ++ path) → ArchivedOnce items (root ++ path)
  clear : ∀ path, Lies entries path → Excluded sys (root ++ path) →
    ∀ item ∈ items, ¬ Archives item.2 (root ++ path)
  filled : ∀ index < count, ∃ item, (index, item) ∈ items
  readable : ∀ index, fields newline (listText items index) = (items.filter (·.1 = index)).map (·.2)

/-! ### From right lists to the entries -/

section Covers

variable {sys : System} {root : List Bytes} (goodRoot : GoodPath root)

include goodRoot

omit goodRoot in
/-- What none of the paths leads to is not archived by what is added for them. -/
theorem Adds.not_archives {path : List Bytes} (adds : Adds root entries list after)
    (goodRoot : GoodPath root) (formed : WellFormed entries) (good : GoodPath path)
    (apart : ∀ rel, Lies entries rel → ¬ root ++ rel <+: path)
    (before : ∀ item ∈ list.items, ¬ Archives item.2 path) :
    ∀ item ∈ after.items, ¬ Archives item.2 path := by
  obtain ⟨added, same, made⟩ := adds
  rw [same]
  refine forall_mem_append.mpr ⟨before, fun item late archives => ?_⟩
  obtain ⟨rel, lies, isItem⟩ := made item late
  exact apart rel lies (archives.prefix_of isItem (goodRoot.append (lies.good formed)) good)

/-- An entry that is archived by an item of its directory has been added. -/
theorem not_archives_entry (formed : WellFormed entries) (good : GoodPath [name])
    (fresh : ∀ node ∈ entries, node.name ≠ name) (adds : Adds root entries list after)
    (before : ∀ item ∈ list.items, ¬ Archives item.2 (root ++ [name])) :
    ∀ item ∈ after.items, ¬ Archives item.2 (root ++ [name]) := by
  refine adds.not_archives goodRoot formed (goodRoot.append good) (fun rel lies start => ?_) before
  rw [prefix_append_right_inj] at start
  obtain ⟨node, inside, -, rest, rfl⟩ := lies.entry
  exact fresh node inside (cons_prefix_cons.mp start).1

/-- The same for a directory that has been gone through. -/
theorem not_archives_inner {inner : List Node} (formed : WellFormed inner)
    (good : GoodPath [name]) (adds : Adds (root ++ [name]) inner list after)
    (before : ∀ item ∈ list.items, ¬ Archives item.2 (root ++ [name])) :
    ∀ item ∈ after.items, ¬ Archives item.2 (root ++ [name]) := by
  refine adds.not_archives (goodRoot.append good) formed (goodRoot.append good)
    (fun rel lies start => ?_) before
  have shorter := start.length_le
  obtain ⟨node, -, -, rest, rfl⟩ := lies.entry
  rw [length_append, length_cons] at shorter
  omega

/-- If the lists are right, each entry is as it has to be when its turn comes. -/
theorem fine_of_covers (formed : WellFormed entries)
    (ran : generateEntries sys root entries list = some last)
    (before : ∀ item ∈ list.items, ∀ node ∈ entries, ¬ Archives item.2 (root ++ [node.name]))
    (once : ∀ node ∈ entries, ¬ Excluded sys (root ++ [node.name]) →
      ∃ item ∈ last.items, Archives item.2 (root ++ [node.name]))
    (clear : ∀ path, Lies entries path → Excluded sys (root ++ path) →
      ∀ item ∈ last.items, ¬ Archives item.2 (root ++ path))
    (plain : ∀ item ∈ last.items, newline ∉ item.2) : Fine sys root list.currentSize entries := by
  induction entries generalizing list with
  | nil => trivial
  | cons node entries ih =>
    rw [generateEntries] at ran
    obtain ⟨after, first, rest⟩ := Option.bind_eq_some_iff.mp ran
    obtain ⟨formed', fresh⟩ := formed.tail
    have good := (formed.entry mem_cons_self).name
    have adds := generateEntries_adds entries rest
    have later := fun before => ih formed' rest before (forall_mem_cons.mp once).2
      (fun path lies => clear path (lies.mono fun other member => mem_cons_of_mem _ member))
    rw [Fine]
    rcases generateNode_cases first with ⟨taken, index, rfl, -⟩ | ⟨passed, stays⟩
    · rw [if_pos taken]
      have present : (index, itemOf root node) ∈ last.items := by
        obtain ⟨added, same, -⟩ := adds
        rw [same]
        exact mem_append_left _ (mem_append_right _ mem_cons_self)
      refine ⟨fun path lies excluded => ?_, plain _ present, later fun item member other inside => ?_⟩
      · refine clear path (lies.mono fun other member => ?_) excluded _ present (itemOf_archives lies)
        rw [mem_singleton.mp member]
        exact mem_cons_self
      rcases mem_append.mp member with early | new
      · exact before item early other (mem_cons_of_mem _ inside)
      rw [mem_singleton.mp new]
      intro archives
      have start := archives.prefix_of (isItemOf_itemOf root node) (goodRoot.append good)
        (goodRoot.append (formed'.entry inside).name)
      rw [prefix_append_right_inj] at start
      exact fresh other inside (cons_prefix_cons.mp start).1.symm
    rw [if_neg (by rw [passed]; decide)]
    have kept : ∀ item ∈ after.items, ¬ Archives item.2 (root ++ [node.name]) := by
      rcases stays with rfl | ⟨name, typed, inner, rfl, -, descends⟩
      · exact fun item member => before item member node mem_cons_self
      · cases formed.entry mem_cons_self with
        | dir good' fresh' inside rest' =>
          exact not_archives_inner goodRoot inside good (generateFileLists_adds inner descends)
            fun item member => before item member _ mem_cons_self
    have excluded : Excluded sys (root ++ [node.name]) := by
      by_contra outside
      obtain ⟨item, member, archives⟩ := once node mem_cons_self outside
      exact not_archives_entry goodRoot formed' good fresh adds kept item member archives
    have same := left_of_excluded excluded stays
    refine ⟨excluded, ?_⟩
    rw [← same]
    refine later fun item member other inside => ?_
    rw [same] at member
    exact before item member other (mem_cons_of_mem _ inside)

end Covers

/-! ### From the entries to right lists -/

/-- Every list up to the current one has an item, the current one if there is any. -/
structure Filled (list : Makelist) : Prop where
  former : ∀ index < list.fileCount, ∃ item, (index, item) ∈ list.items
  current : list.items ≠ [] → ∃ item, (list.fileCount, item) ∈ list.items
  sized : list.currentSize ≠ 0 → list.items ≠ []

theorem Filled.added {list : Makelist} (filled : Filled list) {index size : Nat} {item : Bytes}
    (place : index = list.fileCount ∨ index = list.fileCount + 1 ∧ list.currentSize ≠ 0) :
    Filled (list.added index size item) := by
  have kept : ∀ {former : Nat}, (∃ other, (former, other) ∈ list.items) →
      ∃ other, (former, other) ∈ (list.added index size item).items :=
    fun ⟨other, member⟩ => ⟨other, mem_append_left _ member⟩
  refine ⟨fun former bound => ?_, fun _ => ⟨item, mem_append_right _ mem_cons_self⟩,
    fun _ => by simp [Makelist.added]⟩
  change former < index at bound
  rcases place with same | ⟨next, large⟩
  · exact kept (filled.former former (by omega))
  · by_cases before : former < list.fileCount
    · exact kept (filled.former former before)
    · have same : former = list.fileCount := by omega
      rw [same]
      exact kept (filled.current (filled.sized large))

/-- If the entries are as they have to be, those outside of the excluded subtrees are added, in
their order. -/
theorem items_of_fine (ran : generateEntries sys root entries list = some last)
    (fine : Fine sys root list.currentSize entries) (filled : Filled list) :
    ∃ nodes added, List.Sublist nodes entries ∧ last.items = list.items ++ added ∧
      added.map (·.2) = nodes.map (itemOf root) ∧ Filled last ∧
      (∀ node ∈ entries, ¬ Excluded sys (root ++ [node.name]) → node ∈ nodes) ∧
      ∀ node ∈ nodes, (∀ path, Lies [node] path → ¬ Excluded sys (root ++ path)) ∧
        newline ∉ itemOf root node := by
  induction entries generalizing list with
  | nil =>
    rw [generateEntries] at ran
    cases ran
    exact ⟨[], [], .slnil, (append_nil _).symm, rfl, filled, nofun, nofun⟩
  | cons node entries ih =>
    rw [generateEntries] at ran
    obtain ⟨after, first, rest⟩ := Option.bind_eq_some_iff.mp ran
    rw [Fine] at fine
    rcases generateNode_cases first with ⟨taken, index, rfl, place⟩ | ⟨passed, stays⟩
    · rw [if_pos taken] at fine
      obtain ⟨outside, plain, fine⟩ := fine
      obtain ⟨nodes, added, sub, items, same, filled', all, each⟩ := ih rest fine (filled.added place)
      refine ⟨node :: nodes, (index, itemOf root node) :: added, sub.cons_cons node, ?_, ?_, filled',
        fun other member free => ?_, fun other member => ?_⟩
      · rw [items, Makelist.added, append_assoc, singleton_append]
      · rw [map_cons, map_cons, same]
      · rcases mem_cons.mp member with rfl | later
        · exact mem_cons_self
        · exact mem_cons_of_mem _ (all other later free)
      · rcases mem_cons.mp member with rfl | later
        · exact ⟨outside, plain⟩
        · exact each other later
    rw [if_neg (by rw [passed]; decide)] at fine
    obtain ⟨excluded, fine⟩ := fine
    have same := left_of_excluded excluded stays
    rw [same] at rest
    obtain ⟨nodes, added, sub, items, same', filled', all, each⟩ := ih rest fine filled
    refine ⟨nodes, added, sub.cons node, items, same', filled', fun other member free => ?_, each⟩
    rcases mem_cons.mp member with rfl | later
    · exact absurd excluded free
    · exact all other later free

theorem WellFormed.names_nodup (formed : WellFormed entries) : (entries.map Node.name).Nodup := by
  induction entries with
  | nil => exact nodup_nil
  | cons node entries ih =>
    obtain ⟨rest, fresh⟩ := formed.tail
    rw [map_cons, nodup_cons]
    refine ⟨fun member => ?_, ih rest⟩
    obtain ⟨other, inside, same⟩ := mem_map.mp member
    exact fresh other inside same

/-- The item of another entry archives nothing of an entry. -/
theorem name_of_archives (goodRoot : GoodPath root) (formed : WellFormed entries)
    (member : node ∈ entries) (lies : Lies entries path) (same : item = itemOf root node)
    (archives : Archives item (root ++ path)) : ∃ rest, path = node.name :: rest := by
  rw [same] at archives
  have start := archives.prefix_of (isItemOf_itemOf root node)
    (goodRoot.append (formed.entry member).name) (goodRoot.append (lies.good formed))
  rw [prefix_append_right_inj] at start
  obtain ⟨rest, split⟩ := start
  exact ⟨rest, split.symm⟩

theorem covers_of_fine (goodRoot : GoodPath root) (formed : WellFormed entries)
    (ran : generateEntries sys root entries ⟨0, 0, []⟩ = some last) (fine : Fine sys root 0 entries)
    (member : node ∈ entries) (free : ¬ Excluded sys (root ++ [node.name])) :
    Covers sys root entries (last.fileCount + 1) last.items := by
  obtain ⟨nodes, added, sub, items, same, filled, all, each⟩ :=
    items_of_fine ran fine ⟨nofun, fun wrong => absurd rfl wrong, fun wrong => absurd rfl wrong⟩
  rw [nil_append] at items
  rw [← items] at same
  have made : ∀ item ∈ last.items, ∃ node ∈ nodes, item.2 = itemOf root node := by
    intro item inside
    have text : item.2 ∈ last.items.map (·.2) := mem_map.mpr ⟨item, inside, rfl⟩
    rw [same] at text
    obtain ⟨node, inside', same'⟩ := mem_map.mp text
    exact ⟨node, inside', same'.symm⟩
  refine ⟨fun path lies outside => ?_, fun path lies excluded item inside archives => ?_,
    fun index bound => ?_, fun index => ?_⟩
  · obtain ⟨node, inside, lies', rest, rfl⟩ := lies.entry
    have listed : node ∈ nodes := by
      refine all node inside fun excluded => outside (excluded.below ?_)
      rw [prefix_append_right_inj]
      exact ⟨rest, rfl⟩
    obtain ⟨before, after, split⟩ := append_of_mem listed
    rw [split, map_append, map_cons] at same
    obtain ⟨front, back, joined, front_eq, back_eq⟩ := map_eq_append_iff.mp same
    obtain ⟨item, behind, rfl, item_eq, behind_eq⟩ := map_eq_cons_iff.mp back_eq
    refine ⟨front, item, behind, joined, ?_, fun other elsewhere archives => ?_⟩
    · rw [item_eq]
      exact itemOf_archives lies'
    -- an item made from an entry with another name
    have text : other.2 ∈ (before ++ after).map (itemOf root) := by
      rw [map_append, ← front_eq, ← behind_eq, ← map_append]
      exact mem_map.mpr ⟨other, elsewhere, rfl⟩
    obtain ⟨node', inside', same'⟩ := mem_map.mp text
    have member' : node' ∈ entries := sub.subset (by
      rw [split]
      rcases mem_append.mp inside' with early | late
      · exact mem_append_left _ early
      · exact mem_append_right _ (mem_cons_of_mem _ late))
    obtain ⟨rest', names⟩ := name_of_archives goodRoot formed member' lies same'.symm archives
    have nodup := formed.names_nodup.sublist (sub.map Node.name)
    rw [split, map_append, map_cons, nodup_middle, nodup_cons] at nodup
    refine nodup.1 ?_
    rw [(cons.inj names).1, ← map_append]
    exact mem_map.mpr ⟨node', inside', rfl⟩
  · obtain ⟨node, listed, same'⟩ := made item inside
    have member' := sub.subset listed
    obtain ⟨rest, rfl⟩ := name_of_archives goodRoot formed member' lies same' archives
    obtain ⟨other, inside', lies', rest', names⟩ := lies.entry
    rw [formed.unique inside' member' (cons.inj names).1.symm] at lies'
    exact (each node listed).1 _ lies' excluded
  · have some : last.items ≠ [] := by
      intro empty
      rw [empty, map_nil] at same
      rw [map_eq_nil_iff.mp same.symm] at all
      cases all node member free
    by_cases former : index < last.fileCount
    · exact filled.former index former
    · have current : index = last.fileCount := by omega
      rw [current]
      exact filled.current some
  have text : listText last.items index =
      ((last.items.filter (·.1 = index)).map (·.2)).flatMap (· ++ [newline]) := by
    rw [flatMap_map]
    rfl
  rw [text]
  refine fields_flatMap fun item inside => ?_
  obtain ⟨entry, inside', rfl⟩ := mem_map.mp inside
  obtain ⟨node, listed, same'⟩ := made entry (mem_of_mem_filter inside')
  rw [same']
  exact (each node listed).2

/-- What has to hold of the directory that is backed up: it is not skipped itself, its entries are
as they have to be, and one of them is outside of the excluded subtrees. -/
def Backupable (sys : System) (root : List Bytes) (entries : List Node) : Prop :=
  isMedia sys root = false ∧ isMusic root = false ∧ Fine sys root 0 entries ∧
    ∃ node ∈ entries, ¬ Excluded sys (root ++ [node.name])

/-- The lists that are made for a tree are right just if the tree is as it has to be. -/
theorem fileLists_cover {sys : System} {root : List Bytes} {entries : List Node} {count : Nat}
    {items : List (Nat × Bytes)} (goodRoot : GoodPath root) (formed : WellFormed entries)
    (ran : makeFileList sys root entries = some (count, items)) :
    Covers sys root entries count items ↔ Backupable sys root entries := by
  obtain ⟨last, lists, same⟩ := Option.map_eq_some_iff.mp ran
  cases same
  have adds := generateFileLists_adds entries lists
  constructor
  · intro covers
    obtain ⟨item, member⟩ := covers.filled 0 (Nat.succ_pos _)
    have read : isMedia sys root = false ∧ isMusic root = false ∧
        generateEntries sys root entries ⟨0, 0, []⟩ = some last := by
      rw [generateFileLists, enterDir] at lists
      split at lists
      · cases lists
        cases member
      split at lists
      · cases lists
        cases member
      · split at lists
        · exact ⟨by simp_all, by simp_all, lists⟩
        · cases lists
    refine ⟨read.1, read.2.1, ?_, ?_⟩
    · refine fine_of_covers goodRoot formed read.2.2 nofun (fun node inside free => ?_) covers.clear
        fun item member => ?_
      · obtain ⟨before, item, after, split, archives, -⟩ := covers.once _ (.here inside) free
        exact ⟨item, by rw [split]; exact mem_append_right _ mem_cons_self, archives⟩
      · refine @sep_notMem_fields _ _ _ (listText last.items item.1) _ ?_
        rw [covers.readable]
        exact mem_map.mpr ⟨item, mem_filter.mpr ⟨member, decide_eq_true rfl⟩, rfl⟩
    obtain ⟨added, joined, made⟩ := adds
    rw [joined, nil_append] at member
    obtain ⟨rel, lies, isItem⟩ := made _ member
    obtain ⟨node, inside, -, rest, rfl⟩ := lies.entry
    refine ⟨node, inside, fun excluded => ?_⟩
    refine covers.clear _ lies (excluded.below ?_) (0, item)
      (by rw [joined, nil_append]; exact member) isItem.archives
    rw [prefix_append_right_inj]
    exact ⟨rest, rfl⟩
  · rintro ⟨media, music, fine, node, member, free⟩
    rw [generateFileLists, enterDir, media, music, if_neg (by decide), if_neg (by decide)] at lists
    split at lists
    · exact covers_of_fine goodRoot formed lists fine member free
    · cases lists

/-- A device with data media, on which everything is small and can be read. -/
def smallSystem : System := ⟨true, fun _ => true, fun _ => 1, fun _ => 1, fun _ _ => true⟩

/-- `/data` with an app and with media. -/
def sampleEntries : List Node :=
  [.dir (ascii "app") true [.leaf (ascii "a.apk") true],
    .dir (ascii "media") true [.leaf (ascii "photo") true]]

theorem fileLists_cover_sample :
    Covers smallSystem [ascii "data"] sampleEntries 1 [(0, ascii "/data/app/")] := by
  refine (fileLists_cover ?_ ?_ (by decide +kernel)).mpr ⟨by decide +kernel, by decide +kernel, ?_, ?_⟩
  · exact forall_mem_singleton.mpr (by decide)
  · refine .dir ?_ ?_ (.leaf ?_ nofun .nil) (.dir ?_ nofun (.leaf ?_ nofun .nil) .nil) <;>
      exact forall_mem_singleton.mpr (by decide)
  · rw [sampleEntries, Fine, if_pos (by decide +kernel), Fine, if_neg (by decide +kernel)]
    refine ⟨fun path lies => ?_, by decide +kernel, by decide +kernel, trivial⟩
    cases lies with
    | here member =>
      rw [mem_singleton.mp member]
      decide +kernel
    | inside member lies =>
      cases mem_singleton.mp member
      cases lies with
      | here member =>
        rw [mem_singleton.mp member]
        decide +kernel
      | inside member lies => cases mem_singleton.mp member
  · exact ⟨_, mem_cons_self, by decide +kernel⟩

/-- `/data` with a music cache. -/
def musicEntries : List Node :=
  [.dir (ascii "data") true [.dir (ascii "com.google.android.music") true
    [.dir (ascii "files") true [.leaf (ascii "song") true]]]]

/-- The directory of all app data is added as a whole, and the music cache with it. -/
theorem fileLists_archive_music :
    makeFileList smallSystem [ascii "data"] musicEntries = some (1, [(0, ascii "/data/data/")]) ∧
      ¬ Covers smallSystem [ascii "data"] musicEntries 1 [(0, ascii "/data/data/")] := by
  refine ⟨by decide +kernel, fun covers => ?_⟩
  refine covers.clear [ascii "data", ascii "com.google.android.music", ascii "files"] ?_
    (by decide +kernel) _ mem_cons_self ?_
  · exact .inside mem_cons_self (.inside mem_cons_self (.here mem_cons_self))
  · exact .inr ⟨[ascii "data", ascii "data"], ⟨_, rfl⟩, by decide⟩

end PhilzTouch.Twrp
