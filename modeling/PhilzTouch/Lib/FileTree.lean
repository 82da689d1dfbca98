import PhilzTouch.Lib.CText
import PhilzTouch.Lib.Split

/-!
# File trees with symbolic links

A file tree maps locations, which are lists of names from the root, to directories, files
and symbolic links.  A path is a text; walking it from the root follows links, steps over
`.` and goes back at `..`.  A slash at the end of a path asks for a directory, so it counts
as one more component `.`.

The operations say where a path leads and what is there afterwards.  What follows them is
when a path leads where it seems to: below a directory in which no link is met.
-/

namespace PhilzTouch.FileTree

open Function
open List hiding lookup

abbrev Name := Bytes

/-- A place in the tree: the names of the directories above it and its own. -/
abbrev Location := List Name

/-- What may be at a place. -/
inductive Node where
  | dir
  | file (content : Bytes)
  | link (target : Bytes)
  deriving DecidableEq, Repr

/-- The nodes of a tree.  The root itself is always a directory. -/
abbrev Tree := Location → Option Node

def dot : Name := [0x2e]

def dotdot : Name := [0x2e, 0x2e]

/-- Why a path leads nowhere or an operation is refused. -/
inductive Errno where
  | noEntry
  | notDir
  | isDir
  | present
  | loop
  deriving DecidableEq, Repr

def names (path : Bytes) : List Name := tokens slash path

def components (path : Bytes) : List Name :=
  names path ++ if path.getLast? = some slash then [dot] else []

def lookup (tree : Tree) (here : Location) : Option Node :=
  if here = [] then some .dir else tree here

/-- Walk some components from a directory; `jump` continues behind a symbolic link. -/
def walkFrom (tree : Tree) (follow : Bool) (jump : List Name → Location → Except Errno Location) :
    List Name → Location → Except Errno Location
  | [], here => .ok here
  | name :: rest, here =>
    if name = dot then walkFrom tree follow jump rest here
    else if name = dotdot then walkFrom tree follow jump rest here.dropLast
    else
      match tree (here ++ [name]) with
      | some .dir => walkFrom tree follow jump rest (here ++ [name])
      | some (.link target) =>
        if rest = [] ∧ follow = false then .ok (here ++ [name])
        else jump (components target ++ rest) (if target.head? = some slash then [] else here)
      | some (.file _) => if rest = [] then .ok (here ++ [name]) else .error .notDir
      | none => if rest = [] then .ok (here ++ [name]) else .error .noEntry

/-- Walk some components, following at most `links` symbolic links. -/
def walk (tree : Tree) (follow : Bool) : (links : Nat) → List Name → Location →
    Except Errno Location
  | 0 => fun _ _ => .error .loop
  | links + 1 => walkFrom tree follow (walk tree follow links)

/-- Where a path leads.  Its last component may be missing; when it is a symbolic link, the
path leads to the link itself or, with `follow`, to where it points. -/
def resolve (tree : Tree) (follow : Bool) (path : Bytes) : Except Errno Location :=
  walk tree follow 41 (components path) []

/-- The node at a place is a symbolic link. -/
def IsLink (tree : Tree) (here : Location) : Prop := ∃ target, tree here = some (.link target)

/-- A name that is looked up. -/
def Plain (name : Name) : Prop := name ≠ dot ∧ name ≠ dotdot

/-- How a path leads to a place, component by component. -/
inductive Walks (tree : Tree) (follow : Bool) : Nat → List Name → Location → Location → Prop where
  | done : Walks tree follow (links + 1) [] here here
  | dot (later : Walks tree follow links rest here place) :
    Walks tree follow links (dot :: rest) here place
  | back (later : Walks tree follow links rest here.dropLast place) :
    Walks tree follow links (dotdot :: rest) here place
  | down (plain : Plain name) (isDir : tree (here ++ [name]) = some .dir)
    (later : Walks tree follow links rest (here ++ [name]) place) :
    Walks tree follow links (name :: rest) here place
  | jump (plain : Plain name) (isLink : tree (here ++ [name]) = some (.link target))
    (goes : rest = [] → follow = true) (later : Walks tree follow links (components target ++ rest)
      (if target.head? = some slash then [] else here) place) :
    Walks tree follow (links + 1) (name :: rest) here place
  | last (plain : Plain name) (noDir : tree (here ++ [name]) ≠ some .dir)
    (noLink : follow = true → ¬ IsLink tree (here ++ [name])) :
    Walks tree follow (links + 1) [name] here (here ++ [name])

/-! ## Operations -/

/-- `stat`, or `lstat` without `follow`. -/
def stat (tree : Tree) (follow : Bool) (path : Bytes) : Except Errno Node := do
  let here ← resolve tree follow path
  match lookup tree here with
  | some node => .ok node
  | none => .error .noEntry

/-- Make a node that must not be there yet: `mkdir`, `symlink`, `open` with `O_EXCL`. -/
def make (tree : Tree) (path : Bytes) (node : Node) : Except Errno (Location × Tree) := do
  let here ← resolve tree false path
  match lookup tree here with
  | some _ => .error .present
  | none => .ok (here, update tree here (some node))

/-- `open` for writing with `O_CREAT` and `O_TRUNC`. -/
def create (tree : Tree) (path : Bytes) : Except Errno (Location × Tree) := do
  let here ← resolve tree true path
  match lookup tree here with
  | some .dir => .error .isDir
  | some (.link _) => .error .loop
  | _ => .ok (here, update tree here (some (.file [])))

/-- Write at the end of the file at a place. -/
def append (tree : Tree) (here : Location) (data : Bytes) : Tree :=
  match tree here with
  | some (.file content) => update tree here (some (.file (content ++ data)))
  | _ => tree

variable {tree : Tree} {path : Bytes} {node : Node}

theorem stat_iff {follow : Bool} : stat tree follow path = .ok node ↔
      ∃ here, resolve tree follow path = .ok here ∧ lookup tree here = some node := by
  rw [stat]
  cases resolve tree follow path with
  | error errno => exact ⟨nofun, nofun⟩
  | ok here =>
    change (match lookup tree here with
      | some node => Except.ok node
      | none => Except.error Errno.noEntry) = _ ↔ _
    cases known : lookup tree here with
    | none => simp [known]
    | some other => simp [known]

variable {after : Tree} {here : Location}

theorem make_iff : make tree path node = .ok (here, after) ↔
      resolve tree false path = .ok here ∧ lookup tree here = none ∧
        after = update tree here (some node) := by
  rw [make]
  cases resolve tree false path with
  | error errno => exact ⟨nofun, nofun⟩
  | ok place =>
    change (match lookup tree place with
      | some _ => Except.error Errno.present
      | none => Except.ok (place, update tree place (some node))) = _ ↔ _
    cases known : lookup tree place with
    | some other =>
      refine ⟨nofun, ?_⟩
      rintro ⟨⟨⟩, free, -⟩
      cases known.symm.trans free
    | none =>
      refine ⟨?_, ?_⟩
      · rintro ⟨⟩
        exact ⟨rfl, known, rfl⟩
      · rintro ⟨⟨⟩, -, rfl⟩
        rfl

theorem create_iff : create tree path = .ok (here, after) ↔ resolve tree true path = .ok here ∧
        (lookup tree here = none ∨ ∃ old, lookup tree here = some (.file old)) ∧
        after = update tree here (some (.file [])) := by
  rw [create]
  cases resolve tree true path with
  | error errno => exact ⟨nofun, nofun⟩
  | ok place =>
    change (match lookup tree place with
      | some .dir => Except.error Errno.isDir
      | some (.link _) => Except.error Errno.loop
      | _ => Except.ok (place, update tree place (some (.file [])))) = _ ↔ _
    cases known : lookup tree place with
    | none =>
      refine ⟨?_, ?_⟩
      · rintro ⟨⟩
        exact ⟨rfl, .inl known, rfl⟩
      · rintro ⟨⟨⟩, -, rfl⟩
        rfl
    | some kind =>
      cases kind with
      | file old =>
        refine ⟨?_, ?_⟩
        · rintro ⟨⟩
          exact ⟨rfl, .inr ⟨old, known⟩, rfl⟩
        · rintro ⟨⟨⟩, -, rfl⟩
          rfl
      | dir =>
        refine ⟨nofun, ?_⟩
        rintro ⟨⟨⟩, free | ⟨old, isFile⟩, -⟩
        · cases known.symm.trans free
        · cases known.symm.trans isFile
      | link target =>
        refine ⟨nofun, ?_⟩
        rintro ⟨⟨⟩, free | ⟨old, isFile⟩, -⟩
        · cases known.symm.trans free
        · cases known.symm.trans isFile

theorem lookup_concat (here : Location) (name : Name) :
    lookup tree (here ++ [name]) = tree (here ++ [name]) := if_neg (by simp)

/-! ## Texts of paths -/

theorem names_append_slash (left right : Bytes) :
    names (left ++ slash :: right) = names left ++ names right :=
  tokens_append slash left right

theorem names_nil : names [] = [] := rfl

/-- Only a path of slashes names nothing. -/
theorem eq_slash_of_names (none : names path = []) : ∀ char ∈ path, char = slash :=
  tokens_eq_nil.mp none

theorem components_of_getLast (inner : path.getLast? ≠ some slash) :
    components path = names path := by
  rw [components, if_neg inner, append_nil]

theorem components_below (left : Bytes) {right : Bytes} (nonempty : right ≠ []) :
    components (left ++ slash :: right) = names left ++ components right := by
  have last : (left ++ slash :: right).getLast? = right.getLast? := by
    rw [getLast?_append_of_ne_nil _ (cons_ne_nil _ _), getLast?_cons_of_ne_nil nonempty]
  rw [components, components, names_append_slash, last, append_assoc]

theorem components_slash (left : Bytes) : components (left ++ [slash]) = names left ++ [dot] := by
  rw [components, if_pos getLast?_concat, names_append_slash left [], names_nil, append_nil]

/-! ## Where a path leads -/

variable {links : Nat}

section Walk

variable {tree : Tree} {follow : Bool}

/-- Components without `.`. -/
def strip (names : List Name) : Location := names.filter (· ≠ dot)

theorem strip_cons_dot (rest : List Name) : strip (dot :: rest) = strip rest := by
  simp [strip]

theorem strip_cons {name : Name} (other : name ≠ dot) (rest : List Name) :
    strip (name :: rest) = name :: strip rest := by
  simp [strip, other]

/-- Below `here` the given components meet no symbolic link. -/
def LinkFree (tree : Tree) (here : Location) (names : Location) : Prop :=
  ∀ part, part <+: names → part ≠ [] → ¬ IsLink tree (here ++ part)

variable {place : Location}

theorem Walks.of_walk {names : List Name} (found : walk tree follow links names here = .ok place) :
    Walks tree follow links names here place := by
  induction links generalizing names here with
  | zero => cases found
  | succ links ih =>
    rw [walk] at found
    induction names generalizing here with
    | nil =>
      cases found
      exact .done
    | cons name rest ihRest =>
      rw [walkFrom] at found
      split at found
      next isDot => exact isDot ▸ .dot (ihRest found)
      split at found
      next isBack => exact isBack ▸ .back (ihRest found)
      next isDot isBack =>
      have plain : Plain name := ⟨isDot, isBack⟩
      split at found
      next isDir => exact .down plain isDir (ihRest found)
      all_goals split at found
      next target isLink stops =>
        cases found
        rw [stops.1]
        exact .last plain (by simp [isLink]) (by simp [stops.2])
      next target isLink goes =>
        refine .jump plain isLink (fun done => ?_) (ih found)
        exact Bool.not_eq_false _ ▸ fun stays => goes ⟨done, stays⟩
      next content isFile done =>
        cases found
        rw [done]
        exact .last plain (by simp [isFile]) (by simp [IsLink, isFile])
      next => cases found
      next missing done =>
        cases found
        rw [done]
        exact .last plain (by simp [missing]) (by simp [IsLink, missing])
      next => cases found

/-- A path that never goes back and meets no link leads, if anywhere, to where it seems to. -/
theorem Walks.linkFree {names : List Name}
    (walks : Walks tree follow links names here place) (forward : dotdot ∉ names)
    (free : LinkFree tree here (strip names)) : place = here ++ strip names := by
  induction walks with
  | done => exact (append_nil _).symm
  | dot later ih =>
    rw [strip_cons_dot] at free ⊢
    exact ih (fun member => forward (mem_cons_of_mem _ member)) free
  | back => exact absurd mem_cons_self forward
  | down plain isDir later ih =>
    rw [strip_cons plain.1] at free ⊢
    rw [ih (fun member => forward (mem_cons_of_mem _ member)), append_assoc]
    · rfl
    intro part inside nonempty
    rw [append_assoc]
    exact free (_ :: part) (prefix_cons_inj _ |>.mpr inside) (cons_ne_nil _ _)
  | jump plain isLink =>
    rw [strip_cons plain.1] at free
    exact absurd ⟨_, isLink⟩ (free [_] ⟨_, rfl⟩ (cons_ne_nil _ _))
  | last plain => rw [strip_cons plain.1]; rfl

section Steps

variable {name : Name} {rest : List Name} {here : Location}

theorem walk_cons_dot : walk tree follow links (dot :: rest) here = walk tree follow links rest here := by
  cases links <;> simp [walk, walkFrom]

theorem walk_cons_back :
    walk tree follow links (dotdot :: rest) here = walk tree follow links rest here.dropLast := by
  cases links <;> simp [walk, walkFrom, show dotdot ≠ dot by decide]

variable (plain : Plain name)

include plain

theorem walk_cons_down (isDir : tree (here ++ [name]) = some .dir) :
    walk tree follow links (name :: rest) here = walk tree follow links rest (here ++ [name]) := by
  cases links <;> simp [walk, walkFrom, plain.1, plain.2, isDir]

theorem walk_cons_jump {target : Bytes} (isLink : tree (here ++ [name]) = some (.link target))
    (goes : rest = [] → follow = true) :
    walk tree follow (links + 1) (name :: rest) here = walk tree follow links
      (components target ++ rest) (if target.head? = some slash then [] else here) := by
  have goes : ¬ (rest = [] ∧ follow = false) := fun both => by cases both.2.symm.trans (goes both.1)
  simp [walk, walkFrom, plain.1, plain.2, isLink, goes]

theorem walk_last (noDir : tree (here ++ [name]) ≠ some .dir)
    (noLink : follow = true → ¬ IsLink tree (here ++ [name])) :
    walk tree follow (links + 1) [name] here = .ok (here ++ [name]) := by
  rw [walk, walkFrom, if_neg plain.1, if_neg plain.2]
  split
  next isDir => exact absurd isDir noDir
  next target isLink =>
    cases follow with
    | false => rfl
    | true => exact absurd ⟨target, isLink⟩ (noLink rfl)
  next => rfl
  next => rfl

end Steps

theorem walk_append {links : Nat} {names more : List Name} {here base : Location}
    (found : walk tree true links names here = .ok base)
    (isDir : lookup tree base = some .dir) (goesOn : more ≠ []) :
    ∃ left, walk tree follow links (names ++ more) here =
      walk tree follow (left + 1) more base := by
  have walks := Walks.of_walk found
  clear found
  induction walks with
  | done => exact ⟨_, rfl⟩
  | dot later ih =>
    rw [cons_append, walk_cons_dot]
    exact ih isDir
  | back later ih =>
    rw [cons_append, walk_cons_back]
    exact ih isDir
  | down plain known later ih =>
    rw [cons_append, walk_cons_down plain known]
    exact ih isDir
  | jump plain known goes later ih =>
    rw [cons_append, walk_cons_jump plain known fun none => absurd (append_eq_nil_iff.mp none).2 goesOn,
      ← append_assoc]
    exact ih isDir
  | last plain noDir => exact absurd ((lookup_concat _ _).symm.trans isDir) noDir

/-- A `.` in front of other components changes nothing. -/
theorem walk_dot {names more : List Name} (goesOn : more ≠ []) :
    walk tree follow links (names ++ dot :: more) here =
      walk tree follow links (names ++ more) here := by
  induction links generalizing names here with
  | zero => rfl
  | succ links ih =>
    rw [walk]
    induction names generalizing here with
    | nil =>
      rw [nil_append, walkFrom, if_pos rfl]
      rfl
    | cons name rest ihRest =>
      have left : rest ++ dot :: more ≠ [] := append_ne_nil_of_right_ne_nil _ nofun
      have right : rest ++ more ≠ [] := append_ne_nil_of_right_ne_nil _ goesOn
      rw [cons_append, cons_append, walkFrom, walkFrom, ihRest, ihRest, ihRest]
      simp only [left, right, false_and, if_false, ← append_assoc, ih]

/-- All directories on the way to a place. -/
def DirChain (tree : Tree) (here : Location) : Prop :=
  ∀ part, part <+: here → lookup tree part = some .dir

theorem DirChain.nil (tree : Tree) : DirChain tree [] := by
  intro part inside
  rw [prefix_nil.mp inside]
  rfl

section

variable (chain : DirChain tree here)

include chain

theorem DirChain.back : DirChain tree here.dropLast :=
  fun part inside => chain part (inside.trans ( dropLast_prefix here))

theorem DirChain.down {name : Name}
    (isDir : tree (here ++ [name]) = some .dir) : DirChain tree (here ++ [name]) := by
  intro part inside
  rcases prefix_concat_iff.mp inside with rfl | above
  · rw [lookup_concat, isDir]
  · exact chain part above

theorem DirChain.jump {absolute : Prop} [Decidable absolute] :
    DirChain tree (if absolute then [] else here) := by
  split
  · exact .nil tree
  · exact chain

variable {base place : Location}

/-- Whatever a path to a directory passes is there, also when its last link is not
followed. -/
theorem walk_present {names more : List Name}
    (found : walk tree true links (names ++ more) here = .ok base)
    (isDir : lookup tree base = some .dir) (reached : walk tree false links names here = .ok place) :
    lookup tree place ≠ none := by
  have walks := Walks.of_walk reached
  clear reached
  induction walks with
  | done =>
    rw [chain _ (prefix_refl _)]
    exact nofun
  | dot later ih => exact ih chain (walk_cons_dot.symm.trans found)
  | back later ih => exact ih chain.back (walk_cons_back.symm.trans found)
  | down plain known later ih =>
    exact ih (chain.down known) ((walk_cons_down plain known).symm.trans found)
  | jump plain known goes later ih =>
    rw [cons_append, walk_cons_jump plain known fun _ => rfl, ← append_assoc] at found
    exact ih chain.jump found
  | last plain =>
    rw [lookup_concat]
    intro missing
    cases Walks.of_walk found with
    | dot => exact plain.1 rfl
    | back => exact plain.2 rfl
    | down _ known => cases missing.symm.trans known
    | jump _ known => cases missing.symm.trans known
    | last =>
      rw [lookup_concat, missing] at isDir
      cases isDir

theorem walk_front {names more : List Name}
    (found : walk tree follow links (names ++ more) here = .ok place) (goesOn : more ≠ []) :
    ∃ base, walk tree true links names here = .ok base ∧ lookup tree base = some .dir := by
  induction links generalizing names here with
  | zero => cases found
  | succ links ih =>
    induction names generalizing here with
    | nil => exact ⟨here, rfl, chain _ (prefix_refl _)⟩
    | cons name rest ihRest =>
      rw [cons_append] at found
      generalize joined : rest ++ more = path at found
      cases Walks.of_walk found with
      | dot =>
        rw [walk_cons_dot, ← joined] at found
        exact walk_cons_dot ▸ ihRest chain found
      | back =>
        rw [walk_cons_back, ← joined] at found
        exact walk_cons_back ▸ ihRest chain.back found
      | down plain known =>
        rw [walk_cons_down plain known, ← joined] at found
        exact walk_cons_down plain known ▸ ihRest (chain.down known) found
      | jump plain known goes =>
        rw [walk_cons_jump plain known goes, ← joined, ← append_assoc] at found
        exact walk_cons_jump plain known (fun _ => rfl) ▸ ih chain.jump found
      | last => exact absurd (append_eq_nil_iff.mp joined).2 goesOn

end

/-- A directory may be given with or without a slash at its end. -/
def SameDir (dir core : Bytes) : Prop :=
  dir = core ++ [slash] ∨ dir = core ∧ core.getLast? ≠ some slash

variable {dir core : Bytes}

theorem components_dir (same : SameDir dir core) :
    components dir = names core ++ [dot] ∨ components dir = names core := by
  rcases same with rfl | ⟨rfl, inner⟩
  · exact .inl (components_slash core)
  · exact .inr (components_of_getLast inner)

theorem walk_below {base : Location} {more : List Name} (same : SameDir dir core)
    (found : resolve tree true dir = .ok base) (isDir : lookup tree base = some .dir)
    (goesOn : more ≠ []) : ∃ left, walk tree follow 41 (names core ++ more) [] =
      walk tree follow (left + 1) more base := by
  rw [resolve] at found
  rcases components_dir same with dotted | plain
  · rw [dotted] at found
    obtain ⟨left, walked⟩ := @walk_append tree follow _ _ _ _ _ found isDir goesOn
    rw [append_assoc, singleton_append, walk_dot goesOn] at walked
    exact ⟨left, walked⟩
  · rw [plain] at found
    exact walk_append found isDir goesOn

/-- What the path of a directory passes is there. -/
theorem walk_above {part : List Name} (same : SameDir dir core)
    (found : resolve tree true dir = .ok base) (isDir : lookup tree base = some .dir)
    (inside : part <+: names core) (reached : walk tree false 41 part [] = .ok place) :
    lookup tree place ≠ none := by
  obtain ⟨rest, split⟩ := inside
  rw [resolve] at found
  rcases components_dir same with dotted | plain
  · rw [dotted, ← split, append_assoc] at found
    exact walk_present (.nil tree) found isDir reached
  · rw [plain, ← split] at found
    exact walk_present (.nil tree) found isDir reached

end Walk

/-! ## Trees that grow -/

/-- What is there stays as it is, but for the content of files at places that are `rewritten`. -/
def Grows (rewritten : Location → Prop) (tree after : Tree) : Prop :=
  ∀ here node, tree here = some node → after here = some node ∨
    rewritten here ∧ ∃ old new, node = .file old ∧ after here = some (.file new)

section Grows

variable {rewritten : Location → Prop}

theorem Grows.refl (rewritten : Location → Prop) (tree : Tree) : Grows rewritten tree tree :=
  fun _ _ known => .inl known

theorem Grows.trans {middle : Tree} (first : Grows rewritten tree middle)
    (second : Grows rewritten middle after) : Grows rewritten tree after := by
  intro here node known
  rcases first here node known with same | ⟨may, old, between, rfl, changed⟩
  · exact second here node same
  rcases second here _ changed with same | ⟨-, -, new, -, changed'⟩
  · exact .inr ⟨may, old, between, rfl, same⟩
  · exact .inr ⟨may, old, new, rfl, changed'⟩

theorem Grows.more {others : Location → Prop} (grows : Grows rewritten tree after)
    (more : ∀ here content, after here = some (.file content) → rewritten here → others here) :
    Grows others tree after := by
  intro here node known
  rcases grows here node known with same | ⟨may, old, new, isFile, changed⟩
  · exact .inl same
  · exact .inr ⟨more here new changed may, old, new, isFile, changed⟩

theorem Grows.update (rewritten : Location → Prop) (node : Node) (free : tree here = none) :
    Grows rewritten tree (update tree here (some node)) := by
  intro place other known
  have apart : place ≠ here := by
    rintro rfl
    rw [free] at known
    cases known
  exact .inl (by rw [update_of_ne apart, known])

theorem Grows.rewrite {old : Bytes} (new : Bytes) (isFile : tree here = some (.file old)) :
    Grows (· = here) tree (Function.update tree here (some (.file new))) := by
  intro place other known
  by_cases same : place = here
  · subst same
    rw [isFile] at known
    cases known
    exact .inr ⟨rfl, old, new, rfl, update_self _ _ _⟩
  · exact .inl (by rw [update_of_ne same, known])

variable (grows : Grows rewritten tree after)

include grows

theorem Grows.keeps (known : tree here = some node) (noFile : ∀ content, node ≠ .file content) :
    after here = some node := by
  rcases grows here node known with same | ⟨-, old, -, isFile, -⟩
  · exact same
  · exact absurd isFile (noFile old)

/-- A path to something that is there still leads to it. -/
theorem walk_grows {follow : Bool} {names : List Name} {base : Location}
    (found : walk tree follow links names here = .ok base) (present : lookup tree base = some node) :
    walk after follow links names here = .ok base := by
  have walks := Walks.of_walk found
  clear found
  induction walks with
  | done => rfl
  | dot later ih => exact walk_cons_dot.trans (ih present)
  | back later ih => exact walk_cons_back.trans (ih present)
  | down plain known later ih =>
    exact (walk_cons_down plain (grows.keeps known nofun)).trans (ih present)
  | jump plain known goes later ih =>
    exact (walk_cons_jump plain (grows.keeps known nofun) goes).trans (ih present)
  | last plain noDir noLink =>
    rw [lookup_concat] at present
    rcases grows _ _ present with same | ⟨-, old, new, -, isFile⟩
    · rw [present, ← same] at noDir
      rw [IsLink, present, ← same] at noLink
      exact walk_last plain noDir noLink
    · exact walk_last plain (by simp [isFile]) (by simp [IsLink, isFile])

theorem lookup_grows (known : lookup tree here = some node) (noFile : ∀ content, node ≠ .file content) :
    lookup after here = some node := by
  rw [lookup] at known ⊢
  split
  next root => rwa [if_pos root] at known
  next inner =>
    rw [if_neg inner] at known
    exact grows.keeps known noFile

end Grows

/-! ## Paths to what was just made -/

/-- A path to a free place, or to a file, leads there also when something else is put there. -/
theorem walk_update {tree : Tree} {follow follow' : Bool} {links : Nat} {names : List Name}
    {start here : Location} {node : Node}
    (noDir : tree here ≠ some .dir) (noLink : ¬ IsLink tree here)
    (keeps : follow = true → follow' = true)
    (stays : ∀ target, node = .link target → follow' = false)
    (found : walk tree follow links names start = .ok here) :
    walk (update tree here (some node)) follow' links names start = .ok here := by
  have walks := Walks.of_walk found
  clear found
  induction walks with
  | done => rfl
  | dot later ih => exact walk_cons_dot.trans (ih noDir noLink)
  | back later ih => exact walk_cons_back.trans (ih noDir noLink)
  | down plain known later ih =>
    refine (walk_cons_down plain ?_).trans (ih noDir noLink)
    rw [update_of_ne (by rintro rfl; exact noDir known), known]
  | jump plain known goes later ih =>
    refine (walk_cons_jump plain ?_ (keeps <| goes ·)).trans (ih noDir noLink)
    rw [update_of_ne (by rintro rfl; exact noLink ⟨_, known⟩), known]
  -- the place itself, reached by the last component
  | last plain =>
    cases node with
    | dir => exact walk_cons_down plain (update_self _ _ _)
    | file content => exact walk_last plain (by simp) (by simp [IsLink])
    | link target => exact walk_last plain (by simp) (by simp [stays target rfl])

theorem make_found (follow : Bool) (stays : ∀ target, node = .link target → follow = false)
    (made : make tree path node = .ok (here, after)) :
    resolve after follow path = .ok here ∧ lookup after here = some node := by
  obtain ⟨found, free, rfl⟩ := make_iff.mp made
  have inner : here ≠ [] := by
    rintro rfl
    cases free
  have empty : tree here = none := by rwa [lookup, if_neg inner] at free
  have noLink : ¬ IsLink tree here := by
    rintro ⟨target, known⟩
    rw [empty] at known
    cases known
  refine ⟨?_, by rw [lookup, if_neg inner, update_self]⟩
  exact @walk_update tree false follow _ _ _ here node (by rw [empty]; nofun) noLink nofun stays found

theorem make_free (made : make tree path node = .ok (here, after)) :
    tree here = none ∧ after = update tree here (some node) := by
  obtain ⟨-, free, changed⟩ := make_iff.mp made
  rw [lookup] at free
  split at free
  · cases free
  · exact ⟨free, changed⟩

theorem make_grows (made : make tree path node = .ok (here, after)) :
    Grows (fun _ => False) tree after := by
  obtain ⟨free, rfl⟩ := make_free made
  exact .update _ node free

/-- After `mkdir` the path is a directory, and it was nothing before. -/
theorem make_dir (made : make tree path .dir = .ok (here, after)) :
    stat after true path = .ok .dir ∧ ∀ node, stat tree false path ≠ .ok node := by
  refine ⟨stat_iff.mpr ⟨here, make_found true nofun made⟩, fun node present => ?_⟩
  obtain ⟨leads, missing, -⟩ := make_iff.mp made
  obtain ⟨place, found, known⟩ := stat_iff.mp present
  rw [leads] at found
  cases found
  rw [missing] at known
  cases known

theorem create_found (content : Bytes) (made : create tree path = .ok (here, after)) :
    resolve (update tree here (some (.file content))) true path = .ok here ∧
      lookup (update tree here (some (.file content))) here = some (.file content) := by
  obtain ⟨found, before, rfl⟩ := create_iff.mp made
  have inner : here ≠ [] := by
    rintro rfl
    rcases before with free | ⟨old, isFile⟩
    · cases free
    · cases isFile
  rw [lookup, if_neg inner] at before
  have noDir : tree here ≠ some .dir := by
    intro isDir
    rw [isDir] at before
    rcases before with free | ⟨old, isFile⟩
    · cases free
    · cases isFile
  have noLink : ¬ IsLink tree here := by
    rintro ⟨target, isLink⟩
    rw [isLink] at before
    rcases before with free | ⟨old, isFile⟩
    · cases free
    · cases isFile
  refine ⟨?_, by rw [lookup, if_neg inner, update_self]⟩
  exact @walk_update tree true true _ _ _ here (.file content) noDir noLink id nofun found

theorem create_grows (content : Bytes) (made : create tree path = .ok (here, after)) :
    Grows (· = here) tree (update tree here (some (.file content))) := by
  obtain ⟨-, before, -⟩ := create_iff.mp made
  by_cases inner : here = []
  · subst inner
    rcases before with free | ⟨old, isFile⟩
    · cases free
    · cases isFile
  rw [lookup, if_neg inner] at before
  rcases before with free | ⟨old, isFile⟩
  · exact .update _ _ free
  · exact .rewrite content isFile

theorem stat_slash {more : Bytes} (same : components more = components path ++ [dot])
    (isDir : stat tree true path = .ok .dir) : stat tree true more = .ok .dir := by
  obtain ⟨here, found, present⟩ := stat_iff.mp isDir
  obtain ⟨left, walked⟩ := @walk_append tree true _ _ [dot] _ _ found present nofun
  exact stat_iff.mpr ⟨here, by rw [resolve, same, walked]; rfl, present⟩

theorem stat_grows {rewritten : Location → Prop} (grows : Grows rewritten tree after)
    (isDir : stat tree true path = .ok .dir) : stat after true path = .ok .dir := by
  obtain ⟨here, found, present⟩ := stat_iff.mp isDir
  exact stat_iff.mpr ⟨here, walk_grows grows found present, lookup_grows grows present nofun⟩

end PhilzTouch.FileTree
