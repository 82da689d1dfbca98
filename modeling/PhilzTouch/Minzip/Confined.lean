import PhilzTouch.Minzip.TargetPath

/-!
# Where an extraction writes

The names of an archive go into target paths unchecked.  As long as none of them goes back
with `..`, and none passes a symbolic link that an earlier entry has made, every file,
directory and link that is made lies below the target directory.
-/

namespace PhilzTouch.Minzip

open Function
open List hiding lookup

open FileTree

/-! ## Paths below the target directory -/

theorem withSlash_eq (targetDir : Bytes) :
    ∃ core, withSlash targetDir = core ++ [slash] ∧ SameDir targetDir core := by
  rw [withSlash]
  split
  next last =>
    obtain ⟨core, rfl⟩ := getLast?_eq_some_iff.mp last
    exact ⟨core, rfl, .inl rfl⟩
  next last => exact ⟨targetDir, rfl, .inr ⟨rfl, last⟩⟩

/-- The target path of a name leads to the names in it, walked from the target directory. -/
theorem components_target (core rest : Bytes) :
    ∃ more, components (core ++ [slash] ++ rest) = names core ++ more ∧ more ≠ [] ∧
      strip more = strip (names rest) ∧ (dotdot ∈ more → dotdot ∈ names rest) := by
  by_cases empty : rest = []
  · subst empty
    exact ⟨[dot], by rw [append_nil, components_slash], cons_ne_nil _ _, rfl, by decide⟩
  refine ⟨components rest, ?_, ?_, ?_, ?_⟩
  · rw [append_assoc, singleton_append, components_below core empty]
  · rw [components]
    split
    · exact append_ne_nil_of_right_ne_nil _ (cons_ne_nil _ _)
    next last =>
    intro none
    rw [append_nil] at none
    have all := eq_slash_of_names none
    exact last (getLast?_eq_some_getLast empty ▸ congrArg some (all _ (getLast_mem empty)))
  · rw [components]
    split
    · simp [strip, filter_append]
    · rw [append_nil]
  rw [components]
  split
  · intro member
    rcases mem_append.mp member with inner | last
    · exact inner
    · exact absurd last (by decide)
  · rw [append_nil]
    exact id

variable {path : Bytes}

/-! ## What every step keeps -/

/-- The places that were touched lie below the target directory. -/
def Confined (base : Location) (state : ExtractState) : Prop :=
  ∀ here ∈ state.touched, base <+: here ∧ here ≠ base

/-- The target directory, as the run finds it. -/
structure Target (tree : Tree) (targetDir : Bytes) (base : Location) : Prop where
  leads : resolve tree true targetDir = .ok base
  isDir : lookup tree base = some .dir

theorem Target.grows {tree after : Tree} {targetDir : Bytes} {base : Location}
    {rewritten : Location → Prop} (target : Target tree targetDir base)
    (grown : Grows rewritten tree after) : Target after targetDir base :=
  ⟨walk_grows grown target.leads target.isDir, lookup_grows grown target.isDir nofun⟩

/-- What holds between the entries: the target directory is still there, nothing else was
touched, and the only links below it are at `links`. -/
structure Kept (targetDir : Bytes) (base : Location) (links : List Location)
    (state : ExtractState) : Prop where
  target : Target state.tree targetDir base
  confined : Confined base state
  linked : ∀ part, part ≠ [] → IsLink state.tree (base ++ part) → part ∈ links

/-- Components of a path on which no step leaves the target directory: those of the
directory itself, and those below it that neither go back nor pass a link. -/
def Reaches (core : Bytes) (links : List Location) (path : List Name) : Prop :=
  path <+: names core ∨ ∃ more, path = names core ++ more ∧ more ≠ [] ∧ dotdot ∉ more ∧
    ∀ part ∈ links, ¬ part <+: strip more

section Steps

variable {targetDir core : Bytes} {base : Location} {links : List Location} {state : ExtractState}
  {here : Location}

/-- A directory or file that appears is no link. -/
theorem Kept.unlinked {part : Location} (kept : Kept targetDir base (part :: links) state)
    (plain : ¬ IsLink state.tree (base ++ part)) : Kept targetDir base links state := by
  refine ⟨kept.target, kept.confined, ?_⟩
  intro other nonempty isLink
  rcases mem_cons.mp (kept.linked other nonempty isLink) with rfl | old
  · exact absurd isLink plain
  · exact old

variable (kept : Kept targetDir base links state)

include kept

variable {more : List Name}

/-- A path below the target directory leads, if anywhere, below it. -/
theorem Kept.place {follow : Bool}
    (same : SameDir targetDir core) (below : components path = names core ++ more)
    (goesOn : more ≠ []) (forward : dotdot ∉ more) (apart : ∀ part ∈ links, ¬ part <+: strip more)
    (found : resolve state.tree follow path = .ok here) : here = base ++ strip more := by
  rw [resolve, below] at found
  obtain ⟨left, walked⟩ :=
    @walk_below state.tree follow _ _ _ _ same kept.target.leads kept.target.isDir goesOn
  rw [walked] at found
  refine (Walks.of_walk found).linkFree forward ?_
  intro part inside nonempty isLink
  exact apart part (kept.linked part nonempty isLink) inside

theorem Kept.make {node : Node} {after : Tree}
    (same : SameDir targetDir core) (reaches : Reaches core links (components path))
    (made : make state.tree path node = .ok (here, after)) :
    state.tree here = none ∧ after = update state.tree here (some node) ∧
      ∃ more, components path = names core ++ more ∧ here = base ++ strip more ∧
        strip more ≠ [] := by
  obtain ⟨found, free, rfl⟩ := make_iff.mp made
  have inner : state.tree here = none := by
    rw [lookup] at free
    split at free
    · cases free
    · exact free
  refine ⟨inner, rfl, ?_⟩
  rcases reaches with above | ⟨more, below, goesOn, forward, apart⟩
  · exact absurd free (walk_above same kept.target.leads kept.target.isDir above found)
  have place := kept.place same below goesOn forward apart found
  refine ⟨more, below, place, ?_⟩
  intro nothing
  rw [nothing, append_nil] at place
  rw [place, kept.target.isDir] at free
  cases free

theorem Kept.touched {part : Location} (nonempty : part ≠ []) :
    ∀ here ∈ state.touched ++ [base ++ part], base <+: here ∧ here ≠ base := by
  intro here member
  rcases mem_append.mp member with old | new
  · exact kept.confined here old
  · rw [mem_singleton.mp new]
    exact ⟨prefix_append _ _, by simpa using nonempty⟩

theorem Kept.added {part : Location} {node : Node}
    (nonempty : part ≠ []) (free : state.tree (base ++ part) = none)
    (writing : Option Location) : Kept targetDir base (part :: links) { state with
        tree := update state.tree (base ++ part) (some node)
        touched := state.touched ++ [base ++ part]
        writing := writing } := by
  refine ⟨kept.target.grows (.update (fun _ => False) node free), ?_, ?_⟩
  · exact kept.touched nonempty
  intro other nonempty' isLink
  by_cases same : other = part
  · exact same ▸ mem_cons_self
  · obtain ⟨target, known⟩ := isLink
    dsimp only at known
    rw [update_of_ne (by simpa using same)] at known
    exact mem_cons_of_mem _ (kept.linked other nonempty' ⟨target, known⟩)

theorem Kept.filed {part : Location} {content : Bytes}
    (nonempty : part ≠ []) (before : state.tree (base ++ part) = none ∨
      ∃ old, state.tree (base ++ part) = some (.file old))
    (writing : Option Location) : Kept targetDir base links { state with
        tree := update state.tree (base ++ part) (some (.file content))
        touched := state.touched ++ [base ++ part]
        writing := writing } := by
  have plain : ¬ IsLink (update state.tree (base ++ part) (some (.file content)))
      (base ++ part) := by
    rintro ⟨target, known⟩
    rw [update_self] at known
    cases known
  rcases before with free | ⟨old, isFile⟩
  · exact (kept.added nonempty free writing).unlinked plain
  refine ⟨kept.target.grows (.rewrite content isFile), ?_, ?_⟩
  · exact kept.touched nonempty
  intro other nonempty' isLink
  by_cases same : other = part
  · subst same
    exact absurd isLink plain
  · obtain ⟨target, known⟩ := isLink
    dsimp only at known
    rw [update_of_ne (by simpa using same)] at known
    exact kept.linked other nonempty' ⟨target, known⟩

theorem Kept.create {after : Tree}
    (same : SameDir targetDir core) (below : components path = names core ++ more)
    (goesOn : more ≠ []) (forward : dotdot ∉ more) (apart : ∀ part ∈ links, ¬ part <+: strip more)
    (made : create state.tree path = .ok (here, after)) :
    here = base ++ strip more ∧ strip more ≠ [] ∧
      (state.tree here = none ∨ ∃ old, state.tree here = some (.file old)) ∧
      after = update state.tree here (some (.file [])) := by
  obtain ⟨found, before, rfl⟩ := create_iff.mp made
  have place := kept.place same below goesOn forward apart found
  have nonempty : strip more ≠ [] := by
    intro nothing
    rw [nothing, append_nil] at place
    rw [place, kept.target.isDir] at before
    rcases before with free | ⟨old, isFile⟩
    · cases free
    · cases isFile
  refine ⟨place, nonempty, ?_, rfl⟩
  rwa [lookup, if_neg (by rw [place]; simp [nonempty])] at before

end Steps

/-! ## Programs that keep it -/

section Programs

variable {α β : Type} (archive : Bytes) (targetDir : Bytes) (base : Location)

/-- A program that leaves everything as it should be, whatever the environment does. -/
def Steady (links : List Location) (program : ExtractProg α) : Prop :=
  ∀ state, Kept targetDir base links state →
    (extractMachine archive).Safe (fun _ => True) (Confined base)
      (fun _ after => Kept targetDir base links after) program state

variable {archive targetDir base} {links : List Location} {core : Bytes}

theorem Steady.ret (value : α) : Steady archive targetDir base links (.ret value) :=
  fun _ kept => .ret kept

theorem Steady.stop : Steady archive targetDir base links (.stop : ExtractProg α) :=
  fun _ _ => .stop

variable {program : ExtractProg β}

theorem Steady.bind {rest : β → ExtractProg α} (first : Steady archive targetDir base links program)
    (continues : ∀ value, Steady archive targetDir base links (rest value)) :
    Steady archive targetDir base links (program >>= rest) :=
  fun state kept => (first state kept).bind fun value after keptAfter =>
    continues value after keptAfter

/-- Calls that leave the tree alone. -/
def Quiet : ExtractOp → Prop
  | .mkdir _ => False
  | .symlink _ _ => False
  | .creat _ => False
  | .write _ _ => False
  | _ => True

theorem perform_quiet {op : ExtractOp} (quiet : Quiet op) (choice : ExtractChoice)
    (state : ExtractState) : (extractPerform archive op choice state).1.tree = state.tree ∧
      (extractPerform archive op choice state).1.touched = state.touched := by
  cases op with
  | mkdir path => exact quiet.elim
  | symlink target path => exact quiet.elim
  | creat path => exact quiet.elim
  | write fd data => exact quiet.elim
  | malloc => exact ⟨rfl, rfl⟩
  | utime path => exact ⟨rfl, rfl⟩
  | close fd => exact ⟨rfl, rfl⟩
  | inflateInit => exact ⟨rfl, rfl⟩
  | uninitialised count =>
    simp only [extractPerform]
    split <;> exact ⟨rfl, rfl⟩
  | stat path =>
    simp only [extractPerform]
    split
    · exact ⟨rfl, rfl⟩
    · split <;> exact ⟨rfl, rfl⟩
  | read position count =>
    simp only [extractPerform]
    split <;> exact ⟨rfl, rfl⟩
  | inflate input room =>
    simp only [extractPerform]
    split <;> exact ⟨rfl, rfl⟩

theorem Steady.quiet (op : ExtractOp) (quiet : Quiet op) {rest : ExtractReply op → ExtractProg α}
    (continues : ∀ reply, Steady archive targetDir base links (rest reply)) :
    Steady archive targetDir base links (Prog.call op >>= rest) := by
  intro state kept
  refine .call fun choice _ => ?_
  obtain ⟨tree, touched⟩ := @perform_quiet archive op quiet choice state
  have confined : Confined base (extractPerform archive op choice state).1 := by
    rw [Confined, touched]
    exact kept.confined
  refine ⟨confined, continues _ _ ⟨?_, confined, ?_⟩⟩
  · rw [tree]
    exact kept.target
  · rw [tree]
    exact kept.linked

theorem makeNode_cases {state : ExtractState} {choice : ExtractChoice} {path : Bytes}
    {node : Node} : makeNode state choice path node = (state, false) ∨
      ∃ here after, make state.tree path node = .ok (here, after) ∧
        makeNode state choice path node = (state.touch here after, true) := by
  rw [makeNode]
  split
  · exact .inl rfl
  · cases made : make state.tree path node with
    | error errno => exact .inl rfl
    | ok result => exact .inr ⟨result.1, result.2, rfl, rfl⟩

/-- Making a directory keeps what is there, and makes the path a directory that was missing. -/
theorem perform_mkdir (path : Bytes) (choice : ExtractChoice) (state : ExtractState) :
    Grows (fun _ => False) state.tree
        ((extractMachine archive).perform (.mkdir path) choice state).1.tree ∧
      (((extractMachine archive).perform (.mkdir path) choice state).2 = true →
        stat ((extractMachine archive).perform (.mkdir path) choice state).1.tree true path =
            .ok .dir ∧ ∀ node, stat state.tree false path ≠ .ok node) := by
  simp only [extractPerform]
  rcases @makeNode_cases state choice path .dir with failed | ⟨here, after, made, done⟩
  · rw [failed]
    exact ⟨.refl _ _, by simp⟩
  rw [done]
  exact ⟨make_grows made, fun _ => make_dir made⟩

/-- `dirCreateHierarchy` works on the tree, whatever `mkdir` keeps. -/
theorem extractDirs_meets {allowed : (extractMachine archive).Step → Prop}
    {invariant : ExtractState → Prop} {asked : Bytes → Prop} {calm : Prop}
    (keeps : ∀ path choice state, asked path → invariant state →
      invariant ((extractMachine archive).perform (.mkdir path) choice state).1)
    (fine : calm → ∀ step, allowed step → Succeeds step) :
    DirUtil.Meets extractDirs allowed invariant ExtractState.tree asked calm := by
  refine ⟨fun state held => ?_, fun path state held => ?_, fun path state asks held => ?_,
    fun path state held => ?_⟩
  · exact .single ExtractOp.malloc fun choice admitted =>
      ⟨held, rfl, fun calm => fine calm _ admitted⟩
  · refine .single (ExtractOp.stat path) fun choice admitted => ?_
    have good := fun calm => fine calm _ admitted
    simp only [Succeeds, GoodReply, extractPerform] at good ⊢
    by_cases failed : choice = .fail
    · rw [if_pos failed] at good ⊢
      exact ⟨held, rfl, by simp, by simp, good⟩
    rw [if_neg failed] at good ⊢
    cases known : stat state.tree true path with
    | error errno =>
      rw [known] at good
      cases errno <;> exact ⟨held, rfl, by simp, by simp, good⟩
    | ok node =>
      rw [known] at good
      cases node <;> exact ⟨held, rfl, by simp, by simp, good⟩
  · refine .single (ExtractOp.mkdir path) fun choice admitted => ?_
    obtain ⟨grows, makes⟩ := @perform_mkdir archive path choice state
    exact ⟨keeps path choice state asks held, grows, makes, fun calm => fine calm _ admitted⟩
  · exact .single (ExtractOp.utime path) fun choice admitted =>
      ⟨held, rfl, fun calm => fine calm _ admitted⟩

theorem Kept.mkdir {state : ExtractState} (kept : Kept targetDir base links state)
    (same : SameDir targetDir core) (reaches : Reaches core links (components path))
    (choice : ExtractChoice) : Kept targetDir base links
      ((extractMachine archive).perform (.mkdir path) choice state).1 := by
  simp only [extractPerform]
  rcases @makeNode_cases state choice path .dir with failed | ⟨here, after, made, done⟩
  · rw [failed]
    exact kept
  obtain ⟨free, rfl, more, -, rfl, nonempty⟩ := kept.make same reaches made
  rw [done]
  refine (@Kept.added _ _ _ _ kept _ .dir nonempty free state.writing).unlinked ?_
  rintro ⟨target, known⟩
  dsimp only at known
  rw [update_self] at known
  cases known

/-- The components of a path, up to any of them, when the whole path stays below. -/
theorem Reaches.part {rest : Bytes} {path : List Name} (forward : dotdot ∉ names rest)
    (apart : ∀ part ∈ links, ¬ part <+: strip (names rest))
    (inside : path <+: names core ++ names rest) : Reaches core links path := by
  rcases prefix_or_prefix_of_prefix inside (prefix_append _ _) with above | ⟨more, rfl⟩
  · exact .inl above
  have below : more <+: names rest := (prefix_append_right_inj _).mp inside
  by_cases empty : more = []
  · subst empty
    rw [append_nil]
    exact .inl (prefix_refl _)
  · refine .inr ⟨more, rfl, empty, fun member => forward (below.subset member), ?_⟩
    intro part member within
    exact apart part member (within.trans (below.filter _))

theorem dirCreateHierarchy_steady {rest : Bytes} (timestamp stripFileName : Bool)
    (same : SameDir targetDir core) (forward : dotdot ∉ names rest)
    (apart : ∀ part ∈ links, ¬ part <+: strip (names rest)) : Steady archive targetDir base links
      (dirCreateHierarchy extractDirs (core ++ [slash] ++ rest) timestamp stripFileName) := by
  intro state kept
  have whole := names_append_slash core rest
  rw [← singleton_append, ← append_assoc] at whole
  have meets : DirUtil.Meets extractDirs (fun _ : (extractMachine archive).Step => True)
      (Kept targetDir base links) ExtractState.tree
      (DirUtil.Component (DirUtil.wanted (core ++ [slash] ++ rest) stripFileName)) False := by
    refine extractDirs_meets (fun path choice state component kept => ?_) False.elim
    refine kept.mkdir same (.part forward apart ?_) choice
    rw [← whole]
    exact component.prefix_names.trans (DirUtil.wanted_names _ _)
  have made := (DirUtil.dirCreateHierarchy_makes timestamp meets kept).keeping kept
  exact (made.relax fun _ kept => kept.confined).weaken fun _ _ both => both.2

theorem Steady.write {part : Location} (nonempty : part ≠ []) {data : Bytes}
    {rest : WriteResult → ExtractProg α}
    (continues : ∀ reply, Steady archive targetDir base links (rest reply)) :
    Steady archive targetDir base links (Prog.call (ExtractOp.write (base ++ part) data) >>= rest) := by
  intro state kept
  -- whatever part of the data is taken, the file stays a file
  have taken : ∀ piece, Kept targetDir base links
      (state.touch (base ++ part) (append state.tree (base ++ part) piece)) := by
    intro piece
    rw [append]
    split
    next content isFile => exact kept.filed nonempty (.inr ⟨content, isFile⟩) _
    next =>
      exact ⟨kept.target, kept.touched nonempty, kept.linked⟩
  refine .call fun choice _ => ?_
  simp only [extractPerform]
  split
  · exact ⟨kept.confined, continues _ _ kept⟩
  · exact ⟨kept.confined, continues _ _ kept⟩
  · exact ⟨kept.confined, continues _ _ kept⟩
  · exact ⟨(taken _).confined, continues _ _ (taken _)⟩
  · exact ⟨(taken _).confined, continues _ _ (taken _)⟩

/-! ## The data of an entry -/

section Process

variable {σ : Type} {process : ProcessFunction σ}

theorem refill_steady (state : DeflateState) :
    Steady archive targetDir base links (refill state) := by
  rw [refill]
  split
  · refine .quiet (.read _ _) trivial fun reply => ?_
    cases reply <;> exact .ret _
  · exact .ret _

variable (steady : ∀ data cookie, Steady archive targetDir base links (process data cookie))

include steady

theorem storedLoop_steady (fuel position bytesLeft : Nat) (cookie : σ) :
    Steady archive targetDir base links (storedLoop process fuel position bytesLeft cookie) := by
  induction fuel generalizing position bytesLeft cookie with
  | zero => exact .ret _
  | succ fuel ih =>
    rw [storedLoop]
    split
    · exact .ret _
    refine .quiet (.read _ _) trivial fun reply => ?_
    cases reply with
    | none => exact .ret _
    | some data =>
      refine (steady data cookie).bind fun value => ?_
      dsimp only
      split
      · exact ih _ _ _
      · exact .ret _

theorem flush_steady (procBuf : Bytes) (code : InflateCode) (cookie : σ) :
    Steady archive targetDir base links (flush process procBuf code cookie) := by
  rw [flush]
  split
  · exact (steady procBuf cookie).bind fun value => .ret _
  · exact .ret _

theorem deflatedLoop_steady (fuel : Nat) (state : DeflateState) (cookie : σ) :
    Steady archive targetDir base links (deflatedLoop process fuel state cookie) := by
  induction fuel generalizing state cookie with
  | zero => exact .stop
  | succ fuel ih =>
    rw [deflatedLoop]
    refine (refill_steady state).bind fun filled => ?_
    cases filled with
    | none => exact .ret _
    | some state =>
      refine .quiet (.inflate _ _) trivial fun result => ?_
      split
      · exact .ret _
      refine (flush_steady steady _ _ _).bind fun value => ?_
      dsimp only
      split
      · exact .ret _
      split
      · exact .ret _
      · exact ih _ _

theorem mzProcessZipEntryContents_steady (fuel oldOff : Nat) (entry : ZipEntry) (cookie : σ) :
    Steady archive targetDir base links
      (mzProcessZipEntryContents process fuel oldOff entry cookie) := by
  rw [mzProcessZipEntryContents]
  split
  · exact storedLoop_steady steady _ _ _ _
  split
  · refine .quiet .inflateInit trivial fun reply => ?_
    cases reply with
    | false => exact .ret _
    | true =>
      dsimp only
      split
      · exact .stop
      · exact (deflatedLoop_steady steady _ _ _).bind fun value => .ret _
  · exact .ret _

end Process

theorem mzReadZipEntry_steady (fuel oldOff : Nat) (entry : ZipEntry) (bufLen : Int) :
    Steady archive targetDir base links (mzReadZipEntry fuel oldOff entry bufLen) := by
  refine (mzProcessZipEntryContents_steady ?_ _ _ _ _).bind fun value => ?_
  · intro data cookie
    rw [copyProcessFunction]
    split <;> exact .ret _
  · rcases value with ⟨ret, copied, left⟩
    cases ret <;> exact .ret _

theorem writeLoop_steady {part : Location} (nonempty : part ≠ []) (fuel : Nat) (data : Bytes) :
    Steady archive targetDir base links (writeLoop (base ++ part) fuel data) := by
  induction fuel generalizing data with
  | zero => exact .stop
  | succ fuel ih =>
    rw [writeLoop]
    refine .write nonempty fun reply => ?_
    cases reply with
    | failed => exact .ret _
    | interrupted => exact ih _
    | wrote count =>
      dsimp only
      split
      · exact .ret _
      · exact ih _

theorem mzExtractZipEntryToFile_steady {part : Location} (nonempty : part ≠ [])
    (fuel oldOff : Nat) (entry : ZipEntry) : Steady archive targetDir base links
      (mzExtractZipEntryToFile fuel oldOff entry (base ++ part)) := by
  refine (mzProcessZipEntryContents_steady ?_ _ _ _ _).bind fun value => .ret _
  intro data cookie
  exact (writeLoop_steady nonempty fuel data).bind fun value => .ret _

theorem fillFile_steady {part : Location} (nonempty : part ≠ []) (args : ExtractArgs)
    (entry : ZipEntry) (targetFile : Bytes) :
    Steady archive targetDir base links (fillFile args entry targetFile (base ++ part)) := by
  refine (mzExtractZipEntryToFile_steady nonempty _ _ _).bind fun ok => ?_
  refine .quiet (.close _) trivial fun _ => ?_
  cases ok with
  | false => exact .ret _
  | true =>
    dsimp only
    split
    · refine .quiet (.utime _) trivial fun touched => ?_
      cases touched <;> exact .ret _
    · exact .ret _

/-! ## The entries -/

variable {state : ExtractState}

theorem Kept.more {more : List Location} (kept : Kept targetDir base links state)
    (sub : links ⊆ more) : Kept targetDir base more state :=
  ⟨kept.target, kept.confined, fun part nonempty isLink => sub (kept.linked part nonempty isLink)⟩

variable (archive targetDir base) in /-- A program that may add a link at `part`. -/
def MayLink (links : List Location) (part : Location) (program : ExtractProg α) : Prop :=
  ∀ state, Kept targetDir base links state →
    (extractMachine archive).Safe (fun _ => True) (Confined base)
      (fun _ after => Kept targetDir base (part :: links) after) program state

theorem Steady.mayLink {program : ExtractProg α} (steady : Steady archive targetDir base links program)
    (part : Location) : MayLink archive targetDir base links part program :=
  fun state kept => (steady state kept).weaken fun _ _ keptAfter =>
    keptAfter.more (subset_cons_self _ _)

theorem MayLink.after {part : Location} {rest : β → ExtractProg α}
    (first : Steady archive targetDir base links program)
    (continues : ∀ value, MayLink archive targetDir base links part (rest value)) :
    MayLink archive targetDir base links part (program >>= rest) :=
  fun state kept => (first state kept).bind fun value after keptAfter =>
    continues value after keptAfter

theorem MayLink.symlink {target : Bytes} {rest : Bool → ExtractProg α}
    (same : SameDir targetDir core) (below : components path = names core ++ more)
    (goesOn : more ≠ []) (forward : dotdot ∉ more) (apart : ∀ part ∈ links, ¬ part <+: strip more)
    (continues : ∀ reply after, Kept targetDir base (strip more :: links) after →
      (extractMachine archive).Safe (fun _ => True) (Confined base)
      (fun _ after => Kept targetDir base (strip more :: links) after) (rest reply) after) :
    MayLink archive targetDir base links (strip more)
      (Prog.call (ExtractOp.symlink target path) >>= rest) := by
  intro state kept
  have unchanged : Kept targetDir base (strip more :: links) state :=
    kept.more (subset_cons_self _ _)
  refine .call fun choice _ => ?_
  simp only [extractPerform]
  split
  · exact ⟨unchanged.confined, continues _ _ unchanged⟩
  rcases @makeNode_cases state choice path (.link target) with failed | ⟨here, after, made, done⟩
  · rw [failed]
    exact ⟨unchanged.confined, continues _ _ unchanged⟩
  obtain ⟨free, rfl, other, split, rfl, nonempty⟩ :=
    kept.make same (.inr ⟨more, below, goesOn, forward, apart⟩) made
  have equal : other = more := append_cancel_left (split.symm.trans below)
  subst equal
  rw [done]
  have added := @Kept.added _ _ _ _ kept _ (.link target) nonempty free state.writing
  exact ⟨added.confined, continues _ _ added⟩

/-- The entry becomes a symbolic link. -/
def becomesLink (args : ExtractArgs) (map : MemMapping) (entry : ZipEntry) : Bool :=
  !args.dryRun && !endsInSlash map entry && !args.filesOnly && mzIsZipEntrySymlink entry

section Entry

variable {rest : Bytes} (same : SameDir targetDir core)
  (forward : dotdot ∉ names rest) (apart : ∀ part ∈ links, ¬ part <+: strip (names rest))

include same forward apart

theorem extractLink_mayLink (args : ExtractArgs) (entry : ZipEntry) :
    MayLink archive targetDir base links (strip (names rest))
      (extractLink args entry (core ++ [slash] ++ rest)) := by
  obtain ⟨more, below, goesOn, stripped, back⟩ := components_target core rest
  rw [extractLink]
  split
  · exact Steady.mayLink (.ret _) _
  have allocate : Steady archive targetDir base links (.call .malloc) :=
    .quiet .malloc trivial fun reply => .ret reply
  refine .after allocate fun allocated => ?_
  cases allocated with
  | false => exact Steady.mayLink (.ret _) _
  | true =>
    refine .after (mzReadZipEntry_steady _ _ _ _) fun copied => ?_
    cases copied with
    | none => exact Steady.mayLink (.ret _) _
    | some copied =>
      dsimp only
      split
      · exact Steady.mayLink Steady.stop _
      have garbage : Steady archive targetDir base links
          (.call (.uninitialised (entry.uncompLen.toNat - copied.length))) :=
        .quiet (.uninitialised _) trivial fun reply => .ret reply
      refine .after garbage fun tail => ?_
      rw [← stripped] at apart ⊢
      refine .symlink same below goesOn (fun member => forward (back member)) apart ?_
      intro reply after kept
      cases reply <;> exact .ret kept

theorem extractFile_steady (args : ExtractArgs) (entry : ZipEntry) :
    Steady archive targetDir base links (extractFile args entry (core ++ [slash] ++ rest)) := by
  obtain ⟨more, below, goesOn, stripped, back⟩ := components_target core rest
  rw [← stripped] at apart
  intro state kept
  rw [extractFile]
  refine .call fun choice _ => ?_
  simp only [extractPerform]
  split
  · exact ⟨kept.confined, .ret kept⟩
  cases made : create state.tree (core ++ [slash] ++ rest) with
  | error errno => exact ⟨kept.confined, .ret kept⟩
  | ok result =>
    obtain ⟨here, after⟩ := result
    obtain ⟨rfl, nonempty, before, rfl⟩ :=
      kept.create same below goesOn (fun member => forward (back member)) apart made
    have filed := @Kept.filed _ _ _ _ kept _ [] nonempty before (some (base ++ strip more))
    refine ⟨filed.confined, ?_⟩
    exact fillFile_steady nonempty args entry _ _ filed

theorem extractEntry_mayLink {args : ExtractArgs} {map : MemMapping} {entry : ZipEntry}
    (link : becomesLink args map entry = true) :
    MayLink archive targetDir base links (strip (names rest))
      (extractEntry args map entry (core ++ [slash] ++ rest)) := by
  simp only [becomesLink, Bool.and_assoc, Bool.and_eq_true, Bool.not_eq_true'] at link
  obtain ⟨real, noDir, only, isLink⟩ := link
  rw [extractEntry, real, noDir, if_neg (by simp), if_neg (by simp)]
  refine .after (dirCreateHierarchy_steady _ _ same forward apart) fun ret => ?_
  rw [only, isLink]
  split
  · exact Steady.mayLink (.ret _) _
  · exact extractLink_mayLink same forward apart args entry

theorem extractEntry_steady {args : ExtractArgs} {map : MemMapping} {entry : ZipEntry}
    (plain : becomesLink args map entry = false) : Steady archive targetDir base links
      (extractEntry args map entry (core ++ [slash] ++ rest)) := by
  rw [extractEntry]
  split
  · exact .ret _
  next real =>
  split
  · split
    · exact .ret _
    · refine (dirCreateHierarchy_steady _ _ same forward apart).bind fun ret => ?_
      split <;> exact .ret _
  next noDir =>
  have file : ¬ (!args.filesOnly && mzIsZipEntrySymlink entry) = true := by
    intro link
    simp only [becomesLink, Bool.and_assoc, link] at plain
    simp [real, noDir] at plain
  refine (dirCreateHierarchy_steady _ _ same forward apart).bind fun ret => ?_
  rw [if_neg file]
  split
  · exact .ret _
  · exact extractFile_steady same forward apart args entry

end Entry

/-! ## The whole extraction -/

/-- The part of an entry's name below the directory that is extracted. -/
def restOf (map : MemMapping) (zpath : Bytes) (entry : ZipEntry) : Bytes :=
  (entryName map entry).drop zpath.length

/-- Something is to be made for the entry. -/
def isExtracted (args : ExtractArgs) (map : MemMapping) (entry : ZipEntry) : Bool :=
  !args.dryRun && !(args.filesOnly && endsInSlash map entry)

/-- Entries whose target paths stay below the target directory: none that is extracted goes back,
and none passes or hits a symbolic link that an earlier one has made. -/
structure Harmless (args : ExtractArgs) (map : MemMapping) (zpath : Bytes)
    (entries : List ZipEntry) : Prop where
  forward : ∀ entry ∈ entries, underPath zpath (entryName map entry) = true →
    isExtracted args map entry = true → dotdot ∉ names (restOf map zpath entry)
  apart : entries.Pairwise fun earlier later =>
    underPath zpath (entryName map earlier) = true → underPath zpath (entryName map later) = true →
      becomesLink args map earlier = true → isExtracted args map later = true →
      ¬ strip (names (restOf map zpath earlier)) <+: strip (names (restOf map zpath later))

theorem extractEntry_idle {args : ExtractArgs} {map : MemMapping} {entry : ZipEntry}
    (idle : isExtracted args map entry = false) (targetFile : Bytes) :
    extractEntry args map entry targetFile = .ret .next := by
  rw [isExtracted] at idle
  rw [extractEntry]
  cases dry : args.dryRun with
  | true => rfl
  | false =>
    have skipped : args.filesOnly = true ∧ endsInSlash map entry = true := by simpa [dry] using idle
    simp [skipped.1, skipped.2]

/-- What holds of the loop holds of the whole, as long as it is also true of a refusal. -/
theorem extractSubtree_safe {allowed : (extractMachine archive).Step → Prop} {calm : Prop}
    {keep : ExtractState → Prop} {post : Extraction → ExtractState → Prop} {args : ExtractArgs}
    {map : MemMapping} {table : ZipArchive} {zipDir : Bytes}
    (fine : calm → ∀ step, allowed step → Succeeds step)
    (refused : (calm → zipDir.head? = some slash ∨ targetDir.head? ≠ some slash) →
      post ⟨false, .failed, []⟩ state) (kept : keep state)
    (loop : (extractMachine archive).Safe allowed keep post (extractLoop args map (zpathOf zipDir)
      targetDir table.pEntries false (.initial targetDir)) state) :
    (extractMachine archive).Safe allowed keep post
      (extractSubtree args map table zipDir targetDir) state := by
  rw [extractSubtree]
  split
  next rooted => exact .ret (refused fun _ => .inl rooted)
  split
  next loose => exact .ret (refused fun _ => .inr loose)
  refine .call fun choice admitted => ⟨kept, ?_⟩
  have works : calm → decide (choice ≠ .fail) = true := fun known => fine known _ admitted
  dsimp only [extractPerform]
  cases made : decide (choice ≠ .fail) with
  | false =>
    rw [made] at works
    exact .ret (refused fun known => absurd (works known) nofun)
  | true => exact loop

theorem extractLoop_confined {args : ExtractArgs} {map : MemMapping} {zpath : Bytes}
    {entries : List ZipEntry} {seenMatch : Bool} {helper : MzPathHelper}
    (ready : Ready targetDir helper) (kept : Kept targetDir base links state)
    (harmless : Harmless args map zpath entries)
    (clear : ∀ entry ∈ entries, underPath zpath (entryName map entry) = true →
      isExtracted args map entry = true →
      ∀ part ∈ links, ¬ part <+: strip (names (restOf map zpath entry))) :
    (extractMachine archive).Safe (fun _ => True) (Confined base) (fun _ _ => True)
      (extractLoop args map zpath targetDir entries seenMatch helper) state := by
  induction entries generalizing links seenMatch helper state with
  | nil => exact .ret trivial
  | cons entry entries ih =>
    obtain ⟨core, slashed, same⟩ := withSlash_eq targetDir
    have later : Harmless args map zpath entries :=
      ⟨(forall_mem_cons.mp harmless.forward).2, (pairwise_cons.mp harmless.apart).2⟩
    have clearLater := (forall_mem_cons.mp clear).2
    rw [extractLoop]
    by_cases under : underPath zpath (entryName map entry) = true
    · rw [if_pos under]
      refine (targetEntryPath_path False.elim zpath _ ready kept.confined).bind
        fun value after found => ?_
      obtain ⟨rfl, ⟨rfl, -⟩ | ⟨rfl, -⟩ | ⟨next, rfl, readyNext⟩⟩ := found
      · exact .ret trivial
      · exact .ret trivial
      dsimp only
      by_cases acts : isExtracted args map entry = true
      swap
      · rw [extractEntry_idle (Bool.eq_false_iff.mpr acts)]
        exact (ih readyNext kept later clearLater).bind fun _ _ _ => .ret trivial
      have forward := harmless.forward entry mem_cons_self under acts
      have apart := clear entry mem_cons_self under acts
      rw [targetPath, slashed]
      -- the links that the rest of the loop has to keep away from
      cases link : becomesLink args map entry with
      | false =>
        refine (extractEntry_steady same forward apart link after kept).bind
          fun step done keptDone => ?_
        cases step with
        | leave ok => exact .ret trivial
        | next => exact (ih readyNext keptDone later clearLater).bind fun _ _ _ => .ret trivial
      | true =>
        refine (extractEntry_mayLink same forward apart link after kept).bind
          fun step done keptDone => ?_
        cases step with
        | leave ok => exact .ret trivial
        | next =>
          refine (ih readyNext keptDone later fun other member underOther actsOther part inLinks =>
            ?_).bind fun _ _ _ => .ret trivial
          rcases mem_cons.mp inLinks with rfl | old
          · exact (pairwise_cons.mp harmless.apart).1 other member under underOther link actsOther
          · exact clearLater other member underOther actsOther part old
    · rw [if_neg under]
      split
      · exact .ret trivial
      · exact ih ready kept later clearLater

end Programs

/-- Extraction is confined: whatever calls fail, everything that is created, truncated or
written lies below the target directory, as long as the entries are harmless. -/
theorem extraction_confined (args : ExtractArgs) (map : MemMapping) (archive : ZipArchive)
    (zipDir targetDir : Bytes) (tree : Tree) (base : Location) (target : Target tree targetDir base)
    (unlinked : ∀ part, part ≠ [] → ¬ IsLink tree (base ++ part))
    (harmless : Harmless args map (zpathOf zipDir) archive.pEntries)
    (choices : List ExtractChoice) : ∀ here ∈ ((extractMachine map.data).exec
        (mzExtractRecursive args map archive zipDir targetDir) choices (.initial tree)).1.touched,
      base <+: here ∧ here ≠ base := by
  have kept : Kept targetDir base [] (.initial tree) :=
    ⟨target, nofun, fun part nonempty isLink => absurd isLink (unlinked part nonempty)⟩
  have safe : (extractMachine map.data).Safe (fun _ => True) (Confined base) (fun _ _ => True)
      (mzExtractRecursive args map archive zipDir targetDir) (.initial tree) :=
    (extractSubtree_safe False.elim (fun _ => trivial) kept.confined
      (extractLoop_confined .first kept harmless nofun)).bind fun _ _ _ => .ret trivial
  exact (safe.exec kept.confined fun _ _ => trivial).1

/-! ## Archives that stay below and archives that do not -/

/-- An entry to be put into a sample archive: stored, with its name, data and attributes. -/
structure SampleEntry where
  name : Bytes
  data : Bytes
  versionMadeBy : Nat
  attributes : Nat

def sampleFileEntry (name data : Bytes) : SampleEntry := ⟨name, data, 0, 0⟩

def sampleLinkEntry (name target : Bytes) : SampleEntry := ⟨name, target, CENVEM_UNIX, 0xA0000000⟩

/-- The local headers and data. -/
def sampleLocals (entries : List SampleEntry) : Bytes :=
  entries.flatMap fun entry => sampleLocal 0 ++ entry.data

/-- The central directory; `offset` is the place of the next local header. -/
def sampleDirectory : (offset : Nat) → List SampleEntry → Bytes
  | _, [] => []
  | offset, entry :: rest =>
    Bytes.ofNatLE 4 CENSIG ++ Bytes.ofNatLE 2 entry.versionMadeBy ++ replicate 14 0 ++
      Bytes.ofNatLE 4 entry.data.length ++ Bytes.ofNatLE 4 entry.data.length ++
      Bytes.ofNatLE 2 entry.name.length ++ replicate 8 0 ++
      Bytes.ofNatLE 4 entry.attributes ++ Bytes.ofNatLE 4 offset ++ entry.name ++
      sampleDirectory (offset + LOCHDR + entry.data.length) rest

def sampleZip (entries : List SampleEntry) : Bytes :=
  sampleLocals entries ++ sampleDirectory 0 entries ++ Bytes.ofNatLE 4 ENDSIG ++ [0, 0, 0, 0] ++
    Bytes.ofNatLE 2 entries.length ++ Bytes.ofNatLE 2 entries.length ++ [0, 0, 0, 0] ++
    Bytes.ofNatLE 4 (sampleLocals entries).length ++ [0, 0]

/-- The file `../x`. -/
def backwardArchive : MemMapping :=
  ⟨4096, sampleZip [sampleFileEntry [0x2e, 0x2e, 0x2f, 0x78] []], by decide +kernel⟩

/-- The link `a`, which points to the root, and the file `a/x`. -/
def linkArchive : MemMapping :=
  ⟨4096, sampleZip [sampleLinkEntry [0x61] [0x2f], sampleFileEntry [0x61, 0x2f, 0x78] []],
    by decide +kernel⟩

/-- The link `a` and the file `b/x`. -/
def harmlessArchive : MemMapping :=
  ⟨4096, sampleZip [sampleLinkEntry [0x61] [0x2f], sampleFileEntry [0x62, 0x2f, 0x78] []],
    by decide +kernel⟩

/-- A tree with the directory `/t` only. -/
def sampleTree : Tree := fun here => if here = [[0x74]] then some .dir else none

def sampleArgs : ExtractArgs := ⟨false, false, false, 0, 8⟩

/-- What is touched when everything in the archive is extracted to `/t` and no call fails. -/
def sampleTouched (map : MemMapping) : Parse (List Location) :=
  (parseZipArchive map).map fun archive =>
    ((extractMachine map.data).exec (mzExtractRecursive sampleArgs map archive [] [0x2f, 0x74])
      (replicate 40 .ok) (.initial sampleTree)).1.touched

def sampleParsed (map : MemMapping) : ZipArchive :=
  match parseZipArchive map with
  | .ok archive => archive
  | .error _ => ⟨0, [], ⟨[], 0, 0⟩⟩

theorem extraction_confined_harmless :
    (sampleTouched harmlessArchive = .ok [[[0x74], [0x61]], [[0x74], [0x62]], [[0x74], [0x62], [0x78]]]) ∧
      ∀ here ∈ ((extractMachine harmlessArchive.data).exec
          (mzExtractRecursive sampleArgs harmlessArchive (sampleParsed harmlessArchive) []
            [0x2f, 0x74]) (replicate 40 .ok) (.initial sampleTree)).1.touched,
        ([[0x74]] : Location) <+: here ∧ here ≠ [[0x74]] := by
  refine ⟨by decide +kernel, ?_⟩
  refine extraction_confined sampleArgs harmlessArchive (sampleParsed harmlessArchive) [] [0x2f, 0x74]
    sampleTree [[0x74]] ⟨by decide +kernel, by decide +kernel⟩ ?_
    ⟨by decide +kernel, by decide +kernel⟩ _
  rintro part nonempty ⟨target, known⟩
  rw [sampleTree] at known
  split at known <;> cases known

/-- Both archives are accepted, and both make `/x`. -/
theorem extraction_escapes : sampleTouched backwardArchive = .ok [[[0x78]]] ∧
      sampleTouched linkArchive = .ok [[[0x74], [0x61]], [[0x78]]] ∧
      ¬ ([[0x74]] : Location) <+: [[0x78]] := by
  exact ⟨by decide +kernel, by decide +kernel, by decide⟩

end PhilzTouch.Minzip
