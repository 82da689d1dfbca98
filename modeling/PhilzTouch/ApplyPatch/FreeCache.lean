import PhilzTouch.ApplyPatch.Applypatch

/-!
# Room on the cache

`MakeFreeSpaceOnCache` on a file system of any size.  `FreeSpaceForFile` returns a `size_t` of 32
bits, so that it is lower than what is free on large file systems; and its error value is the
largest `size_t`, which is taken for a number of free bytes.
-/

namespace PhilzTouch.ApplyPatch

open List

/-- The file system of the cache, and which files processes have open. -/
structure Cache where
  blockSize : Nat
  freeBlocks : Nat
  /-- What `readdir` shows in a directory that can be opened. -/
  names : Text → Option (List Text)
  /-- Whether `stat` shows a regular file. -/
  regular : Text → Bool
  /-- Where the links in `/proc/*/fd` lead, if `/proc` can be opened. -/
  links : Option (List Text)
  plain : ∀ dir list, names dir = some list → ∀ name ∈ list, '/' ∉ name
  dots : ∀ dir, regular (dir ++ ['/', '.']) = false ∧ regular (dir ++ ['/', '.', '.']) = false

namespace Cache

def free (cache : Cache) : Nat := cache.blockSize * cache.freeBlocks

/-- What `FreeSpaceForFile` returns if `statfs` succeeds. -/
def shown (cache : Cache) : Nat := cache.free % 2 ^ 32

/-- A file is gone, and this many blocks are free now. -/
def remove (cache : Cache) (path : Text) (freeBlocks : Nat) : Cache where
  blockSize := cache.blockSize
  freeBlocks := freeBlocks
  names := cache.names
  regular other := decide (other ≠ path) && cache.regular other
  links := cache.links
  plain := cache.plain
  dots dir := by simp [cache.dots dir]

end Cache

/-- What happens to a call. -/
inductive CacheChoice where
  | ok
  | fail
  /-- A file is deleted, and this many blocks are free now. -/
  | freed (blocks : Nat)
  deriving DecidableEq

/-- What the calls of `MakeFreeSpaceOnCache` do and return. -/
def performCache : (op : Op) → CacheChoice → Cache → Cache × Reply op
  | .statfs _, choice, cache => (cache, if choice = .fail then 2 ^ 32 - 1 else cache.shown)
  | .readdir dir, _, cache => (cache, cache.names dir)
  | .stat path, _, cache => (cache, if cache.regular path then .found 0 ⟨0, 0, 0⟩ else .failed)
  | .openFiles, _, cache => (cache, cache.links)
  | .unlink path, choice, cache =>
    match choice with
    | .freed blocks => (cache.remove path blocks, true)
    | _ => (cache, false)
  | _, _, cache => (cache, default)

abbrev cacheMachine : Machine Op Reply where
  Choice := CacheChoice
  State := Cache
  perform := performCache

/-- The machine with the log of its steps. -/
abbrev CacheLog := List cacheMachine.Step

/-! ## What may be deleted -/

/-- An entry of one of the two directories. -/
def Expendable (path : Text) : Prop :=
  ∃ dir ∈ [cacheDir, otatestDir], ∃ name, path = dir ++ '/' :: name ∧ '/' ∉ name ∧
    name ≠ ['.'] ∧ name ≠ ['.', '.']

namespace Cache

variable (cache : Cache)

/-- A regular file that is not the saved source. -/
def candidate (path : Text) : Bool := decide (path ≠ cacheTempSource) && cache.regular path

def candidatesIn (dir : Text) : List Text :=
  (((cache.names dir).getD []).map (dir ++ '/' :: ·)).filter cache.candidate

def candidates : List Text := cache.candidatesIn cacheDir ++ cache.candidatesIn otatestDir

/-- The files that may be deleted: regular files that nobody has open. -/
def deletable : List Text :=
  match cache.links with
  | none => []
  | some links => cache.candidates.filter (· ∉ links)

end Cache

/-! ## The search -/

/-- Calls that look at directories and processes. -/
def Op.Looks : Op → Prop
  | .readdir _ | .stat _ | .openFiles => True
  | _ => False

theorem perform_looks {op : Op} (looks : op.Looks) (choice : CacheChoice) (cache : Cache) :
    (performCache op choice cache).1 = cache := by
  cases op with
  | stat | readdir | openFiles => rfl
  | _ => cases looks

variable {path : Text} {names : List (Option Text)}

section Search

variable {cache : Cache}

/-- A program that looks only, with the value it comes to. -/
abbrev Sees {α : Type} (cache : Cache) (value : α) (program : Action α) : Prop :=
  cacheMachine.Observes False Op.Looks (fun _ => True) (· = value) program cache

theorem Sees.ret {α : Type} (value : α) : Sees cache value (.ret value) := Machine.Observes.ret rfl

theorem Sees.call {α : Type} {op : Op} {rest : Reply op → Action α} {value : α} (looks : op.Looks)
    (reply : Reply op) (replies : ∀ choice, (performCache op choice cache).2 = reply)
    (sees : Sees cache value (rest reply)) : Sees cache value (Prog.call op >>= rest) := by
  refine Machine.Observes.call looks fun choice _ => ?_
  rw [show (cacheMachine.perform op choice cache).2 = reply from replies choice]
  exact sees

theorem Sees.bind {α β : Type} {program : Action β} {rest : β → Action α} {middle : β} {value : α}
    (first : Sees cache middle program) (second : Sees cache value (rest middle)) :
    Sees cache value (program >>= rest) := by
  refine Machine.Observes.bind first ?_
  rintro _ rfl
  exact second

theorem regularFiles_sees (dir : Text) (names : List Text) :
    Sees cache ((names.map (dir ++ '/' :: ·)).filter cache.candidate) (regularFiles dir names) := by
  induction names with
  | nil => exact .ret []
  | cons name names ih =>
    unfold regularFiles
    rw [map_cons]
    by_cases saved : dir ++ '/' :: name = cacheTempSource
    · rw [if_pos saved, filter_cons_of_neg (by simp [Cache.candidate, saved])]
      exact ih
    rw [if_neg saved]
    by_cases regular : cache.regular (dir ++ '/' :: name)
    · rw [filter_cons_of_pos (by simp [Cache.candidate, saved, regular])]
      exact .call trivial (.found 0 ⟨0, 0, 0⟩) (fun _ => if_pos regular) (ih.bind (.ret _))
    · rw [filter_cons_of_neg (by simp [Cache.candidate, regular])]
      exact .call trivial .failed (fun _ => if_neg regular) ih

theorem expendableIn_sees (dir : Text) :
    Sees cache (cache.candidatesIn dir) (expendableIn dir) := by
  refine .call trivial (cache.names dir) (fun _ => rfl) ?_
  unfold Cache.candidatesIn
  cases cache.names dir with
  | none => exact .ret []
  | some names => exact regularFiles_sees dir names

/-- The names that `FindExpendableFiles` returns. -/
def Cache.expendable (cache : Cache) : Option (List (Option Text)) :=
  cache.links.map fun links => cache.candidates.map fun path =>
    if path ∈ links then none else some path

theorem mem_candidates (member : path ∈ cache.candidates) :
    path ≠ cacheTempSource ∧ Expendable path := by
  obtain ⟨dir, known, listed⟩ :
      ∃ dir ∈ [cacheDir, otatestDir], path ∈ cache.candidatesIn dir := by
    simpa [Cache.candidates] using member
  obtain ⟨entry, suitable⟩ := mem_filter.mp listed
  obtain ⟨name, there, rfl⟩ := mem_map.mp entry
  rw [Cache.candidate, Bool.and_eq_true, decide_eq_true_eq] at suitable
  refine ⟨suitable.1, dir, known, name, rfl, ?_, ?_, ?_⟩
  · cases names : cache.names dir with
    | none =>
      rw [names] at there
      cases there
    | some list =>
      rw [names] at there
      exact cache.plain dir list names name there
  · rintro rfl
    rw [(cache.dots dir).1] at suitable
    cases suitable.2
  · rintro rfl
    rw [(cache.dots dir).2] at suitable
    cases suitable.2

theorem candidate_inCache (member : path ∈ cache.candidates) :
    ['/', 'c', 'a', 'c', 'h', 'e', '/'].isPrefixOf path = true := by
  obtain ⟨_, dir, known, name, rfl, _⟩ := mem_candidates member
  rcases mem_pair.mp known with rfl | rfl <;> simp [otatestDir, cacheDir]

theorem findExpendableFiles_sees : Sees cache cache.expendable findExpendableFiles := by
  refine (expendableIn_sees cacheDir).bind ((expendableIn_sees otatestDir).bind ?_)
  refine .call trivial cache.links (fun _ => rfl) ?_
  unfold Cache.expendable
  cases cache.links with
  | none => exact .ret none
  | some links =>
    have same : (cache.candidatesIn cacheDir ++ cache.candidatesIn otatestDir).map
        (fun file => if file ∈ links.filter (['/', 'c', 'a', 'c', 'h', 'e', '/'].isPrefixOf ·)
          then none else some file) =
        cache.candidates.map fun path => if path ∈ links then none else some path := by
      refine map_congr_left fun path member => ?_
      have inCache := candidate_inCache member
      simp only [mem_filter, inCache, and_true]
    dsimp only
    rw [same]
    exact .ret _

theorem mem_expendable (found : cache.expendable = some names) :
    some path ∈ names ↔ path ∈ cache.deletable := by
  unfold Cache.expendable at found
  unfold Cache.deletable
  cases links : cache.links with
  | none =>
    rw [links] at found
    cases found
  | some open_ =>
    rw [links] at found
    cases found
    simp only [mem_map, mem_filter, decide_not, Bool.not_eq_true', decide_eq_false_iff_not]
    constructor
    · rintro ⟨other, member, kept⟩
      split at kept
      · cases kept
      · cases kept
        exact ⟨member, ‹_›⟩
    · rintro ⟨member, closed⟩
      exact ⟨path, member, if_neg closed⟩

end Search

/-! ## Deleting -/

/-- A call of `statfs` that fails while there is not enough room. -/
def Misleads (needed : Nat) (step : cacheMachine.Step) : Prop :=
  (∃ path, step.op = .statfs path) ∧ step.choice = .fail ∧ step.before.free < needed

def Deletes (step : cacheMachine.Step) : Prop := ∃ path, step.op = .unlink path

variable {freeNow : Nat} {more : CacheLog} {step : cacheMachine.Step}

section Deleting

variable {needed : Nat} {now : Cache} {log : CacheLog}

theorem Cache.shown_le (cache : Cache) : cache.shown ≤ cache.free := Nat.mod_le _ _

theorem deleteUntil_of_le (enough : needed ≤ freeNow) (names : List (Option Text)) :
    deleteUntil needed names freeNow = .ret freeNow := by
  cases names with
  | nil => rfl
  | cons name names =>
    unfold deleteUntil
    rw [if_neg (not_lt.mpr enough)]

/-- What is known at the end about the last number of free bytes: it is right as far as it goes, or
the last call of `statfs` has misled. -/
def Known (needed freeNow : Nat) (now : Cache) (more : CacheLog) : Prop :=
  (∀ step ∈ more, ¬ Misleads needed step) ∧ (needed ≤ freeNow → needed ≤ now.free) ∨
    (∃ step ∈ more, Misleads needed step) ∧ needed ≤ freeNow ∧ now.free < needed

/-- What deleting files has done. -/
structure Deleted (needed : Nat) (names : List (Option Text)) (freeBefore freeNow : Nat) (now : Cache)
    (more : CacheLog) : Prop where
  listed : ∀ step ∈ more, ∀ path, step.op = .unlink path → some path ∈ names
  some : freeBefore < needed → ∀ path, some path ∈ names → ∃ step ∈ more, Deletes step
  known : Known needed freeNow now more

theorem Known.cons (known : Known needed freeNow now more) (reliable : ¬ Misleads needed step) :
    Known needed freeNow now (step :: more) := by
  rcases known with ⟨never, right⟩ | ⟨⟨wrong, member, misleads⟩, claimed, short⟩
  · refine .inl ⟨?_, right⟩
    exact forall_mem_cons.mpr ⟨reliable, never⟩
  · exact .inr ⟨⟨wrong, mem_cons_of_mem _ member, misleads⟩, claimed, short⟩

theorem known_statfs (small : needed < 2 ^ 32) (path : Text) (choice : CacheChoice) (now : Cache) :
    Known needed (performCache (.statfs path) choice now).2 now [⟨.statfs path, choice, now⟩] := by
  simp only [performCache]
  by_cases fails : choice = .fail
  · rw [if_pos fails]
    by_cases short : now.free < needed
    · exact .inr ⟨⟨_, mem_singleton_self _, ⟨path, rfl⟩, fails, short⟩, by omega, short⟩
    · refine .inl ⟨?_, fun _ => Nat.le_of_not_lt short⟩
      rintro step member ⟨_, _, wrong⟩
      cases mem_singleton.mp member
      exact short wrong
  · rw [if_neg fails]
    refine .inl ⟨?_, fun enough => le_trans enough now.shown_le⟩
    rintro step member ⟨_, wrong, _⟩
    cases mem_singleton.mp member
    exact fails wrong

/-- Nothing is deleted when there is room, or nothing to delete. -/
theorem Deleted.nothing (honest : needed ≤ freeNow → needed ≤ now.free)
    (reason : needed ≤ freeNow ∨ names = []) : Deleted needed names freeNow freeNow now [] := by
  refine ⟨nofun, fun short path member => ?_, .inl ⟨nofun, honest⟩⟩
  rcases reason with enough | rfl
  · omega
  · cases member

theorem deleteUntil_ensures (small : needed < 2 ^ 32)
    (honest : needed ≤ freeNow → needed ≤ now.free) : cacheMachine.logged.Ensures (fun _ => True)
      (fun freeAfter state => ∃ more, state.2 = log ++ more ∧
        Deleted needed names freeNow freeAfter state.1 more)
      (deleteUntil needed names freeNow) (now, log) := by
  induction names generalizing now freeNow log with
  | nil => exact .ret ⟨[], (append_nil _).symm, .nothing honest (.inr rfl)⟩
  | cons name names ih =>
    by_cases short : freeNow < needed
    swap
    · have enough := Nat.le_of_not_lt short
      rw [deleteUntil_of_le enough]
      exact .ret ⟨[], (append_nil _).symm, .nothing honest (.inl enough)⟩
    unfold deleteUntil
    rw [if_pos short]
    cases name with
    | none =>
      refine (ih honest).weaken ?_
      rintro freeAfter state ⟨more, grown, deleted⟩
      refine ⟨more, grown, ?_, fun short path member => ?_, deleted.known⟩
      · exact fun step member path same =>
          mem_cons_of_mem _ (deleted.listed step member path same)
      · exact deleted.some short path ((mem_cons.mp member).resolve_left nofun)
    | some path =>
      refine .logged_call fun choice => .logged_call fun second => ?_
      generalize gone : (performCache (.unlink path) choice now).1 = left
      have unlinks : ¬ Misleads needed ⟨.unlink path, choice, now⟩ := fun misleads => by
        obtain ⟨_, wrong⟩ := misleads.1
        cases wrong
      -- what the two calls add to what the rest of the loop does
      have together : ∀ {freeAfter : Nat} {after : Cache} {more : CacheLog},
          (∀ step ∈ more, ∀ other, step.op = .unlink other → some other ∈ names) →
          Known needed freeAfter after (⟨.statfs cacheDir, second, left⟩ :: more) →
          Deleted needed (some path :: names) freeNow freeAfter after
            (⟨.unlink path, choice, now⟩ :: ⟨.statfs cacheDir, second, left⟩ :: more) := by
        intro freeAfter after more listed known
        refine ⟨?_, fun _ _ _ => ⟨_, mem_cons_self, path, rfl⟩, known.cons unlinks⟩
        intro step member other same
        rcases mem_cons.mp member with rfl | member
        · cases same
          exact mem_cons_self
        rcases mem_cons.mp member with rfl | member
        · cases same
        · exact mem_cons_of_mem _ (listed step member other same)
      rcases known_statfs small cacheDir second left with ⟨reliable, honest⟩ | misled
      · refine (ih honest).weaken ?_
        rintro freeAfter state ⟨more, grown, deleted⟩
        refine ⟨_, by rw [grown, append_assoc, append_assoc]; rfl, together deleted.listed ?_⟩
        exact deleted.known.cons (reliable _ (mem_singleton_self _))
      have claimed := misled.2.1
      rw [deleteUntil_of_le claimed]
      refine .ret ⟨[⟨.unlink path, choice, now⟩, ⟨.statfs cacheDir, second, left⟩], ?_, ?_⟩
      · rw [append_assoc]
        rfl
      · exact together nofun (.inr misled)

end Deleting

/-! ## MakeFreeSpaceOnCache -/

/-- What a run of `MakeFreeSpaceOnCache` should do. -/
structure MakesRoom (needed : Nat) (cache : Cache) (result : Int) (after : Cache) (log : CacheLog) :
    Prop where
  enough : result = 0 → needed ≤ after.free
  untouched : needed ≤ cache.free → ∀ step ∈ log, ¬ Deletes step
  permitted : ∀ step ∈ log, ∀ path, step.op = .unlink path →
    path ≠ cacheTempSource ∧ (∀ links, cache.links = some links → path ∉ links) ∧ Expendable path

/-- The numbers of free bytes are right where it matters. -/
structure SpaceKnown (needed : Nat) (cache : Cache) (log : CacheLog) : Prop where
  reliable : ∀ step ∈ log, ¬ Misleads needed step
  visible : needed ≤ cache.free → (∃ step, log.head? = some step ∧ step.choice = .fail) ∨
    needed ≤ cache.shown ∨ cache.deletable = []

theorem deletable_permitted {cache : Cache} (member : path ∈ cache.deletable) :
    path ≠ cacheTempSource ∧ (∀ links, cache.links = some links → path ∉ links) ∧
      Expendable path := by
  unfold Cache.deletable at member
  split at member
  · cases member
  rename_i links shown
  obtain ⟨candidate, closed⟩ := mem_filter.mp member
  obtain ⟨other, expendable⟩ := mem_candidates candidate
  refine ⟨other, fun also same => ?_, expendable⟩
  cases shown.symm.trans same
  exact of_decide_eq_true closed

section Room

variable {needed : Nat} {cache after : Cache} {result : Int} {log : CacheLog}

/-- Without a deletion, only the result can be wrong. -/
theorem makesRoom_of_not_deletes (none : ∀ step ∈ log, ¬ Deletes step) :
    MakesRoom needed cache result after log ↔ (result = 0 → needed ≤ after.free) :=
  ⟨fun room => room.enough, fun enough =>
    ⟨enough, fun _ => none, fun step member path same => absurd ⟨path, same⟩ (none step member)⟩⟩

theorem not_deletes_of_looks (looks : step.op.Looks) : ¬ Deletes step := by
  rintro ⟨path, same⟩
  rw [same] at looks
  exact looks

theorem not_misleads_of_looks (looks : step.op.Looks) : ¬ Misleads needed step := by
  rintro ⟨⟨path, same⟩, _⟩
  rw [same] at looks
  exact looks

/-- The run up to where it deletes: a call of `statfs` that has worked, and the search. -/
structure Searched (cache : Cache) (log : CacheLog) : Prop where
  begins : ∃ step looks, log = step :: looks ∧ (∃ path, step.op = .statfs path) ∧
    step.choice ≠ .fail ∧ ∀ other ∈ looks, other.op.Looks

section

variable (searched : Searched cache log)

include searched

theorem Searched.not_deletes : ∀ step ∈ log, ¬ Deletes step := by
  obtain ⟨first, looks, rfl, ⟨path, statfs⟩, _, quiet⟩ := searched
  intro step member
  rcases mem_cons.mp member with rfl | later
  · rintro ⟨other, same⟩
    rw [statfs] at same
    cases same
  · exact not_deletes_of_looks (quiet step later)

theorem Searched.not_misleads : ∀ step ∈ log, ¬ Misleads needed step := by
  obtain ⟨first, looks, rfl, _, works, quiet⟩ := searched
  exact forall_mem_cons.mpr
    ⟨fun misleads => works misleads.2.1, fun step later => not_misleads_of_looks (quiet step later)⟩

theorem Searched.head : ¬ ∃ step, (log ++ more).head? = some step ∧ step.choice = .fail := by
  obtain ⟨first, looks, rfl, _, works, _⟩ := searched
  rintro ⟨step, same, fails⟩
  cases same
  exact works fails

theorem Searched.gives_up (nothing : cache.deletable = []) :
    MakesRoom needed cache (-1) cache log ↔ SpaceKnown needed cache log :=
  iff_of_true ((makesRoom_of_not_deletes searched.not_deletes).mpr nofun)
    ⟨searched.not_misleads, fun _ => .inr (.inr nothing)⟩

theorem Searched.deletes (found : cache.expendable = some names)
    (short : cache.shown < needed) (deleted : Deleted needed names cache.shown freeNow after more) :
    MakesRoom needed cache (if needed ≤ freeNow then 0 else -1) after (log ++ more) ↔
      SpaceKnown needed cache (log ++ more) := by
  have permitted : ∀ step ∈ log ++ more, ∀ path, step.op = .unlink path →
      path ∈ cache.deletable := by
    intro step member path same
    rcases mem_append.mp member with early | late
    · exact absurd ⟨path, same⟩ (searched.not_deletes step early)
    · exact (mem_expendable found).mp (deleted.listed step late path same)
  have deletes : cache.deletable ≠ [] ↔ ∃ step ∈ log ++ more, Deletes step := by
    constructor
    · intro some
      obtain ⟨path, rest, shape⟩ := exists_cons_of_ne_nil some
      have member : path ∈ cache.deletable := by simp [shape]
      obtain ⟨step, there, gone⟩ := deleted.some short path ((mem_expendable found).mpr member)
      exact ⟨step, mem_append_right _ there, gone⟩
    · rintro ⟨step, member, path, same⟩ none
      have := permitted step member path same
      rw [none] at this
      cases this
  constructor
  · intro room
    refine ⟨?_, fun enough => .inr (.inr ?_)⟩
    · rcases deleted.known with ⟨never, _⟩ | ⟨_, claimed, less⟩
      · exact forall_mem_append.mpr ⟨searched.not_misleads, never⟩
      · have := room.enough (if_pos claimed)
        omega
    · by_contra some
      obtain ⟨step, member, gone⟩ := deletes.mp some
      exact room.untouched enough step member gone
  intro known
  refine ⟨?_, ?_, fun step member path same =>
    deletable_permitted (permitted step member path same)⟩
  · intro zero
    have claimed : needed ≤ freeNow := by
      by_contra less
      rw [if_neg less] at zero
      cases zero
    rcases deleted.known with ⟨_, right⟩ | ⟨⟨step, member, misleads⟩, _⟩
    · exact right claimed
    · exact absurd misleads (known.reliable step (mem_append_right _ member))
  · intro enough step member gone
    have nothing : cache.deletable = [] := by
      rcases known.visible enough with fails | visible | nothing
      · exact absurd fails searched.head
      · omega
      · exact nothing
    exact deletes.mpr ⟨step, member, gone⟩ nothing

end

end Room

theorem makeFreeSpaceOnCache_ensures {needed : Nat} (small : needed < 2 ^ 32) (cache : Cache) :
    cacheMachine.logged.Ensures (fun _ => True) (fun result state =>
        MakesRoom needed cache result state.1 state.2 ↔ SpaceKnown needed cache state.2)
      (makeFreeSpaceOnCache needed) (cache, []) := by
  refine .logged_call fun choice => ?_
  have silent : ∀ step ∈ ([] : CacheLog) ++ [⟨.statfs cacheDir, choice, cache⟩], ¬ Deletes step := by
    rintro step member ⟨path, same⟩
    cases mem_singleton.mp member
    cases same
  by_cases fails : choice = .fail
  · have reply : (performCache (.statfs cacheDir) choice cache).2 = 2 ^ 32 - 1 := if_pos fails
    rw [reply, if_pos (by omega)]
    refine .ret ((makesRoom_of_not_deletes silent).trans ⟨fun enough => ?_, fun known => ?_⟩)
    · refine ⟨?_, fun _ => .inl ⟨_, rfl, fails⟩⟩
      rintro step member ⟨_, _, short⟩
      cases mem_singleton.mp member
      exact absurd (enough rfl) (not_le.mpr short)
    · intro _
      by_contra short
      exact known.reliable _ (mem_singleton_self _) ⟨⟨cacheDir, rfl⟩, fails, Nat.lt_of_not_le short⟩
  have reply : (performCache (.statfs cacheDir) choice cache).2 = cache.shown := if_neg fails
  rw [reply]
  by_cases enough : needed ≤ cache.shown
  · rw [if_pos enough]
    refine .ret (iff_of_true ((makesRoom_of_not_deletes silent).mpr fun _ =>
      le_trans enough cache.shown_le) ⟨?_, fun _ => .inr (.inl enough)⟩)
    rintro step member ⟨_, wrong, _⟩
    cases mem_singleton.mp member
    exact fails wrong
  · rw [if_neg enough]
    refine .bind (findExpendableFiles_sees.safe_logged _ fun _ choice now looks =>
      perform_looks looks choice now) ?_
    rintro _ ⟨now, log⟩ ⟨rfl, same, looks, grown, quiet⟩
    have searched : Searched cache log := ⟨⟨_, looks, grown, ⟨cacheDir, rfl⟩, fails, quiet⟩⟩
    obtain rfl : now = cache := same
    have same : (cacheMachine.perform (.statfs cacheDir) choice now).1 = now := rfl
    rw [same]
    cases found : now.expendable with
    | none =>
      refine .ret (searched.gives_up ?_)
      rw [Cache.expendable, Option.map_eq_none_iff] at found
      rw [Cache.deletable, found]
    | some names =>
      dsimp only
      split
      · rename_i none
        refine .ret (searched.gives_up (eq_nil_iff_forall_not_mem.mpr fun path member => ?_))
        have := (mem_expendable found).mpr member
        rw [none] at this
        cases this
      · refine .bind (deleteUntil_ensures small fun seen => absurd seen enough) ?_
        rintro freeNow ⟨after, _⟩ ⟨more, rfl, deleted⟩
        exact .ret (searched.deletes found (Nat.lt_of_not_le enough) deleted)

/-- `MakeFreeSpaceOnCache` returns, and it has done what it should if and only if no call of
`statfs` has misled it and the free space has not been taken for less than it is. -/
theorem makeFreeSpaceOnCache_iff (needed : Nat) (small : needed < 2 ^ 32) (cache : Cache)
    (choices : Nat → CacheChoice) :
    ∃ result after log, cacheMachine.logged.play (makeFreeSpaceOnCache needed) choices (cache, []) =
        ((after, log), some result) ∧
      (MakesRoom needed cache result after log ↔ SpaceKnown needed cache log) := by
  obtain ⟨result, returned, right⟩ := @Machine.Ensures.play _ _ _ _ _ _ _ _ choices
    (makeFreeSpaceOnCache_ensures small cache) fun _ _ => trivial
  exact ⟨result, _, _, Prod.ext rfl returned, right⟩

/-- A cache with one file, `/cache/x`, that nobody has open. -/
def oneFile (blockSize freeBlocks : Nat) : Cache where
  blockSize := blockSize
  freeBlocks := freeBlocks
  names dir := if dir = cacheDir then some [['x']] else none
  regular path := path.getLast? = some 'x'
  links := some []
  plain dir list shown name member := by
    split at shown
    · cases shown
      cases mem_singleton.mp member
      decide
    · cases shown
  dots dir := by simp

theorem makeFreeSpaceOnCache_iff_oneFile : ∃ result after log,
      cacheMachine.logged.play (makeFreeSpaceOnCache 4096) (fun _ => .freed 2) (oneFile 4096 0, []) =
        ((after, log), some result) ∧ MakesRoom 4096 (oneFile 4096 0) result after log := by
  obtain ⟨result, after, log, ran, right⟩ :=
    makeFreeSpaceOnCache_iff 4096 (by decide) (oneFile 4096 0) fun _ => .freed 2
  have reliable : ((cacheMachine.logged.play (makeFreeSpaceOnCache 4096) (fun _ => .freed 2)
      (oneFile 4096 0, [])).1.2.all fun step => step.choice ≠ .fail) = true := by decide +kernel
  rw [ran, all_eq_true] at reliable
  refine ⟨result, after, log, ran, right.mpr ⟨?_, nofun⟩⟩
  intro step member misleads
  exact of_decide_eq_true (reliable step member) misleads.2.1

/-- A result of 0 while nothing is free, and a file deleted while 4 GiB are free. -/
theorem makeFreeSpaceOnCache_misled :
    (∃ log, cacheMachine.logged.play (makeFreeSpaceOnCache 1) (fun _ => .fail) (oneFile 4096 0, []) =
        ((oneFile 4096 0, log), some 0) ∧ (oneFile 4096 0).free = 0 ∧
        ¬ MakesRoom 1 (oneFile 4096 0) 0 (oneFile 4096 0) log) ∧
    ∃ result after log, cacheMachine.logged.play (makeFreeSpaceOnCache 1) (fun _ => .freed 1048577)
          (oneFile 4096 (2 ^ 20), []) = ((after, log), some result) ∧ (oneFile 4096 (2 ^ 20)).free = 2 ^ 32 ∧
        ¬ MakesRoom 1 (oneFile 4096 (2 ^ 20)) result after log := by
  constructor
  · exact ⟨_, rfl, rfl, fun room => absurd (room.enough rfl) (by decide)⟩
  obtain ⟨result, returned, right⟩ := @Machine.Ensures.play _ _ _ _ _ _ _ _
    (fun _ => CacheChoice.freed 1048577)
    (makeFreeSpaceOnCache_ensures (show 1 < 2 ^ 32 by decide) (oneFile 4096 (2 ^ 20)))
    fun _ _ => trivial
  refine ⟨result, _, _, Prod.ext rfl returned, by decide, fun room => ?_⟩
  rcases (right.mp room).visible (by decide) with ⟨step, first, fails⟩ | shown | nothing
  · have works : (cacheMachine.logged.play (makeFreeSpaceOnCache 1)
        (fun _ => .freed 1048577) (oneFile 4096 (2 ^ 20), [])).1.2.head?.map
          (·.choice) = some (.freed 1048577) := by decide +kernel
    rw [first, Option.map_some, fails] at works
    cases works
  · exact absurd shown (by decide)
  · exact absurd nothing (by decide)

end PhilzTouch.ApplyPatch
