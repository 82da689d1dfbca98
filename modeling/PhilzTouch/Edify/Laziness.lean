import Mathlib.Data.List.Nodup
import PhilzTouch.Edify.Expr

/-!
# Failure ends a script

Evaluating a tree leaves a trace of what was entered, called and left.  In every such trace
nothing is called or entered any more once some expression has yielded `NULL`, every expression
is evaluated at most once, and `&&`, `||` and `ifelse` evaluate just the operands that their
condition selects.
-/

namespace PhilzTouch.Edify

open List Edify.Tree

variable {W ι α β : Type}

/-! ## Computations and the events they add -/

/-- From every state, what the computation returns and the events it adds satisfy `post`.  It
returns, unless the cause given for not returning is there. -/
def Emits (stuck : Prop) (action : Eval W α) (post : α → List Event → Prop) : Prop :=
  ∀ state, (action state = none ∧ stuck) ∨ ∃ value after events,
    action state = some (value, after) ∧ after.events = state.events ++ events ∧ post value events

variable {stuck : Prop}

namespace Emits

variable {post : α → List Event → Prop}

theorem pure {value : α} (holds : post value []) : Emits (W := W) stuck (Pure.pure value) post :=
  fun state => .inr ⟨value, state, [], rfl, (append_nil _).symm, holds⟩

theorem stop (cause : stuck) : Emits (W := W) stuck failure post := fun _ => .inl ⟨rfl, cause⟩

theorem bind {action : Eval W β} {rest : β → Eval W α} {middle : β → List Event → Prop}
    (first : Emits stuck action middle) (next : ∀ value events, middle value events →
      Emits stuck (rest value) fun result more => post result (events ++ more)) :
    Emits stuck (action >>= rest) post := by
  intro state
  have split : (action >>= rest) state = (action state).bind fun done => rest done.1 done.2 := rfl
  rw [split]
  rcases first state with ⟨ended, cause⟩ | ⟨value, between, events, ran, added, holds⟩
  · exact .inl ⟨by rw [ended, Option.bind_none], cause⟩
  rw [ran, Option.bind_some]
  refine (next value events holds between).imp_right ?_
  rintro ⟨result, after, more, ran', added', holds'⟩
  exact ⟨result, after, events ++ more, ran', by rw [added', added, append_assoc], holds'⟩

theorem weaken {post' : α → List Event → Prop} {action : Eval W α} (emits : Emits stuck action post)
    (implies : ∀ value events, post value events → post' value events) : Emits stuck action post' := by
  intro state
  refine (emits state).imp_right ?_
  rintro ⟨value, after, events, ran, added, holds⟩
  exact ⟨value, after, events, ran, added, implies value events holds⟩

theorem silent {change : State W → State W} (same : ∀ state, (change state).events = state.events)
    {rest : PUnit → Eval W α} (next : Emits stuck (rest ⟨⟩) post) :
    Emits stuck (modify change >>= rest) post := by
  intro state
  refine (next (change state)).imp_right ?_
  rintro ⟨value, after, events, ran, added, holds⟩
  exact ⟨value, after, events, ran, by rw [added, same], holds⟩

variable {rest : Unit → Eval W α} {event : Event}

theorem record (next : Emits stuck (rest ()) fun value events => post value (event :: events)) :
    Emits stuck (Edify.record event >>= rest) post := by
  intro state
  refine (next { state with events := state.events ++ [event] }).imp_right ?_
  rintro ⟨value, after, events, ran, added, holds⟩
  exact ⟨value, after, event :: events, ran, by rw [added]; simp, holds⟩

theorem setError {message : Bytes} (next : Emits stuck (rest ()) post) :
    Emits stuck (Edify.setError message >>= rest) post :=
  @silent W α stuck post (fun state => { state with errmsg := some message }) (fun _ => rfl) rest next

variable {action : Eval W (Option β)}

/-- A call that may yield `NULL`, and what follows it otherwise. -/
theorem orNull {rest : β → Eval W (Option α)}
    {middle : Option β → List Event → Prop} {post : Option α → List Event → Prop}
    (first : Emits stuck action middle) (null : ∀ events, middle none events → post none events)
    (next : ∀ value events, middle (some value) events →
      Emits stuck (rest value) fun result more => post result (events ++ more)) :
    Emits stuck (Edify.orNull action rest) post := by
  refine first.bind fun value events holds => ?_
  cases value with
  | none => exact .pure (by rw [append_nil]; exact null events holds)
  | some value => exact next value events holds

theorem get {rest : State W → Eval W α} (next : ∀ state, Emits stuck (rest state) post) :
    Emits stuck (MonadState.get >>= rest) post :=
  fun state => next state state

end Emits

theorem errorAbort_emits (message : Bytes) :
    Emits stuck (errorAbort message : Eval W (Option α)) fun value events =>
      value = none ∧ events = [.raised (message.take 4095)] :=
  .setError (.record (.pure ⟨rfl, rfl⟩))

/-! ## Traces -/

def Event.place? : Event → Option (List Nat)
  | .enter place => some place
  | .called place => some place
  | .exit place _ => some place
  | .raised _ => none

/-- The event is about the place or about one below it. -/
def Within (place : List Nat) (event : Event) : Prop :=
  ∀ other, event.place? = some other → place <+: other

/-- No expression has yielded `NULL`. -/
def Quiet (events : List Event) : Prop := ∀ place, .exit place none ∉ events

/-- Expressions that yield `NULL`, and error messages; nothing is entered or called. -/
def Dying (events : List Event) : Prop :=
  ∀ event ∈ events, (∃ place, event = .exit place none) ∨ ∃ message, event = .raised message

/-- Once an expression yields `NULL`, nothing else happens than that others yield `NULL`. -/
def Halts (events : List Event) : Prop :=
  ∃ before after, events = before ++ after ∧ Quiet before ∧ Dying after

variable {first second : List Event}

theorem Quiet.append (quiet : Quiet first) (quiet' : Quiet second) : Quiet (first ++ second) := by
  intro place member
  rcases mem_append.mp member with early | late
  · exact quiet place early
  · exact quiet' place late

theorem Quiet.halts {events : List Event} (quiet : Quiet events) : Halts events :=
  ⟨events, [], (append_nil _).symm, quiet, nofun⟩

theorem Halts.after_quiet (quiet : Quiet first) (halts : Halts second) :
    Halts (first ++ second) := by
  obtain ⟨before, after, rfl, quiet', dying⟩ := halts
  exact ⟨first ++ before, after, (append_assoc _ _ _).symm, quiet.append quiet', dying⟩

theorem Halts.before_dying (halts : Halts first)
    (dying : Dying second) : Halts (first ++ second) := by
  obtain ⟨before, after, rfl, quiet, dying'⟩ := halts
  refine ⟨before, after ++ second, append_assoc _ _ _, quiet, fun event member => ?_⟩
  rcases mem_append.mp member with early | late
  · exact dying' event early
  · exact dying event late

def entered (events : List Event) : List (List Nat) :=
  events.filterMap fun event =>
    match event with
    | .enter place => some place
    | _ => none

variable {place : List Nat}

theorem mem_entered {events : List Event} : place ∈ entered events ↔ .enter place ∈ events := by
  rw [entered, mem_filterMap]
  constructor
  · rintro ⟨event, member, found⟩
    cases event with
    | enter other =>
      cases found
      exact member
    | _ => cases found
  · exact fun member => ⟨_, member, rfl⟩

theorem entered_append (first second : List Event) :
    entered (first ++ second) = entered first ++ entered second :=
  filterMap_append

/-! ## Trees and their places -/

def Tree.kids : Tree ι → List (Tree ι)
  | .literal _ _ _ => []
  | .leaf _ _ _ => []
  | .not operand _ _ => [operand]
  | .binary _ left right _ _ => [left, right]
  | .call _ argv _ _ => argv

def Tree.at (tree : Tree ι) : List Nat → Option (Tree ι)
  | [] => some tree
  | index :: place =>
    match tree.kids[index]? with
    | none => none
    | some kid => kid.at place

/-- What `&&`, `||` and `ifelse` evaluate: the condition first, and then the operand that it
selects. -/
def Selects (place : List Nat) (events : List Event) : Tree ι → Prop
  | .binary .and _ _ _ _ =>
    .enter (place ++ [0]) ∈ events ∧
    (.enter (place ++ [1]) ∈ events ↔
      ∃ text, text ≠ [] ∧ .exit (place ++ [0]) (some (.string text)) ∈ events)
  | .binary .or _ _ _ _ =>
    .enter (place ++ [0]) ∈ events ∧
    (.enter (place ++ [1]) ∈ events ↔ .exit (place ++ [0]) (some (.string [])) ∈ events)
  | .call .ifelse argv _ _ =>
    if argv.length = 2 ∨ argv.length = 3 then
      .enter (place ++ [0]) ∈ events ∧
      (.enter (place ++ [1]) ∈ events ↔
        ∃ text, text ≠ [] ∧ .exit (place ++ [0]) (some (.string text)) ∈ events) ∧
      (.enter (place ++ [2]) ∈ events ↔
        argv.length = 3 ∧ .exit (place ++ [0]) (some (.string [])) ∈ events)
    else ∀ index, .enter (place ++ [index]) ∉ events
  | _ => True

variable {tree : Tree ι}

theorem Selects.congr {events other : List Event} (selects : Selects place events tree)
    (same : ∀ (event : Event) index, event.place? = some (place ++ [index]) →
      (event ∈ other ↔ event ∈ events)) : Selects place other tree := by
  have enters : ∀ index, .enter (place ++ [index]) ∈ other ↔ .enter (place ++ [index]) ∈ events :=
    fun index => same _ index rfl
  have exits : ∀ index result, .exit (place ++ [index]) result ∈ other ↔
      .exit (place ++ [index]) result ∈ events := fun index result => same _ index rfl
  unfold Selects at selects ⊢
  simp only [enters, exits]
  exact selects

/-- The trace of the evaluation of a tree. -/
structure Legal (tree : Tree ι) (place : List Nat) (result : Option Value) (events : List Event) :
    Prop where
  enters : .enter place ∈ events
  exits : ∀ other, .exit place other ∈ events ↔ other = result
  inside : ∀ event ∈ events, Within place event
  once : (entered events).Nodup
  quiet : result ≠ none → Quiet events
  halts : Halts events
  selects : ∀ below node, tree.at below = some node → .enter (place ++ below) ∈ events →
    Selects (place ++ below) events node

/-! ## The operands of one expression -/

/-- Some of the operands, from number `low` on, are evaluated from left to right.  The last one of
them may fail, or be a blob where a string has to be. -/
inductive Visited (kids : List (Tree ι)) (place : List Nat) : Nat → Bool → List Event → Prop where
  | done (low : Nat) (failed : Bool) : Visited kids place low failed []
  | fail {low index : Nat} {kid : Tree ι} {result : Option Value} {events tail : List Event}
      (above : low ≤ index) (found : kids[index]? = some kid)
      (legal : Legal kid (place ++ [index]) result events)
      (raised : ∀ event ∈ tail, ∃ message, event = .raised message) :
      Visited kids place low true (events ++ tail)
  | next {low index : Nat} {failed : Bool} {kid : Tree ι} {result : Option Value}
      {events body : List Event} (above : low ≤ index) (found : kids[index]? = some kid)
      (legal : Legal kid (place ++ [index]) result events) (value : result ≠ none)
      (rest : Visited kids place (index + 1) failed body) :
      Visited kids place low failed (events ++ body)

variable {index : Nat}

section Visited

variable {kids : List (Tree ι)} {place : List Nat} {low : Nat} {failed : Bool} {body : List Event}
  {below : List Nat}

theorem index_of_shared {first second : Nat} (left : place ++ [first] <+: below)
    (right : place ++ [second] <+: below) : first = second := by
  obtain ⟨rest, rfl⟩ := left
  obtain ⟨rest', same⟩ := right
  rw [append_assoc, append_assoc] at same
  have same := append_cancel_left same
  simpa using (cons.inj same).1.symm

theorem dying_raised {tail : List Event}
    (raised : ∀ event ∈ tail, ∃ message, event = .raised message) : Dying tail :=
  fun event member => .inr (raised event member)

theorem mem_of_placed {events tail : List Event}
    (raised : ∀ event ∈ tail, ∃ message, event = .raised message) (member : event ∈ events ++ tail)
    (known : event.place? = some below) : event ∈ events := by
  refine (mem_append.mp member).resolve_right fun late => ?_
  obtain ⟨message, rfl⟩ := raised event late
  cases known

section

variable (visited : Visited kids place low failed body)

include visited

theorem Visited.inside : ∀ event ∈ body, ∀ below, event.place? = some below →
      ∃ index, low ≤ index ∧ place ++ [index] <+: below := by
  induction visited with
  | done => nofun
  | @fail low index kid result events tail above found legal raised =>
    intro event member below known
    exact ⟨index, above, legal.inside event (mem_of_placed raised member known) below known⟩
  | @next low index failed kid result events body above found legal value rest ih =>
    intro event member below known
    rcases mem_append.mp member with early | late
    · exact ⟨index, above, legal.inside event early below known⟩
    · obtain ⟨other, above', under⟩ := ih event late below known
      exact ⟨other, by omega, under⟩

theorem Visited.halts : Halts body ∧ (failed = false → Quiet body) := by
  induction visited with
  | done => exact ⟨Quiet.halts nofun, fun _ => nofun⟩
  | fail above found legal raised => exact ⟨legal.halts.before_dying (dying_raised raised), nofun⟩
  | next above found legal value rest ih =>
    have quiet := legal.quiet value
    exact ⟨ih.1.after_quiet quiet, fun fine => quiet.append (ih.2 fine)⟩

theorem Visited.once : (entered body).Nodup := by
  induction visited with
  | done => exact nodup_nil
  | @fail low index kid result events tail above found legal raised =>
    have none : entered tail = [] := by
      refine filterMap_eq_nil_iff.mpr fun event member => ?_
      obtain ⟨message, rfl⟩ := raised event member
      rfl
    rw [entered_append, none, append_nil]
    exact legal.once
  | @next low index failed kid result events body above found legal value rest ih =>
    rw [entered_append]
    refine nodup_append.mpr ⟨legal.once, ih, fun first early second late => ?_⟩
    rintro rfl
    have here := legal.inside _ (mem_entered.mp early) first rfl
    obtain ⟨other, above', there⟩ := rest.inside _ (mem_entered.mp late) first rfl
    have same := index_of_shared here there
    omega

/-- What happens below an operand happens in one evaluation of it. -/
theorem Visited.operand
    (member : event ∈ body) (known : event.place? = some below) (under : place ++ [index] <+: below) :
    ∃ kid result events, kids[index]? = some kid ∧
      Legal kid (place ++ [index]) result events ∧ event ∈ events ∧
      ∀ other below, other.place? = some below → place ++ [index] <+: below →
        (other ∈ body ↔ other ∈ events) := by
  induction visited with
  | done => cases member
  | @fail low here kid result events tail above found legal raised =>
    have early := mem_of_placed raised member known
    obtain rfl := index_of_shared (legal.inside event early below known) under
    exact ⟨kid, result, events, found, legal, early, fun other below known _ =>
      ⟨fun member => mem_of_placed raised member known, fun member => mem_append_left _ member⟩⟩
  | @next low here failed kid result events body above found legal value rest ih =>
    rcases mem_append.mp member with early | late
    · obtain rfl := index_of_shared (legal.inside event early below known) under
      refine ⟨kid, result, events, found, legal, early, fun other below known under => ?_⟩
      refine ⟨fun member => ?_, fun member => mem_append_left _ member⟩
      rcases mem_append.mp member with early | late
      · exact early
      · obtain ⟨later, above', there⟩ := rest.inside other late below known
        have same := index_of_shared under there
        omega
    obtain ⟨kid', result', events', found', legal', early', same⟩ := ih late
    obtain ⟨later, above', there⟩ := rest.inside event late below known
    have later' := index_of_shared there under
    refine ⟨kid', result', events', found', legal', early', fun other under' known' below' => ?_⟩
    rw [mem_append, same other under' known' below']
    refine ⟨fun either => either.resolve_left fun early => ?_, .inr⟩
    have here' := index_of_shared (legal.inside other early under' known') below'
    omega

end

end Visited

/-- What is added by a function: its operands, and `NULL` when one of them fails. -/
def Body (kids : List (Tree ι)) (place : List Nat) (low : Nat) (result : Option α)
    (body : List Event) : Prop :=
  ∃ failed, Visited kids place low failed body ∧ (failed = true → result = none)

variable {result : Option Value} {body : List Event}

theorem Legal.node (evaluated : Body tree.kids place 0 result body)
    (selects : Selects place body tree) :
    Legal tree place result (.enter place :: (body ++ [.exit place result])) := by
  obtain ⟨failed, visited, fails⟩ := evaluated
  have strict : ∀ index : Nat, ¬ place ++ [index] <+: place := by
    intro index longer
    have := longer.length_le
    rw [length_append, length_singleton] at this
    omega
  have outer : ∀ {event : Event} {index : Nat} {below : List Nat}, event.place? = some below →
      place ++ [index] <+: below →
      (event ∈ .enter place :: (body ++ [.exit place result]) ↔ event ∈ body) := by
    intro event index below known under
    have other : ∀ event' : Event, event'.place? = some place → event ≠ event' := by
      rintro event' known' rfl
      rw [known] at known'
      cases known'
      exact strict index under
    rw [mem_cons, mem_append, mem_singleton]
    exact ⟨fun either => (either.resolve_left (other _ rfl)).resolve_right (other _ rfl),
      fun member => .inr (.inl member)⟩
  have bodyOnly : ∀ event : Event, event.place? = some place → event ∉ body := by
    intro event known member
    obtain ⟨index, -, under⟩ := visited.inside event member place known
    exact strict index under
  obtain ⟨halts, quiet⟩ := visited.halts
  have fine : result ≠ none → failed = false := fun value =>
    (Bool.not_eq_true _).mp fun wrong => value (fails wrong)
  refine ⟨mem_cons_self, fun other => ?_, fun event member below known => ?_, ?_, fun value => ?_,
    ?_, fun below node found member => ?_⟩
  · rw [mem_cons, mem_append, mem_singleton]
    constructor
    · rintro (wrong | early | last)
      · cases wrong
      · exact absurd early (bodyOnly _ rfl)
      · cases last
        rfl
    · rintro rfl
      exact .inr (.inr rfl)
  · rcases mem_cons.mp member with rfl | later
    · cases known
      exact prefix_refl _
    rcases mem_append.mp later with early | last
    · obtain ⟨index, -, under⟩ := visited.inside event early below known
      exact (prefix_append _ _).trans under
    · rw [mem_singleton.mp last] at known
      cases known
      exact prefix_refl _
  · have split : entered (.enter place :: (body ++ [.exit place result])) = place :: entered body := by
      rw [entered, filterMap_cons, filterMap_append]
      exact congrArg _ (append_nil _)
    rw [split]
    exact nodup_cons.mpr ⟨fun member => bodyOnly _ rfl (mem_entered.mp member), visited.once⟩
  · intro other member
    rcases mem_cons.mp member with wrong | later
    · cases wrong
    · rcases mem_append.mp later with early | last
      · exact quiet (fine value) other early
      · cases mem_singleton.mp last
        exact value rfl
  · have start : Quiet [.enter place] := by
      intro other member
      cases mem_singleton.mp member
    refine .after_quiet start ?_
    cases result with
    | none =>
      refine halts.before_dying fun event member => ?_
      exact .inl ⟨place, mem_singleton.mp member⟩
    | some value =>
      refine Quiet.halts ((quiet (fine nofun)).append fun other member => ?_)
      cases mem_singleton.mp member
  cases below with
  | nil =>
    cases found
    rw [append_nil]
    exact selects.congr fun event index known => outer known (prefix_refl _)
  | cons index below =>
    have split : place ++ index :: below = place ++ [index] ++ below := by
      rw [append_assoc, singleton_append]
    have under : place ++ [index] <+: place ++ index :: below := ⟨below, split.symm⟩
    have early := (outer rfl under).mp member
    obtain ⟨kid, value, events, kidFound, legal, seen, same⟩ := visited.operand early rfl under
    rw [Tree.at, kidFound] at found
    rw [split] at seen ⊢
    refine (legal.selects below node found seen).congr fun event number known => ?_
    have deeper : place ++ [index] <+: place ++ [index] ++ below ++ [number] := by
      rw [append_assoc (place ++ [index])]
      exact prefix_append _ _
    rw [outer known deeper, same event _ known deeper]

/-! ## The functions -/

/-- An evaluation of an operand, and what `Evaluate` makes of it. -/
def Read (kid : Tree ι) (place : List Nat) (text : Option Bytes) (events : List Event) : Prop :=
  ∃ result own tail, events = own ++ tail ∧ Legal kid place result own ∧ match text with
    | some text => result = some (.string text) ∧ tail = []
    | none => (∀ text, result ≠ some (.string text)) ∧ ∀ event ∈ tail, ∃ message, event = .raised message

section Functions

variable {kids : List (Tree ι)} {kid : Tree ι} {place : List Nat} {low : Nat} {expr : Expr W}

theorem evaluate_emits (emits : Emits stuck (evaluateValue expr) (Legal kid place)) :
    Emits stuck (evaluate expr) (Read kid place) := by
  refine emits.bind fun value events legal => ?_
  match value with
  | none => exact .pure ⟨none, events, [], rfl, legal, nofun, nofun⟩
  | some (.string text) => exact .pure ⟨_, events, [], rfl, legal, rfl, rfl⟩
  | some (.blob data) =>
    refine (errorAbort_emits _).weaken fun value more known => ?_
    obtain ⟨rfl, rfl⟩ := known
    refine ⟨_, events, _, rfl, legal, nofun, fun event member => ?_⟩
    exact ⟨_, mem_singleton.mp member⟩

theorem Read.fail {events : List Event} (above : low ≤ index) (found : kids[index]? = some kid)
    (read : Read kid (place ++ [index]) none events) : Visited kids place low true events := by
  obtain ⟨result, own, tail, rfl, legal, -, raised⟩ := read
  exact .fail above found legal raised

variable {text : Bytes}

theorem Read.next {events : List Event} {result : Option α} (above : low ≤ index)
    (found : kids[index]? = some kid) (read : Read kid (place ++ [index]) (some text) events)
    (rest : Body kids place (index + 1) result body) :
    Body kids place low result (events ++ body) := by
  obtain ⟨value, own, tail, rfl, legal, rfl, rfl⟩ := read
  obtain ⟨failed, visited, fails⟩ := rest
  refine ⟨failed, ?_, fails⟩
  rw [append_nil]
  exact .next above found legal nofun visited

/-- The expressions are operands, from number `index` on. -/
def Operands (stuck : Prop) (kids : List (Tree ι)) (place : List Nat) : Nat → List (Expr W) → Prop
  | _, [] => True
  | index, expr :: argv =>
    (∃ kid, kids[index]? = some kid ∧ Emits stuck (evaluateValue expr) (Legal kid (place ++ [index]))) ∧
      Operands stuck kids place (index + 1) argv

theorem Body.weaken {result : Option α} {result' : Option β}
    (evaluated : Body kids place low result body) (keeps : result = none → result' = none) :
    Body kids place low result' body := by
  obtain ⟨failed, visited, fails⟩ := evaluated
  exact ⟨failed, visited, fun wrong => keeps (fails wrong)⟩

theorem Read.ends {events : List Event} (above : low ≤ index) (found : kids[index]? = some kid)
    (read : Read kid (place ++ [index]) none events) :
    Body kids place low (none : Option α) events :=
  ⟨true, read.fail above found, fun _ => rfl⟩

theorem Body.done {result : Option α} : Body kids place low result [] :=
  ⟨false, .done _ _, nofun⟩

theorem Read.returns {events : List Event} {result : Option α} (above : low ≤ index)
    (found : kids[index]? = some kid) (read : Read kid (place ++ [index]) (some text) events) :
    Body kids place low result (events ++ []) :=
  read.next above found .done

variable {argv : List (Expr W)}

theorem Operands.read {rest : Bytes → Eval W (Option α)}
    (operands : Operands stuck kids place index (expr :: argv))
    (next : ∀ text, Emits stuck (rest text) (Body kids place (index + 1))) :
    Emits stuck (orNull (evaluate expr) rest) (Body kids place index) := by
  obtain ⟨⟨kid, found, emits⟩, -⟩ := operands
  refine (evaluate_emits emits).orNull (fun events read => read.ends le_rfl found)
    fun text events read => ?_
  exact (next text).weaken fun value more body => read.next le_rfl found body

theorem Body.orNull_emits {result : β → Option α} (emits : Emits stuck action (Body kids place index)) :
    Emits stuck (orNull action fun value => Pure.pure (result value)) (Body kids place index) := by
  refine emits.orNull (fun events body => body.weaken fun _ => rfl) fun value events body => .pure ?_
  rw [append_nil]
  exact body.weaken nofun

theorem readVarArgs_emits (operands : Operands stuck kids place index argv) :
    Emits stuck (readVarArgs argv) (Body kids place index) := by
  induction argv generalizing index with
  | nil => exact .pure .done
  | cons expr argv ih => exact operands.read fun text => Body.orNull_emits (ih operands.2)

theorem concatFn_emits (operands : Operands stuck kids place 0 argv) :
    Emits stuck (concatFn argv) (Body kids place 0) :=
  Body.orNull_emits (readVarArgs_emits operands)

theorem assertFn_emits (operands : Operands stuck kids place index argv) :
    Emits stuck (assertFn argv) (Body kids place index) := by
  induction argv generalizing index with
  | nil => exact .pure .done
  | cons expr argv ih =>
    refine operands.read fun text => ?_
    split
    · exact ih operands.2
    · exact .get fun state => .setError (.pure .done)

theorem stdoutFn_emits (operands : Operands stuck kids place index argv) :
    Emits stuck (stdoutFn argv) (Body kids place index) := by
  induction argv generalizing index with
  | nil => exact .pure .done
  | cons expr argv ih =>
    refine operands.read fun text => ?_
    exact @Emits.silent W _ _ _ (fun state => { state with stdout := state.stdout ++ text })
      (fun _ => rfl) _ (ih operands.2)

theorem abortFn_emits (operands : Operands stuck kids place 0 argv) :
    Emits stuck (abortFn argv) (Body kids place 0) := by
  cases argv with
  | nil => exact .setError (.pure .done)
  | cons expr argv =>
    obtain ⟨⟨kid, found, emits⟩, -⟩ := operands
    refine (evaluate_emits emits).bind fun text events read => .setError (.pure ?_)
    cases text with
    | none =>
      rw [append_nil]
      exact read.ends le_rfl found
    | some message => exact read.returns le_rfl found

theorem logicalNotFn_emits (operands : Operands stuck kids place 0 [expr]) :
    Emits stuck (logicalNotFn expr) (Body kids place 0) :=
  operands.read fun _ => .pure .done

variable {left right : Expr W}

theorem compareFn_emits
    (operands : Operands stuck kids place 0 (left :: right :: argv)) (holds : Bytes → Bytes → Bool) :
    Emits stuck (compareFn left right holds) (Body kids place 0) :=
  operands.read fun _ => Operands.read operands.2 fun _ => .pure .done

theorem Legal.last {events : List Event} (above : low ≤ index) (found : kids[index]? = some kid)
    (legal : Legal kid (place ++ [index]) result events) : Body kids place low result events := by
  rw [← append_nil events]
  cases result with
  | none => exact ⟨true, .fail above found legal nofun, fun _ => rfl⟩
  | some value => exact ⟨false, .next above found legal nofun (.done _ _), nofun⟩

theorem sequenceFn_emits (operands : Operands stuck kids place 0 [left, right]) :
    Emits stuck (sequenceFn left right) (Body kids place 0) := by
  obtain ⟨⟨kid, found, emits⟩, ⟨kid', found', emits'⟩, -⟩ := operands
  refine emits.orNull (fun events legal => legal.last le_rfl found) fun value events legal => ?_
  refine emits'.weaken fun result more legal' => ?_
  obtain ⟨failed, visited, fails⟩ := legal'.last le_rfl found'
  exact ⟨failed, .next le_rfl found legal nofun visited, fails⟩

/-! ## Conditions -/

variable {text : Option Bytes}

theorem Read.events {events : List Event} (read : Read kid place text events) :
    .enter place ∈ events ∧
      (∀ text', .exit place (some (.string text')) ∈ events ↔ text = some text') ∧
      ∀ event ∈ events, Within place event := by
  obtain ⟨result, own, tail, rfl, legal, meaning⟩ := read
  have raised : ∀ event ∈ tail, ∃ message, event = .raised message := by
    cases text with
    | none => exact meaning.2
    | some text => rw [meaning.2]; nofun
  refine ⟨mem_append_left _ legal.enters, fun text' => ?_, fun event member => ?_⟩
  · have early : .exit place (some (.string text')) ∈ own ++ tail ↔
        .exit place (some (.string text')) ∈ own :=
      ⟨fun member => mem_of_placed raised member rfl, mem_append_left _⟩
    rw [early, legal.exits]
    cases text with
    | none => exact ⟨fun same => absurd same.symm (meaning.1 text'), nofun⟩
    | some text =>
      rw [meaning.1]
      constructor
      · rintro same
        cases same
        rfl
      · rintro same
        cases same
        rfl
  · rcases mem_append.mp member with early | late
    · exact legal.inside event early
    · obtain ⟨message, rfl⟩ := raised event late
      exact fun _ known => nomatch known

/-- The operand that was evaluated after a condition. -/
inductive Picked (place : List Nat) : Option Nat → List Event → Prop where
  | none : Picked place none []
  | operand {index : Nat} {tree : Tree ι} {result : Option Value} {events : List Event}
      (later : index ≠ 0) (legal : Legal tree (place ++ [index]) result events) :
      Picked place (some index) events

variable {events more : List Event} {picked : Option Nat}

theorem Read.selected
    (read : Read kid (place ++ [0]) text events) (chosen : Picked (ι := ι) place picked more) :
    .enter (place ++ [0]) ∈ events ++ more ∧
      (∀ text', .exit (place ++ [0]) (some (.string text')) ∈ events ++ more ↔ text = some text') ∧
      ∀ index, index ≠ 0 → (.enter (place ++ [index]) ∈ events ++ more ↔ picked = some index) := by
  obtain ⟨enters, exits, inside⟩ := read.events
  refine ⟨mem_append_left _ enters, fun text' => ?_, fun index later => ?_⟩
  · rw [mem_append, ← exits]
    refine ⟨fun either => either.resolve_right fun late => ?_, .inl⟩
    cases chosen with
    | none => cases late
    | operand later legal =>
      exact later (index_of_shared (legal.inside _ late _ rfl) (prefix_refl _))
  have early : .enter (place ++ [index]) ∉ events := by
    intro member
    exact later (index_of_shared (prefix_refl _) (inside _ member _ rfl))
  rw [mem_append]
  cases chosen with
  | none => exact ⟨fun either => either.elim (absurd · early) nofun, nofun⟩
  | @operand other tree result events' later' legal =>
    constructor
    · rintro (wrong | late)
      · exact absurd wrong early
      · exact congrArg _ (index_of_shared (legal.inside _ late _ rfl) (prefix_refl _))
    · rintro same
      cases same
      exact .inr legal.enters

section Conditions

variable {left right : Tree ι} {first second : Expr W} {start stop : Nat} {onTrue onFalse : Option Nat}

/-- What a function does after its condition: it returns a value of its own, or what one of the
other operands yields. -/
inductive Picks (stuck : Prop) (kids : List (Tree ι)) (place : List Nat) :
    Option Nat → Eval W (Option Value) → Prop where
  | value (result : Option Value) : Picks stuck kids place none (Pure.pure result)
  | operand {index : Nat} {kid : Tree ι} {action : Eval W (Option Value)} (later : 0 < index)
      (found : kids[index]? = some kid) (emits : Emits stuck action (Legal kid (place ++ [index]))) :
      Picks stuck kids place (some index) action

/-- Of the operands after the condition just those have been evaluated that it selects. -/
def Conditional (place : List Nat) (onTrue onFalse : Option Nat) (events : List Event) : Prop :=
  .enter (place ++ [0]) ∈ events ∧ ∀ index, index ≠ 0 → (.enter (place ++ [index]) ∈ events ↔
      (onTrue = some index ∧ ∃ text, text ≠ [] ∧ .exit (place ++ [0]) (some (.string text)) ∈ events) ∨
      (onFalse = some index ∧ .exit (place ++ [0]) (some (.string [])) ∈ events))

/-- The picked operand belongs to what the condition yielded. -/
theorem Read.conditional
    (read : Read kid (place ++ [0]) text events) (chosen : Picked (ι := ι) place picked more)
    (meant : picked = text.bind fun text => if booleanString text then onTrue else onFalse) :
    Conditional place onTrue onFalse (events ++ more) := by
  obtain ⟨enters, exits, enters'⟩ := read.selected chosen
  refine ⟨enters, fun index later => ?_⟩
  rw [enters' index later, meant]
  simp only [exits]
  cases text with
  | none => simp
  | some text => by_cases empty : text = [] <;> simp [booleanString, empty]

theorem condition_emits {yes no : Bytes → Eval W (Option Value)} (found : kids[0]? = some kid)
    (emits : Emits stuck (evaluateValue expr) (Legal kid (place ++ [0])))
    (picks : ∀ text, Picks stuck kids place onTrue (yes text))
    (picks' : ∀ text, Picks stuck kids place onFalse (no text)) :
    Emits stuck (orNull (evaluate expr) fun text => if booleanString text then yes text else no text)
      fun result body => Body kids place 0 result body ∧ Conditional place onTrue onFalse body := by
  refine (evaluate_emits emits).orNull (fun events read => ?_) fun text events read => ?_
  · refine ⟨read.ends le_rfl found, ?_⟩
    rw [← append_nil events]
    exact read.conditional .none rfl
  have branch : ∀ {picked} {action : Eval W (Option Value)}, Picks stuck kids place picked action →
      (picked = if booleanString text then onTrue else onFalse) →
      Emits stuck action fun result more => Body kids place 0 result (events ++ more) ∧
        Conditional place onTrue onFalse (events ++ more) := by
    intro picked action picks meant
    cases picks with
    | value result =>
      exact .pure ⟨read.returns le_rfl found, read.conditional .none meant⟩
    | operand later found' emits' =>
      exact emits'.weaken fun result more legal => ⟨read.next le_rfl found
        (legal.last later found'), read.conditional (.operand later.ne' legal) meant⟩
  split
  next holds => exact branch (picks text) (if_pos holds).symm
  next fails => exact branch (picks' text) (if_neg fails).symm

theorem logicalAndFn_emits (operands : Operands stuck [left, right] place 0 [first, second]) :
    Emits stuck (logicalAndFn first second) fun result body =>
      Body [left, right] place 0 result body ∧
        Selects place body (.binary .and left right start stop) := by
  obtain ⟨⟨kid, found, emits⟩, ⟨kid', found', emits'⟩, -⟩ := operands
  refine (condition_emits found emits (fun _ => .operand Nat.one_pos found' emits')
    fun _ => .value _).weaken fun result body known => ⟨known.1, known.2.1, ?_⟩
  simpa using known.2.2 1 Nat.one_ne_zero

theorem logicalOrFn_emits (operands : Operands stuck [left, right] place 0 [first, second]) :
    Emits stuck (logicalOrFn first second) fun result body =>
      Body [left, right] place 0 result body ∧
        Selects place body (.binary .or left right start stop) := by
  obtain ⟨⟨kid, found, emits⟩, ⟨kid', found', emits'⟩, -⟩ := operands
  refine (condition_emits found emits (fun _ => .value _)
    fun _ => .operand Nat.one_pos found' emits').weaken
    fun result body known => ⟨known.1, known.2.1, ?_⟩
  simpa using known.2.2 1 Nat.one_ne_zero

theorem ifElseFn_emits (operands : Operands stuck kids place 0 argv) (count : argv.length = kids.length) :
    Emits stuck (ifElseFn argv) fun result body => Body kids place 0 result body ∧
      Selects place body (.call .ifelse kids start stop) := by
  unfold ifElseFn Selects
  split
  next cond yes =>
    obtain ⟨⟨kid, found, emits⟩, ⟨kid', found', emits'⟩, -⟩ := operands
    simp only [← count]
    refine (condition_emits found emits (fun _ => .operand Nat.one_pos found' emits')
      fun _ => .value _).weaken fun result body known => ⟨known.1, known.2.1, ?_, ?_⟩
    · simpa using known.2.2 1 Nat.one_ne_zero
    · simpa using known.2.2 2 (Nat.succ_ne_zero 1)
  next cond yes no =>
    obtain ⟨⟨kid, found, emits⟩, ⟨kid', found', emits'⟩, ⟨kid'', found'', emits''⟩, -⟩ := operands
    simp only [← count]
    refine (condition_emits found emits (fun _ => .operand Nat.one_pos found' emits')
      fun _ => .operand Nat.two_pos found'' emits'').weaken fun result body known =>
        ⟨known.1, known.2.1, ?_, ?_⟩
    · simpa using known.2.2 1 Nat.one_ne_zero
    · simpa using known.2.2 2 (Nat.succ_ne_zero 1)
  next two three =>
    have other : ¬ (kids.length = 2 ∨ kids.length = 3) := by
      rw [← count]
      rintro (length | length)
      · obtain ⟨cond, yes, rfl⟩ := length_eq_two.mp length
        exact two cond yes rfl
      · obtain ⟨cond, yes, no, rfl⟩ := length_eq_three.mp length
        exact three cond yes no rfl
    simp only [if_neg other]
    exact .setError (.pure ⟨.done, nofun⟩)

end Conditions

/-! ## Whole trees -/

/-- Every `is_substring` of the tree has its two arguments. -/
def Tree.Complete (tree : Tree ι) : Prop :=
  ∀ place argv start stop, tree.at place = some (.call .isSubstring argv start stop) →
    2 ≤ argv.length

theorem Tree.Complete.operand (complete : tree.Complete) (member : kid ∈ tree.kids) :
    kid.Complete := by
  intro place argv start stop known
  obtain ⟨index, found⟩ := mem_iff_getElem?.mp member
  refine complete (index :: place) argv start stop ?_
  rw [Tree.at, found]
  exact known

theorem substringFn_emits (operands : Operands stuck kids place 0 argv)
    (short : argv.length < 2 → stuck) : Emits stuck (substringFn argv) (Body kids place 0) := by
  cases argv with
  | nil => exact .stop (short Nat.two_pos)
  | cons needle argv =>
    cases argv with
    | nil => exact operands.read fun _ => .stop (short Nat.one_lt_two)
    | cons haystack argv => exact compareFn_emits operands _

theorem evaluateValue_emits {start stop : Nat} {fn : Eval W (Option Value)}
    (emits : Emits stuck fn fun result body => Body tree.kids place 0 result body ∧
      Selects place body tree) :
    Emits stuck (evaluateValue ⟨place, fn, start, stop⟩) (Legal tree place) := by
  refine .record (emits.bind fun result body known => .record (.pure ?_))
  exact .node known.1 known.2

theorem legal_leaf (fn : ι) (start stop : Nat) (place : List Nat) (result : Option Value) :
    Legal (.leaf fn start stop) place result [.enter place, .called place, .exit place result] := by
  refine ⟨mem_cons_self, fun other => ?_, fun event member below known => ?_, ?_, fun value => ?_,
    ?_, fun below node found _ => ?_⟩
  · simp
  · have same : event.place? = some place := by
      rcases mem_cons.mp member with rfl | member
      · rfl
      · rcases mem_cons.mp member with rfl | member
        · rfl
        · rw [mem_singleton.mp member]
          rfl
    cases same.symm.trans known
    exact prefix_refl _
  · exact nodup_singleton place
  · intro other member
    simp [eq_comm, value] at member
  · cases result with
    | none =>
      refine ⟨[.enter place, .called place], [.exit place none], rfl, fun other member => ?_,
        fun event member => .inl ⟨place, mem_singleton.mp member⟩⟩
      simp at member
    | some value =>
      refine Quiet.halts fun other member => ?_
      simp at member
  · cases below with
    | nil =>
      cases found
      trivial
    | cons index below => cases found

theorem callLeaf_emits (fn : LeafFn W) (place : List Nat) :
    Emits stuck (callLeaf place fn) fun _ events => events = [.called place] := by
  intro state
  exact .inr ⟨(fn state.errmsg state.world).1, _, [.called place], rfl, rfl, rfl⟩

end Functions

theorem Tree.length_exprs (leaf : ι → LeafFn W) (place : List Nat) (index : Nat)
    (argv : List (Tree ι)) : (exprs leaf place index argv).length = argv.length := by
  induction argv generalizing index with
  | nil => rfl
  | cons tree argv ih => rw [exprs, length_cons, length_cons, ih]

mutual

theorem Tree.legal (leaf : ι → LeafFn W) (tree : Tree ι) (place : List Nat)
    (short : ¬ tree.Complete → stuck) :
    Emits stuck (evaluateValue (tree.expr leaf place)) (Legal tree place) := by
  have below : ∀ kid ∈ tree.kids, ¬ kid.Complete → stuck := fun kid member lacks =>
    short fun complete => lacks (complete.operand member)
  cases tree with
  | literal name start stop =>
    exact evaluateValue_emits (.pure ⟨.done, trivial⟩)
  | leaf fn start stop =>
    refine .record ((callLeaf_emits (leaf fn) place).bind fun result events known => ?_)
    subst known
    exact .record (.pure (legal_leaf fn start stop place result))
  | not operand start stop =>
    have inner := legal leaf operand (place ++ [0]) (below _ mem_cons_self)
    have operands : Operands stuck [operand] place 0 [operand.expr leaf (place ++ [0])] :=
      ⟨⟨operand, rfl, inner⟩, trivial⟩
    exact evaluateValue_emits ((logicalNotFn_emits operands).weaken fun _ _ body => ⟨body, trivial⟩)
  | binary op left right start stop =>
    have first := legal leaf left (place ++ [0]) (below _ mem_cons_self)
    have second := legal leaf right (place ++ [1]) (below _ (mem_cons_of_mem _ mem_cons_self))
    have operands : Operands stuck [left, right] place 0
        [left.expr leaf (place ++ [0]), right.expr leaf (place ++ [1])] :=
      ⟨⟨left, rfl, first⟩, ⟨right, rfl, second⟩, trivial⟩
    refine evaluateValue_emits ?_
    cases op with
    | concat => exact (concatFn_emits operands).weaken fun _ _ body => ⟨body, trivial⟩
    | equality => exact (compareFn_emits operands _).weaken fun _ _ body => ⟨body, trivial⟩
    | inequality => exact (compareFn_emits operands _).weaken fun _ _ body => ⟨body, trivial⟩
    | and => exact logicalAndFn_emits operands
    | or => exact logicalOrFn_emits operands
    | sequence => exact (sequenceFn_emits operands).weaken fun _ _ body => ⟨body, trivial⟩
  | call fn argv start stop =>
    have operands := legal_operands leaf argv place argv 0
      (fun index kid found => by rwa [Nat.zero_add]) below
    refine evaluateValue_emits ?_
    cases fn with
    | ifelse => exact ifElseFn_emits operands (length_exprs leaf place 0 argv)
    | abort => exact (abortFn_emits operands).weaken fun _ _ body => ⟨body, trivial⟩
    | assert => exact (assertFn_emits operands).weaken fun _ _ body => ⟨body, trivial⟩
    | concat => exact (concatFn_emits operands).weaken fun _ _ body => ⟨body, trivial⟩
    | isSubstring =>
      refine (substringFn_emits operands fun few => ?_).weaken fun _ _ body => ⟨body, trivial⟩
      rw [length_exprs] at few
      exact short fun complete => absurd (complete [] argv start stop rfl) (Nat.not_le.mpr few)
    | stdout => exact (stdoutFn_emits operands).weaken fun _ _ body => ⟨body, trivial⟩

theorem Tree.legal_operands (leaf : ι → LeafFn W) (argv : List (Tree ι)) (place : List Nat)
    (kids : List (Tree ι)) (index : Nat)
    (behind : ∀ number kid, argv[number]? = some kid → kids[index + number]? = some kid)
    (short : ∀ kid ∈ argv, ¬ kid.Complete → stuck) :
    Operands stuck kids place index (exprs leaf place index argv) := by
  cases argv with
  | nil => trivial
  | cons tree argv =>
    refine ⟨⟨tree, behind 0 tree rfl, ?_⟩, ?_⟩
    · exact legal leaf tree _ (short tree mem_cons_self)
    · refine legal_operands leaf argv place kids (index + 1) (fun number kid found => ?_)
        (forall_mem_cons.mp short).2
      have later := behind (number + 1) kid found
      rwa [Nat.add_comm number 1, ← Nat.add_assoc] at later

end

/-- After a `NULL` there are only others. -/
theorem Halts.after_null {events front back : List Event} (halts : Halts events)
    (split : events = front ++ .exit place none :: back) : Dying back := by
  obtain ⟨before, after, joined, quiet, dying⟩ := halts
  rw [split] at joined
  rcases append_eq_append_iff.mp joined with ⟨rest, rfl, same⟩ | ⟨rest, rfl, same⟩
  · -- the `NULL` would be among the quiet events
    cases rest with
    | nil =>
      rw [nil_append] at same
      exact fun event member => dying event (same ▸ mem_cons_of_mem _ member)
    | cons event rest =>
      cases same
      exact absurd (mem_append_right _ mem_cons_self) (quiet place)
  · intro event member
    refine dying event ?_
    rw [same]
    exact mem_append_right _ (mem_cons_of_mem _ member)

/-- The message of `abort`, also when its own evaluation fails. -/
theorem abort_message (leaf : ι → LeafFn W) (argv : List (Tree ι)) (start stop : Nat)
    (place : List Nat) (state : State W) :
    evaluateValue ((call .abort argv start stop).expr leaf place) state = none ∨
    ∃ after events message, evaluateValue ((call .abort argv start stop).expr leaf place) state =
        some (none, after) ∧ after.events = state.events ++ events ∧ after.errmsg = some message ∧
      (∀ text, .exit (place ++ [0]) (some (.string text)) ∈ events → message = text) ∧
      ((∀ text, .exit (place ++ [0]) (some (.string text)) ∉ events) →
        message = ascii "called abort()") := by
  cases argv with
  | nil =>
    refine .inr ⟨_, [.enter place, .exit place none], _, rfl, ?_, rfl, fun text member => ?_,
      fun _ => rfl⟩
    · exact append_assoc _ _ _
    · simp at member
  | cons tree argv =>
    have outside : evaluateValue ((call .abort (tree :: argv) start stop).expr leaf place) state =
        (evaluate (tree.expr leaf (place ++ [0]))
          { state with events := state.events ++ [.enter place] }).bind fun read =>
            some (none, { read.2 with
              errmsg := some (read.1.getD (ascii "called abort()"))
              events := read.2.events ++ [.exit place none] }) := by
      change Option.bind (Option.bind _ _) _ = _
      rw [Option.bind_assoc]
      rfl
    have inner : Emits True (evaluate (tree.expr leaf (place ++ [0]))) (Read tree (place ++ [0])) :=
      evaluate_emits (legal leaf tree _ fun _ => trivial)
    rw [outside]
    rcases inner { state with events := state.events ++ [.enter place] } with
      ⟨ended, -⟩ | ⟨text, between, events, ran, added, read⟩
    · exact .inl (by rw [ended, Option.bind_none])
    rw [ran, Option.bind_some]
    obtain ⟨-, exits, -⟩ := read.events
    have outer : ∀ text', .exit (place ++ [0]) (some (.string text')) ∈
        .enter place :: (events ++ [.exit place none]) ↔ text = some text' := by
      intro text'
      rw [← exits text']
      simp
    refine .inr ⟨_, .enter place :: (events ++ [.exit place none]), _, rfl, ?_, rfl,
      fun text' member => ?_, fun none => ?_⟩
    · rw [added]
      simp
    · rw [(outer text').mp member]
      rfl
    · cases text with
      | none => rfl
      | some text => exact absurd ((outer text).mpr rfl) (none text)

/-- Evaluating a tree.  It does not return only if a call of `is_substring` lacks an argument.  In
every evaluation that returns, once an expression has yielded `NULL`, nothing more is called or
entered and the root yields `NULL`; no expression is evaluated twice, and the conditions select the
operands.  An `abort` always leaves its message. -/
theorem edify_fails_and_selects (leaf : ι → LeafFn W) (tree : Tree ι) (place : List Nat)
    (state : State W) :
    (evaluateValue (tree.expr leaf place) state = none ∧ ¬ tree.Complete) ∨
    ∃ result after events, evaluateValue (tree.expr leaf place) state = some (result, after) ∧
      after.events = state.events ++ events ∧
      (∀ front failed back, events = front ++ .exit failed none :: back →
        result = none ∧ ∀ other, .called other ∉ back ∧ .enter other ∉ back) ∧
      (entered events).Nodup ∧
      (∀ below node, tree.at below = some node → .enter (place ++ below) ∈ events →
        Selects (place ++ below) events node) ∧
      (∀ argv start stop, tree = .call .abort argv start stop →
        result = none ∧ ∃ message, after.errmsg = some message ∧
          (∀ text, .exit (place ++ [0]) (some (.string text)) ∈ events → message = text) ∧
          ((∀ text, .exit (place ++ [0]) (some (.string text)) ∉ events) →
            message = ascii "called abort()")) := by
  refine (legal leaf tree place id state).imp_right ?_
  rintro ⟨result, after, events, ran, added, legal⟩
  refine ⟨result, after, events, ran, added, fun front failed back split => ⟨?_, fun other => ?_⟩,
    legal.once, legal.selects, ?_⟩
  · by_contra value
    refine legal.quiet value failed ?_
    rw [split]
    exact mem_append_right _ mem_cons_self
  · have dying := legal.halts.after_null split
    constructor
    · intro member
      rcases dying _ member with ⟨place, wrong⟩ | ⟨message, wrong⟩ <;> cases wrong
    · intro member
      rcases dying _ member with ⟨place, wrong⟩ | ⟨message, wrong⟩ <;> cases wrong
  rintro argv start stop rfl
  rcases abort_message leaf argv start stop place state with
    ended | ⟨after', events', message, ran', added', rest⟩
  · cases ran.symm.trans ended
  cases ran.symm.trans ran'
  cases append_cancel_left (added.symm.trans added')
  exact ⟨rfl, message, rest⟩

def sampleState : State Unit := ⟨[], none, [], (), []⟩

def failingLeaf : Unit → LeafFn Unit := fun _ errmsg world => (none, errmsg, world)

/-- `is_substring("a")` reads the argument that is not there. -/
theorem substring_reads_outside :
    evaluateValue ((call .isSubstring [.literal (ascii "a") 13 16] 0 17 : Tree Unit).expr
      failingLeaf []) sampleState = none := rfl

end PhilzTouch.Edify
