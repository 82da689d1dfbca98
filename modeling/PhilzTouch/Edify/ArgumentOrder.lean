import PhilzTouch.Edify.Integers

/-!
# The order of arguments

Every argument of a call is given a number, and a log is kept of the arguments that are evaluated,
whatever their own effects are.  The functions of `edify/expr.c` evaluate them from left to right,
except for `greater_than_int`, which hands its arguments to `less_than_int` the other way round.
-/

namespace PhilzTouch.Edify

variable {W α β : Type}

/-- The functions of `expr.c` that have arguments. -/
inductive Function where
  | builtin (fn : Builtin)
  | operator (op : BinaryOp)
  | not
  | sleep
  | lessThanInt
  | greaterThanInt
  deriving DecidableEq, Repr

/-- What a call does.  The parser gives an operator as many operands as it takes. -/
def Function.fn : Function → List (Expr W) → Eval W (Option Value)
  | .builtin fn, argv => fn.fn argv
  | .operator op, [left, right] => op.fn left right
  | .operator _, _ => failure
  | .not, [operand] => logicalNotFn operand
  | .not, _ => failure
  | .sleep, argv => sleepFn argv
  | .lessThanInt, argv => lessThanIntFn argv
  | .greaterThanInt, argv => greaterThanIntFn argv

/-- The loop of `ReadArgs` and `ReadValueArgs`, which go on behind the array if there are fewer
arguments than they are told. -/
def readCount (read : Expr W → Eval W (Option α)) : Nat → List (Expr W) → Eval W (Option (List α))
  | 0, _ => return some []
  | _ + 1, [] => failure
  | count + 1, expr :: argv =>
    orNull (read expr) fun value =>
      orNull (readCount read count argv) fun values => return some (value :: values)

def readArgs : Nat → List (Expr W) → Eval W (Option (List Bytes)) := readCount evaluate

def readValueArgs : Nat → List (Expr W) → Eval W (Option (List Value)) := readCount evaluateValue

/-! ## The log -/

/-- The world and the numbers of the arguments that have been evaluated. -/
abbrev Logged (W : Type) := W × List Nat

def State.log (state : State (Logged W)) : List Nat := state.world.2

/-- A state without its log, and with one. -/
def State.bare (state : State (Logged W)) : State W :=
  ⟨state.script, state.errmsg, state.stdout, state.world.1, state.events⟩

def State.withLog (state : State W) (log : List Nat) : State (Logged W) :=
  ⟨state.script, state.errmsg, state.stdout, (state.world, log), state.events⟩

/-- A computation that is entered in the log under a number. -/
def logging (index : Nat) (action : Eval W α) : Eval (Logged W) α := fun state =>
  (action state.bare).map fun done => (done.1, done.2.withLog (state.log ++ [index]))

/-- An argument that logs its evaluation. -/
def number (index : Nat) (expr : Expr W) : Expr (Logged W) :=
  ⟨expr.place, logging index expr.fn, expr.start, expr.stop⟩

/-- Arguments with their numbers, from `index` on. -/
def numbered : (index : Nat) → List (Expr W) → List (Expr (Logged W))
  | _, [] => []
  | index, expr :: argv => number index expr :: numbered (index + 1) argv

variable {index low : Nat} {expr : Expr W} {argv : List (Expr W)}

theorem evaluateValue_number :
    evaluateValue (number index expr) = logging index (evaluateValue expr) := by
  funext state
  change ((expr.fn { state.bare with events := state.events ++ [.enter expr.place] }).map
      fun done => (done.1, done.2.withLog (state.log ++ [index]))).bind _ =
    Option.map _ ((expr.fn { state.bare with events := state.events ++ [.enter expr.place] }).bind _)
  generalize expr.fn { state.bare with events := state.events ++ [.enter expr.place] } = ran
  cases ran with
  | none => rfl
  | some done => rfl

theorem evaluate_number : evaluate (number index expr) = logging index (evaluate expr) := by
  funext state
  change (evaluateValue (number index expr) state).bind _ =
    Option.map _ ((evaluateValue expr state.bare).bind _)
  rw [evaluateValue_number, logging]
  rcases evaluateValue expr state.bare with _ | ⟨_ | text | data, after⟩
  · rfl
  · rfl
  · rfl
  · rfl

variable {action : Eval W (Option β)} {rest : β → Eval (Logged W) (Option α)}

theorem orNull_logging (state : State (Logged W)) :
    orNull (logging index action) rest state = (action state.bare).bind fun done =>
      done.1.elim (some (none, done.2.withLog (state.log ++ [index]))) fun value =>
        rest value (done.2.withLog (state.log ++ [index])) := by
  change ((action state.bare).map _).bind _ = _
  rcases action state.bare with _ | ⟨_ | value, after⟩
  · rfl
  · rfl
  · rfl

/-! ## Reading from left to right -/

/-- Numbers from `low` on, in increasing order. -/
def Increasing (low : Nat) (numbers : List Nat) : Prop :=
  numbers.Pairwise (· < ·) ∧ ∀ number ∈ numbers, low ≤ number

theorem Increasing.nil (low : Nat) : Increasing low [] := ⟨.nil, nofun⟩

theorem Increasing.cons {numbers : List Nat} (above : low ≤ index)
    (later : Increasing (index + 1) numbers) : Increasing low ([index] ++ numbers) := by
  refine ⟨List.pairwise_cons.mpr ⟨later.2, later.1⟩, fun number member => ?_⟩
  rcases List.mem_cons.mp member with rfl | behind
  · exact above
  · have := later.2 number behind
    omega

/-- Whenever the computation returns, it has logged increasing numbers from `low` on. -/
def Reads (low : Nat) (action : Eval (Logged W) α) : Prop :=
  ∀ state value after, action state = some (value, after) →
    ∃ added, after.log = state.log ++ added ∧ Increasing low added

namespace Reads

theorem pure (value : α) : Reads low (Pure.pure value : Eval (Logged W) α) := by
  intro state value' after ran
  cases ran
  exact ⟨[], (List.append_nil _).symm, .nil low⟩

theorem failure : Reads low (failure : Eval (Logged W) α) := nofun

theorem silent {change : State (Logged W) → State (Logged W)} {rest : PUnit → Eval (Logged W) α}
    (same : ∀ state, (change state).world = state.world) (reads : Reads low (rest ⟨⟩)) :
    Reads low (modify change >>= rest) := by
  intro state value after ran
  obtain ⟨added, grown, increasing⟩ := reads (change state) value after ran
  exact ⟨added, by rw [grown, State.log, State.log, same], increasing⟩

theorem get {rest : State (Logged W) → Eval (Logged W) α} (reads : ∀ state, Reads low (rest state)) :
    Reads low (MonadState.get >>= rest) :=
  fun state => reads state state

/-- After the last argument nothing is logged any more. -/
theorem after {action : Eval (Logged W) β} {rest : β → Eval (Logged W) α} (reads : Reads low action)
    (silent : ∀ value state result after, rest value state = some (result, after) →
      after.log = state.log) : Reads low (action >>= rest) := by
  intro state result after ran
  obtain ⟨⟨value, between⟩, ran, ran'⟩ := Option.bind_eq_some_iff.mp ran
  rw [silent value between result after ran']
  exact reads state value between ran

theorem map {action : Eval (Logged W) (Option β)} (reads : Reads low action) (function : β → α) :
    Reads low (orNull action fun value => return some (function value)) := by
  refine reads.after fun value state result after ran => ?_
  cases value with
  | none => cases ran; rfl
  | some value => cases ran; rfl

theorem logging {action : Eval W α} (above : low ≤ index) : Reads low (logging index action) := by
  intro state value after ran
  obtain ⟨done, ran, same⟩ := Option.map_eq_some_iff.mp ran
  cases same
  exact ⟨[index], rfl, .cons above (.nil _)⟩

section

variable (above : low ≤ index)

include above

theorem last : Reads low (evaluateValue (number index expr)) := by
  rw [evaluateValue_number]
  exact .logging above

/-- An argument, and what follows it unless it is `NULL`. -/
theorem next (reads : ∀ value, Reads (index + 1) (rest value)) :
    Reads low (orNull (Edify.logging index action) rest) := by
  intro state value after ran
  rw [orNull_logging] at ran
  obtain ⟨⟨_ | value', between⟩, ran, ran'⟩ := Option.bind_eq_some_iff.mp ran
  · cases ran'
    exact ⟨[index], rfl, .cons above (.nil _)⟩
  · obtain ⟨more, grown, increasing⟩ := reads value' _ value after ran'
    exact ⟨[index] ++ more, by rw [grown, ← List.append_assoc]; rfl, .cons above increasing⟩

/-- A string argument, and what follows it unless it is `NULL`. -/
theorem text {rest : Bytes → Eval (Logged W) (Option α)}
    (reads : ∀ value, Reads (index + 1) (rest value)) :
    Reads low (orNull (evaluate (number index expr)) rest) := by
  rw [evaluate_number]
  exact next above reads

theorem value {rest : Value → Eval (Logged W) (Option α)}
    (reads : ∀ value, Reads (index + 1) (rest value)) :
    Reads low (orNull (evaluateValue (number index expr)) rest) := by
  rw [evaluateValue_number]
  exact next above reads

end

theorem readCount {read : Expr (Logged W) → Eval (Logged W) (Option α)}
    (reads : ∀ {index expr} {rest : α → Eval (Logged W) (Option (List α))},
      (∀ value, Reads (index + 1) (rest value)) →
        Reads index (orNull (read (number index expr)) rest)) (count : Nat) :
    Reads index (readCount read count (numbered index argv)) := by
  induction count generalizing index argv with
  | zero => exact .pure _
  | succ count ih =>
    cases argv with
    | nil => exact .failure
    | cons expr argv => exact reads fun value => ih.map _

theorem readValueVarArgs : Reads index (readValueVarArgs (numbered index argv)) := by
  induction argv generalizing index with
  | nil => exact .pure _
  | cons expr argv ih => exact .value le_rfl fun value => ih.map _

theorem readVarArgs : Reads index (readVarArgs (numbered index argv)) := by
  induction argv generalizing index with
  | nil => exact .pure _
  | cons expr argv ih => exact .text le_rfl fun text => ih.map _

theorem assertFn : Reads index (assertFn (numbered index argv)) := by
  induction argv generalizing index with
  | nil => exact .pure _
  | cons expr argv ih =>
    refine .text le_rfl fun text => ?_
    split
    · exact ih
    · exact .get fun state => silent (fun _ => rfl) (.pure none)

theorem stdoutFn : Reads index (stdoutFn (numbered index argv)) := by
  induction argv generalizing index with
  | nil => exact .pure _
  | cons expr argv ih => exact .text le_rfl fun text => silent (fun _ => rfl) ih

theorem compareFn {left right : Expr W} (holds : Bytes → Bytes → Bool) :
    Reads 0 (compareFn (number 0 left) (number 1 right) holds) :=
  .text le_rfl fun _ => .text le_rfl fun _ => .pure _

end Reads

/-- Comparing two texts returns something and leaves the log alone. -/
theorem compareInts_log (left right : Bytes) (state : State (Logged W)) :
    ∃ value after, compareInts left right state = some (value, after) ∧ after.log = state.log := by
  have reads : ∀ text (state : State (Logged W)), ∃ value after,
      readInt text state = some (value, after) ∧ after.log = state.log := by
    intro text state
    unfold readInt
    split
    · exact ⟨_, _, rfl, rfl⟩
    · exact ⟨_, _, rfl, rfl⟩
  obtain ⟨value, between, ran, same⟩ := reads left state
  change ∃ value after, (readInt left state).bind _ = some (value, after) ∧ _
  rw [ran]
  cases value with
  | none => exact ⟨_, _, rfl, same⟩
  | some value =>
    obtain ⟨value', after, ran', same'⟩ := reads right between
    change ∃ value after, (readInt right between).bind _ = some (value, after) ∧ _
    rw [ran']
    cases value' with
    | none => exact ⟨_, _, rfl, same'.trans same⟩
    | some value' => exact ⟨_, _, rfl, same'.trans same⟩

theorem Reads.compareInts (left right : Bytes) :
    Reads low (compareInts left right : Eval (Logged W) (Option Value)) := by
  intro state value after ran
  obtain ⟨value', after', ran', same⟩ := compareInts_log left right state
  rw [ran] at ran'
  cases ran'
  exact ⟨[], by rw [same, List.append_nil], .nil low⟩

/-! ## The functions -/

theorem BinaryOp.reads (op : BinaryOp) (left right : Expr W) :
    Reads 0 (op.fn (number 0 left) (number 1 right)) := by
  cases op with
  | concat => exact (@Reads.readVarArgs W 0 [left, right]).map _
  | equality => exact .compareFn _
  | inequality => exact .compareFn _
  | and =>
    refine .text le_rfl fun text => ?_
    split
    · exact .last le_rfl
    · exact .pure _
  | or =>
    refine .text le_rfl fun text => ?_
    split
    · exact .pure _
    · exact .last le_rfl
  | sequence => exact .value le_rfl fun _ => .last le_rfl

theorem Builtin.reads (fn : Builtin) (argv : List (Expr W)) :
    Reads 0 (fn.fn (numbered 0 argv)) := by
  cases fn with
  | ifelse =>
    match argv with
    | [cond, yes] =>
      refine .text le_rfl fun text => ?_
      split
      · exact .last le_rfl
      · exact .pure _
    | [cond, yes, no] =>
      refine .text le_rfl fun text => ?_
      split
      · exact .last le_rfl
      · exact .last (Nat.le_succ _)
    | [] => exact .silent (fun _ => rfl) (.pure _)
    | [_] => exact .silent (fun _ => rfl) (.pure _)
    | _ :: _ :: _ :: _ :: _ => exact .silent (fun _ => rfl) (.pure _)
  | abort =>
    cases argv with
    | nil => exact .silent (fun _ => rfl) (.pure _)
    | cons expr argv =>
      change Reads 0 (evaluate (number 0 expr) >>= _)
      rw [evaluate_number]
      exact (Reads.logging le_rfl).after fun _ _ _ _ ran => by cases ran; rfl
  | assert => exact .assertFn
  | concat => exact Reads.readVarArgs.map _
  | isSubstring =>
    match argv with
    | [] => exact .failure
    | [_] => exact .text le_rfl fun _ => .failure
    | _ :: _ :: _ => exact .compareFn _
  | stdout => exact .stdoutFn

/-- Whatever its arguments do, the call evaluates them from left to right, each at most once. -/
def LeftToRight (call : List (Expr (Logged W)) → Eval (Logged W) α) (argv : List (Expr W))
    (state : State W) : Prop :=
  ∀ value after, call (numbered 0 argv) (state.withLog []) = some (value, after) →
    after.log.Pairwise (· < ·)

/-- The second argument of `greater_than_int` is a string, so that the first is evaluated after
it. -/
def Reversed (fn : Function) (argv : List (Expr W)) (state : State W) : Prop :=
  fn = .greaterThanInt ∧ ∃ left right text between, argv = [left, right] ∧
    evaluate right state = some (some text, between) ∧ evaluate left between ≠ none

theorem Reads.leftToRight {call : List (Expr (Logged W)) → Eval (Logged W) α} {state : State W}
    (reads : Reads 0 (call (numbered 0 argv))) : LeftToRight call argv state := by
  intro value after ran
  obtain ⟨added, grown, increasing⟩ := reads _ value after ran
  rw [grown]
  exact increasing.1

/-- `greater_than_int` with two arguments, as far as it gets. -/
theorem greaterThanInt_leftToRight (left right : Expr W) (state : State W) :
    LeftToRight Function.greaterThanInt.fn [left, right] state ↔
      ¬ ∃ text between, evaluate right state = some (some text, between) ∧
        evaluate left between ≠ none := by
  have ran : Function.greaterThanInt.fn (numbered 0 [left, right]) (state.withLog []) =
      (evaluate right state).bind fun done =>
        done.1.elim (some (none, done.2.withLog [1])) fun text =>
          (evaluate left done.2).bind fun done' =>
            done'.1.elim (some (none, done'.2.withLog [1, 0])) fun text' =>
              compareInts text text' (done'.2.withLog [1, 0]) := by
    change orNull (evaluate (number 1 right)) (fun text => orNull (evaluate (number 0 left))
      fun text' => compareInts text text') _ = _
    rw [evaluate_number, evaluate_number, orNull_logging]
    simp only [orNull_logging]
    rfl
  rw [LeftToRight, ran]
  rcases evaluate right state with _ | ⟨_ | text, between⟩
  · exact iff_of_true nofun nofun
  · refine iff_of_true (fun value after ended => ?_) nofun
    cases ended
    exact List.pairwise_singleton _ _
  rcases again : evaluate left between with _ | ⟨_ | text', after⟩
  · refine iff_of_true (fun value after ended => ?_) ?_
    · simp [again] at ended
    · rintro ⟨_, _, ⟨⟩, returned⟩
      exact returned again
  · refine iff_of_false (fun ordered => ?_) fun none => none ⟨text, between, rfl, by simp [again]⟩
    have reversed := ordered none (after.withLog [1, 0]) (by simp [again])
    exact absurd reversed (show ¬ List.Pairwise (· < ·) [1, 0] by decide)
  · refine iff_of_false (fun ordered => ?_) fun none => none ⟨text, between, rfl, by simp [again]⟩
    obtain ⟨value, last, compared, same⟩ := compareInts_log text text' (after.withLog [1, 0])
    have reversed := ordered value last (by simp [again, compared])
    rw [same] at reversed
    exact absurd reversed (show ¬ List.Pairwise (· < ·) [1, 0] by decide)

theorem Function.leftToRight_iff_not_reversed (fn : Function) (argv : List (Expr W))
    (state : State W) : LeftToRight fn.fn argv state ↔ ¬ Reversed fn argv state := by
  have other : fn ≠ .greaterThanInt → Reads 0 (fn.fn (numbered 0 argv)) →
      (LeftToRight fn.fn argv state ↔ ¬ Reversed fn argv state) := fun different reads =>
    iff_of_true reads.leftToRight fun reversed => different reversed.1
  cases fn with
  | greaterThanInt =>
    match argv with
    | [left, right] =>
      rw [greaterThanInt_leftToRight, Reversed]
      simp
    | [] => exact iff_of_true (Reads.leftToRight (.silent (fun _ => rfl) (.pure _))) nofun
    | [_] => exact iff_of_true (Reads.leftToRight (.silent (fun _ => rfl) (.pure _))) nofun
    | _ :: _ :: _ :: _ =>
      exact iff_of_true (Reads.leftToRight (.silent (fun _ => rfl) (.pure _))) nofun
  | builtin fn => exact other nofun (fn.reads argv)
  | operator op =>
    refine other nofun ?_
    match argv with
    | [left, right] => exact op.reads left right
    | [] => exact .failure
    | [_] => exact .failure
    | _ :: _ :: _ :: _ => exact .failure
  | not =>
    refine other nofun ?_
    match argv with
    | [operand] => exact .text le_rfl fun _ => .pure _
    | [] => exact .failure
    | _ :: _ :: _ => exact .failure
  | sleep =>
    refine other nofun ?_
    match argv with
    | [] => exact .failure
    | _ :: _ => exact .text le_rfl fun _ => .pure _
  | lessThanInt =>
    refine other nofun ?_
    match argv with
    | [left, right] =>
      exact .text le_rfl fun _ => .text le_rfl fun _ => .compareInts _ _
    | [] => exact .silent (fun _ => rfl) (.pure _)
    | [_] => exact .silent (fun _ => rfl) (.pure _)
    | _ :: _ :: _ :: _ => exact .silent (fun _ => rfl) (.pure _)

/-- The functions of `expr.c` evaluate their arguments from left to right, but for
`greater_than_int` if its second argument evaluates to a string. -/
theorem leftToRight_iff (fn : Function) (argv : List (Expr W)) (state : State W) (count : Nat) :
    (LeftToRight fn.fn argv state ↔ ¬ Reversed fn argv state) ∧
      LeftToRight (readArgs count) argv state ∧ LeftToRight (readValueArgs count) argv state ∧
      LeftToRight readVarArgs argv state ∧ LeftToRight readValueVarArgs argv state := by
  refine ⟨fn.leftToRight_iff_not_reversed argv state, Reads.leftToRight ?_, Reads.leftToRight ?_,
    Reads.readVarArgs.leftToRight, Reads.readValueVarArgs.leftToRight⟩
  · exact .readCount (fun reads => .text le_rfl reads) count
  · exact .readCount (fun reads => .value le_rfl reads) count

/-- `greater_than_int("1", "2")` evaluates the `"2"` first. -/
theorem greater_than_int_reversed : ¬ LeftToRight Function.greaterThanInt.fn
      [literalExpr (ascii "1"), literalExpr (ascii "2")] ⟨[], none, [], (), []⟩ := by
  rw [greaterThanInt_leftToRight, not_not]
  exact ⟨ascii "2", _, rfl, nofun⟩

end PhilzTouch.Edify
