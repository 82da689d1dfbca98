import Mathlib.Logic.Basic

/-!
# Programs against a machine that may be cut off

A program requests operations and continues with the replies.  A machine says what an
operation does, for each choice its environment makes: whether the call fails, how
much it transfers.  A run is cut off when the choices end, so that the states reached
by all finite lists of choices are all intermediate states.

`Runs` is the program logic: an invariant that holds after every operation, a postcondition for
the value returned, and whether the program may be stuck.
-/

namespace PhilzTouch

open List

variable {Op : Type} {Reply : Op → Type} {α β γ : Type}

/-- A program that requests operations of a machine. -/
inductive Prog (Op : Type) (Reply : Op → Type) (α : Type) : Type where
  /-- The program returns. -/
  | ret (value : α)
  /-- The program is stuck: it never returns, or nothing is known about it any more. -/
  | stop
  /-- The program requests an operation and goes on with the reply. -/
  | request (op : Op) (next : Reply op → Prog Op Reply α)

variable {op : Op} {rest : Reply op → Prog Op Reply α}

namespace Prog

/-- Run a program, then go on with its value. -/
def bind : Prog Op Reply α → (α → Prog Op Reply β) → Prog Op Reply β
  | ret value, rest => rest value
  | stop, _ => stop
  | request op next, rest => request op fun reply => (next reply).bind rest

instance : Monad (Prog Op Reply) where
  pure := ret
  bind := bind

def call (op : Op) : Prog Op Reply (Reply op) := request op ret

@[simp] theorem ret_bind (value : α) (rest : α → Prog Op Reply β) :
    ret value >>= rest = rest value := rfl

theorem bind_assoc (program : Prog Op Reply α) (middle : α → Prog Op Reply β)
    (rest : β → Prog Op Reply γ) :
    program >>= middle >>= rest = program >>= fun value => middle value >>= rest := by
  change (program.bind middle).bind rest = program.bind fun value => (middle value).bind rest
  induction program with
  | ret value => rfl
  | stop => rfl
  | request op next ih =>
    simp only [bind]
    congr 1
    funext reply
    exact ih reply

@[simp] theorem bind_ret (program : Prog Op Reply α) : program >>= ret = program := by
  change program.bind ret = program
  induction program with
  | ret value => rfl
  | stop => rfl
  | request op next ih =>
    rw [bind]
    congr 1
    funext reply
    exact ih reply

end Prog

/-- What operations do to a state, for each choice of the environment. -/
structure Machine (Op : Type) (Reply : Op → Type) where
  Choice : Type
  State : Type
  perform : (op : Op) → Choice → State → State × Reply op

inductive Outcome (α : Type) where
  /-- The program returned. -/
  | done (value : α)
  /-- The program is stuck. -/
  | stuck
  /-- The run was cut off before an operation. -/
  | cut
  deriving DecidableEq

namespace Machine

variable (machine : Machine Op Reply)

/-- The state and the outcome of a run with the given choices. -/
def exec : Prog Op Reply α → List machine.Choice → machine.State → machine.State × Outcome α
  | .ret value, _, state => (state, .done value)
  | .stop, _, state => (state, .stuck)
  | .request _ _, [], state => (state, .cut)
  | .request op next, choice :: choices, state =>
    exec (next (machine.perform op choice state).2) choices (machine.perform op choice state).1

@[simp] theorem exec_call_bind (op : Op) (rest : Reply op → Prog Op Reply α)
    (choice : machine.Choice) (choices : List machine.Choice) (state : machine.State) :
    machine.exec (Prog.call op >>= rest) (choice :: choices) state =
      machine.exec (rest (machine.perform op choice state).2) choices
        (machine.perform op choice state).1 := rfl

variable {program : Prog Op Reply α} {state : machine.State}

/-- Without any choice, a program returns a value only if what follows its first part does. -/
theorem exec_bind_nil_ne_done {rest : α → Prog Op Reply β} {result : β}
    (never : ∀ value, (machine.exec (rest value) [] state).2 ≠ .done result) :
    (machine.exec (program >>= rest) [] state).2 ≠ .done result := by
  cases program with
  | ret value => exact never value
  | stop => exact nofun
  | request op next => exact nofun

variable {choices : List machine.Choice} {after : machine.State}

theorem exec_map_eq_done (function : α → β)
    {result : β} : machine.exec (program >>= fun value => .ret (function value)) choices state =
        (after, .done result) ↔ ∃ value, machine.exec program choices state = (after, .done value) ∧
        function value = result := by
  change machine.exec (program.bind fun value => .ret (function value)) choices state = _ ↔ _
  induction program generalizing choices state with
  | ret value => simp [exec, Prog.bind, and_assoc]
  | stop => simp [exec, Prog.bind]
  | request op next ih =>
    cases choices with
    | nil => simp [exec, Prog.bind]
    | cons choice choices => exact ih _

/-- One step of a run: the operation, the choice made for it and the state before. -/
structure Step where
  op : Op
  choice : machine.Choice
  before : machine.State

def steps : Prog Op Reply α → List machine.Choice → machine.State → List machine.Step
  | .ret _, _, _ => []
  | .stop, _, _ => []
  | .request _ _, [], _ => []
  | .request op next, choice :: choices, state =>
    ⟨op, choice, state⟩ ::
      steps (next (machine.perform op choice state).2) choices (machine.perform op choice state).1

variable {step : machine.Step}

theorem choice_mem
    (member : step ∈ machine.steps program choices state) : step.choice ∈ choices := by
  induction program generalizing choices state with
  | ret value => cases member
  | stop => cases member
  | request op next ih =>
    cases choices with
    | nil => cases member
    | cons choice choices =>
      rcases mem_cons.mp member with rfl | later
      · exact mem_cons_self
      · exact mem_cons_of_mem _ (ih _ later)

/-- The same machine, keeping a log of its steps beside the state. -/
def logged : Machine Op Reply where
  Choice := machine.Choice
  State := machine.State × List machine.Step
  perform op choice state :=
    (((machine.perform op choice state.1).1, state.2 ++ [⟨op, choice, state.1⟩]),
      (machine.perform op choice state.1).2)

/-- Logging does not change a run, and the log is the list of its steps. -/
theorem exec_logged (program : Prog Op Reply α) (choices : List machine.Choice)
    (state : machine.State) (log : List machine.Step) :
    machine.logged.exec program choices (state, log) =
      (((machine.exec program choices state).1, log ++ machine.steps program choices state),
        (machine.exec program choices state).2) := by
  induction program generalizing choices state log with
  | ret value =>
    rw [steps, append_nil]
    rfl
  | stop =>
    rw [steps, append_nil]
    rfl
  | request op next ih =>
    cases choices with
    | nil =>
      rw [steps, append_nil]
      rfl
    | cons choice choices =>
      have rest := ih (machine.perform op choice state).2 choices
        (machine.perform op choice state).1 (log ++ [⟨op, choice, state⟩])
      rw [append_assoc, singleton_append] at rest
      exact rest

/-- As long as every step is one that `allowed` admits, each operation establishes `invariant`, the
value returned satisfies `post`, and the program is only stuck if `stuck` holds. -/
def Runs (stuck : Prop) (allowed : machine.Step → Prop) (invariant : machine.State → Prop)
    (post : α → machine.State → Prop) : Prog Op Reply α → machine.State → Prop
  | .ret value, state => post value state
  | .stop, _ => stuck
  | .request op next, state =>
    ∀ choice, allowed ⟨op, choice, state⟩ → invariant (machine.perform op choice state).1 ∧
        Runs stuck allowed invariant post (next (machine.perform op choice state).2)
          (machine.perform op choice state).1

/-- The same of a program that may be stuck. -/
abbrev Safe (allowed : machine.Step → Prop) (invariant : machine.State → Prop)
    (post : α → machine.State → Prop) : Prog Op Reply α → machine.State → Prop :=
  machine.Runs True allowed invariant post

/-- The same of a program that is not stuck, without an invariant: it returns. -/
abbrev Ensures (allowed : machine.Step → Prop) (post : α → machine.State → Prop) :
    Prog Op Reply α → machine.State → Prop :=
  machine.Runs False allowed (fun _ => True) post

variable {machine} {stuck : Prop} {allowed : machine.Step → Prop}
  {invariant : machine.State → Prop} {post : α → machine.State → Prop} {value : α}
  {middle : β → machine.State → Prop} {post' : α → machine.State → Prop} {reply : Reply op}

namespace Runs

theorem ret (holds : post value state) : machine.Runs stuck allowed invariant post (.ret value) state :=
  holds

theorem stop (holds : stuck) : machine.Runs stuck allowed invariant post .stop state :=
  holds

/-- What this means for a run: it ends, is stuck or is cut off in a state that satisfies the
invariant, and a value returned satisfies the postcondition. -/
theorem exec (safe : machine.Runs stuck allowed invariant post program state) (start : invariant state)
    (admitted : ∀ step ∈ machine.steps program choices state, allowed step) :
    invariant (machine.exec program choices state).1 ∧
      ∀ value, (machine.exec program choices state).2 = .done value →
        post value (machine.exec program choices state).1 := by
  induction program generalizing choices state with
  | ret value =>
    refine ⟨start, ?_⟩
    intro value' same
    cases same
    exact safe
  | stop => exact ⟨start, nofun⟩
  | request op next ih =>
    cases choices with
    | nil => exact ⟨start, nofun⟩
    | cons choice choices =>
      have step := safe choice (admitted _ mem_cons_self)
      exact ih _ step.2 step.1 (forall_mem_cons.mp admitted).2

theorem bind {program : Prog Op Reply β} {rest : β → Prog Op Reply α}
    (safe : machine.Runs stuck allowed invariant middle program state)
    (continues : ∀ value after, middle value after →
      machine.Runs stuck allowed invariant post (rest value) after) :
    machine.Runs stuck allowed invariant post (program >>= rest) state := by
  change machine.Runs stuck allowed invariant post (program.bind rest) state
  induction program generalizing state with
  | ret value => exact continues value state safe
  | stop => exact safe
  | request op next ih =>
    intro choice allows
    have step := safe choice allows
    exact ⟨step.1, ih _ step.2⟩

theorem weaken (safe : machine.Runs stuck allowed invariant post program state)
    (implies : ∀ value after, post value after → post' value after) :
    machine.Runs stuck allowed invariant post' program state := by
  rw [← program.bind_ret]
  exact safe.bind fun value after holds => .ret (implies value after holds)

theorem call (each : ∀ choice, allowed ⟨op, choice, state⟩ →
      invariant (machine.perform op choice state).1 ∧
      machine.Runs stuck allowed invariant post (rest (machine.perform op choice state).2)
      (machine.perform op choice state).1) :
    machine.Runs stuck allowed invariant post (Prog.call op >>= rest) state :=
  each

theorem single (op : Op) {post : Reply op → machine.State → Prop} (each : ∀ choice,
      allowed ⟨op, choice, state⟩ → invariant (machine.perform op choice state).1 ∧
        post (machine.perform op choice state).2 (machine.perform op choice state).1) :
    machine.Runs stuck allowed invariant post (Prog.call op) state :=
  each

theorem known (effect : ∀ choice, allowed ⟨op, choice, state⟩ →
      machine.perform op choice state = (after, reply)) (holds : invariant after)
    (next : machine.Runs stuck allowed invariant post (rest reply) after) :
    machine.Runs stuck allowed invariant post (Prog.call op >>= rest) state := by
  refine call fun choice allows => ?_
  rw [effect choice allows]
  exact ⟨holds, next⟩

/-- The invariant also holds where the program returns. -/
theorem keeping (safe : machine.Runs stuck allowed invariant post program state) (start : invariant state) :
    machine.Runs stuck allowed invariant (fun value after => post value after ∧ invariant after)
      program state := by
  induction program generalizing state with
  | ret value => exact ⟨safe, start⟩
  | stop => exact safe
  | request op next ih =>
    intro choice allows
    have step := safe choice allows
    exact ⟨step.1, ih _ step.2 step.1⟩

variable {invariant' : machine.State → Prop}

theorem relax (safe : machine.Runs stuck allowed invariant post program state)
    (implies : ∀ state, invariant state → invariant' state) :
    machine.Runs stuck allowed invariant' post program state := by
  induction program generalizing state with
  | ret value => exact safe
  | stop => exact safe
  | request op next ih =>
    intro choice allows
    have step := safe choice allows
    exact ⟨implies _ step.1, ih _ step.2⟩

theorem both (first : machine.Runs stuck allowed invariant post program state)
    (second : machine.Runs stuck allowed invariant' post' program state) :
    machine.Runs stuck allowed (fun state => invariant state ∧ invariant' state)
      (fun value after => post value after ∧ post' value after) program state := by
  induction program generalizing state with
  | ret value => exact ⟨first, second⟩
  | stop => exact first
  | request op next ih =>
    intro choice allows
    have left := first choice allows
    have right := second choice allows
    exact ⟨⟨left.1, right.1⟩, ih _ left.2 right.2⟩

/-- What every operation keeps holds throughout. -/
theorem invariantly
    (keeps : ∀ op choice state, invariant state → invariant (machine.perform op choice state).1)
    (start : invariant state) :
    machine.Safe allowed invariant (fun _ after => invariant after) program state := by
  induction program generalizing state with
  | ret value => exact start
  | stop => trivial
  | request op next ih => exact fun choice _ => ⟨keeps _ _ _ start, ih _ (keeps _ _ _ start)⟩

theorem skip {program : Prog Op Reply β} {rest : β → Prog Op Reply α}
    (continues : ∀ value after, machine.Safe allowed (fun _ => True) post (rest value) after) :
    machine.Safe allowed (fun _ => True) post (program >>= rest) state :=
  (invariantly (fun _ _ _ _ => trivial) trivial).bind fun value after _ => continues value after

theorem mayStop (runs : machine.Runs stuck allowed invariant post program state) :
    machine.Safe allowed invariant post program state := by
  induction program generalizing state with
  | ret value => exact runs
  | stop => trivial
  | request op next ih => exact fun choice allows => ⟨(runs choice allows).1, ih _ (runs choice allows).2⟩

/-- A run is stuck only if that was to be expected. -/
theorem exec_stuck (runs : machine.Runs stuck allowed invariant post program state)
    (admitted : ∀ step ∈ machine.steps program choices state, allowed step)
    (ended : (machine.exec program choices state).2 = .stuck) : stuck := by
  induction program generalizing choices state with
  | ret value => cases ended
  | stop => exact runs
  | request op next ih =>
    cases choices with
    | nil => cases ended
    | cons choice choices =>
      exact ih _ (runs choice (admitted _ mem_cons_self)).2 (forall_mem_cons.mp admitted).2 ended

end Runs

theorem Safe.stop : machine.Safe allowed invariant post .stop state := .intro

namespace Ensures

theorem call (each : ∀ choice, allowed ⟨op, choice, state⟩ →
      machine.Ensures allowed post (rest (machine.perform op choice state).2)
        (machine.perform op choice state).1) :
    machine.Ensures allowed post (Prog.call op >>= rest) state :=
  fun choice allows => ⟨trivial, each choice allows⟩

theorem logged_call {log : List machine.Step} {post : α → machine.logged.State → Prop}
    (each : ∀ choice, machine.logged.Ensures (fun _ => True) post
      (rest (machine.perform op choice state).2)
      ((machine.perform op choice state).1, log ++ [⟨op, choice, state⟩])) :
    machine.logged.Ensures (fun _ => True) post (Prog.call op >>= rest) (state, log) :=
  call fun choice _ => each choice

theorem known (effect : ∀ choice, allowed ⟨op, choice, state⟩ →
      machine.perform op choice state = (after, reply))
    (next : machine.Ensures allowed post (rest reply) after) :
    machine.Ensures allowed post (Prog.call op >>= rest) state :=
  Runs.known effect trivial next

end Ensures

/-- A program that only requests quiet operations, in a given state: as long as every
step is one that `allowed` admits, the value returned satisfies `post`, and the program is only
stuck if `stuck` holds. -/
def Observes (stuck : Prop) (quiet : Op → Prop) (allowed : machine.Step → Prop) (post : α → Prop) :
    Prog Op Reply α → machine.State → Prop
  | .ret value, _ => post value
  | .stop, _ => stuck
  | .request op next, state =>
    quiet op ∧ ∀ choice, allowed ⟨op, choice, state⟩ →
      Observes stuck quiet allowed post (next (machine.perform op choice state).2) state

namespace Observes

variable {quiet : Op → Prop} {value : α} {holds : α → Prop}

theorem ret (known : holds value) : machine.Observes stuck quiet allowed holds (.ret value) state :=
  known

theorem stop : machine.Observes True quiet allowed holds .stop state :=
  .intro

theorem bind {middle : β → Prop} {program : Prog Op Reply β} {rest : β → Prog Op Reply α}
    (observes : machine.Observes stuck quiet allowed middle program state)
    (continues : ∀ value, middle value → machine.Observes stuck quiet allowed holds (rest value) state) :
    machine.Observes stuck quiet allowed holds (program >>= rest) state := by
  change machine.Observes stuck quiet allowed holds (program.bind rest) state
  induction program with
  | ret value => exact continues value observes
  | stop => exact observes
  | request op next ih =>
    refine ⟨observes.1, ?_⟩
    intro choice allows
    exact ih _ (observes.2 choice allows)

theorem call (silent : quiet op) (each : ∀ choice, allowed ⟨op, choice, state⟩ →
      machine.Observes stuck quiet allowed holds (rest (machine.perform op choice state).2) state) :
    machine.Observes stuck quiet allowed holds (Prog.call op >>= rest) state :=
  ⟨silent, each⟩

theorem weaken {holds' : α → Prop} (observes : machine.Observes stuck quiet allowed holds program state)
    (implies : ∀ value, holds value → holds' value) :
    machine.Observes stuck quiet allowed holds' program state := by
  rw [← program.bind_ret]
  exact observes.bind fun value known => .ret (implies value known)

/-- Quiet operations leave the state as it is. -/
theorem safe (observes : machine.Observes stuck quiet allowed holds program state)
    (keeps : ∀ op choice state, quiet op → (machine.perform op choice state).1 = state) :
    machine.Runs stuck allowed (· = state) (fun value after => holds value ∧ after = state)
      program state := by
  induction program with
  | ret value => exact ⟨observes, rfl⟩
  | stop => exact observes
  | request op next ih =>
    intro choice allows
    have rest := ih _ (observes.2 choice allows)
    rw [keeps op choice state observes.1]
    exact ⟨rfl, rest⟩

theorem safe_logged (observes : machine.Observes stuck quiet (fun _ => True) holds program state)
    (log : List machine.Step)
    (keeps : ∀ op choice state, quiet op → (machine.perform op choice state).1 = state) :
    machine.logged.Runs stuck (fun _ => True) (fun _ => True)
      (fun value after => holds value ∧ after.1 = state ∧
        ∃ more, after.2 = log ++ more ∧ ∀ step ∈ more, quiet step.op) program (state, log) := by
  induction program generalizing log with
  | ret value => exact ⟨observes, rfl, [], (append_nil _).symm, by simp⟩
  | stop => exact observes
  | request op next ih =>
    intro choice _
    refine ⟨trivial, ?_⟩
    have rest := ih (machine.perform op choice state).2 (observes.2 choice trivial)
      (log ++ [⟨op, choice, state⟩])
    simp only [logged, keeps op choice state observes.1]
    refine rest.weaken ?_
    rintro value after ⟨known, same, more, grown, silent⟩
    refine ⟨known, same, ⟨op, choice, state⟩ :: more, by simp [grown], ?_⟩
    exact forall_mem_cons.mpr ⟨observes.1, silent⟩

end Observes

-- from here on a program is taken apart by the rules above only
attribute [irreducible] Runs Observes

/-- The states reached by runs of some programs, one after the other: each run ends or
is cut off after any step, and `between` says what may happen until the next one. -/
inductive Chain {ι : Type} (programs : ι → Prog Op Reply α) (allowed : machine.Step → Prop)
    (between : machine.State → machine.State → Prop) (start : machine.State) :
    machine.State → Prop where
  | start : Chain programs allowed between start start
  | run {state : machine.State} (index : ι) (choices : List machine.Choice) :
      Chain programs allowed between start state →
      (∀ step ∈ machine.steps (programs index) choices state, allowed step) →
      Chain programs allowed between start (machine.exec (programs index) choices state).1
  | between {state after : machine.State} :
      Chain programs allowed between start state → between state after →
      Chain programs allowed between start after

/-- An invariant that every program keeps, and that survives whatever happens between
two runs, holds in every state reached. -/
theorem Chain.keeps {ι : Type} {programs : ι → Prog Op Reply α}
    {between : machine.State → machine.State → Prop} {start : machine.State}
    (chain : Chain programs allowed between start state) (holds : invariant start)
    (safe : ∀ index state, invariant state →
      machine.Safe allowed invariant (fun _ _ => True) (programs index) state)
    (survives : ∀ state after, invariant state → between state after → invariant after) :
    invariant state := by
  induction chain with
  | start => exact holds
  | run index choices _ admitted ih => exact ((safe index _ ih).exec ih admitted).1
  | between _ changes ih => exact survives _ _ ih changes

/-! ## Runs that are not cut off -/

section Play

variable (machine)

/-- The state and the value of a run with an endless supply of choices; there is no value when
the program is stuck. -/
def play : Prog Op Reply α → (Nat → machine.Choice) → machine.State → machine.State × Option α
  | .ret value, _, state => (state, some value)
  | .stop, _, state => (state, none)
  | .request op next, choices, state =>
    play (next (machine.perform op (choices 0) state).2) (fun time => choices (time + 1))
      (machine.perform op (choices 0) state).1

/-- The steps of such a run. -/
def played : Prog Op Reply α → (Nat → machine.Choice) → machine.State → List machine.Step
  | .ret _, _, _ => []
  | .stop, _, _ => []
  | .request op next, choices, state =>
    ⟨op, choices 0, state⟩ ::
      played (next (machine.perform op (choices 0) state).2) (fun time => choices (time + 1))
        (machine.perform op (choices 0) state).1

variable {machine} {choices : Nat → machine.Choice}

theorem played_choice (member : step ∈ machine.played program choices state) :
    ∃ time, step.choice = choices time := by
  induction program generalizing choices state with
  | ret value => cases member
  | stop => cases member
  | request op next ih =>
    rcases mem_cons.mp member with rfl | later
    · exact ⟨0, rfl⟩
    · obtain ⟨time, same⟩ := ih _ later
      exact ⟨time + 1, same⟩

theorem Runs.play (runs : machine.Runs stuck allowed invariant post program state)
    (admitted : ∀ step ∈ machine.played program choices state, allowed step)
    (returned : (machine.play program choices state).2 = some value) :
    post value (machine.play program choices state).1 := by
  induction program generalizing choices state with
  | ret value' =>
    cases returned
    rwa [Runs] at runs
  | stop => cases returned
  | request op next ih =>
    rw [Runs] at runs
    have step := runs (choices 0) (admitted _ mem_cons_self)
    exact ih _ step.2 (forall_mem_cons.mp admitted).2 returned

theorem Ensures.play (ensures : machine.Ensures allowed post program state)
    (admitted : ∀ step ∈ machine.played program choices state, allowed step) :
    ∃ value, (machine.play program choices state).2 = some value ∧
      post value (machine.play program choices state).1 := by
  suffices returns : (machine.play program choices state).2 ≠ none by
    obtain ⟨value, returned⟩ := Option.ne_none_iff_exists'.mp returns
    exact ⟨value, returned, Runs.play ensures admitted returned⟩
  induction program generalizing choices state with
  | ret value => exact nofun
  | stop =>
    rw [Ensures, Runs] at ensures
    exact ensures.elim
  | request op next ih =>
    rw [Ensures, Runs] at ensures
    exact ih _ (ensures (choices 0) (admitted _ mem_cons_self)).2 (forall_mem_cons.mp admitted).2

end Play

end Machine

end PhilzTouch
