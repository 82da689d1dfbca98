import PhilzTouch.Lib.Program
import Mathlib.Logic.Function.Basic

/-!
# Threads

Threads that run programs over a state which they share.  A run interleaves single operations of
the threads in any order; an operation that has to wait is not performed for now.
-/

namespace PhilzTouch

open Function

variable {Thread Op : Type} {Reply : Op → Type} {α β : Type}

/-- What threads do when they begin to work, and what their operations do. -/
structure Threads (Thread Op : Type) (Reply : Op → Type) where
  State : Type
  Choice : Type
  /-- What a thread that has nothing left to do begins next. -/
  start : Thread → Choice → Prog Op Reply Unit
  /-- The effect and the reply of an operation.  There are none while the thread has to wait. -/
  perform : Thread → (op : Op) → Choice → State → Option (State × Reply op)

namespace Threads

variable (system : Threads Thread Op Reply)

/-- The state and what each thread has left to do. -/
structure Config where
  state : system.State
  program : Thread → Prog Op Reply Unit

structure Move where
  thread : Thread
  choice : system.Choice

/-- A thread has run into something that has no meaning. -/
def Stuck (config : system.Config) : Prop := ∃ thread, config.program thread = .stop

variable [DecidableEq Thread]

/-- One step of a thread: it begins, or it performs its next operation. -/
def step (config : system.Config) (move : system.Move) : Option system.Config :=
  match config.program move.thread with
  | .ret _ =>
    some ⟨config.state, update config.program move.thread (system.start move.thread move.choice)⟩
  | .stop => none
  | .request op next =>
    (system.perform move.thread op move.choice config.state).map fun result =>
      ⟨result.1, update config.program move.thread (next result.2)⟩

def run (config : system.Config) (moves : List system.Move) : Option system.Config :=
  moves.foldlM system.step config

/-! ## Rely and guarantee -/

/-- The program never gets stuck, and when it returns, `post` holds: provided that the other
threads only change the state as `rely` says.  Its own operations change it as `guarantee` says. -/
def Secure (thread : Thread) (rely guarantee : system.State → system.State → Prop)
    (post : α → system.State → Prop) : Prog Op Reply α → system.State → Prop
  | .ret value, state => ∀ now, rely state now → post value now
  | .stop, _ => False
  | .request op next, state =>
    ∀ now, rely state now → ∀ choice after reply,
      system.perform thread op choice now = some (after, reply) →
        guarantee now after ∧ Secure thread rely guarantee post (next reply) after

variable {system} {thread : Thread} {rely guarantee : system.State → system.State → Prop}
  {post : α → system.State → Prop}

namespace Secure

omit [DecidableEq Thread]

variable {state : system.State}

theorem ret {value : α} (holds : ∀ now, rely state now → post value now) :
    system.Secure thread rely guarantee post (.ret value) state :=
  holds

theorem call {op : Op} {rest : Reply op → Prog Op Reply α}
    (each : ∀ now, rely state now → ∀ choice after reply,
      system.perform thread op choice now = some (after, reply) →
      guarantee now after ∧ system.Secure thread rely guarantee post (rest reply) after) :
    system.Secure thread rely guarantee post (Prog.call op >>= rest) state :=
  each

theorem bind {middle : β → system.State → Prop} {program : Prog Op Reply β}
    {rest : β → Prog Op Reply α} (idle : ∀ state, rely state state)
    (secure : system.Secure thread rely guarantee middle program state)
    (continues : ∀ value after, middle value after →
      system.Secure thread rely guarantee post (rest value) after) :
    system.Secure thread rely guarantee post (program >>= rest) state := by
  change system.Secure thread rely guarantee post (program.bind rest) state
  induction program generalizing state with
  | ret value => exact continues value state (secure state (idle state))
  | stop => exact secure.elim
  | request op next ih =>
    intro now changes choice after reply performed
    have step := secure now changes choice after reply performed
    exact ⟨step.1, ih reply step.2⟩

variable {program : Prog Op Reply α}

theorem weaken {post' : α → system.State → Prop}
    (secure : system.Secure thread rely guarantee post program state)
    (implies : ∀ value after, post value after → post' value after) :
    system.Secure thread rely guarantee post' program state := by
  induction program generalizing state with
  | ret value => exact fun now changes => implies value now (secure now changes)
  | stop => exact secure.elim
  | request op next ih =>
    intro now changes choice after reply performed
    have step := secure now changes choice after reply performed
    exact ⟨step.1, ih reply step.2⟩

/-- What other threads do does not matter. -/
theorem later {now : system.State} (secure : system.Secure thread rely guarantee post program state)
    (trans : ∀ first second third, rely first second → rely second third → rely first third)
    (changes : rely state now) : system.Secure thread rely guarantee post program now := by
  cases program with
  | ret value => exact fun further more => secure further (trans _ _ _ changes more)
  | stop => exact secure
  | request op next => exact fun further more => secure further (trans _ _ _ changes more)

end Secure

/-- What the threads promise each other. -/
structure Contract (system : Threads Thread Op Reply) where
  rely : Thread → system.State → system.State → Prop
  guarantee : Thread → system.State → system.State → Prop
  /-- What a thread finds when it begins to work, and leaves behind. -/
  idle : Thread → system.State → Prop
  refl : ∀ thread state, rely thread state state
  trans : ∀ thread first second third,
    rely thread first second → rely thread second third → rely thread first third
  compatible : ∀ {thread other}, thread ≠ other → ∀ {before after},
    guarantee thread before after → rely other before after
  starts : ∀ thread choice state, idle thread state →
    system.Secure thread (rely thread) (guarantee thread) (fun _ => idle thread)
      (system.start thread choice) state

variable (contract : Contract system)

/-- Every thread keeps its part of a contract from here on. -/
def Honoured (config : system.Config) : Prop :=
  ∀ thread, system.Secure thread (contract.rely thread) (contract.guarantee thread)
    (fun _ => contract.idle thread) (config.program thread) config.state

variable {contract} {config : system.Config}

section

variable (honoured : Honoured contract config)

include honoured

variable {after : system.Config}

theorem Honoured.step {move : system.Move} (stepped : system.step config move = some after) :
    Honoured contract after := by
  have own := honoured move.thread
  unfold Threads.step at stepped
  split at stepped
  · rename_i program
    cases stepped
    intro thread
    by_cases same : thread = move.thread
    · subst same
      rw [program] at own
      simp only [update_self]
      exact contract.starts _ _ _ (own config.state (contract.refl _ _))
    · simp only [update_of_ne same]
      exact honoured thread
  · cases stepped
  rename_i op next program
  rw [Option.map_eq_some_iff] at stepped
  obtain ⟨⟨state, reply⟩, performed, rfl⟩ := stepped
  rw [program] at own
  have progress := own config.state (contract.refl _ _) _ _ _ performed
  intro thread
  by_cases same : thread = move.thread
  · subst same
    simp only [update_self]
    exact progress.2
  · simp only [update_of_ne same]
    exact (honoured thread).later (contract.trans thread)
      (contract.compatible (Ne.symm same) progress.1)

theorem Honoured.run {moves : List system.Move} (ran : system.run config moves = some after) :
    Honoured contract after := by
  induction moves generalizing config with
  | nil =>
    cases ran
    exact honoured
  | cons move moves ih =>
    unfold Threads.run at ran
    rw [List.foldlM_cons] at ran
    obtain ⟨next, stepped, rest⟩ := Option.bind_eq_some_iff.mp ran
    exact ih (honoured.step stepped) rest

omit [DecidableEq Thread] in
theorem Honoured.not_stuck : ¬ system.Stuck config := by
  rintro ⟨thread, stopped⟩
  have secure := honoured thread
  rw [stopped] at secure
  exact secure

end

end Threads

end PhilzTouch
