import Mathlib.Logic.Basic

/-!
# Computations that leave a trace

A computation records events and returns a value or stops with an error.  The events that were
recorded before it stopped remain.
-/

namespace PhilzTouch

/-- What a part of a run has recorded, and what came of it. -/
structure Traced (Event Error α : Type) where
  trace : List Event
  result : Except Error α

namespace Traced

variable {Event Error α β : Type}

def bind (first : Traced Event Error α) (rest : α → Traced Event Error β) :
    Traced Event Error β :=
  match first.result with
  | .ok value => ⟨first.trace ++ (rest value).trace, (rest value).result⟩
  | .error why => ⟨first.trace, .error why⟩

instance : Monad (Traced Event Error) where
  pure value := ⟨[], .ok value⟩
  bind := bind

def halt (why : Error) : Traced Event Error α := ⟨[], .error why⟩

def touch (trace : List Event) : Traced Event Error Unit := ⟨trace, .ok ()⟩

@[simp] theorem pure_trace (value : α) : (pure value : Traced Event Error α).trace = [] := rfl

@[simp] theorem pure_result (value : α) :
    (pure value : Traced Event Error α).result = .ok value := rfl

@[simp] theorem halt_trace (why : Error) : (halt why : Traced Event Error α).trace = [] := rfl

@[simp] theorem halt_result (why : Error) :
    (halt why : Traced Event Error α).result = .error why := rfl

variable {first : Traced Event Error α}

theorem bind_ok {value : α} (ok : first.result = .ok value) (rest : α → Traced Event Error β) :
    first >>= rest = ⟨first.trace ++ (rest value).trace, (rest value).result⟩ := by
  change bind first rest = _
  rw [bind, ok]

theorem bind_error {why : Error} (error : first.result = .error why)
    (rest : α → Traced Event Error β) : first >>= rest = ⟨first.trace, .error why⟩ := by
  change bind first rest = _
  rw [bind, error]

/-- Something holds of all events exactly if it holds of those of the first part and, if that
returns, of those of the second. -/
theorem forall_mem_bind {holds : Event → Prop} {rest : α → Traced Event Error β} :
    (∀ event ∈ (first >>= rest).trace, holds event) ↔ (∀ event ∈ first.trace, holds event) ∧
        ∀ value, first.result = .ok value → ∀ event ∈ (rest value).trace, holds event := by
  cases ran : first.result with
  | ok value =>
    rw [bind_ok ran]
    simp only [List.forall_mem_append, Except.ok.injEq, forall_eq']
  | error why =>
    rw [bind_error ran]
    exact (and_iff_left nofun).symm

variable (trace : List Event) (second : Traced Event Error β)

theorem touch_then :
    (touch trace >>= fun _ => second) = ⟨trace ++ second.trace, second.result⟩ := rfl

@[simp] theorem touch_then_trace :
    (touch trace >>= fun _ => second).trace = trace ++ second.trace := rfl

@[simp] theorem touch_then_result : (touch trace >>= fun _ => second).result = second.result := rfl

@[simp] theorem bind_pure (first : Traced Event Error α) : first >>= pure = first := by
  obtain ⟨trace, value | why⟩ := first
  · rfl
  · rw [bind_ok rfl, pure_trace, pure_result, List.append_nil]

theorem bind_result (first : Traced Event Error α) (rest : α → Traced Event Error β) :
    (first >>= rest).result = first.result >>= fun value => (rest value).result := by
  cases ran : first.result with
  | ok value =>
    rw [bind_ok ran]
    rfl
  | error why =>
    rw [bind_error ran]
    rfl

end Traced

end PhilzTouch
