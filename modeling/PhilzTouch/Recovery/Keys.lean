import Mathlib.Data.List.Induction

/-!
# The queue of keys

`input_callback`, `ui_cancel_wait_key`, `ui_clear_key_queue` and the functions that wait for a key
share `key_queue` under a mutex.  A step is one of their critical sections.
-/

namespace PhilzTouch.Recovery

open List Function

/-- `key_queue` up to `key_queue_len` and the tables of the keys.  What has been queued and taken so
far, and the places of `key_queue` that were accessed, are noted as well. -/
structure Keys where
  queue : List Int
  pressed : Int → Int
  pressTime : Int → Nat
  lastRepeat : Int → Nat
  queued : List Int
  taken : List Int
  accessed : List Nat

/-- What `input_callback` knows about a key; the time is in milliseconds. -/
structure KeyEvent where
  code : Nat
  value : Int
  fake : Bool
  repeats : Bool
  now : Nat
  deriving DecidableEq, Repr

/-- A critical section of `key_queue_mutex`. -/
inductive KeySection where
  | input (event : KeyEvent)
  | cancel
  | clear
  /-- `ui_wait_key` wakes up or gives up. -/
  | wait
  /-- A round of the inner loop of `ui_wait_key_with_repeat`. -/
  | waitRepeat (now : Nat)
  deriving DecidableEq, Repr

namespace Keys

def queueMax : Nat := 256

/-- `key_queue[key_queue_len] = key; key_queue_len++`. -/
def append (keys : Keys) (key : Int) : Keys :=
  { keys with
    queue := keys.queue ++ [key]
    queued := keys.queued ++ [key]
    accessed := keys.queue.length :: keys.accessed }

/-- If there is a key, `key_queue[0]` is read and the rest moves down. -/
def pop (keys : Keys) (use : Keys → Int → Keys) : Keys :=
  match keys.queue with
  | [] => keys
  | key :: rest =>
    use { keys with queue := rest, accessed := range (rest.length + 1) ++ keys.accessed } key

def take (keys : Keys) (key : Int) : Keys := { keys with taken := keys.taken ++ [key] }

def inputCallback (keys : Keys) (event : KeyEvent) : Keys :=
  let keys := { keys with
    pressed := if event.fake then keys.pressed else update keys.pressed event.code event.value }
  if 0 < event.value ∧ keys.queue.length < queueMax then
    let keys := keys.append event.code
    if event.repeats then
      { keys with
        pressTime := update keys.pressTime event.code event.now
        lastRepeat := update keys.lastRepeat event.code 0 }
    else keys
  else keys

variable (canRepeat : Int → Bool)

/-- A round of `ui_wait_key_with_repeat` with the key that it has popped. -/
def repeated (now : Nat) (keys : Keys) (key : Int) : Keys :=
  if key < 0 then keys.take key
  else if keys.pressed key = 0 ∧ 0 < keys.lastRepeat key then keys
  else if canRepeat key then
    let keys := if keys.pressed key ≠ 0 then keys.append key else keys
    if keys.pressTime key + 400 < now ∧ keys.lastRepeat key + 80 < now ∨ keys.lastRepeat key = 0 then
      { keys with lastRepeat := update keys.lastRepeat key now }.take key
    else keys
  else keys.take key

def step (keys : Keys) : KeySection → Keys
  | .input event => keys.inputCallback event
  | .cancel => keys.append (-2)
  | .clear => { keys with queue := [] }
  | .wait => keys.pop take
  | .waitRepeat now => keys.pop (repeated canRepeat now)

def start : Keys := ⟨[], fun _ => 0, fun _ => 0, fun _ => 0, [], [], []⟩

def run (sections : List KeySection) : Keys :=
  sections.foldl (step canRepeat) start

/-- The queue is not longer than its array, which has not been left; the keys that were taken, those
in hand and those in the queue were queued in this order. -/
structure Orderly (hand : List Int) (keys : Keys) : Prop where
  length : keys.queue.length ≤ queueMax
  inside : ∀ index ∈ keys.accessed, index < queueMax
  order : keys.taken ++ (hand ++ keys.queue) <+ keys.queued

section

variable {keys : Keys} {hand : List Int} {key : Int}

theorem Orderly.append (orderly : keys.Orderly hand) (room : keys.queue.length < queueMax)
    (key : Int) : (keys.append key).Orderly hand where
  length := by
    rw [Keys.append, length_append]
    exact room
  inside := forall_mem_cons.mpr ⟨room, orderly.inside⟩
  order := by
    rw [Keys.append, ← append_assoc, ← append_assoc, append_assoc keys.taken]
    exact orderly.order.append (.refl [key])

theorem Orderly.drop (orderly : keys.Orderly hand) : keys.Orderly [] :=
  ⟨orderly.length, orderly.inside,
    ((sublist_append_right hand keys.queue).append_left keys.taken).trans orderly.order⟩

theorem Orderly.take (orderly : keys.Orderly [key]) : (keys.take key).Orderly [] := by
  refine ⟨orderly.length, orderly.inside, ?_⟩
  rw [Keys.take, append_assoc]
  exact orderly.order

theorem Orderly.pop {use : Keys → Int → Keys} (orderly : keys.Orderly [])
    (used : ∀ {keys key}, keys.Orderly [key] → keys.queue.length < queueMax →
      (use keys key).Orderly []) : (keys.pop use).Orderly [] := by
  rw [Keys.pop]
  split
  next => exact orderly
  next key rest known =>
    have length := orderly.length
    have order := orderly.order
    rw [known] at length order
    refine used ⟨Nat.le_of_lt length, forall_mem_append.mpr ⟨?_, orderly.inside⟩, order⟩ length
    intro index here
    exact Nat.lt_of_lt_of_le (mem_range.mp here) length

theorem Orderly.repeated (orderly : keys.Orderly [key]) (room : keys.queue.length < queueMax)
    (now : Nat) : (keys.repeated canRepeat now key).Orderly [] := by
  have again : (if keys.pressed key ≠ 0 then keys.append key else keys).Orderly [key] := by
    split
    · exact orderly.append room key
    · exact orderly
  rw [Keys.repeated]
  generalize (if keys.pressed key ≠ 0 then keys.append key else keys) = keys' at again ⊢
  split
  · exact orderly.take
  split
  · exact orderly.drop
  split
  · dsimp only
    split
    · exact Orderly.take ⟨again.length, again.inside, again.order⟩
    · exact again.drop
  · exact orderly.take

theorem Orderly.inputCallback (orderly : keys.Orderly []) (event : KeyEvent) :
    (keys.inputCallback event).Orderly [] := by
  rw [Keys.inputCallback]
  dsimp only
  split
  next queues =>
    have added := orderly.append queues.2 event.code
    split
    · exact ⟨added.length, added.inside, added.order⟩
    · exact ⟨added.length, added.inside, added.order⟩
  next => exact ⟨orderly.length, orderly.inside, orderly.order⟩

theorem Orderly.step {next : KeySection} (orderly : keys.Orderly [])
    (room : next = .cancel → keys.queue.length < queueMax) :
    (keys.step canRepeat next).Orderly [] := by
  cases next with
  | input event => exact orderly.inputCallback event
  | cancel => exact orderly.append (room rfl) (-2)
  | clear =>
    refine ⟨Nat.zero_le _, orderly.inside, ?_⟩
    exact ((nil_sublist _).append_left keys.taken).trans orderly.order
  | wait => exact orderly.pop fun inHand _ => inHand.take
  | waitRepeat now => exact orderly.pop fun inHand room => inHand.repeated canRepeat room now

end

end Keys

end PhilzTouch.Recovery
