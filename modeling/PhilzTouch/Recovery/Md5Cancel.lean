import Mathlib.Data.List.Basic

/-!
# Cancelling a hash

The thread that hashes a file and the function that stops it share `cancel_md5digest`.  The thread
sets it back itself, so that a stop may come too early.
-/

namespace PhilzTouch.Recovery

open List

/-- Where the hashing thread is. -/
inductive Place where
  /-- Before `cancel_md5digest = 0`. -/
  | opening
  /-- At the test of the flag. -/
  | testing
  | reading
  /-- Behind the loop of `computeMD5`, or without a file. -/
  | ended

structure Hashing where
  place : Place
  cancel : Bool
  /-- The bytes of the file that have not been read. -/
  left : Nat
  /-- The chunks read since the other thread set the flag. -/
  chunks : Nat

namespace Hashing

/-- One step of `computeMD5`; `found` says whether the file can be opened. -/
def step : Hashing → (found : Bool) → Hashing
  | ⟨.opening, _, left, chunks⟩, true => ⟨.testing, false, left, chunks⟩
  | ⟨.opening, cancel, left, chunks⟩, false => ⟨.ended, cancel, left, chunks⟩
  | ⟨.testing, true, left, chunks⟩, _ => ⟨.ended, true, left, chunks⟩
  | ⟨.testing, false, left, chunks⟩, _ => ⟨.reading, false, left, chunks⟩
  | ⟨.reading, cancel, 0, chunks⟩, _ => ⟨.ended, cancel, 0, chunks⟩
  | ⟨.reading, cancel, left + 1, chunks⟩, _ => ⟨.testing, cancel, left + 1 - 1024, chunks + 1⟩
  | ⟨.ended, cancel, left, chunks⟩, _ => ⟨.ended, cancel, left, chunks⟩

/-- `start_md5_display_thread` and `start_md5_verify_thread`, with the flag as it was. -/
def start (cancel : Bool) (size : Nat) : Hashing := ⟨.opening, cancel, size, 0⟩

def run (state : Hashing) (steps : List Bool) : Hashing := steps.foldl step state

/-- `stop_md5_display_thread` and `stop_md5_verify_thread`, which then wait for the thread. -/
def stop (state : Hashing) : Hashing := { state with cancel := true, chunks := 0 }

/-- How many chunks will have been read at most. -/
def most (state : Hashing) : Nat :=
  state.chunks + match state.place, state.cancel with
    | .testing, true => 0
    | .reading, true => min state.left 1
    | .ended, _ => 0
    | _, _ => (state.left + 1023) / 1024

/-- How many steps the thread takes at most. -/
def longest : Hashing → Nat
  | ⟨.opening, _, left, _⟩ => 2 * left + 3
  | ⟨.testing, _, left, _⟩ => 2 * left + 2
  | ⟨.reading, _, left, _⟩ => 2 * left + 1
  | ⟨.ended, _, _, _⟩ => 0

theorem step_bounds (state : Hashing) (found : Bool) :
    (state.step found).most ≤ state.most ∧ (state.step found).longest ≤ state.longest - 1 := by
  fun_cases step state found with
  | case5 cancel => cases cancel <;> simp [most, longest]
  | case6 cancel => cases cancel <;> simp only [most, longest] <;> omega
  | _ =>
    simp only [most, longest]
    omega

theorem run_bounds (state : Hashing) (steps : List Bool) : (state.run steps).chunks ≤ state.most ∧
    (state.run steps).longest ≤ state.longest - steps.length := by
  induction steps generalizing state with
  | nil => exact ⟨Nat.le_add_right _ _, Nat.le_refl _⟩
  | cons found steps ih =>
    have rest := ih (state.step found)
    have step := state.step_bounds found
    rw [length_cons]
    exact ⟨Nat.le_trans rest.1 step.1, Nat.le_trans rest.2 (by omega)⟩

theorem longest_eq_zero {state : Hashing} (done : state.longest = 0) : state.place = .ended := by
  unfold longest at done
  split at done
  · omega
  · omega
  · omega
  · rfl

/-- After a stop, at any time and for any file, the thread ends.  It reads no more than one chunk
before that if and only if it had reset the flag, or one chunk is all that is left. -/
theorem md5_cancel_iff (cancel : Bool) (size : Nat) (before : List Bool) :
    let state := (start cancel size).run before
    ((∀ after, (state.stop.run after).chunks ≤ 1) ∧ ∃ rounds, ∀ after : List Bool,
      rounds ≤ after.length → (state.stop.run after).place = .ended) ↔
    (state.place = .opening → state.left ≤ 1024) := by
  intro state
  constructor
  · rintro ⟨few, _⟩ early
    have late := few (replicate 5 true)
    by_contra long
    obtain ⟨more, rest⟩ : ∃ more, state.left = more + 1025 := ⟨state.left - 1025, by omega⟩
    simp [run, stop, early, rest, step] at late
  · intro fine
    refine ⟨fun after => Nat.le_trans (run_bounds _ after).1 ?_, state.stop.longest, ?_⟩
    · cases place : state.place with
      | opening =>
        have short := fine place
        simp only [stop, most, place]
        omega
      | testing | reading | ended =>
        simp only [stop, most, place]
        omega
    · intro after enough
      have bound := (run_bounds state.stop after).2
      exact longest_eq_zero (by omega)

/-- A file of two chunks is hashed to its end. -/
theorem md5_cancel_lost : ((start false 2048).stop.run (replicate 5 true)).chunks = 2 := by
  decide

end Hashing

end PhilzTouch.Recovery
