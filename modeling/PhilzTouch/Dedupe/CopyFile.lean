import Mathlib.Order.Monotone.Basic
import Mathlib.Order.WellFounded
import PhilzTouch.Lib.Bytes

/-!
# Copying a file

`copy_file` of `dedupe.c`, for all that `read` and `write` may return.  A `read` that fails is
taken for a count of -1; `write` refuses so many bytes and returns -1 as well, and the loop goes on.
-/

namespace PhilzTouch.Dedupe

open List

/-- How many bytes `read` and `write` are ready to handle in each round.  A `read` may fail; a
`write` that fails is the same as one of no bytes. -/
structure Replies where
  read : Nat → Option Nat
  write : Nat → Nat

variable (replies : Replies) (source : Bytes)

/-- What a round finds in `buf`. -/
def Replies.buf (round pos : Nat) : Bytes :=
  source.slice pos (min ((replies.read round).getD 0) 4096)

/-- The loop of `copy_file`: what it returns, and what the destination holds then. -/
def copyRounds : (fuel round pos : Nat) → (copy : Bytes) → Option (Int × Bytes)
  | 0, _, _, _ => none
  | fuel + 1, round, pos, copy =>
    let buf := replies.buf source round pos
    if replies.read round = none then copyRounds fuel (round + 1) pos copy
    else if buf = [] then some (0, copy)
    else if replies.write round < buf.length then some (5, copy ++ buf.take (replies.write round))
    else copyRounds fuel (round + 1) (pos + buf.length) (copy ++ buf)

/-- Where a round begins to read, if none before it has ended the loop. -/
def Replies.pos : Nat → Nat
  | 0 => 0
  | round + 1 => pos round + (replies.buf source round (pos round)).length

/-- The `read` of the round gives nothing. -/
def Replies.Ends (round : Nat) : Prop :=
  replies.read round ≠ none ∧ replies.buf source round (replies.pos source round) = []

/-- The `write` of the round takes less than it is given. -/
def Replies.Short (round : Nat) : Prop :=
  replies.write round < (replies.buf source round (replies.pos source round)).length

/-- The loop does not go on after the round. -/
def Replies.Stops (round : Nat) : Prop := replies.Ends source round ∨ replies.Short source round

variable {replies source} {round : Nat}

theorem Replies.buf_of_fails (failed : replies.read round = none) (pos : Nat) :
    replies.buf source round pos = [] := by
  simp [buf, failed, Bytes.slice]

theorem Replies.Short.some (short : replies.Short source round) :
    replies.buf source round (replies.pos source round) ≠ [] :=
  ne_nil_of_length_pos (Nat.zero_lt_of_lt short)

theorem Replies.Stops.reads (stops : replies.Stops source round) : replies.read round ≠ none := by
  rcases stops with ends | short
  · exact ends.1
  · exact fun failed => short.some (buf_of_fails failed _)

theorem take_pos_append : source.take (replies.pos source round) ++
      replies.buf source round (replies.pos source round) =
        source.take (replies.pos source (round + 1)) := by
  rw [Replies.pos, take_add, Replies.buf, Bytes.slice]
  congr 1
  simp [take_eq_take_iff]

theorem pos_le (round : Nat) : replies.pos source round ≤ source.length := by
  induction round with
  | zero => exact Nat.zero_le _
  | succ round ih =>
    have inside := @Bytes.length_slice source (replies.pos source round)
      (min ((replies.read round).getD 0) 4096)
    rw [Replies.pos, Replies.buf, inside]
    omega

theorem pos_mono : Monotone (replies.pos source) :=
  monotone_nat_of_le_succ fun _ => Nat.le_add_right _ _

/-- The loop comes to a round that none before it has kept it from. -/
theorem copyRounds_reaches (goesOn : ∀ earlier < round, ¬ replies.Stops source earlier) (fuel : Nat) :
    copyRounds replies source (fuel + round) 0 0 [] =
      copyRounds replies source fuel round (replies.pos source round)
        (source.take (replies.pos source round)) := by
  induction round generalizing fuel with
  | zero => rfl
  | succ round ih =>
    have before := ih (fun earlier less => goesOn earlier (Nat.lt_succ_of_lt less)) (fuel + 1)
    have passes := goesOn round (Nat.lt_succ_self round)
    rw [Nat.add_assoc, Nat.add_comm 1] at before
    rw [before, copyRounds]
    by_cases failed : replies.read round = none
    · rw [if_pos failed, Replies.pos, Replies.buf_of_fails failed]
      rfl
    · have some : replies.buf source round (replies.pos source round) ≠ [] :=
        fun none => passes (.inl ⟨failed, none⟩)
      have fits : ¬ replies.write round < (replies.buf source round (replies.pos source round)).length :=
        fun short => passes (.inr short)
      rw [if_neg failed, if_neg some, if_neg fits, take_pos_append]
      rfl

theorem copyRounds_ends (goesOn : ∀ earlier < round, ¬ replies.Stops source earlier)
    (ends : replies.Ends source round) (fuel : Nat) :
    copyRounds replies source (fuel + 1 + round) 0 0 [] =
      some (0, source.take (replies.pos source round)) := by
  rw [copyRounds_reaches goesOn, copyRounds, if_neg ends.1, if_pos ends.2]

theorem copyRounds_short (goesOn : ∀ earlier < round, ¬ replies.Stops source earlier)
    (short : replies.Short source round) (fuel : Nat) :
    ∃ copy, copyRounds replies source (fuel + 1 + round) 0 0 [] = some (5, copy) := by
  rw [copyRounds_reaches goesOn, copyRounds, if_neg (Replies.Stops.reads (.inr short)),
    if_neg short.some, if_pos (show replies.write round < _ from short)]
  exact ⟨_, rfl⟩

theorem Replies.Stops.first (stops : replies.Stops source round) : ∃ first ≤ round,
    replies.Stops source first ∧ ∀ earlier < first, ¬ replies.Stops source earlier := by
  obtain ⟨first, here, least⟩ := wellFounded_lt.has_min {round | replies.Stops source round}
    ⟨round, stops⟩
  exact ⟨first, not_lt.mp (least round stops), here, fun earlier less stops =>
    least earlier stops less⟩

/-- If reads do not fail for ever, the loop ends: every other `read` gives some more bytes. -/
theorem exists_stops (goesOn : ∀ round, ∃ later ≥ round, replies.read later ≠ none) :
    ∃ round, replies.Stops source round := by
  by_contra never
  push Not at never
  have grows : ∀ count, ∃ round, count ≤ replies.pos source round := by
    intro count
    induction count with
    | zero => exact ⟨0, Nat.zero_le _⟩
    | succ count ih =>
      obtain ⟨round, far⟩ := ih
      obtain ⟨later, behind, works⟩ := goesOn round
      have some : 0 < (replies.buf source later (replies.pos source later)).length :=
        length_pos_iff.mpr fun none => never later (.inl ⟨works, none⟩)
      have further := @pos_mono replies source _ _ behind
      refine ⟨later + 1, ?_⟩
      rw [Replies.pos]
      omega
  obtain ⟨round, beyond⟩ := grows (source.length + 1)
  have limit := @pos_le replies source round
  omega

/-- The loop returns, and with a faithful copy if it returns 0, just if reads do not fail for ever
before it has ended, and no `read` gives nothing in front of the end of the source unless a `write`
has fallen short before. -/
theorem copyFile_faithful_iff :
    (∃ fuel result copy, copyRounds replies source fuel 0 0 [] = some (result, copy) ∧
      (result = 0 → copy = source)) ↔
      (∀ round, (∀ later ≥ round, replies.read later = none) →
        ∃ earlier < round, replies.Stops source earlier) ∧
      ∀ round, replies.Ends source round → replies.pos source round < source.length →
        ∃ earlier < round, replies.Short source earlier := by
  constructor
  · rintro ⟨fuel, result, copy, returned, faithful⟩
    obtain ⟨round, less, stops⟩ : ∃ round < fuel, replies.Stops source round := by
      by_contra none
      push Not at none
      have hangs := copyRounds_reaches none 0
      rw [Nat.zero_add, returned] at hangs
      cases hangs
    obtain ⟨first, soon, stops, goesOn⟩ := stops.first
    obtain ⟨fuel, rfl⟩ : ∃ more, fuel = more + 1 + first := ⟨fuel - 1 - first, by omega⟩
    refine ⟨fun round fails => ⟨first, ?_, stops⟩, fun round empty early => ?_⟩
    · by_contra behind
      exact stops.reads (fails first (not_lt.mp behind))
    have behind : first ≤ round := by
      by_contra sooner
      exact goesOn round (not_le.mp sooner) (.inl empty)
    rcases stops with ends | short
    · cases returned.symm.trans (copyRounds_ends goesOn ends fuel)
      have whole := congrArg length (faithful rfl)
      have further := @pos_mono replies source _ _ behind
      rw [length_take] at whole
      omega
    · refine ⟨first, lt_of_le_of_ne behind fun same => ?_, short⟩
      exact short.some (same ▸ empty.2)
  · rintro ⟨reads, whole⟩
    obtain ⟨round, stops⟩ : ∃ round, replies.Stops source round := by
      by_cases goesOn : ∀ round, ∃ later ≥ round, replies.read later ≠ none
      · exact exists_stops goesOn
      · push Not at goesOn
        obtain ⟨round, fails⟩ := goesOn
        obtain ⟨earlier, -, stops⟩ := reads round fails
        exact ⟨earlier, stops⟩
    obtain ⟨first, -, stops, goesOn⟩ := stops.first
    rcases stops with ends | short
    · refine ⟨_, _, _, copyRounds_ends goesOn ends 0, fun _ => take_of_length_le ?_⟩
      by_contra early
      obtain ⟨earlier, less, short⟩ := whole first ends (not_le.mp early)
      exact goesOn earlier less (.inr short)
    · obtain ⟨copy, returned⟩ := copyRounds_short goesOn short 0
      exact ⟨_, 5, copy, returned, nofun⟩

/-- While `read` fails, the loop goes on. -/
theorem copyFile_hangs :
    ¬ ∃ fuel ended, copyRounds ⟨fun _ => none, fun _ => 0⟩ [] fuel 0 0 [] = some ended := by
  have more : ∀ fuel round, copyRounds ⟨fun _ => none, fun _ => 0⟩ [] fuel round 0 [] = none := by
    intro fuel
    induction fuel with
    | zero => exact fun _ => rfl
    | succ fuel ih => exact fun round => ih (round + 1)
  rintro ⟨fuel, ended, returned⟩
  cases (more fuel 0).symm.trans returned

end PhilzTouch.Dedupe
