import PhilzTouch.ApplyPatch.Applypatch

/-!
# The verification of a written device

`WriteToPartition` on a device that answers as it likes: writes and reads may move less than they
were asked to, be interrupted or fail, and reads may return any bytes.  The log of calls and
answers falls into attempts; each of them writes all bytes from the first block on that the attempt
before has found different, and a result of 0 means that the last one has read the data back.
-/

namespace PhilzTouch.ApplyPatch

open List

abbrev Event := (op : Op) × Reply op

/-- The machine that answers every call as its environment likes, and keeps a log. -/
abbrev oracle : Machine Op Reply where
  Choice := (op : Op) → Reply op
  State := List Event
  perform op answer log := (log ++ [⟨op, answer op⟩], answer op)

/-- What no device does: move more bytes than it was asked to. -/
def Believable (step : oracle.Step) : Prop :=
  match step.op, step.choice step.op with
  | .writeDevice _ _ data, .moved count => count ≤ data.length
  | .readDevice _ _ count, .moved bytes => bytes.length ≤ count
  | _, _ => True

instance (step : oracle.Step) : Decidable (Believable step) := by
  unfold Believable
  split <;> infer_instance

section Attempts

variable (partition : Partition) (data : Bytes)

/-- Calls that have written the bytes of `data` from `start` up to some offset. -/
inductive Writes (start : Nat) : List Event → Nat → Prop
  | nothing : Writes start [] start
  | interrupted {log : List Event} {stop : Nat} (before : Writes start log stop) (count : Nat) :
      Writes start (log ++ [⟨.writeDevice partition stop (data.slice stop count), .interrupted⟩]) stop
  | moved {log : List Event} {stop count written : Nat} (before : Writes start log stop)
      (inside : written ≤ (data.slice stop count).length) :
      Writes start (log ++ [⟨.writeDevice partition stop (data.slice stop count), .moved written⟩])
        (stop + written)

/-- Calls that have read some bytes from the start of a device on. -/
inductive ReadsBack : List Event → Bytes → Prop
  | nothing : ReadsBack [] []
  | interrupted {log : List Event} {bytes : Bytes} (before : ReadsBack log bytes) (count : Nat) :
      ReadsBack (log ++ [⟨.readDevice partition bytes.length count, .interrupted⟩]) bytes
  | moved {log : List Event} {bytes : Bytes} (before : ReadsBack log bytes) (count : Nat)
      (got : Bytes) :
      ReadsBack (log ++ [⟨.readDevice partition bytes.length count, .moved got⟩]) (bytes ++ got)

/-- One attempt: all bytes from `start` on are written, then bytes are read back from the start of
the device on. -/
structure Attempt where
  start : Nat
  writes : List Event
  written : Writes partition data start writes data.length
  synced : Bool
  reads : List Event
  readBack : Bytes
  read : ReadsBack partition reads readBack

def Attempt.events {partition : Partition} {data : Bytes} (attempt : Attempt partition data) :
    List Event :=
  attempt.writes ++ ⟨.fsyncDevice partition, attempt.synced⟩ :: attempt.reads

/-- The first block of 4096 bytes in which what was read back is different starts here. -/
structure FirstDifferent (readBack : Bytes) (start : Nat) : Prop where
  aligned : 4096 ∣ start
  inside : start < data.length
  same : readBack.take start = data.take start
  different : readBack.slice start 4096 ≠ data.slice start 4096

/-- Attempts that have all found a difference: the first starts with the first byte, every further
one with the first block that the one before has found different.  The next starts at `start`. -/
inductive Linked : List (Attempt partition data) → (start : Nat) → Prop
  | first : Linked [] 0
  | next {attempts : List (Attempt partition data)} {attempt : Attempt partition data} {start : Nat}
      (before : Linked attempts attempt.start)
      (different : FirstDifferent data attempt.readBack start) :
      Linked (attempts ++ [attempt]) start

/-- What there is of an attempt that has not come to an end; `closed` is the end of the last. -/
inductive Underway (start : Nat) : List Event → Prop
  | writing {writes : List Event} {stop : Nat} (written : Writes partition data start writes stop) :
      Underway start writes
  | refused {writes : List Event} {stop count : Nat}
      (written : Writes partition data start writes stop) :
      Underway start (writes ++ [⟨.writeDevice partition stop (data.slice stop count), .failed⟩])
  | reading (attempt : Attempt partition data) (begun : attempt.start = start) :
      Underway start attempt.events
  | unread (attempt : Attempt partition data) (begun : attempt.start = start) (offset count : Nat) :
      Underway start (attempt.events ++ [⟨.readDevice partition offset count, .failed⟩])
  | closed (attempt : Attempt partition data) (begun : attempt.start = start) (result : Bool) :
      Underway start (attempt.events ++ [⟨.closeDevice partition, result⟩])

/-- The log from the call that opens the device up to where an attempt begins. -/
def opened (attempts : List (Attempt partition data)) : List Event :=
  ⟨.openWrite partition, true⟩ :: attempts.flatMap Attempt.events

/-- A log in which every attempt starts where it should. -/
def Orderly (log : List Event) : Prop :=
  log = [] ∨ log = [⟨.openWrite partition, false⟩] ∨
    ∃ attempts start rest, Linked partition data attempts start ∧
      Underway partition data start rest ∧ log = opened partition data attempts ++ rest

end Attempts

section Steps

variable {partition : Partition} {data : Bytes} {attempts : List (Attempt partition data)}
  {start : Nat}

theorem Linked.orderly (linked : Linked partition data attempts start) {rest : List Event}
    (underway : Underway partition data start rest) :
    Orderly partition data (opened partition data attempts ++ rest) :=
  .inr (.inr ⟨attempts, start, rest, linked, underway, rfl⟩)

theorem opened_append (attempt : Attempt partition data) :
    opened partition data attempts ++ attempt.events = opened partition data (attempts ++ [attempt]) := by
  simp [opened]

theorem writeFrom_orderly (linked : Linked partition data attempts start) (patience : Nat)
    {writes : List Event} {stop : Nat} (written : Writes partition data start writes stop)
    (low : stop ≤ data.length) : oracle.Safe Believable (Orderly partition data)
      (fun done log => done = true → ∃ writes, Writes partition data start writes data.length ∧
        log = opened partition data attempts ++ writes)
      (writeFrom partition data patience stop) (opened partition data attempts ++ writes) := by
  induction patience generalizing writes stop with
  | zero =>
    unfold writeFrom
    split
    · exact .stop
    · rename_i ended
      cases Nat.le_antisymm low (Nat.le_of_not_lt ended)
      exact .ret fun _ => ⟨writes, written, rfl⟩
  | succ patience ih =>
    unfold writeFrom
    split
    swap
    · rename_i ended
      cases Nat.le_antisymm low (Nat.le_of_not_lt ended)
      exact .ret fun _ => ⟨writes, written, rfl⟩
    refine .call fun answer believable => ?_
    simp only [Believable] at believable
    simp only [append_assoc]
    generalize answer (.writeDevice partition stop _) = reply at believable
    cases reply with
    | interrupted =>
      have longer := written.interrupted (min (data.length - stop) (2 ^ 20))
      exact ⟨linked.orderly (.writing longer), ih longer low⟩
    | failed => exact ⟨linked.orderly (.refused written), .ret nofun⟩
    | moved count =>
      have longer := written.moved believable
      refine ⟨linked.orderly (.writing longer), ih longer ?_⟩
      dsimp only at believable
      rw [Bytes.length_slice] at believable
      omega

/-- The verification has read some bytes back in an attempt that began at `start`. -/
structure Reading (attempts : List (Attempt partition data)) (start : Nat) (readBack : Bytes)
    (log : List Event) : Prop where
  linked : Linked partition data attempts start
  reached : ∃ attempt : Attempt partition data, attempt.start = start ∧
    attempt.readBack = readBack ∧ log = opened partition data attempts ++ attempt.events

variable {readBack : Bytes} {log : List Event}

theorem Reading.orderly (reading : Reading attempts start readBack log) :
    Orderly partition data log := by
  obtain ⟨linked, attempt, begun, _, rfl⟩ := reading
  exact linked.orderly (.reading attempt begun)

theorem Reading.step (reading : Reading attempts start readBack log) {event : Event}
    {longer : Bytes}
    (read : ∀ reads, ReadsBack partition reads readBack → ReadsBack partition (reads ++ [event]) longer) :
    Reading attempts start longer (log ++ [event]) := by
  obtain ⟨linked, attempt, begun, rfl, rfl⟩ := reading
  refine ⟨linked, { attempt with
    reads := attempt.reads ++ [event], readBack := longer, read := read _ attempt.read }, begun, rfl, ?_⟩
  simp [Attempt.events]

theorem readBlock_orderly {p toRead : Nat} (patience : Nat) {before buffer : Bytes}
    (reading : Reading attempts start (before ++ buffer) log) (position : before.length = p)
    (short : buffer.length ≤ toRead) : oracle.Safe Believable (Orderly partition data)
      (fun block log => ∀ buffer, block = some buffer → buffer.length = toRead ∧
        Reading attempts start (before ++ buffer) log)
      (readBlock partition p toRead patience buffer) log := by
  have finished : ∀ {log buffer}, buffer.length ≤ toRead → ¬ buffer.length < toRead →
      Reading attempts start (before ++ buffer) log → ∀ block, some buffer = some block →
        block.length = toRead ∧ Reading attempts start (before ++ block) log := by
    rintro log buffer short full reading _ ⟨⟩
    exact ⟨Nat.le_antisymm short (Nat.le_of_not_lt full), reading⟩
  induction patience generalizing buffer log with
  | zero =>
    unfold readBlock
    split
    · exact .stop
    · exact .ret (finished short ‹_› reading)
  | succ patience ih =>
    unfold readBlock
    split
    swap
    · exact .ret (finished short ‹_› reading)
    have place : p + buffer.length = (before ++ buffer).length := by
      rw [length_append, position]
    rw [place]
    refine .call fun answer believable => ?_
    simp only [Believable] at believable
    dsimp only
    generalize answer (.readDevice partition _ _) = reply at believable
    cases reply with
    | interrupted =>
      have next := reading.step fun _ read => read.interrupted (toRead - buffer.length)
      exact ⟨next.orderly, ih next short⟩
    | failed =>
      obtain ⟨linked, attempt, begun, _, rfl⟩ := reading
      rw [append_assoc]
      exact ⟨linked.orderly (.unread attempt begun _ _), .ret nofun⟩
    | moved bytes =>
      have next := reading.step fun _ read => read.moved (toRead - buffer.length) bytes
      rw [append_assoc] at next
      refine ⟨next.orderly, ih next ?_⟩
      rw [length_append]
      omega

/-- The verification has come to the end, or to the first block that is different. -/
def Verified (attempts : List (Attempt partition data)) (start place : Nat) (log : List Event) :
    Prop :=
  ∃ readBack, Reading attempts start readBack log ∧
    (place = data.length ∧ readBack = data ∨ FirstDifferent data readBack place)

theorem verifyFrom_orderly (patience : Nat) {blocks p : Nat}
    (reading : Reading attempts start (data.take p) log) (aligned : 4096 ∣ p)
    (enough : data.length ≤ p + 4096 * blocks) : oracle.Safe Believable (Orderly partition data)
      (fun place log => ∀ found, place = some found → Verified attempts start found log)
      (verifyFrom partition data patience blocks p) log := by
  have ended : ∀ {p log}, data.length ≤ p → Reading attempts start (data.take p) log →
      ∀ found, some data.length = some found → Verified attempts start found log := by
    rintro p log past reading _ ⟨⟩
    rw [take_of_length_le past] at reading
    exact ⟨data, reading, .inl ⟨rfl, rfl⟩⟩
  induction blocks generalizing p log with
  | zero => exact .ret (ended (by omega) reading)
  | succ blocks ih =>
    unfold verifyFrom
    split
    swap
    · exact .ret (ended (Nat.le_of_not_lt ‹_›) reading)
    rename_i inside
    have front : (data.take p).length = p := by
      rw [length_take]
      omega
    have whole : data.slice p (min (data.length - p) 4096) = data.slice p 4096 := by
      rw [Bytes.slice, Bytes.slice, take_eq_take_iff, length_drop]
      omega
    rw [← append_nil (data.take p)] at reading
    refine .bind (readBlock_orderly patience reading front (Nat.zero_le _)) ?_
    intro block log read
    rcases block with _ | buffer
    · exact .ret (by simp)
    obtain ⟨length, reading⟩ := read buffer rfl
    dsimp only
    split
    · rename_i different
      refine .ret ?_
      rintro _ ⟨⟩
      refine ⟨_, reading, .inr ⟨aligned, inside, ?_, ?_⟩⟩
      · rw [take_append_of_le_length (le_of_eq front.symm), take_take, Nat.min_self]
      · intro same
        apply different
        rw [whole, ← same, Bytes.slice, drop_left' front, take_of_length_le]
        omega
    · rename_i same
      have same := not_not.mp same
      rw [same, whole, Bytes.take_append_slice] at reading
      exact ih reading (Nat.dvd_add aligned (Nat.dvd_refl _)) (by omega)

/-- The attempts.  There is another one only if the last has found a difference. -/
theorem writeAttempts_orderly (patience : Nat) {tries : Nat}
    (linked : Linked partition data attempts start) (low : start ≤ data.length) :
    oracle.Safe Believable (Orderly partition data)
      (fun success log => success = true → ∃ attempts, ∃ last : Attempt partition data,
        Linked partition data attempts last.start ∧ last.readBack = data ∧
          log = opened partition data attempts ++ last.events)
      (writeAttempts partition data patience tries start) (opened partition data attempts) := by
  induction tries generalizing attempts start with
  | zero => exact .ret nofun
  | succ tries ih =>
    rw [← append_nil (opened partition data attempts)]
    refine .bind (writeFrom_orderly linked patience .nothing low) ?_
    intro done log wrote
    cases done with
    | false => exact .ret nofun
    | true =>
      obtain ⟨writes, written, rfl⟩ := wrote rfl
      refine .call fun answer _ => ?_
      dsimp only
      generalize answer (.fsyncDevice partition) = synced
      have reading : Reading attempts start (data.take 0)
          (opened partition data attempts ++ writes ++ [⟨.fsyncDevice partition, synced⟩]) :=
        ⟨linked, ⟨start, writes, written, synced, [], [], .nothing⟩, rfl, rfl, append_assoc _ _ _⟩
      refine ⟨reading.orderly, .bind (verifyFrom_orderly patience reading ⟨0, rfl⟩ ?_) ?_⟩
      · omega
      intro place log verified
      rcases place with _ | place
      · exact .ret nofun
      obtain ⟨readBack, ⟨_, attempt, rfl, rfl, rfl⟩, outcome⟩ := verified place rfl
      dsimp only
      split
      · rename_i all
        refine .ret fun _ => ⟨attempts, attempt, linked, ?_, rfl⟩
        rcases outcome with ⟨_, same⟩ | different
        · exact same
        · exact absurd different.inside (by omega)
      · rename_i notAll
        rcases outcome with ⟨all, _⟩ | different
        · exact absurd all notAll
        · rw [opened_append]
          exact ih (.next linked different) (le_of_lt different.inside)

theorem writeToEmmc_orderly (memory : Memory) : oracle.Safe Believable (Orderly partition data)
      (fun result log => result = 0 → ∃ attempts, ∃ last : Attempt partition data,
        Linked partition data attempts last.start ∧ last.readBack = data ∧
          log = opened partition data (attempts ++ [last]) ++ [⟨.closeDevice partition, true⟩])
      (writeToEmmc memory partition data) [] := by
  refine .call fun answer _ => ?_
  dsimp only
  generalize answer (.openWrite partition) = worked
  cases worked with
  | false => exact ⟨.inr (.inl rfl), .ret nofun⟩
  | true =>
    refine ⟨Linked.first.orderly (.writing .nothing), ?_⟩
    refine .bind (writeAttempts_orderly memory.patience .first (Nat.zero_le _)) ?_
    intro success log verified
    cases success with
    | false => exact .ret nofun
    | true =>
      obtain ⟨attempts, last, linked, same, rfl⟩ := verified rfl
      refine .call fun answer _ => ?_
      dsimp only
      generalize answer (.closeDevice partition) = closed
      rw [append_assoc]
      refine ⟨linked.orderly (.closed last rfl closed), ?_⟩
      cases closed with
      | false => exact .ret nofun
      | true =>
        refine .ret fun _ => ⟨attempts, last, linked, same, ?_⟩
        rw [← opened_append, append_assoc]

end Steps

/-- Whatever writes and reads do: attempts start where they should, and a result of 0 means that
the last attempt has read all of the data back. -/
theorem writeToPartition_verified (memory : Memory) (data : Bytes) (target : Text)
    (partition : Partition) (named : partitionOf target = some partition)
    (emmc : partition.type = .emmc) (answers : List ((op : Op) → Reply op))
    (believable : ∀ step ∈ oracle.steps (writeToPartition memory data target) answers [],
      Believable step) :
    Orderly partition data (oracle.exec (writeToPartition memory data target) answers []).1 ∧
      ((oracle.exec (writeToPartition memory data target) answers []).2 = .done 0 →
        ∃ attempts, ∃ last : Attempt partition data,
          Linked partition data attempts last.start ∧ last.readBack = data ∧
            (oracle.exec (writeToPartition memory data target) answers []).1 =
              opened partition data (attempts ++ [last]) ++ [⟨.closeDevice partition, true⟩]) := by
  have same : writeToPartition memory data target = writeToEmmc memory partition data := by
    simp only [writeToPartition, named, emmc]
  rw [same] at believable ⊢
  have safe := (writeToEmmc_orderly memory).exec (.inl rfl) believable
  exact ⟨safe.1, fun done => safe.2 0 done rfl⟩

/-- A device that takes `written` bytes and then shows `read`. -/
def answer (written : Nat) (read : Bytes) : (op : Op) → Reply op
  | .openWrite _ | .fsyncDevice _ | .closeDevice _ => true
  | .writeDevice _ _ _ => .moved written
  | .readDevice _ _ _ => .moved read
  | _ => default

/-- The first attempt reads a wrong byte back, the second writes again and reads the data. -/
def secondTry : List ((op : Op) → Reply op) :=
  [answer 0 [], answer 2 [], answer 1 [], answer 0 [], answer 0 [5, 6], answer 0 [0],
    answer 3 [], answer 0 [], answer 0 [5, 6, 7], answer 0 []]

theorem writeToPartition_verified_second : ∃ attempts, ∃ last : Attempt ⟨.emmc, ['d']⟩ [5, 6, 7],
      Linked ⟨.emmc, ['d']⟩ [5, 6, 7] attempts last.start ∧ last.readBack = [5, 6, 7] ∧
        (oracle.exec (writeToPartition ⟨0, ⟨0, 0, 0⟩, fun _ => 0, 9⟩ [5, 6, 7]
          ['E', 'M', 'M', 'C', ':', 'd']) secondTry []).1 =
          opened ⟨.emmc, ['d']⟩ [5, 6, 7] (attempts ++ [last]) ++
            [⟨.closeDevice ⟨.emmc, ['d']⟩, true⟩] :=
  (writeToPartition_verified ⟨0, ⟨0, 0, 0⟩, fun _ => 0, 9⟩ [5, 6, 7] ['E', 'M', 'M', 'C', ':', 'd']
    ⟨.emmc, ['d']⟩ (by decide) rfl secondTry (by decide)).2 (by decide)

end PhilzTouch.ApplyPatch
