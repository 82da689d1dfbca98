import PhilzTouch.Mtd.Mtdutils

/-!
# What was written is read back

Writer and reader find their way over the bad blocks independently.  `Stored` says what a
partition holds for both of them: the blocks that are met, in order, from one position to
another when the bad ones are stepped over.
-/

namespace PhilzTouch.Mtd

open List FlashState

theorem asInt_lt (value : Nat) : asInt value < 2 ^ 31 := by
  have limit : (value : Int).bmod (2 ^ 32) < ((2 ^ 32 : Nat) + 1 : Int) / 2 :=
    Int.bmod_lt (by decide)
  unfold asInt
  omega

theorem asInt_le (value : Nat) : asInt value ≤ value := by
  rcases Nat.lt_or_ge value (2 ^ 31) with small | large
  · exact Int.le_of_eq (asInt_of_lt small)
  · have limit := asInt_lt value
    omega

theorem inside_of_fits {pos : Nat} {partition : MtdPartition} (small : partition.erase_size < 2 ^ 31)
    (fits : (pos : Int) + asInt partition.erase_size ≤ asInt partition.size) :
    pos + partition.erase_size ≤ partition.size := by
  have := asInt_le partition.size
  rw [asInt_of_lt small] at fits
  omega

/-! ## The layout of a partition -/

/-- From the first position to the second, the good blocks hold the given contents. -/
inductive Stored (chip : Chip) (partition : MtdPartition) (memory : Memory) :
    Nat → List Bytes → Nat → Prop where
  | done (pos : Nat) : Stored chip partition memory pos [] pos
  | skip {pos stop : Nat} {blocks : List Bytes}
      (fits : (pos : Int) + asInt partition.erase_size ≤ asInt partition.size)
      (bad : chip.isBad partition.device_index pos = true)
      (rest : Stored chip partition memory (pos + partition.erase_size) blocks stop) :
      Stored chip partition memory pos blocks stop
  | block {pos stop : Nat} {blocks : List Bytes}
      (fits : (pos : Int) + asInt partition.erase_size ≤ asInt partition.size)
      (good : chip.isBad partition.device_index pos = false)
      (rest : Stored chip partition memory (pos + partition.erase_size) blocks stop) :
      Stored chip partition memory pos (memory.load pos partition.erase_size :: blocks) stop

section Layout

variable {chip : Chip} {partition : MtdPartition} {memory other : Memory} {pos stop : Nat}
  {blocks : List Bytes} (stored : Stored chip partition memory pos blocks stop)

include stored

theorem Stored.le : pos ≤ stop := by
  induction stored with
  | done => exact Nat.le_refl _
  | skip _ _ _ ih => omega
  | block _ _ _ ih => omega

/-- Only the blocks in front of the end matter. -/
theorem Stored.frame
    (same : ∀ start count, start + count ≤ stop → other.load start count = memory.load start count) :
    Stored chip partition other pos blocks stop := by
  induction stored with
  | done => exact .done _
  | skip fits bad _ ih => exact .skip fits bad (ih same)
  | block fits good rest ih =>
    rw [← same _ _ rest.le]
    exact .block fits good (ih same)

theorem Stored.skipEnd (fits : (stop : Int) + asInt partition.erase_size ≤ asInt partition.size)
    (bad : chip.isBad partition.device_index stop = true) :
    Stored chip partition memory pos blocks (stop + partition.erase_size) := by
  induction stored with
  | done => exact .skip fits bad (.done _)
  | skip fits' bad' _ ih => exact .skip fits' bad' (ih fits bad)
  | block fits' good' _ ih => exact .block fits' good' (ih fits bad)

theorem Stored.blockEnd (fits : (stop : Int) + asInt partition.erase_size ≤ asInt partition.size)
    (good : chip.isBad partition.device_index stop = false) :
    Stored chip partition memory pos (blocks ++ [memory.load stop partition.erase_size])
      (stop + partition.erase_size) := by
  induction stored with
  | done => exact .block fits good (.done _)
  | skip fits' bad' _ ih => exact .skip fits' bad' (ih fits good)
  | block fits' good' _ ih => exact .block fits' good' (ih fits good)

theorem Stored.length : ∀ block ∈ blocks, block.length = partition.erase_size := by
  induction stored with
  | done => nofun
  | skip _ _ _ ih => exact ih
  | block _ _ _ ih =>
    exact forall_mem_cons.mpr ⟨Memory.length_load _ _ _, ih⟩

end Layout

/-! ## What the environment may do -/

section Steps

variable {chip : Chip}

/-- Good blocks store reliably, and the driver reports its failures. -/
def Reliable (step : (flashMachine chip).Step) : Prop :=
  match step.op with
  | .read device _ => chip.isBad device (step.before.position device) = false → step.choice = .ok
  | .write device _ => chip.isBad device (step.before.position device) = false → step.choice = .ok
  | .erase device start _ => chip.isBad device start = false → step.choice = .ok
  | .eccGetStats _ => step.choice ≠ .fail
  | _ => True

/-- A `read` of a bad block that fails, or gives less than it should, is not counted as a
failure of the error correction. -/
def Uncounted (step : (flashMachine chip).Step) : Prop :=
  match step.op with
  | .read _ count => ∀ result failures, step.choice = .noise result failures →
      (∀ content, result = some content → content.length < count) → failures = 0
  | _ => True

end Steps

variable {α : Type}

section Session

variable {chip : Chip} {partition : MtdPartition} {state : FlashState} {pos : Nat} {data : Bytes}

theorem program_erased (data : Bytes) : program (replicate data.length 0xff) data = data := by
  induction data with
  | nil => rfl
  | cons byte data ih =>
    rw [program] at ih
    rw [program, length_cons, replicate_succ, zipWith_cons_cons, ih]
    have whole : (0xff : UInt8) &&& byte = byte := by
      apply UInt8.toNat_inj.mp
      rw [UInt8.toNat_and]
      exact (Nat.and_comm _ _).trans (Nat.and_two_pow_sub_one_of_lt_two_pow byte.toNat_lt)
    rw [whole]

/-- Nothing in front of `stop` is different. -/
def KeepsBelow (device stop : Nat) (state after : FlashState) : Prop :=
  ∀ start count, start + count ≤ stop → after.load device start count = state.load device start count

variable {stop device : Nat} {allowed : (flashMachine chip).Step → Prop}

theorem KeepsBelow.trans {middle after : FlashState} (first : KeepsBelow device stop state middle)
    (second : KeepsBelow device stop middle after) : KeepsBelow device stop state after :=
  fun start count low => (second start count low).trans (first start count low)

theorem KeepsBelow.store (device start : Nat) (data : Bytes) :
    KeepsBelow device start state (state.store device start data) :=
  fun _ _ low => load_store_apart _ _ _ _ (.inl low)

/-- An `erase` touches nothing in front of its block. -/
theorem perform_erase_below {device length : Nat} {choice : FlashChoice} :
    KeepsBelow device pos state (flashPerform chip (.erase device pos length) choice state).1 ∧
      (flashPerform chip (.erase device pos length) choice state).1.position = state.position := by
  have unchanged : KeepsBelow device pos state state := fun _ _ _ => rfl
  cases choice with
  | ok =>
    simp only [flashPerform]
    split
    · exact ⟨.store _ _ _, rfl⟩
    · exact ⟨unchanged, rfl⟩
  | damage content => exact ⟨.store _ _ _, rfl⟩
  | fail => exact ⟨unchanged, rfl⟩
  | short count => exact ⟨unchanged, rfl⟩
  | noise result failures => exact ⟨unchanged, rfl⟩

/-- On erased cells the data appears as it is. -/
theorem perform_write_ok (here : state.position device = pos)
    (fits : pos + data.length ≤ (chip.info device).size)
    (erased : state.load device pos data.length = replicate data.length 0xff) :
    flashPerform chip (.write device data) .ok state =
      ((state.store device pos data).moveTo device (pos + data.length), (data.length : Int)) := by
  simp only [flashPerform, here, if_pos fits, erased, program_erased]

theorem perform_tell (chip : Chip) (device : Nat) (choice : FlashChoice) (state : FlashState) :
    flashPerform chip (.tell device) choice state = (state, (state.position device : Int)) := rfl

theorem perform_eccGetStats (chip : Chip) {choice : FlashChoice} (works : choice ≠ .fail) :
    flashPerform chip (.eccGetStats device) choice state = (state, some (state.failed device)) := by
  simp only [flashPerform, if_neg works]

theorem readAt_length (pos : Nat) : (flashMachine chip).Safe allowed (fun _ => True)
      (fun value _ => ∀ block, value = some block →
        (block.length : Int) = asInt partition.erase_size) (readAt partition pos) state := by
  rw [readAt]
  refine .call fun choice _ => ⟨trivial, ?_⟩
  split
  · exact .ret nofun
  refine .call fun choice _ => ⟨trivial, ?_⟩
  split
  · exact .ret nofun
  split
  next equal =>
    refine .ret fun block same => ?_
    cases same
    exact equal
  · exact .ret nofun

/-- The end of a try: the block is written only if it reads back. -/
theorem verify_length {again : FlashProg Bool} (pos : Nat)
    (retried : ∀ {state}, (flashMachine chip).Safe allowed (fun _ => True)
      (fun value _ => value = true → (data.length : Int) = asInt partition.erase_size) again state) :
    (flashMachine chip).Safe allowed (fun _ => True)
      (fun value _ => value = true → (data.length : Int) = asInt partition.erase_size)
      (do
        match ← readAt partition pos with
        | none => again
        | some verify => if data = verify then .ret true else again) state := by
  refine (readAt_length pos).bind fun value after known => ?_
  cases value with
  | none => exact retried
  | some verify =>
    dsimp only
    split
    next same => exact .ret fun _ => same ▸ known verify rfl
    · exact retried

theorem tryWrite_length (pos tries : Nat) : (flashMachine chip).Safe allowed (fun _ => True)
      (fun value _ => value = true → (data.length : Int) = asInt partition.erase_size)
      (tryWrite partition pos data tries) state := by
  induction tries generalizing state with
  | zero => exact .ret (by simp)
  | succ tries ih =>
    rw [tryWrite]
    refine .call fun choice _ => ⟨trivial, ?_⟩
    split
    · exact ih
    refine .call fun choice _ => ⟨trivial, ?_⟩
    split
    · exact .call fun choice _ => ⟨trivial, verify_length pos ih⟩
    · exact verify_length pos ih

/-- A block that does not fit a `ssize_t` cannot be read back. -/
theorem writeBlockLoop_length (fuel pos : Nat) : (flashMachine chip).Safe allowed (fun _ => True)
      (fun value _ => value = true → (data.length : Int) = asInt partition.erase_size)
      (writeBlockLoop partition data fuel pos) state := by
  induction fuel generalizing pos state with
  | zero => exact .stop
  | succ fuel ih =>
    rw [writeBlockLoop]
    split
    · exact .stop
    split
    · exact .ret nofun
    refine .call fun choice _ => ⟨trivial, ?_⟩
    split
    · exact ih _
    refine (tryWrite_length pos 2).bind fun value after known => ?_
    split
    next success => exact .ret fun _ => known success
    · exact .call fun choice _ => ⟨trivial, ih _⟩

variable {invariant : FlashState → Prop} {post : α → FlashState → Prop} {rest : Bool → FlashProg α}

section

variable (kept : invariant state)
  (failed : (flashMachine chip).Safe allowed invariant post (rest false) state)

include kept failed

theorem malloc_safe (fine : (flashMachine chip).Safe allowed invariant post (rest true) state) :
    (flashMachine chip).Safe allowed invariant post (Prog.call FlashOp.malloc >>= rest) state := by
  refine .call fun choice _ => ⟨kept, ?_⟩
  change (flashMachine chip).Safe allowed invariant post (rest (decide (choice ≠ .fail))) state
  cases decide (choice ≠ .fail) with
  | false => exact failed
  | true => exact fine

theorem openDevice_safe (begun : invariant (state.moveTo device 0))
    (fine : (flashMachine chip).Safe allowed invariant post (rest true) (state.moveTo device 0)) :
    (flashMachine chip).Safe allowed invariant post
      (Prog.call (FlashOp.openDevice device) >>= rest) state := by
  refine .call fun choice _ => ?_
  dsimp only [flashPerform]
  by_cases fails : choice = .fail
  · simp only [if_pos fails]
    exact ⟨kept, failed⟩
  · simp only [if_neg fails]
    exact ⟨begun, fine⟩

end

/-- A fresh context stands at the beginning of the partition. -/
theorem mtdReadPartition_fresh (partition : MtdPartition) (state : FlashState) :
    (flashMachine chip).Safe (fun _ => True) (fun _ => True)
      (fun value after => ∀ ctx, value = some ctx → ctx = ⟨partition, [], partition.erase_size⟩ ∧
        after.cells = state.cells ∧ after.position partition.device_index = 0)
      (mtdReadPartition partition) state := by
  rw [mtdReadPartition]
  refine malloc_safe trivial (.ret nofun) ?_
  rw [if_neg nofun]
  refine malloc_safe trivial (.ret nofun) ?_
  rw [if_neg nofun]
  refine openDevice_safe trivial (.ret nofun) trivial ?_
  rw [if_neg nofun]
  refine .ret fun ctx known => ?_
  cases known
  exact ⟨rfl, rfl, state.position_moveTo _ _⟩

/-! ## Good blocks -/

section Good

variable (scanned : Scanned chip partition)

include scanned

theorem perform_seek (choice : FlashChoice) (fits : pos ≤ partition.size) :
    flashPerform chip (.seek partition.device_index pos) choice state =
      (state.moveTo partition.device_index pos, (pos : Int)) := by
  have inside : (0 : Int) ≤ pos ∧ (pos : Int) ≤ (chip.info partition.device_index).size := by
    rw [← scanned.size]
    omega
  rw [flashPerform, if_pos inside]
  rfl

theorem perform_getBadBlock (choice : FlashChoice) (fits : pos < partition.size) :
    flashPerform chip (.getBadBlock partition.device_index pos) choice state =
      (state, if chip.isBad partition.device_index pos then 1 else 0) := by
  have inside : (0 : Int) ≤ pos ∧ (pos : Int) < (chip.info partition.device_index).size := by
    rw [← scanned.size]
    omega
  rw [flashPerform, if_pos inside]
  rfl

theorem readAt_good (reliable : ∀ step, allowed step → Reliable step)
    (fits : pos + partition.erase_size ≤ partition.size) (small : partition.erase_size < 2 ^ 31)
    (good : chip.isBad partition.device_index pos = false) : (flashMachine chip).Ensures allowed
      (fun value after => value = some (state.load partition.device_index pos partition.erase_size) ∧
        after = state.moveTo partition.device_index (pos + partition.erase_size))
      (readAt partition pos) state := by
  rw [readAt]
  refine .known (fun choice _ => perform_seek scanned choice (by omega)) ?_
  rw [if_neg (not_not.mpr rfl)]
  have count : min partition.erase_size ((chip.info partition.device_index).size - pos) =
      partition.erase_size := by
    rw [← scanned.size]
    omega
  have read : ∀ choice, allowed ⟨.read partition.device_index partition.erase_size, choice,
      state.moveTo partition.device_index pos⟩ →
      flashPerform chip (.read partition.device_index partition.erase_size) choice
        (state.moveTo partition.device_index pos) =
      (state.moveTo partition.device_index (pos + partition.erase_size),
        some (state.load partition.device_index pos partition.erase_size)) := by
    intro choice admitted
    have works : choice = .ok := by
      refine reliable _ admitted ?_
      rw [position_moveTo]
      exact good
    subst works
    simp only [flashPerform, readCells, transferred, position_moveTo, count,
      moveTo_moveTo, load_moveTo]
  refine .known read ?_
  dsimp only
  rw [length_load, asInt_of_lt small, if_pos rfl]
  exact .ret ⟨rfl, rfl⟩

theorem perform_erase_ok (fits : pos + partition.erase_size ≤ partition.size) (aligned : pos % partition.erase_size = 0) :
    flashPerform chip (.erase partition.device_index pos partition.erase_size) .ok state =
      (state.store partition.device_index pos (replicate partition.erase_size 0xff), true) := by
  rw [scanned.erase_size] at aligned
  rw [scanned.size] at fits
  simp only [flashPerform, if_pos (And.intro aligned fits)]

theorem tryWrite_good (reliable : ∀ step, allowed step → Reliable step)
    (fits : pos + partition.erase_size ≤ partition.size)
    (small : partition.erase_size < 2 ^ 31) (aligned : pos % partition.erase_size = 0)
    (good : chip.isBad partition.device_index pos = false)
    (whole : data.length = partition.erase_size) (tries : Nat) : (flashMachine chip).Ensures allowed
      (fun value after => value = true ∧
        after.position partition.device_index = pos + partition.erase_size ∧
        after.load partition.device_index pos partition.erase_size = data ∧
        KeepsBelow partition.device_index pos state after)
      (tryWrite partition pos data (tries + 1)) state := by
  rw [tryWrite]
  have erase : ∀ choice,
      allowed ⟨.erase partition.device_index pos partition.erase_size, choice, state⟩ →
      flashPerform chip (.erase partition.device_index pos partition.erase_size) choice state =
      (state.store partition.device_index pos (replicate partition.erase_size 0xff), true) := by
    intro choice admitted
    have works : choice = .ok := reliable _ admitted good
    subst works
    exact perform_erase_ok scanned fits aligned
  refine .known erase ?_
  rw [if_neg nofun]
  have below := @KeepsBelow.store state partition.device_index pos
    (replicate partition.erase_size 0xff)
  have erased := state.load_store partition.device_index pos (replicate partition.erase_size 0xff)
  rw [length_replicate] at erased
  generalize state.store partition.device_index pos (replicate partition.erase_size 0xff) =
    cleared at below erased
  refine .known (fun choice _ => perform_seek scanned choice (by omega)) ?_
  rw [if_pos rfl]
  have write : ∀ choice, allowed ⟨.write partition.device_index data, choice,
      cleared.moveTo partition.device_index pos⟩ →
      flashPerform chip (.write partition.device_index data) choice
        (cleared.moveTo partition.device_index pos) =
      (((cleared.moveTo partition.device_index pos).store partition.device_index pos data).moveTo
        partition.device_index (pos + data.length), (data.length : Int)) := by
    intro choice admitted
    have works : choice = .ok := by
      refine reliable _ admitted ?_
      rw [position_moveTo]
      exact good
    subst works
    refine perform_write_ok (position_moveTo _ _ _) ?_ ?_
    · rw [whole, ← scanned.size]
      exact fits
    · rw [load_moveTo, whole, erased]
  refine .known write ?_
  refine (readAt_good scanned reliable fits small good).bind fun value after known => ?_
  obtain ⟨rfl, rfl⟩ := known
  have same : (((cleared.moveTo partition.device_index pos).store partition.device_index pos
      data).moveTo partition.device_index (pos + data.length)).load partition.device_index pos
        partition.erase_size = data := by
    rw [load_moveTo, ← whole, load_store]
  dsimp only
  rw [same, if_pos rfl]
  refine .ret ⟨rfl, position_moveTo _ _ _, ?_, ?_⟩
  · rw [load_moveTo, same]
  · exact below.trans (.store _ _ _)

/-! ## Writing -/

/-- What holds when a program of the writer returns. -/
abbrev Writes (chip : Chip) (post : α → FlashState → Prop) (program : FlashProg α)
    (state : FlashState) : Prop :=
  (flashMachine chip).Safe Reliable (fun _ => True) post program state

/-- What the writer has done so far: the blocks in front of its position. -/
structure Held (chip : Chip) (partition : MtdPartition) (blocks : List Bytes)
    (state : FlashState) : Prop where
  stored : Stored chip partition (state.cells partition.device_index) 0 blocks
    (state.position partition.device_index)
  aligned : state.position partition.device_index % partition.erase_size = 0
  small : blocks ≠ [] → partition.erase_size < 2 ^ 31

variable {blocks : List Bytes}

/-- The loop steps over bad blocks and writes to the first good one. -/
theorem writeBlockLoop_held (small : partition.erase_size < 2 ^ 31) (whole : data.length = partition.erase_size)
    (fuel : Nat) (stored : Stored chip partition (state.cells partition.device_index) 0 blocks pos)
    (aligned : pos % partition.erase_size = 0) :
    Writes chip (fun value after => value = true → Held chip partition (blocks ++ [data]) after)
      (writeBlockLoop partition data fuel pos) state := by
  induction fuel generalizing pos with
  | zero => exact .stop
  | succ fuel ih =>
    rw [writeBlockLoop]
    split
    · exact .stop
    split
    · exact .ret nofun
    next fits =>
    have fits := Int.not_lt.mp fits
    have inside := inside_of_fits small fits
    have next : (pos + partition.erase_size) % partition.erase_size = 0 := by
      rw [Nat.add_mod_right, aligned]
    have positive := scanned.positive
    refine .known (fun choice _ => perform_getBadBlock scanned choice (by omega)) trivial ?_
    cases bad : chip.isBad partition.device_index pos with
    | true =>
      rw [if_pos rfl, if_pos Int.one_ne_zero]
      exact ih (stored.skipEnd fits bad) next
    | false =>
      rw [if_neg Bool.false_ne_true, if_neg (not_not.mpr rfl)]
      refine (tryWrite_good scanned (fun _ admitted => admitted) inside small aligned bad whole
        1).mayStop.bind fun value after written => ?_
      obtain ⟨rfl, position, content, below⟩ := written
      rw [if_pos rfl]
      refine .ret fun _ => ⟨?_, by rw [position, next], fun _ => small⟩
      have kept : Stored chip partition (after.cells partition.device_index) 0 blocks pos :=
        stored.frame below
      rw [position, ← content]
      exact kept.blockEnd fits bad

theorem writeBlock_held (whole : data.length = partition.erase_size) (held : Held chip partition blocks state) :
    Writes chip (fun value after => value = true → Held chip partition (blocks ++ [data]) after)
      (writeBlock partition data) state := by
  rw [writeBlock]
  refine .known (fun _ _ => rfl) trivial ?_
  refine malloc_safe trivial (.ret nofun) ?_
  rw [if_neg nofun, Int.toNat_natCast]
  by_cases small : partition.erase_size < 2 ^ 31
  · exact writeBlockLoop_held scanned small whole _ held.stored held.aligned
  · refine (writeBlockLoop_length _ _).weaken fun value after known success => ?_
    have fits := known success
    have limit := asInt_lt partition.erase_size
    omega

/-- The writer has taken `given`: whole blocks of it are on the partition, the rest is in the
buffer. -/
structure Taken (chip : Chip) (partition : MtdPartition) (given : Bytes) (ctx : MtdWriteContext)
    (state : FlashState) : Prop where
  same : ctx.partition = partition
  short : ctx.buffer.length < partition.erase_size
  held : ∃ blocks, Held chip partition blocks state ∧ blocks.flatten ++ ctx.buffer = given

theorem writeWhole_held (fuel : Nat) (held : Held chip partition blocks state) : Writes chip
      (fun value after => ∀ rest, value = some rest → rest.length < partition.erase_size ∧
        ∃ more, Held chip partition (blocks ++ more) after ∧ more.flatten ++ rest = data)
      (writeWhole partition fuel data) state := by
  induction fuel generalizing data blocks state with
  | zero => exact .stop
  | succ fuel ih =>
    rw [writeWhole]
    split
    next long =>
      refine (writeBlock_held scanned (by rw [length_take]; omega) held).bind
        fun value after written => ?_
      split
      · exact .ret nofun
      next success =>
      have held' := written (Bool.not_eq_false _ ▸ success)
      refine (ih held').weaken fun value done later rest known => ?_
      obtain ⟨short, more, keeps, joined⟩ := later rest known
      refine ⟨short, data.take partition.erase_size :: more, ?_, ?_⟩
      · rwa [append_assoc] at keeps
      · rw [flatten_cons, append_assoc, joined, take_append_drop]
    next short =>
      refine .ret fun rest known => ?_
      cases known
      exact ⟨by omega, [], by rwa [append_nil], rfl⟩

variable {given : Bytes} {ctx : MtdWriteContext}

theorem writeWhole_taken {fuel : Nat} (same : ctx.partition = partition)
    (held : Held chip partition blocks state) (joined : blocks.flatten ++ data = given)
    (continues : ∀ {given data : Bytes} {ctx : MtdWriteContext} {state : FlashState},
      Taken chip partition given ctx state →
      Writes chip
        (fun value after => ∀ next, value = some next →
          Taken chip partition (given ++ data) next after) (writeDataLoop fuel ctx data) state) :
    Writes chip
      (fun value after => ∀ next, value = some next → Taken chip partition given next after)
      (do
        match ← writeWhole ctx.partition (data.length + 1) data with
        | none => .ret none
        | some data => writeDataLoop fuel { ctx with buffer := [] } data) state := by
  rw [same]
  refine (writeWhole_held scanned _ held).bind fun value after written => ?_
  cases value with
  | none => exact .ret nofun
  | some rest =>
    obtain ⟨short, more, held', split⟩ := written rest rfl
    have taken : Taken chip partition (blocks ++ more).flatten ⟨partition, []⟩ after :=
      ⟨rfl, scanned.positive, blocks ++ more, held', append_nil _⟩
    have total : (blocks ++ more).flatten ++ rest = given := by
      rw [flatten_append, append_assoc, split, joined]
    exact total ▸ continues taken

theorem writeDataLoop_taken (fuel : Nat) (taken : Taken chip partition given ctx state) :
    Writes chip (fun value after => ∀ next, value = some next →
        Taken chip partition (given ++ data) next after) (writeDataLoop fuel ctx data) state := by
  induction fuel generalizing given data ctx state with
  | zero => exact .stop
  | succ fuel ih =>
    obtain ⟨same, short, blocks, held, joined⟩ := taken
    rw [writeDataLoop]
    split
    next empty =>
      refine .ret fun next known => ?_
      cases known
      rw [empty, append_nil]
      exact ⟨same, short, blocks, held, joined⟩
    dsimp only
    rw [same]
    generalize known : (if ctx.buffer ≠ [] ∨ data.length < partition.erase_size then
      min data.length (partition.erase_size - ctx.buffer.length) else 0) = copy
    have room : (ctx.buffer ++ data.take copy).length ≤ partition.erase_size := by
      rw [length_append, length_take]
      split at known <;> omega
    have total : blocks.flatten ++ (ctx.buffer ++ data.take copy) ++ data.drop copy =
        given ++ data := by
      rw [← append_assoc, joined, append_assoc, take_append_drop]
    split
    next full =>
      refine (writeBlock_held scanned full held).bind fun value after written => ?_
      split
      · exact .ret nofun
      next success =>
        have held' := written (Bool.not_eq_false _ ▸ success)
        have rest := @writeWhole_taken chip partition after (data.drop copy) scanned _ (given ++ data)
          ctx fuel same held' (by simpa using total) ih
        rwa [same] at rest
    next incomplete =>
    split
    next empty =>
      rw [empty, append_nil] at total
      have rest := @writeWhole_taken chip partition state (data.drop copy) scanned _ (given ++ data)
        ctx fuel same held total ih
      rwa [same] at rest
    next =>
      rw [← total]
      exact ih ⟨rfl, Nat.lt_of_le_of_ne room incomplete, blocks, held, rfl⟩

theorem writeCalls_taken (pieces : List Bytes) (taken : Taken chip partition given ctx state) :
    Writes chip (fun value after => ∀ next, value = some next →
        Taken chip partition (given ++ pieces.flatten) next after) (writeCalls ctx pieces) state := by
  induction pieces generalizing given ctx state with
  | nil =>
    refine .ret fun next known => ?_
    cases known
    simpa using taken
  | cons piece pieces ih =>
    rw [writeCalls]
    refine (writeDataLoop_taken scanned _ taken).bind fun value after written => ?_
    cases value with
    | none => exact .ret nofun
    | some next =>
      have rest := @ih _ _ _ (written next rfl)
      rwa [append_assoc, ← flatten_cons] at rest

/-! ## The end of writing -/

/-- Zeros up to the end of the block. -/
def padded (partition : MtdPartition) (content : Bytes) : Bytes :=
  content ++ replicate ((partition.erase_size - content.length % partition.erase_size) %
    partition.erase_size) 0

omit scanned in
theorem eraseLoop_below {count : Nat} (low : stop ≤ pos) :
    (flashMachine chip).Safe allowed (fun _ => True)
      (fun _ after => KeepsBelow partition.device_index stop state after ∧
        after.position = state.position) (eraseLoop partition count pos) state := by
  induction count generalizing pos state with
  | zero => exact .ret ⟨fun _ _ _ => rfl, rfl⟩
  | succ count ih =>
    rw [eraseLoop]
    refine .call fun choice _ => ⟨trivial, ?_⟩
    have unchanged : ((flashMachine chip).perform (.getBadBlock partition.device_index pos) choice
        state).1 = state := by
      simp only [flashPerform]
      split <;> rfl
    rw [unchanged]
    split
    · exact ih (by omega)
    refine .call fun choice _ => ⟨trivial, ?_⟩
    obtain ⟨below, position⟩ := @perform_erase_below chip state pos partition.device_index
      partition.erase_size choice
    refine (@ih _ (pos + partition.erase_size) (by omega)).weaken fun value after later => ?_
    refine ⟨.trans (fun start count small => below start count (by omega)) later.1, ?_⟩
    rw [later.2]
    exact position

omit scanned in
theorem eraseFrom_held (same : ctx.partition = partition) (count : Int)
    (held : Held chip partition blocks state) : (flashMachine chip).Safe allowed (fun _ => True)
      (fun value after => ∀ next, value = some next →
        next = ctx ∧ Held chip partition blocks after) (eraseFrom ctx count) state := by
  rw [eraseFrom, same]
  refine .known (fun _ _ => rfl) trivial ?_
  split
  · exact .stop trivial
  dsimp only
  generalize asInt _ = total
  generalize (if count < 0 then total else count) = blocks'
  split
  · exact .ret nofun
  refine (eraseLoop_below (Nat.le_refl _)).bind fun value after kept => ?_
  refine .ret fun next known => ?_
  cases known
  rw [Int.toNat_natCast] at kept
  refine ⟨rfl, ?_, ?_, held.small⟩
  · rw [kept.2]
    exact held.stored.frame kept.1
  · rw [kept.2]
    exact held.aligned

omit scanned in
theorem padded_whole {content : Bytes} (whole : content.length % partition.erase_size = 0) :
    padded partition content = content := by
  rw [padded, whole, Nat.sub_zero, Nat.mod_self, replicate_zero, append_nil]

omit scanned in
theorem Held.whole (held : Held chip partition blocks state) :
    blocks.flatten.length % partition.erase_size = 0 := by
  have sizes := held.stored.length
  clear held
  induction blocks with
  | nil => rfl
  | cons block blocks ih =>
    rw [flatten_cons, length_append, sizes block mem_cons_self, Nat.add_mod_left]
    exact ih (forall_mem_cons.mp sizes).2

/-- What is pending is written with zeros behind it. -/
theorem mtdEraseBlocks_held (count : Int) (taken : Taken chip partition given ctx state) :
    Writes chip (fun value after => ∀ next, value = some next → next = ⟨partition, []⟩ ∧
        ∃ blocks, Held chip partition blocks after ∧ blocks.flatten = padded partition given)
      (mtdEraseBlocks ctx count) state := by
  obtain ⟨partition', buffer⟩ := ctx
  obtain ⟨same, short, blocks, held, joined⟩ := taken
  dsimp only at same short joined
  subst same
  have whole := held.whole
  rw [mtdEraseBlocks]
  dsimp only
  split
  next empty =>
    subst empty
    rw [append_nil] at joined
    subst joined
    refine (eraseFrom_held rfl count held).weaken fun value after kept next known => ?_
    obtain ⟨rfl, held'⟩ := kept next known
    exact ⟨rfl, blocks, held', (padded_whole whole).symm⟩
  next pending =>
    have size : (buffer ++ replicate (partition'.erase_size - buffer.length) 0).length =
        partition'.erase_size := by
      rw [length_append, length_replicate]
      omega
    have zeros : (partition'.erase_size - (blocks.flatten ++ buffer).length %
        partition'.erase_size) % partition'.erase_size = partition'.erase_size - buffer.length := by
      have some : 0 < buffer.length := length_pos_iff.mpr pending
      rw [length_append, Nat.add_mod, whole, Nat.zero_add, Nat.mod_mod,
        Nat.mod_eq_of_lt short, Nat.mod_eq_of_lt (by omega)]
    refine (writeBlock_held scanned size held).bind fun value after written => ?_
    split
    · exact .ret nofun
    next success =>
    have held' := written (Bool.not_eq_false _ ▸ success)
    refine (eraseFrom_held rfl count held').weaken fun value done kept next known => ?_
    obtain ⟨rfl, held''⟩ := kept next known
    refine ⟨rfl, _, held'', ?_⟩
    rw [← joined, padded, zeros]
    simp

/-- After a session in which everything succeeds the partition holds what was written. -/
theorem writeSession_stored (pieces : List Bytes) : Writes chip
      (fun value after => value = true → ∃ blocks stop,
        Stored chip partition (after.cells partition.device_index) 0 blocks stop ∧
          blocks.flatten = padded partition pieces.flatten ∧
          (blocks ≠ [] → partition.erase_size < 2 ^ 31)) (writeSession partition pieces) state := by
  rw [writeSession]
  have opened : Writes chip
      (fun value after => ∀ ctx, value = some ctx → Taken chip partition [] ctx after)
      (mtdWritePartition partition) state := by
    rw [mtdWritePartition]
    refine malloc_safe trivial (.ret nofun) ?_
    rw [if_neg nofun]
    refine malloc_safe trivial (.ret nofun) ?_
    rw [if_neg nofun]
    refine openDevice_safe trivial (.ret nofun) trivial ?_
    rw [if_neg nofun]
    refine .ret fun ctx known => ?_
    cases known
    refine ⟨rfl, scanned.positive, [], ⟨?_, ?_, nofun⟩, rfl⟩
    · rw [position_moveTo]
      exact .done 0
    · rw [position_moveTo, Nat.zero_mod]
  refine opened.bind fun value before start => ?_
  cases value with
  | none => exact .ret nofun
  | some ctx =>
    refine (writeCalls_taken scanned pieces (start ctx rfl)).bind fun value after written => ?_
    cases value with
    | none => exact .ret nofun
    | some ctx =>
      refine (mtdEraseBlocks_held scanned (-1) (written ctx rfl)).bind fun value erased kept => ?_
      cases value with
      | none => exact .ret nofun
      | some ctx =>
        obtain ⟨rfl, blocks, held, content⟩ := kept ctx rfl
        have taken : Taken chip partition blocks.flatten ⟨partition, []⟩ erased :=
          ⟨rfl, scanned.positive, blocks, held, append_nil _⟩
        rw [nil_append] at content
        dsimp only
        rw [mtdWriteClose]
        refine (mtdEraseBlocks_held scanned 0 taken).bind fun value closed still => ?_
        refine .call fun choice _ => ⟨trivial, .ret fun success => ?_⟩
        rw [Bool.and_eq_true] at success
        obtain ⟨next, known⟩ := Option.isSome_iff_exists.mp success.1
        obtain ⟨-, same, held', joined⟩ := still next known
        rw [padded_whole held.whole, content] at joined
        exact ⟨same, _, held'.stored, joined, held'.small⟩

/-! ## Reading -/

/-- The steps of a reader that is not misled. -/
def Plain (step : (flashMachine chip).Step) : Prop := Reliable step ∧ Uncounted step

/-- The read of a bad block gives nothing, or the failures that it was counted for show. -/
theorem readAt_bad (small : partition.erase_size < 2 ^ 31)
    (fits : pos ≤ partition.size) (bad : chip.isBad partition.device_index pos = true) :
    (flashMachine chip).Ensures Plain
      (fun value after => after.cells = state.cells ∧ (value = none → after.failed = state.failed))
      (readAt partition pos) state := by
  rw [readAt, asInt_of_lt small]
  refine .known (fun choice _ => perform_seek scanned choice fits) ?_
  rw [if_neg (not_not.mpr rfl)]
  refine .call fun choice admitted => ?_
  have uncounted := admitted.2
  cases choice with
  | fail => exact .ret ⟨rfl, fun _ => rfl⟩
  | damage content => exact .ret ⟨rfl, fun _ => rfl⟩
  | ok =>
    dsimp only [flashPerform, readCells]
    split <;> exact .ret ⟨rfl, fun _ => rfl⟩
  | short count =>
    dsimp only [flashPerform, readCells]
    split <;> exact .ret ⟨rfl, fun _ => rfl⟩
  | noise result failures =>
    have counted : (∀ content, result = some content → content.length < partition.erase_size) →
        Function.update state.failed partition.device_index
          (state.failed partition.device_index + failures) = state.failed := by
      intro less
      rw [uncounted result failures rfl less, Nat.add_zero, Function.update_eq_self]
    simp only [flashPerform, position_moveTo, bad, if_true]
    cases result with
    | none => exact .ret ⟨rfl, fun _ => counted nofun⟩
    | some content =>
      dsimp only [Option.map_some]
      split
      · exact .ret ⟨rfl, nofun⟩
      next less =>
        refine .ret ⟨rfl, fun _ => counted fun other same => ?_⟩
        cases same
        rw [length_take] at less
        omega

theorem readBlockLoop_stored {memory : Memory} {block : Bytes}  (small : partition.erase_size < 2 ^ 31)
    (stored : Stored chip partition memory pos (block :: blocks) stop) (fuel : Nat)
    (enough : partition.size < pos + fuel) (holds : state.cells partition.device_index = memory) :
    (flashMachine chip).Ensures Plain
      (fun value after => value = some block ∧ after.cells = state.cells ∧
        Stored chip partition memory (after.position partition.device_index) blocks stop)
      (readBlockLoop partition fuel (state.failed partition.device_index) pos) state := by
  generalize known : block :: blocks = all at stored
  induction stored generalizing fuel state with
  | done => cases known
  | @skip pos stop _ fits bad rest ih =>
    have inside := inside_of_fits small fits
    have positive := scanned.positive
    obtain ⟨fuel, rfl⟩ : ∃ less, fuel = less + 1 := ⟨fuel - 1, by omega⟩
    have next : ∀ after : FlashState, after.cells = state.cells → (flashMachine chip).Ensures Plain
          (fun value done => value = some block ∧ done.cells = state.cells ∧
            Stored chip partition memory (done.position partition.device_index) blocks stop)
          (readBlockLoop partition fuel (after.failed partition.device_index)
            (pos + partition.erase_size)) after := by
      intro after same
      have later := ih fuel (by omega) (same ▸ holds) known
      rwa [same] at later
    rw [readBlockLoop, if_neg (Int.not_lt.mpr fits)]
    refine (readAt_bad scanned small (by omega) bad).bind fun value after kept => ?_
    cases value with
    | none =>
      rw [← kept.2 rfl]
      exact next after kept.1
    | some data =>
      refine .known (fun _ admitted => perform_eccGetStats chip admitted.1) trivial ?_
      dsimp only
      split
      · exact next after kept.1
      next counted =>
      rw [← not_not.mp counted]
      refine .known (fun choice _ => perform_getBadBlock scanned choice (by omega)) trivial ?_
      rw [bad, if_pos rfl, if_pos Int.one_ne_zero]
      exact next after kept.1
  | @block pos stop _ fits good rest ih =>
    cases known
    have inside := inside_of_fits small fits
    have positive := scanned.positive
    obtain ⟨fuel, rfl⟩ : ∃ less, fuel = less + 1 := ⟨fuel - 1, by omega⟩
    rw [readBlockLoop, if_neg (Int.not_lt.mpr fits)]
    refine (readAt_good scanned (fun _ admitted => admitted.1) inside small good).bind
      fun value after known => ?_
    obtain ⟨rfl, rfl⟩ := known
    refine .known (fun _ admitted => perform_eccGetStats chip admitted.1) trivial ?_
    dsimp only
    rw [failed_moveTo, if_neg (not_not.mpr rfl)]
    refine .known (fun choice _ => perform_getBadBlock scanned choice (by omega)) trivial ?_
    rw [good, if_neg Bool.false_ne_true, if_neg (not_not.mpr rfl)]
    refine .ret ⟨by rw [load, holds], rfl, ?_⟩
    rw [position_moveTo]
    exact rest

/-- The reader stands in front of `rest`: part of it in the buffer, the other blocks on the
partition. -/
structure Ahead (chip : Chip) (partition : MtdPartition) (rest : Bytes) (ctx : MtdReadContext)
    (state : FlashState) : Prop where
  same : ctx.partition = partition
  consumed : ctx.consumed ≤ partition.erase_size
  small : rest ≠ [] → partition.erase_size < 2 ^ 31
  buffer : ctx.buffer = [] ∧ ctx.consumed = partition.erase_size ∨
    ctx.buffer.length = partition.erase_size
  stored : ∃ blocks stop, Stored chip partition (state.cells partition.device_index)
    (state.position partition.device_index) blocks stop ∧
    ctx.buffer.drop ctx.consumed ++ blocks.flatten = rest

theorem readBlock_stored {block : Bytes}  (small : partition.erase_size < 2 ^ 31)
    (stored : Stored chip partition (state.cells partition.device_index)
      (state.position partition.device_index) (block :: blocks) stop) :
    (flashMachine chip).Ensures Plain (fun value after => value = some block ∧
        Stored chip partition (after.cells partition.device_index)
          (after.position partition.device_index) blocks stop) (readBlock partition) state := by
  rw [readBlock]
  refine .known (fun _ admitted => perform_eccGetStats chip admitted.1) ?_
  dsimp only
  refine .known (fun choice _ => perform_tell chip _ choice state) ?_
  rw [Int.toNat_natCast]
  refine (readBlockLoop_stored scanned small stored _ (by omega) rfl).weaken
    fun value after known => ?_
  obtain ⟨found, same, rest⟩ := known
  exact ⟨found, same ▸ rest⟩

theorem readWhole_stored {need : Nat} {out : Bytes} (small : 0 < need → partition.erase_size < 2 ^ 31)
    (stored : Stored chip partition (state.cells partition.device_index)
      (state.position partition.device_index) blocks stop) (enough : need ≤ blocks.flatten.length)
    (fuel : Nat) (time : need < fuel) : (flashMachine chip).Ensures Plain
      (fun value after => ∃ first second left, blocks = first ++ second ∧
        value = some (out ++ first.flatten, left) ∧ first.flatten.length + left = need ∧
        left < partition.erase_size ∧ Stored chip partition (after.cells partition.device_index)
          (after.position partition.device_index) second stop)
      (readWhole partition fuel need out) state := by
  have positive := scanned.positive
  induction fuel generalizing blocks need out state with
  | zero => omega
  | succ fuel ih =>
    rw [readWhole]
    split
    next long =>
      cases blocks with
      | nil =>
        rw [flatten_nil, length_nil] at enough
        omega
      | cons block blocks =>
        have size := stored.length block mem_cons_self
        rw [flatten_cons, length_append, size] at enough
        refine (readBlock_stored scanned (small (by omega)) stored).bind fun value after known => ?_
        obtain ⟨rfl, rest⟩ := known
        refine (@ih _ _ (need - partition.erase_size) (out ++ block)
          (fun some => small (by omega)) rest (by omega) (by omega)).weaken
          fun value done later => ?_
        obtain ⟨first, second, left, rfl, rfl, count, less, still⟩ := later
        refine ⟨block :: first, second, left, rfl, ?_, ?_, less, still⟩
        · rw [flatten_cons, append_assoc]
        · rw [flatten_cons, length_append, size]
          omega
    next short =>
      refine .ret ⟨[], blocks, need, rfl, ?_, ?_, by omega, stored⟩
      · rw [flatten_nil, append_nil]
      · rw [flatten_nil, length_nil, Nat.zero_add]

variable {ctx : MtdReadContext} {rest : Bytes} (ahead : Ahead chip partition rest ctx state)

include ahead

omit scanned in
theorem Ahead.available :
    (ctx.buffer.drop ctx.consumed).length = partition.erase_size - ctx.consumed := by
  rcases ahead.buffer with ⟨empty, used⟩ | full
  · rw [empty, used, drop_nil, length_nil, Nat.sub_self]
  · rw [length_drop, full]

theorem readDataLoop_buffered {need : Nat} {out : Bytes}
    (enough : need ≤ partition.erase_size - ctx.consumed) (fuel : Nat) :
    (flashMachine chip).Ensures Plain
      (fun value after => ∃ next, value = some (out ++ rest.take need, next) ∧
        Ahead chip partition (rest.drop need) next after)
      (readDataLoop (fuel + 2) ctx need out) state := by
  rw [readDataLoop]
  split
  next none =>
    subst none
    refine .ret ⟨ctx, ?_, ahead⟩
    rw [take_zero, append_nil]
  next nonzero =>
  have available := ahead.available
  obtain ⟨same, consumed, small, buffer, blocks, stop, stored, joined⟩ := ahead
  have long : ctx.buffer.length = partition.erase_size := by
    rcases buffer with ⟨_, used⟩ | full
    · omega
    · exact full
  have part : ctx.buffer.slice ctx.consumed need = rest.take need := by
    rw [← joined, take_append_of_le_length (by omega), Bytes.slice]
  have behind : ctx.buffer.drop (ctx.consumed + need) ++ blocks.flatten = rest.drop need := by
    rw [← joined, drop_append_of_le_length (by omega), drop_drop]
  have small' : rest.drop need ≠ [] → partition.erase_size < 2 ^ 31 := by
    intro more
    exact small fun empty => more (by rw [empty, drop_nil])
  have copy : (if ctx.consumed < partition.erase_size then
      min need (partition.erase_size - ctx.consumed) else 0) = need := by
    rw [if_pos (by omega), Nat.min_eq_left enough]
  dsimp only
  rw [same, copy, Nat.sub_self, part]
  split
  next full =>
    refine (readWhole_stored scanned (absurd · (Nat.lt_irrefl 0)) stored (Nat.zero_le _) _
      Nat.one_pos).bind fun value after known => ?_
    obtain ⟨first, second, left, rfl, rfl, count, -, still⟩ := known
    obtain ⟨none, rfl⟩ : first.flatten = [] ∧ left = 0 := by
      refine ⟨eq_nil_of_length_eq_zero ?_, ?_⟩ <;> omega
    rw [flatten_append, none, nil_append] at behind
    dsimp only
    rw [if_pos rfl, none, append_nil]
    refine .ret ⟨_, rfl, rfl, ?_, small', .inr long, second, stop, still, behind⟩
    exact Nat.le_of_eq full
  next =>
    rw [readDataLoop, if_pos rfl]
    refine .ret ⟨_, rfl, rfl, ?_, small', .inr long, blocks, stop, stored, behind⟩
    dsimp only
    omega

/-- `mtd_read_data` delivers the next bytes. -/
theorem mtdReadData_ahead {len : Nat} (enough : len ≤ rest.length) :
    (flashMachine chip).Ensures Plain
      (fun value after => ∃ next, value = some (rest.take len, next) ∧
        Ahead chip partition (rest.drop len) next after) (mtdReadData ctx len) state := by
  rw [mtdReadData]
  by_cases short : len ≤ partition.erase_size - ctx.consumed
  · have buffered := @readDataLoop_buffered chip partition state scanned ctx rest ahead len [] short 1
    rwa [nil_append] at buffered
  have available := ahead.available
  obtain ⟨same, consumed, small, buffer, blocks, stop, stored, joined⟩ := ahead
  have small : partition.erase_size < 2 ^ 31 := by
    refine small fun empty => ?_
    rw [empty, length_nil] at enough
    omega
  have total : (partition.erase_size - ctx.consumed) + blocks.flatten.length = rest.length := by
    rw [← joined, length_append, available]
  have copy : (if ctx.consumed < partition.erase_size then
      min len (partition.erase_size - ctx.consumed) else 0) =
      partition.erase_size - ctx.consumed := by
    split <;> omega
  have part : ctx.buffer.slice ctx.consumed (partition.erase_size - ctx.consumed) =
      ctx.buffer.drop ctx.consumed := by
    rw [Bytes.slice, take_of_length_le (Nat.le_of_eq available)]
  rw [readDataLoop, if_neg (by omega)]
  dsimp only
  rw [same, copy, part, Nat.add_sub_cancel' consumed, if_pos rfl, nil_append]
  refine (readWhole_stored scanned (fun _ => small) stored (by omega) _ (Nat.lt_succ_self _)).bind
    fun value after known => ?_
  obtain ⟨first, second, left, rfl, rfl, count, less, still⟩ := known
  rw [flatten_append, ← append_assoc] at joined
  have size : (ctx.buffer.drop ctx.consumed ++ first.flatten).length + left = len := by
    rw [length_append, available]
    omega
  -- whatever is missing now is in the next block
  have taken : ctx.buffer.drop ctx.consumed ++ first.flatten ++ second.flatten.take left =
      rest.take len := by
    rw [← joined, ← size, take_length_add_append]
  have behind : second.flatten.drop left = rest.drop len := by
    rw [← joined, ← size, drop_length_add_append]
  dsimp only
  split
  next none =>
    subst none
    rw [take_zero, append_nil] at taken
    rw [drop_zero] at behind
    refine .ret ⟨_, by rw [taken], rfl, Nat.le_refl _, fun _ => small, ?_, second, stop, still, ?_⟩
    · rcases buffer with ⟨empty, _⟩ | full
      · exact .inl ⟨empty, rfl⟩
      · exact .inr full
    · have none : ctx.buffer.drop partition.erase_size = [] := by
        rcases buffer with ⟨empty, _⟩ | full
        · rw [empty, drop_nil]
        · rw [← full, drop_length]
      rw [none, nil_append, behind]
  next some' =>
    cases second with
    | nil =>
      rw [flatten_append, flatten_nil, append_nil] at total
      rw [length_append, available] at size
      omega
    | cons block second =>
      have whole := still.length block mem_cons_self
      refine (readBlock_stored scanned small still).bind fun value fetched known => ?_
      obtain ⟨rfl, later⟩ := known
      have ahead : Ahead chip partition (block ++ second.flatten) ⟨partition, block, 0⟩ fetched :=
        ⟨rfl, Nat.zero_le _, fun _ => small, .inr whole, second, stop, later, rfl⟩
      have rest' := @readDataLoop_buffered chip partition fetched scanned ⟨partition, block, 0⟩ _ ahead left
        (ctx.buffer.drop ctx.consumed ++ first.flatten) (Nat.le_of_lt less) 0
      rw [flatten_cons] at taken behind
      rw [taken, behind] at rest'
      exact rest'

theorem readCalls_ahead (lens : List Nat) (enough : lens.sum ≤ rest.length) :
    (flashMachine chip).Ensures Plain
      (fun value _ => ∃ chunks, value = some chunks ∧ chunks.map length = lens ∧
        chunks.flatten = rest.take lens.sum) (readCalls ctx lens) state := by
  induction lens generalizing ctx rest state with
  | nil => exact .ret ⟨[], rfl, rfl, rfl⟩
  | cons len lens ih =>
    rw [sum_cons] at enough
    rw [readCalls]
    refine (mtdReadData_ahead scanned ahead (by omega)).bind fun value after known => ?_
    obtain ⟨next, rfl, ahead'⟩ := known
    refine (ih ahead' (by rw [length_drop]; omega)).bind fun value done known => ?_
    obtain ⟨chunks, rfl, sizes, joined⟩ := known
    refine .ret ⟨rest.take len :: chunks, rfl, ?_, ?_⟩
    · rw [map_cons, sizes, length_take, Nat.min_eq_left (by omega)]
    · rw [flatten_cons, joined, sum_cons, take_add]

end Good

end Session

/-- What a session has written is read back, however both sides cut it up: the bytes of the
pieces, and zeros up to the end of the last block.  Between the two, nothing else writes to the
partition. -/
theorem mtd_write_then_read (chip : Chip) (partition : MtdPartition)
    (scanned : Scanned chip partition) (pieces : List Bytes) (start : FlashState)
    (writing : Nat → FlashChoice)
    (stores : ∀ step ∈ (flashMachine chip).played (writeSession partition pieces) writing start,
      Reliable step)
    (written : ((flashMachine chip).play (writeSession partition pieces) writing start).2 =
      some true) (later : FlashState) (opening : Nat → FlashChoice)
    (kept : later.cells partition.device_index =
      ((flashMachine chip).play (writeSession partition pieces) writing start).1.cells
        partition.device_index) (ctx : MtdReadContext)
    (opened : ((flashMachine chip).play (mtdReadPartition partition) opening later).2 =
      some (some ctx))
    (lens : List Nat) (inside : lens.sum ≤ (padded partition pieces.flatten).length)
    (reading : Nat → FlashChoice)
    (calm : ∀ step ∈ (flashMachine chip).played (readCalls ctx lens) reading
        ((flashMachine chip).play (mtdReadPartition partition) opening later).1,
      Reliable step ∧ Uncounted step) :
    ∃ chunks, ((flashMachine chip).play (readCalls ctx lens) reading
        ((flashMachine chip).play (mtdReadPartition partition) opening later).1).2 =
          some (some chunks) ∧ chunks.map length = lens ∧
      chunks.flatten = (padded partition pieces.flatten).take lens.sum := by
  obtain ⟨blocks, stop, stored, content, small⟩ :=
    (writeSession_stored scanned pieces).play stores written rfl
  obtain ⟨rfl, cells, position⟩ :=
    (mtdReadPartition_fresh partition later).play (fun _ _ => trivial) opened ctx rfl
  have ahead : Ahead chip partition (padded partition pieces.flatten)
      ⟨partition, [], partition.erase_size⟩
      ((flashMachine chip).play (mtdReadPartition partition) opening later).1 := by
    refine ⟨rfl, Nat.le_refl _, ?_, .inl ⟨rfl, rfl⟩, blocks, stop, ?_, ?_⟩
    · rintro more
      refine small fun empty => more ?_
      rw [← content, empty, flatten_nil]
    · rw [cells, kept, position]
      exact stored
    · rw [drop_nil, nil_append, content]
  obtain ⟨value, returned, chunks, rfl, sizes, joined⟩ :=
    (readCalls_ahead scanned ahead lens inside).play calm
  exact ⟨chunks, returned, sizes, joined⟩

/-! ## A small chip -/

/-- Three blocks of two bytes, of which the first one is bad. -/
def sampleChip : Chip where
  info _ := ⟨6, 2⟩
  bad _ block := block == 0

def samplePartition : MtdPartition := ⟨0, 6, 2⟩

def sampleState : FlashState := ⟨fun _ _ => 0x55, fun _ => 0, fun _ => 0⟩

theorem sample_scanned : Scanned sampleChip samplePartition := ⟨rfl, rfl, by decide⟩

variable {chip : Chip} {step : (flashMachine chip).Step}

theorem reliable_of_ok (fine : step.choice = .ok) : Reliable step := by
  obtain ⟨op, choice, before⟩ := step
  cases fine
  cases op with
  | read | write | erase => exact fun _ => rfl
  | eccGetStats => exact FlashChoice.noConfusion
  | _ => trivial

theorem uncounted_of_ok (fine : step.choice = .ok) : Uncounted step := by
  obtain ⟨op, choice, before⟩ := step
  cases fine
  cases op with
  | read => exact fun _ _ other => FlashChoice.noConfusion other
  | _ => trivial

theorem played_ok {program : FlashProg α} {state : FlashState}
    (member : step ∈ (flashMachine chip).played program (fun _ => .ok) state) :
    step.choice = .ok := by
  obtain ⟨_, same⟩ := Machine.played_choice member
  exact same

/-- The state in which the sample chip is left when some pieces have been written. -/
def sampleWritten (pieces : List Bytes) : FlashState :=
  ((flashMachine sampleChip).play (writeSession samplePartition pieces) (fun _ => .ok)
    sampleState).1

def sampleOpened (pieces : List Bytes) : FlashState :=
  ((flashMachine sampleChip).play (mtdReadPartition samplePartition) (fun _ => .ok)
    (sampleWritten pieces)).1

theorem mtd_write_then_read_sample :
    ∃ chunks, ((flashMachine sampleChip).play (readCalls ⟨samplePartition, [], 2⟩ [3, 1])
        (fun _ => .ok) (sampleOpened [[1], [2, 3]])).2 = some (some chunks) ∧
      chunks.map length = [3, 1] ∧ chunks.flatten = [1, 2, 3, 0] :=
  mtd_write_then_read sampleChip samplePartition sample_scanned [[1], [2, 3]] sampleState
    (fun _ => .ok) (fun _ member => reliable_of_ok (played_ok member)) (by decide +kernel)
    (sampleWritten [[1], [2, 3]]) (fun _ => .ok) rfl ⟨samplePartition, [], 2⟩ (by decide +kernel)
    [3, 1] (by decide) (fun _ => .ok)
    fun _ member => ⟨reliable_of_ok (played_ok member), uncounted_of_ok (played_ok member)⟩

/-- The `read` of the bad block fails, and the driver counts a failure for it. -/
def countedFailure : Nat → FlashChoice
  | 3 => .noise none 1
  | _ => .ok

/-- The block that was written is skipped: `read_block` takes the failure of the bad block
before it for one of its own. -/
theorem mtd_read_loses_block :
    (∀ step ∈ (flashMachine sampleChip).played (writeSession samplePartition [[1, 2]])
        (fun _ => .ok) sampleState, Reliable step) ∧
      ((flashMachine sampleChip).play (writeSession samplePartition [[1, 2]]) (fun _ => .ok)
        sampleState).2 = some true ∧
      ((flashMachine sampleChip).play (mtdReadPartition samplePartition) (fun _ => .ok)
        (sampleWritten [[1, 2]])).2 = some (some ⟨samplePartition, [], 2⟩) ∧
      (∀ step ∈ (flashMachine sampleChip).played (readCalls ⟨samplePartition, [], 2⟩ [2])
        countedFailure (sampleOpened [[1, 2]]), Reliable step) ∧
      ((flashMachine sampleChip).play (readCalls ⟨samplePartition, [], 2⟩ [2])
        countedFailure (sampleOpened [[1, 2]])).2 = some (some [[0xff, 0xff]]) := by
  refine ⟨fun _ member => reliable_of_ok (played_ok member), by decide +kernel, by decide +kernel,
    ?_, by decide +kernel⟩
  have plain : ((flashMachine sampleChip).played (readCalls ⟨samplePartition, [], 2⟩ [2])
      countedFailure (sampleOpened [[1, 2]])).all
      (fun step => step.choice == .ok || match step.op with
        | .read device _ => sampleChip.isBad device (step.before.position device)
        | _ => false) = true := by
    decide +kernel
  intro step member
  have fine := all_eq_true.mp plain step member
  rcases Bool.or_eq_true _ _ |>.mp fine with ok | bad
  · exact reliable_of_ok (eq_of_beq ok)
  · obtain ⟨op, choice, before⟩ := step
    cases op with
    | read device count => exact fun good => absurd (good.symm.trans bad) Bool.false_ne_true
    | _ => cases bad

end PhilzTouch.Mtd
