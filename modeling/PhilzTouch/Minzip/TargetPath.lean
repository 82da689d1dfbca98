import PhilzTouch.Minzip.Extract

/-!
# Assembling target paths

`mzExtractRecursive` assembles all target paths in one buffer that grows when a path does not fit.
Whatever becomes of the sums of lengths, a path that is assembled inside the buffer is the right
one; and as long as its length is an `int`, the buffer has room for it and its terminating NUL.
-/

namespace PhilzTouch.Minzip

open FileTree List

/-- The path of an entry: the target directory, a slash and the rest of the name. -/
def targetPath (targetDir zpath name : Bytes) : Bytes :=
  withSlash targetDir ++ name.drop zpath.length

/-- The length of the path to be assembled, with a slash and a NUL, is an `int`. -/
def FitsInt (targetDir : Bytes) (restLen : Nat) : Prop :=
  (withSlash targetDir).length + restLen + 2 < 2 ^ 31

/-- Between two entries: the buffer has not been allocated, or it begins with the target directory
and a slash and is not shorter than it is said to be. -/
inductive Ready (targetDir : Bytes) : MzPathHelper → Prop where
  | first : Ready targetDir (.initial targetDir)
  | later (block : Bytes) (bufLen : Int) : withSlash targetDir <+: block → bufLen ≤ block.length →
      Ready targetDir ⟨some block, (withSlash targetDir).length, bufLen⟩

theorem withSlash_length (targetDir : Bytes) : targetDir.length ≤ (withSlash targetDir).length ∧
      (withSlash targetDir).length ≤ targetDir.length + 1 := by
  rw [withSlash]
  split <;> simp

/-! ## Filling the buffer -/

theorem length_store {block data after : Bytes} {position : Nat}
    (stored : store block position data = some after) :
    position + data.length ≤ block.length ∧ after.length = block.length := by
  rw [store] at stored
  split at stored
  next inside =>
    cases stored
    exact ⟨inside, Places.length_write inside⟩
  next => cases stored

theorem store_append (front more data : Bytes) (room : data.length ≤ more.length) :
    store (front ++ more) front.length data = some (front ++ data ++ more.drop data.length) := by
  rw [store, if_pos (by rw [length_append]; omega), Places.write, take_left, ← drop_drop, drop_left]

theorem fillFront_eq {targetDir block after : Bytes} {targetDirLen : Nat}
    (filled : fillFront targetDir block targetDir.length = some (after, targetDirLen)) :
    targetDirLen = (withSlash targetDir).length ∧ withSlash targetDir <+: after ∧
      after.length = block.length := by
  rw [fillFront] at filled
  obtain ⟨copied, stored, filled⟩ := Option.bind_eq_some_iff.mp filled
  obtain ⟨room, size⟩ := length_store stored
  rw [Nat.zero_add] at room
  cases (store_append [] block targetDir room).symm.trans stored
  have last : targetDir.length = 0 ∨
      (targetDir ++ block.drop targetDir.length)[targetDir.length - 1]? ≠ some slash ↔
        targetDir.getLast? ≠ some slash := by
    rcases Nat.eq_zero_or_pos targetDir.length with empty | some
    · simp [length_eq_zero_iff.mp empty]
    · rw [getElem?_append_left (by omega), getLast?_eq_getElem?]
      simp only [ne_of_gt some, false_or]
  simp only [nil_append, last] at filled size
  by_cases slashed : targetDir.getLast? = some slash
  · rw [if_neg (not_not.mpr slashed)] at filled
    cases filled
    rw [withSlash, if_pos slashed]
    exact ⟨rfl, prefix_append _ _, size⟩
  · rw [if_pos slashed] at filled
    obtain ⟨ended, stored, same⟩ := Option.bind_eq_some_iff.mp filled
    obtain ⟨inside, sizeEnded⟩ := length_store stored
    have more : [slash].length ≤ (block.drop targetDir.length).length := by
      rw [length_append] at inside
      omega
    cases (store_append _ _ _ more).symm.trans stored
    cases same
    rw [withSlash, if_neg slashed]
    exact ⟨by simp, prefix_append _ _, sizeEnded.trans size⟩

theorem fillFront_isSome {targetDir block : Bytes} (room : targetDir.length + 1 ≤ block.length) :
    (fillFront targetDir block targetDir.length).isSome = true := by
  rw [fillFront, store, if_pos (by omega), some_bind]
  split
  · rw [store, if_pos]
    · rfl
    · rw [Places.length_write (by omega)]
      exact room
  · rfl

section Filling

variable {targetDir rest block : Bytes} {bufLen : Int}

theorem fillRest_eq {targetFile : Bytes} {next : MzPathHelper}
    (begins : (withSlash targetDir).length ≤ block.length → withSlash targetDir <+: block)
    (short : bufLen ≤ block.length)
    (filled : fillRest rest bufLen block (withSlash targetDir).length = some (targetFile, next)) :
    targetFile = withSlash targetDir ++ rest ∧ Ready targetDir next := by
  rw [fillRest] at filled
  obtain ⟨middle, stored, filled⟩ := Option.bind_eq_some_iff.mp filled
  obtain ⟨final, ended, same⟩ := Option.bind_eq_some_iff.mp filled
  have sizeMiddle := (length_store stored).2
  obtain ⟨inside, sizeFinal⟩ := length_store ended
  rw [length_singleton] at inside
  obtain ⟨more, rfl⟩ := begins (by omega)
  rw [sizeMiddle, length_append] at inside
  cases (store_append _ more rest (by omega)).symm.trans stored
  rw [← length_append] at ended
  cases (store_append _ _ _ (by rw [length_drop, length_singleton]; omega)).symm.trans ended
  cases same
  refine ⟨?_, .later _ _ ?_ ?_⟩
  · rw [← length_append, append_assoc _ [0], take_left]
  · simp only [append_assoc]
    exact prefix_append _ _
  · rw [sizeFinal, sizeMiddle]
    exact short

theorem fillRest_isSome {targetDirLen : Nat} (room : targetDirLen + rest.length < block.length) :
    (fillRest rest bufLen block targetDirLen).isSome = true := by
  rw [fillRest, store, if_pos (by omega), some_bind, store, if_pos]
  · rfl
  · rw [Places.length_write (by omega), length_singleton]
    omega

variable {helper : MzPathHelper} (ready : Ready targetDir helper)

include ready

/-- A path that is assembled without leaving the block is the right one. -/
theorem fillPath_eq {targetFile : Bytes} {next : MzPathHelper}
    (starts : helper.buf ≠ none → (withSlash targetDir).length ≤ block.length →
      withSlash targetDir <+: block) (short : bufLen ≤ block.length)
    (filled : fillPath targetDir rest helper block bufLen = some (targetFile, next)) :
    targetFile = withSlash targetDir ++ rest ∧ Ready targetDir next := by
  cases ready with
  | first =>
    obtain ⟨⟨front, targetDirLen⟩, begun, filled⟩ := Option.bind_eq_some_iff.mp filled
    obtain ⟨rfl, whole, size⟩ := fillFront_eq begun
    exact fillRest_eq (fun _ => whole) (size ▸ short) filled
  | later old oldLen _ _ => exact fillRest_eq (starts nofun) short filled

theorem fillPath_isSome (room : (withSlash targetDir).length + rest.length < block.length) :
    (fillPath targetDir rest helper block bufLen).isSome = true := by
  have longer := (withSlash_length targetDir).1
  cases ready with
  | first =>
    obtain ⟨⟨front, targetDirLen⟩, begun⟩ :=
      Option.isSome_iff_exists.mp (@fillFront_isSome targetDir block (by omega))
    obtain ⟨rfl, -, size⟩ := fillFront_eq begun
    change ((fillFront targetDir block targetDir.length).bind _).isSome = true
    rw [begun]
    exact fillRest_isSome (size ▸ room)
  | later old oldLen _ _ => exact fillRest_isSome room

/-- A block that is long enough when the path fits is filled with it. -/
theorem ofFilled_eq {fits : Prop}
    (starts : helper.buf ≠ none → (withSlash targetDir).length ≤ block.length →
      withSlash targetDir <+: block) (short : bufLen ≤ block.length)
    (room : fits → (withSlash targetDir).length + rest.length < block.length) :
    PathResult.ofFilled (fillPath targetDir rest helper block bufLen) = .outside ∧ ¬ fits ∨
      ∃ next, PathResult.ofFilled (fillPath targetDir rest helper block bufLen) =
        .path (withSlash targetDir ++ rest) next ∧ Ready targetDir next := by
  cases filled : fillPath targetDir rest helper block bufLen with
  | none =>
    refine .inl ⟨rfl, fun known => ?_⟩
    have some := @fillPath_isSome targetDir rest block bufLen helper ready (room known)
    rw [filled] at some
    cases some
  | some result =>
    obtain ⟨targetFile, next⟩ := result
    obtain ⟨rfl, readyNext⟩ := fillPath_eq ready starts short filled
    exact .inr ⟨next, rfl, readyNext⟩

end Filling

/-! ## Room for a path -/

theorem needLen_eq {targetDirLen restLen : Nat} (small : targetDirLen + restLen + 2 < 2 ^ 31) :
    needLen targetDirLen restLen = (targetDirLen + restLen + 2 : Nat) := by
  rw [needLen, ApplyPatch.wrap_eq (by omega) (by omega)]
  omega

theorem wrap_le_toSize (value : Int) : ApplyPatch.wrap value ≤ toSize value := by
  rw [ApplyPatch.wrap, Int.bmod, toSize]
  split <;> omega

theorem Ready.counted {targetDir : Bytes} {helper : MzPathHelper} (ready : Ready targetDir helper) :
    helper.targetDirLen ≤ (withSlash targetDir).length ∧
      (withSlash targetDir).length ≤ helper.targetDirLen + 1 := by
  cases ready with
  | first => exact withSlash_length targetDir
  | later block bufLen _ _ => exact ⟨le_rfl, Nat.le_succ _⟩

theorem Ready.short {targetDir : Bytes} {helper : MzPathHelper} (ready : Ready targetDir helper) :
    helper.bufLen ≤ (helper.buf.getD []).length := by
  cases ready with
  | first => exact le_rfl
  | later block bufLen _ short => exact short

theorem Ready.begins {targetDir : Bytes} {helper : MzPathHelper} (ready : Ready targetDir helper)
    (allocated : helper.buf ≠ none) : withSlash targetDir <+: helper.buf.getD [] := by
  cases ready with
  | first => exact absurd rfl allocated
  | later block bufLen begins _ => exact begins

theorem perform_uninitialised (archive : Bytes) (count : Nat) (choice : ExtractChoice)
    (state : ExtractState) : ∃ fresh : Bytes, fresh.length = count ∧
      (extractMachine archive).perform (.uninitialised count) choice state = (state, fresh) := by
  simp only [extractPerform]
  split
  · exact ⟨_, by simp only [length_append, length_take, length_replicate]; omega, rfl⟩
  · exact ⟨_, length_replicate, rfl⟩

/-- `targetEntryPath` fails for want of memory, leaves the buffer when the length of the path is no
`int`, or assembles the path. -/
theorem targetEntryPath_path {archive targetDir : Bytes} {helper : MzPathHelper}
    {state : ExtractState} {allowed : (extractMachine archive).Step → Prop} {calm : Prop}
    {keep : ExtractState → Prop} (fine : calm → ∀ step, allowed step → Succeeds step)
    (zpath name : Bytes) (ready : Ready targetDir helper) (kept : keep state) :
    (extractMachine archive).Safe allowed keep (fun value after => after = state ∧
        (value = .noMemory ∧ ¬ calm ∨
          value = .outside ∧ ¬ FitsInt targetDir (name.length - zpath.length) ∨
          ∃ next, value = .path (targetPath targetDir zpath name) next ∧ Ready targetDir next))
      (targetEntryPath targetDir zpath helper name) state := by
  obtain ⟨shorter, longer⟩ := ready.counted
  have short := ready.short
  rw [targetEntryPath, targetPath, ← length_drop]
  generalize name.drop zpath.length = rest
  dsimp only
  split
  next grows =>
    refine .call fun choice admitted => ⟨kept, ?_⟩
    have works : calm → decide (choice ≠ .fail) = true := fun calm => fine calm _ admitted
    dsimp only [extractPerform]
    cases made : decide (choice ≠ .fail) with
    | false =>
      refine .ret ⟨rfl, .inl ⟨rfl, fun calm => ?_⟩⟩
      rw [works calm] at made
      cases made
    | true =>
      refine .call fun choice _ => ?_
      obtain ⟨fresh, count, same⟩ := perform_uninitialised archive
        (toSize (needLen helper.targetDirLen rest.length * 2) - (helper.buf.getD []).length)
        choice state
      rw [same]
      have whole : ((helper.buf.getD []).take (toSize (needLen helper.targetDirLen rest.length * 2)) ++
          fresh).length = toSize (needLen helper.targetDirLen rest.length * 2) := by
        rw [length_append, length_take, count]
        omega
      refine ⟨kept, .ret ⟨rfl, .inr (ofFilled_eq ready (fun some long => ?_) ?_ fun fits => ?_)⟩⟩
      · rw [whole] at long
        exact (prefix_take_iff.mpr ⟨ready.begins some, long⟩).trans (prefix_append _ _)
      · rw [whole]
        exact wrap_le_toSize _
      · rw [FitsInt] at fits
        rw [whole, needLen_eq (by omega), toSize]
        omega
  next stays =>
    refine .ret ⟨rfl, .inr (ofFilled_eq ready (fun some _ => ready.begins some) short fun fits => ?_)⟩
    rw [FitsInt] at fits
    rw [needLen_eq (by omega)] at stays
    omega

end PhilzTouch.Minzip
