import PhilzTouch.ApplyPatch.Bsdiff
import PhilzTouch.ApplyPatch.SuffixSort

/-!
# What the scan of `bsdiff` emits

Each control triple takes the scan from one position in the new file to a later one:
the diff and extra bytes it covers, and the seek that follows them, are tied to those
two positions.  `Replay` is a chain of such steps.  The scan loops are shown to end,
to stay inside both files and to produce a chain that reaches the end of the new
file.
-/

namespace PhilzTouch.ApplyPatch

open List

/-- The difference of the `count` bytes at `scan` in `new` and at `pos` in `old`. -/
def difference (old new : Bytes) (scan pos count : Nat) : Bytes :=
  (range count).map fun i => new.getD (scan + i) 0 - old.getD (pos + i) 0

@[simp] theorem length_difference (old new : Bytes) (scan pos count : Nat) :
    (difference old new scan pos count).length = count := by
  simp [difference]

/-- Three numbers as they stand in the control block. -/
def encodeTriple (lenf extra seek : Int) : Bytes := offtout lenf ++ offtout extra ++ offtout seek

/-- A chain of control triples from one pair of positions in the new and the old file
to another, with the control, diff and extra bytes it produces. -/
inductive Replay (old new : Bytes) : (scan pos scan' pos' : Nat) → (ctrl db eb : Bytes) → Prop where
  | nil (scan pos : Nat) : Replay old new scan pos scan pos [] [] []
  | cons {scan pos lenf extra next scan' pos' : Nat} {ctrl db eb : Bytes}
      (more : scan < new.length) (newInside : scan + lenf + extra ≤ new.length)
      (oldInside : pos + lenf ≤ old.length) (nextInside : next ≤ old.length)
      (rest : Replay old new (scan + lenf + extra) next scan' pos' ctrl db eb) :
      Replay old new scan pos scan' pos'
        (encodeTriple lenf extra ((next : Int) - (pos + lenf)) ++ ctrl)
        (difference old new scan pos lenf ++ db) (new.slice (scan + lenf) extra ++ eb)

/-- A chain grows by a triple at its end, which is how the scan builds it. -/
theorem Replay.snoc {old new : Bytes} {first start scan pos lenf extra next : Nat}
    {ctrl db eb : Bytes} (replay : Replay old new first start scan pos ctrl db eb)
    (more : scan < new.length) (newInside : scan + lenf + extra ≤ new.length)
    (oldInside : pos + lenf ≤ old.length) (nextInside : next ≤ old.length) :
    Replay old new first start (scan + lenf + extra) next
      (ctrl ++ encodeTriple lenf extra ((next : Int) - (pos + lenf)))
      (db ++ difference old new scan pos lenf) (eb ++ new.slice (scan + lenf) extra) := by
  induction replay with
  | nil scan pos =>
    have step := Replay.cons more newInside oldInside nextInside (.nil _ _)
    simpa using step
  | cons more' newInside' oldInside' nextInside' _ ih =>
    rw [append_assoc, append_assoc, append_assoc]
    exact .cons more' newInside' oldInside' nextInside' (ih more newInside oldInside)

section Reads

variable {bytes : Bytes}

theorem byteAt_eq {index : Int} (nonneg : 0 ≤ index) (inside : index < bytes.length) :
    byteAt bytes index = some (bytes.getD index.toNat 0) := by
  rw [byteAt, if_neg (by omega), getD_eq_getElem _ _ (by omega), getElem?_eq_getElem]

theorem pointer_eq {index : Int} (nonneg : 0 ≤ index) (inside : index ≤ bytes.length) :
    pointer bytes index = some (bytes.drop index.toNat) := by
  rw [pointer, if_pos (by omega)]

theorem mapM_range_eq {value : Nat → Option UInt8} {result : Nat → UInt8} {count : Nat}
    (each : ∀ i < count, value i = some (result i)) :
    (range count).mapM value = some ((range count).map result) := by
  induction count with
  | zero => rfl
  | succ count ih =>
    rw [range_succ, mapM_append, ih fun i less => each i (by omega)]
    simp [each count (Nat.lt_succ_self count)]

theorem matchlen_le (old new : Bytes) : matchlen old new ≤ new.length := by
  induction old generalizing new with
  | nil => simp [matchlen]
  | cons a old ih =>
    cases new with
    | nil => simp [matchlen]
    | cons b new =>
      rw [matchlen]
      split
      · exact Nat.zero_le _
      · exact Nat.succ_le_succ (ih new)

end Reads

/-- `I` holds positions in `old` in all of its cells. -/
def Positions (I : Cells) (old : Bytes) : Prop :=
  ∀ index ≤ old.length, ∃ position : Nat, I.load index = some (position : Int) ∧
    position ≤ old.length

variable {I : Cells}

/-- The search finds a position in `old` and a length that fits into `new`. -/
theorem search_spec {old : Bytes} (positions : Positions I old) (new : Bytes) (fuel : Nat) :
    ∀ st en, st ≤ en → en ≤ old.length → en - st < fuel →
      ∃ len pos : Nat, search I old new fuel st en = some ((len : Int), (pos : Int)) ∧
        len ≤ new.length ∧ pos ≤ old.length := by
  induction fuel with
  | zero =>
    intro st en _ _ enough
    omega
  | succ fuel ih =>
    intro st en le enLe enough
    by_cases close : en - st < 2
    · obtain ⟨low, lowLoad, lowLe⟩ := positions st (by omega)
      obtain ⟨high, highLoad, highLe⟩ := positions en enLe
      have lowOld : pointer old low = some (old.drop low) := pointer_eq (by omega) (by omega)
      have highOld : pointer old high = some (old.drop high) := pointer_eq (by omega) (by omega)
      simp only [search, if_pos close, lowLoad, highLoad, some_bind, lowOld, highOld]
      split
      · exact ⟨_, low, rfl, matchlen_le _ _, lowLe⟩
      · exact ⟨_, high, rfl, matchlen_le _ _, highLe⟩
    obtain ⟨middle, load, middleLe⟩ := positions (st + (en - st) / 2) (by omega)
    have middleOld : pointer old middle = some (old.drop middle) := pointer_eq (by omega) (by omega)
    rw [Int.natCast_add] at load
    simp only [search, if_neg close, Int.natCast_add, load, some_bind, middleOld]
    split
    · exact ih _ en (by omega) enLe (by omega)
    · exact ih st _ (by omega) (by omega) (by omega)

section Loops

variable {old new : Bytes} {scan : Int}

theorem matchesAt_isSome {place : Int} (placeNonneg : 0 ≤ place) (scanNonneg : 0 ≤ scan)
    (inside : scan < new.length) : ∃ same, matchesAt old new place scan = some same := by
  by_cases within : place < old.length
  · simp [matchesAt, within, byteAt_eq placeNonneg within, byteAt_eq scanNonneg inside]
  · exact ⟨false, by rw [matchesAt, if_neg within]⟩

variable (old new) in
theorem countOld_spec {lastoffset stop : Int} (stopLe : stop ≤ new.length) (fuel : Nat) :
    ∀ scsc oldscore : Int, 0 ≤ scsc → 0 ≤ scsc + lastoffset → (stop - scsc).toNat < fuel →
      ∃ scsc' oldscore', countOld old new lastoffset stop fuel scsc oldscore =
          some (scsc', oldscore') ∧ scsc ≤ scsc' ∧ oldscore ≤ oldscore' := by
  induction fuel with
  | zero =>
    intro scsc oldscore _ _ enough
    omega
  | succ fuel ih =>
    intro scsc oldscore nonneg offset enough
    by_cases more : scsc < stop
    · obtain ⟨same, found⟩ : ∃ same, matchesAt old new (scsc + lastoffset) scsc = some same :=
        matchesAt_isSome offset nonneg (by omega)
      obtain ⟨scsc', oldscore', run, scscLe, scoreLe⟩ := ih (scsc + 1)
        (if same then oldscore + 1 else oldscore) (by omega) (by omega) (by omega)
      refine ⟨scsc', oldscore', ?_, by omega, ?_⟩
      · simp only [countOld, if_pos more, found, some_bind, run]
      · split at scoreLe <;> omega
    · exact ⟨scsc, oldscore, by simp only [countOld, if_neg more], le_rfl, le_rfl⟩

/-- The position and the length that a search has found. -/
structure Found (old : Bytes) (state : Scan) : Prop where
  posNonneg : 0 ≤ state.pos
  posInside : state.pos ≤ old.length
  lenNonneg : 0 ≤ state.len

/-- The inner scan loop does not move backwards, and where it stops before the end of
`new`, its match lies inside `new`.  If it stops where it started, the match is not
empty. -/
theorem scanLoop_spec (positions : Positions I old) (new : Bytes) (lastoffset : Int) (fuel : Nat) :
    ∀ (scsc : Int) (state : Scan), 0 ≤ scsc → 0 ≤ scsc + lastoffset → 0 ≤ state.scan →
      0 ≤ state.scan + lastoffset → state.scan ≤ new.length → Found old state →
      (new.length - state.scan).toNat < fuel →
      ∃ state', scanLoop I old new lastoffset fuel scsc state = some state' ∧
        state.scan ≤ state'.scan ∧ state'.scan ≤ new.length ∧ Found old state' ∧
        (state'.scan < new.length → state'.scan + state'.len ≤ new.length) ∧
        (0 ≤ state.oldscore → state'.scan = state.scan → state'.scan < new.length →
          0 < state'.len) := by
  induction fuel with
  | zero =>
    intro scsc state _ _ _ _ _ _ enough
    omega
  | succ fuel ih =>
    intro scsc state scscNonneg scscOffset scanNonneg scanOffset inside found enough
    by_cases more : state.scan < new.length
    · have here : pointer new state.scan = some (new.drop state.scan.toNat) :=
        pointer_eq scanNonneg inside
      obtain ⟨len, pos, searched, lenLe, posLe⟩ := search_spec positions
        (new.drop state.scan.toNat) (old.length + 1) 0 old.length (Nat.zero_le _) (Nat.le_refl _)
        (by omega)
      rw [length_drop] at lenLe
      obtain ⟨scsc', oldscore', counted, scscLe, scoreLe⟩ := countOld_spec old new
        (by omega : state.scan + len ≤ new.length) (new.length + 1) scsc state.oldscore scscNonneg
        scscOffset (by omega)
      obtain ⟨same, compared⟩ : ∃ same,
          matchesAt old new (state.scan + lastoffset) state.scan = some same :=
        matchesAt_isSome scanOffset scanNonneg more
      simp only [scanLoop, if_pos more, here, searched, counted, compared, some_bind]
      split
      · refine ⟨_, rfl, le_rfl, inside, ?_, ?_, ?_⟩
        · constructor <;> dsimp only <;> omega
        · intro _
          dsimp only
          omega
        · intro _ _ _
          dsimp only
          omega
      have next : Found old ⟨state.scan + 1, len, pos, if same then oldscore' - 1 else oldscore'⟩ := by
        constructor <;> dsimp only <;> omega
      have step := ih scsc' ⟨state.scan + 1, len, pos, if same then oldscore' - 1 else oldscore'⟩
      dsimp only at step
      obtain ⟨state', run, forward, inside', found', matched, _⟩ := step (by omega) (by omega)
        (by omega) (by omega) (by omega) next (by omega)
      exact ⟨state', run, by omega, inside', found', matched, by omega⟩
    · refine ⟨state, by simp only [scanLoop, if_neg more], le_rfl, inside, found, ?_, ?_⟩
      · intro _
        omega
      · intro _ _ _
        omega

variable {lastscan : Int}

theorem extendForward_spec {lastpos : Int} (scanLe : scan ≤ new.length) (scanNonneg : 0 ≤ lastscan)
    (posNonneg : 0 ≤ lastpos) (fuel : Nat) :
    ∀ i s Sf lenf : Int, 0 ≤ lenf → lenf ≤ i → lastscan + i ≤ scan → lastpos + i ≤ old.length →
      (scan - (lastscan + i)).toNat < fuel →
      ∃ lenf', extendForward old new scan lastscan lastpos fuel i s Sf lenf = some lenf' ∧
        0 ≤ lenf' ∧ lastscan + lenf' ≤ scan ∧ lastpos + lenf' ≤ old.length := by
  induction fuel with
  | zero =>
    intro i s Sf lenf _ _ _ _ enough
    omega
  | succ fuel ih =>
    intro i s Sf lenf nonneg le scanLe' posLe enough
    by_cases more : lastscan + i < scan ∧ lastpos + i < old.length
    · simp (disch := omega) only [extendForward, if_pos more, some_bind, byteAt_eq]
      split <;> split <;> apply ih <;> omega
    · exact ⟨lenf, by simp only [extendForward, if_neg more], nonneg, by omega, by omega⟩

variable {pos : Int}

theorem extendBackward_spec (scanLe : scan ≤ new.length) (scanNonneg : 0 ≤ lastscan)
    (posLe : pos ≤ old.length) (fuel : Nat) :
    ∀ i s Sb lenb : Int, 0 < i → 0 ≤ lenb → lenb < i → lastscan + i ≤ scan + 1 → i ≤ pos + 1 →
      (scan + 1 - (lastscan + i)).toNat < fuel →
      ∃ lenb', extendBackward old new scan lastscan pos fuel i s Sb lenb = some lenb' ∧
        0 ≤ lenb' ∧ lastscan + lenb' ≤ scan ∧ lenb' ≤ pos := by
  induction fuel with
  | zero =>
    intro i s Sb lenb _ _ _ _ _ enough
    omega
  | succ fuel ih =>
    intro i s Sb lenb pos' nonneg lt scanLe' posLe' enough
    by_cases more : scan ≥ lastscan + i ∧ pos ≥ i
    · simp (disch := omega) only [extendBackward, if_pos more, some_bind, byteAt_eq]
      split <;> split <;> apply ih <;> omega
    · exact ⟨lenb, by simp only [extendBackward, if_neg more], nonneg, by omega, by omega⟩

theorem splitOverlap_spec {scanf posf scanb posb overlap : Int} (scanfNonneg : 0 ≤ scanf)
    (posfNonneg : 0 ≤ posf) (scanbNonneg : 0 ≤ scanb) (posbNonneg : 0 ≤ posb)
    (scanfLe : scanf + overlap ≤ new.length) (posfLe : posf + overlap ≤ old.length)
    (scanbLe : scanb + overlap ≤ new.length) (posbLe : posb + overlap ≤ old.length) (fuel : Nat) :
    ∀ i s Ss lens : Int, 0 ≤ i → 0 ≤ lens → lens ≤ i → i ≤ overlap → (overlap - i).toNat < fuel →
      ∃ lens', splitOverlap old new scanf posf scanb posb overlap fuel i s Ss lens = some lens' ∧
        0 ≤ lens' ∧ lens' ≤ overlap := by
  induction fuel with
  | zero =>
    intro i s Ss lens _ _ _ _ enough
    omega
  | succ fuel ih =>
    intro i s Ss lens iNonneg nonneg le iLe enough
    by_cases more : i < overlap
    · simp (disch := omega) only [splitOverlap, if_pos more, some_bind, byteAt_eq]
      split <;> split <;> split <;> apply ih <;> omega
    · exact ⟨lens, by simp only [splitOverlap, if_neg more], nonneg, by omega⟩

/-- Dividing the overlap leaves the last match before the new one. -/
theorem divideOverlap_spec {pos lastpos lenf lenb : Int} (scanLe : scan ≤ new.length)
    (lastscanNonneg : 0 ≤ lastscan) (lastposNonneg : 0 ≤ lastpos) (posLe : pos ≤ old.length)
    (lenfNonneg : 0 ≤ lenf) (lenfScan : lastscan + lenf ≤ scan)
    (lenfPos : lastpos + lenf ≤ old.length) (lenbNonneg : 0 ≤ lenb)
    (lenbScan : lastscan + lenb ≤ scan) (lenbPos : lenb ≤ pos) :
    ∃ lenf' lenb', divideOverlap old new scan pos lastscan lastpos lenf lenb = some (lenf', lenb') ∧
      0 ≤ lenf' ∧ 0 ≤ lenb' ∧ lenb' ≤ lenb ∧ lastscan + lenf' ≤ scan - lenb' ∧
      lastpos + lenf' ≤ old.length := by
  by_cases overlapping : lastscan + lenf > scan - lenb
  · obtain ⟨lens, run, nonneg, le⟩ : ∃ lens, splitOverlap old new
        (lastscan + lenf - ((lastscan + lenf) - (scan - lenb)))
        (lastpos + lenf - ((lastscan + lenf) - (scan - lenb))) (scan - lenb) (pos - lenb)
        ((lastscan + lenf) - (scan - lenb)) (new.length + 1) 0 0 0 0 = some lens ∧
        0 ≤ lens ∧ lens ≤ (lastscan + lenf) - (scan - lenb) := by
      apply splitOverlap_spec <;> omega
    refine ⟨lenf + (lens - ((lastscan + lenf) - (scan - lenb))), lenb - lens, ?_, ?_⟩
    · simp only [divideOverlap, if_pos overlapping, run, some_bind]
    · omega
  · exact ⟨lenf, lenb, by simp only [divideOverlap, if_neg overlapping], lenfNonneg, lenbNonneg,
      le_rfl, by omega, lenfPos⟩

theorem diffBytes_eq {scan pos count : Nat} (newInside : scan + count ≤ new.length)
    (oldInside : pos + count ≤ old.length) :
    diffBytes old new scan pos count = some (difference old new scan pos count) := by
  apply mapM_range_eq
  intro i less
  simp (disch := omega) only [byteAt_eq, some_bind]
  rfl

theorem extraBytes_eq {start count : Nat} (inside : start + count ≤ new.length) :
    extraBytes new start count = some (new.slice start count) := by
  have each : extraBytes new start count =
      some ((range count).map fun i => new.getD (start + i) 0) := by
    apply mapM_range_eq
    intro i less
    rw [byteAt_eq (by omega) (by omega)]
    rfl
  rw [each]
  congr 1
  apply ext_getElem
  · simp
    omega
  · intro i iLt _
    simp only [length_map, length_range] at iLt
    simp only [getElem_map, getElem_range, Bytes.slice, getElem_take, getElem_drop]
    exact getD_eq_getElem _ _ (by omega)

/-- What has been emitted so far is a chain from the start of both files. -/
structure Progress (old new : Bytes) (last : Emitted) (scan pos : Nat) : Prop where
  lastscan : last.lastscan = scan
  lastpos : last.lastpos = pos
  inside : pos ≤ old.length
  replay : Replay old new 0 0 scan pos last.ctrl last.db last.eb
  lengths : last.db.length + last.eb.length = scan

theorem backwardLength_spec (scanLe : scan ≤ new.length) (lastscanNonneg : 0 ≤ lastscan)
    (lastscanLe : lastscan ≤ scan) (posNonneg : 0 ≤ pos) (posLe : pos ≤ old.length) :
    ∃ lenb, backwardLength old new scan lastscan pos = some lenb ∧ 0 ≤ lenb ∧
      lastscan + lenb ≤ scan ∧ lenb ≤ pos ∧ (scan = new.length → lenb = 0) := by
  by_cases more : scan < new.length
  · obtain ⟨lenb, run, nonneg, scanLe', posLe'⟩ : ∃ lenb, extendBackward old new scan lastscan pos
        (new.length + 1) 1 0 0 0 = some lenb ∧ 0 ≤ lenb ∧ lastscan + lenb ≤ scan ∧ lenb ≤ pos := by
      apply extendBackward_spec scanLe lastscanNonneg posLe <;> omega
    exact ⟨lenb, by rw [backwardLength, if_pos more, run], nonneg, scanLe', posLe', by omega⟩
  · exact ⟨0, by rw [backwardLength, if_neg more], le_rfl, by omega, posNonneg, fun _ => rfl⟩

/-- One control triple: the chain grows up to the scan, or to the start of the new
match's backward extension. -/
theorem emit_spec {last : Emitted} {lastscan lastpos : Nat}
    (progress : Progress old new last lastscan lastpos) (more : lastscan < new.length)
    (lastscanLe : lastscan ≤ scan) (scanLe : scan ≤ new.length) (posNonneg : 0 ≤ pos)
    (posLe : pos ≤ old.length) :
    ∃ last' lastscan' lastpos', emit old new scan pos last = some last' ∧
      Progress old new last' lastscan' lastpos' ∧ lastscan' ≤ scan ∧
      (scan = new.length → lastscan' = new.length) ∧ last'.lastoffset = pos - scan := by
  have oldInside := progress.inside
  obtain ⟨lenf₀, forward, lenfNonneg, lenfScan, lenfPos⟩ : ∃ lenf, extendForward old new scan lastscan
      lastpos (new.length + 1) 0 0 0 0 = some lenf ∧ 0 ≤ lenf ∧ lastscan + lenf ≤ scan ∧
      lastpos + lenf ≤ old.length := by
    apply extendForward_spec scanLe <;> omega
  obtain ⟨lenb₀, backward, lenbNonneg, lenbScan, lenbPos, atEnd⟩ :=
    backwardLength_spec scanLe (Int.natCast_nonneg lastscan) lastscanLe posNonneg posLe
  obtain ⟨lenf', lenb', divided, lenfNonneg', lenbNonneg', lenbLe, apart, lenfPos'⟩ :=
    divideOverlap_spec scanLe (Int.natCast_nonneg lastscan)
      (Int.natCast_nonneg lastpos) posLe lenfNonneg lenfScan lenfPos lenbNonneg lenbScan lenbPos
  obtain ⟨lenf, rfl⟩ := Int.eq_ofNat_of_zero_le lenfNonneg'
  obtain ⟨extra, extraEq⟩ :=
    Int.eq_ofNat_of_zero_le (by omega : 0 ≤ (scan - lenb') - (lastscan + lenf))
  obtain ⟨next, nextEq⟩ := Int.eq_ofNat_of_zero_le (by omega : 0 ≤ pos - lenb')
  have reach : scan - lenb' = (lastscan + lenf + extra : Nat) := by omega
  have diff := diffBytes_eq (by omega : lastscan + lenf ≤ new.length)
    (by omega : lastpos + lenf ≤ old.length)
  have rest := extraBytes_eq (by omega : lastscan + lenf + extra ≤ new.length)
  rw [Int.natCast_add] at rest
  have lengths := progress.lengths
  have fits : last.db.length + (difference old new lastscan lastpos lenf).length ≤ new.length + 1 ∧
      last.eb.length + (new.slice (lastscan + lenf) extra).length ≤ new.length + 1 := by
    rw [length_difference, Bytes.length_slice]
    omega
  refine ⟨{
    lastscan := scan - lenb'
    lastpos := pos - lenb'
    lastoffset := pos - scan
    ctrl := last.ctrl ++ encodeTriple lenf extra ((next : Int) - (lastpos + lenf))
    db := last.db ++ difference old new lastscan lastpos lenf
    eb := last.eb ++ new.slice (lastscan + lenf) extra }, lastscan + lenf + extra, next,
    ?_, ?_, ?_, ?_, rfl⟩
  · simp only [emit, progress.lastscan, progress.lastpos, forward, backward, divided,
      some_bind, Int.toNat_natCast, diff, extraEq, rest, if_pos fits, encodeTriple, nextEq]
  · constructor
    · exact reach
    · exact nextEq
    · omega
    · exact progress.replay.snoc more (by omega) (by omega) (by omega)
    · dsimp only
      rw [length_append, length_append, length_difference, Bytes.length_slice]
      omega
  · omega
  · intro whole
    omega

/-- The loop over `new`: each round either moves on or finds a match to move over, so
that it ends; what it has emitted then reaches the end of `new`. -/
theorem diffLoop_spec (positions : Positions I old) (fuel : Nat) :
    ∀ (scan len pos : Int) (last : Emitted) (lastscan lastpos : Nat),
      Progress old new last lastscan lastpos → lastscan ≤ scan → scan ≤ new.length →
      (scan = new.length → lastscan = new.length) →
      Found old ⟨scan, len, pos, 0⟩ → (scan < new.length → scan + len ≤ new.length) →
      0 ≤ scan + last.lastoffset →
      (2 * (new.length - scan) + if len = 0 then 1 else 0).toNat < fuel →
      ∃ last' lastpos', diffLoop I old new fuel scan len pos last = some last' ∧
        Progress old new last' new.length lastpos' := by
  induction fuel with
  | zero =>
    intro scan len pos last lastscan lastpos _ _ _ _ _ _ _ enough
    omega
  | succ fuel ih =>
    intro scan len pos last lastscan lastpos progress lastscanLe scanLe whole found matched offset
      enough
    by_cases more : scan < new.length
    · have lenNonneg := found.lenNonneg
      dsimp only at lenNonneg
      have inside := matched more
      obtain ⟨state, run, forward, stateLe, found', matched', first⟩ := scanLoop_spec
        positions new last.lastoffset (new.length + 1) (scan + len) ⟨scan + len, len, pos, 0⟩
        (by omega) (by omega) (by dsimp only; omega) (by dsimp only; omega) inside
        ⟨found.posNonneg, found.posInside, found.lenNonneg⟩ (by dsimp only; omega)
      dsimp only at forward first
      have smaller : (2 * (new.length - state.scan) + if state.len = 0 then 1 else 0).toNat <
          fuel := by
        split at enough <;> split <;> omega
      simp only [diffLoop, if_pos more, run, some_bind]
      split
      · obtain ⟨last', lastscan', lastpos', emitted, progress', lastscanLe', whole', offset'⟩ :=
          emit_spec progress (by omega) (by omega) stateLe found'.posNonneg found'.posInside
        rw [emitted, some_bind]
        have posNonneg := found'.posNonneg
        exact ih _ _ _ _ _ _ progress' lastscanLe' stateLe whole'
          ⟨found'.posNonneg, found'.posInside, found'.lenNonneg⟩ matched' (by omega) smaller
      · exact ih _ _ _ _ _ _ progress (by omega) stateLe (by omega)
          ⟨found'.posNonneg, found'.posInside, found'.lenNonneg⟩ matched' (by omega) smaller
    · have atEnd : scan = new.length := by omega
      rw [whole atEnd] at progress
      exact ⟨last, lastpos, by simp only [diffLoop, if_neg more], progress⟩

end Loops

end PhilzTouch.ApplyPatch
