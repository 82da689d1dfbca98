import PhilzTouch.ApplyPatch.BsdiffTiles

/-!
# The decoder replays what `bsdiff` emitted

The decoder reads one triple after the other and keeps the two positions that the
scan had when it emitted the triple.  Together with the header this gives the round
trip of `bsdiff` and `ApplyBSDiffPatchMem`.
-/

namespace PhilzTouch.ApplyPatch

open List Bytes

@[simp] theorem length_offtout (x : Int) : (offtout x).length = 8 := by
  rw [offtout]
  split <;> simp

theorem offtin_append {front : Bytes} (length : front.length = 7) (top : UInt8) (rest : Bytes) :
    offtin (front ++ top :: rest) =
      if top &&& 0x80 ≠ 0 then wrap (-wrap (toNatLE (front ++ [top &&& 0x7F])))
      else wrap (toNatLE (front ++ [top &&& 0x7F])) := by
  have last : (front ++ top :: rest).getD 7 0 = top := by
    rw [getD_append_right _ _ _ _ (by omega), length]
    rfl
  have first : (front ++ top :: rest).take 7 = front := by
    rw [← length, take_left]
  rw [offtin, last, first]

/-- The decoder reads back a number that fits its `off_t`, whatever follows it. -/
theorem offtin_offtout {x : Int} (low : -2 ^ 31 < x) (high : x < 2 ^ 31) (rest : Bytes) :
    offtin (offtout x ++ rest) = x := by
  have small : x.natAbs < 256 ^ 7 := by omega
  have digits : ofNatLE 8 x.natAbs = ofNatLE 7 x.natAbs ++ [0] := by
    rw [ofNatLE_succ, Nat.div_eq_of_lt small]
    rfl
  have length : (ofNatLE 7 x.natAbs).length = 7 := length_ofNatLE _ _
  have value : toNatLE (ofNatLE 7 x.natAbs ++ [0]) = x.natAbs := by
    rw [toNatLE_append, toNatLE_ofNatLE, Nat.mod_eq_of_lt small]
    simp [toNatLE]
  have magnitude : wrap x.natAbs = x.natAbs := wrap_eq (by omega) (by omega)
  by_cases negative : x < 0
  · have buf : offtout x ++ rest = ofNatLE 7 x.natAbs ++ 0x80 :: rest := by
      rw [offtout, digits]
      simp [negative, length]
    rw [buf, offtin_append length, if_pos (by decide), show (0x80 : UInt8) &&& 0x7F = 0 by decide,
      value, magnitude, wrap_eq (by omega) (by omega)]
    omega
  · have buf : offtout x ++ rest = ofNatLE 7 x.natAbs ++ 0 :: rest := by
      rw [offtout, digits]
      simp [negative]
    rw [buf, offtin_append length, if_neg (by decide), show (0 : UInt8) &&& 0x7F = 0 by decide,
      value, magnitude]
    omega

theorem offtin_encodeTriple (lenf extra seek : Int) (lenfFits : -2 ^ 31 < lenf ∧ lenf < 2 ^ 31)
    (extraFits : -2 ^ 31 < extra ∧ extra < 2 ^ 31) (seekFits : -2 ^ 31 < seek ∧ seek < 2 ^ 31) :
    offtin (encodeTriple lenf extra seek) = lenf ∧
      offtin ((encodeTriple lenf extra seek).drop 8) = extra ∧
      offtin ((encodeTriple lenf extra seek).drop 16) = seek := by
  have dropOne : (encodeTriple lenf extra seek).drop 8 = offtout extra ++ offtout seek := by
    simp [encodeTriple]
  have dropTwo : (encodeTriple lenf extra seek).drop 16 = offtout seek ++ [] := by
    simp [encodeTriple, drop_append]
  refine ⟨?_, ?_, ?_⟩
  · rw [encodeTriple, append_assoc]
    exact offtin_offtout lenfFits.1 lenfFits.2 _
  · rw [dropOne]
    exact offtin_offtout extraFits.1 extraFits.2 _
  · rw [dropTwo]
    exact offtin_offtout seekFits.1 seekFits.2 _

@[simp] theorem length_encodeTriple (lenf extra seek : Int) :
    (encodeTriple lenf extra seek).length = 24 := by
  simp [encodeTriple]

theorem fillBuffer_append (front rest : Bytes) (tail : BzEnd) :
    fillBuffer front.length (front ++ rest, tail) = .ok (front, (rest, tail)) := by
  simp [fillBuffer]

/-- Adding the old bytes to their difference with the new ones gives the new ones. -/
theorem addOld_difference {old new : Bytes} {scan pos count : Nat}
    (newInside : scan + count ≤ new.length) :
    addOld old pos (difference old new scan pos count) = new.slice scan count := by
  apply ext_getElem
  · simp [addOld]
    omega
  intro i iLt _
  simp only [addOld, length_mapIdx, length_difference] at iLt
  have place : ((pos : Int) + i).toNat = pos + i := by omega
  simp only [addOld, difference, getElem_mapIdx, getElem_map, getElem_range, oldByte,
    if_pos (by omega : (0 : Int) ≤ pos + i), place, slice, getElem_take, getElem_drop]
  rw [getD_eq_getElem _ _ (by omega : scan + i < new.length)]
  exact UInt8.sub_add_cancel _ _

/-- The seek of a triple takes the decoder to the next position in the old file. -/
theorem wrap_seek {place next : Int} (placeFits : 0 ≤ place ∧ place < 2 ^ 31)
    (nextFits : 0 ≤ next ∧ next < 2 ^ 31) : wrap (wrap place + (next - place)) = next := by
  rw [wrap_eq (by omega : -2 ^ 31 ≤ place) placeFits.2, add_comm, Int.sub_add_cancel]
  exact wrap_eq (by omega) nextFits.2

theorem checkRoom_fits {newpos count size : Nat} (fits : newpos + count ≤ size)
    (small : size < 2 ^ 31) (stream : BzStream) :
    checkRoom newpos count size stream = .ok () := by
  rw [checkRoom, wrap_eq (by omega) (by omega), if_neg (by omega), if_neg (by omega)]

/-- The decoder follows a chain to its end: with the bytes up to `scan` written and
`oldpos` at `pos`, it writes the rest of `new`. -/
theorem applyTriples_replay {old new : Bytes} (oldFits : old.length < 2 ^ 31)
    (newFits : new.length < 2 ^ 31) {scan pos scan' pos' : Nat} {ctrl db eb : Bytes}
    (replay : Replay old new scan pos scan' pos' ctrl db eb) :
    ∀ fuel, pos ≤ old.length → scan' = new.length → ctrl.length < fuel →
      applyTriples old new.length fuel pos (new.take scan) (ctrl, .streamEnd) (db, .streamEnd)
        (eb, .streamEnd) = .ok new := by
  induction replay with
  | nil scan pos =>
    intro fuel _ atEnd enough
    obtain ⟨fuel, rfl⟩ := Nat.exists_eq_succ_of_ne_zero (by omega : fuel ≠ 0)
    subst atEnd
    rw [take_length, applyTriples, if_pos le_rfl]
  | @cons scan pos lenf extra next scan' pos' ctrl db eb more newInside oldInside nextInside rest ih =>
    intro fuel posInside atEnd enough
    obtain ⟨fuel, rfl⟩ := Nat.exists_eq_succ_of_ne_zero (by omega : fuel ≠ 0)
    have written : (new.take scan).length = scan := length_take_of_le (by omega)
    have goesOn : ¬((new.length : Int) ≤ (new.take scan).length) := by omega
    obtain ⟨readLenf, readExtra, readSeek⟩ := offtin_encodeTriple lenf extra
      ((next : Int) - (pos + lenf)) (by omega) (by omega) (by omega)
    have nonneg : ¬((lenf : Int) < 0 ∨ (extra : Int) < 0) := by omega
    have triple := fillBuffer_append
      (encodeTriple lenf extra ((next : Int) - (pos + lenf))) ctrl .streamEnd
    rw [length_encodeTriple] at triple
    have diff := fillBuffer_append (difference old new scan pos lenf) db .streamEnd
    rw [length_difference] at diff
    have copied := fillBuffer_append (new.slice (scan + lenf) extra) eb .streamEnd
    rw [length_slice, min_eq_left (by omega)] at copied
    have written' : (new.take (scan + lenf)).length = scan + lenf := length_take_of_le (by omega)
    have room := checkRoom_fits (by omega : (new.take scan).length + lenf ≤ new.length) newFits
    have room' := checkRoom_fits
      (by omega : (new.take (scan + lenf)).length + extra ≤ new.length) newFits
    have jump : wrap (wrap ((pos : Int) + lenf) + ((next : Int) - (pos + lenf))) = next :=
      wrap_seek (by omega) (by omega)
    rw [length_append, length_encodeTriple] at enough
    rw [applyTriples, if_neg goesOn, triple]
    simp only [bind, Except.bind, readLenf, readExtra, readSeek, if_neg nonneg, room,
      Int.toNat_natCast, diff, addOld_difference (by omega : scan + lenf ≤ new.length),
      take_append_slice, room', copied, jump]
    exact ih fuel nextInside atEnd (by omega)

/-- The patch file that `bsdiff` writes around its three blocks. -/
def patchFile (bz : Bz2) (size : Nat) (ctrl db eb : Bytes) : Bytes :=
  bsdiffMagic ++ offtout (bz.compress ctrl).length ++ offtout (bz.compress db).length ++
    offtout size ++ bz.compress ctrl ++ bz.compress db ++ bz.compress eb

/-- `bsdiff` always ends with a patch, whose blocks are a chain that reaches the end of
the new file. -/
theorem bsdiff_spec (bz : Bz2) (old new : Bytes) (ip : Option Cells)
    (sorted : ∀ I, ip = some I → Positions I old) :
    ∃ I ctrl db eb pos, bsdiff bz old ip new = some (patchFile bz new.length ctrl db eb, I) ∧
      Positions I old ∧ Replay old new 0 0 new.length pos ctrl db eb := by
  obtain ⟨I, found, positions⟩ : ∃ I, sortedSuffixes old ip = some I ∧ Positions I old := by
    cases ip with
    | some I => exact ⟨I, rfl, sorted I rfl⟩
    | none =>
      have length : (replicate (old.length + 1) (0 : Int)).length = old.length + 1 :=
        length_replicate
      obtain ⟨I, suffixAt, run, _, covers, shows, _⟩ := qsufsort_sorts length length
      refine ⟨I, run, ?_⟩
      intro index inside
      exact ⟨suffixAt index, shows index (Nat.zero_le _) (by omega), (covers index).mpr inside⟩
  have start : Progress old new ⟨0, 0, 0, [], [], []⟩ 0 0 :=
    ⟨rfl, rfl, Nat.zero_le _, .nil 0 0, rfl⟩
  obtain ⟨last, pos, run, progress⟩ := diffLoop_spec positions (2 * new.length + 2) 0 0 0 _ 0 0 start
    le_rfl (Int.natCast_nonneg _) (by omega)
    ⟨le_rfl, Int.natCast_nonneg _, le_rfl⟩ (by omega) (by simp) (by simp)
  refine ⟨I, last.ctrl, last.db, last.eb, pos, ?_, positions, progress.replay⟩
  simp only [bsdiff, found, run, some_bind, patchFile]

theorem offtin_read {value : Value} {offset : Nat} {x : Int} {rest : Bytes}
    (stands : value.data.drop offset = offtout x ++ rest) (inside : offset ≤ value.data.length)
    (nonneg : 0 ≤ x) (small : x < 2 ^ 31) : offtin (value.read offset 8) = x := by
  have read := value.read_of_drop stands inside
  rw [length_offtout] at read
  rw [read, ← append_nil (offtout x)]
  exact offtin_offtout (by omega) small []

/-- The decoder, at the place in a block of memory where the patch stands, recovers the
new file. -/
theorem applyBSDiffPatchMem_patchFile {bz : Bz2} {old new ctrl db eb back : Bytes} {pos : Nat}
    (front : Bytes) (inverts : bz.Inverts) (stops : ∀ data, bz.decompress (bz.compress data ++ back) =
      (data, .streamEnd)) (oldFits : old.length < 2 ^ 31) (newFits : new.length < 2 ^ 31)
    (replay : Replay old new 0 0 new.length pos ctrl db eb) (value : Value)
    (layout : value.data = front ++ patchFile bz new.length ctrl db eb ++ back) :
    applyBSDiffPatchMem bz old value front.length = .ok new := by
  have fits := value.fits
  rw [layout] at fits
  simp only [patchFile, length_append, length_offtout, show bsdiffMagic.length = 8 from rfl] at fits
  have inside : front.length + 32 + (bz.compress ctrl).length + (bz.compress db).length ≤
      value.data.length := by
    rw [layout]
    simp only [patchFile, length_append, length_offtout, show bsdiffMagic.length = 8 from rfl]
    omega
  -- what stands at the offset of each field and of each block
  have atMagic : value.data.drop front.length = bsdiffMagic ++
      (offtout (bz.compress ctrl).length ++ (offtout (bz.compress db).length ++
        (offtout new.length ++ (bz.compress ctrl ++ (bz.compress db ++
          (bz.compress eb ++ back)))))) := by
    rw [layout, append_assoc, drop_left, patchFile]
    simp only [append_assoc]
  have atCtrlLen := drop_of_drop atMagic
  have atDataLen := drop_of_drop atCtrlLen
  have atNewSize := drop_of_drop atDataLen
  have atCtrl := drop_of_drop atNewSize
  have atData := drop_of_drop atCtrl
  have atExtra := drop_of_drop atData
  simp only [length_offtout, show bsdiffMagic.length = 8 from rfl, add_assoc, Nat.reduceAdd]
    at atCtrlLen atDataLen atNewSize atCtrl atData atExtra
  have magic : value.read front.length 8 = bsdiffMagic := value.read_of_drop atMagic (by omega)
  have ctrlLen := offtin_read atCtrlLen (by omega) (by omega) (by omega)
  have dataLen := offtin_read atDataLen (by omega) (by omega) (by omega)
  have newSize := offtin_read atNewSize (by omega) (by omega) (by omega)
  have ctrlBlock := value.read_of_drop atCtrl (by omega)
  have dataBlock := value.read_of_drop atData (by omega)
  rw [← append_nil (bz.compress eb ++ back)] at atExtra
  have extraBlock := value.read_of_drop atExtra (by omega)
  have remaining : ((value.data.length : Int) - (front.length + 32 + (bz.compress ctrl).length +
      (bz.compress db).length)) % 2 ^ 32 = (bz.compress eb ++ back).length := by
    rw [layout]
    simp only [patchFile, length_append, length_offtout, show bsdiffMagic.length = 8 from rfl]
    omega
  simp only [Int.natCast_add, ← add_assoc, Int.cast_ofNat_Int] at ctrlLen dataLen newSize ctrlBlock dataBlock extraBlock
  have valid : ¬(((bz.compress ctrl).length : Int) < 0 ∨ ((bz.compress db).length : Int) < 0 ∨
      (new.length : Int) < 0) := by omega
  have replayed := applyTriples_replay oldFits newFits replay (ctrl.length + 1) (Nat.zero_le _) rfl
    (Nat.lt_succ_self _)
  simp only [applyBSDiffPatchMem, magic, ne_eq, not_true_eq_false, if_false, ctrlLen, dataLen,
    newSize, if_neg valid, Int.toNat_natCast, remaining, ctrlBlock, dataBlock, extraBlock,
    inverts ctrl, inverts db, stops eb]
  exact replayed

/-- `bsdiff` ends with a patch for any two files, and the decoder makes the new file
again from the old one and that patch, for every block of memory that holds it. -/
theorem applyBSDiffPatchMem_bsdiff (bz : Bz2) (inverts : bz.Inverts) (old new : Bytes)
    (oldFits : old.length < 2 ^ 31) (newFits : new.length < 2 ^ 31) :
    ∃ patch I, bsdiff bz old none new = some (patch, I) ∧
      ∀ value : Value, value.data = patch → applyBSDiffPatchMem bz old value 0 = .ok new := by
  obtain ⟨I, ctrl, db, eb, pos, run, _, replay⟩ := bsdiff_spec bz old new none (by intro I; simp)
  refine ⟨_, I, run, ?_⟩
  intro value holds
  have stops : ∀ data, bz.decompress (bz.compress data ++ []) = (data, .streamEnd) := by
    intro data
    rw [append_nil, inverts data]
  exact applyBSDiffPatchMem_patchFile [] inverts stops oldFits newFits replay value
    (by rw [holds, nil_append, append_nil])

/-- A compressor that stores its data as they are. -/
def storing : Bz2 where
  compress data := data
  decompress input := (input, .streamEnd)

theorem applyBSDiffPatchMem_bsdiff_storing :
    ∃ patch I, bsdiff storing [1, 2, 3] none [2, 3, 4, 5] = some (patch, I) ∧
      ∀ value : Value, value.data = patch →
        applyBSDiffPatchMem storing [1, 2, 3] value 0 = .ok [2, 3, 4, 5] :=
  applyBSDiffPatchMem_bsdiff storing (fun _ => rfl) [1, 2, 3] [2, 3, 4, 5] (by decide) (by decide)

end PhilzTouch.ApplyPatch
