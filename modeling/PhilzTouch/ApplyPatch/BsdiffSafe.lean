import PhilzTouch.ApplyPatch.BsdiffRoundTrip
import PhilzTouch.ApplyPatch.BspatchSafe

/-!
# The decoder on the patches of bsdiff

A patch that `bsdiff` has written leads the decoder to the new file, and no access on the way
leaves its buffer.
-/

namespace PhilzTouch.ApplyPatch

open List

variable {bz : Bz2} {old : Bytes} {patch : Value}

theorem patchMemCalls_inside {patchOffset : Int} (inside : PatchInside patch patchOffset)
    {fuel : Nat} {new : Bytes}
    (made : (patchMemCalls fuel bz old patch patchOffset).result = .ok new) :
    ∀ access ∈ (patchMemCalls fuel bz old patch patchOffset).trace,
      access.Inside patch.data.length new.length old.length := by
  rw [patchMemCalls_eq] at made ⊢
  cases accepted : patchStreams bz patch patchOffset with
  | none =>
    rw [accepted] at made
    cases made
  | some streams =>
    rw [accepted] at made
    have outcome := @run_outcome old patch streams (patchStreams_newSize accepted).2 fuel
    intro access member
    rcases mem_append.mp member with early | late
    · exact patchReads_inside_iff.mpr inside access early
    by_contra outside
    rw [outcome.full new made] at outside
    cases made.symm.trans (outcome.wild_iff.mp ⟨access, late, outside⟩)

/-- The header of a patch file announces the blocks that stand behind it. -/
theorem patchInside_patchFile {size : Nat} {ctrl db eb : Bytes}
    (holds : patch.data = patchFile bz size ctrl db eb) : PatchInside patch 0 := by
  have magic : bsdiffMagic.length = 8 := rfl
  have length := congrArg List.length holds
  simp only [patchFile, length_append, length_offtout, magic] at length
  have fits := patch.fits
  have atMagic : patch.data.drop 0 = bsdiffMagic ++ (offtout (bz.compress ctrl).length ++
      (offtout (bz.compress db).length ++
        (offtout size ++ (bz.compress ctrl ++ (bz.compress db ++ bz.compress eb))))) := by
    rw [holds, patchFile]
    simp only [append_assoc, drop_zero]
  have atCtrlLen := Bytes.drop_of_drop atMagic
  have atDataLen := Bytes.drop_of_drop atCtrlLen
  rw [length_offtout] at atDataLen
  have ctrlRead := offtin_read atCtrlLen (by omega) (by omega) (by omega)
  have dataRead := offtin_read atDataLen (by omega) (by omega) (by omega)
  have ctrlLen : headerNumber patch 0 8 = (bz.compress ctrl).length := ctrlRead
  have dataLen : headerNumber patch 0 16 = (bz.compress db).length := dataRead
  exact ⟨le_rfl, by omega, fun _ => ⟨by omega, fun _ _ _ => by omega⟩⟩

/-- The decoder makes the new file from a block of memory with the patch, and stays in its
buffers. -/
def PatchesInside (bz : Bz2) (old new patch : Bytes) : Prop :=
  ∀ value : Value, value.data = patch → ∃ fuel,
    (patchMemCalls fuel bz old value 0).result = .ok new ∧
      ∀ access ∈ (patchMemCalls fuel bz old value 0).trace,
        access.Inside patch.length new.length old.length

/-- With any positions for a suffix array, `bsdiff` ends with a patch that leads the decoder to the
new file and never out of its buffers. -/
theorem patchMemCalls_bsdiff (bz : Bz2) (inverts : bz.Inverts) (old new : Bytes)
    (oldFits : old.length < 2 ^ 31) (newFits : new.length < 2 ^ 31) (ip : Option Cells)
    (sorted : ∀ I, ip = some I → Positions I old) :
    ∃ patch I, bsdiff bz old ip new = some (patch, I) ∧ Positions I old ∧
      PatchesInside bz old new patch := by
  obtain ⟨I, ctrl, db, eb, pos, run, positions, replay⟩ := bsdiff_spec bz old new ip sorted
  refine ⟨_, I, run, positions, ?_⟩
  intro value holds
  have stops : ∀ data, bz.decompress (bz.compress data ++ []) = (data, .streamEnd) := by
    intro data
    rw [append_nil, inverts data]
  have made : applyBSDiffPatchMem bz old value 0 = .ok new :=
    applyBSDiffPatchMem_patchFile [] inverts stops oldFits newFits replay value
      (by rw [holds, nil_append, append_nil])
  obtain ⟨fuel, same⟩ := @patchMemCalls_result bz old value 0
  rw [made] at same
  rw [← holds]
  exact ⟨fuel, same, patchMemCalls_inside (patchInside_patchFile holds) same⟩

theorem patchMemCalls_bsdiff_storing : ∃ patch I,
    bsdiff storing [1, 2, 3] none [2, 3, 4, 5] = some (patch, I) ∧ Positions I [1, 2, 3] ∧
      PatchesInside storing [1, 2, 3] [2, 3, 4, 5] patch :=
  patchMemCalls_bsdiff storing (fun _ => rfl) _ _ (by decide) (by decide) none nofun

end PhilzTouch.ApplyPatch
