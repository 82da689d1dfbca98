import PhilzTouch.ApplyPatch.Imgpatch

/-!
# What the patch routines send to a sink

The chunk loop ignores the result of `ApplyBSDiffPatch`, so that a chunk the sink has
refused is left out of the hash and the loop goes on.  What a routine would have
produced is what it gives to a sink that never fails; what it has produced is described
by any relation between the hashed bytes, the intended bytes and the machine's state
that one call of the sink keeps.
-/

namespace PhilzTouch.ApplyPatch

variable {Op : Type} {Reply : Op → Type} {σ : Type}

/-- A sink that never fails and keeps everything. -/
def collect : Sink Op Reply Bytes := fun data buffer => .ret (data.length, buffer ++ data)

variable {machine : Machine Op Reply} {allowed : machine.Step → Prop}
  {invariant : machine.State → Prop}

/-- One call of the sink keeps a relation between the bytes hashed, the bytes that were
to be written, the sink's token and the state: data that were all accepted are hashed,
data that were not all accepted are missing from the hash. -/
def SinkKeeps (allowed : machine.Step → Prop) (invariant : machine.State → Prop)
    (track : (ctx want : Bytes) → σ → machine.State → Prop) (sink : Sink Op Reply σ) : Prop :=
  ∀ data ctx want token state, track ctx want token state → machine.Safe allowed invariant
      (fun (reply : Int × σ) after =>
        reply.1 = data.length ∧ track (ctx ++ data) (want ++ data) reply.2 after ∨
          reply.1 < data.length ∧ track ctx (want ++ data) reply.2 after)
      (sink data token) state

variable {track : (ctx want : Bytes) → σ → machine.State → Prop} {sink : Sink Op Reply σ}

/-- What `ApplyBSDiffPatch` would have produced after `want`. -/
def bsdiffOutput (bz : Bz2) (old : Bytes) (patch : Value) (patchOffset : Int) (want : Bytes) :
    Option (Applied Bytes) :=
  match applyBSDiffPatchMem bz old patch patchOffset with
  | .error .failed => some ⟨-1, want, want⟩
  | .error _ => none
  | .ok new => some ⟨0, want ++ new, want ++ new⟩

variable {want : Bytes}

theorem bsdiffOutput_ctx {bz : Bz2} {old : Bytes} {patch : Value} {patchOffset : Int}
    {made : Applied Bytes} (output : bsdiffOutput bz old patch patchOffset want = some made) :
    made.ctx = made.sink := by
  unfold bsdiffOutput at output
  split at output <;> cases output <;> rfl

/-- A program that returns at once, or is stuck. -/
def ofOption {α : Type} : Option α → Prog Op Reply α
  | some value => .ret value
  | none => .stop

theorem applyBSDiffPatch_collect (bz : Bz2) (old : Bytes) (patch : Value) (patchOffset : Int)
    (want : Bytes) :
    (applyBSDiffPatch bz old patch patchOffset collect want want : Prog Op Reply _) =
      ofOption (bsdiffOutput bz old patch patchOffset want) := by
  unfold applyBSDiffPatch bsdiffOutput
  cases applyBSDiffPatchMem bz old patch patchOffset with
  | error why => cases why <;> rfl
  | ok new =>
    simp only [collect, Prog.ret_bind]
    rw [if_neg (by omega)]
    rfl

variable {token : σ} {state : machine.State}

theorem sinkPieces_collect (pieces : List Bytes) (want : Bytes) :
    (sinkPieces collect pieces want want : Prog Op Reply _) =
      .ret ⟨0, want ++ pieces.flatten, want ++ pieces.flatten⟩ := by
  induction pieces generalizing want with
  | nil => simp [sinkPieces]
  | cons piece pieces ih =>
    have first : (collect piece want : Prog Op Reply _) = .ret (piece.length, want ++ piece) := rfl
    simp only [sinkPieces, first, Prog.ret_bind, ne_eq, not_true, if_false, ih]
    rw [List.flatten_cons, List.append_assoc]

variable (keeps : SinkKeeps allowed invariant track sink)

include keeps

variable {ctx : Bytes}

/-- `ApplyBSDiffPatch` keeps the relation; a result of 0 means that all was hashed. -/
theorem applyBSDiffPatch_keeps (bz : Bz2) (old : Bytes) (patch : Value) (patchOffset : Int)
    (tracked : track ctx want token state) : machine.Safe allowed invariant
      (fun applied after => ∃ made, bsdiffOutput bz old patch patchOffset want = some made ∧
        track applied.ctx made.sink applied.sink after ∧ (applied.result = 0 → made.result = 0))
      (applyBSDiffPatch bz old patch patchOffset sink token ctx) state := by
  unfold applyBSDiffPatch bsdiffOutput
  cases applyBSDiffPatchMem bz old patch patchOffset with
  | error why =>
    cases why with
    | failed => exact .ret ⟨_, rfl, tracked, id⟩
    | hang => exact .stop
    | wild => exact .stop
  | ok new =>
    refine .bind (keeps new ctx want token state tracked) ?_
    intro reply after outcome
    by_cases short : reply.1 < new.length
    · have refused : track ctx (want ++ new) reply.2 after := by
        rcases outcome with ⟨all, _⟩ | ⟨_, refused⟩
        · omega
        · exact refused
      simp only [if_pos short]
      exact .ret ⟨_, rfl, refused, fun _ => rfl⟩
    · have accepted : track (ctx ++ new) (want ++ new) reply.2 after := by
        rcases outcome with ⟨_, accepted⟩ | ⟨less, _⟩
        · exact accepted
        · exact absurd less short
      simp only [if_neg short]
      exact .ret ⟨_, rfl, accepted, fun _ => rfl⟩

/-- The buffers of a compressed chunk: they were all accepted, or the chunk fails. -/
theorem sinkPieces_keeps {pieces : List Bytes}
    (tracked : track ctx want token state) : machine.Safe allowed invariant
      (fun applied after => applied.result = 0 →
        track applied.ctx (want ++ pieces.flatten) applied.sink after)
      (sinkPieces sink pieces token ctx) state := by
  induction pieces generalizing ctx want token state with
  | nil => exact .ret fun _ => by simpa using tracked
  | cons piece pieces ih =>
    refine .bind (keeps piece ctx want token state tracked) ?_
    intro reply after outcome
    by_cases all : reply.1 = piece.length
    · have accepted : track (ctx ++ piece) (want ++ piece) reply.2 after := by
        rcases outcome with ⟨_, accepted⟩ | ⟨less, _⟩
        · exact accepted
        · omega
      simp only [ne_eq, all, not_true, if_false]
      rw [List.flatten_cons, ← List.append_assoc]
      exact ih accepted
    · simp only [ne_eq, all, not_false_eq_true, if_true]
      exact .ret fun zero => by simp at zero

/-- The chunk loop: a result of 0 means that a sink that never fails would have been
given `out`, and that `out` is what the relation speaks about. -/
theorem applyChunks_keeps (zlib : Zlib) (bz : Bz2)
    (old patch : Value) (bonus : Option Value) (left i : Nat) (pos : Int)
    (tracked : track ctx want token state) : machine.Safe allowed invariant
      (fun applied after => applied.result = 0 → ∃ out,
        (applyChunks zlib bz old patch bonus collect left i pos want want : Prog Op Reply _) =
          .ret ⟨0, out, out⟩ ∧ track applied.ctx out applied.sink after)
      (applyChunks zlib bz old patch bonus sink left i pos token ctx) state := by
  induction left generalizing i pos ctx want token state with
  | zero => exact .ret fun _ => ⟨want, rfl, tracked⟩
  | succ left ih =>
    unfold applyChunks
    rcases readChunk patch pos with why | ⟨chunk, pos⟩
    · cases why with
      | failed => exact .ret fun zero => by simp at zero
      | hang => exact .stop
      | wild => exact .stop
    cases chunk with dsimp only
    | normal srcStart srcLen patchOffset =>
      generalize wrap (patchOffset : Int) = offset
      refine .bind (applyBSDiffPatch_keeps keeps bz
        (signedRead old srcStart srcLen) patch offset tracked) ?_
      rintro applied after ⟨made, output, kept, _⟩
      refine .weaken (ih (i + 1) pos kept) ?_
      intro last final known zero
      obtain ⟨out, rest, final⟩ := known zero
      refine ⟨out, ?_, final⟩
      rw [applyBSDiffPatch_collect, output, ofOption, Prog.ret_bind, bsdiffOutput_ctx output]
      exact rest
    | raw data =>
      refine .bind (keeps data ctx want token state tracked) ?_
      intro reply after outcome
      by_cases all : reply.1 = data.length
      · have accepted := outcome.resolve_right fun refused => by
          have := refused.1
          omega
        simp only [ne_eq, all, not_true, if_false]
        refine .weaken (ih (i + 1) pos accepted.2) ?_
        intro last final known zero
        obtain ⟨out, rest, final⟩ := known zero
        refine ⟨out, ?_, final⟩
        have first : (collect data want : Prog Op Reply _) = .ret (data.length, want ++ data) := rfl
        simp only [first, Prog.ret_bind, not_true, if_false]
        exact rest
      · simp only [ne_eq, all, not_false_eq_true, if_true]
        exact .ret fun zero => by simp at zero
    | deflate header =>
      rcases deflatePieces zlib bz old patch _ header with why | pieces
      · cases why with
        | failed => exact .ret fun zero => by simp at zero
        | hang => exact .stop
        | wild => exact .stop
      refine .bind (sinkPieces_keeps keeps tracked) ?_
      intro applied after outcome
      by_cases zero : applied.result = 0
      · simp only [ne_eq, zero, not_true, if_false]
        refine .weaken (ih (i + 1) pos (outcome zero)) ?_
        intro last final known zero
        obtain ⟨out, rest, final⟩ := known zero
        refine ⟨out, ?_, final⟩
        simp only [sinkPieces_collect, Prog.ret_bind, not_true, if_false]
        exact rest
      · simp only [ne_eq, zero, not_false_eq_true, if_true]
        exact .ret fun wrong => absurd wrong zero

theorem applyImagePatch_keeps (zlib : Zlib)
    (bz : Bz2) (old patch : Value) (bonus : Option Value) (tracked : track [] [] token state) :
    machine.Safe allowed invariant (fun applied after => applied.result = 0 → ∃ out,
        (applyImagePatch zlib bz old patch bonus collect [] [] : Prog Op Reply _) =
          .ret ⟨0, out, out⟩ ∧ track applied.ctx out applied.sink after)
      (applyImagePatch zlib bz old patch bonus sink token []) state := by
  unfold applyImagePatch
  by_cases short : patch.data.length < 12
  · simp only [if_pos short]
    exact .ret fun zero => by simp at zero
  simp only [if_neg short]
  by_cases magic : patch.read 0 8 = imgdiffMagic
  · simp only [magic, ne_eq, not_true, if_false]
    exact applyChunks_keeps keeps zlib bz old patch bonus _ 0 12 tracked
  · simp only [magic, ne_eq, not_false_eq_true, if_true]
    exact .ret fun zero => by simp at zero

end PhilzTouch.ApplyPatch
