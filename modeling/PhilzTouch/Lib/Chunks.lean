import PhilzTouch.Lib.Split

/-!
# Streams in chunks

Texts that are each ended by a separator make up a stream, and the stream arrives in chunks.  Cut
chunk by chunk, it falls into the texts again just if no chunk ends inside of a text.
-/

namespace PhilzTouch

open List

variable {α : Type} {sep : α}

theorem rest_of_getLast? {text front rest : List α} (split : text = front ++ rest) (absent : sep ∉ rest)
    (ended : text.getLast? = some sep) : rest = [] := by
  rw [split, getLast?_append] at ended
  cases known : rest.getLast? with
  | none => exact getLast?_eq_none_iff.mp known
  | some last =>
    rw [known] at ended
    cases ended
    exact absurd (mem_of_getLast? known) absent

theorem getLast?_flatMap_sep (texts : List (List α)) (some : texts ≠ []) :
    (texts.flatMap (· ++ [sep])).getLast? = Option.some sep := by
  induction texts with
  | nil => exact absurd rfl some
  | cons text texts ih =>
    rw [flatMap_cons, getLast?_append]
    cases texts with
    | nil => simp
    | cons next texts =>
      rw [ih (cons_ne_nil _ _)]
      rfl

variable [DecidableEq α]

/-- The fields of all chunks take up no more than the chunks, and no less just if each of the
chunks ends in the separator. -/
theorem length_chunk_fields (chunks : List (List α)) (filled : ∀ chunk ∈ chunks, chunk ≠ []) :
    ((chunks.flatMap (fields sep)).flatMap (· ++ [sep])).length ≤ chunks.flatten.length ∧
      (((chunks.flatMap (fields sep)).flatMap (· ++ [sep])).length = chunks.flatten.length →
        ∀ chunk ∈ chunks, chunk.getLast? = some sep) := by
  induction chunks with
  | nil => exact ⟨Nat.le_refl _, fun _ => nofun⟩
  | cons chunk chunks ih =>
    obtain ⟨rest, split, absent⟩ := eq_fields_append sep chunk
    obtain ⟨bound, ended⟩ := ih (forall_mem_cons.mp filled).2
    have length := congrArg length split
    rw [length_append] at length
    rw [flatMap_cons, flatMap_append, length_append, flatten_cons, length_append]
    refine ⟨by omega, fun exact other member => ?_⟩
    rcases mem_cons.mp member with rfl | later
    · have nothing : rest = [] := eq_nil_of_length_eq_zero (by omega)
      rw [nothing, append_nil] at split
      rw [split]
      refine getLast?_flatMap_sep _ fun none => filled other mem_cons_self ?_
      rw [split, none, flatMap_nil]
    · exact ended (by omega) other later

theorem flatMap_chunk_fields {chunks : List (List α)}
    (ended : ∀ chunk ∈ chunks, chunk.getLast? = some sep) :
    (chunks.flatMap (fields sep)).flatMap (· ++ [sep]) = chunks.flatten := by
  induction chunks with
  | nil => rfl
  | cons chunk chunks ih =>
    obtain ⟨rest, split, absent⟩ := eq_fields_append sep chunk
    have nothing := rest_of_getLast? split absent (ended chunk mem_cons_self)
    rw [nothing, append_nil] at split
    rw [flatMap_cons, flatMap_append, flatten_cons, ← split, ih (forall_mem_cons.mp ended).2]

/-- A stream that arrives in chunks is cut into the texts it was made of just if every chunk ends
where a text ends. -/
theorem chunk_fields_eq_iff {chunks texts : List (List α)} (filled : ∀ chunk ∈ chunks, chunk ≠ [])
    (plain : ∀ text ∈ texts, sep ∉ text) (stream : chunks.flatten = texts.flatMap (· ++ [sep])) :
    chunks.flatMap (fields sep) = texts ↔ ∀ chunk ∈ chunks, chunk.getLast? = some sep := by
  constructor
  · intro same
    refine (length_chunk_fields chunks filled).2 ?_
    rw [same, stream]
  intro ended
  have same := (flatMap_chunk_fields ended).trans stream
  have cut : ∀ field ∈ chunks.flatMap (fields sep), sep ∉ field := by
    intro field member
    obtain ⟨chunk, -, inside⟩ := mem_flatMap.mp member
    exact sep_notMem_fields inside
  rw [← fields_flatMap cut, same, fields_flatMap plain]

theorem length_flatMap_fields (chunks : List (List α)) :
    (chunks.flatMap (fields sep)).length = chunks.flatten.count sep := by
  induction chunks with
  | nil => rfl
  | cons chunk chunks ih =>
    rw [flatMap_cons, length_append, ih, length_fields, flatten_cons, count_append]

end PhilzTouch
