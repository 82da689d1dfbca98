import Mathlib.Data.List.Basic

/-!
# Fields and lines of a text

A text is taken apart at a separator in three ways: at its first occurrence (`cut`),
into the fields that end in one (`fields`), and into lines that keep theirs (`lines`).
`pieces` is how lines arrive through a buffer of bounded size: a line that is longer
than the buffer comes in several pieces.
-/

namespace PhilzTouch

open List

variable {α : Type} [DecidableEq α]

/-- The pieces that `strtok` finds one after the other. -/
def tokens (sep : α) (text : List α) : List (List α) := (text.splitOn sep).filter (· ≠ [])

theorem tokens_eq_nil {sep : α} {text : List α} :
    tokens sep text = [] ↔ ∀ item ∈ text, item = sep := by
  rw [tokens, filter_eq_nil_iff]
  induction text with
  | nil => simp
  | cons item text ih =>
    rw [splitOn_cons_eq_if_modifyHead, forall_mem_cons]
    by_cases same : item = sep
    · simp [same, ← ih]
    · obtain ⟨first, rest, known⟩ := exists_cons_of_ne_nil (splitOn_ne_nil sep text)
      simp [same, known]

theorem tokens_append (sep : α) (left right : List α) :
    tokens sep (left ++ sep :: right) = tokens sep left ++ tokens sep right := by
  rw [tokens, splitOn_append_cons_self, filter_append]
  rfl

theorem tokens_of_notMem {sep : α} {text : List α} (some : text ≠ []) (absent : sep ∉ text) :
    tokens sep text = [text] := by
  rw [tokens, splitOn_eq_singleton absent, filter_cons_of_pos (by simpa using some), filter_nil]

omit [DecidableEq α] in
theorem length_flatMap_le {β : Type} {f : α → List β} {first second : List α} (part : first <+ second) :
    (first.flatMap f).length ≤ (second.flatMap f).length := by
  induction part with
  | slnil => exact Nat.le_refl _
  | cons _ _ ih =>
    rw [flatMap_cons, length_append]
    omega
  | cons_cons _ _ ih =>
    rw [flatMap_cons, flatMap_cons, length_append, length_append]
    omega

/-- Tokens take as much room as the text, and a separator behind the last one. -/
theorem length_le_of_sublist_tokens {sep : α} {text : List α} {found : List (List α)}
    (part : found <+ tokens sep text) : (found.flatMap (· ++ [sep])).length ≤ text.length + 1 := by
  refine Nat.le_trans (length_flatMap_le (part.trans filter_sublist)) (Nat.le_of_eq ?_)
  clear part
  induction text with
  | nil => rfl
  | cons item text ih =>
    rw [splitOn_cons_eq_if_modifyHead]
    obtain ⟨first, rest, known⟩ := exists_cons_of_ne_nil (splitOn_ne_nil sep text)
    rw [known] at ih ⊢
    split
    all_goals
      simp only [flatMap_cons, modifyHead_cons, length_append, length_cons, length_nil] at ih ⊢
      omega

/-- A text before and behind the first separator in it. -/
def cut (sep : α) : List α → Option (List α × List α)
  | [] => none
  | item :: rest =>
    if item = sep then some ([], rest)
    else (cut sep rest).map fun halves => (item :: halves.1, halves.2)

variable {sep : α} {first : List α}

omit [DecidableEq α] in
theorem notMem_cons {item : α} (absent : sep ∉ item :: first) : item ≠ sep ∧ sep ∉ first := by
  rw [mem_cons, not_or] at absent
  exact ⟨Ne.symm absent.1, absent.2⟩

theorem cut_append (absent : sep ∉ first) (rest : List α) :
    cut sep (first ++ sep :: rest) = some (first, rest) := by
  induction first with
  | nil => simp [cut]
  | cons item first ih =>
    obtain ⟨other, absent⟩ := notMem_cons absent
    rw [cons_append, cut, if_neg other, ih absent]
    rfl

variable {text : List α}

theorem eq_append_of_cut {rest : List α} (found : cut sep text = some (first, rest)) :
    text = first ++ sep :: rest ∧ sep ∉ first := by
  induction text generalizing first with
  | nil => cases found
  | cons item text ih =>
    rw [cut] at found
    split at found
    next same =>
      cases found
      exact ⟨by rw [same, nil_append], not_mem_nil⟩
    next other =>
    cases below : cut sep text with
    | none => rw [below] at found; cases found
    | some halves =>
      rw [below] at found
      cases found
      obtain ⟨split, absent⟩ := ih below
      refine ⟨by rw [split, cons_append], ?_⟩
      simpa [absent] using fun same : sep = item => other same.symm

/-- The fields of a text that end in a separator; what follows the last one is no
field. -/
def fields (sep : α) : List α → List (List α)
  | [] => []
  | item :: rest =>
    if item = sep then [] :: fields sep rest
    else
      match fields sep rest with
      | [] => []
      | field :: more => (item :: field) :: more

theorem fields_append (absent : sep ∉ first) (rest : List α) :
    fields sep (first ++ sep :: rest) = first :: fields sep rest := by
  induction first with
  | nil => simp [fields]
  | cons item first ih =>
    obtain ⟨other, absent⟩ := notMem_cons absent
    rw [cons_append, fields, if_neg other, ih absent]

theorem fields_of_notMem (absent : sep ∉ text) : fields sep text = [] := by
  induction text with
  | nil => rfl
  | cons item text ih =>
    obtain ⟨other, absent⟩ := notMem_cons absent
    rw [fields, if_neg other, ih absent]

theorem fields_of_cut {rest : List α} (found : cut sep text = some (first, rest)) :
    fields sep text = first :: fields sep rest := by
  obtain ⟨rfl, absent⟩ := eq_append_of_cut found
  exact fields_append absent rest

theorem eq_fields_append (sep : α) (text : List α) :
    ∃ rest, text = (fields sep text).flatMap (· ++ [sep]) ++ rest ∧ sep ∉ rest := by
  induction text with
  | nil => exact ⟨[], rfl, not_mem_nil⟩
  | cons item text ih =>
    obtain ⟨rest, split, absent⟩ := ih
    rw [fields]
    split
    next same =>
      refine ⟨rest, ?_, absent⟩
      rw [flatMap_cons, same, append_assoc, ← split]
      rfl
    next other =>
    cases known : fields sep text with
    | nil =>
      rw [known, flatMap_nil, nil_append] at split
      refine ⟨item :: text, rfl, ?_⟩
      rw [mem_cons, not_or, split]
      exact ⟨fun same => other same.symm, absent⟩
    | cons field more =>
      rw [known] at split
      exact ⟨rest, congrArg (item :: ·) split, absent⟩

theorem sep_notMem_fields {field : List α} (member : field ∈ fields sep text) : sep ∉ field := by
  induction text generalizing field with
  | nil => cases member
  | cons item text ih =>
    rw [fields] at member
    split at member
    next same =>
      rcases mem_cons.mp member with rfl | later
      · exact not_mem_nil
      · exact ih later
    next other =>
    cases known : fields sep text with
    | nil =>
      rw [known] at member
      cases member
    | cons first more =>
      rw [known] at member ih
      rcases mem_cons.mp member with rfl | later
      · rw [mem_cons, not_or]
        exact ⟨fun same => other same.symm, ih mem_cons_self⟩
      · exact ih (mem_cons_of_mem _ later)

theorem fields_flatMap {texts : List (List α)} (absent : ∀ text ∈ texts, sep ∉ text) :
    fields sep (texts.flatMap (· ++ [sep])) = texts := by
  induction texts with
  | nil => rfl
  | cons text texts ih =>
    rw [flatMap_cons, append_assoc, singleton_append, fields_append (absent text mem_cons_self),
      ih (forall_mem_cons.mp absent).2]

theorem length_fields (sep : α) (text : List α) : (fields sep text).length = text.count sep := by
  induction text with
  | nil => rfl
  | cons item text ih =>
    rw [fields, count_cons]
    split
    next same => rw [length_cons, ih, if_pos (beq_iff_eq.mpr same)]
    next other =>
      rw [if_neg (fun same => other (beq_iff_eq.mp same)), Nat.add_zero, ← ih]
      cases fields sep text <;> rfl

/-- The lines of a text, each with the separator that ends it. -/
def lines (sep : α) : List α → List (List α)
  | [] => []
  | item :: rest =>
    if item = sep then [item] :: lines sep rest
    else
      match lines sep rest with
      | [] => [[item]]
      | line :: more => (item :: line) :: more

theorem lines_append (absent : sep ∉ first) (rest : List α) :
    lines sep (first ++ sep :: rest) = (first ++ [sep]) :: lines sep rest := by
  induction first with
  | nil => simp [lines]
  | cons item first ih =>
    obtain ⟨other, absent⟩ := notMem_cons absent
    rw [cons_append, lines, if_neg other, ih absent]
    rfl

theorem lines_of_notMem (absent : sep ∉ text) (some : text ≠ []) : lines sep text = [text] := by
  induction text with
  | nil => exact absurd rfl some
  | cons item text ih =>
    obtain ⟨other, absent⟩ := notMem_cons absent
    rw [lines, if_neg other]
    cases text with
    | nil => rfl
    | cons next text => rw [ih absent (cons_ne_nil _ _)]

theorem lines_flatten {text : List (List α)}
    (ended : ∀ line ∈ text, ∃ body, line = body ++ [sep] ∧ sep ∉ body) :
    lines sep text.flatten = text := by
  induction text with
  | nil => rfl
  | cons line text ih =>
    obtain ⟨body, rfl, absent⟩ := ended line mem_cons_self
    have rest := ih (forall_mem_cons.mp ended).2
    rw [flatten_cons, append_assoc, singleton_append, lines_append absent, rest]

/-- The next piece of a text that a buffer of `room` items takes, and what is left. -/
def piece (sep : α) : Nat → List α → List α × List α
  | 0, text => ([], text)
  | _ + 1, [] => ([], [])
  | room + 1, item :: rest =>
    if item = sep then ([item], rest)
    else (item :: (piece sep room rest).1, (piece sep room rest).2)

/-- All pieces of a text; each has at least one item, so `fuel` is its length. -/
def piecesFrom (sep : α) (room : Nat) : Nat → List α → List (List α)
  | 0, _ => []
  | _ + 1, [] => []
  | fuel + 1, item :: rest =>
    (piece sep room (item :: rest)).1 :: piecesFrom sep room fuel (piece sep room (item :: rest)).2

/-- The pieces in which a text arrives through a buffer of `room` items. -/
def pieces (sep : α) (room : Nat) (text : List α) : List (List α) :=
  piecesFrom sep room text.length text

@[simp] theorem pieces_nil (sep : α) (room : Nat) : pieces sep room ([] : List α) = [] := rfl

variable {room : Nat}

theorem piece_append (absent : sep ∉ first) (fits : first.length < room) (rest : List α) :
    piece sep room (first ++ sep :: rest) = (first ++ [sep], rest) := by
  induction first generalizing room with
  | nil =>
    cases room with
    | zero => cases fits
    | succ room => simp [piece]
  | cons item first ih =>
    obtain ⟨other, absent⟩ := notMem_cons absent
    cases room with
    | zero => cases fits
    | succ room =>
      rw [cons_append, piece, if_neg other, ih absent (Nat.lt_of_succ_lt_succ fits)]
      rfl

theorem piece_of_notMem_take (absent : sep ∉ text.take room) :
    piece sep room text = (text.take room, text.drop room) := by
  fun_induction piece sep room text <;> simp_all

variable (sep room)

theorem length_piece_rest (item : α) (text : List α) :
    (piece sep (room + 1) (item :: text)).2.length ≤ text.length := by
  induction room generalizing item text with
  | zero => rw [piece]; split <;> simp [piece]
  | succ room ih =>
    rw [piece]
    split
    · exact Nat.le_refl _
    · cases text with
      | nil => exact Nat.le_refl _
      | cons next text => exact Nat.le_succ_of_le (ih next text)

theorem piecesFrom_eq {fuel : Nat} (enough : text.length ≤ fuel) :
    piecesFrom sep (room + 1) fuel text = pieces sep (room + 1) text := by
  induction fuel using Nat.strongRecOn generalizing text with
  | ind fuel ih =>
    cases text with
    | nil => cases fuel <;> rfl
    | cons item text =>
      cases fuel with
      | zero => cases enough
      | succ fuel =>
        have shorter := length_piece_rest sep room item text
        have room' : text.length ≤ fuel := Nat.le_of_succ_le_succ enough
        rw [pieces, length_cons, piecesFrom, piecesFrom,
          ih fuel (Nat.lt_succ_self _) (Nat.le_trans shorter room'),
          ih text.length (Nat.lt_of_le_of_lt room' (Nat.lt_succ_self _)) shorter]

theorem pieces_cons (item : α) (text : List α) :
    pieces sep (room + 1) (item :: text) = (piece sep (room + 1) (item :: text)).1 ::
        pieces sep (room + 1) (piece sep (room + 1) (item :: text)).2 := by
  rw [pieces, length_cons, piecesFrom,
    piecesFrom_eq sep room (length_piece_rest sep room item text)]

theorem piece_append_rest (text : List α) :
    (piece sep room text).1 ++ (piece sep room text).2 = text := by
  induction room generalizing text with
  | zero => rfl
  | succ room ih =>
    cases text with
    | nil => rfl
    | cons item rest =>
      rw [piece]
      split
      · rfl
      · exact congrArg (item :: ·) (ih rest)

/-- What is passed on from behind each piece. -/
theorem pieces_induction {motive : List α → Prop} (nil : motive [])
    (next : ∀ item text, motive (piece sep (room + 1) (item :: text)).2 → motive (item :: text))
    (text : List α) : motive text := by
  induction counted : text.length using Nat.strongRecOn generalizing text with
  | ind size ih =>
    cases text with
    | nil => exact nil
    | cons item text => exact next item text (ih _ (by grind [length_piece_rest]) _ rfl)

theorem flatten_pieces (text : List α) : (pieces sep (room + 1) text).flatten = text := by
  induction text using pieces_induction sep room with
  | nil => rfl
  | next item text ih => rw [pieces_cons, flatten_cons, ih, piece_append_rest]

variable {sep room}

/-- Lines that fit the buffer arrive whole. -/
theorem pieces_eq_lines (fits : ∀ line ∈ lines sep text, line.length ≤ room + 1) :
    pieces sep (room + 1) text = lines sep text := by
  induction text using pieces_induction sep room with
  | nil => rfl
  | next item text ih =>
    rw [pieces_cons]
    by_cases present : sep ∈ item :: text
    · obtain ⟨line, rest, split, absent⟩ := eq_append_cons_of_mem present
      rw [split] at fits ih ⊢
      rw [lines_append absent, forall_mem_cons, length_append, length_singleton] at fits
      rw [piece_append absent (by omega)] at ih ⊢
      rw [lines_append absent, ih fits.2]
    · rw [lines_of_notMem present (cons_ne_nil _ _)] at fits ⊢
      have whole := take_of_length_le (fits _ mem_cons_self)
      rw [piece_of_notMem_take (by rwa [whole]), whole, drop_of_length_le (fits _ mem_cons_self),
        pieces_nil]

end PhilzTouch
