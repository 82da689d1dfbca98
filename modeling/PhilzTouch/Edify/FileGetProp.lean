import Mathlib.Data.List.DropRight
import PhilzTouch.Edify.Expr
import PhilzTouch.Lib.CText
import PhilzTouch.Lib.Split

/-!
# Reading a property

`file_getprop` of `updater/install.c`, from where it has read the file.  It takes the lines apart
with `strtok`, which finds no first line in a file of line ends, and does not look at the result.
-/

namespace PhilzTouch.Edify

open List

variable {W : Type} (name filename key : Bytes)

/-! ## The function -/

/-- What stands before and behind the first `=`. -/
def halves (line : Bytes) : Bytes × Bytes :=
  (line.takeWhile (· ≠ equals), (line.dropWhile (· ≠ equals)).tail)

/-- Go back over white space to the beginning of the text, which itself is not looked at. -/
def trimEnd : Bytes → Bytes
  | [] => []
  | first :: rest => first :: rest.rdropWhile isSpace

/-- A blank line or a comment. -/
def silent (line : Bytes) : Bool := line = [] || line.head? = some (byte '#')

def malformedLine (line : Bytes) : Bytes :=
  name ++ ascii ": malformed line \"" ++ line ++ ascii "\": " ++ filename ++
    ascii " not a prop file?"

def scanLines : List Bytes → Eval W (Option Value)
  | [] => return some (.string [])
  | line :: lines =>
    let line := line.dropWhile isSpace
    if silent line then scanLines lines
    else if equals ∉ line then errorAbort (malformedLine name filename line)
    else if trimEnd (halves line).1 ≠ key then scanLines lines
    else return some (.string (trimEnd ((halves line).2.dropWhile isSpace)))

/-- `file_getprop` on a file that it can read.  Without a first line it follows a null pointer. -/
def fileGetProp (content : Bytes) : Eval W (Option Value) :=
  if 65536 < content.length then
    errorAbort (filename ++ ascii " too large for " ++ name ++ ascii " (max 65536)")
  else if tokens newline (cString content) = [] then failure
  else scanLines name filename key (tokens newline (cString content))

/-! ## What it is to do -/

def trim (text : Bytes) : Bytes := (text.dropWhile isSpace).rdropWhile isSpace

/-- The lines that say something, without the blanks before it. -/
def properties (lines : List Bytes) : List Bytes :=
  (lines.map (·.dropWhile isSpace)).filter (!silent ·)

/-- The first line that has the key decides, or one that has no key at all. -/
def propertyOf (lines : List Bytes) : Eval W (Option Value) :=
  match (properties lines).find? fun line => equals ∉ line ∨ trim (halves line).1 = key with
  | none => return some (.string [])
  | some line =>
    if equals ∉ line then errorAbort (malformedLine name filename line)
    else return some (.string (trim (halves line).2))

theorem not_isSpace_of_dropWhile {text rest : Bytes} {first : UInt8}
    (begins : text.dropWhile isSpace = first :: rest) : isSpace first = false := by
  have holds := head?_dropWhile_not isSpace text
  rwa [begins] at holds

theorem trimEnd_cons {first : UInt8} (mark : isSpace first = false) (rest : Bytes) :
    trimEnd (first :: rest) = (first :: rest).rdropWhile isSpace := by
  rw [trimEnd, rdropWhile, rdropWhile, reverse_cons, dropWhile_append]
  split
  next blank => simp [isEmpty_iff.mp blank, mark]
  next => rw [reverse_append, reverse_singleton, singleton_append]

theorem trimEnd_dropWhile (text : Bytes) : trimEnd (text.dropWhile isSpace) = trim text := by
  rw [trim]
  cases begins : text.dropWhile isSpace with
  | nil => rfl
  | cons first rest => exact trimEnd_cons (not_isSpace_of_dropWhile begins) rest

/-- In a line without blanks before it the text before the `=` begins with none. -/
theorem trimEnd_halves (line : Bytes) :
    trimEnd (halves (line.dropWhile isSpace)).1 = trim (halves (line.dropWhile isSpace)).1 := by
  rw [halves]
  cases begins : line.dropWhile isSpace with
  | nil => rfl
  | cons first rest =>
    have mark := not_isSpace_of_dropWhile begins
    rw [takeWhile_cons]
    split
    · rw [trimEnd_cons mark, trim, dropWhile_cons_of_neg (ne_true_of_eq_false mark)]
    · rfl

theorem scanLines_eq (lines : List Bytes) :
    scanLines (W := W) name filename key lines = propertyOf name filename key lines := by
  induction lines with
  | nil => rfl
  | cons line lines ih =>
    rw [scanLines, propertyOf, properties, map_cons, trimEnd_halves, trimEnd_dropWhile]
    generalize line.dropWhile isSpace = line
    by_cases quiet : silent line
    · rw [if_pos quiet, filter_cons_of_neg (by simp [quiet]), ih]
      rfl
    rw [if_neg quiet, filter_cons_of_pos (by simp [quiet])]
    by_cases keyless : equals ∉ line
    · rw [if_pos keyless, find?_cons_of_pos (by simp [keyless])]
      exact (if_pos keyless).symm
    rw [if_neg keyless]
    by_cases other : trim (halves line).1 ≠ key
    · rw [if_pos other, find?_cons_of_neg (by simp [keyless, other]), ih]
      rfl
    · rw [if_neg other, find?_cons_of_pos (by simp [not_not.mp other])]
      exact (if_neg keyless).symm

/-! ## Files without a line -/

theorem properties_tokens (text : Bytes) :
    properties (tokens newline text) = properties (text.splitOn newline) := by
  rw [tokens, properties, properties, filter_map, filter_map, filter_filter]
  congr 1
  refine filter_congr fun line _ => ?_
  cases line with
  | nil => rfl
  | cons => exact Bool.and_true _

/-- `file_getprop` does what it is to do unless the file has no line. -/
theorem fileGetProp_iff {content : Bytes} (small : content.length ≤ 65536) (nulFree : 0 ∉ content)
    (state : State W) : fileGetProp name filename key content state =
        propertyOf name filename key (content.splitOn newline) state ↔
      ∃ char ∈ content, char ≠ newline := by
  have same : propertyOf (W := W) name filename key (tokens newline content) =
      propertyOf name filename key (content.splitOn newline) := by
    rw [propertyOf, properties_tokens, propertyOf]
  rw [fileGetProp, if_neg (not_lt.mpr small), cString_eq_self nulFree, scanLines_eq, same]
  by_cases empty : tokens newline content = []
  · have none : properties (content.splitOn newline) = [] := by
      rw [← properties_tokens, empty]
      rfl
    rw [if_pos empty, propertyOf, none]
    refine iff_of_false nofun ?_
    simpa using tokens_eq_nil.mp empty
  · rw [if_neg empty]
    refine iff_of_true rfl ?_
    simpa [tokens_eq_nil] using empty

theorem fileGetProp_iff_line :
    fileGetProp (W := Unit) [] [] (ascii "a") (ascii " a = 1 ") ⟨[], none, [], (), []⟩ =
        propertyOf [] [] (ascii "a") ((ascii " a = 1 ").splitOn newline) ⟨[], none, [], (), []⟩ ↔
      ∃ char ∈ ascii " a = 1 ", char ≠ newline :=
  fileGetProp_iff _ _ _ (by decide) (by decide) _

/-- An empty file has no property, but `file_getprop` follows a null pointer. -/
theorem fileGetProp_empty :
    fileGetProp (W := Unit) [] [] (ascii "a") [] ⟨[], none, [], (), []⟩ = none ∧
      propertyOf (W := Unit) [] [] (ascii "a") (splitOn newline []) ⟨[], none, [], (), []⟩ =
        some (some (.string []), ⟨[], none, [], (), []⟩) :=
  ⟨rfl, rfl⟩

end PhilzTouch.Edify
