import PhilzTouch.Lib.CText
import PhilzTouch.Lib.Split

/-!
# Reading dedupe manifests

A manifest is a text of lines, each a list of fields that end in a tab.  Both readers
of `dedupe.c`, extraction and garbage collection, take it apart in the same way: `fgets`
into a buffer of `PATH_MAX` bytes, a version line that may be missing, and `tokenize`
into buffers of fixed size.  A token that is missing is a null pointer, which the next
call reads; a token that is too long is written behind its buffer.
-/

namespace PhilzTouch.Dedupe

def tab : UInt8 := byte '\t'

def pathMax : Nat := 4096

def dedupeVersion : Int := 2

/-- The buffers that `while (fgets(line, PATH_MAX, f))` goes through. -/
def fgetsLines (content : Bytes) : List Bytes := pieces newline (pathMax - 1) content

def dedupeWord : Bytes := ascii "dedupe"

/-- `sscanf(line, "dedupe\t%d", &version)`: the tab of the format skips any white
space. -/
def sscanfVersion (line : Bytes) : Option Int :=
  if dedupeWord.isPrefixOf line then
    (scanNumber (line.drop dedupeWord.length)).map fun number => toInt (clamp 64 number)
  else none

/-- The version of a manifest and its lines behind the version line.  If the file is
empty, `fgets` leaves the buffer as it was and `stale` is scanned. -/
def openManifest (stale : Bytes) : List Bytes → Int × List Bytes
  | [] => ((sscanfVersion (cString stale)).getD 1, [])
  | first :: rest =>
    match sscanfVersion (cString first) with
    | some version => (version, rest)
    | none => (1, first :: rest)

/-! ## Tokens -/

/-- How a command leaves the C language. -/
inductive Fault where
  /-- A null pointer is read and the process is killed. -/
  | null
  /-- A buffer is overrun, or read behind what was written; nothing is known any more. -/
  | overrun
  deriving DecidableEq, Repr

/-- `tokenize` into a buffer of `room` bytes: the token, and the pointer behind its
separator. -/
def tokenize (room : Nat) (sep : UInt8) : Option Bytes → Except Fault (Bytes × Option Bytes)
  | none => .error .null
  | some line =>
    match cut sep line with
    | some (token, rest) =>
      if token.length < room then .ok (token, some rest) else .error .overrun
    | none => if line.length ≤ room then .ok (line, none) else .error .overrun

/-- The tokens of a line that both readers use, and the pointer behind the file
name. -/
structure Record where
  type : Bytes
  mode : Bytes
  uid : Bytes
  gid : Bytes
  filename : Bytes
  token : Option Bytes
  deriving DecidableEq, Repr

/-- The time stamps, which manifests of version 1 do not have. -/
def readTimes (version : Int) (token : Option Bytes) : Except Fault (Option Bytes) :=
  if 2 ≤ version then do
    let (_, token) ← tokenize 32 tab token
    let (_, token) ← tokenize 32 tab token
    let (_, token) ← tokenize 32 tab token
    pure token
  else pure token

/-- The first tokens of a line. -/
def readRecord (version : Int) (line : Bytes) : Except Fault Record := do
  let (type, token) ← tokenize 4 tab (some line)
  let (mode, token) ← tokenize 8 tab token
  let (uid, token) ← tokenize 32 tab token
  let (gid, token) ← tokenize 32 tab token
  let (_, token) ← tokenize pathMax tab token
  let token ← readTimes version token
  let (filename, token) ← tokenize pathMax tab token
  pure ⟨type, mode, uid, gid, filename, token⟩

/-! ## What a manifest records -/

/-- The type of a line for a regular file. -/
def fileType : Bytes := ascii "f"

/-- The number of fields of a line before the key. -/
def keyIndex (version : Int) : Nat := if 2 ≤ version then 9 else 6

/-- The key that a line records, if it is the line of a file. -/
def recordedKey (version : Int) (line : Bytes) : Option Bytes :=
  if (fields tab line)[0]? = some fileType then (fields tab line)[keyIndex version]? else none

/-- The keys recorded in a manifest of the given lines. -/
def recordedKeys (text : List Bytes) : List Bytes :=
  (openManifest [] text).2.filterMap (recordedKey (openManifest [] text).1)

/-! ## What reading finds -/

variable {room : Nat} {sep : UInt8} {pointer : Option Bytes} {rest : Option Bytes}

theorem tokenize_ok {token : Bytes}
    (read : tokenize room sep pointer = .ok (token, rest)) : ∃ line, pointer = some line ∧
      ∀ behind, rest = some behind → fields sep line = token :: fields sep behind := by
  cases pointer with
  | none => cases read
  | some line =>
    refine ⟨line, rfl, ?_⟩
    intro behind found
    subst found
    rw [tokenize] at read
    split at read
    next halves =>
      split at read
      · cases read
        exact fields_of_cut halves
      · cases read
    next =>
      split at read
      · cases read
      · cases read

/-- `count` fields of a text stand before the pointer `rest`. -/
def Behind (count : Nat) (line : Bytes) (rest : Option Bytes) : Prop :=
  ∀ text, rest = some text →
    ∃ front, front.length = count ∧ fields tab line = front ++ fields tab text

theorem Behind.start (line : Bytes) : Behind 0 line (some line) := by
  rintro text ⟨⟩
  exact ⟨[], rfl, rfl⟩

variable {line : Bytes}

theorem Behind.next {count : Nat} {token : Bytes}
    (behind : Behind count line pointer) (read : tokenize room tab pointer = .ok (token, rest)) :
    Behind (count + 1) line rest ∧ (rest.isSome → (fields tab line)[count]? = some token) := by
  obtain ⟨text, rfl, first⟩ := tokenize_ok read
  obtain ⟨front, size, split⟩ := behind text rfl
  have step : ∀ after, rest = some after →
      fields tab line = front ++ token :: fields tab after := by
    intro after found
    rw [split, first after found]
  constructor
  · intro after found
    refine ⟨front ++ [token], by simp [size], ?_⟩
    rw [step after found, List.append_assoc, List.singleton_append]
  · intro present
    obtain ⟨after, found⟩ := Option.isSome_iff_exists.mp present
    rw [step after found, List.getElem?_append_right (by omega), size, Nat.sub_self]
    rfl

theorem tokenize_isSome {result : Bytes × Option Bytes}
    (read : tokenize room sep pointer = .ok result) : pointer.isSome = true := by
  cases pointer with
  | none => cases read
  | some line => rfl

theorem readTimes_ok {version : Int} {count : Nat}
    (behind : Behind count line pointer) (read : readTimes version pointer = .ok rest) :
    Behind (if 2 ≤ version then count + 3 else count) line rest ∧
      (rest.isSome = true → pointer.isSome = true) := by
  rw [readTimes] at read
  split at read
  next recent =>
    obtain ⟨⟨first, afterFirst⟩, firstRead, read⟩ := bind_ok read
    obtain ⟨⟨second, afterSecond⟩, secondRead, read⟩ := bind_ok read
    obtain ⟨⟨third, afterThird⟩, thirdRead, read⟩ := bind_ok read
    cases read
    rw [if_pos recent]
    refine ⟨?_, fun _ => tokenize_isSome firstRead⟩
    exact (((behind.next firstRead).1.next secondRead).1.next thirdRead).1
  next old =>
    cases read
    rw [if_neg old]
    exact ⟨behind, id⟩

theorem readRecord_ok {version : Int} {record : Record}
    (read : readRecord version line = .ok record) :
    (fields tab line)[0]? = some record.type ∧ Behind (keyIndex version) line record.token := by
  obtain ⟨⟨type, token₁⟩, typeRead, read⟩ := bind_ok read
  obtain ⟨⟨mode, token₂⟩, modeRead, read⟩ := bind_ok read
  obtain ⟨⟨uid, token₃⟩, uidRead, read⟩ := bind_ok read
  obtain ⟨⟨gid, token₄⟩, gidRead, read⟩ := bind_ok read
  obtain ⟨⟨label, token₅⟩, labelRead, read⟩ := bind_ok read
  obtain ⟨token₆, timesRead, read⟩ := bind_ok read
  obtain ⟨⟨filename, token₇⟩, nameRead, read⟩ := bind_ok read
  cases read
  have one := (Behind.start line).next typeRead
  have five := (((one.1.next modeRead).1.next uidRead).1.next gidRead).1.next labelRead
  have times := readTimes_ok five.1 timesRead
  refine ⟨one.2 (tokenize_isSome modeRead), ?_⟩
  have whole := (times.1.next nameRead).1
  have count : (if 2 ≤ version then 0 + 1 + 1 + 1 + 1 + 1 + 3 else 0 + 1 + 1 + 1 + 1 + 1) + 1 =
      keyIndex version := by
    rw [keyIndex]
    split <;> rfl
  rwa [count] at whole

/-- What stands behind a text does not change its fields. -/
theorem fields_prefix (sep : UInt8) (text more : Bytes) :
    fields sep text <+: fields sep (text ++ more) := by
  induction text with
  | nil => exact List.nil_prefix
  | cons item text ih =>
    simp only [List.cons_append, fields]
    split
    · exact (List.cons_prefix_cons).mpr ⟨rfl, ih⟩
    cases known : fields sep text with
    | nil => exact List.nil_prefix
    | cons field rest =>
      obtain ⟨tail, whole⟩ := ih
      rw [← whole, known]
      exact ⟨tail, rfl⟩

theorem fields_cString {buffer : Bytes} {index : Nat} {field : Bytes}
    (found : (fields sep (cString buffer))[index]? = some field) :
    (fields sep buffer)[index]? = some field := by
  have split : cString buffer ++ buffer.dropWhile (· ≠ 0) = buffer :=
    List.takeWhile_append_dropWhile
  obtain ⟨tail, whole⟩ := fields_prefix sep (cString buffer) (buffer.dropWhile (· ≠ 0))
  rw [split] at whole
  have bound := (List.getElem?_eq_some_iff.mp found).1
  rw [← whole, List.getElem?_append_left bound, found]

end PhilzTouch.Dedupe
