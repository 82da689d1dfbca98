import PhilzTouch.Dedupe.Store

/-!
# Restoring a directory tree

`dedupe x` reads a manifest line by line and creates the entry of each line below the
output directory, as root.  File names are paths relative to that directory; a path that
is absolute, goes through `..` or leads through a symbolic link is outside of this model.
The security labels and time stamps that are set last, and whose errors are ignored, are
left out.
-/

namespace PhilzTouch.Dedupe

open Function

/-- What is found under a path of the output directory. -/
inductive Object where
  | file (mode uid gid : Nat) (content : Bytes)
  | link (uid gid : Nat) (target : Bytes)
  | dir (mode uid gid : Nat)
  deriving DecidableEq, Repr

/-- The objects below the output directory by the names that lead to them. -/
abbrev Files := List Bytes → Option Object

/-- How restoring ends early. -/
inductive Halt where
  /-- The command returns this error. -/
  | returned (code : Int)
  /-- A null pointer is read or a buffer is overrun. -/
  | fault (fault : Fault)
  /-- A path leads out of the output directory. -/
  | outside
  deriving DecidableEq, Repr

/-- A step that may fault. -/
def orFault {α : Type} : Except Fault α → Except Halt α
  | .ok value => .ok value
  | .error fault => .error (.fault fault)

/-! ## Paths -/

def components (path : Bytes) : List Bytes :=
  (tokens slash path).filter (· ≠ ascii ".")

/-- The place that a path names below the output directory. -/
def resolve (path : Bytes) : Except Halt (List Bytes) :=
  if path.head? = some slash ∨ ascii ".." ∈ components path then .error .outside
  else .ok (components path)

/-- Whether a new entry can be made at this place: its directory has to exist. -/
def parentIsDir (files : Files) (place : List Bytes) : Except Halt Bool :=
  if place = [] then .ok false
  else if place.dropLast = [] then .ok true
  else
    match files place.dropLast with
    | some (.dir _ _ _) => .ok true
    | some (.link _ _ _) => .error .outside
    | _ => .ok false

/-! ## System calls of root -/

/-- `open(path, O_RDWR | O_CREAT | O_TRUNC, 0666)` and the writes of the content.  The
result is false if the file cannot be opened.  `unmasked` are the mode bits that the file
mode creation mask lets through. -/
def writeFile (unmasked : Nat) (files : Files) (place : List Bytes) (content : Bytes) :
    Except Halt (Files × Bool) := do
  let below ← parentIsDir files place
  match files place with
  | some (.file mode uid gid _) =>
    pure (update files place (some (.file mode uid gid content)), true)
  | some (.link _ _ _) => .error .outside
  | some (.dir _ _ _) => pure (files, false)
  | none =>
    if below then
      pure (update files place (some (.file (0o666 &&& unmasked) 0 0 content)), true)
    else pure (files, false)

/-- An entry is made if there is none yet and its directory exists. -/
def makeEntry (files : Files) (place : List Bytes) (object : Object) : Except Halt Files := do
  let below ← parentIsDir files place
  if below ∧ files place = none then pure (update files place (some object)) else pure files

/-- An `int` as an identifier; -1 leaves the old one. -/
def toId (old : Nat) (id : Int) : Nat := if id = -1 then old else (id % 2 ^ 32).toNat

def lchown (files : Files) (place : List Bytes) (uid gid : Int) : Files :=
  match files place with
  | some (.file mode oldUid oldGid content) =>
    update files place (some (.file mode (toId oldUid uid) (toId oldGid gid) content))
  | some (.link oldUid oldGid target) =>
    update files place (some (.link (toId oldUid uid) (toId oldGid gid) target))
  | some (.dir mode oldUid oldGid) =>
    update files place (some (.dir mode (toId oldUid uid) (toId oldGid gid)))
  | none => files

/-- `chown`, which follows links. -/
def chown (files : Files) (place : List Bytes) (uid gid : Int) : Except Halt Files :=
  match files place with
  | some (.link _ _ _) => .error .outside
  | _ => .ok (lchown files place uid gid)

/-- `chmod`, which follows links. -/
def chmod (files : Files) (place : List Bytes) (mode : Int) : Except Halt Files :=
  match files place with
  | some (.file _ uid gid content) =>
    .ok (update files place (some (.file (mode % 0o10000).toNat uid gid content)))
  | some (.link _ _ _) => .error .outside
  | some (.dir _ uid gid) =>
    .ok (update files place (some (.dir (mode % 0o10000).toNat uid gid)))
  | none => .ok files

/-! ## The command -/

section

variable (blobDir : Bytes) (unmasked : Nat) (store : Store)

/-- `copy_file` from the blob of a key. -/
def copyBlob (files : Files) (place : List Bytes) (key : Bytes) : Except Halt Files :=
  if (join blobDir key).length < pathMax then
    match store (join blobDir key) with
    | none => .error (.returned 3)
    | some content => do
      let (files, opened) ← writeFile unmasked files place content
      if opened then pure files else .error (.returned 4)
  else .error (.fault .overrun)

def extractFile (record : Record) (files : Files) : Except Halt Files := do
  let (key, token) ← orFault (tokenize 128 tab record.token)
  let _ ← orFault (tokenize 32 tab token)
  let place ← resolve record.filename
  let files ← copyBlob blobDir unmasked store files place key
  let files ← chown files place (atoi record.uid) (atoi record.gid)
  chmod files place (decToOct (atoi record.mode))

def extractLink (record : Record) (files : Files) : Except Halt Files := do
  let (target, token) ← orFault (tokenize 41 tab record.token)
  -- a target without its tab is not terminated in the buffer
  if token = none then .error (.fault .overrun)
  else do
    let place ← resolve record.filename
    let files ← makeEntry files place (.link 0 0 target)
    pure (lchown files place (atoi record.uid) (atoi record.gid))

def extractDir (record : Record) (files : Files) : Except Halt Files := do
  let place ← resolve record.filename
  let mode := decToOct (atoi record.mode)
  let files ← makeEntry files place (.dir ((mode % 0o10000).toNat &&& unmasked) 0 0)
  let files ← chown files place (atoi record.uid) (atoi record.gid)
  chmod files place mode

/-- One line of a manifest.  A file name without its tab is not terminated in its
buffer, and is printed. -/
def extractLine (version : Int) (line : Bytes) (files : Files) : Except Halt Files := do
  let record ← orFault (readRecord version (cString line))
  if record.token = none then .error (.fault .overrun)
  else if record.type = ascii "f" then extractFile blobDir unmasked store record files
  else if record.type = ascii "l" then extractLink record files
  else if record.type = ascii "d" then extractDir unmasked record files
  else .error (.returned 1)

def extractLines (version : Int) : List Bytes → Files → Except Halt Files
  | [], files => .ok files
  | line :: rest, files => do
    let files ← extractLine blobDir unmasked store version line files
    extractLines version rest files

/-- `dedupe x` into an empty directory: what it restores if it returns 0. -/
def extract (stack manifest : Bytes) : Except Halt Files :=
  let opened := openManifest stack (fgetsLines manifest)
  if dedupeVersion < opened.1 then .error (.returned 1)
  else extractLines blobDir unmasked store opened.1 opened.2 fun _ => none

end

end PhilzTouch.Dedupe
