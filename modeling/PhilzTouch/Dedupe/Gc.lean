import PhilzTouch.Dedupe.Tree
import PhilzTouch.Lib.Sweep

/-!
# Garbage collection of blobs

`dedupe gc` reads the manifests it is given, notes the blobs that they record, and
removes every other file below the blob directory.  A manifest that cannot be opened
ends the command before anything is removed.  A manifest of a newer version only ends
the reading of manifests: what is then removed is everything that the manifests before
it do not record.
-/

namespace PhilzTouch.Dedupe

/-- A blob directory at the path that `realpath` returns, and the paths on which
`opendir`, `lstat` and `remove` succeed.  The kernel takes no path of `PATH_MAX` bytes or
more. -/
structure BlobDir where
  path : Bytes
  entries : Dir
  opens : Bytes → Bool
  stats : Bytes → Bool
  removes : Bytes → Bool
  short : ∀ below ∈ entries.paths path, below.length < pathMax

/-- A file that `recursive_list_dir` comes to. -/
def listFile (stats : Bytes → Bool) (blob : Bytes) : List Bytes :=
  if stats blob then [blob] else []

/-- The loop of `recursive_list_dir` in the directory at `d`. -/
def listEntries (opens stats : Bytes → Bool) (d : Bytes) : Dir → List Bytes
  | .empty => []
  | .file entry _ rest => listFile stats (join d entry.name) ++ listEntries opens stats d rest
  | .link entry _ rest => listFile stats (join d entry.name) ++ listEntries opens stats d rest
  | .dir entry entries rest =>
    (if stats (join d entry.name) && opens (join d entry.name) then
      listEntries opens stats (join d entry.name) entries
    else []) ++ listEntries opens stats d rest
  | .special entry rest => listFile stats (join d entry.name) ++ listEntries opens stats d rest

namespace BlobDir

/-- Everything that is stored in the blob directory. -/
def blobs (dir : BlobDir) : List Bytes := dir.entries.leaves dir.path

def recursiveListDir (dir : BlobDir) : List Bytes :=
  if dir.opens dir.path then listEntries dir.opens dir.stats dir.path dir.entries else []

/-- What is removed when the blobs in `used` are in use: both lists are sorted by
`strcmp` and walked together. -/
def removeUnused (dir : BlobDir) (used : List Bytes) : List Bytes :=
  (sweep compare (sortBy compare dir.recursiveListDir) (sortBy compare used)).filter dir.removes

end BlobDir

/-- The blob that a line of a manifest keeps in use. -/
def gcLine (blobDir : Bytes) (version : Int) (line : Bytes) : Except Fault (Option Bytes) := do
  let record ← readRecord version (cString line)
  if record.type = fileType then do
    let (key, token) ← tokenize 128 tab record.token
    let _ ← tokenize 32 tab token
    if (join blobDir key).length < pathMax then pure (some (join blobDir key))
    else .error .overrun
  else pure none

/-- The blobs that the lines of a manifest keep in use. -/
def gcLines (blobDir : Bytes) (version : Int) : List Bytes → Except Fault (List Bytes)
  | [] => pure []
  | line :: rest => do
    let blob ← gcLine blobDir version line
    let more ← gcLines blobDir version rest
    pure (blob.toList ++ more)

/-- How the loop over the manifests ends. -/
inductive Collected where
  /-- A manifest could not be opened. -/
  | unreadable
  /-- A manifest is of a newer version; `used` is what was noted until then. -/
  | newer (used : List Bytes)
  /-- All manifests were read. -/
  | all (used : List Bytes)
  deriving DecidableEq, Repr

/-- The blobs of an earlier manifest, noted before the rest. -/
def Collected.noting (used : List Bytes) : Collected → Collected
  | unreadable => unreadable
  | newer more => newer (used ++ more)
  | all more => all (used ++ more)

/-- The loop over the manifests; `none` is one that `fopen` does not open, and `stale` is
what the line buffer holds. -/
def gcManifests (blobDir : Bytes) (stale : Bytes) :
    List (Option Bytes) → Except Fault Collected
  | [] => pure (.all [])
  | none :: _ => pure .unreadable
  | some content :: rest =>
    let manifest := openManifest stale (fgetsLines content)
    if dedupeVersion < manifest.1 then pure (.newer [])
    else do
      let used ← gcLines blobDir manifest.1 manifest.2
      let more ← gcManifests blobDir ((fgetsLines content).getLast?.getD stale) rest
      pure (more.noting used)

inductive Ending where
  | returned (code : Int)
  | killed
  | unknown
  deriving DecidableEq, Repr

structure Collection where
  ending : Ending
  removed : List Bytes
  deriving DecidableEq, Repr

/-- `dedupe gc`.  The line buffer is not initialised: `stack` is what it holds. -/
def gc (dir : BlobDir) (stack : Bytes) (manifests : List (Option Bytes)) : Collection :=
  match gcManifests dir.path stack manifests with
  | .error .null => ⟨.killed, []⟩
  | .error .overrun => ⟨.unknown, []⟩
  | .ok .unreadable => ⟨.returned 1, []⟩
  | .ok (.newer used) => ⟨.returned 1, dir.removeUnused used⟩
  | .ok (.all used) => ⟨.returned 0, dir.removeUnused used⟩

/-! ## What the manifests record -/

/-- The blob is recorded on a file line of one of the manifests. -/
def Recorded (dir : BlobDir) (manifests : List (Option Bytes)) (blob : Bytes) : Prop :=
  ∃ content, some content ∈ manifests ∧
    ∃ key ∈ recordedKeys (lines newline content), blob = join dir.path key

/-- No recorded blob is removed, nothing is removed on failure, and on success the
unrecorded blobs are removed. -/
structure Lossless (dir : BlobDir) (manifests : List (Option Bytes)) (outcome : Collection) :
    Prop where
  known : outcome.ending ≠ .unknown
  kept : ∀ blob ∈ outcome.removed, ¬ Recorded dir manifests blob
  failure : ∀ code, outcome.ending = .returned code → code ≠ 0 → outcome.removed = []
  success : outcome.ending = .returned 0 →
    ∀ blob ∈ dir.blobs, blob ∈ outcome.removed ↔ ¬ Recorded dir manifests blob

end PhilzTouch.Dedupe
