import Mathlib.Data.List.Infix
import PhilzTouch.Lib.CText
import PhilzTouch.Lib.Split

/-!
# File lists of split archives

`Generate_File_Lists` of `nandroid_advanced.c` goes through a directory and writes what is to be
archived to `/tmp/list/filelist000` and its successors: a directory that still fits into the
current archive as a whole, anything else entry by entry.
-/

namespace PhilzTouch.Twrp

/-- An entry of a directory.  `typed` is whether `readdir` tells its type; regular files and
symbolic links are treated alike. -/
inductive Node where
  | leaf (name : Bytes) (typed : Bool)
  | dir (name : Bytes) (typed : Bool) (entries : List Node)

def Node.name : Node → Bytes
  | .leaf name _ => name
  | .dir name _ _ => name

/-- The path of a file, from the names on the way to it. -/
def pathString (path : List Bytes) : Bytes := path.flatMap (byte '/' :: ·)

/-- What is found outside of the functions.  Sizes are those of an `unsigned long long`; where
`stat` fails, it is whatever was in `st` before. -/
structure System where
  isDataMedia : Bool
  opendir : Bytes → Bool
  getFolderSize : Bytes → Nat
  statSize : Bytes → Nat
  /-- Whether an item can be appended to the list with a number. -/
  append : Nat → Bytes → Bool

/-- `Makelist_File_Count`, `Makelist_Current_Size`, and the items in the order in which they were
added, each with the number of its list. -/
structure Makelist where
  fileCount : Nat
  currentSize : Nat
  items : List (Nat × Bytes)
  deriving DecidableEq, Repr

def maxArchiveSize : Nat := 4294967296

/-- A sum of type `unsigned long long`. -/
def addSize (left right : Nat) : Nat := (left + right) % 2 ^ 64

def addItem (sys : System) (item : Bytes) (list : Makelist) : Option Makelist :=
  if 999 < list.fileCount then none
  else if sys.append list.fileCount item then
    some { list with items := list.items ++ [(list.fileCount, item)] }
  else none

/-- `Skip /data/media`. -/
def isMedia (sys : System) (path : List Bytes) : Bool :=
  sys.isDataMedia ∧ ascii "/data/media" <+: pathString path

/-- `Skip google cached music`. -/
def isMusic (path : List Bytes) : Bool :=
  ascii "data/data/com.google.android.music/files" <:+: pathString path

/-- A directory is added as a whole. -/
def addFolder (sys : System) (path : List Bytes) (list : Makelist) : Option Makelist := do
  let list ← addItem sys (pathString path ++ [byte '/']) list
  return { list with currentSize := addSize list.currentSize (sys.getFolderSize (pathString path)) }

/-- Whether a new list is begun for a file. -/
def startsNew (sys : System) (path : List Bytes) (currentSize : Nat) : Bool :=
  currentSize ≠ 0 ∧ maxArchiveSize < addSize currentSize (sys.statSize (pathString path))

def startFile (sys : System) (path : List Bytes) (list : Makelist) : Makelist :=
  if startsNew sys path list.currentSize then
    { list with fileCount := list.fileCount + 1, currentSize := 0 }
  else list

def addFile (sys : System) (path : List Bytes) (list : Makelist) : Option Makelist := do
  let list ← addItem sys (pathString path) (startFile sys path list)
  return { list with currentSize := addSize list.currentSize (sys.statSize (pathString path)) }

/-- Whether a directory is gone through instead of added. -/
def tooLarge (sys : System) (path : List Bytes) (currentSize : Nat) : Bool :=
  maxArchiveSize < addSize currentSize (sys.getFolderSize (pathString path))

/-- What `Generate_File_Lists` does before the loop over the entries; nothing is the result if it
returns -1. -/
def enterDir (sys : System) (path : List Bytes) (loop : Makelist → Option Makelist) (list : Makelist) :
    Option Makelist :=
  if isMedia sys path then some list
  else if isMusic path then some list
  else if sys.opendir (pathString path) then loop list
  else none

mutual

/-- The loop over the entries of a directory; `.` and `..` are passed over. -/
def generateEntries (sys : System) (path : List Bytes) : List Node → Makelist → Option Makelist
  | [], list => some list
  | node :: entries, list =>
    (generateNode sys path node list).bind (generateEntries sys path entries)

def generateNode (sys : System) (path : List Bytes) : Node → Makelist → Option Makelist
  | .leaf name typed, list =>
    if isMedia sys (path ++ [name]) then some list
    else if typed then addFile sys (path ++ [name]) list
    else some list
  | .dir name typed entries, list =>
    if isMedia sys (path ++ [name]) then some list
    else if typed then
      if tooLarge sys (path ++ [name]) list.currentSize then
        -- Generate_File_Lists(FileName)
        enterDir sys (path ++ [name]) (generateEntries sys (path ++ [name]) entries) list
      else addFolder sys (path ++ [name]) list
    else some list

end

def generateFileLists (sys : System) (path : List Bytes) (entries : List Node) (list : Makelist) :
    Option Makelist :=
  enterDir sys path (generateEntries sys path entries) list

/-- `Make_File_List`: the number of lists, and the items. -/
def makeFileList (sys : System) (path : List Bytes) (entries : List Node) :
    Option (Nat × List (Nat × Bytes)) :=
  (generateFileLists sys path entries ⟨0, 0, []⟩).map fun list => (list.fileCount + 1, list.items)

def listText (items : List (Nat × Bytes)) (index : Nat) : Bytes :=
  (items.filter (·.1 = index)).flatMap (·.2 ++ [newline])

end PhilzTouch.Twrp
