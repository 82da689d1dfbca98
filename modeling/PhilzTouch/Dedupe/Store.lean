import PhilzTouch.Dedupe.Tree
import PhilzTouch.Dedupe.Numeral
import PhilzTouch.Lib.Program

/-!
# Storing a directory tree

`dedupe c` walks a tree and writes one line for each entry to the manifest.  The content
of a file goes to a blob that is named by its SHA-256: it is copied to a temporary name
next to it and then renamed, unless a blob of the same size is already there.

The programs work on the files of the blob directory.  The tree is input that does not
change; whether a system call on it succeeds is up to the environment.  Programs return
the result of the C function and the text it has printed to the manifest.
-/

namespace PhilzTouch.Dedupe

/-! ## The files of the blob directory -/

/-- The files of the blob directory by their path. -/
abbrev Store := Bytes → Option Bytes

inductive StoreOp where
  /-- `lstat`, `opendir`, `readlink` or `open` on the tree that is stored. -/
  | input (path : Bytes)
  | mkdir (path : Bytes)
  | stat (path : Bytes)
  /-- `open(path, O_RDWR | O_CREAT | O_TRUNC, 0666)`. -/
  | create (path : Bytes)
  /-- `write` at the end of the file. -/
  | write (path data : Bytes)
  | rename (path target : Bytes)
  deriving DecidableEq, Repr

/-- The result of a system call: whether it succeeds, the size that `stat` finds, the
number of bytes written, or the value of `rename`. -/
abbrev StoreReply : StoreOp → Type
  | .input _ => Bool
  | .mkdir _ => Bool
  | .stat _ => Option Nat
  | .create _ => Bool
  | .write _ _ => Int
  | .rename _ _ => Int

/-- What the environment decides about a system call. -/
inductive StoreChoice where
  | ok
  | fail
  /-- A `write` that stores only so many bytes. -/
  | amount (count : Nat)
  deriving DecidableEq, Repr

/-- A `write` that stores the first `count` bytes. -/
def Store.append (store : Store) (path data : Bytes) (count : Nat) : Store × Int :=
  (Function.update store path (some ((store path).getD [] ++ data.take count)),
    (data.take count).length)

/-- An atomic `rename`. -/
def Store.move (store : Store) (path target : Bytes) : Store × Int :=
  match store path with
  | none => (store, -1)
  | some content => (Function.update (Function.update store path none) target (some content), 0)

def storePerform : (op : StoreOp) → StoreChoice → Store → Store × StoreReply op
  | .input _, choice, store => (store, (choice ≠ .fail : Bool))
  | .mkdir _, choice, store => (store, (choice ≠ .fail : Bool))
  | .stat path, choice, store => (store, if choice = .fail then none else (store path).map List.length)
  | .create path, choice, store =>
    if choice = .fail then (store, false) else (Function.update store path (some []), true)
  | .write path data, choice, store =>
    match choice with
    | .fail => (store, (-1 : Int))
    | .ok => store.append path data data.length
    | .amount count => store.append path data count
  | .rename path target, choice, store =>
    if choice = .fail then (store, (-1 : Int)) else store.move path target

/-- The file system under the blob directory. -/
abbrev blobStore : Machine StoreOp StoreReply where
  Choice := StoreChoice
  State := Store
  perform := storePerform

abbrev StoreProg := Prog StoreOp StoreReply

/-! ## Blob names -/

abbrev Digest := { digest : Bytes // digest.length = 32 }

def hexDigit (value : Nat) : UInt8 := UInt8.ofNat (if value < 10 then 48 + value else 87 + value)

/-- `sprintf(.., "%02x", ..)`. -/
def hexByte (value : UInt8) : Bytes := [hexDigit (value.toNat / 16), hexDigit (value.toNat % 16)]

/-- The digest in hexadecimal digits. -/
def psum (digest : Digest) : Bytes := digest.1.flatMap hexByte

/-- The key of a blob: a directory of three digits, and the other digits. -/
def blobKey (digest : Digest) : Bytes := (psum digest).take 3 ++ slash :: (psum digest).drop 3

section

variable (sha256 : Bytes → Digest) (blobDir : Bytes)

def outBlob (content : Bytes) : Bytes := join blobDir (blobKey (sha256 content))

def tmpOutBlob (content : Bytes) : Bytes := outBlob sha256 blobDir content ++ ascii ".tmp"

/-! ## Manifest lines -/

def printStat (type : Char) (entry : Entry) (path : Bytes) : Bytes :=
  [byte type] ++ tab :: (numeral 8 (entry.st.mode.val &&& 0o6777) ++ tab ::
    (numeral 10 entry.st.uid.toNat ++ tab :: (numeral 10 entry.st.gid.toNat ++ tab ::
      (entry.label.getD (ascii "unlabel") ++ tab :: (numeral 10 entry.st.atime.toNat ++ tab ::
        (numeral 10 entry.st.mtime.toNat ++ tab :: (numeral 10 entry.st.ctime.toNat ++ tab ::
          (path ++ [tab]))))))))

def printBlob (content : Bytes) : Bytes :=
  blobKey (sha256 content) ++ tab :: (numeralInt (toInt content.length) ++ [tab, newline])

def printTarget (target : Bytes) : Bytes := target ++ [tab, newline]

/-! ## The programs -/

/-- The loop of `copy_file`; `fuel` is the number of bytes left. -/
def copyLoop (dst : Bytes) : Nat → Bytes → StoreProg Int
  | 0, _ => .ret 0
  | _ + 1, [] => .ret 0
  | fuel + 1, next :: rest => do
    let written ← Prog.call (StoreOp.write dst ((next :: rest).take 4096))
    if written = ((next :: rest).take 4096).length then copyLoop dst fuel ((next :: rest).drop 4096)
    else .ret 5

/-- `copy_file`, of a file with the given content. -/
def copyFile (src content dst : Bytes) : StoreProg Int := do
  let opened ← Prog.call (StoreOp.input src)
  if opened then do
    let created ← Prog.call (StoreOp.create dst)
    if created then copyLoop dst content.length content else .ret 4
  else .ret 3

/-- Copy a file to its temporary name and rename it. -/
def storeBlob (path content : Bytes) : StoreProg Int := do
  let copied ← copyFile path content (tmpOutBlob sha256 blobDir content)
  if copied = 0 then do
    let renamed ← Prog.call
      (StoreOp.rename (tmpOutBlob sha256 blobDir content) (outBlob sha256 blobDir content))
    .ret renamed
  else .ret copied

/-- The program goes on if a system call on the input succeeds. -/
def whenInput (path : Bytes) (code : Int) (program : StoreProg (Int × Bytes)) :
    StoreProg (Int × Bytes) := do
  let found ← Prog.call (StoreOp.input path)
  if found then program else .ret (code, [])

/-- The program prints `text` first. -/
def printing (text : Bytes) (program : StoreProg (Int × Bytes)) : StoreProg (Int × Bytes) := do
  let result ← program
  .ret (result.1, text ++ result.2)

/-- The program goes on, and prints, if the result so far is 0. -/
def andPrint (code : Int) (text : Bytes) : StoreProg (Int × Bytes) :=
  if code = 0 then .ret (0, text) else .ret (code, [])

/-- `store_file`.  Paths that do not fit their buffers overrun them. -/
def storeFile (path content : Bytes) : StoreProg (Int × Bytes) :=
  if (tmpOutBlob sha256 blobDir content).length < pathMax then
    whenInput path 1 do
      let _ ← Prog.call (StoreOp.mkdir (join blobDir ((psum (sha256 content)).take 3)))
      let existing ← Prog.call (StoreOp.stat (outBlob sha256 blobDir content))
      if existing.map (fun size : Nat => toInt size) = some (toInt content.length) then
        .ret (0, printBlob sha256 content)
      else do
        let stored ← storeBlob sha256 blobDir path content
        andPrint stored (printBlob sha256 content)
  else .stop

/-- `store_link`; `readlink` fails with `EIO`. -/
def storeLink (path target : Bytes) : StoreProg (Int × Bytes) :=
  whenInput path 5 (.ret (0, printTarget target))

variable (excludes : List Bytes)

/-- One turn of the loop of `store_dir`: the entry at `path`, and the `rest`. -/
def storeNext (path : Bytes) (store rest : StoreProg (Int × Bytes)) : StoreProg (Int × Bytes) :=
  if path.length < pathMax then
    if path ∈ excludes then rest
    else whenInput path (-1) do
      let result ← store
      if result.1 = 0 then printing result.2 rest else .ret result
  else .stop

/-- The loop of `store_dir` in the directory at `d`, with `store_st` for each entry. -/
def storeEntries (d : Bytes) : Dir → StoreProg (Int × Bytes)
  | .empty => .ret (0, [])
  | .file entry content rest =>
    storeNext excludes (join d entry.name) (printing (printStat 'f' entry (join d entry.name))
        (storeFile sha256 blobDir (join d entry.name) content))
      (storeEntries d rest)
  | .link entry target rest =>
    storeNext excludes (join d entry.name)
      (printing (printStat 'l' entry (join d entry.name)) (storeLink (join d entry.name) target))
      (storeEntries d rest)
  | .dir entry entries rest =>
    storeNext excludes (join d entry.name)
      (printing (printStat 'd' entry (join d entry.name) ++ [newline])
        (whenInput (join d entry.name) 1 (storeEntries (join d entry.name) entries)))
      (storeEntries d rest)
  | .special entry rest =>
    storeNext excludes (join d entry.name) (.ret (0, [])) (storeEntries d rest)

def versionLine : Bytes := ascii "dedupe\t2\n"

/-- `dedupe c`, after the arguments have been checked. -/
def backup (tree : Dir) : StoreProg (Int × Bytes) :=
  printing versionLine
    (whenInput (ascii ".") 1 (storeEntries sha256 blobDir excludes (ascii ".") tree))

/-! ## The manifest -/

/-- The lines of an entry that is not excluded. -/
def unlessExcluded (path : Bytes) (text : List Bytes) : List Bytes :=
  if path ∈ excludes then [] else text

/-- The lines of the manifest for the entries of the directory at `d`. -/
def manifestLines (d : Bytes) : Dir → List Bytes
  | .empty => []
  | .file entry content rest =>
    unlessExcluded excludes (join d entry.name)
      [printStat 'f' entry (join d entry.name) ++ printBlob sha256 content] ++
    manifestLines d rest
  | .link entry target rest =>
    unlessExcluded excludes (join d entry.name)
      [printStat 'l' entry (join d entry.name) ++ printTarget target] ++
    manifestLines d rest
  | .dir entry entries rest =>
    unlessExcluded excludes (join d entry.name)
      ((printStat 'd' entry (join d entry.name) ++ [newline]) ::
        manifestLines (join d entry.name) entries) ++
    manifestLines d rest
  | .special _ rest => manifestLines d rest

/-- The contents of the files that are stored, in the order of the manifest. -/
def storedContents (d : Bytes) : Dir → List Bytes
  | .empty => []
  | .file entry content rest =>
    unlessExcluded excludes (join d entry.name) [content] ++ storedContents d rest
  | .link _ _ rest => storedContents d rest
  | .dir entry entries rest =>
    unlessExcluded excludes (join d entry.name) (storedContents (join d entry.name) entries) ++
    storedContents d rest
  | .special _ rest => storedContents d rest

end

end PhilzTouch.Dedupe
