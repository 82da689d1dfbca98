import PhilzTouch.ApplyPatch.Imgpatch
import PhilzTouch.Lib.Overwrite
import PhilzTouch.Minzip.DirUtil
import PhilzTouch.Minzip.ParseSafe

/-!
# Extracting an archive

`mzExtractRecursive` and what it calls: the path of an entry, and the two ways to get at the
data of an entry.  The programs work on a file tree with symbolic links.  A descriptor is the
place of the file it was opened for.

The environment decides which calls fail, how much a `write` takes and what a call of
`inflate` does.  A `.stop` is undefined behaviour of the C code, or a loop that does not end;
signed sums and products wrap around.
-/

namespace PhilzTouch.Minzip

open FileTree

/-! ## System and library calls -/

/-- What a call of `inflate` returns. -/
inductive InflateCode where
  | ok
  | streamEnd
  | error
  deriving DecidableEq, Repr

inductive ExtractOp where
  | malloc
  /-- The content of memory that was never written. -/
  | uninitialised (count : Nat)
  | stat (path : Bytes)
  | mkdir (path : Bytes)
  | utime (path : Bytes)
  | symlink (target path : Bytes)
  | creat (path : Bytes)
  | write (fd : Location) (data : Bytes)
  | close (fd : Location)
  /-- `read` of the archive at a position. -/
  | read (position count : Nat)
  | inflateInit
  /-- `inflate` with the given input and room in the output buffer. -/
  | inflate (input : Bytes) (room : Nat)
  deriving DecidableEq, Repr

/-- The result of `write`: how much it took, or whether it may be tried again. -/
inductive WriteResult where
  | wrote (count : Nat)
  | interrupted
  | failed
  deriving DecidableEq, Repr

/-- How much input `inflate` took, what it put out, and what it returned. -/
structure Inflated where
  consumed : Nat
  output : Bytes
  code : InflateCode
  deriving DecidableEq, Repr

abbrev ExtractReply : ExtractOp → Type
  | .malloc => Bool
  | .uninitialised _ => Bytes
  | .stat _ => StatResult
  | .mkdir _ => Bool
  | .utime _ => Bool
  | .symlink _ _ => Bool
  | .creat _ => Option Location
  | .write _ _ => WriteResult
  | .close _ => Unit
  | .read _ _ => Option Bytes
  | .inflateInit => Bool
  | .inflate _ _ => Inflated

/-- What the environment decides about a call. -/
inductive ExtractChoice where
  | ok
  | fail
  | interrupt
  /-- A `write` that takes only so much. -/
  | amount (count : Nat)
  /-- What is found in memory that was never written. -/
  | memory (content : Bytes)
  | inflated (result : Inflated)
  deriving DecidableEq, Repr

/-- The tree, the places that were created, truncated or written, the input and output of the
current `inflate` stream, and the file that is being written. -/
structure ExtractState where
  tree : Tree
  touched : List Location
  fed : Bytes
  produced : Bytes
  writing : Option Location

namespace ExtractState

/-- The tree becomes `after`, by a change at `here`. -/
def touch (state : ExtractState) (here : Location) (after : Tree) : ExtractState :=
  { state with tree := after, touched := state.touched ++ [here] }

/-- A state that no program has worked on. -/
def initial (tree : Tree) : ExtractState := ⟨tree, [], [], [], none⟩

end ExtractState

/-- Make a node, unless the environment lets the call fail. -/
def makeNode (state : ExtractState) (choice : ExtractChoice) (path : Bytes) (node : Node) :
    ExtractState × Bool :=
  if choice = .fail then (state, false)
  else
    match make state.tree path node with
    | .ok (here, after) => (state.touch here after, true)
    | .error _ => (state, false)

def extractPerform (archive : Bytes) : (op : ExtractOp) → ExtractChoice → ExtractState →
    ExtractState × ExtractReply op
  | .malloc, choice, state => (state, (choice ≠ .fail : Bool))
  | .uninitialised count, choice, state =>
    match choice with
    | .memory content => (state, content.take count ++ List.replicate (count - content.length) 0)
    | _ => (state, List.replicate count 0)
  | .stat path, choice, state =>
    if choice = .fail then (state, .failed)
    else
      match stat state.tree true path with
      | .ok .dir => (state, .directory)
      | .ok _ => (state, .other)
      | .error .noEntry => (state, .missing)
      | .error _ => (state, .failed)
  | .mkdir path, choice, state => makeNode state choice path .dir
  | .utime _, choice, state => (state, (choice ≠ .fail : Bool))
  | .symlink target path, choice, state =>
    if target = [] then (state, false) else makeNode state choice path (.link target)
  | .creat path, choice, state =>
    if choice = .fail then (state, none)
    else
      match create state.tree path with
      | .ok (here, after) => ({ state.touch here after with writing := some here }, some here)
      | .error _ => (state, none)
  | .write fd data, choice, state =>
    match choice with
    | .fail => (state, .failed)
    | .interrupt => (state, .interrupted)
    | .amount 0 => (state, .failed)
    | .amount (count + 1) =>
      (state.touch fd (append state.tree fd (data.take (count + 1))),
        .wrote (data.take (count + 1)).length)
    | _ => (state.touch fd (append state.tree fd data), .wrote data.length)
  | .close _, _, state => ({ state with writing := none }, ())
  | .read position count, choice, state =>
    if choice ≠ .fail ∧ (archive.slice position count).length = count then
      (state, some (archive.slice position count))
    else (state, none)
  | .inflateInit, choice, state =>
    ({ state with fed := [], produced := [] }, (choice ≠ .fail : Bool))
  | .inflate input _, choice, state =>
    match choice with
    | .inflated result =>
      ({ state with
          fed := state.fed ++ input.take result.consumed
          produced := state.produced ++ result.output }, result)
    | _ => (state, ⟨0, [], .error⟩)

/-- The file system and the archive file. -/
abbrev extractMachine (archive : Bytes) : Machine ExtractOp ExtractReply where
  Choice := ExtractChoice
  State := ExtractState
  perform := extractPerform archive

abbrev ExtractProg := Prog ExtractOp ExtractReply

/-- A reply that reports no failure. -/
def GoodReply : (op : ExtractOp) → ExtractReply op → Prop
  | .malloc, works => works = true
  | .stat _, result => result = .directory ∨ result = .missing
  | .mkdir _, made => made = true
  | .utime _, works => works = true
  | .symlink _ _, made => made = true
  | .creat _, opened => opened ≠ none
  | .write _ _, result => result ≠ .failed
  | .read _ _, data => data ≠ none
  | .inflateInit, works => works = true
  | .inflate _ _, result => result.code ≠ .error
  | _, _ => True

instance (op : ExtractOp) (reply : ExtractReply op) : Decidable (GoodReply op reply) := by
  cases op <;> unfold GoodReply <;> infer_instance

/-- A call that does not fail. -/
def Succeeds {archive : Bytes} (step : (extractMachine archive).Step) : Prop :=
  GoodReply step.op ((extractMachine archive).perform step.op step.choice step.before).2

instance {archive : Bytes} (step : (extractMachine archive).Step) : Decidable (Succeeds step) :=
  inferInstanceAs (Decidable (GoodReply _ _))

/-- `dirCreateHierarchy` makes its calls to the file system. -/
abbrev extractDirs : DirCalls ExtractOp ExtractReply where
  malloc := Prog.call ExtractOp.malloc
  stat path := Prog.call (ExtractOp.stat path)
  mkdir path := Prog.call (ExtractOp.mkdir path)
  utime path := Prog.call (ExtractOp.utime path)

/-! ## The data of an entry -/

/-- Size of the buffers of `processStoredEntry` and `processDeflatedEntry`. -/
def bufSize : Nat := 32 * 1024

/-- `ProcessZipEntryContentsFunction`, with the state behind its cookie. -/
abbrev ProcessFunction (σ : Type) := Bytes → σ → ExtractProg (Bool × σ)

section Process

variable {σ : Type} (process : ProcessFunction σ)

/-- The loop of `processStoredEntry`. -/
def storedLoop : (fuel position bytesLeft : Nat) → σ → ExtractProg (Bool × σ)
  | 0, _, _, cookie => .ret (true, cookie)
  | fuel + 1, position, bytesLeft, cookie =>
    if bytesLeft = 0 then .ret (true, cookie)
    else do
      match ← Prog.call (ExtractOp.read position (min bytesLeft bufSize)) with
      | none => .ret (false, cookie)
      | some data => do
        let (ret, cookie) ← process data cookie
        if ret then
          storedLoop fuel (position + min bytesLeft bufSize) (bytesLeft - min bytesLeft bufSize)
            cookie
        else .ret (false, cookie)

/-- `processStoredEntry`, at the position that `lseek` has left. -/
def processStoredEntry (entry : ZipEntry) (position : Nat) (cookie : σ) : ExtractProg (Bool × σ) :=
  storedLoop process (toSize entry.compLen) position (toSize entry.compLen) cookie

/-- The variables of `processDeflatedEntry` between two rounds. -/
structure DeflateState where
  position : Nat
  compRemaining : Nat
  input : Bytes
  procBuf : Bytes
  total_out : Nat
  deriving DecidableEq, Repr

/-- Read as much as we can when there is no input left. -/
def refill (state : DeflateState) : ExtractProg (Option DeflateState) :=
  if state.input = [] then do
    match ← Prog.call (ExtractOp.read state.position (min state.compRemaining bufSize)) with
    | none => .ret none
    | some data =>
      .ret (some { state with
        position := state.position + min state.compRemaining bufSize
        compRemaining := state.compRemaining - min state.compRemaining bufSize
        input := data })
  else .ret (some state)

/-- Process the output buffer when it is full or when we are done. -/
def flush (procBuf : Bytes) (code : InflateCode) (cookie : σ) :
    ExtractProg (Bool × Bytes × σ) :=
  if bufSize ≤ procBuf.length ∨ code = .streamEnd ∧ procBuf ≠ [] then do
    let (ret, cookie) ← process procBuf cookie
    .ret (ret, [], cookie)
  else .ret (true, procBuf, cookie)

/-- The loop of `processDeflatedEntry`: the value of `result`. -/
def deflatedLoop : (fuel : Nat) → DeflateState → σ → ExtractProg (Int × σ)
  | 0, _, _ => .stop
  | fuel + 1, state, cookie => do
    match ← refill state with
    | none => .ret (-1, cookie)
    | some state => do
      let result ← Prog.call (ExtractOp.inflate state.input (bufSize - state.procBuf.length))
      if result.code = .error then .ret (-1, cookie)
      else do
        let (ret, procBuf, cookie) ←
          flush process (state.procBuf ++ result.output) result.code cookie
        if ret = false then .ret (-1, cookie)
        else if result.code = .streamEnd then
          .ret (toLong (state.total_out + result.output.length), cookie)
        else
          deflatedLoop fuel { state with
            input := state.input.drop result.consumed
            procBuf := procBuf
            total_out := state.total_out + result.output.length } cookie

/-- `processDeflatedEntry`.  A negative `compLen` becomes the length of a `read` and the size
of its buffer. -/
def processDeflatedEntry (fuel : Nat) (entry : ZipEntry) (position : Nat) (cookie : σ) :
    ExtractProg (Bool × σ) := do
  match ← Prog.call ExtractOp.inflateInit with
  | false => .ret (decide ((-1 : Int) = entry.uncompLen), cookie)
  | true =>
    if entry.compLen < 0 then .stop
    else do
      let (result, cookie) ←
        deflatedLoop process fuel ⟨position, entry.compLen.toNat, [], [], 0⟩ cookie
      .ret (decide (result = entry.uncompLen), cookie)

def STORED : Nat := 0
def DEFLATED : Nat := 8

/-- `mzProcessZipEntryContents`.  When `lseek` refuses a negative offset, the archive is read
at its old position. -/
def mzProcessZipEntryContents (fuel oldOff : Nat) (entry : ZipEntry) (cookie : σ) :
    ExtractProg (Bool × σ) :=
  let position := if entry.offset < 0 then oldOff else entry.offset.toNat
  if entry.compression = STORED then processStoredEntry process entry position cookie
  else if entry.compression = DEFLATED then processDeflatedEntry process fuel entry position cookie
  else .ret (false, cookie)

end Process

/-- `copyProcessFunction`: what was copied, and the room that is left. -/
def copyProcessFunction : ProcessFunction (Bytes × Int) := fun data cookie =>
  if (data.length : Int) ≤ cookie.2 then .ret (true, cookie.1 ++ data, cookie.2 - data.length)
  else .ret (false, cookie)

/-- `mzReadZipEntry`: what was copied to the buffer. -/
def mzReadZipEntry (fuel oldOff : Nat) (entry : ZipEntry) (bufLen : Int) :
    ExtractProg (Option Bytes) := do
  let (ret, copied, _) ←
    mzProcessZipEntryContents copyProcessFunction fuel oldOff entry ([], bufLen)
  if ret then .ret (some copied) else .ret none

/-- The loop of `writeProcessFunction`. -/
def writeLoop (fd : Location) : (fuel : Nat) → Bytes → ExtractProg Bool
  | 0, _ => .stop
  | fuel + 1, data => do
    match ← Prog.call (ExtractOp.write fd data) with
    | .failed => .ret false
    | .interrupted => writeLoop fd fuel data
    | .wrote count => if count = data.length then .ret true else writeLoop fd fuel (data.drop count)

def writeProcessFunction (fuel : Nat) (fd : Location) : ProcessFunction Unit := fun data _ => do
  let ret ← writeLoop fd fuel data
  .ret (ret, ())

def mzExtractZipEntryToFile (fuel oldOff : Nat) (entry : ZipEntry) (fd : Location) :
    ExtractProg Bool := do
  let (ret, _) ← mzProcessZipEntryContents (writeProcessFunction fuel fd) fuel oldOff entry ()
  .ret ret

/-! ## `mzExtractRecursive` -/

/-- The arguments that stay the same: the two flags, whether there is a time stamp, the
position of the archive descriptor, and a bound on the rounds of the loops that wait for
`write` and `inflate`. -/
structure ExtractArgs where
  filesOnly : Bool
  dryRun : Bool
  timestamp : Bool
  oldOff : Nat
  fuel : Nat

/-- `S_ISLNK` of the high half of a `long`. -/
def isLinkMode (attributes : Int) : Bool := attributes / 2 ^ 16 % 2 ^ 16 / 2 ^ 12 == 0xA

def mzIsZipEntrySymlink (entry : ZipEntry) : Bool :=
  entry.versionMadeBy / 256 * 256 == CENVEM_UNIX && isLinkMode entry.externalFileAttributes

/-- `pEntry->fileName[pEntry->fileNameLen-1] == '/'`; for an empty name this looks at the byte
in front of it. -/
def endsInSlash (map : MemMapping) (entry : ZipEntry) : Bool :=
  map.bytes (entry.fileName + entry.fileNameLen - 1) 1 == [slash]

/-- `zpath`: nothing, or the directory with a slash at its end. -/
def zpathOf (zipDir : Bytes) : Bytes :=
  if zipDir = [] then [] else if zipDir.getLast? = some slash then zipDir else zipDir ++ [slash]

/-- The beginning of every target path: the directory and a slash. -/
def withSlash (targetDir : Bytes) : Bytes :=
  if targetDir.getLast? = some slash then targetDir else targetDir ++ [slash]

/-- `MzPathHelper`: the buffer with its content, the length of the target directory as it is
counted, and the length of the buffer as an `int`. -/
structure MzPathHelper where
  buf : Option Bytes
  targetDirLen : Nat
  bufLen : Int
  deriving DecidableEq, Repr

/-- The helper before the first path is assembled. -/
def MzPathHelper.initial (targetDir : Bytes) : MzPathHelper := ⟨none, targetDir.length, 0⟩

def needLen (targetDirLen restLen : Nat) : Int := ApplyPatch.wrap (targetDirLen + 1 + restLen + 1)

/-- Write to a block of memory; nothing when the bytes do not fit. -/
def store (block : Bytes) (position : Nat) (data : Bytes) : Option Bytes :=
  if position + data.length ≤ block.length then some (Places.write block position data) else none

/-- The target directory and a slash, which are written the first time. -/
def fillFront (targetDir block : Bytes) (targetDirLen : Nat) : Option (Bytes × Nat) := do
  let block ← store block 0 targetDir
  if targetDirLen = 0 ∨ block[targetDirLen - 1]? ≠ some slash then do
    let block ← store block targetDirLen [slash]
    some (block, targetDirLen + 1)
  else some (block, targetDirLen)

/-- The custom part of the path and its NUL: the string that then stands in the buffer, and the
helper afterwards. -/
def fillRest (rest : Bytes) (bufLen : Int) (block : Bytes) (targetDirLen : Nat) :
    Option (Bytes × MzPathHelper) := do
  let block ← store block targetDirLen rest
  let block ← store block (targetDirLen + rest.length) [0]
  some (block.take (targetDirLen + rest.length), ⟨some block, targetDirLen, bufLen⟩)

/-- The part of `targetEntryPath` behind the allocation. -/
def fillPath (targetDir rest : Bytes) (helper : MzPathHelper) (block : Bytes) (bufLen : Int) :
    Option (Bytes × MzPathHelper) :=
  if helper.buf = none then do
    let (block, targetDirLen) ← fillFront targetDir block helper.targetDirLen
    fillRest rest bufLen block targetDirLen
  else fillRest rest bufLen block helper.targetDirLen

/-- What `targetEntryPath` comes to: a null pointer, a write outside of the buffer, or a path and
the helper afterwards. -/
inductive PathResult where
  | noMemory
  | outside
  | path (targetFile : Bytes) (helper : MzPathHelper)
  deriving DecidableEq, Repr

def PathResult.ofFilled : Option (Bytes × MzPathHelper) → PathResult
  | none => .outside
  | some (targetFile, helper) => .path targetFile helper

/-- `targetEntryPath`.  Behind the old content of a buffer that grows stands what was in memory. -/
def targetEntryPath (targetDir zpath : Bytes) (helper : MzPathHelper) (name : Bytes) :
    ExtractProg PathResult :=
  let rest := name.drop zpath.length
  let needed := needLen helper.targetDirLen rest.length
  let old := helper.buf.getD []
  if helper.bufLen < needed then do
    match ← Prog.call ExtractOp.malloc with
    | false => .ret .noMemory
    | true => do
      let size := toSize (needed * 2)
      let fresh ← Prog.call (ExtractOp.uninitialised (size - old.length))
      .ret (.ofFilled (fillPath targetDir rest helper (old.take size ++ fresh)
        (ApplyPatch.wrap (needed * 2))))
  else .ret (.ofFilled (fillPath targetDir rest helper old helper.bufLen))

/-- How the work on one entry leaves the loop: it goes on, or it breaks off with a value of
the outer `ok`. -/
inductive LoopStep where
  | next
  | leave (ok : Bool)
  deriving DecidableEq, Repr

def extractLink (args : ExtractArgs) (entry : ZipEntry) (targetFile : Bytes) :
    ExtractProg LoopStep :=
  if entry.uncompLen = 0 then .ret (.leave false)
  else do
    match ← Prog.call ExtractOp.malloc with
    | false => .ret (.leave false)
    | true => do
      match ← mzReadZipEntry args.fuel args.oldOff entry entry.uncompLen with
      | none => .ret (.leave false)
      | some copied =>
        -- linkTarget[pEntry->uncompLen] = '\0' in front of the buffer
        if entry.uncompLen < 0 then .stop
        else do
          let rest ← Prog.call (ExtractOp.uninitialised (entry.uncompLen.toNat - copied.length))
          let linkTarget := (copied ++ rest).takeWhile (· ≠ 0)
          match ← Prog.call (ExtractOp.symlink linkTarget targetFile) with
          | false => .ret (.leave false)
          | true => .ret .next

/-- The part of the block for a regular file behind `creat`.  The `ok` of this block is a
variable of its own, so a failure leaves the loop with the outer `ok` as it was. -/
def fillFile (args : ExtractArgs) (entry : ZipEntry) (targetFile : Bytes) (fd : Location) :
    ExtractProg LoopStep := do
  let ok ← mzExtractZipEntryToFile args.fuel args.oldOff entry fd
  Prog.call (ExtractOp.close fd)
  match ok with
  | false => .ret (.leave true)
  | true =>
    if args.timestamp then do
      match ← Prog.call (ExtractOp.utime targetFile) with
      | false => .ret (.leave true)
      | true => .ret .next
    else .ret .next

def extractFile (args : ExtractArgs) (entry : ZipEntry) (targetFile : Bytes) :
    ExtractProg LoopStep := do
  match ← Prog.call (ExtractOp.creat targetFile) with
  | none => .ret (.leave false)
  | some fd => fillFile args entry targetFile fd

/-- Create the file or directory. -/
def extractEntry (args : ExtractArgs) (map : MemMapping) (entry : ZipEntry) (targetFile : Bytes) :
    ExtractProg LoopStep :=
  if args.dryRun then .ret .next
  else if endsInSlash map entry then
    if args.filesOnly then .ret .next
    else do
      let ret ← dirCreateHierarchy extractDirs targetFile args.timestamp false
      if ret ≠ 0 then .ret (.leave false) else .ret .next
  else do
    let ret ← dirCreateHierarchy extractDirs targetFile args.timestamp true
    if ret ≠ 0 then .ret (.leave false)
    else if !args.filesOnly && mzIsZipEntrySymlink entry then extractLink args entry targetFile
    else extractFile args entry targetFile

/-- The entry begins with `zpath`. -/
def underPath (zpath name : Bytes) : Bool :=
  decide (zpath.length ≤ name.length) && strncmp (name.take zpath.length) zpath == 0

/-- How the loop ends: it runs through or stops behind the matching entries, a step fails, or
memory outside of the path buffer is written. -/
inductive LoopEnd where
  | finished
  | failed
  | outside
  deriving DecidableEq, Repr

/-- The result of the extraction and the entries it has worked on, with their target paths. -/
structure Extraction where
  ok : Bool
  ended : LoopEnd
  processed : List (ZipEntry × Bytes)
  deriving DecidableEq, Repr

section Loop

variable (args : ExtractArgs) (map : MemMapping)

/-- The loop over the entries.  The first entry that does not match after one that did ends it,
since the entries are sorted. -/
def extractLoop (zpath targetDir : Bytes) :
    List ZipEntry → (seenMatch : Bool) → MzPathHelper → ExtractProg Extraction
  | [], _, _ => .ret ⟨true, .finished, []⟩
  | entry :: rest, seenMatch, helper =>
    if underPath zpath (entryName map entry) then do
      match ← targetEntryPath targetDir zpath helper (entryName map entry) with
      | .noMemory => .ret ⟨false, .failed, []⟩
      | .outside => .ret ⟨false, .outside, []⟩
      | .path targetFile helper => do
        match ← extractEntry args map entry targetFile with
        | .leave ok => .ret ⟨ok, .failed, [(entry, targetFile)]⟩
        | .next => do
          let later ← extractLoop zpath targetDir rest true helper
          .ret { later with processed := (entry, targetFile) :: later.processed }
    else if seenMatch then .ret ⟨true, .finished, []⟩
    else extractLoop zpath targetDir rest seenMatch helper

/-- The body of `mzExtractRecursive`, with a record of its work. -/
def extractSubtree (archive : ZipArchive) (zipDir targetDir : Bytes) : ExtractProg Extraction :=
  if zipDir.head? = some slash then .ret ⟨false, .failed, []⟩
  else if targetDir.head? ≠ some slash then .ret ⟨false, .failed, []⟩
  else do
    match ← Prog.call ExtractOp.malloc with
    | false => .ret ⟨false, .failed, []⟩
    | true =>
      extractLoop args map (zpathOf zipDir) targetDir archive.pEntries false (.initial targetDir)

def mzExtractRecursive (archive : ZipArchive) (zipDir targetDir : Bytes) : ExtractProg Bool := do
  let result ← extractSubtree args map archive zipDir targetDir
  .ret result.ok

end Loop

end PhilzTouch.Minzip
