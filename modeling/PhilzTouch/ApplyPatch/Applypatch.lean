import PhilzTouch.ApplyPatch.Imgpatch
import PhilzTouch.ApplyPatch.RetouchMask
import PhilzTouch.Lib.Split
import Mathlib.Data.List.Sort

/-!
# applypatch

`applypatch.c` and `freecache.c` as programs against the storage.  `size_t` and
`ssize_t` are 32 bits wide.  Allocations succeed.  In `applypatch`, loading a file whose
contents end in a retouch trailer is `stop`; what is done with such files depends on the
masking that `loadFileWith` is given.
-/

namespace PhilzTouch.ApplyPatch

open Prog Op

/-- A program of storage operations. -/
abbrev Action (α : Type) := Prog Op Reply α

/-- The libraries that applypatch links against. -/
structure Library where
  sha1 : Bytes → Bytes
  bz : Bz2
  zlib : Zlib

/-- What a run finds in memory it has not written: the fields of a `FileContents` on
the stack and the bytes around a loaded file.  `patience` bounds how often a call that
is interrupted or moves nothing is made again. -/
structure Memory where
  size : Int
  st : Meta
  heap : Int → UInt8
  patience : Nat

/-- A `Value` of the script: patches have to be blobs. -/
structure Patch where
  sha1Str : Text
  isBlob : Bool
  value : Value

structure Args where
  sourceFilename : Text
  targetFilename : Text
  targetSha1Str : Text
  targetSize : Nat
  patches : List Patch
  bonusData : Option Value

/-- `FileContents`.  The field `size` follows from the data once they are loaded. -/
structure FileContents where
  data : Option Value
  /-- `size` while `data` is `NULL`: what the stack held or a failed load has left. -/
  staleSize : Int
  st : Meta

def FileContents.size (file : FileContents) : Int :=
  match file.data with
  | some value => value.data.length
  | none => file.staleSize

/-- The bytes of a block, with the memory around it; nothing can be said about blocks
of more bytes than an `ssize_t` counts. -/
def Value.of? (data : Bytes) (around : Int → UInt8) : Option Value :=
  if fits : data.length < 2 ^ 31 then some ⟨data, around, fits⟩ else none

theorem Value.of?_data {data : Bytes} {around : Int → UInt8} {value : Value}
    (made : Value.of? data around = some value) : value.data = data := by
  unfold Value.of? at made
  split at made
  · cases made
    rfl
  · cases made

/-- `CACHE_TEMP_SOURCE`, `"/cache/saved.file"`. -/
def cacheTempSource : Text :=
  ['/', 'c', 'a', 'c', 'h', 'e', '/', 's', 'a', 'v', 'e', 'd', '.', 'f', 'i', 'l', 'e']

/-! ## Names of partitions -/

/-- Whether a name starts with `MTD:` or `EMMC:`. -/
def isPartitionName (filename : Text) : Bool :=
  ['M', 'T', 'D', ':'].isPrefixOf filename || ['E', 'M', 'M', 'C', ':'].isPrefixOf filename

/-- The results of all calls of `strtok(_, ":")`. -/
def strtok (text : Text) : List Text := tokens ':' text

/-- The partition type that the first part of a name stands for. -/
def partitionType (magic : Text) : Option PartitionType :=
  if magic = ['M', 'T', 'D'] then some .mtd
  else if magic = ['E', 'M', 'M', 'C'] then some .emmc
  else none

/-- The partition that a name stands for. -/
def partitionOf (filename : Text) : Option Partition :=
  match strtok filename with
  | magic :: partition :: _ => (partitionType magic).map fun type => ⟨type, partition⟩
  | _ => none

/-- The digits at the front of a text, added to a number. -/
def readDigits : (value : Nat) → Text → Nat
  | value, [] => value
  | value, digit :: text =>
    if '0' ≤ digit ∧ digit ≤ '9' then readDigits (10 * value + (digit.toNat - 48)) text else value

def isspace (letter : Char) : Bool := letter = ' ' || (9 ≤ letter.toNat && letter.toNat ≤ 13)

/-- `strtol(text, NULL, 10)`, for a `long` of 32 bits. -/
def strtol (text : Text) : Int :=
  match text.dropWhile isspace with
  | '-' :: text => max (-2 ^ 31) (-(readDigits 0 text : Int))
  | '+' :: text => min (2 ^ 31 - 1) (readDigits 0 text : Int)
  | text => min (2 ^ 31 - 1) (readDigits 0 text : Int)

/-- The value of a hexadecimal digit. -/
def hexDigit (letter : Char) : Option Nat :=
  if '0' ≤ letter ∧ letter ≤ '9' then some (letter.toNat - 48)
  else if 'a' ≤ letter ∧ letter ≤ 'f' then some (letter.toNat - 97 + 10)
  else if 'A' ≤ letter ∧ letter ≤ 'F' then some (letter.toNat - 65 + 10)
  else none

/-- `count` bytes from twice as many hexadecimal digits, with nothing behind them. -/
def parseHex : (count : Nat) → Text → Option Bytes
  | 0, [] => some []
  | count + 1, high :: low :: text => do
    let high ← hexDigit high
    let low ← hexDigit low
    let digest ← parseHex count text
    some (UInt8.ofNat (16 * high + low) :: digest)
  | _, _ => none

def parseSha1 (str : Text) : Option Bytes := parseHex 20 str

/-- `FindMatchingPatch`: the first patch for a source with this hash. -/
def findMatchingPatch (sha1 : Bytes) (patches : List Patch) : Option Patch :=
  patches.find? fun patch => parseSha1 patch.sha1Str = some sha1

/-! ## Loading -/

/-- The `pairs` sizes and hashes of a partition name.  A size that is missing is a null
pointer to `strtol`; a hash that is missing is one when it comes to be compared. -/
def parsePairs : (pairs : Nat) → List Text → Except Stop (List (Nat × Option Text))
  | 0, _ => .ok []
  | _ + 1, [] => .error .wild
  | pairs + 1, sizeStr :: fields => do
    let size := (strtol sizeStr % 2 ^ 32).toNat
    if size = 0 then .error .failed
    else
      let rest ← parsePairs pairs fields.tail
      .ok ((size, fields.head?) :: rest)

/-- The next bytes of a partition that `LoadPartitionContents` asks for. -/
def readNext (partition : Partition) (offset next : Nat) : Action Bytes :=
  if next = 0 then .ret [] else call (readPartition partition offset next)

/-- The loop of `LoadPartitionContents` over the pairs in the order of their sizes.
`data` is what was read so far. -/
def readPairs (lib : Library) (memory : Memory) (partition : Partition) (file : FileContents) :
    (pairs : List (Nat × Option Text)) → (data : Bytes) → Action (Int × FileContents)
  | [], data => .ret (-1, { file with data := none, staleSize := data.length })
  | (size, sha1sum) :: pairs, data => do
    let next := size - data.length
    let read ← readNext partition data.length next
    if read.length ≠ next then
      .ret (-1, { file with data := none, staleSize := data.length })
    else
      let data := data ++ read
      match sha1sum with
      | none => .stop
      | some sha1sum =>
        match parseSha1 sha1sum with
        | none => .ret (-1, { file with data := none, staleSize := data.length })
        | some parsedSha =>
          if lib.sha1 data = parsedSha then
            match Value.of? data memory.heap with
            | none => .stop
            | some value => .ret (0, { file with data := some value, st := ⟨0o644, 0, 0⟩ })
          else readPairs lib memory partition file pairs data

def loadPartitionContents (lib : Library) (memory : Memory) (filename : Text)
    (file : FileContents) : Action (Int × FileContents) :=
  match strtok filename with
  | [] => .stop
  | magic :: fields =>
    match partitionType magic, fields with
    | none, _ => .ret (-1, file)
    | some _, [] => .stop
    | some type, name :: fields =>
      match parsePairs ((filename.count ':' - 1) / 2) fields with
      | .error .failed => .ret (-1, file)
      | .error _ => .stop
      | .ok pairs => do
        let opened ← call (openPartition ⟨type, name⟩)
        if opened then
          -- without a pair the buffer gets a size read before the array
          if pairs = [] then .stop
          else readPairs lib memory ⟨type, name⟩ file (pairs.insertionSort (·.1 ≤ ·.1)) []
        else .ret (-1, file)

/-- Contents without a trailer are as they are. -/
def stopAtTrailer (data : Bytes) : Masked :=
  if hasRetouchTrailer data then .unknown else .matched data

/-- `LoadFileContents` with `RETOUCH_DO_MASK`; `-2` is `-ENOENT`. -/
def loadFileWith (mask : Bytes → Masked) (lib : Library) (memory : Memory) (filename : Text)
    (file : FileContents) : Action (Int × FileContents) :=
  let file := { file with data := none }
  if isPartitionName filename then loadPartitionContents lib memory filename file
  else do
    match ← call (stat filename) with
    | .missing => .ret (-2, file)
    | .failed => .ret (-1, file)
    | .found size st =>
      let file := { file with staleSize := wrap size, st := st }
      let opened ← call (openRead filename)
      if opened then do
        let data ← call (readFile filename size)
        if data.length ≠ size then .ret (-1, file)
        else
          match mask data with
          | .unknown => .stop
          | .failed => .ret (-1, file)
          | .matched data =>
            match Value.of? data memory.heap with
            | none => .stop
            | some value => .ret (0, { file with data := some value })
      else .ret (-1, file)

/-- `LoadFileContents` for contents without a trailer. -/
def loadFileContents (lib : Library) (memory : Memory) (filename : Text)
    (file : FileContents) : Action (Int × FileContents) :=
  loadFileWith stopAtTrailer lib memory filename file

/-! ## Sinks and saving -/

/-- The loop of `FileSink`.  Every round but the last moves at least one byte, so there
are at most as many as bytes. -/
def fileSinkLoop (path : Text) : (rounds : Nat) → (data : Bytes) → (done : Nat) → Action Int
  | 0, _, done => .ret done
  | rounds + 1, data, done => do
    let wrote ← call (write path data)
    if wrote ≤ 0 then .ret done
    else if wrote.toNat = data.length then .ret (done + wrote.toNat : Nat)
    else fileSinkLoop path rounds (data.drop wrote.toNat) (done + wrote.toNat)

def fileSink (path : Text) : Sink Op Reply Unit := fun data _ => do
  let done ← fileSinkLoop path data.length data 0
  .ret (done, ())

/-- `MemorySink`, on a buffer of `size` bytes; the token is what it holds so far. -/
def memorySink (size : Int) : Sink Op Reply Bytes := fun data buffer =>
  if size - buffer.length < data.length then .ret (-1, buffer)
  else .ret (data.length, buffer ++ data)

/-- `FileSink` on the data of a `FileContents`.  A write from a null pointer fails. -/
def sinkContents (path : Text) (file : FileContents) : Action Int :=
  match file.data with
  | some value => fileSinkLoop path value.data.length value.data 0
  | none => .ret 0

/-- `SaveFileContents`.  The result of `fsync` is not looked at. -/
def saveFileContents (filename : Text) (file : FileContents) : Action Int := do
  let opened ← call (create filename)
  if opened then do
    let bytesWritten ← sinkContents filename file
    if bytesWritten ≠ file.size then .ret (-1)
    else do
      let _ ← call (fsync filename)
      let modeSet ← call (chmod filename file.st.mode)
      if modeSet then do
        let ownerSet ← call (chown filename file.st.uid file.st.gid)
        if ownerSet then .ret 0 else .ret (-1)
      else .ret (-1)
  else .ret (-1)

/-! ## Free space -/

def cacheDir : Text := ['/', 'c', 'a', 'c', 'h', 'e']

/-- `"/cache/recovery/otatest"`. -/
def otatestDir : Text :=
  cacheDir ++ ['/', 'r', 'e', 'c', 'o', 'v', 'e', 'r', 'y', '/', 'o', 't', 'a', 't', 'e', 's', 't']

def freeSpaceForFile (filename : Text) : Action Nat := call (statfs filename)

/-- The regular files among the entries of a directory. -/
def regularFiles (dir : Text) : (names : List Text) → Action (List Text)
  | [] => .ret []
  | name :: names => do
    let path := dir ++ '/' :: name
    if path = cacheTempSource then regularFiles dir names
    else do
      match ← call (stat path) with
      | .found _ _ => do
        let rest ← regularFiles dir names
        .ret (path :: rest)
      | _ => regularFiles dir names

/-- The files of one directory that may be deleted. -/
def expendableIn (dir : Text) : Action (List Text) := do
  match ← call (readdir dir) with
  | none => .ret []
  | some names => regularFiles dir names

/-- `EliminateOpenFiles`: a name that some process has open becomes a null pointer. -/
def eliminateOpenFiles (files : List Text) : Action (Option (List (Option Text))) := do
  match ← call openFiles with
  | none => .ret none
  | some links =>
    let links := links.filter (['/', 'c', 'a', 'c', 'h', 'e', '/'].isPrefixOf ·)
    .ret (some (files.map fun file => if file ∈ links then none else some file))

def findExpendableFiles : Action (Option (List (Option Text))) := do
  let inCache ← expendableIn cacheDir
  let inOtatest ← expendableIn otatestDir
  eliminateOpenFiles (inCache ++ inOtatest)

/-- The loop of `MakeFreeSpaceOnCache` that deletes files until there is room. -/
def deleteUntil (bytesNeeded : Nat) : (names : List (Option Text)) → (freeNow : Nat) → Action Nat
  | [], freeNow => .ret freeNow
  | name :: names, freeNow =>
    if freeNow < bytesNeeded then
      match name with
      | none => deleteUntil bytesNeeded names freeNow
      | some name => do
        let _ ← call (unlink name)
        let freeNow ← freeSpaceForFile cacheDir
        deleteUntil bytesNeeded names freeNow
    else .ret freeNow

def makeFreeSpaceOnCache (bytesNeeded : Nat) : Action Int := do
  let freeNow ← freeSpaceForFile cacheDir
  if bytesNeeded ≤ freeNow then .ret 0
  else do
    match ← findExpendableFiles with
    | none => .ret (-1)
    | some names =>
      if names = [] then .ret (-1)
      else do
        let freeNow ← deleteUntil bytesNeeded names freeNow
        .ret (if bytesNeeded ≤ freeNow then 0 else -1)

/-! ## Writing to a partition -/

/-- The loop that writes to a device from `start` on, at most 1 MiB at a time. -/
def writeFrom (partition : Partition) (data : Bytes) : (patience start : Nat) → Action Bool
  | 0, start => if start < data.length then .stop else .ret true
  | patience + 1, start =>
    if start < data.length then do
      let toWrite := data.slice start (min (data.length - start) (2 ^ 20))
      match ← call (writeDevice partition start toWrite) with
      | .interrupted => writeFrom partition data patience start
      | .failed => .ret false
      | .moved written => writeFrom partition data patience (start + written)
    else .ret true

/-- One block of a device, read back for verification. -/
def readBlock (partition : Partition) (start toRead : Nat) :
    (patience : Nat) → (buffer : Bytes) → Action (Option Bytes)
  | 0, buffer => if buffer.length < toRead then .stop else .ret (some buffer)
  | patience + 1, buffer =>
    if buffer.length < toRead then do
      match ← call (readDevice partition (start + buffer.length) (toRead - buffer.length)) with
      | .interrupted => readBlock partition start toRead patience buffer
      | .failed => .ret none
      | .moved bytes => readBlock partition start toRead patience (buffer ++ bytes)
    else .ret (some buffer)

/-- The verification of a device, block by block of 4096 bytes from `p` on: where the
first block that differs starts, or the length of the data. -/
def verifyFrom (partition : Partition) (data : Bytes) (patience : Nat) :
    (blocks p : Nat) → Action (Option Nat)
  | 0, _ => .ret (some data.length)
  | blocks + 1, p =>
    if p < data.length then do
      let toRead := min (data.length - p) 4096
      match ← readBlock partition p toRead patience [] with
      | none => .ret none
      | some buffer =>
        if buffer ≠ data.slice p toRead then .ret (some p)
        else verifyFrom partition data patience blocks (p + 4096)
    else .ret (some data.length)

/-- The attempts to write a device and to read the same bytes back. -/
def writeAttempts (partition : Partition) (data : Bytes) (patience : Nat) :
    (attempts start : Nat) → Action Bool
  | 0, _ => .ret false
  | attempts + 1, start => do
    let written ← writeFrom partition data patience start
    if written then do
      -- the result of this call is not looked at
      let _ ← call (fsyncDevice partition)
      match ← verifyFrom partition data patience (data.length / 4096 + 1) 0 with
      | none => .ret false
      | some start =>
        if start = data.length then .ret true
        else writeAttempts partition data patience attempts start
    else .ret false

/-- The `MTD` case of `WriteToPartition`. -/
def writeToMtd (partition : Partition) (data : Bytes) : Action Int := do
  let opened ← call (openWrite partition)
  if opened then do
    let written ← call (mtdWriteData partition data)
    if written ≠ data.length then do
      let _ ← call (mtdWriteClose partition)
      .ret (-1)
    else do
      let erased ← call (mtdEraseBlocks partition data)
      let closed ← call (mtdWriteClose partition)
      .ret (if erased && closed then 0 else -1)
  else .ret (-1)

/-- The `EMMC` case of `WriteToPartition`. -/
def writeToEmmc (memory : Memory) (partition : Partition) (data : Bytes) : Action Int := do
  let opened ← call (openWrite partition)
  if opened then do
    let success ← writeAttempts partition data memory.patience 2 0
    if success then do
      let closed ← call (closeDevice partition)
      .ret (if closed then 0 else -1)
    else .ret (-1)
  else .ret (-1)

def writeToPartition (memory : Memory) (data : Bytes) (target : Text) : Action Int :=
  match partitionOf target with
  | none => .ret (-1)
  | some partition =>
    match partition.type with
    | .mtd => writeToMtd partition data
    | .emmc => writeToEmmc memory partition data

/-! ## Generating the target -/

/-- The source to patch and the patch for it: the source file, or else the copy. -/
def sourceToUse (sourceFile copyFile : FileContents) (sourcePatch copyPatch : Option Patch) :
    Option (Value × Meta × Patch) :=
  match sourcePatch with
  | some patch => sourceFile.data.map fun value => (value, sourceFile.st, patch)
  | none => do
    let value ← copyFile.data
    let patch ← copyPatch
    some (value, copyFile.st, patch)

/-- The patch routine that the header of a patch asks for; none for an unknown one. -/
def applyPatchData {σ : Type} (lib : Library) (old patch : Value) (bonus : Option Value)
    (sink : Sink Op Reply σ) (token : σ) : Action (Option (Applied σ)) :=
  if 8 ≤ patch.data.length ∧ patch.data.take 8 = bsdiffMagic then do
    let applied ← applyBSDiffPatch lib.bz old.data patch 0 sink token []
    .ret (some applied)
  else if 8 ≤ patch.data.length ∧ patch.data.take 8 = imgdiffMagic then do
    let applied ← applyImagePatch lib.zlib lib.bz old patch bonus sink token []
    .ret (some applied)
  else .ret none

/-- Make room on the cache for the source and save it there. -/
def backUpSource (sourceFile : FileContents) : Action Bool := do
  let room ← makeFreeSpaceOnCache (sourceFile.size % 2 ^ 32).toNat
  if room < 0 then .ret false
  else do
    let saved ← saveFileContents cacheTempSource sourceFile
    .ret (0 ≤ saved)

/-- `GenerateTarget` for a partition.  There is one pass of the loop, and the source is
backed up whether it was loaded or not. -/
def generatePartition (lib : Library) (memory : Memory) (args : Args) (target : Text)
    (targetSha1 : Bytes) (sourceFile : FileContents) (toUse : Option (Value × Meta × Patch)) :
    Action Int := do
  let backedUp ← backUpSource sourceFile
  if backedUp then
    match toUse with
    | none => .stop
    | some (old, _, patch) =>
      if patch.isBlob then do
        match ← applyPatchData lib old patch.value args.bonusData
            (memorySink (wrap args.targetSize)) [] with
        | none => .ret 1
        | some applied =>
          if applied.result ≠ 0 then .ret 1
          else if lib.sha1 applied.ctx ≠ targetSha1 then .ret 1
          else do
            let written ← writeToPartition memory applied.sink target
            if written ≠ 0 then .ret 1
            else do
              let _ ← call (unlink cacheTempSource)
              .ret 0
      else .ret 1
  else .ret 1

/-- The file system of a target: its name up to the second slash. -/
def targetFs (target : Text) : Text :=
  match target with
  | [] => []
  | first :: rest => first :: rest.takeWhile (· ≠ '/')

/-- Whether there is enough space for the target: more than 256 KiB, and half as much
again as the target takes. -/
def enoughSpace (target : Text) (targetSize : Nat) : Action Bool := do
  let freeSpace ← freeSpaceForFile (targetFs target)
  .ret (256 * 2 ^ 10 < freeSpace ∧ targetSize * 3 % 2 ^ 32 / 2 < freeSpace)

/-- What the first half of a pass decides. -/
inductive Readiness where
  /-- Return with an error. -/
  | failed
  /-- Go on; whether the source was moved to the cache. -/
  | ready (madeCopy : Bool)

/-- The part of a pass that moves the source to the cache when space is short. -/
def moveSource (args : Args) (target : Text) (sourceFile : FileContents)
    (sourcePatch : Option Patch) : Action Readiness :=
  if sourcePatch.isNone then .ret (.ready false)
  else if isPartitionName args.sourceFilename then .ret .failed
  else do
    let backedUp ← backUpSource sourceFile
    if backedUp then do
      let _ ← call (unlink args.sourceFilename)
      let _ ← freeSpaceForFile (targetFs target)
      .ret (.ready true)
    else .ret .failed

/-- `target_filename` with `".patch"` appended. -/
def outname (target : Text) : Text := target ++ ['.', 'p', 'a', 't', 'c', 'h']

/-- What a pass over a file target comes to. -/
inductive Pass where
  | failed
  /-- The patch was not applied, and there is another pass. -/
  | again
  | applied (ctx : Bytes)

/-- The part of a pass that writes `"<tgt-file>.patch"`. -/
def writeOutput (lib : Library) (args : Args) (target : Text)
    (toUse : Option (Value × Meta × Patch)) (retry : Bool) : Action Pass :=
  match toUse with
  | none => .stop
  | some (old, _, patch) =>
    if patch.isBlob then do
      let output ← call (create (outname target))
      if output then do
        match ← applyPatchData lib old patch.value args.bonusData (fileSink (outname target)) () with
        | none => .ret .failed
        | some applied => do
          let _ ← call (fsync (outname target))
          if applied.result = 0 then .ret (.applied applied.ctx)
          else if retry then do
            let _ ← call (unlink (outname target))
            .ret .again
          else .ret .failed
      else .ret .failed
    else .ret .failed

/-- The end of `GenerateTarget` for a file. -/
def replaceTarget (lib : Library) (target : Text) (targetSha1 : Bytes) (st : Meta)
    (ctx : Bytes) (madeCopy : Bool) : Action Int :=
  if lib.sha1 ctx ≠ targetSha1 then .ret 1
  else do
    let modeSet ← call (chmod (outname target) st.mode)
    if modeSet then do
      let ownerSet ← call (chown (outname target) st.uid st.gid)
      if ownerSet then do
        let renamed ← call (rename (outname target) target)
        if renamed then
          if madeCopy then do
            let _ ← call (unlink cacheTempSource)
            .ret 0
          else .ret 0
        else .ret 1
      else .ret 1
    else .ret 1

/-- The owner, group and mode of the source in use. -/
def metaToUse (toUse : Option (Value × Meta × Patch)) : Meta :=
  (toUse.map (·.2.1)).getD ⟨0, 0, 0⟩

/-- The last pass of `GenerateTarget` for a file, with `retry` at 0: the source goes to
the cache first, if it is the source that is patched. -/
def lastPass (lib : Library) (args : Args) (target : Text) (targetSha1 : Bytes)
    (sourceFile : FileContents) (sourcePatch : Option Patch)
    (toUse : Option (Value × Meta × Patch)) : Action Int := do
  match ← moveSource args target sourceFile sourcePatch with
  | .failed => .ret 1
  | .ready madeCopy => do
    match ← writeOutput lib args target toUse false with
    | .applied ctx => replaceTarget lib target targetSha1 (metaToUse toUse) ctx madeCopy
    | _ => .ret 1

/-- `GenerateTarget` for a file.  Without enough space the first pass is the last. -/
def generateFile (lib : Library) (args : Args) (target : Text) (targetSha1 : Bytes)
    (sourceFile : FileContents) (sourcePatch : Option Patch)
    (toUse : Option (Value × Meta × Patch)) : Action Int := do
  let enough ← enoughSpace target args.targetSize
  if enough then do
    match ← writeOutput lib args target toUse true with
    | .failed => .ret 1
    | .again => lastPass lib args target targetSha1 sourceFile sourcePatch toUse
    | .applied ctx => replaceTarget lib target targetSha1 (metaToUse toUse) ctx false
  else lastPass lib args target targetSha1 sourceFile sourcePatch toUse

def generateTarget (lib : Library) (memory : Memory) (args : Args) (target : Text)
    (targetSha1 : Bytes) (sourceFile : FileContents) (sourcePatch : Option Patch)
    (copyFile : FileContents) (copyPatch : Option Patch) : Action Int :=
  let toUse := sourceToUse sourceFile copyFile sourcePatch copyPatch
  if isPartitionName target then
    generatePartition lib memory args target targetSha1 sourceFile toUse
  else generateFile lib args target targetSha1 sourceFile sourcePatch toUse

/-! ## applypatch -/

/-- The hash that a loaded file has. -/
def FileContents.sha1 (lib : Library) (file : FileContents) : Option Bytes :=
  file.data.map fun value => lib.sha1 value.data

/-- The patch for a file, if it is loaded and one of the hashes is its own. -/
def patchFor (lib : Library) (args : Args) (file : FileContents) : Option Patch := do
  let sha1 ← file.sha1 lib
  findMatchingPatch sha1 args.patches

/-- The name `"-"` stands for the source. -/
def targetName (args : Args) : Text :=
  if args.targetFilename = ['-'] then args.sourceFilename else args.targetFilename

/-- A function like `LoadFileContents`. -/
abbrev Loader := Text → FileContents → Action (Int × FileContents)

/-- `applypatch` from where the source file is loaded: the copy takes its place if it
has none of the expected hashes. -/
def patchSource (load : Loader) (lib : Library) (memory : Memory) (args : Args) (targetSha1 : Bytes)
    (sourceFile : FileContents) : Action Int :=
  let copyFile : FileContents := ⟨none, memory.size, memory.st⟩
  match patchFor lib args sourceFile with
  | some patch =>
    generateTarget lib memory args (targetName args) targetSha1 sourceFile (some patch)
      copyFile none
  | none => do
    let (loaded, copyFile) ← load cacheTempSource copyFile
    if loaded < 0 then .ret 1
    else
      match patchFor lib args copyFile with
      | none => .ret 1
      | some patch =>
        generateTarget lib memory args (targetName args) targetSha1
          { sourceFile with data := none, staleSize := sourceFile.size } none
          copyFile (some patch)

/-- The source file, when the target has been loaded in its place. -/
def loadSource (load : Loader) (args : Args) (sourceFile : FileContents) : Action FileContents :=
  if sourceFile.data.isNone ∨ targetName args ≠ args.sourceFilename then do
    let (_, sourceFile) ← load args.sourceFilename
      { sourceFile with data := none, staleSize := sourceFile.size }
    .ret sourceFile
  else .ret sourceFile

/-- `applypatch`, with the given way to load files. -/
def applypatchBy (load : Loader) (lib : Library) (memory : Memory) (args : Args) : Action Int :=
  match parseSha1 args.targetSha1Str with
  | none => .ret 1
  | some targetSha1 => do
    let (loaded, sourceFile) ← load (targetName args) ⟨none, memory.size, memory.st⟩
    if loaded = 0 ∧ sourceFile.sha1 lib = some targetSha1 then .ret 0
    else do
      let sourceFile ← loadSource load args sourceFile
      patchSource load lib memory args targetSha1 sourceFile

/-- `applypatch` on files without a retouch trailer. -/
def applypatch (lib : Library) (memory : Memory) (args : Args) : Action Int :=
  applypatchBy (loadFileContents lib memory) lib memory args

/-- `applypatch`, with retouched files masked. -/
def applypatchMasked (lib : Library) (memory : Memory) (args : Args) : Action Int :=
  applypatchBy (loadFileWith retouchMask lib memory) lib memory args

end PhilzTouch.ApplyPatch
