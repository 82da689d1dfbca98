import PhilzTouch.Lib.Bytes
import PhilzTouch.Lib.Program

/-!
# The storage that applypatch works on

Files by path and partitions by name, each with the bytes it holds now and whether
they have reached the medium.  Paths are compared as strings: two different paths are
two different files.  Renaming, unlinking and truncating take effect at once; data
written to a file or a device are on the medium only after `fsync`.
-/

namespace PhilzTouch.ApplyPatch

/-- A C string without its terminator. -/
abbrev Text := List Char

instance Text.lawfulBEq : LawfulBEq Text := inferInstanceAs (LawfulBEq (List Char))

/-- The fields of `struct stat` that are restored: mode, owner and group. -/
structure Meta where
  mode : Nat
  uid : Nat
  gid : Nat
  deriving DecidableEq, Repr, Inhabited

/-- A regular file: its bytes, and whether they are on the medium. -/
structure File where
  data : Bytes
  synced : Bool
  st : Meta
  deriving DecidableEq, Repr

inductive PartitionType where
  | mtd
  | emmc
  deriving DecidableEq, Repr

/-- A partition: its type and its name or device path. -/
structure Partition where
  type : PartitionType
  name : Text
  deriving DecidableEq, Repr

/-- The contents of a partition, and whether they are on the medium. -/
structure Device where
  data : Bytes
  synced : Bool
  deriving DecidableEq, Repr

/-- Everything that is stored. -/
structure Disk where
  files : Text → Option File
  devices : Partition → Device

namespace Disk

/-- The disk after a change of one file. -/
def setFile (disk : Disk) (path : Text) (file : Option File) : Disk :=
  { disk with files := Function.update disk.files path file }

/-- The disk after a change of one partition. -/
def setDevice (disk : Disk) (partition : Partition) (device : Device) : Disk :=
  { disk with devices := Function.update disk.devices partition device }

@[simp] theorem setFile_files_same (disk : Disk) (path : Text) (file : Option File) :
    (disk.setFile path file).files path = file := by
  simp [setFile]

theorem setFile_files_of_ne (disk : Disk) {path other : Text} (file : Option File)
    (different : other ≠ path) : (disk.setFile path file).files other = disk.files other := by
  simp [setFile, different]

@[simp] theorem setDevice_devices_same (disk : Disk) (partition : Partition) (device : Device) :
    (disk.setDevice partition device).devices partition = device := by
  simp [setDevice]

end Disk

/-- The storage operations of applypatch. -/
inductive Op where
  | stat (path : Text)
  | openRead (path : Text)
  /-- `fread` of `count` bytes from the start of a file. -/
  | readFile (path : Text) (count : Nat)
  /-- `open(path, O_WRONLY | O_CREAT | O_TRUNC, S_IRUSR | S_IWUSR)`. -/
  | create (path : Text)
  | write (path : Text) (data : Bytes)
  | fsync (path : Text)
  | chmod (path : Text) (mode : Nat)
  | chown (path : Text) (uid gid : Nat)
  | unlink (path : Text)
  | rename (path target : Text)
  | statfs (path : Text)
  /-- `opendir` and all calls of `readdir`. -/
  | readdir (path : Text)
  /-- The links of all `/proc/*/fd/*`. -/
  | openFiles
  /-- `mtd_find_partition_by_name` and `mtd_read_partition`, or `fopen` of the device. -/
  | openPartition (partition : Partition)
  /-- `mtd_read_data` or `fread`, at the offset that earlier reads have reached. -/
  | readPartition (partition : Partition) (offset count : Nat)
  /-- `mtd_find_partition_by_name` and `mtd_write_partition`, or `open(path, O_RDWR)`. -/
  | openWrite (partition : Partition)
  | mtdWriteData (partition : Partition) (data : Bytes)
  /-- `mtd_erase_blocks(ctx, -1)`, which first writes what is left of `data`. -/
  | mtdEraseBlocks (partition : Partition) (data : Bytes)
  | mtdWriteClose (partition : Partition)
  /-- `write` to a device at an offset. -/
  | writeDevice (partition : Partition) (offset : Nat) (data : Bytes)
  | fsyncDevice (partition : Partition)
  /-- `read` of a device for verification. -/
  | readDevice (partition : Partition) (offset count : Nat)
  | closeDevice (partition : Partition)
  deriving DecidableEq

inductive StatReply where
  | missing
  | failed
  | found (size : Nat) (st : Meta)
  deriving DecidableEq

/-- Result of `write` or `read` on a device; `interrupted` is `EINTR`. -/
inductive Transfer (α : Type) where
  | interrupted
  | failed
  | moved (what : α)
  deriving DecidableEq

/-- What an operation returns.  A call that only succeeds or fails returns a Boolean. -/
abbrev Reply : Op → Type
  | .stat _ => StatReply
  | .readFile _ _ => Bytes
  | .write _ _ => Int
  | .statfs _ => Nat
  | .readdir _ => Option (List Text)
  | .openFiles => Option (List Text)
  | .readPartition _ _ _ => Bytes
  | .mtdWriteData _ _ => Int
  | .writeDevice _ _ _ => Transfer Nat
  | .readDevice _ _ _ => Transfer Bytes
  | _ => Bool

instance : Inhabited StatReply := ⟨.missing⟩

instance {α : Type} : Inhabited (Transfer α) := ⟨.failed⟩

/-- Some reply, for operations that a program does not request. -/
instance (op : Op) : Inhabited (Reply op) := by
  cases op <;> infer_instance

/-- What the environment decides about an operation.  A choice that does not fit the
operation makes it fail. -/
inductive Choice where
  /-- The call does all it was asked. -/
  | ok
  | fail
  /-- The call fails with `EINTR`. -/
  | interrupted
  /-- The call transfers at most this many bytes, or reports this many as free. -/
  | amount (count : Nat)
  /-- A directory or the process list shows these names. -/
  | names (list : List Text)
  /-- The call succeeds and the device has stored these bytes. -/
  | stored (bytes : Bytes)
  /-- The call fails and the device holds these bytes. -/
  | broken (bytes : Bytes)
  deriving DecidableEq

/-- How much of `requested` a transfer moves. -/
def Choice.accepted (requested : Nat) : Choice → Nat
  | .ok => requested
  | .amount count => min count requested
  | _ => 0

/-- The part of a device from `offset` on, replaced by `bytes`. -/
def overwrite (data : Bytes) (offset : Nat) (bytes : Bytes) : Bytes :=
  data.take offset ++ bytes ++ data.drop (offset + bytes.length)

/-- `S_IRUSR | S_IWUSR`, of the user that runs the recovery. -/
def createdMeta : Meta := ⟨0o600, 0, 0⟩

/-- A change of the file at a path, where there is one. -/
def Disk.modify (disk : Disk) (path : Text) (change : File → File) : Disk :=
  disk.setFile path ((disk.files path).map change)

def perform : (op : Op) → Choice → Disk → Disk × Reply op
  | .stat path, choice, disk =>
    match choice, disk.files path with
    | .ok, some file => (disk, .found file.data.length file.st)
    | .ok, none => (disk, .missing)
    | _, _ => (disk, .failed)
  | .openRead path, choice, disk => (disk, choice = .ok ∧ (disk.files path).isSome)
  | .readFile path count, choice, disk =>
    (disk, ((disk.files path).elim [] File.data).take (choice.accepted count))
  | .create path, choice, disk =>
    if choice = .ok then
      (disk.setFile path (some ⟨[], false, (disk.files path).elim createdMeta File.st⟩), true)
    else (disk, false)
  | .write path data, choice, disk =>
    if choice.accepted data.length = 0 then (disk, if choice = .fail then -1 else 0)
    else
      (disk.modify path fun file =>
        { file with data := file.data ++ data.take (choice.accepted data.length), synced := false },
      choice.accepted data.length)
  | .fsync path, choice, disk =>
    if choice = .ok then (disk.modify path fun file => { file with synced := true }, true)
    else (disk, false)
  | .chmod path mode, choice, disk =>
    if choice = .ok then
      (disk.modify path fun file => { file with st := { file.st with mode := mode } }, true)
    else (disk, false)
  | .chown path uid gid, choice, disk =>
    if choice = .ok then
      (disk.modify path fun file => { file with st := { file.st with uid := uid, gid := gid } }, true)
    else (disk, false)
  | .unlink path, choice, disk =>
    if choice = .ok then (disk.setFile path none, (disk.files path).isSome) else (disk, false)
  | .rename path target, choice, disk =>
    match choice, disk.files path with
    | .ok, some file => ((disk.setFile path none).setFile target (some file), true)
    | _, _ => (disk, false)
  | .statfs _, choice, disk =>
    match choice with
    | .amount free => (disk, free % 2 ^ 32)
    | _ => (disk, 2 ^ 32 - 1)
  | .readdir _, choice, disk =>
    match choice with
    | .names list => (disk, some (list.filter fun name => '/' ∉ name))
    | _ => (disk, none)
  | .openFiles, choice, disk =>
    match choice with
    | .names list => (disk, some list)
    | _ => (disk, none)
  | .openPartition _, choice, disk => (disk, choice = .ok)
  | .readPartition partition offset count, choice, disk =>
    (disk, ((disk.devices partition).data.drop offset).take (choice.accepted count))
  | .openWrite _, choice, disk => (disk, choice = .ok)
  | .mtdWriteData partition data, choice, disk =>
    match choice with
    | .stored bytes => (disk.setDevice partition ⟨bytes, true⟩, data.length)
    | .broken bytes => (disk.setDevice partition ⟨bytes, true⟩, -1)
    | _ => (disk, -1)
  | .mtdEraseBlocks partition data, choice, disk =>
    match choice with
    | .stored bytes => (disk.setDevice partition ⟨data ++ bytes, true⟩, true)
    | .broken bytes => (disk.setDevice partition ⟨bytes, true⟩, false)
    | _ => (disk, false)
  | .mtdWriteClose partition, choice, disk =>
    match choice with
    | .broken bytes => (disk.setDevice partition ⟨bytes, true⟩, false)
    | _ => (disk, choice = .ok)
  | .writeDevice partition offset data, choice, disk =>
    let device := disk.devices partition
    match choice with
    | .interrupted => (disk, .interrupted)
    | .stored bytes =>
      let bytes := bytes.take data.length
      (disk.setDevice partition ⟨overwrite device.data offset bytes, false⟩, .moved bytes.length)
    | .ok => (disk.setDevice partition ⟨overwrite device.data offset data, false⟩, .moved data.length)
    | .amount count =>
      let bytes := data.take count
      (disk.setDevice partition ⟨overwrite device.data offset bytes, false⟩, .moved bytes.length)
    | _ => (disk, .failed)
  | .fsyncDevice partition, choice, disk =>
    if choice = .ok then
      (disk.setDevice partition { disk.devices partition with synced := true }, true)
    else (disk, false)
  | .readDevice partition offset count, choice, disk =>
    match choice with
    | .interrupted => (disk, .interrupted)
    | .fail => (disk, .failed)
    | choice =>
      (disk, .moved (((disk.devices partition).data.drop offset).take (choice.accepted count)))
  | .closeDevice _, choice, disk => (disk, choice = .ok)

abbrev storage : Machine Op Reply where
  Choice := Choice
  State := Disk
  perform := perform

/-- What a power cut leaves: objects whose bytes are on the medium are unchanged, the
others may hold anything, and nothing is pending any more. -/
structure PowerCut (disk after : Disk) : Prop where
  file : ∀ path file, disk.files path = some file → file.synced = true →
    after.files path = some file
  gone : ∀ path, disk.files path = none → after.files path = none
  device : ∀ partition, (disk.devices partition).synced = true →
    after.devices partition = disk.devices partition
  filesSynced : ∀ path file, after.files path = some file → file.synced = true
  devicesSynced : ∀ partition, (after.devices partition).synced = true

end PhilzTouch.ApplyPatch
