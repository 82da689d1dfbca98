import PhilzTouch.Dedupe.Manifest

/-!
# Directory trees

What `readdir`, `lstat`, `readlink` and `read` find below a directory.  A directory is
the list of its entries in the order in which `readdir` returns them, without `.` and
`..`.
-/

namespace PhilzTouch.Dedupe

instance neZero_modes : NeZero 0o10000 := ⟨by decide⟩

/-- The fields of `struct stat` that a manifest keeps; `mode` is `st_mode & 07777`. -/
structure Stat where
  mode : Fin 0o10000
  uid : UInt32
  gid : UInt32
  atime : UInt32
  mtime : UInt32
  ctime : UInt32
  deriving DecidableEq, Repr

/-- A directory entry: its name, what `lstat` says, and its security label if it has
one. -/
structure Entry where
  name : Bytes
  st : Stat
  label : Option Bytes
  deriving DecidableEq, Repr

/-- The entries of a directory. -/
inductive Dir where
  | empty
  /-- A regular file, and the entries behind it. -/
  | file (entry : Entry) (content : Bytes) (rest : Dir)
  /-- A symbolic link. -/
  | link (entry : Entry) (target : Bytes) (rest : Dir)
  /-- A directory with its own entries. -/
  | dir (entry : Entry) (entries rest : Dir)
  /-- A device, a socket or a pipe. -/
  | special (entry : Entry) (rest : Dir)
  deriving DecidableEq, Repr

/-- `sprintf(full_path, "%s/%s", d, ep->d_name)`. -/
def join (d name : Bytes) : Bytes := d ++ slash :: name

/-- The paths of all entries below the directory at `d`. -/
def Dir.paths (d : Bytes) : Dir → List Bytes
  | empty => []
  | file entry _ rest => join d entry.name :: rest.paths d
  | link entry _ rest => join d entry.name :: rest.paths d
  | dir entry entries rest =>
    join d entry.name :: (entries.paths (join d entry.name) ++ rest.paths d)
  | special entry rest => join d entry.name :: rest.paths d

/-- The paths of the entries below the directory at `d` that are not directories. -/
def Dir.leaves (d : Bytes) : Dir → List Bytes
  | empty => []
  | file entry _ rest => join d entry.name :: rest.leaves d
  | link entry _ rest => join d entry.name :: rest.leaves d
  | dir entry entries rest => entries.leaves (join d entry.name) ++ rest.leaves d
  | special entry rest => join d entry.name :: rest.leaves d

end PhilzTouch.Dedupe
