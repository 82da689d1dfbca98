import PhilzTouch.Lib.CText

/-!
# Wiping by removing files

`rmtree_except` of `roots.c`, and the three functions that wipe a path with it or have it formatted,
for all calls that may fail.  What `rmtree_except` returns is dropped.
-/

namespace PhilzTouch.Recovery

open List

/-- Which of the calls on an entry work; the last is `rmdir` or `unlink`. -/
structure Works where
  lstat : Bool
  opendir : Bool
  remove : Bool
deriving DecidableEq

/-- The entries that `readdir` gives, apart from `"."` and `".."`. -/
inductive Entries where
  | nil
  | cons (name : Bytes) (isDir : Bool) (works : Works) (inner rest : Entries)
deriving DecidableEq

def Entries.names : Entries → List Bytes
  | nil => []
  | cons name _ _ _ rest => name :: rest.names

/-- The loop of `rmtree_except`: `rc` and the entries that it leaves. -/
def removeEntries (except : Option Bytes) : Entries → Int × Entries
  | .nil => (0, .nil)
  | .cons name isDir works inner rest =>
    let below :=
      if isDir then if works.opendir then removeEntries none inner else (-1, inner) else (0, inner)
    if except = some name then
      ((removeEntries except rest).1, .cons name isDir works inner (removeEntries except rest).2)
    else if works.lstat = false then (-1, .cons name isDir works inner rest)
    else if below.1 ≠ 0 then (below.1, .cons name isDir works below.2 rest)
    else if works.remove = false then (-1, .cons name isDir works below.2 rest)
    else removeEntries except rest

/-- The functions that format a whole device. -/
inductive Formatter where
  | flash
  | ext2
  | ext3
  | ext4
  | f2fs
  | mtd
  | rfs
  | vold
  | voldCustom

structure Volume where
  mountPoint : Bytes
  fsType : Bytes
  voldManaged : Bool
  /-- `stat` of its block device works. -/
  blkDevice : Bool

/-- What the functions ask the system for. -/
structure Roots where
  volumeForPath : Bytes → Option Volume
  isDataMediaVolumePath : Bytes → Bool
  isDataMedia : Bool
  isDataMediaPreserved : Bool
  ensurePathMounted : Bytes → Bool
  ensurePathUnmounted : Bytes → Bool
  opendir : Bytes → Bool
  /-- `get_flash_type` knows the type. -/
  flashType : Bytes → Bool
  /-- `USE_F2FS` is defined. -/
  useF2fs : Bool
  /-- What is returned after a formatter has been called. -/
  format : Formatter → Int

/-- What a wipe returns, and, if it does not leave the path to a formatter, the old entries that
are left.  The new `.layout_version` is not among them. -/
inductive Wipe where
  | formatted (result : Int)
  | removed (result : Int) (left : Entries)
deriving DecidableEq

variable (roots : Roots) (path : Bytes) (entries : Entries)

def Roots.preserves : Bool :=
  path = ascii "/data" && roots.isDataMedia && roots.isDataMediaPreserved

def Roots.except : Option Bytes := if roots.preserves path then some (ascii "media") else none

/-- It is `"/sd-ext"`, for which there is no device. -/
def Roots.missing : Bool :=
  path = ascii "/sd-ext" && !(roots.volumeForPath path).any Volume.blkDevice

def formatUnknownDevice (fsType : Option Bytes) : Wipe :=
  if fsType.any roots.flashType then .formatted (roots.format .flash)
  else if roots.missing path then .removed 0 entries
  else if fsType = some (ascii "ext3") then
    .formatted (if roots.ensurePathUnmounted path then roots.format .ext3 else -12)
  else if fsType = some (ascii "ext2") then
    .formatted (if roots.ensurePathUnmounted path then roots.format .ext2 else -12)
  else if roots.ensurePathMounted path = false then .removed (-1) entries
  else if roots.opendir path = false then .removed 0 entries
  else .removed 0 (removeEntries (roots.except path) entries).2

/-- The formatter for a type that is not left to `format_unknown_device`. -/
def Roots.formatter (fsType : Bytes) : Option Formatter :=
  if fsType = ascii "yaffs2" ∨ fsType = ascii "mtd" then some .mtd
  else if fsType = ascii "ext4" then some .ext4
  else if roots.useF2fs ∧ fsType = ascii "f2fs" then some .f2fs
  else none

/-- What `format_volume` and `format_device` share. -/
def formatWith (refuses : Volume → Bool) (fsType : Volume → Bytes)
    (formatter : Volume → Option Formatter) : Wipe :=
  if roots.isDataMediaVolumePath path then formatUnknownDevice roots path entries none
  else match roots.volumeForPath path with
    | none => .formatted (-1)
    | some volume =>
      if refuses volume then .formatted (-1)
      else if fsType volume = ascii "ramdisk" then .formatted (-1)
      else if volume.mountPoint ≠ path ∨ roots.preserves path then
        formatUnknownDevice roots path entries none
      else if roots.ensurePathUnmounted path = false then .formatted (-1)
      else match formatter volume with
        | some formatter => .formatted (roots.format formatter)
        | none => formatUnknownDevice roots path entries (some (fsType volume))

def formatVolume : Wipe :=
  formatWith roots path entries (fun volume => path = ascii "/sd-ext" && !volume.blkDevice)
    Volume.fsType fun volume =>
      if volume.voldManaged then some (if volume.fsType = ascii "auto" then .vold else .voldCustom)
      else roots.formatter volume.fsType

def formatDevice (fsType : Bytes) : Wipe :=
  formatWith roots path entries (fun _ => false) (fun _ => fsType) fun _ =>
    if fsType = ascii "rfs" then some .rfs else roots.formatter fsType

/-- All calls work on the entries other than the one to keep. -/
def Entries.Removable (except : Option Bytes) : Entries → Prop
  | nil => True
  | cons name isDir works inner rest =>
    (except = some name ∨ works.lstat = true ∧ works.remove = true ∧
      (isDir = true → works.opendir = true ∧ inner.Removable none)) ∧ rest.Removable except

/-- Only the entry to keep is there. -/
def Entries.Only (except : Option Bytes) (entries : Entries) : Prop :=
  ∀ name ∈ entries.names, except = some name

theorem removeEntries_iff (except : Option Bytes) (entries : Entries) :
    ((removeEntries except entries).1 = 0 ↔ entries.Removable except) ∧
      ((removeEntries except entries).2.Only except ↔ entries.Removable except) := by
  induction entries generalizing except with
  | nil => exact ⟨iff_of_true rfl trivial, iff_of_true nofun trivial⟩
  | cons name isDir works inner rest ihInner ihRest =>
    obtain ⟨zero, only⟩ := ihRest except
    rw [removeEntries, Entries.Removable]
    by_cases kept : except = some name
    · simp only [kept, true_or, true_and]
      rw [kept] at zero only
      refine ⟨zero, Iff.trans ?_ only⟩
      exact ⟨fun all => (forall_mem_cons.mp all).2, fun all => forall_mem_cons.mpr ⟨rfl, all⟩⟩
    obtain ⟨below, same, worked⟩ : ∃ below, (if isDir then
          if works.opendir then removeEntries none inner else (-1, inner)
        else (0, inner)) = below ∧
        (below.1 = 0 ↔ (isDir = true → works.opendir = true ∧ inner.Removable none)) := by
      refine ⟨_, rfl, ?_⟩
      rw [← (ihInner none).1]
      split <;> [split; skip] <;> simp_all
    have stays : ∀ {left rest}, ¬ (Entries.cons name isDir works left rest).Only except :=
      fun all => kept (all name mem_cons_self)
    rw [if_neg kept, same, ← worked]
    -- each failure leaves the entry, and the loop with it
    split
    next fails => simp [stays, kept, fails]
    split
    next fails => simp [stays, kept, fails]
    split
    next fails => simp [stays, kept, fails]
    next lstat below remove => simp_all

/-- Removing files and returning 0 leaves only the entry to keep. -/
def Wipe.Complete (except : Option Bytes) : Wipe → Prop
  | formatted _ => True
  | removed result left => result = 0 → left.Only except

/-- All calls work in a directory that is mounted and opened, and nothing is to be removed from one
that is not there or not opened. -/
def Cleanable : Prop :=
  if roots.missing path then entries.Only (roots.except path)
  else roots.ensurePathMounted path = true →
    if roots.opendir path then entries.Removable (roots.except path)
    else entries.Only (roots.except path)

/-- The wipe is complete just if it does not remove files or all of it works. -/
def CompleteIff (wipe : Wipe) : Prop :=
  wipe.Complete (roots.except path) ↔
    (∃ result, wipe = .formatted result) ∨ Cleanable roots path entries

variable {roots path entries}

theorem CompleteIff.formatted (result : Int) : CompleteIff roots path entries (.formatted result) :=
  iff_of_true trivial (.inl ⟨result, rfl⟩)

theorem CompleteIff.removed {result : Int} {left : Entries}
    (same : (result = 0 → left.Only (roots.except path)) ↔ Cleanable roots path entries) :
    CompleteIff roots path entries (.removed result left) :=
  same.trans ⟨.inr, fun either => either.resolve_left nofun⟩

theorem formatUnknownDevice_completeIff (fsType : Option Bytes) :
    CompleteIff roots path entries (formatUnknownDevice roots path entries fsType) := by
  have gone := (removeEntries_iff (roots.except path) entries).2
  unfold formatUnknownDevice
  split
  · exact .formatted _
  split
  next missing => exact .removed (by simp [Cleanable, missing])
  next there =>
  split
  · exact .formatted _
  split
  · exact .formatted _
  split
  next unmounted => exact .removed (by simp [Cleanable, there, unmounted])
  next mounted =>
  split
  next closed => exact .removed (by simp [Cleanable, there, mounted, closed])
  next opened => exact .removed (by simp [Cleanable, there, mounted, opened, gone])

theorem formatWith_completeIff (refuses : Volume → Bool) (fsType : Volume → Bytes)
    (formatter : Volume → Option Formatter) :
    CompleteIff roots path entries (formatWith roots path entries refuses fsType formatter) := by
  unfold formatWith
  repeat' split
  all_goals first | exact .formatted _ | exact formatUnknownDevice_completeIff _

/-- A wipe that removes files and reports success is complete just if all calls work in a directory
that is opened, and nothing is to be removed from one that is not. -/
theorem wipe_complete_iff (roots : Roots) (path : Bytes) (entries : Entries) :
    (∀ fsType, CompleteIff roots path entries (formatUnknownDevice roots path entries fsType)) ∧
      CompleteIff roots path entries (formatVolume roots path entries) ∧
      ∀ fsType, CompleteIff roots path entries (formatDevice roots path entries fsType) :=
  ⟨formatUnknownDevice_completeIff, formatWith_completeIff _ _ _,
    fun _ => formatWith_completeIff _ _ _⟩

/-- A volume of the type `"auto"`, and calls that all work. -/
def sampleRoots : Roots where
  volumeForPath := fun path => some ⟨path, ascii "auto", false, true⟩
  isDataMediaVolumePath := fun _ => false
  isDataMedia := false
  isDataMediaPreserved := false
  ensurePathMounted := fun _ => true
  ensurePathUnmounted := fun _ => true
  opendir := fun _ => true
  flashType := fun _ => false
  useF2fs := false
  format := fun _ => 0

/-- A file that cannot be removed stays, and each of the functions returns 0. -/
theorem wipe_leaves_file :
    let path := ascii "/cache"
    let file : Entries := .cons [97] false ⟨true, true, false⟩ .nil .nil
    formatUnknownDevice sampleRoots path file none = .removed 0 file ∧
      formatVolume sampleRoots path file = .removed 0 file ∧
      formatDevice sampleRoots path file (ascii "auto") = .removed 0 file ∧
      ¬ (Wipe.removed 0 file).Complete (sampleRoots.except path) :=
  ⟨by decide, by decide, by decide, fun all => nomatch all rfl [97] mem_cons_self⟩

end PhilzTouch.Recovery
