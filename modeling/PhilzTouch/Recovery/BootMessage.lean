import PhilzTouch.Lib.CText
import PhilzTouch.Lib.Overwrite
import PhilzTouch.Lib.Split

/-!
# The boot control block

`get_args` of `recovery.c` reads and rewrites the whole block at the beginning of the misc
partition; `set_stage` and `get_stage` of the updater address one field of it.  All of them can
be told to begin at an offset.  Input and output succeed here.
-/

namespace PhilzTouch.Recovery

open List Places

/-! ## The block -/

structure BootloaderMessage where
  command : Bytes
  status : Bytes
  recovery : Bytes
  stage : Bytes
  reserved : Bytes

namespace BootloaderMessage

def ofBytes (block : Bytes) : BootloaderMessage :=
  ⟨block.slice 0 32, block.slice 32 32, block.slice 64 768, block.slice 832 32, block.slice 864 224⟩

def bytes (message : BootloaderMessage) : Bytes :=
  message.command ++ (message.status ++ (message.recovery ++ (message.stage ++ message.reserved)))

/-- The fields have their sizes. -/
def Formed (message : BootloaderMessage) : Prop :=
  message.command.length = 32 ∧ message.status.length = 32 ∧ message.recovery.length = 768 ∧
    message.stage.length = 32 ∧ message.reserved.length = 224

theorem formed_ofBytes {block : Bytes} (size : block.length = 1088) : (ofBytes block).Formed := by
  simp only [ofBytes, Formed, Bytes.length_slice]
  omega

variable {message : BootloaderMessage}

theorem Formed.length_bytes (formed : message.Formed) : message.bytes.length = 1088 := by
  obtain ⟨command, status, recovery, stage, reserved⟩ := formed
  simp only [bytes, length_append]
  omega

theorem Formed.ofBytes_bytes (formed : message.Formed) : ofBytes message.bytes = message := by
  obtain ⟨command, status, recovery, stage, reserved⟩ := formed
  obtain ⟨_, _, _, _, _⟩ := message
  dsimp only at *
  simp (disch := omega) [ofBytes, bytes, Bytes.slice, drop_append, take_of_length_le,
    drop_of_length_le, *]

end BootloaderMessage

variable (offset : Nat) (misc : Bytes)

def getBootloaderMessageBlock : BootloaderMessage := .ofBytes (misc.slice offset 1088)

def setBootloaderMessageBlock (message : BootloaderMessage) : Bytes :=
  write misc offset message.bytes

def setStage (stagestr : Bytes) : Bytes :=
  let written := if 32 < stagestr.length + 1 then stagestr.take 31 else stagestr
  write misc (offset + 832) (written ++ [0])

def getStage : Bytes := cString ((misc.slice (offset + 832) 32).set 31 0)

/-! ## The arguments -/

/-- `strlcat` to a field: as much as fits behind the string in it. -/
def strlcat (field src : Bytes) : Bytes :=
  if field.length ≤ (cString field).length then field
  else write field 0 ((cString field ++ src).take (field.length - 1) ++ [0])

def strlcpy (field src : Bytes) : Bytes := strlcat (field.set 0 0) src

/-- What `strtok` leaves of a field: the line ends behind the first tokens become NUL. -/
def marked : (count : Nat) → (inside : Bool) → Bytes → Bytes
  | _, _, [] => []
  | count, inside, char :: rest =>
    if count = 0 ∨ char = 0 then char :: rest
    else if char ≠ newline then char :: marked count true rest
    else if inside then 0 :: marked (count - 1) false rest
    else char :: marked count false rest

/-- What else `get_args` looks at: the command line, whether there is a file that makes it ignore
the message, and the command file. -/
structure Boot where
  argv : List Bytes
  ignore : Bool
  commandFile : Option Bytes

/-- The first token of a line of the command file. -/
def commandToken (line : Bytes) : Option Bytes :=
  let ends (char : UInt8) : Bool := char = newline || char = byte '\r'
  let token := ((cString line).dropWhile ends).takeWhile (!ends ·)
  if token = [] then none else some token

def commandArgs (text : Bytes) : List Bytes :=
  ((pieces newline 4095 text).filterMap commandToken).take 99

/-- The arguments in the message, and what is left of its field. -/
def messageArgs (boot : Boot) (field : Bytes) : List Bytes × Bytes :=
  if 1 < boot.argv.length ∨ boot.ignore then (boot.argv, field)
  else
    let field := field.set 767 0
    let found := tokens newline (cString field)
    if found.head? = some (ascii "recovery") then (found.take 100, marked 100 false field)
    else (boot.argv, marked 1 false field)

/-- The arguments are written back to the field. -/
def recoveryField (field : Bytes) (args : List Bytes) : Bytes :=
  args.foldl (fun field arg => strlcat (strlcat field arg) [newline])
    (strlcpy field (ascii "recovery\n"))

/-- The arguments, and the message with them. -/
def updated (boot : Boot) (message : BootloaderMessage) : List Bytes × BootloaderMessage :=
  let given := messageArgs boot message.recovery
  let argv :=
    match boot.commandFile with
    | none => given.1
    | some text => if given.1.length ≤ 1 then given.1.take 1 ++ commandArgs text else given.1
  (argv,
    { message with
      command := strlcpy message.command (ascii "boot-recovery")
      recovery := recoveryField given.2 (argv.drop 1) })

/-- `get_args`: the arguments, and the misc partition behind it. -/
def getArgs (boot : Boot) : List Bytes × Bytes :=
  let result := updated boot (getBootloaderMessageBlock offset misc)
  (result.1, setBootloaderMessageBlock offset misc result.2)

/-! ## Lengths of fields -/

theorem length_strlcat (field src : Bytes) : (strlcat field src).length = field.length := by
  rw [strlcat]
  split
  · rfl
  · refine length_write ?_
    rw [length_append, length_take, length_singleton]
    omega

theorem length_strlcpy (field src : Bytes) : (strlcpy field src).length = field.length := by
  rw [strlcpy, length_strlcat, length_set]

theorem length_marked (count : Nat) (inside : Bool) (field : Bytes) :
    (marked count inside field).length = field.length := by
  induction field generalizing count inside with
  | nil => rfl
  | cons char rest ih =>
    rw [marked]
    split
    · rfl
    split
    · rw [length_cons, length_cons, ih]
    split <;> rw [length_cons, length_cons, ih]

theorem length_messageArgs (boot : Boot) (field : Bytes) :
    (messageArgs boot field).2.length = field.length := by
  rw [messageArgs]
  split
  · rfl
  dsimp only
  split <;> rw [length_marked, length_set]

theorem length_recoveryField (field : Bytes) (args : List Bytes) :
    (recoveryField field args).length = field.length := by
  rw [recoveryField, ← length_strlcpy field (ascii "recovery\n")]
  generalize strlcpy field (ascii "recovery\n") = start
  induction args generalizing start with
  | nil => rfl
  | cons arg args ih => rw [foldl_cons, ih, length_strlcat, length_strlcat]

variable {message : BootloaderMessage}

theorem formed_updated (formed : message.Formed) (boot : Boot) :
    (updated boot message).2.Formed := by
  obtain ⟨command, status, recovery, stage, reserved⟩ := formed
  exact ⟨(length_strlcpy _ _).trans command, status,
    (length_recoveryField _ _).trans ((length_messageArgs _ _).trans recovery), stage, reserved⟩

/-! ## The block on the partition -/

variable {offset misc}

theorem getStage_eq (offset : Nat) (misc : Bytes) :
    getStage offset misc = cString ((getBootloaderMessageBlock offset misc).stage.set 31 0) := by
  rw [getStage, Bytes.slice, ← drop_drop, ← Bytes.slice,
    ← Bytes.slice_take _ (show 832 + 32 ≤ 1088 by decide)]
  rfl

section

variable (inside : offset + 1088 ≤ misc.length)

include inside

theorem getBootloaderMessageBlock_set (formed : message.Formed) :
    (setBootloaderMessageBlock offset misc message).length = misc.length ∧
      getBootloaderMessageBlock offset (setBootloaderMessageBlock offset misc message) = message := by
  have size := formed.length_bytes
  have fits : offset + message.bytes.length ≤ misc.length := by rwa [size]
  refine ⟨length_write fits, ?_⟩
  rw [getBootloaderMessageBlock, setBootloaderMessageBlock, Bytes.slice, ← size,
    read_write fits, formed.ofBytes_bytes]

theorem formed_get : (getBootloaderMessageBlock offset misc).Formed := by
  refine BootloaderMessage.formed_ofBytes ?_
  rw [Bytes.length_slice]
  omega

theorem get_getArgs (boot : Boot) : (getArgs offset misc boot).2.length = misc.length ∧
      getBootloaderMessageBlock offset (getArgs offset misc boot).2 =
        (updated boot (getBootloaderMessageBlock offset misc)).2 :=
  getBootloaderMessageBlock_set inside (formed_updated (formed_get inside) boot)

/-! ## The stage -/

theorem getStage_setStage {stagestr : Bytes}
    (short : stagestr.length ≤ 31) (nulFree : 0 ∉ stagestr) :
    getStage offset (write misc (offset + 832) (stagestr ++ [0])) = stagestr := by
  have front : (misc.take (offset + 832)).length = offset + 832 := length_take_of_le (by omega)
  rw [getStage, Bytes.slice, write, append_assoc, drop_left' front, append_assoc,
    singleton_append, take_append, take_of_length_le (by omega), set_append_right _ _ short]
  cases known : 32 - stagestr.length with
  | zero => omega
  | succ count =>
    rw [take_succ_cons]
    cases 31 - stagestr.length with
    | zero => exact cString_append nulFree _
    | succ => exact cString_append nulFree _

end

/-- What `set_stage` stores is found again, however often `get_args` rewrites the block, and
nothing but the field of the stage is changed. -/
theorem stage_persists (inside : offset + 1088 ≤ misc.length) {stagestr : Bytes}
    (nulFree : 0 ∉ stagestr) (boots : List Boot) :
    getStage offset (setStage offset misc stagestr) = stagestr.take 31 ∧
      (setStage offset misc stagestr).length = misc.length ∧
      (∀ index, ¬ (offset + 832 ≤ index ∧ index < offset + 864) →
        (setStage offset misc stagestr)[index]? = misc[index]?) ∧
      getStage offset (boots.foldl (fun misc boot => (getArgs offset misc boot).2)
        (setStage offset misc stagestr)) = stagestr.take 31 := by
  have written : (if 32 < stagestr.length + 1 then stagestr.take 31 else stagestr) =
      stagestr.take 31 := by
    split
    · rfl
    · rw [take_of_length_le (by omega)]
  have short : (stagestr.take 31).length ≤ 31 := length_take_le _ _
  have fits : offset + 832 + (stagestr.take 31 ++ [0]).length ≤ misc.length := by
    rw [length_append, length_singleton]
    omega
  have kept := length_write fits
  have stored := getStage_setStage inside short fun member => nulFree (mem_of_mem_take member)
  rw [setStage, written]
  refine ⟨stored, kept, ?_, ?_⟩
  · intro index outside
    rw [length_append, length_singleton] at fits
    rw [getElem?_write (by simpa using fits), if_neg (by simp; omega)]
  generalize write misc (offset + 832) (stagestr.take 31 ++ [0]) = after at stored kept
  -- each boot keeps the length of the partition, so that the next one can read the block
  induction boots generalizing after with
  | nil => exact stored
  | cons boot boots ih =>
    have keeps := get_getArgs (show offset + 1088 ≤ after.length by omega) boot
    refine ih _ ?_ (keeps.1.trans kept)
    rw [← stored, getStage_eq, keeps.2, getStage_eq]
    rfl

/-- A partition that is in use, and a boot with a command file. -/
theorem stage_persists_booted :
    getStage 4 (setStage 4 (replicate 1100 45) (ascii "2/3")) = ascii "2/3" ∧
      getStage 4 (getArgs 4 (setStage 4 (replicate 1100 45) (ascii "2/3"))
        ⟨[[]], false, some (ascii "--wipe_data")⟩).2 = ascii "2/3" := by
  obtain ⟨stored, -, -, kept⟩ := @stage_persists 4 (replicate 1100 45)
    (by rw [length_replicate]; decide) (ascii "2/3") (by decide)
    [⟨[[]], false, some (ascii "--wipe_data")⟩]
  exact ⟨stored, kept⟩

/-! ## Boots after the first one -/

/-- What `get_args` means to store. -/
def bootText (args : List Bytes) : Bytes := ascii "recovery\n" ++ args.flatMap (· ++ [newline])

theorem cString_strlcat {field src : Bytes} (nulFree : 0 ∉ cString field ++ src)
    (ended : (cString field).length < field.length) :
    cString (strlcat field src) = (cString field ++ src).take (field.length - 1) := by
  rw [strlcat, if_neg (not_le.mpr ended), write, take_zero, nil_append, append_assoc]
  exact cString_append (fun zero => nulFree (mem_of_mem_take zero)) _

theorem take_take_append (limit : Nat) (first second : Bytes) :
    (first.take limit ++ second).take limit = (first ++ second).take limit := by
  rw [take_append, take_append, take_take, Nat.min_self, length_take,
    show limit - min limit first.length = limit - first.length by omega]

variable {args : List Bytes} {field : Bytes}

/-- The field gets as much of the text as there is room for. -/
theorem cString_recoveryField (nulFree : ∀ arg ∈ args, 0 ∉ arg) (nonempty : 0 < field.length) :
    cString (recoveryField field args) = (bootText args).take (field.length - 1) := by
  have start : cString (field.set 0 0) = [] := by
    cases field with
    | nil => cases nonempty
    | cons => rfl
  have begun : cString (strlcpy field (ascii "recovery\n")) =
      (ascii "recovery\n").take (field.length - 1) := by
    rw [strlcpy, cString_strlcat, start, nil_append, length_set]
    · rw [start]
      decide
    · rwa [start, length_set]
  have clean : 0 ∉ ascii "recovery\n" := by decide
  rw [← length_strlcpy field (ascii "recovery\n")] at begun nonempty ⊢
  rw [recoveryField, bootText]
  generalize strlcpy field (ascii "recovery\n") = field at *
  generalize ascii "recovery\n" = text at *
  induction args generalizing field text with
  | nil => rwa [flatMap_nil, append_nil]
  | cons arg args ih =>
    obtain ⟨first, others⟩ := forall_mem_cons.mp nulFree
    have clean' : 0 ∉ text ++ arg ++ [newline] := by simp [clean, first, newline, byte]
    have more : ∀ {field text src : Bytes}, 0 < field.length → 0 ∉ text ++ src →
        cString field = text.take (field.length - 1) →
        cString (strlcat field src) = (text ++ src).take (field.length - 1) := by
      intro field text src nonempty clean begun
      rw [cString_strlcat, begun, take_take_append]
      · rw [begun]
        exact fun zero => clean ((take_sublist _ _).append_right src |>.mem zero)
      · rw [begun, length_take]
        omega
    have next := more nonempty (fun zero => clean' (mem_append_left _ zero)) begun
    rw [← length_strlcat field arg] at next nonempty
    have last := more nonempty clean' next
    rw [← length_strlcat _ [newline]] at last nonempty
    have rest := ih others _ nonempty _ clean' last
    rw [foldl_cons, flatMap_cons, ← append_assoc, ← append_assoc]
    rwa [length_strlcat, length_strlcat] at rest

theorem cString_set {index : Nat} (behind : (cString field).length ≤ index) :
    cString (field.set index 0) = cString field := by
  have nulFree : 0 ∉ cString field := fun member => by simpa using mem_takeWhile_imp member
  have split : cString field ++ field.dropWhile (· ≠ 0) = field := takeWhile_append_dropWhile
  conv_lhs => rw [← split, set_append_right _ _ behind]
  cases known : field.dropWhile (· ≠ 0) with
  | nil => rw [set_nil, append_nil, cString_eq_self nulFree]
  | cons char rest =>
    have ended := head?_dropWhile_not (· ≠ (0 : UInt8)) field
    rw [known] at ended
    obtain rfl : char = 0 := by simpa using ended
    cases index - (cString field).length with
    | zero => exact cString_append nulFree _
    | succ => exact cString_append nulFree _

theorem tokens_lines (clean : ∀ arg ∈ args, arg ≠ [] ∧ newline ∉ arg) (rest : Bytes) :
    tokens newline (args.flatMap (· ++ [newline]) ++ rest) = args ++ tokens newline rest := by
  induction args with
  | nil => rfl
  | cons arg args ih =>
    obtain ⟨⟨some, absent⟩, others⟩ := forall_mem_cons.mp clean
    rw [flatMap_cons, append_assoc, append_assoc, singleton_append, tokens_append,
      tokens_of_notMem some absent, ih others, singleton_append, cons_append]

variable (text : Bytes)

theorem commandToken_clean {line token : Bytes} (found : commandToken line = some token) :
    (token ≠ [] ∧ newline ∉ token) ∧ 0 ∉ token := by
  rw [commandToken] at found
  split at found
  · cases found
  next nonempty =>
  cases found
  refine ⟨⟨nonempty, fun member => ?_⟩, fun member => ?_⟩
  · simpa using mem_takeWhile_imp member
  · have inside := (dropWhile_sublist _).mem ((takeWhile_sublist _).mem member)
    simpa using mem_takeWhile_imp inside

theorem commandArgs_clean :
    (∀ arg ∈ commandArgs text, arg ≠ [] ∧ newline ∉ arg) ∧ (∀ arg ∈ commandArgs text, 0 ∉ arg) ∧
      (commandArgs text).length ≤ 99 := by
  have each {arg : Bytes} (member : arg ∈ commandArgs text) :
      (arg ≠ [] ∧ newline ∉ arg) ∧ 0 ∉ arg := by
    obtain ⟨line, -, found⟩ := mem_filterMap.mp (mem_of_mem_take member)
    exact commandToken_clean found
  exact ⟨fun _ member => (each member).1, fun _ member => (each member).2, length_take_le _ _⟩

/-- A boot without arguments on the command line. -/
def Boot.Plain (boot : Boot) : Prop := boot.argv.length = 1 ∧ boot.ignore = false

/-- Boots without arguments of their own get those of a first one, however many of them follow it
and whatever their command files are. -/
def Restartable (offset : Nat) (misc : Bytes) (boot : Boot) : Prop :=
  ∀ later : List Boot, (∀ boot ∈ later, boot.Plain) → ∀ last : Boot, last.Plain →
    (getArgs offset (later.foldl (fun misc boot => (getArgs offset misc boot).2)
      (getArgs offset misc boot).2) last).1.drop 1 = (getArgs offset misc boot).1.drop 1

variable {text} {message : BootloaderMessage} {boot : Boot} (plain : boot.Plain)

include plain

theorem messageArgs_plain (short : (cString field).length ≤ 767) : (messageArgs boot field).1 =
      if (tokens newline (cString field)).head? = some (ascii "recovery") then
        (tokens newline (cString field)).take 100 else boot.argv := by
  rw [messageArgs, if_neg (by simp [plain.1, plain.2])]
  dsimp only
  rw [cString_set short]
  split <;> rfl

theorem updated_blank (blank : cString message.recovery = []) (file : boot.commandFile = some text) :
    (updated boot message).1.drop 1 = commandArgs text := by
  have given : (messageArgs boot message.recovery).1 = boot.argv := by
    rw [messageArgs_plain plain (by rw [blank]; exact Nat.zero_le _), blank]
    rfl
  obtain ⟨program, single⟩ := length_eq_one_iff.mp plain.1
  simp [updated, given, file, single]

omit plain in
theorem tokens_bootText (clean : ∀ arg ∈ args, arg ≠ [] ∧ newline ∉ arg) :
    tokens newline (bootText args) = ascii "recovery" :: args := by
  have all := @tokens_lines (ascii "recovery" :: args) (forall_mem_cons.mpr ⟨by decide, clean⟩) []
  rw [append_nil] at all
  exact all.trans (append_nil _)

omit plain in
theorem tokens_take_bootText (clean : ∀ arg ∈ args, arg ≠ [] ∧ newline ∉ arg)
    (fits : (bootText args).length ≤ 768) :
    tokens newline ((bootText args).take 767) = ascii "recovery" :: args := by
  rw [← tokens_bootText clean]
  obtain ⟨front, ends⟩ : ∃ front, bootText args = front ++ [newline] := by
    rcases eq_nil_or_concat args with rfl | ⟨before, last, rfl⟩
    · exact ⟨ascii "recovery", rfl⟩
    · exact ⟨_, by rw [bootText, concat_eq_append, flatMap_append, flatMap_singleton,
        ← append_assoc, ← append_assoc]⟩
  rcases Nat.lt_or_ge (bootText args).length 768 with short | full
  · rw [take_of_length_le (Nat.le_of_lt_succ short)]
  · rw [ends, length_append] at fits full
    rw [ends, take_left' (by rw [length_singleton] at fits full; omega), tokens_append]
    exact (append_nil _).symm

theorem updated_again (clean : ∀ arg ∈ args, arg ≠ [] ∧ newline ∉ arg)
    (some : args ≠ []) (few : args.length ≤ 99) (fits : (bootText args).length ≤ 768)
    (known : cString message.recovery = (bootText args).take 767) :
    (updated boot message).1.drop 1 = args := by
  have given : (messageArgs boot message.recovery).1 = ascii "recovery" :: args := by
    rw [messageArgs_plain plain (by rw [known]; exact length_take_le _ _), known,
      tokens_take_bootText clean fits, head?_cons, if_pos rfl, take_of_length_le]
    exact Nat.succ_le_succ few
  obtain ⟨arg, more, rfl⟩ := exists_cons_of_ne_nil some
  rw [updated, given]
  cases boot.commandFile <;> simp

omit plain in
theorem recovery_updated (formed : message.Formed) (nulFree : ∀ arg ∈ args, 0 ∉ arg)
    (same : (updated boot message).1.drop 1 = args) :
    cString (updated boot message).2.recovery = (bootText args).take 767 := by
  subst same
  have size : (messageArgs boot message.recovery).2.length = 768 :=
    (length_messageArgs _ _).trans formed.2.2.1
  have stored := cString_recoveryField nulFree (by rw [size]; decide)
  rwa [size] at stored

/-- Later boots find the arguments of the first one again just if they fit the field, where the last
line end may be missing. -/
theorem restartable_iff_fits (inside : offset + 1088 ≤ misc.length)
    (blank : misc.slice offset 1088 = replicate 1088 0) (file : boot.commandFile = some text)
    (some : commandArgs text ≠ []) :
    Restartable offset misc boot ↔ (bootText (commandArgs text)).length ≤ 768 := by
  obtain ⟨clean, nulFree, few⟩ := commandArgs_clean text
  have empty : cString (getBootloaderMessageBlock offset misc).recovery = [] := by
    rw [getBootloaderMessageBlock, blank]
    rfl
  have given : (getArgs offset misc boot).1.drop 1 = commandArgs text :=
    updated_blank plain empty file
  obtain ⟨size, block⟩ := get_getArgs inside boot
  have stored := recovery_updated (formed_get inside) nulFree given
  rw [← block] at stored
  rw [← size] at inside
  rw [Restartable, given]
  generalize (getArgs offset misc boot).2 = misc at inside stored ⊢
  constructor
  · intro restartable
    have second := restartable [] nofun ⟨[[]], false, none⟩ ⟨rfl, rfl⟩
    have found := @messageArgs_plain _ ⟨[[]], false, none⟩ ⟨rfl, rfl⟩
      (by rw [stored]; exact length_take_le 767 _)
    change (messageArgs ⟨[[]], false, none⟩
      (getBootloaderMessageBlock offset misc).recovery).1.drop 1 = _ at second
    rw [found, stored] at second
    split at second
    next begins =>
      obtain ⟨rest, listed⟩ := head?_eq_some_iff.mp begins
      rw [listed, take_succ_cons, drop_one, tail_cons] at second
      have inside : ascii "recovery" :: commandArgs text <+
          tokens newline ((bootText (commandArgs text)).take 767) := by
        rw [listed, ← second]
        exact (take_sublist _ _).cons_cons _
      have total := length_le_of_sublist_tokens inside
      rw [length_take] at total
      have whole : (bootText (commandArgs text)).length ≤ _ := total
      omega
    · exact absurd second.symm some
  intro fits later plains last lastPlain
  -- each boot leaves the field as it found it
  induction later generalizing misc with
  | nil => exact updated_again lastPlain clean some few fits stored
  | cons boot later ih =>
    obtain ⟨plain, plains⟩ := forall_mem_cons.mp plains
    obtain ⟨size, block⟩ := get_getArgs inside boot
    refine ih _ (by rwa [size]) ?_ plains
    rw [block]
    exact recovery_updated (formed_get inside) nulFree
      (updated_again plain clean some few fits stored)

omit plain in
theorem restartable_iff_fits_wipe :
    Restartable 0 (replicate 1088 0) ⟨[[]], false, some (ascii "--wipe_data")⟩ :=
  (restartable_iff_fits ⟨rfl, rfl⟩ (by rw [length_replicate]) (by decide +kernel) rfl
    (by decide +kernel)).mpr (by decide +kernel)

omit plain in
/-- An argument of 760 bytes loses its last two. -/
theorem not_restartable_long :
    ¬ Restartable 0 (replicate 1088 0) ⟨[[]], false, some (replicate 760 97)⟩ := by
  intro restartable
  have second := restartable [] nofun ⟨[[]], false, none⟩ ⟨rfl, rfl⟩
  exact absurd second (by decide +kernel)

end PhilzTouch.Recovery
