import Mathlib.Data.List.Infix
import PhilzTouch.Lib.CText
import PhilzTouch.Lib.Split

/-!
# The settings file

`read_config_file` and `write_config_file` of `recovery_settings.c`.  A file is its content, or is
missing.  What the system does is given with each call: which files can be opened, where reading
ends early, how much of what is written gets stored.  Nothing of the latter two is looked at.
-/

namespace PhilzTouch.Settings

/-- `PROPERTY_VALUE_MAX` of `cutils/properties.h`. -/
def propertyValueMax : Nat := 92

def header : List Bytes :=
  [ascii "#PhilZ Touch Settings File\n",
    ascii "#Edit only in appropriate UNIX format (Notepad+++...)\n",
    ascii "#Entries are in the form of:\n",
    ascii "#key=value\n",
    ascii "#Do not add spaces in between!\n",
    ascii "\n"]

/-- The test for a line with the key. -/
def holdsKey (key text : Bytes) : Bool :=
  key <:+: text ∧ key <+: text ∧ text[key.length]? = some equals

/-- The strings that `while (fgets(line, sizeof(line), fp) != NULL)` goes through.  After some
lines there may be an error, which ends the loop like the end of the file. -/
def readLines (readError : Option Nat) (content : Bytes) : List Bytes :=
  let all := (pieces newline (propertyValueMax - 1) content).map cString
  match readError with
  | none => all
  | some count => all.take count

/-! ## Reading -/

structure ReadLuck where
  /-- The file can be opened if it is there. -/
  opened : Bool
  readError : Option Nat
  deriving DecidableEq, Repr

/-- The loop of `read_config_file`.  Nothing is the result if the byte before `value` is read,
otherwise it is the value that was found, if any. -/
def findValue (key : Bytes) : List Bytes → Option (Option Bytes)
  | [] => some none
  | line :: lines =>
    if holdsKey key line then do
      let (_, value) ← cut equals line
      if value = [] then none
      else
        let value := if value.getLast? = some newline then value.dropLast else value
        if value ≠ [] then some (some value) else findValue key lines
    else findValue key lines

/-- `read_config_file`: what it returns, and what it copies to `value`. -/
def readConfigFile (key valueDef : Bytes) (luck : ReadLuck) (config : Option Bytes) :
    Option (Int × Bytes) :=
  match if luck.opened then config else none with
  | none => some (-1, valueDef)
  | some content => do
    match ← findValue key (readLines luck.readError content) with
    | some value => return (0, value)
    | none => return (1, valueDef)

/-! ## Writing -/

structure WriteLuck where
  mounted : Bool
  /-- The temporary file can be created. -/
  created : Bool
  /-- The settings file can be opened if it is there. -/
  opened : Bool
  readError : Option Nat
  /-- The number of bytes that can be stored, if they do not all fit. -/
  full : Option Nat
  renamed : Bool
  deriving DecidableEq, Repr

/-- A line that is kept gets a newline if it has none.  An empty one is read in front of its
buffer, and a full one is written behind it. -/
def keepLine (line : Bytes) : Option Bytes :=
  match line.getLast? with
  | none => none
  | some last =>
    if last = newline then some line
    else if line.length + 1 < propertyValueMax then some (line ++ [newline])
    else none

/-- The lines without those that have the key. -/
def copyLines (key : Bytes) : List Bytes → Option Bytes
  | [] => some []
  | line :: lines =>
    if holdsKey key line then copyLines key lines
    else do
      let kept ← keepLine line
      let more ← copyLines key lines
      return kept ++ more

/-- `key=value` and a newline. -/
def entry (key value : Bytes) : Bytes := key ++ equals :: value ++ [newline]

/-- What is stored of a text. -/
def store (full : Option Nat) (text : Bytes) : Bytes :=
  match full with
  | none => text
  | some count => text.take count

/-- What comes before the new entry: the header, or the lines of the file that is there. -/
def copyConfig (key : Bytes) (luck : WriteLuck) (config : Option Bytes) : Option Bytes :=
  match if luck.opened then config else none with
  | none => some header.flatten
  | some content => copyLines key (readLines luck.readError content)

/-- `write_config_file`: what it returns, and the settings file afterwards.  Nothing is the result
if a buffer is left. -/
def writeConfigFile (key value : Bytes) (luck : WriteLuck) (config : Option Bytes) :
    Option (Int × Option Bytes) :=
  if luck.mounted = false then some (-1, config)
  else if luck.created = false then some (-1, config)
  else do
    let kept ← copyConfig key luck config
    if propertyValueMax ≤ (entry key value).length then none
    else if luck.renamed = false then some (-1, config)
    else some (0, some (store luck.full (kept ++ entry key value)))

structure Call where
  key : Bytes
  value : Bytes
  luck : WriteLuck
  deriving DecidableEq, Repr

/-- The calls one after the other: what they return, and the settings file afterwards. -/
def writeAll : List Call → Option Bytes → Option (List Int × Option Bytes)
  | [], config => some ([], config)
  | call :: calls, config => do
    let (code, config) ← writeConfigFile call.key call.value call.luck config
    let (codes, config) ← writeAll calls config
    return (code :: codes, config)

end PhilzTouch.Settings
