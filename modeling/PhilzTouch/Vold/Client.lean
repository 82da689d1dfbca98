import PhilzTouch.Lib.CText
import PhilzTouch.Lib.Split

/-!
# The vold client

What the monitor thread of `voldclient` does with the bytes it reads: `monitor` cuts them into
strings, `handle_response` takes a string apart and `vold_dispatch` acts on it.  Nothing here
checks that a string has the words that it needs; reading one that is missing, or storing more
words than there is room for, ends the client.
-/

namespace PhilzTouch.Vold

/-- `ResponseCode.h` of vold. -/
structure ResponseCode where
  volumeListResult : Int
  commandOkay : Int
  volumeStateChange : Int
  volumeDiskInserted : Int
  volumeDiskRemoved : Int
  volumeBadRemoval : Int
  deriving DecidableEq, Repr

/-! The states of a volume, from `Volume.h` of vold. -/

def stateNoMedia : Int := 0

def stateIdle : Int := 1

def stateMounted : Int := 4

/-- `struct volume_node`. -/
structure Volume where
  label : Bytes
  path : Bytes
  state : Int
  deriving DecidableEq, Repr

/-- The variables of `dispatcher.c` and `event_loop.c`, and the world around them. -/
structure Client (W : Type) where
  volumes : List Volume
  isListingVolumes : Bool
  shouldAutomount : Bool
  cmdResult : Int
  cmdInflight : Int
  world : W

/-- What the client calls: the callbacks, which may be missing and then do nothing, the socket and
the directory of a volume that is to be mounted. -/
structure Surroundings (W : Type) where
  stateChanged : (label path : Option Bytes) → (state : Int) → W → W
  diskAdded : (label path : Option Bytes) → W → W
  diskRemoved : (label path : Option Bytes) → W → W
  /-- `access`, `mkdir` and `chown`. -/
  makeMountPoint : (path : Bytes) → W → W
  /-- `write` on the socket. -/
  send : Bytes → W → W

variable {W : Type}

/-! ## Commands -/

/-- One argument of a command, in quotes if there is a blank in it. -/
def quoteArgument (argument : Bytes) (isLast : Bool) : Bytes :=
  (if byte ' ' ∈ argument then ascii "\"" ++ argument ++ ascii "\"" else argument) ++
    if isLast then [] else ascii " "

/-- `final_cmd`, a buffer of 255 bytes. -/
def finalCmd (cmd : Bytes) : List Bytes → Option Bytes
  | [] => some cmd
  | argument :: command =>
    if 255 ≤ (cmd ++ quoteArgument argument command.isEmpty).length then none
    else finalCmd (cmd ++ quoteArgument argument command.isEmpty) command

/-- `vold_command` without waiting, on a socket that is connected. -/
def voldCommand (around : Surroundings W) (command : List Bytes) (client : Client W) : Client W :=
  match finalCmd (ascii "0 ") command with
  | none => client
  | some cmd =>
    { client with
      world := around.send (cmd ++ [0]) client.world
      cmdInflight := client.cmdInflight + 1 }

/-- `vold_get_volume_state`.  The path is compared with that of each volume, also if it is
`NULL`. -/
def getVolumeState (volumes : List Volume) : Option Bytes → Option Int
  | none => if volumes = [] then some 0 else none
  | some path => some (((volumes.find? (·.path = path)).map (·.state)).getD 0)

/-- `vold_mount_volume`. -/
def mountVolume (around : Surroundings W) (path : Option Bytes) (client : Client W) :
    Option (Client W) := do
  let state ← getVolumeState client.volumes path
  if state = stateMounted then return client
  else if state ≠ stateIdle then return client
  else
    let path ← path
    return voldCommand around [ascii "volume", ascii "mount", path]
      { client with world := around.makeMountPoint path client.world }

/-! ## Responses -/

/-- The state of the first volume at a path is changed. -/
def changeState (path : Bytes) (state : Int) : List Volume → List Volume
  | [] => []
  | volume :: volumes =>
    if volume.path = path then { volume with state := state } :: volumes
    else volume :: changeState path state volumes

def setVolumeState (path : Option Bytes) (state : Int) (client : Client W) : Option (Client W) :=
  match path with
  | none => if client.volumes = [] then some client else none
  | some path => some { client with volumes := changeState path state client.volumes }

def handleVolumeList (label path : Bytes) (state : Int) (client : Client W) : Client W :=
  let volumes := if client.isListingVolumes then client.volumes else []
  { client with isListingVolumes := true, volumes := volumes ++ [⟨label, path, state⟩] }

def handleVolumeListDone (client : Client W) : Client W := { client with isListingVolumes := false }

def handleVolumeStateChange (around : Surroundings W) (label path : Option Bytes) (state : Int)
    (client : Client W) : Option (Client W) := do
  let client ← setVolumeState path state client
  return { client with world := around.stateChanged label path state client.world }

def handleVolumeInserted (around : Surroundings W) (label path : Option Bytes) (client : Client W) :
    Option (Client W) := do
  let client ← setVolumeState path stateIdle client
  let client := { client with world := around.diskAdded label path client.world }
  if client.shouldAutomount then mountVolume around path client else return client

def handleVolumeRemoved (around : Surroundings W) (label path : Option Bytes) (client : Client W) :
    Option (Client W) := do
  let client ← setVolumeState path stateNoMedia client
  return { client with world := around.diskRemoved label path client.world }

/-- `vold_dispatch`; `tokens[i]` is `NULL` behind the last token. -/
def voldDispatch (codes : ResponseCode) (around : Surroundings W) (code : Int) (tokens : List Bytes)
    (client : Client W) : Option (Client W) :=
  if code = codes.volumeListResult then do
    let label ← tokens[2]?
    let path ← tokens[3]?
    let state ← tokens[4]?
    return handleVolumeList label path (atoi state) client
  else if code = codes.volumeStateChange then do
    let state ← tokens[10]?
    handleVolumeStateChange around tokens[2]? tokens[3]? (atoi state) client
  else if code = codes.volumeDiskInserted then
    handleVolumeInserted around tokens[2]? tokens[3]? client
  else if code = codes.volumeDiskRemoved ∨ code = codes.volumeBadRemoval then
    handleVolumeRemoved around tokens[2]? tokens[3]? client
  else if code = codes.commandOkay ∧ client.isListingVolumes = true then
    some (handleVolumeListDone client)
  else some client

/-- `split`: the words between blanks. -/
def splitWords (text : Bytes) : List Bytes := tokens (byte ' ') text

/-- `handle_response`: the code and what it leads to.  There is room for 32 tokens, and the first
one is read whether there is one or not. -/
def handleResponse (codes : ResponseCode) (around : Surroundings W) (response : Bytes)
    (client : Client W) : Option (Int × Client W) :=
  if 32 < (splitWords response).length then none
  else do
    let first ← (splitWords response)[0]?
    let client ← voldDispatch codes around (atoi first) (splitWords response) client
    return (atoi first, client)

/-- A code of a command that is done is for whoever waits for it. -/
def noteResult (code : Int) (client : Client W) : Client W :=
  if 200 ≤ code ∧ code < 600 then
    { client with cmdResult := code, cmdInflight := client.cmdInflight - 1 }
  else client

/-- What is done with a string that is complete. -/
def handleLine (codes : ResponseCode) (around : Surroundings W) (line : Bytes) (client : Client W) :
    Option (Client W) := do
  let (code, client) ← handleResponse codes around line client
  return noteResult code client

/-- `dispatch each line of the response`: the strings that are passed to `handle_response`, and the
client afterwards if it has come through all of them.  `line` is what stands at `buffer + offset`
so far. -/
def dispatchLines (codes : ResponseCode) (around : Surroundings W) (line : Bytes) :
    (buffer : Bytes) → Client W → List Bytes × Option (Client W)
  | [], client => ([], some client)
  | char :: buffer, client =>
    if char = 0 then
      match handleLine codes around line client with
      | none => ([line], none)
      | some client =>
        let (passed, last) := dispatchLines codes around [] buffer client
        (line :: passed, last)
    else dispatchLines codes around (line ++ [char]) buffer client

/-- `monitor` over what `read` returns, until the connection is closed.  The buffer is cleared
before each `read`, whatever is left in it. -/
def monitor (codes : ResponseCode) (around : Surroundings W) :
    (reads : List Bytes) → Client W → List Bytes × Option (Client W)
  | [], client => ([], some client)
  | buffer :: reads, client =>
    match dispatchLines codes around [] buffer client with
    | (passed, none) => (passed, none)
    | (passed, some client) =>
      let (more, last) := monitor codes around reads client
      (passed ++ more, last)

end PhilzTouch.Vold
