import PhilzTouch.Lib.Chunks
import PhilzTouch.Vold.Client

/-!
# Messages and reads

A stream of messages reaches the client in reads that end anywhere.  Since `monitor` starts each
read with an empty buffer, the strings it passes on are the messages just if no read ends inside a
message; and since a string that lacks words ends the client, none but the last may lack any.
-/

namespace PhilzTouch.Vold

open List

variable {W : Type} {codes : ResponseCode} {around : Surroundings W} {client : Client W}

/-! ## What a message needs -/

/-- The number of words that are read of a message, given whether there are volumes that a path
is compared with. -/
def requiredTokens (codes : ResponseCode) (listed : Bool) (code : Int) : Nat :=
  if code = codes.volumeListResult then 5
  else if code = codes.volumeStateChange then 11
  else if code = codes.volumeDiskInserted ∨ code = codes.volumeDiskRemoved ∨
      code = codes.volumeBadRemoval then
    if listed then 4 else 1
  else 1

def messageCode (message : Bytes) : Int := atoi ((splitWords message)[0]?.getD [])

/-- The message has the words that are read, and not more than there is room for. -/
def Acceptable (codes : ResponseCode) (listed : Bool) (message : Bytes) : Prop :=
  requiredTokens codes listed (messageCode message) ≤ (splitWords message).length ∧
    (splitWords message).length ≤ 32

instance (codes : ResponseCode) (listed : Bool) (message : Bytes) :
    Decidable (Acceptable codes listed message) :=
  inferInstanceAs (Decidable (_ ∧ _))

/-- Each message is acceptable when its turn comes; there are volumes as soon as one has been
listed. -/
def AllAcceptable (codes : ResponseCode) (listed : Bool) : List Bytes → Prop
  | [] => True
  | message :: messages => Acceptable codes listed message ∧
      AllAcceptable codes (listed || messageCode message = codes.volumeListResult) messages

def Client.listed (client : Client W) : Bool := client.volumes ≠ []

theorem changeState_eq_nil (path : Bytes) (state : Int) (volumes : List Volume) :
    changeState path state volumes = [] ↔ volumes = [] := by
  cases volumes with
  | nil => rfl
  | cons volume volumes =>
    rw [changeState]
    split <;> simp

/-- A handler comes through just under a condition, and tells whether there are volumes then. -/
structure Handles (fine : Prop) (listed : Bool) (outcome : Option (Client W)) : Prop where
  isSome_iff : outcome.isSome = true ↔ fine
  listed_eq : ∀ after, outcome = some after → after.listed = listed

variable {outcome : Option (Client W)}

theorem Handles.of_iff {fine fine' : Prop} {listed : Bool}
    (handles : Handles fine listed outcome) (same : fine ↔ fine') : Handles fine' listed outcome :=
  ⟨handles.isSome_iff.trans same, handles.listed_eq⟩

theorem Handles.value {listed : Bool} (same : client.listed = listed) :
    Handles True listed (some client) := by
  refine ⟨by simp, fun after ended => ?_⟩
  cases ended
  exact same

theorem Handles.crash (listed : Bool) : Handles False listed (none : Option (Client W)) :=
  ⟨by simp, nofun⟩

theorem Handles.bind {fine : Prop} {listed listed' : Bool}
    {next : Client W → Option (Client W)} (handles : Handles fine listed outcome)
    (rest : ∀ client, fine → client.listed = listed → Handles True listed' (next client)) :
    Handles fine listed' (outcome.bind next) := by
  cases outcome with
  | none => exact ⟨handles.isSome_iff, nofun⟩
  | some client =>
    have known : fine := handles.isSome_iff.mp rfl
    exact (rest client known (handles.listed_eq client rfl)).of_iff (iff_of_true trivial known)

/-- A path is there, or there is nothing to compare it with. -/
theorem setVolumeState_handles (path : Option Bytes) (state : Int) :
    Handles (path.isSome = true ∨ client.listed = false) client.listed
      (setVolumeState path state client) := by
  cases path with
  | none =>
    rw [setVolumeState, Client.listed]
    split
    next empty => exact ⟨by simp [empty], fun after same => by cases same; rfl⟩
    next some => exact ⟨by simp [some], nofun⟩
  | some path =>
    refine ⟨by simp [setVolumeState], fun after same => ?_⟩
    cases same
    simp [Client.listed, changeState_eq_nil]

theorem voldCommand_volumes (command : List Bytes) :
    (voldCommand around command client).volumes = client.volumes := by
  rw [voldCommand]
  split <;> rfl

theorem mountVolume_handles {path : Option Bytes}
    (known : path.isSome = true ∨ client.listed = false) :
    Handles True client.listed (mountVolume around path client) := by
  cases path with
  | none =>
    have empty : client.volumes = [] := by simpa [Client.listed] using known
    have returned : mountVolume around none client = some client := by
      rw [mountVolume, getVolumeState, if_pos empty]
      rfl
    rw [returned]
    exact .value rfl
  | some path =>
    rw [mountVolume, getVolumeState]
    change Handles True client.listed (if _ then _ else if _ then _ else _)
    split
    · exact .value rfl
    split
    · exact .value rfl
    · refine ⟨by simp, fun after same => ?_⟩
      cases same
      rw [Client.listed, voldCommand_volumes]
      rfl

theorem handleVolumeStateChange_handles (label path : Option Bytes) (state : Int) :
    Handles (path.isSome = true ∨ client.listed = false) client.listed
      (handleVolumeStateChange around label path state client) :=
  (setVolumeState_handles path state).bind fun _ _ same => .value same

theorem handleVolumeRemoved_handles (label path : Option Bytes) :
    Handles (path.isSome = true ∨ client.listed = false) client.listed
      (handleVolumeRemoved around label path client) :=
  (setVolumeState_handles path stateNoMedia).bind fun _ _ same => .value same

theorem handleVolumeInserted_handles (label path : Option Bytes) :
    Handles (path.isSome = true ∨ client.listed = false) client.listed
      (handleVolumeInserted around label path client) := by
  refine (setVolumeState_handles path stateIdle).bind fun between known same => ?_
  rw [← same] at known ⊢
  change Handles True between.listed (if _ then _ else _)
  split
  · exact @mountVolume_handles W around
      { between with world := around.diskAdded label path between.world } path known
  · exact .value rfl

/-- `vold_dispatch` comes through if the tokens that it reads are there. -/
theorem voldDispatch_handles (code : Int) (tokens : List Bytes) (some : tokens ≠ []) :
    Handles (requiredTokens codes client.listed code ≤ tokens.length)
      (client.listed || code = codes.volumeListResult) (voldDispatch codes around code tokens client) := by
  have pos := length_pos_iff.mpr some
  have path : (tokens[3]?.isSome = true ∨ client.listed = false) ↔
      (if client.listed = true then 4 else 1) ≤ tokens.length := by
    cases client.listed <;> simp <;> omega
  rw [voldDispatch, requiredTokens]
  split
  next list =>
    rw [decide_eq_true list, Bool.or_true]
    match tokens with
    | [_] | [_, _] | [_, _, _] | [_, _, _, _] =>
      exact (Handles.crash true).of_iff (iff_of_false not_false (by simp))
    | _ :: _ :: label :: path :: state :: _ =>
      refine (Handles.value ?_).of_iff (iff_of_true trivial (by simp))
      simp [Client.listed, handleVolumeList]
  next other =>
    rw [decide_eq_false other, Bool.or_false]
    split
    next =>
      cases known : tokens[10]? with
      | none =>
        exact (Handles.crash _).of_iff (iff_of_false not_false
          (not_le.mpr (Nat.lt_succ_of_le (List.getElem?_eq_none_iff.mp known))))
      | some state =>
        have enough := (List.getElem?_eq_some_iff.mp known).1
        refine (handleVolumeStateChange_handles _ _ (atoi state)).of_iff
          (iff_of_true (.inl ?_) enough)
        rw [getElem?_eq_getElem (by omega), Option.isSome_some]
    next =>
      by_cases inserted : code = codes.volumeDiskInserted
      · rw [if_pos inserted, if_pos (.inl inserted), ← path]
        exact handleVolumeInserted_handles _ _
      rw [if_neg inserted]
      by_cases removed : code = codes.volumeDiskRemoved ∨ code = codes.volumeBadRemoval
      · rw [if_pos removed, if_pos (.inr removed), ← path]
        exact handleVolumeRemoved_handles _ _
      · rw [if_neg removed, if_neg (not_or.mpr ⟨inserted, removed⟩)]
        split
        · exact @Handles.of_iff _ _ _ _ _ (.value rfl) (iff_of_true trivial pos)
        · exact @Handles.of_iff _ _ _ _ _ (.value rfl) (iff_of_true trivial pos)

theorem requiredTokens_pos (listed : Bool) (code : Int) : 0 < requiredTokens codes listed code := by
  rw [requiredTokens]
  split
  · decide
  · split
    · decide
    · split
      · split <;> decide
      · decide

theorem noteResult_listed (code : Int) : (noteResult code client).listed = client.listed := by
  rw [noteResult]
  split <;> rfl

theorem handleLine_handles (message : Bytes) : Handles (Acceptable codes client.listed message)
      (client.listed || messageCode message = codes.volumeListResult)
      (handleLine codes around message client) := by
  rw [Acceptable, messageCode, handleLine, handleResponse]
  split
  next many => exact (Handles.crash _).of_iff (iff_of_false not_false (by omega))
  next room =>
  cases known : splitWords message with
  | nil =>
    exact (Handles.crash _).of_iff (iff_of_false not_false fun fine =>
      not_le.mpr (requiredTokens_pos _ _) fine.1)
  | cons first words =>
    rw [known, not_lt] at room
    have dispatched := @voldDispatch_handles W codes around client (atoi first) (first :: words)
      (cons_ne_nil _ _)
    have noted := @Handles.bind W _ _ _ _ (fun between => some (noteResult (atoi first) between))
      dispatched fun between _ same => .value ((noteResult_listed _).trans same)
    have ran : (voldDispatch codes around (atoi first) (first :: words) client).bind
          (fun between => some (noteResult (atoi first) between)) =
        ((voldDispatch codes around (atoi first) (first :: words) client).bind
          fun between => some (atoi first, between)).bind
            fun noted => some (noteResult noted.1 noted.2) := by
      cases voldDispatch codes around (atoi first) (first :: words) client <;> rfl
    rw [ran] at noted
    exact noted.of_iff ⟨fun enough => ⟨enough, room⟩, And.left⟩

/-! ## Strings that are passed on -/

/-- The strings are passed on up to the first that cannot be handled. -/
def deliver (codes : ResponseCode) (around : Surroundings W) :
    List Bytes → Client W → List Bytes × Option (Client W)
  | [], client => ([], some client)
  | line :: lines, client =>
    match handleLine codes around line client with
    | none => ([line], none)
    | some client =>
      (line :: (deliver codes around lines client).1, (deliver codes around lines client).2)

theorem dispatchLines_eq (line buffer : Bytes) (plain : (0 : UInt8) ∉ line) :
    dispatchLines codes around line buffer client =
      deliver codes around (fields 0 (line ++ buffer)) client := by
  induction buffer generalizing line client with
  | nil =>
    rw [append_nil, fields_of_notMem plain]
    rfl
  | cons char buffer ih =>
    rw [dispatchLines]
    split
    next zero =>
      rw [zero, fields_append plain, deliver]
      cases handleLine codes around line client with
      | none => rfl
      | some after =>
        dsimp only
        rw [ih [] not_mem_nil]
        rfl
    next other =>
      rw [ih (line ++ [char]) (by simp [plain, Ne.symm other]), append_assoc]
      rfl

theorem deliver_append (first second : List Bytes) :
    deliver codes around (first ++ second) client = match deliver codes around first client with
      | (passed, none) => (passed, none)
      | (passed, some between) => (passed ++ (deliver codes around second between).1,
          (deliver codes around second between).2) := by
  induction first generalizing client with
  | nil => rfl
  | cons line first ih =>
    rw [cons_append, deliver, deliver]
    cases handleLine codes around line client with
    | none => rfl
    | some between =>
      simp only [ih]
      cases deliver codes around first between with
      | mk passed last => cases last <;> rfl

theorem monitor_eq (reads : List Bytes) :
    monitor codes around reads client = deliver codes around (reads.flatMap (fields 0)) client := by
  induction reads generalizing client with
  | nil => rfl
  | cons buffer reads ih =>
    rw [flatMap_cons, deliver_append, monitor, dispatchLines_eq [] buffer not_mem_nil, nil_append]
    cases deliver codes around (fields 0 buffer) client with
    | mk passed last =>
      cases last with
      | none => rfl
      | some between => simp only [ih]

/-- All strings are passed on just if each but the last can be handled. -/
theorem deliver_all_iff (lines : List Bytes) : (deliver codes around lines client).1 = lines ↔
      AllAcceptable codes client.listed lines.dropLast := by
  induction lines generalizing client with
  | nil => exact iff_of_true rfl trivial
  | cons line lines ih =>
    have handles := @handleLine_handles W codes around client line
    rw [deliver]
    cases lines with
    | nil =>
      cases handleLine codes around line client <;> exact iff_of_true rfl trivial
    | cons next lines =>
      rw [dropLast_cons_of_ne_nil (cons_ne_nil _ _), AllAcceptable, ← handles.isSome_iff]
      cases known : handleLine codes around line client with
      | none => simp
      | some after =>
        rw [← handles.listed_eq after known, ← ih]
        simp

theorem deliver_le (lines : List Bytes) : (deliver codes around lines client).1 <+: lines := by
  induction lines generalizing client with
  | nil => exact nil_prefix
  | cons line lines ih =>
    rw [deliver]
    cases handleLine codes around line client with
    | none => exact cons_prefix_cons.mpr ⟨rfl, nil_prefix⟩
    | some after => exact cons_prefix_cons.mpr ⟨rfl, ih⟩

/-- For a stream of messages, cut into reads in any way, the strings that are passed to
`handle_response` are the messages just if every read ends with the end of a message and every
message but the last has the words that are read. -/
theorem monitor_passes_messages {messages reads : List Bytes}
    (plain : ∀ message ∈ messages, (0 : UInt8) ∉ message ∧ message.length < 4096)
    (sizes : ∀ buffer ∈ reads, 1 ≤ buffer.length ∧ buffer.length ≤ 4096)
    (stream : reads.flatten = messages.flatMap (· ++ [0])) (client : Client W) :
    (monitor codes around reads client).1 = messages ↔
      (∀ buffer ∈ reads, buffer.getLast? = some 0) ∧
        AllAcceptable codes client.listed messages.dropLast := by
  have filled : ∀ buffer ∈ reads, buffer ≠ [] := fun buffer member empty => by
    have bound := (sizes buffer member).1
    rw [empty] at bound
    cases bound
  have absent : ∀ message ∈ messages, (0 : UInt8) ∉ message := fun message member =>
    (plain message member).1
  have counted : (reads.flatMap (fields 0)).length = messages.length := by
    rw [length_flatMap_fields, stream, ← length_fields, fields_flatMap absent]
  rw [monitor_eq, ← chunk_fields_eq_iff filled absent stream]
  constructor
  · intro same
    -- as many strings are passed on as there are, so none is missing
    have whole := (@deliver_le W codes around client (reads.flatMap (fields 0))).eq_of_length
      (by rw [same, counted])
    have cut := whole.symm.trans same
    refine ⟨cut, ?_⟩
    rw [← cut]
    exact (deliver_all_iff _).mp whole
  · rintro ⟨cut, fine⟩
    rw [cut]
    exact (deliver_all_iff _).mpr fine

def voldCodes : ResponseCode := ⟨110, 200, 605, 630, 631, 632⟩

/-- No callbacks, and nothing that is sent is seen. -/
def still : Surroundings Unit where
  stateChanged _ _ _ _ := ()
  diskAdded _ _ _ := ()
  diskRemoved _ _ _ := ()
  makeMountPoint _ _ := ()
  send _ _ := ()

def freshClient : Client Unit := ⟨[], false, false, 0, 1, ()⟩

theorem monitor_passes_messages_sample :
    (monitor voldCodes still [ascii "110 0 sd /sd 1" ++ [0] ++ ascii "200 0 ok" ++ [0]]
        freshClient).1 = [ascii "110 0 sd /sd 1", ascii "200 0 ok"] := by
  refine (@monitor_passes_messages Unit voldCodes still _ _ ?_ ?_ ?_ freshClient).mpr ⟨?_, ?_, trivial⟩
  · decide +kernel
  · decide +kernel
  · decide +kernel
  · decide +kernel
  · decide +kernel

/-- A message that comes in two reads loses what was in the first. -/
theorem monitor_drops_partial_message :
    [ascii "20", ascii "0 0 ok" ++ [0]].flatten = [ascii "200 0 ok"].flatMap (· ++ [0]) ∧
      (monitor voldCodes still [ascii "20", ascii "0 0 ok" ++ [0]] freshClient).1 = [ascii "0 0 ok"] := by
  decide +kernel

/-- `handle_response` keeps to its token array, and no token is missing that it or `vold_dispatch`
reads, just if the message is acceptable. -/
theorem handleResponse_safe_iff (message : Bytes) (client : Client W) :
    (handleResponse codes around message client).isSome = true ↔
      Acceptable codes client.listed message := by
  rw [← (@handleLine_handles W codes around client message).isSome_iff, handleLine]
  cases handleResponse codes around message client <;> rfl

theorem handleResponse_misses_token :
    (handleResponse voldCodes still (ascii "605 Volume sd /sd") freshClient).isSome = false := by
  decide +kernel

end PhilzTouch.Vold
