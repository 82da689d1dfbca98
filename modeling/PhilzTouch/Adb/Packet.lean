import PhilzTouch.Lib.CText

/-!
# Packets

The packets of `minadbd/adb.h`, the checks of `transport.c` that they pass before `handle_packet`
sees them, and what `parse_banner` and `service_to_fd` read from their payload.  A string function
gets the bytes that may be read; it has no result if it reads on behind them.
-/

namespace PhilzTouch.Adb

open List

def maxPayload : Nat := 4096

def aSync : UInt32 := 0x434e5953
def aCnxn : UInt32 := 0x4e584e43
def aOpen : UInt32 := 0x4e45504f
def aOkay : UInt32 := 0x59414b4f
def aClse : UInt32 := 0x45534c43
def aWrte : UInt32 := 0x45545257

/-- `apacket` with its `amessage`, as it is read from the host.  Only `data_length` bytes of
`data` come from there, the others are whatever `malloc` has left in them. -/
structure Packet where
  command : UInt32
  arg0 : UInt32
  arg1 : UInt32
  dataLength : UInt32
  dataCheck : UInt32
  magic : UInt32
  data : Bytes
  room : data.length = maxPayload

namespace Packet

def checkHeader (packet : Packet) : Bool :=
  packet.magic = packet.command ^^^ 0xffffffff ∧ packet.dataLength.toNat ≤ maxPayload

/-- The bytes that may be read: `data_length` of them. -/
def payload (packet : Packet) : Bytes := packet.data.take packet.dataLength.toNat

def checkData (packet : Packet) : Bool :=
  packet.payload.foldl (fun sum byte => sum + byte.toUInt32) 0 = packet.dataCheck

/-- What `remote_read` takes from the host. -/
def passes (packet : Packet) : Bool := packet.checkHeader && packet.checkData

end Packet

/-! ## Strings in a payload -/

/-- `strchr`: the position of a byte, or nothing if the string ends before. -/
def strchr (wanted : UInt8) : Bytes → Option (Option Nat)
  | [] => none
  | char :: rest =>
    if char = wanted then some (some 0)
    else if char = 0 then some none
    else (strchr wanted rest).map (Option.map (· + 1))

/-- `strcmp(text, constant) == 0`. -/
def streq : Bytes → Bytes → Option Bool
  | [], _ => none
  | char :: _, [] => some (char = 0)
  | char :: rest, wanted :: constant =>
    if char ≠ wanted then some false
    else if char = 0 then some true
    else streq rest constant

def strdup : Bytes → Option Bytes
  | [] => none
  | char :: rest => if char = 0 then some [] else (strdup rest).map (char :: ·)

/-- `connection_state`; what stands for other devices is left out. -/
inductive ConnectionState where
  | offline
  | bootloader
  | device
  | host
  | recovery
  | sideload
  deriving DecidableEq, Repr

/-- The types that `parse_banner` knows. -/
def bannerTypes : List (Bytes × ConnectionState) :=
  [(ascii "bootloader", .bootloader), (ascii "device", .device), (ascii "recovery", .recovery),
    (ascii "sideload", .sideload)]

/-- The comparisons of the type at the end of `parse_banner`. -/
def bannerState (type : Bytes) : List (Bytes × ConnectionState) → Option ConnectionState
  | [] => some .host
  | (name, state) :: types => do
    if ← streq type name then return state else bannerState type types

/-- The product name is only copied if it is not the one known. -/
def bannerProduct (product : Bytes) : Option Bytes → Option Bytes
  | none => strdup product
  | some known => do if ← streq product known then return known else strdup product

/-- `parse_banner`: the state and the product name of the transport afterwards.  A colon ends the
type, and another one the product. -/
def parseBanner (banner : Bytes) (known : Option Bytes) :
    Option (ConnectionState × Bytes) := do
  let colon ← strchr (byte ':') banner
  let (type, product) := match colon with
    | some place => (banner.set place 0, banner.drop (place + 1))
    | none => (banner, [0])
  let trailing ← strchr (byte ':') product
  let product := match trailing with
    | some place => product.set place 0
    | none => product
  let name ← bannerProduct product known
  let state ← bannerState type bannerTypes
  return (state, name)

/-- The name of a service: `name[data_length > 0 ? data_length - 1 : 0] = 0`. -/
def serviceName (payload : Bytes) : Bytes := payload.dropLast ++ [0]

/-- The digits that `atoi` goes over, after white space and a sign: it reads one byte more. -/
def scanned (text : Bytes) : Option Unit :=
  match text.dropWhile isSpace with
  | [] => none
  | first :: rest =>
    let digits := if first = byte '-' ∨ first = byte '+' then rest else first :: rest
    if digits.dropWhile isDigit = [] then none else some ()

/-- `!strncmp(text, constant, strlen(constant))`. -/
def strneq : Bytes → Bytes → Option Bool
  | _, [] => some true
  | [], _ :: _ => none
  | char :: rest, wanted :: constant =>
    if char ≠ wanted then some false
    else if char = 0 then some true
    else strneq rest constant

/-- What `service_to_fd` finds: nothing but a sideload, with a number of bytes, is known. -/
def serviceToFd (name : Bytes) : Option (Option Int) := do
  if ← strneq name (ascii "sideload:") then
    scanned (name.drop 9)
    return some (atoi (cString (name.drop 9)))
  else return none

/-! ## Strings that end inside their payload -/

variable {wanted : UInt8} {text : Bytes}

theorem strchr_eq_none_iff : strchr wanted text = none ↔ wanted ∉ text ∧ 0 ∉ text := by
  induction text with
  | nil => simp [strchr]
  | cons char rest ih =>
    rw [strchr]
    split
    · rename_i same
      simp [same]
    split
    · rename_i same
      simp [same]
    · rename_i other nonzero
      rw [Option.map_eq_none_iff, ih]
      simp [Ne.symm other, Ne.symm nonzero]

theorem strchr_eq_some {place : Nat} (found : strchr wanted text = some (some place)) :
    ∃ before after, text = before ++ wanted :: after ∧ before.length = place ∧
      wanted ∉ before ∧ 0 ∉ before := by
  induction text generalizing place with
  | nil => cases found
  | cons char rest ih =>
    rw [strchr] at found
    split at found
    · rename_i same
      cases found
      exact ⟨[], rest, by rw [same, nil_append], rfl, not_mem_nil, not_mem_nil⟩
    split at found
    · cases found
    rename_i other nonzero
    simp only [Option.map_eq_some_iff] at found
    obtain ⟨_, later, index, rfl, rfl⟩ := found
    obtain ⟨before, after, rfl, length, absent, inside⟩ := ih later
    refine ⟨char :: before, after, rfl, by rw [length_cons, length], ?_, ?_⟩
    · exact not_mem_cons_of_ne_of_not_mem (Ne.symm other) absent
    · exact not_mem_cons_of_ne_of_not_mem (Ne.symm nonzero) inside

theorem zero_mem_of_strchr (missing : strchr wanted text = some none) : 0 ∈ text := by
  induction text with
  | nil => cases missing
  | cons char rest ih =>
    rw [strchr] at missing
    split at missing
    · cases missing
    split at missing
    · rename_i same
      rw [same]
      exact mem_cons_self
    · simp only [Option.map_eq_some_iff, Option.map_eq_none_iff] at missing
      obtain ⟨_, later, rfl⟩ := missing
      exact mem_cons_of_mem _ (ih later)

section

variable (ends : 0 ∈ text)

include ends

theorem streq_isSome (constant : Bytes) : ∃ same, streq text constant = some same := by
  induction text generalizing constant with
  | nil => cases ends
  | cons char rest ih =>
    cases constant with
    | nil => exact ⟨_, rfl⟩
    | cons wanted constant =>
      rw [streq]
      split
      · exact ⟨_, rfl⟩
      split
      · exact ⟨_, rfl⟩
      · rename_i nonzero
        exact ih ((mem_cons.mp ends).resolve_left (Ne.symm nonzero)) constant

theorem strneq_isSome (constant : Bytes) : ∃ same, strneq text constant = some same := by
  induction text generalizing constant with
  | nil => cases ends
  | cons char rest ih =>
    cases constant with
    | nil => exact ⟨_, rfl⟩
    | cons wanted constant =>
      rw [strneq]
      split
      · exact ⟨_, rfl⟩
      split
      · exact ⟨_, rfl⟩
      · rename_i nonzero
        exact ih ((mem_cons.mp ends).resolve_left (Ne.symm nonzero)) constant

theorem strdup_isSome : ∃ copy, strdup text = some copy := by
  induction text with
  | nil => cases ends
  | cons char rest ih =>
    rw [strdup]
    split
    · exact ⟨_, rfl⟩
    · rename_i nonzero
      obtain ⟨copy, copied⟩ := ih ((mem_cons.mp ends).resolve_left (Ne.symm nonzero))
      exact ⟨_, by rw [copied]; rfl⟩

theorem bannerState_isSome (types : List (Bytes × ConnectionState)) :
    ∃ state, bannerState text types = some state := by
  induction types with
  | nil => exact ⟨_, rfl⟩
  | cons type types ih =>
    obtain ⟨same, tested⟩ := streq_isSome ends type.1
    rw [bannerState, tested]
    cases same with
    | true => exact ⟨_, rfl⟩
    | false => exact ih

theorem bannerProduct_isSome (known : Option Bytes) :
    ∃ name, bannerProduct text known = some name := by
  obtain ⟨copy, copied⟩ := strdup_isSome ends
  cases known with
  | none => exact ⟨copy, copied⟩
  | some known =>
    obtain ⟨same, tested⟩ := streq_isSome ends known
    rw [bannerProduct, tested]
    cases same with
    | true => exact ⟨_, rfl⟩
    | false => exact ⟨copy, copied⟩

end

/-- A banner that ends inside its payload: with a NUL, or with two colons. -/
def BannerEnds (banner : Bytes) : Prop := 0 ∈ banner ∨ 2 ≤ banner.count (byte ':')

instance (banner : Bytes) : Decidable (BannerEnds banner) := inferInstanceAs (Decidable (_ ∨ _))

/-- `parse_banner` stays inside the payload just when the banner ends there. -/
theorem parseBanner_isSome_iff (banner : Bytes) (known : Option Bytes) :
    (∃ result, parseBanner banner known = some result) ↔ BannerEnds banner := by
  unfold parseBanner BannerEnds
  rcases found : strchr (byte ':') banner with _ | _ | place
  · obtain ⟨absent, endless⟩ := strchr_eq_none_iff.mp found
    simp [endless, count_eq_zero_of_not_mem absent]
  · have ends := zero_mem_of_strchr found
    obtain ⟨name, named⟩ := @bannerProduct_isSome [0] (by decide) known
    obtain ⟨state, typed⟩ := bannerState_isSome ends bannerTypes
    have trailing : strchr (byte ':') [0] = some none := by decide
    simp [trailing, named, typed, ends]
  obtain ⟨before, after, rfl, rfl, absent, inside⟩ := strchr_eq_some found
  have ends : (0 : UInt8) ∈ (before ++ byte ':' :: after).set before.length 0 := by simp
  obtain ⟨state, typed⟩ := bannerState_isSome ends bannerTypes
  have product : (before ++ byte ':' :: after).drop (before.length + 1) = after := by simp
  have counted : (before ++ byte ':' :: after).count (byte ':') = after.count (byte ':') + 1 := by
    rw [count_append, count_cons_self, count_eq_zero_of_not_mem absent, Nat.zero_add]
  have nul : 0 ∈ before ++ byte ':' :: after ↔ 0 ∈ after := by
    have colon : (0 : UInt8) ≠ byte ':' := by decide
    simp [inside, colon]
  simp only [some_bind, product, counted, nul]
  generalize (before ++ byte ':' :: after).set before.length 0 = type at typed
  -- everything depends on the end of the product
  rcases trailing : strchr (byte ':') after with _ | _ | place
  · obtain ⟨absent, endless⟩ := strchr_eq_none_iff.mp trailing
    simp [endless, count_eq_zero_of_not_mem absent]
  · obtain ⟨name, named⟩ := bannerProduct_isSome (zero_mem_of_strchr trailing) known
    simp [named, typed, zero_mem_of_strchr trailing]
  obtain ⟨before, after, rfl, rfl, _⟩ := strchr_eq_some trailing
  have ends : (0 : UInt8) ∈ (before ++ byte ':' :: after).set before.length 0 := by simp
  obtain ⟨name, named⟩ := bannerProduct_isSome ends known
  simp only [named, typed, some_bind]
  refine iff_of_true ⟨_, rfl⟩ (.inr ?_)
  rw [count_append, count_cons_self]
  omega

theorem prefix_of_strneq {constant : Bytes} (same : strneq text constant = some true)
    (plain : 0 ∉ constant) : constant <+: text := by
  induction constant generalizing text with
  | nil => exact nil_prefix
  | cons wanted constant ih =>
    cases text with
    | nil => cases same
    | cons char rest =>
      rw [strneq] at same
      split at same
      · cases same
      rename_i equal
      simp only [ne_eq, not_not] at equal
      subst equal
      split at same
      · rename_i zero
        exact absurd (zero ▸ mem_cons_self) plain
      · exact cons_prefix_cons.mpr ⟨rfl, ih same fun member => plain (mem_cons_of_mem _ member)⟩

theorem scanned_isSome (ends : 0 ∈ text) : scanned text = some () := by
  have kept : ∀ {test : UInt8 → Bool} {bytes : Bytes}, test 0 = false → 0 ∈ bytes →
      0 ∈ bytes.dropWhile test := by
    intro test bytes stops member
    rw [← takeWhile_append_dropWhile (p := test) (l := bytes)] at member
    refine (mem_append.mp member).resolve_left fun taken => ?_
    have := mem_takeWhile_imp taken
    rw [stops] at this
    cases this
  have start := @kept isSpace _ (by decide) ends
  unfold scanned
  rcases skipped : text.dropWhile isSpace with _ | ⟨first, rest⟩
  · rw [skipped] at start
    cases start
  rw [skipped] at start
  have later : 0 ∈ if first = byte '-' ∨ first = byte '+' then rest else first :: rest := by
    split
    · rename_i sign
      refine (mem_cons.mp start).resolve_left fun zero => ?_
      rw [← zero] at sign
      revert sign
      decide
    · exact start
  dsimp only
  rw [if_neg]
  exact ne_nil_of_mem (@kept isDigit _ (by decide) later)

/-- The name of a service ends inside the packet, so that is all that is read of it. -/
theorem serviceToFd_isSome (payload : Bytes) :
    ∃ service, serviceToFd (serviceName payload) = some service := by
  have ends : (0 : UInt8) ∈ serviceName payload := by simp [serviceName]
  obtain ⟨same, tested⟩ := strneq_isSome ends (ascii "sideload:")
  unfold serviceToFd
  rw [tested]
  cases same with
  | false => exact ⟨none, rfl⟩
  | true =>
    obtain ⟨rest, whole⟩ := prefix_of_strneq tested (by decide)
    have number : (0 : UInt8) ∈ (serviceName payload).drop 9 := by
      have short : (ascii "sideload:").length = 9 := by decide
      rw [← whole] at ends ⊢
      rw [drop_left' short]
      exact (mem_append.mp ends).resolve_left (by decide)
    exact ⟨_, by simp only [some_bind, scanned_isSome number]; rfl⟩

end PhilzTouch.Adb
