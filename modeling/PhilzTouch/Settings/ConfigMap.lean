import PhilzTouch.Settings.Config

/-!
# The settings file is a map

The lines of a settings file, as `write_config_file` leaves them, hold at most one entry for each
key, and writing an entry replaces the one that was there.  So the file stands for a map from keys
to values, and what is read is what the map says.
-/

namespace PhilzTouch.Settings

open List Function

/-- A key as it may be written: not empty, no comment, and neither `=` nor a newline in it. -/
structure ValidKey (key : Bytes) : Prop where
  nonempty : key ≠ []
  noEquals : equals ∉ key
  noNewline : newline ∉ key
  noNul : (0 : UInt8) ∉ key
  noComment : key.head? ≠ some (byte '#')

structure ValidValue (value : Bytes) : Prop where
  nonempty : value ≠ []
  noNewline : newline ∉ value
  noNul : (0 : UInt8) ∉ value

/-- A line that fits the buffer with its newline. -/
structure GoodLine (line : Bytes) : Prop where
  ended : ∃ body, line = body ++ [newline] ∧ newline ∉ body
  noNul : (0 : UInt8) ∉ line
  short : line.length < propertyValueMax

/-! ## Keys of lines -/

section Keys

variable {key other value line : Bytes}

theorem holdsKey_iff : holdsKey key line = true ↔ ∃ rest, line = key ++ equals :: rest := by
  rw [holdsKey, decide_eq_true_iff]
  constructor
  · rintro ⟨-, ⟨rest, rfl⟩, found⟩
    rw [getElem?_append_right (Nat.le_refl _), Nat.sub_self] at found
    cases rest with
    | nil => cases found
    | cons char rest =>
      cases found
      exact ⟨rest, rfl⟩
  · rintro ⟨rest, rfl⟩
    refine ⟨⟨[], equals :: rest, rfl⟩, ⟨equals :: rest, rfl⟩, ?_⟩
    rw [getElem?_append_right (Nat.le_refl _), Nat.sub_self]
    rfl

theorem holdsKey_unique (valid : ValidKey key) (valid' : ValidKey other)
    (holds : holdsKey key line = true) (holds' : holdsKey other line = true) : key = other := by
  obtain ⟨rest, split⟩ := holdsKey_iff.mp holds
  obtain ⟨rest', split'⟩ := holdsKey_iff.mp holds'
  have first := cut_append valid.noEquals rest
  rw [← split, split', cut_append valid'.noEquals] at first
  cases first
  rfl

theorem holdsKey_entry : holdsKey key (entry key value) = true :=
  holdsKey_iff.mpr ⟨value ++ [newline], by rw [entry, append_assoc, cons_append]⟩

theorem holdsKey_header (valid : ValidKey key) : ∀ line ∈ header, holdsKey key line = false := by
  intro line member
  rw [Bool.eq_false_iff, ne_eq, holdsKey_iff]
  rintro ⟨rest, rfl⟩
  have start : ∀ line ∈ header, line.head? = some (byte '#') ∨ line.head? = some newline := by decide
  cases known : key with
  | nil => exact valid.nonempty known
  | cons char chars =>
    have head : (key ++ equals :: rest).head? = some char := by rw [known]; rfl
    rcases start _ member with comment | blank
    · exact valid.noComment (by rw [known, ← comment, head]; rfl)
    · rw [head] at blank
      cases blank
      exact valid.noNewline (by rw [known]; exact mem_cons_self)

theorem goodLine_header : ∀ line ∈ header, GoodLine line := by
  have checked : ∀ line ∈ header, line = line.dropLast ++ [newline] ∧ newline ∉ line.dropLast ∧
      (0 : UInt8) ∉ line ∧ line.length < propertyValueMax := by decide
  intro line member
  obtain ⟨split, absent, noNul, short⟩ := checked line member
  exact ⟨⟨_, split, absent⟩, noNul, short⟩

theorem goodLine_entry (valid : ValidKey key) (valid' : ValidValue value)
    (short : (entry key value).length < propertyValueMax) : GoodLine (entry key value) := by
  refine ⟨⟨key ++ equals :: value, rfl, ?_⟩, ?_, short⟩
  · have plain : newline ≠ equals := by decide
    simp [valid.noNewline, valid'.noNewline, plain]
  · have plain : (0 : UInt8) ≠ equals ∧ (0 : UInt8) ≠ newline := by decide
    simp [entry, valid.noNul, valid'.noNul, plain]

end Keys

/-! ## Lines of a file -/

section Lines

variable {text : List Bytes} (good : ∀ line ∈ text, GoodLine line)

include good

theorem readLines_flatten : readLines none text.flatten = text := by
  have whole : lines newline text.flatten = text := lines_flatten fun line member =>
    (good line member).ended
  have fits : ∀ line ∈ lines newline text.flatten, line.length ≤ propertyValueMax - 2 + 1 := by
    rw [whole]
    exact fun line member => Nat.le_of_lt_succ (good line member).short
  have read : pieces newline (propertyValueMax - 1) text.flatten = text :=
    (pieces_eq_lines fits).trans whole
  change (pieces newline (propertyValueMax - 1) text.flatten).map cString = text
  rw [read]
  exact (map_congr_left fun line member => cString_eq_self (good line member).noNul).trans (map_id _)

theorem keepLine_good {line : Bytes} (member : line ∈ text) : keepLine line = some line := by
  obtain ⟨body, rfl, -⟩ := (good line member).ended
  rw [keepLine, getLast?_concat]
  exact if_pos rfl

theorem copyLines_good (key : Bytes) :
    copyLines key text = some (text.filter fun line => !holdsKey key line).flatten := by
  induction text with
  | nil => rfl
  | cons line text ih =>
    have rest := ih (forall_mem_cons.mp good).2
    rw [copyLines]
    split
    next holds => rw [filter_cons_of_neg (by simp [holds]), rest]
    next free =>
      rw [filter_cons_of_pos (by simp [free]), keepLine_good good mem_cons_self, rest]
      rfl

end Lines

variable {key : Bytes} {text : List Bytes}

theorem findValue_eq (valid : ValidKey key) {held : Option Bytes}
    (found : text.find? (holdsKey key) = held.map (entry key))
    (values : ∀ value, held = some value → ValidValue value) : findValue key text = some held := by
  induction text with
  | nil =>
    cases held with
    | none => rfl
    | some value => cases found
  | cons line text ih =>
    rw [find?_cons] at found
    rw [findValue]
    cases holds : holdsKey key line with
    | false =>
      rw [holds] at found
      exact ih found
    | true =>
      rw [holds] at found
      cases held with
      | none => cases found
      | some value =>
        cases found
        have valid' := values value rfl
        rw [if_pos rfl, entry, append_assoc, cons_append, cut_append valid.noEquals]
        change (if value ++ [newline] = [] then none else _) = _
        rw [if_neg (by simp), getLast?_concat, if_pos rfl, dropLast_concat, if_pos valid'.nonempty]

/-! ## The map of a file -/

/-- The settings file stands for a map. -/
inductive Mirrors : Option Bytes → (Bytes → Option Bytes) → Prop where
  | missing : Mirrors none fun _ => none
  | held {text : List Bytes} {map : Bytes → Option Bytes} (good : ∀ line ∈ text, GoodLine line)
      (values : ∀ key value, map key = some value → ValidValue value)
      (found : ∀ key, ValidKey key → text.find? (holdsKey key) = (map key).map (entry key)) :
      Mirrors (some text.flatten) map

/-- No call of the system fails without being noticed. -/
def WriteLuck.Faultless (luck : WriteLuck) : Prop :=
  luck.opened = true ∧ luck.readError = none ∧ luck.full = none

/-- A call with an entry as it may be written. -/
structure Call.Valid (call : Call) : Prop where
  key : ValidKey call.key
  value : ValidValue call.value
  short : (entry call.key call.value).length < propertyValueMax

theorem Mirrors.replaced {map : Bytes → Option Bytes} {key value : Bytes}
    (good : ∀ line ∈ text, GoodLine line)
    (values : ∀ key value, map key = some value → ValidValue value)
    (found : ∀ key, ValidKey key → text.find? (holdsKey key) = (map key).map (entry key))
    (valid : ValidKey key) (valid' : ValidValue value)
    (short : (entry key value).length < propertyValueMax) :
    Mirrors (some ((text.filter fun line => !holdsKey key line).flatten ++ entry key value))
      (update map key (some value)) := by
  have joined : (text.filter fun line => !holdsKey key line).flatten ++ entry key value =
      ((text.filter fun line => !holdsKey key line) ++ [entry key value]).flatten := by simp
  rw [joined]
  refine .held ?_ ?_ ?_
  · intro line member
    rcases mem_append.mp member with kept | new
    · exact good line (mem_of_mem_filter kept)
    · rw [mem_singleton.mp new]
      exact goodLine_entry valid valid' short
  · intro other value' held
    by_cases same : other = key
    · rw [same, update_self] at held
      cases held
      exact valid'
    · rw [update_of_ne same] at held
      exact values other value' held
  intro other validOther
  rw [find?_append, find?_filter]
  by_cases same : other = key
  · subst same
    have gone : text.find? (fun line => decide ((!holdsKey other line) = true ∧ holdsKey other line = true)) = none := by
      simp
    rw [gone, update_self, Option.none_or, find?_singleton, if_pos holdsKey_entry]
    rfl
  have kept : text.find? (fun line =>
      decide ((!holdsKey key line) = true ∧ holdsKey other line = true)) =
      text.find? (holdsKey other) := by
    congr 1
    funext line
    cases holds : holdsKey other line with
    | false => simp
    | true =>
      have free : holdsKey key line = false := by
        rw [Bool.eq_false_iff]
        exact fun holds' => same (holdsKey_unique validOther valid holds holds')
      simp [free]
  have free : holdsKey other (entry key value) = false := by
    rw [Bool.eq_false_iff]
    exact fun holds => same (holdsKey_unique validOther valid holds holdsKey_entry)
  rw [kept, found other validOther, update_of_ne same, find?_singleton,
    if_neg (by rw [free]; decide), Option.or_none]

theorem find?_header (valid : ValidKey key) : header.find? (holdsKey key) = none :=
  find?_eq_none.mpr fun line member => by
    rw [holdsKey_header valid line member]
    decide

variable {config : Option Bytes} {map : Bytes → Option Bytes}

theorem copyConfig_mirrors (mirrors : Mirrors config map) {call : Call} (valid : call.Valid)
    (faultless : call.luck.Faultless) : ∃ kept, copyConfig call.key call.luck config = some kept ∧
      Mirrors (some (kept ++ entry call.key call.value))
        (update map call.key (some call.value)) := by
  obtain ⟨opened, noError, -⟩ := faultless
  rw [copyConfig, if_pos opened, noError]
  cases mirrors with
  | missing =>
    have all : header.filter (fun line => !holdsKey call.key line) = header :=
      filter_eq_self.mpr fun line member => by rw [holdsKey_header valid.key line member]; rfl
    have replaced := @Mirrors.replaced header (fun _ => none) _ _ goodLine_header nofun
      (fun key valid => find?_header valid) valid.key valid.value valid.short
    rw [all] at replaced
    exact ⟨_, rfl, replaced⟩
  | held good values found =>
    refine ⟨_, ?_, .replaced good values found valid.key valid.value valid.short⟩
    change copyLines _ _ = _
    rw [readLines_flatten good, copyLines_good good]

/-- A call that succeeds writes to the map; one that fails leaves the file alone. -/
theorem writeConfigFile_mirrors (mirrors : Mirrors config map) {call : Call} (valid : call.Valid)
    (faultless : call.luck.Faultless) :
    ∃ code after map', writeConfigFile call.key call.value call.luck config = some (code, after) ∧
      Mirrors after map' ∧ map' = if code = 0 then update map call.key (some call.value)
        else map := by
  obtain ⟨kept, copied, mirrors'⟩ := copyConfig_mirrors mirrors valid faultless
  rw [writeConfigFile]
  split
  · exact ⟨-1, config, map, rfl, mirrors, rfl⟩
  split
  · exact ⟨-1, config, map, rfl, mirrors, rfl⟩
  rw [copied, some_bind, if_neg (not_le.mpr valid.short)]
  split
  · exact ⟨-1, config, map, rfl, mirrors, rfl⟩
  · refine ⟨0, _, _, rfl, ?_, rfl⟩
    rw [faultless.2.2, if_pos rfl]
    exact mirrors'

/-- The map that calls make of another. -/
def written (calls : List Call) (map : Bytes → Option Bytes) : Bytes → Option Bytes :=
  calls.foldl (fun map call => update map call.key (some call.value)) map

theorem writeAll_mirrors {calls : List Call} (valid : ∀ call ∈ calls, call.Valid)
    (faultless : ∀ call ∈ calls, call.luck.Faultless) (mirrors : Mirrors config map) :
    ∃ codes last, writeAll calls config = some (codes, last) ∧
      ((∀ code ∈ codes, code = 0) → Mirrors last (written calls map)) := by
  induction calls generalizing config map with
  | nil => exact ⟨[], config, rfl, fun _ => mirrors⟩
  | cons call calls ih =>
    obtain ⟨code, after, map', wrote, mirrors', held⟩ := writeConfigFile_mirrors mirrors
      (valid call mem_cons_self) (faultless call mem_cons_self)
    obtain ⟨codes, last, ran, rest⟩ := ih (forall_mem_cons.mp valid).2
      (forall_mem_cons.mp faultless).2 mirrors'
    refine ⟨code :: codes, last, ?_, fun success => ?_⟩
    · rw [writeAll, wrote]
      change (writeAll calls after).bind _ = _
      rw [ran]
      rfl
    · rw [success code mem_cons_self, if_pos rfl] at held
      rw [held] at rest
      exact rest (forall_mem_cons.mp success).2

theorem readConfigFile_mirrors (mirrors : Mirrors config map) (valid : ValidKey key)
    (valueDef : Bytes) : ∃ code, readConfigFile key valueDef ⟨true, none⟩ config =
      some (code, (map key).getD valueDef) := by
  cases mirrors with
  | missing => exact ⟨-1, rfl⟩
  | held good values found =>
    have read := findValue_eq valid (found key valid) (values key)
    rw [readConfigFile, if_pos rfl]
    simp only [readLines_flatten good, read]
    cases map key with
    | none => exact ⟨1, rfl⟩
    | some value => exact ⟨0, rfl⟩

/-- After any calls that return 0, with no settings file at first, what is read for a key is the
value that was last written for it, or the default. -/
theorem config_file_is_map {calls : List Call} (valid : ∀ call ∈ calls, call.Valid)
    (faultless : ∀ call ∈ calls, call.luck.Faultless) :
    ∃ codes config, writeAll calls none = some (codes, config) ∧
      ((∀ code ∈ codes, code = 0) → ∀ key valueDef, ValidKey key →
        ∃ code, readConfigFile key valueDef ⟨true, none⟩ config =
          some (code, (written calls (fun _ => none) key).getD valueDef)) := by
  obtain ⟨codes, config, ran, mirrors⟩ := writeAll_mirrors valid faultless .missing
  exact ⟨codes, config, ran, fun success key valueDef validKey =>
    readConfigFile_mirrors (mirrors success) validKey valueDef⟩

/-- A call for which everything works. -/
def Call.smooth (key value : Bytes) : Call := ⟨key, value, ⟨true, true, true, none, none, true⟩⟩

theorem config_file_is_map_sample : ∃ codes config,
      writeAll [.smooth (ascii "ab") (ascii "1"), .smooth (ascii "a") (ascii "b=2")] none =
        some (codes, config) ∧ ((∀ code ∈ codes, code = 0) → ∀ key valueDef, ValidKey key →
        ∃ code, readConfigFile key valueDef ⟨true, none⟩ config = some (code,
          (written [.smooth (ascii "ab") (ascii "1"), .smooth (ascii "a") (ascii "b=2")]
            (fun _ => none) key).getD valueDef)) := by
  refine config_file_is_map (forall_mem_cons.mpr ⟨?_, forall_mem_singleton.mpr ?_⟩) ?_
  · exact ⟨⟨by decide, by decide, by decide, by decide, by decide⟩,
      ⟨by decide, by decide, by decide⟩, by decide⟩
  · exact ⟨⟨by decide, by decide, by decide, by decide, by decide⟩,
      ⟨by decide, by decide, by decide⟩, by decide⟩
  · exact forall_mem_cons.mpr ⟨⟨rfl, rfl, rfl⟩, forall_mem_singleton.mpr ⟨rfl, rfl, rfl⟩⟩

/-- The second call finds no room for what it writes, but returns 0: both values are gone. -/
theorem config_file_lost : ∃ config, writeAll [.smooth (ascii "a") (ascii "1"),
        ⟨ascii "b", ascii "2", ⟨true, true, true, none, some 0, true⟩⟩] none = some ([0, 0], config) ∧
      readConfigFile (ascii "a") (ascii "default") ⟨true, none⟩ config = some (1, ascii "default") ∧
      readConfigFile (ascii "b") (ascii "default") ⟨true, none⟩ config = some (1, ascii "default") :=
  ⟨some [], by decide +kernel, by decide +kernel, by decide +kernel⟩

end PhilzTouch.Settings
