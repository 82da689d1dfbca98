import PhilzTouch.ApplyPatch.Applypatch

/-!
# Digests as text

`ParseSha1` digit by digit, and `PrintSha1` of `updater/install.c`.
-/

namespace PhilzTouch.ApplyPatch

open List

/-- The loop of `ParseSha1` with `left` digits to go, and the test behind it.  `digest` is
what it has stored; a read behind the NUL at the end of the buffer has no result. -/
def parseDigits : (left : Nat) → (ps : Text) → (digest : Bytes) → Option (Option Bytes)
  | _, [], _ => none
  | 0, letter :: _, digest => some (if letter = '\x00' then some digest else none)
  | left + 1, letter :: ps, digest =>
    match hexDigit letter with
    | none => some none
    | some digit =>
      if left % 2 = 1 then parseDigits left ps (digest ++ [UInt8.ofNat (digit <<< 4)])
      else parseDigits left ps (digest.dropLast ++ [digest.getLastD 0 ||| UInt8.ofNat digit])

/-- A C string. -/
abbrev CText := {str : Text // '\x00' ∉ str}

def parseSha1Buffer (str : CText) : Option (Option Bytes) := parseDigits 40 (str ++ ['\x00']) []

/-- The digits that `PrintSha1` writes for a byte. -/
def printByte (byte : UInt8) : Text :=
  let alphabet := "0123456789abcdef".toList
  [alphabet.getD (byte.toNat >>> 4 &&& 0xf) '\x00', alphabet.getD (byte.toNat &&& 0xf) '\x00']

def printSha1 (digest : Bytes) : Text := digest.flatMap printByte ++ ['\x00']

theorem hexDigit_lt {letter : Char} {value : Nat} (digit : hexDigit letter = some value) :
    value < 16 := by
  unfold hexDigit at digit
  simp only [Char.le_def, UInt32.le_iff_toNat_le, Char.toNat_val, Char.reduceToNat] at digit
  split_ifs at digit with decimal lower upper <;> cases digit <;> omega

theorem join_halves : ∀ high < 16, ∀ low < 16,
    UInt8.ofNat (high <<< 4) ||| UInt8.ofNat low = UInt8.ofNat (16 * high + low) := by
  decide

/-- The loop reads the digits of a string in pairs, and never behind its NUL. -/
theorem parseDigits_eq (count : Nat) (str : Text) (digest : Bytes) (ended : '\x00' ∉ str) :
    parseDigits (2 * count) (str ++ ['\x00']) digest =
      some ((parseHex count str).map (digest ++ ·)) := by
  have nul : hexDigit '\x00' = none := rfl
  induction count generalizing str digest with
  | zero =>
    rcases str with _ | ⟨letter, str⟩
    · simp [parseDigits, parseHex]
    · have other : letter ≠ '\x00' := (ne_of_not_mem_cons ended).symm
      simp [parseDigits, parseHex, other]
  | succ count ih =>
    rcases str with _ | ⟨high, _ | ⟨low, str⟩⟩
    · rfl
    · cases first : hexDigit high <;> simp [Nat.mul_succ, parseDigits, parseHex, first, nul]
    rcases first : hexDigit high with _ | upper
    · simp [Nat.mul_succ, parseDigits, parseHex, first]
    rcases second : hexDigit low with _ | lower
    · simp [Nat.mul_succ, parseDigits, parseHex, first, second]
    have odd : (2 * count + 1) % 2 = 1 := by omega
    have even : ¬ 2 * count % 2 = 1 := by omega
    simp only [Nat.mul_succ, cons_append, parseDigits, first, second, if_pos odd, if_neg even,
      dropLast_concat, getLastD_concat, join_halves upper (hexDigit_lt first) lower (hexDigit_lt second)]
    rw [ih str _ (mt (mem_cons_of_mem _ ∘ mem_cons_of_mem _) ended), parseHex, first, second]
    cases parseHex count str <;> simp

theorem printByte_spec : ∀ value < 256, '\x00' ∉ printByte (.ofNat value) ∧
    parseHex 1 (printByte (.ofNat value)) = some [.ofNat value] := by
  decide +kernel

theorem parseHex_printed (digest : Bytes) : '\x00' ∉ digest.flatMap printByte ∧
    parseHex digest.length (digest.flatMap printByte) = some digest := by
  induction digest with
  | nil => exact ⟨not_mem_nil, rfl⟩
  | cons byte digest ih =>
    obtain ⟨free, read⟩ := printByte_spec byte.toNat byte.toNat_lt
    rw [UInt8.ofNat_toNat] at free read
    refine ⟨by simp [free, ih.1], ?_⟩
    simp only [printByte, parseHex, Option.bind_eq_bind, Option.bind_eq_some_iff] at read
    obtain ⟨high, first, low, second, _, ⟨⟩, ⟨⟩⟩ := read
    simp only [flatMap_cons, printByte, cons_append, length_cons, parseHex, first, second]
    rw [nil_append, ih.2]
    rfl

theorem parseHex_length {count : Nat} {str : Text} {digest : Bytes}
    (parsed : parseHex count str = some digest) : str.length = 2 * count := by
  fun_induction parseHex count str generalizing digest with
  | case1 => rfl
  | case2 count high low text ih =>
    simp only [Option.bind_eq_bind, Option.bind_eq_some_iff] at parsed
    obtain ⟨_, _, _, _, rest, parsed, _⟩ := parsed
    have := ih parsed
    simp
    omega
  | case3 => cases parsed

/-- What the comment of `ParseSha1` asks of a string: 40 hexadecimal digits, which are
all of it or have a colon behind them. -/
def Documented (str : Text) (digest : Bytes) : Prop :=
  ∃ digits rest, str = digits ++ rest ∧ parseHex 20 digits = some digest ∧
    (rest = [] ∨ ∃ anything, rest = ':' :: anything)

/-- `PrintSha1` is read back, and `ParseSha1`, which stays inside the buffer, does what its
comment says where 40 digits have no colon behind them. -/
theorem parseSha1_documented_iff (digest : {digest : Bytes // digest.length = 20}) (str : CText) :
    parseDigits 40 (printSha1 digest) [] = some (some digest.1) ∧
    ((∃ result, parseSha1Buffer str = some result ∧
        ∀ digest, result = some digest ↔ Documented str digest) ↔
      ¬ ∃ digits anything, str = digits ++ ':' :: anything ∧ (parseHex 20 digits).isSome) := by
  refine ⟨?_, ?_⟩
  · obtain ⟨digest, length⟩ := digest
    obtain ⟨free, read⟩ := parseHex_printed digest
    rw [length] at read
    rw [printSha1, parseDigits_eq 20 _ [] free, read]
    rfl
  have run : parseSha1Buffer str = some (parseHex 20 str) := by
    rw [parseSha1Buffer, parseDigits_eq 20 str [] str.2]
    simp
  rw [run]
  constructor
  · rintro ⟨_, ⟨⟩, exact⟩ ⟨digits, anything, split, digest⟩
    obtain ⟨digest, parsed⟩ := Option.isSome_iff_exists.mp digest
    have whole := parseHex_length
      ((exact digest).mpr ⟨digits, _, split, parsed, .inr ⟨anything, rfl⟩⟩)
    have part := parseHex_length parsed
    simp [split, part] at whole
  · intro free
    refine ⟨_, rfl, fun digest => ⟨fun parsed => ?_, ?_⟩⟩
    · exact ⟨str, [], (append_nil _).symm, parsed, .inl rfl⟩
    · rintro ⟨digits, _, split, parsed, rfl | ⟨anything, rfl⟩⟩
      · rw [split, append_nil, parsed]
      · exact absurd ⟨digits, anything, split, by simp [parsed]⟩ free

/-- A digest with a name behind it. -/
theorem parseSha1_rejects_named : ∃ str : CText, parseSha1Buffer str = some none ∧
    Documented str (replicate 20 0) :=
  ⟨⟨replicate 40 '0' ++ ":x".toList, by decide⟩, by decide, replicate 40 '0', ":x".toList, rfl,
    by decide, .inr ⟨['x'], rfl⟩⟩

end PhilzTouch.ApplyPatch
