import PhilzTouch.Dedupe.Manifest
import Mathlib.Data.Nat.Digits.Lemmas

/-!
# Numbers in manifests

Numbers are written by `printf` in octal or decimal digits and read back by `atoi`.  The
mode is written in octal but read as a decimal number, which `dec_to_oct` then takes
apart into its digits again.
-/

namespace PhilzTouch.Dedupe

open List

def digitByte (digit : Nat) : UInt8 := UInt8.ofNat (48 + digit)

/-- `value` as `%o` and `%lu` write it, in digits of the given base. -/
def numeral (base value : Nat) : Bytes :=
  if value = 0 then [digitByte 0] else (Nat.digits base value).reverse.map digitByte

/-- `value` as `%d` writes it. -/
def numeralInt (value : Int) : Bytes :=
  if value < 0 then byte '-' :: numeral 10 value.natAbs else numeral 10 value.natAbs

/-- The loop of `dec_to_oct`; an `int` has at most ten digits. -/
def decToOctLoop : Nat → (dec mult ret : Int) → Int
  | 0, _, _, ret => ret
  | fuel + 1, dec, mult, ret =>
    if dec = 0 then ret
    else decToOctLoop fuel (dec.tdiv 10) (mult * 8) (ret + dec.tmod 10 * mult)

def decToOct (dec : Int) : Int := decToOctLoop 10 dec 1 0

/-! ## Digits -/

theorem digitByte_toNat {digit : Nat} (small : digit < 10) : (digitByte digit).toNat = 48 + digit := by
  rw [digitByte, UInt8.toNat_ofNat']
  omega

theorem isDigit_digitByte {digit : Nat} (small : digit < 10) : isDigit (digitByte digit) = true := by
  interval_cases digit <;> decide

variable {digits : List Nat}

theorem decimalValue_digits (small : ∀ digit ∈ digits, digit < 10) :
    decimalValue (digits.reverse.map digitByte) = Nat.ofDigits 10 digits := by
  induction digits with
  | nil => rfl
  | cons digit digits ih =>
    have first := digitByte_toNat (small digit mem_cons_self)
    have rest := ih (forall_mem_cons.mp small).2
    rw [decimalValue] at rest ⊢
    rw [reverse_cons, map_append, foldl_append, rest, Nat.ofDigits_cons]
    simp only [map_cons, map_nil, foldl_cons, foldl_nil, first]
    omega

section

variable {base : Nat}

theorem digits_small (wide : 1 < base) (narrow : base ≤ 10) (value : Nat) :
    ∀ digit ∈ Nat.digits base value, digit < 10 := fun _ member =>
  lt_of_lt_of_le (Nat.digits_lt_base wide member) narrow

theorem numeral_isDigit (wide : 1 < base) (narrow : base ≤ 10) (value : Nat) :
    ∀ char ∈ numeral base value, isDigit char = true := by
  intro char member
  rw [numeral] at member
  split at member
  · rw [mem_singleton.mp member]
    decide
  · obtain ⟨digit, found, rfl⟩ := mem_map.mp member
    exact isDigit_digitByte (digits_small wide narrow value digit (mem_reverse.mp found))

theorem numeral_ne_nil (base value : Nat) : numeral base value ≠ [] := by
  rw [numeral]
  split
  · exact cons_ne_nil _ _
  next nonzero =>
    intro empty
    have none := reverse_eq_nil_iff.mp (map_eq_nil_iff.mp empty)
    exact nonzero (Nat.digits_eq_nil_iff_eq_zero.mp none)

theorem decimalValue_numeral (wide : 1 < base) (narrow : base ≤ 10) (value : Nat) :
    decimalValue (numeral base value) = Nat.ofDigits 10 (Nat.digits base value) := by
  rw [numeral]
  split
  next zero =>
    subst zero
    rw [Nat.digits_zero]
    rfl
  next => exact decimalValue_digits (digits_small wide narrow value)

theorem length_numeral (wide : 1 < base) {value width : Nat} (fits : value < base ^ width)
    (some : 0 < width) : (numeral base value).length ≤ width := by
  rw [numeral]
  split
  · exact some
  · rw [length_map, length_reverse]
    exact (Nat.digits_length_le_iff wide value).mpr fits

end

/-- The marks a manifest uses are no digits. -/
theorem notMem_of_isDigit {text : Bytes} (digits : ∀ char ∈ text, isDigit char = true)
    {mark : UInt8} (other : isDigit mark = false) : mark ∉ text := by
  intro member
  rw [digits mark member] at other
  cases other

/-- `atoi` reads back what was written, up to the range of `long`. -/
theorem atoi_numeral (value : Nat) : atoi (numeral 10 value) = clamp 32 value := by
  rw [atoi, scanNumber_digits (numeral_isDigit (by decide) (by decide) value)
    (numeral_ne_nil 10 value), decimalValue_numeral (by decide) (by decide), Nat.ofDigits_digits]
  rfl

/-! ## The mode -/

theorem decToOctLoop_zero (fuel : Nat) (mult ret : Int) : decToOctLoop fuel 0 mult ret = ret := by
  cases fuel with
  | zero => rfl
  | succ fuel => rw [decToOctLoop, if_pos rfl]

/-- The loop weighs the decimal digits with powers of eight. -/
theorem decToOctLoop_digits (small : ∀ digit ∈ digits, digit < 10) {fuel : Nat}
    (enough : digits.length ≤ fuel) (mult ret : Int) :
    decToOctLoop fuel (Nat.ofDigits 10 digits : Nat) mult ret =
      ret + mult * (Nat.ofDigits 8 digits : Nat) := by
  induction digits generalizing fuel mult ret with
  | nil =>
    rw [Nat.ofDigits_nil, Nat.ofDigits_nil, Nat.cast_zero, decToOctLoop_zero, mul_zero, add_zero]
  | cons digit digits ih =>
    have first := small digit mem_cons_self
    have later := (forall_mem_cons.mp small).2
    cases fuel with
    | zero => cases enough
    | succ fuel =>
      have short : digits.length ≤ fuel := Nat.le_of_succ_le_succ enough
      have rest := ih later short (mult * 8) (ret + digit * mult)
      rw [Nat.ofDigits_cons, Nat.ofDigits_cons]
      generalize Nat.ofDigits 10 digits = high at rest
      generalize Nat.ofDigits 8 digits = high' at rest
      rw [decToOctLoop]
      have shifted : ((digit + 10 * high : Nat) : Int).tdiv 10 = (high : Int) := by
        rw [Int.tdiv_eq_ediv_of_nonneg (Int.natCast_nonneg _)]
        omega
      have unit : ((digit + 10 * high : Nat) : Int).tmod 10 = (digit : Int) := by
        rw [Int.tmod_eq_emod_of_nonneg (Int.natCast_nonneg _)]
        omega
      split
      next zero =>
        have noDigit : digit = 0 := by omega
        have noHigh : high = 0 := by omega
        subst noDigit noHigh
        rw [Nat.cast_zero, decToOctLoop_zero] at rest
        push_cast
        linarith
      next =>
        rw [shifted, unit, rest]
        push_cast
        ring

/-- The mode that was written in octal digits is the mode that is read. -/
theorem decToOct_numeral {mode : Nat} (small : mode < 8 ^ 8) :
    decToOct (atoi (numeral 8 mode)) = mode := by
  have octal : ∀ digit ∈ Nat.digits 8 mode, digit < 10 := digits_small (by decide) (by decide) mode
  have short : (Nat.digits 8 mode).length ≤ 8 := (Nat.digits_length_le_iff (by decide) mode).mpr small
  have bounded : Nat.ofDigits 10 (Nat.digits 8 mode) < 10 ^ 8 :=
    lt_of_lt_of_le (Nat.ofDigits_lt_base_pow_length (by decide) octal)
      (Nat.pow_le_pow_right (by decide) short)
  have exact : atoi (numeral 8 mode) = (Nat.ofDigits 10 (Nat.digits 8 mode) : Nat) := by
    rw [atoi, scanNumber_digits (numeral_isDigit (by decide) (by decide) mode)
      (numeral_ne_nil 8 mode), decimalValue_numeral (by decide) (by decide), Option.getD_some, clamp]
    omega
  rw [exact, decToOct, decToOctLoop_digits octal (le_trans short (by decide)), Nat.ofDigits_digits]
  simp

end PhilzTouch.Dedupe
