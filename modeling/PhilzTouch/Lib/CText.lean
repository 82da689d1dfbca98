import Mathlib.Data.List.TakeWhile
import PhilzTouch.Lib.Bytes

/-!
# Texts as the C library reads them

Strings end at their first NUL; `atoi` and its relatives skip white space, take a sign and then as
many digits as there are.
-/

namespace PhilzTouch

def newline : UInt8 := byte '\n'

def slash : UInt8 := byte '/'

def equals : UInt8 := byte '='

/-- The string that a buffer holds: what stands before the first NUL. -/
def cString (buffer : Bytes) : Bytes := buffer.takeWhile (· ≠ 0)

variable {text : Bytes}

theorem cString_append (nulFree : 0 ∉ text) (rest : Bytes) :
    cString (text ++ 0 :: rest) = text := by
  rw [cString, List.takeWhile_append_of_pos, List.takeWhile_cons_of_neg (by decide), List.append_nil]
  exact fun char member => decide_eq_true fun zero => nulFree (zero ▸ member)

theorem cString_eq_self (nulFree : 0 ∉ text) : cString text = text :=
  List.takeWhile_eq_self_iff.mpr fun _ member =>
    decide_eq_true fun zero => nulFree (zero ▸ member)

def isSpace (char : UInt8) : Bool := char = 32 || (9 ≤ char && char ≤ 13)

def isDigit (char : UInt8) : Bool := byte '0' ≤ char && char ≤ byte '9'

/-- The number that a string of decimal digits denotes. -/
def decimalValue (digits : Bytes) : Nat :=
  digits.foldl (fun value digit => 10 * value + (digit.toNat - 48)) 0

/-- The number in front of a text, after white space and a sign. -/
def scanNumber (text : Bytes) : Option Int :=
  match text.dropWhile isSpace with
  | [] => none
  | first :: rest =>
    let unsigned := if first = byte '-' ∨ first = byte '+' then rest else first :: rest
    let digits := unsigned.takeWhile isDigit
    if digits = [] then none
    else if first = byte '-' then some (-(decimalValue digits : Int))
    else some (decimalValue digits)

/-- `value`, or the end of the range of signed numbers of `bits` bits next to it. -/
def clamp (bits : Nat) (value : Int) : Int :=
  max (-(2 ^ (bits - 1))) (min (2 ^ (bits - 1) - 1) value)

/-- `value` as a 32-bit `int`. -/
def toInt (value : Int) : Int := value.bmod (2 ^ 32)

/-- `atoi`, with a `long` of 32 bits. -/
def atoi (text : Bytes) : Int := clamp 32 ((scanNumber text).getD 0)

theorem isSpace_of_isDigit {char : UInt8} (digit : isDigit char = true) : isSpace char = false := by
  simp only [isDigit, byte, Bool.and_eq_true, decide_eq_true_eq, UInt8.le_iff_toNat_le] at digit
  have low : 48 ≤ char.toNat := digit.1
  simp only [isSpace, Bool.or_eq_false_iff, Bool.and_eq_false_iff, decide_eq_false_iff_not,
    UInt8.le_iff_toNat_le, ← UInt8.toNat_inj]
  change ¬ char.toNat = 32 ∧ (¬ 9 ≤ char.toNat ∨ ¬ char.toNat ≤ 13)
  omega

theorem scanNumber_digits (digits : ∀ char ∈ text, isDigit char = true)
    (some : text ≠ []) : scanNumber text = Option.some (decimalValue text : Int) := by
  cases text with
  | nil => exact absurd rfl some
  | cons first rest =>
    have leading := digits first List.mem_cons_self
    have solid := isSpace_of_isDigit leading
    have minus : first ≠ byte '-' := by
      rintro rfl
      exact absurd leading (by decide)
    have plus : first ≠ byte '+' := by
      rintro rfl
      exact absurd leading (by decide)
    have all : (first :: rest).takeWhile isDigit = first :: rest :=
      List.takeWhile_eq_self_iff.mpr digits
    rw [scanNumber, List.dropWhile_cons, if_neg (by rw [solid]; decide)]
    simp only [minus, plus, or_self, if_false, all]
    rw [if_neg (List.cons_ne_nil _ _)]

end PhilzTouch
