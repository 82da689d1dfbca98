import PhilzTouch.Edify.Expr
import PhilzTouch.Lib.CText

/-!
# Comparing integers

The functions `sleep`, `less_than_int` and `greater_than_int` of `edify/expr.c`.  They read numbers
with `strtol`, which takes a number beyond the range of `long` for the end of the range, so that
two numbers beyond the same end seem to be equal.
-/

namespace PhilzTouch.Edify

variable {W : Type}

/-! ## The functions -/

/-- A number without its sign. -/
def unsigned : Bytes → Bytes
  | [] => []
  | first :: rest => if first = byte '-' ∨ first = byte '+' then rest else first :: rest

/-- `strtol` in base ten, with a `long` of 32 bits: the number, and what stands behind it. -/
def strtol (text : Bytes) : Int × Bytes :=
  match scanNumber text with
  | none => (0, text)
  | some value => (clamp 32 value, (unsigned (text.dropWhile isSpace)).dropWhile isDigit)

/-- The number that an argument has to be, and a message if it is none. -/
def readInt (text : Bytes) : Eval W (Option Int) :=
  if text = [] ∨ (strtol text).2 ≠ [] then do
    modify fun state =>
      { state with stdout := state.stdout ++ ascii "[" ++ text ++ ascii "] is not an int\n" }
    return none
  else return some (strtol text).1

/-- What functions return for `true` and `false`. -/
def truth (holds : Bool) : Bytes := if holds then ascii "t" else []

/-- What `less_than_int` does with its arguments when they have been evaluated. -/
def compareInts (left right : Bytes) : Eval W (Option Value) := do
  match ← readInt left with
  | none => return some (.string (truth false))
  | some leftInt =>
    match ← readInt right with
    | none => return some (.string (truth false))
    | some rightInt => return some (.string (truth (leftInt < rightInt)))

def lessThanIntFn : List (Expr W) → Eval W (Option Value)
  | [left, right] =>
    orNull (evaluate left) fun leftText =>
      orNull (evaluate right) fun rightText => compareInts leftText rightText
  | _ => do
    setError (ascii "less_than_int expects 2 arguments")
    return none

/-- `greater_than_int` is `less_than_int` with the arguments exchanged. -/
def greaterThanIntFn : List (Expr W) → Eval W (Option Value)
  | [left, right] => lessThanIntFn [right, left]
  | _ => do
    setError (ascii "greater_than_int expects 2 arguments")
    return none

/-- `sleep`, which reads an argument that is missing from behind the array. -/
def sleepFn : List (Expr W) → Eval W (Option Value)
  | [] => failure
  | expr :: _ => orNull (evaluate expr) fun text => return some (.string text)

/-! ## Decimal numbers -/

/-- A text that is a decimal number, with or without a sign. -/
inductive Decimal : Bytes → Int → Prop where
  | plain {digits : Bytes} (some : digits ≠ []) (all : ∀ char ∈ digits, isDigit char = true) :
      Decimal digits (decimalValue digits)
  | plus {digits : Bytes} (some : digits ≠ []) (all : ∀ char ∈ digits, isDigit char = true) :
      Decimal (byte '+' :: digits) (decimalValue digits)
  | minus {digits : Bytes} (some : digits ≠ []) (all : ∀ char ∈ digits, isDigit char = true) :
      Decimal (byte '-' :: digits) (-decimalValue digits)

variable {text : Bytes} {value : Int}

theorem Decimal.ne_nil (decimal : Decimal text value) : text ≠ [] := by
  cases decimal with
  | plain some => exact some
  | plus => exact List.cons_ne_nil _ _
  | minus => exact List.cons_ne_nil _ _

/-- All of a decimal number is read, up to the range of `long`. -/
theorem Decimal.strtol_eq (decimal : Decimal text value) : strtol text = (clamp 32 value, []) := by
  have behind : ∀ digits : Bytes, (∀ char ∈ digits, isDigit char = true) →
      digits.takeWhile isDigit = digits ∧ digits.dropWhile isDigit = [] := fun digits all =>
    ⟨List.takeWhile_eq_self_iff.mpr all, List.dropWhile_eq_nil_iff.mpr all⟩
  cases decimal with
  | plain some all =>
    rw [strtol, scanNumber_digits all some]
    cases text with
    | nil => exact absurd rfl some
    | cons first rest =>
      have digit := all first List.mem_cons_self
      have unsign : ¬ (first = byte '-' ∨ first = byte '+') := by
        rintro (rfl | rfl)
        · exact absurd digit (by decide)
        · exact absurd digit (by decide)
      rw [List.dropWhile_cons, if_neg (by rw [isSpace_of_isDigit digit]; decide), unsigned,
        if_neg unsign, (behind _ all).2]
  | plus some all =>
    have solid : isSpace (byte '+') = false := by decide
    have other : byte '+' ≠ byte '-' := by decide
    simp [strtol, scanNumber, unsigned, solid, other, behind _ all, some]
  | minus some all =>
    have solid : isSpace (byte '-') = false := by decide
    simp [strtol, scanNumber, unsigned, solid, behind _ all, some]

theorem readInt_decimal (decimal : Decimal text value) :
    readInt (W := W) text = pure (some (clamp 32 value)) := by
  simp [readInt, decimal.strtol_eq, decimal.ne_nil]

/-! ## Comparisons -/

/-- An expression whose value is a string. -/
def Yields (expr : Expr W) (text : Bytes) : Prop :=
  ∀ state, ∃ after, evaluate expr state = some (some text, after)

/-- A call that returns a string. -/
def Returns (action : Eval W (Option Value)) (state : State W) (text : Bytes) : Prop :=
  ∃ after, action state = some (some (.string text), after)

theorem orNull_yields {expr : Expr W} {next : Bytes → Eval W (Option Value)} {state : State W}
    (yields : Yields expr text) : ∃ after, orNull (evaluate expr) next state = next text after := by
  obtain ⟨after, ran⟩ := yields state
  refine ⟨after, ?_⟩
  change (evaluate expr state).bind _ = _
  rw [ran]
  rfl

section Comparison

variable {left right : Expr W} {leftText rightText : Bytes} {x y : Int} {state : State W}

/-- What is compared are the numbers that `strtol` returns. -/
theorem lessThanIntFn_returns (first : Decimal leftText x) (second : Decimal rightText y)
    (yields : Yields left leftText) (yields' : Yields right rightText) {text : Bytes} :
    Returns (lessThanIntFn [left, right]) state text ↔ truth (clamp 32 x < clamp 32 y) = text := by
  rw [Returns, lessThanIntFn]
  obtain ⟨between, ran⟩ := orNull_yields yields
  rw [ran]
  obtain ⟨after, ran'⟩ := orNull_yields yields'
  rw [ran', compareInts, readInt_decimal first, readInt_decimal second]
  change (∃ last, some (some (Value.string (truth (clamp 32 x < clamp 32 y))), after) = _) ↔ _
  simp

theorem truth_eq_iff {first second : Bool} : truth first = truth second ↔ first = second := by
  cases first <;> cases second <;> decide

/-- `less_than_int` and `greater_than_int` compare two decimal numbers properly if and only if they
are equal or not both at or beyond the same end of the range of `long`. -/
theorem int_comparison_iff (first : Decimal leftText x) (second : Decimal rightText y)
    (yields : Yields left leftText) (yields' : Yields right rightText) :
    Returns (lessThanIntFn [left, right]) state (truth (x < y)) ∧
        Returns (greaterThanIntFn [left, right]) state (truth (y < x)) ↔
      x = y ∨ ¬ (2 ^ 31 - 1 ≤ x ∧ 2 ^ 31 - 1 ≤ y) ∧ ¬ (x ≤ -2 ^ 31 ∧ y ≤ -2 ^ 31) := by
  have clamped : ∀ value, clamp 32 value = max (-2 ^ 31) (min (2 ^ 31 - 1) value) := fun _ => rfl
  rw [greaterThanIntFn, lessThanIntFn_returns first second yields yields',
    lessThanIntFn_returns second first yields' yields, truth_eq_iff, truth_eq_iff,
    decide_eq_decide, decide_eq_decide, clamped, clamped]
  omega

end Comparison

def literalExpr (text : Bytes) : Expr Unit := ⟨[], literal text, 0, 0⟩

theorem literalExpr_yields (text : Bytes) : Yields (literalExpr text) text :=
  fun _ => ⟨_, rfl⟩

theorem int_comparison_iff_small :
    Returns (lessThanIntFn [literalExpr (ascii "-5"), literalExpr (ascii "+12")])
        ⟨[], none, [], (), []⟩ (truth true) ∧
      Returns (greaterThanIntFn [literalExpr (ascii "-5"), literalExpr (ascii "+12")])
        ⟨[], none, [], (), []⟩ (truth false) :=
  (int_comparison_iff (@Decimal.minus (ascii "5") (by decide) (List.all_eq_true.mp rfl))
    (@Decimal.plus (ascii "12") (by decide) (List.all_eq_true.mp rfl)) (literalExpr_yields _)
    (literalExpr_yields _)).mpr (by decide)

/-- Two numbers beyond the range of `long` seem to be equal. -/
theorem less_than_int_beyond :
    Decimal (ascii "2147483648") 2147483648 ∧ Decimal (ascii "3000000000") 3000000000 ∧
      ¬ Returns (lessThanIntFn [literalExpr (ascii "2147483648"), literalExpr (ascii "3000000000")])
        ⟨[], none, [], (), []⟩ (truth ((2147483648 : Int) < 3000000000)) := by
  have low : Decimal (ascii "2147483648") 2147483648 :=
    @Decimal.plain (ascii "2147483648") (by decide) (List.all_eq_true.mp rfl)
  have high : Decimal (ascii "3000000000") 3000000000 :=
    @Decimal.plain (ascii "3000000000") (by decide) (List.all_eq_true.mp rfl)
  refine ⟨low, high, fun returns => ?_⟩
  rw [lessThanIntFn_returns low high (literalExpr_yields _) (literalExpr_yields _)] at returns
  exact absurd returns (by decide)

end PhilzTouch.Edify
