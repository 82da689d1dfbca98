import Mathlib.Data.List.Infix
import PhilzTouch.Lib.Bytes

/-!
# Edify expressions

The functions of `edify/expr.c`.  An expression is what its `fn` does when it is called; a
function gets the expressions of its arguments and decides itself which of them to evaluate.  A
result is a string, a blob or `NULL`, and `NULL` is meant to end the script.
-/

namespace PhilzTouch.Edify

variable {W α β : Type}

/-- `Value`: a string or a blob. -/
inductive Value where
  | string (text : Bytes)
  | blob (data : Bytes)
  deriving DecidableEq, Repr

/-- What can be observed of an evaluation.  A `place` is the position of an expression in its
tree. -/
inductive Event where
  | enter (place : List Nat)
  /-- A function outside of `expr.c` is called. -/
  | called (place : List Nat)
  | exit (place : List Nat) (result : Option Value)
  /-- `ErrorAbort`. -/
  | raised (message : Bytes)
  deriving DecidableEq, Repr

/-- `State`, the standard output and the rest of the world, and what has happened so far. -/
structure State (W : Type) where
  script : Bytes
  errmsg : Option Bytes
  stdout : Bytes
  world : W
  events : List Event

/-- A computation of the interpreter.  It has no result if the behaviour is undefined or if it
does not end. -/
abbrev Eval (W : Type) := StateT (State W) Option

/-- An expression: where it is, what its function does, and which part of the script it comes
from. -/
structure Expr (W : Type) where
  place : List Nat
  fn : Eval W (Option Value)
  start : Nat
  stop : Nat

def record (event : Event) : Eval W Unit :=
  modify fun state => { state with events := state.events ++ [event] }

def setError (message : Bytes) : Eval W Unit :=
  modify fun state => { state with errmsg := some message }

/-- Compose an error message; the result is `NULL`. -/
def errorAbort (message : Bytes) : Eval W (Option α) := do
  setError (message.take 4095)
  record (.raised (message.take 4095))
  return none

def evaluateValue (expr : Expr W) : Eval W (Option Value) := do
  record (.enter expr.place)
  let value ← expr.fn
  record (.exit expr.place value)
  return value

/-- `Evaluate`: the result has to be a string. -/
def evaluate (expr : Expr W) : Eval W (Option Bytes) := do
  match ← evaluateValue expr with
  | none => return none
  | some (.string text) => return some text
  | some (.blob _) => errorAbort (ascii "expecting string, got value type 2")

/-- `if (value == NULL) return NULL;` between a call and what follows it. -/
def orNull (action : Eval W (Option α)) (next : α → Eval W (Option β)) : Eval W (Option β) := do
  match ← action with
  | none => return none
  | some value => next value

def booleanString (text : Bytes) : Bool := text ≠ []

/-! ## Reading arguments -/

/-- `ReadVarArgs`; the loop of `ReadArgs` is the same. -/
def readVarArgs : List (Expr W) → Eval W (Option (List Bytes))
  | [] => return some []
  | expr :: argv =>
    orNull (evaluate expr) fun text =>
      orNull (readVarArgs argv) fun texts => return some (text :: texts)

def readValueVarArgs : List (Expr W) → Eval W (Option (List Value))
  | [] => return some []
  | expr :: argv =>
    orNull (evaluateValue expr) fun value =>
      orNull (readValueVarArgs argv) fun values => return some (value :: values)

/-! ## Functions -/

def literal (name : Bytes) : Eval W (Option Value) := return some (.string name)

def concatFn (argv : List (Expr W)) : Eval W (Option Value) :=
  orNull (readVarArgs argv) fun strings => return some (.string strings.flatten)

def ifElseFn (argv : List (Expr W)) : Eval W (Option Value) := do
  match argv with
  | [cond, yes] =>
    orNull (evaluate cond) fun text =>
      if booleanString text then evaluateValue yes else return some (.string text)
  | [cond, yes, no] =>
    orNull (evaluate cond) fun text =>
      if booleanString text then evaluateValue yes else evaluateValue no
  | _ =>
    setError (ascii "ifelse expects 2 or 3 arguments")
    return none

def abortFn (argv : List (Expr W)) : Eval W (Option Value) := do
  match argv with
  | [] => setError (ascii "called abort()")
  | expr :: _ =>
    let message ← evaluate expr
    setError (message.getD (ascii "called abort()"))
  return none

def assertFn : List (Expr W) → Eval W (Option Value)
  | [] => return some (.string [])
  | expr :: argv =>
    orNull (evaluate expr) fun text => do
      if booleanString text then assertFn argv
      else
        let script := (← get).script
        setError (ascii "assert failed: " ++ script.slice expr.start (expr.stop - expr.start))
        return none

def stdoutFn : List (Expr W) → Eval W (Option Value)
  | [] => return some (.string [])
  | expr :: argv =>
    orNull (evaluate expr) fun text => do
      modify fun state => { state with stdout := state.stdout ++ text }
      stdoutFn argv

def logicalAndFn (left right : Expr W) : Eval W (Option Value) :=
  orNull (evaluate left) fun text =>
    if booleanString text then evaluateValue right else return some (.string text)

def logicalOrFn (left right : Expr W) : Eval W (Option Value) :=
  orNull (evaluate left) fun text =>
    if booleanString text then return some (.string text) else evaluateValue right

def logicalNotFn (operand : Expr W) : Eval W (Option Value) :=
  orNull (evaluate operand) fun text =>
    return some (.string (if booleanString text then [] else ascii "t"))

/-- Two strings are evaluated from left to right and compared. -/
def compareFn (left right : Expr W) (holds : Bytes → Bytes → Bool) : Eval W (Option Value) :=
  orNull (evaluate left) fun first =>
    orNull (evaluate right) fun second =>
      return some (.string (if holds first second then ascii "t" else []))

def equalityFn (left right : Expr W) : Eval W (Option Value) :=
  compareFn left right fun first second => first = second

def inequalityFn (left right : Expr W) : Eval W (Option Value) :=
  compareFn left right fun first second => first ≠ second

/-- `is_substring`.  It does not look at the number of its arguments; one that is missing is read
from behind the array. -/
def substringFn : List (Expr W) → Eval W (Option Value)
  | [] => failure
  | [needle] => orNull (evaluate needle) fun _ => failure
  | needle :: haystack :: _ => compareFn needle haystack fun first second => first <:+: second

def sequenceFn (left right : Expr W) : Eval W (Option Value) :=
  orNull (evaluateValue left) fun _ => evaluateValue right

/-! ## Trees -/

inductive BinaryOp where
  | concat
  | equality
  | inequality
  | and
  | or
  | sequence
  deriving DecidableEq, Repr

/-- The functions that `RegisterBuiltins` makes known to scripts and that only evaluate. -/
inductive Builtin where
  | ifelse
  | abort
  | assert
  | concat
  | isSubstring
  | stdout
  deriving DecidableEq, Repr

/-- The tree of an expression.  Its leaves are literals and calls of functions of type `ι`. -/
inductive Tree (ι : Type) where
  | literal (name : Bytes) (start stop : Nat)
  | leaf (fn : ι) (start stop : Nat)
  | not (operand : Tree ι) (start stop : Nat)
  | binary (op : BinaryOp) (left right : Tree ι) (start stop : Nat)
  | call (fn : Builtin) (argv : List (Tree ι)) (start stop : Nat)

def BinaryOp.fn (left right : Expr W) : BinaryOp → Eval W (Option Value)
  | .concat => concatFn [left, right]
  | .equality => equalityFn left right
  | .inequality => inequalityFn left right
  | .and => logicalAndFn left right
  | .or => logicalOrFn left right
  | .sequence => sequenceFn left right

def Builtin.fn (argv : List (Expr W)) : Builtin → Eval W (Option Value)
  | .ifelse => ifElseFn argv
  | .abort => abortFn argv
  | .assert => assertFn argv
  | .concat => concatFn argv
  | .isSubstring => substringFn argv
  | .stdout => stdoutFn argv

/-- A function outside of `expr.c`: its result, the error message and the world afterwards. -/
abbrev LeafFn (W : Type) := Option Bytes → W → Option Value × Option Bytes × W

def callLeaf (place : List Nat) (fn : LeafFn W) : Eval W (Option Value) := do
  record (.called place)
  let state ← get
  let (result, errmsg, world) := fn state.errmsg state.world
  set { state with errmsg := errmsg, world := world }
  return result

mutual

def Tree.expr {ι : Type} (leaf : ι → LeafFn W) (place : List Nat) : Tree ι → Expr W
  | .literal name start stop => ⟨place, Edify.literal name, start, stop⟩
  | .leaf fn start stop => ⟨place, callLeaf place (leaf fn), start, stop⟩
  | .not operand start stop =>
    ⟨place, logicalNotFn (operand.expr leaf (place ++ [0])), start, stop⟩
  | .binary op left right start stop =>
    ⟨place, op.fn (left.expr leaf (place ++ [0])) (right.expr leaf (place ++ [1])), start, stop⟩
  | .call fn argv start stop => ⟨place, fn.fn (Tree.exprs leaf place 0 argv), start, stop⟩

/-- The expressions of the arguments from number `index` on. -/
def Tree.exprs {ι : Type} (leaf : ι → LeafFn W) (place : List Nat) (index : Nat) :
    List (Tree ι) → List (Expr W)
  | [] => []
  | tree :: argv =>
    tree.expr leaf (place ++ [index]) :: Tree.exprs leaf place (index + 1) argv

end

end PhilzTouch.Edify
