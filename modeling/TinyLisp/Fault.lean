import TinyLisp.CallStack
import TinyLisp.Reader.Error
import TinyLisp.Value.Printer

/-!
# Faults and failures

A fault is the cause of an evaluation or a command that came to nothing. It belongs to a class, its
condition, and has one text (`Fault.message`). A failure is a fault together with the call stack at
the place where it arose, if it arose in an evaluation.
-/

namespace TinyLisp

/-- What is wrong with a special form. -/
inductive FormProblem where
  /-- The number of operands is outside `least` to `most`. -/
  | operands (least most got : Nat)
  /-- A value stands where a symbol is needed. -/
  | notSymbol (got : Value)
  /-- The bindings are not in a list. -/
  | bindingsNotList (got : Value.Kind)
  /-- A name in the binding list has no value. -/
  | oddBindings (length : Nat)
  /-- The parameters are not in a list. -/
  | parametersNotList (got : Value.Kind)
  /-- What an embedding program states. -/
  | stated (message : Text) (symbolNeeded : Bool)

namespace FormProblem

/-- Whether a symbol was needed. -/
def needsSymbol : FormProblem → Bool
  | .notSymbol _ => true
  | .stated _ symbolNeeded => symbolNeeded
  | _ => false

/-- The text of a problem. -/
def message (cells : Array Value) : FormProblem → Text
  | .operands least most got =>
    if least = most then
      "expected " ++ Text.ofNat least ++ " " ++ Text.plural least "operand" ++ " (got "
        ++ Text.ofNat got ++ ")"
    else
      "expected " ++ Text.ofNat least ++ " to " ++ Text.ofNat most ++ " operands (got "
        ++ Text.ofNat got ++ ")"
  | .notSymbol got => "expected a symbol but got " ++ got.render cells
  | .bindingsNotList got => "first operand is not a list: " ++ got.name
  | .oddBindings length => "binding list has an odd number of elements: " ++ Text.ofNat length
  | .parametersNotList got => "parameter list is not a list: " ++ got.name
  | .stated message _ => message

end FormProblem

/-- Why an evaluation or a command came to nothing. -/
inductive Fault where
  /-- No scope in reach binds the name. -/
  | unbound (name : Text)
  /-- An argument, counted from one, is not of the kind that the function needs. -/
  | typeMismatch (function : Text) (position : Int) (expected : Value.Kind) (got : Value)
  /-- A function was called with the wrong number of arguments. -/
  | arityMismatch (function : Text) (expected got : Int)
  /-- The head of a call is no function. -/
  | notCallable (got : Value)
  /-- The empty list was evaluated. -/
  | emptyCall (source : Option Location)
  /-- A special form is malformed. -/
  | malformed (form : Text) (source : Option Location) (problem : FormProblem)
  /-- The call stack would have reached this height. -/
  | stackOverflow (height : Int)
  /-- A source does not read. -/
  | unreadable (error : ReadError)
  /-- A fault of a class of its own. -/
  | raised (condition message : Text)
  /-- A fault without a class. -/
  | plain (message : Text)
  /-- A fault with a word in front on where it arose. -/
  | within (context : Text) (cause : Fault)

namespace Fault

/-- The class of a fault. -/
def condition : Fault → Text
  | .unbound _ => "unbound-symbol"
  | .typeMismatch .. => "type-mismatch"
  | .arityMismatch .. => "arity-mismatch"
  | .notCallable _ => "not-callable"
  | .emptyCall _ => "empty-call"
  | .malformed _ _ problem => if problem.needsSymbol then "expected-symbol" else "invalid-form"
  | .stackOverflow _ => "stack-overflow"
  | .unreadable error => error.reason.condition
  | .raised condition _ => condition
  | .plain _ => "error"
  | .within _ cause => cause.condition

/-- A location in front of a message, where there is one. -/
def located (source : Option Location) (message : Text) : Text :=
  match source with
  | some loc => loc.render ++ ": " ++ message
  | none => message

/-- The text of a fault. Values in it print with the contents of atoms taken from `cells`. -/
def message (cells : Array Value) : Fault → Text
  | .unbound name => "unbound symbol: " ++ name
  | .typeMismatch function position expected got =>
    "type mismatch: expected " ++ expected.name ++ " at argument position " ++ Text.ofInt position
      ++ " of " ++ function ++ " but got " ++ got.render cells
  | .arityMismatch function expected got =>
    function ++ ": expected " ++ Text.ofInt expected ++ " " ++ Text.plural expected "argument"
      ++ " (got " ++ Text.ofInt got ++ ")"
  | .notCallable got => "attempted to call a non-function: " ++ got.render cells
  | .emptyCall source => located source "empty list is not callable"
  | .malformed form source problem => located source (form ++ ": " ++ problem.message cells)
  | .stackOverflow height => "maximum stack height exceeded: " ++ Text.ofInt height
  | .unreadable error => error.message
  | .raised condition message => condition ++ ": " ++ message
  | .plain message => message
  | .within context cause => context ++ ": " ++ cause.message cells

end Fault

/-- A fault and the call stack where it arose. -/
structure Failure where
  /-- The cause. -/
  fault : Fault
  /-- The call stack, for a fault that arose in an evaluation. -/
  trace : Option CallStack := none

namespace Failure

/-- Records the call stack, unless one is recorded. -/
def attach (f : Failure) (stack : CallStack) : Failure :=
  match f.trace with
  | some _ => f
  | none => { f with trace := some stack }

/-- The lines of the trace, if there is one. -/
def traceLines (f : Failure) : List Text :=
  match f.trace with
  | some stack => stack.lines
  | none => []

end Failure

end TinyLisp
