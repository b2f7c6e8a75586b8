import TinyLisp.Text.Basic

/-!
# Log records

A log record has a level, a message and named fields. A log keeps the records at or above a level.
-/

namespace TinyLisp.Log

/-- How important a record is. -/
inductive Level where
  | debug
  | info
  | warn
  | error
  deriving DecidableEq, Repr, Inhabited

namespace Level

/-- The rank of a level, least important first. -/
def rank : Level → Nat
  | .debug => 0
  | .info => 1
  | .warn => 2
  | .error => 3

/-- The name of a level in a record. -/
def name : Level → Text
  | .debug => "DEBUG"
  | .info => "INFO"
  | .warn => "WARN"
  | .error => "ERROR"

/-- The level that settings call by a name. -/
def ofName? (name : Text) : Option Level :=
  if name = ("debug" : Text) then some .debug
  else if name = ("info" : Text) then some .info
  else if name = ("warn" : Text) then some .warn
  else if name = ("error" : Text) then some .error
  else none

end Level

/-- The contents of a field. -/
inductive Field where
  | text (t : Text)
  | number (n : Int)
  | flag (b : Bool)
  deriving DecidableEq, Repr

/-- A log record. -/
structure Record where
  level : Level
  message : Text
  fields : List (Text × Field) := []
  deriving DecidableEq, Repr

/-- The least important level that a log keeps; `none` for a log that keeps nothing. -/
abbrev Threshold := Option Level

/-- Whether a log keeps records of a level. -/
def Threshold.admits (threshold : Threshold) (level : Level) : Bool :=
  match threshold with
  | some least => least.rank ≤ level.rank
  | none => false

end TinyLisp.Log
