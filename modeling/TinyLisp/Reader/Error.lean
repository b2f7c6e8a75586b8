import TinyLisp.Token.Basic

/-!
# Read errors

What is wrong with a source that does not hold the form that was asked for: the token that was met,
where, and which class of token was wanted instead.
-/

namespace TinyLisp

/-- The class of a read error. -/
inductive ReadError.Reason where
  /-- A token that cannot stand here. -/
  | unexpectedToken
  /-- The source ended too early. -/
  | unexpectedEnd
  /-- The source could not be scanned. -/
  | scan
  /-- Any other reason; the reader gives none. -/
  | other
  deriving DecidableEq, Repr, Inhabited

/-- The condition of a class of read errors. -/
def ReadError.Reason.condition : ReadError.Reason → Text
  | .unexpectedToken => "unexpected-token"
  | .unexpectedEnd => "unexpected-eof"
  | .scan => "scan-error"
  | .other => "parse-error"

/-- The class with a number, counted in the order of declaration; every further number is
`other`. -/
def ReadError.Reason.ofNumber : Nat → ReadError.Reason
  | 0 => .unexpectedToken
  | 1 => .unexpectedEnd
  | 2 => .scan
  | _ => .other

/-- A source does not hold the form that was asked for. -/
structure ReadError where
  /-- The class of the error. -/
  reason : ReadError.Reason
  /-- Where the token was met. -/
  source : Option Location
  /-- The class of token that was needed; `none` when any form would have done. -/
  expected : Option Token.Kind
  /-- The token that was met. -/
  got : Token
  deriving DecidableEq, Repr

namespace ReadError

/-- The error of meeting `got` where a token of class `expected` was needed. -/
def unexpected (expected : Option Token.Kind) (got : Token) : ReadError :=
  { reason :=
      match got.kind with
      | .eof => .unexpectedEnd
      | .error | .invalid => .scan
      | _ => .unexpectedToken
    source := some got.source
    expected
    got }

/-- The text of a read error, behind its location. -/
def description (e : ReadError) : Text :=
  match e.reason, e.expected with
  | .unexpectedEnd, none => "expected any input but got EOF"
  | .unexpectedEnd, some kind => "expected '" ++ kind.name ++ "' but got EOF"
  | .scan, _ => e.got.text
  | _, none => "unexpected '" ++ e.got.render ++ "'"
  | _, some kind => "expected '" ++ kind.name ++ "' but got '" ++ e.got.render ++ "'"

/-- The text of a read error. -/
def message (e : ReadError) : Text := Location.render? e.source ++ ": " ++ e.description

end ReadError

end TinyLisp
