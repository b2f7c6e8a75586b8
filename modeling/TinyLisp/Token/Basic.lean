import TinyLisp.Source.Location

/-!
# Tokens

A token is a piece of source text with its class and its place. Two classes end a token sequence:
`eof` when the input is exhausted and `error` when it cannot be scanned any further.
-/

namespace TinyLisp

namespace Token

/-- The class of a token. -/
inductive Kind where
  /-- No class of the language. -/
  | invalid
  /-- The source cannot be scanned any further; the text says why. -/
  | error
  /-- The source is exhausted. -/
  | eof
  /-- A word that is no integer. -/
  | symbol
  /-- A decimal integer of 64 bits. -/
  | int
  /-- Quoted text. -/
  | string
  /-- `(` -/
  | leftParen
  /-- `)` -/
  | rightParen
  deriving DecidableEq, Repr, Inhabited

namespace Kind

/-- The class with a number, counted in the order of declaration; every other number is
`invalid`. -/
def ofNumber : Nat → Kind
  | 1 => .error
  | 2 => .eof
  | 3 => .symbol
  | 4 => .int
  | 5 => .string
  | 6 => .leftParen
  | 7 => .rightParen
  | _ => .invalid

/-- The name of a class in messages. -/
def name : Kind → Text
  | .invalid => "invalid"
  | .error => "error"
  | .eof => "EOF"
  | .symbol => "symbol"
  | .int => "int"
  | .string => "string"
  | .leftParen => "("
  | .rightParen => ")"

/-- Whether no token follows one of this class. -/
def isFinal : Kind → Bool
  | .eof | .error => true
  | _ => false

end Kind

end Token

/-- A piece of source text. -/
structure Token where
  /-- Its class. -/
  kind : Token.Kind
  /-- Its text: for a string the text between the quotes. -/
  text : Text
  /-- Where it starts: for a string the opening quote. -/
  source : Location
  deriving DecidableEq, Repr, Inhabited

/-- A token in messages: a string gets its quotes back, and the end of input is named. -/
def Token.render (t : Token) : Text :=
  match t.kind with
  | .string => "'" ++ t.text ++ "'"
  | .eof => "EOF"
  | _ => t.text

end TinyLisp
