import TinyLisp.Value.Basic

/-!
# Special forms

A list headed by the name of a special form is that form, whatever the name is bound to.
-/

namespace TinyLisp

/-- The special forms. -/
inductive SpecialForm where
  /-- Binds a name in the current scope. -/
  | define
  /-- Binds names one after the other in a new scope. -/
  | letSeq
  /-- Binds names in a new scope that closures among the values may refer to. -/
  | letRec
  /-- Evaluates expressions in order. -/
  | sequence
  /-- Chooses between two expressions. -/
  | branch
  /-- Makes a closure. -/
  | function
  /-- Evaluates a computed expression in the root scope. -/
  | evaluate
  deriving DecidableEq, Repr, Inhabited

namespace SpecialForm

/-- Every special form. -/
def all : List SpecialForm := [.define, .letSeq, .letRec, .sequence, .branch, .function, .evaluate]

/-- The name of a special form. -/
def name : SpecialForm → Text
  | .define => "def!"
  | .letSeq => "let*"
  | .letRec => "letrec"
  | .sequence => "do"
  | .branch => "if"
  | .function => "fun*"
  | .evaluate => "eval"

/-- The special form with a name. -/
def ofName? (name : Text) : Option SpecialForm := all.find? fun form => form.name == name

/-- The special form that a list with this head is. -/
def ofHead? (head : Value) : Option SpecialForm := head.symbolName?.bind ofName?

end SpecialForm

end TinyLisp
