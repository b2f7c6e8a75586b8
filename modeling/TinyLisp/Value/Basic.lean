import TinyLisp.Source.Location

/-!
# Values

Programs and data are the same values: scalars, lists, closures, built-in functions and atoms.
Values do not change. What changes is kept elsewhere and named here by number: a closure names the
scope it was made in, and an atom names the cell whose contents it stands for.

A value that was read from a source remembers where (`Value.source`); a computed value does not.
-/

namespace TinyLisp

/-- The number of a lexical scope. -/
abbrev ScopeId := Nat

/-- The number of a mutable cell. -/
abbrev CellId := Nat

/-- The functions of the language itself. -/
inductive Primitive where
  | add
  | sub
  | mul
  | div
  | equal
  | less
  | list
  | isList
  | isEmpty
  | count
  | str
  | slurp
  | readStr
  | atom
  | isAtom
  | deref
  | reset
  | swap
  | prn
  | debugStack
  deriving DecidableEq, Repr, Inhabited

/-- How many arguments a built-in function takes. -/
inductive Arity where
  /-- Any number. -/
  | any
  /-- This number and no other. -/
  | exactly (n : Int)
  deriving DecidableEq, Repr, Inhabited

/-- What a built-in function runs. -/
inductive Routine where
  /-- A function of the language. -/
  | primitive (p : Primitive)
  /-- A function of the embedding program, by its slot in the table of those functions. -/
  | host (slot : Nat)
  deriving DecidableEq, Repr, Inhabited

/-- A built-in function: the name it is known by, its arity and what it runs. -/
structure Builtin where
  name : Text
  arity : Arity
  routine : Routine
  deriving DecidableEq, Repr, Inhabited

/-- A value without parts. -/
inductive Scalar where
  | symbol (name : Text)
  | int (n : Int64)
  | bool (b : Bool)
  | string (text : Text)
  | nil
  deriving DecidableEq, Repr, Inhabited

/-- A value of no kind. It is good for nothing but being shown, with its fields and with the address
of everything that they refer to. -/
structure Untyped where
  /-- Where it was read, behind the address at which that is kept. -/
  source : Option (UInt64 × Location) := none
  /-- The other fields, as they are shown. -/
  fields : Text :=
    "Int:0, Bool:false, Str:\"\", Cells:[]*lisp.LVal(nil), Formals:[]string(nil), " ++
      "Body:(*lisp.LVal)(nil), Env:(*lisp.LEnv)(nil), Builtin:(lisp.LBuiltinFunc)(nil), " ++
      "Ref:(*lisp.AtomCell)(nil)"
  deriving DecidableEq, Repr, Inhabited

/-- A value of the language. -/
inductive Value where
  /-- A scalar. -/
  | scalar (source : Option Location) (content : Scalar)
  /-- A list of values; a program is a list too. -/
  | list (source : Option Location) (items : List Value)
  /-- A function written in the language. No two closures that were made separately share
  `identity`. -/
  | closure (identity : Nat) (formals : List Text) (body : Value) (scope : ScopeId)
  /-- A built-in function. -/
  | builtin (function : Builtin)
  /-- A reference to a mutable cell. -/
  | atom (cell : CellId)
  /-- No value of the language; an embedding program can make one by mistake. -/
  | invalid (untyped : Untyped)
  deriving Repr, Inhabited

namespace Value

/-! ## Kinds -/

/-- The kind of a value. -/
inductive Kind where
  | invalid
  | symbol
  | integer
  | boolean
  | string
  | nil
  | list
  | function
  | builtin
  | atom
  deriving DecidableEq, Repr, Inhabited

/-- The name of a kind in messages. -/
def Kind.name : Kind → Text
  | .invalid => "INVALID"
  | .symbol => "Symbol"
  | .integer => "Integer"
  | .boolean => "Boolean"
  | .string => "String"
  | .nil => "Nil"
  | .list => "List"
  | .function => "Function"
  | .builtin => "Builtin"
  | .atom => "Atom"

/-- The kind with a number, counted in the order of declaration; every other number is
`invalid`. -/
def Kind.ofNumber : Nat → Kind
  | 1 => .symbol
  | 2 => .integer
  | 3 => .boolean
  | 4 => .string
  | 5 => .nil
  | 6 => .list
  | 7 => .function
  | 8 => .builtin
  | 9 => .atom
  | _ => .invalid

/-- The kind of a value. -/
def kind : Value → Kind
  | .scalar _ (.symbol _) => .symbol
  | .scalar _ (.int _) => .integer
  | .scalar _ (.bool _) => .boolean
  | .scalar _ (.string _) => .string
  | .scalar _ .nil => .nil
  | .list .. => .list
  | .closure .. => .function
  | .builtin _ => .builtin
  | .atom _ => .atom
  | .invalid _ => .invalid

/-! ## Computed values -/

/-- A symbol. -/
def symbol (name : Text) : Value := .scalar none (.symbol name)

/-- An integer. -/
def int (n : Int64) : Value := .scalar none (.int n)

/-- A truth value. -/
def bool (b : Bool) : Value := .scalar none (.bool b)

/-- A string. -/
def string (text : Text) : Value := .scalar none (.string text)

/-- The absence of a value; it is not the empty list. -/
def nil : Value := .scalar none .nil

/-! ## Questions -/

/-- Where the value was read. -/
def source : Value → Option Location
  | .scalar source _ => source
  | .list source _ => source
  | .invalid u => u.source.map Prod.snd
  | _ => none

/-- The name of a symbol. -/
def symbolName? : Value → Option Text
  | .scalar _ (.symbol name) => some name
  | _ => none

/-- Whether the value counts as true: everything but `false` does. -/
def isTrue : Value → Bool
  | .scalar _ (.bool b) => b
  | _ => true

/-- Whether the value can be applied to arguments. -/
def isCallable : Value → Bool
  | .closure .. | .builtin _ => true
  | _ => false

/-- The number of items of a list; zero for everything else. -/
def length : Value → Nat
  | .list _ items => items.length
  | _ => 0

end Value

end TinyLisp
