import TinyLisp.Eval.State
import TinyLisp.Reader.Basic
import TinyLisp.Value.Equality

/-!
# Built-in functions

The twenty functions of the language, with their names and arities, and what each does to its
arguments and the state. Arithmetic wraps around at 64 bits.

A built-in function answers with a value or a fault (`Reply`). Only `swap!` needs more evaluation:
it asks for its function to be applied and for the result to be stored.
-/

namespace TinyLisp

namespace Primitive

/-- Every function of the language, in the order in which they are bound. -/
def all : List Primitive :=
  [.add, .sub, .mul, .div, .equal, .less, .list, .isList, .isEmpty, .count, .str, .slurp, .readStr,
    .atom, .isAtom, .deref, .reset, .swap, .prn, .debugStack]

/-- The name of a function. -/
def name : Primitive → Text
  | .add => "+"
  | .sub => "-"
  | .mul => "*"
  | .div => "/"
  | .equal => "="
  | .less => "<"
  | .list => "list"
  | .isList => "list?"
  | .isEmpty => "empty?"
  | .count => "count"
  | .str => "str"
  | .slurp => "slurp"
  | .readStr => "read-str"
  | .atom => "atom"
  | .isAtom => "atom?"
  | .deref => "deref"
  | .reset => "reset!"
  | .swap => "swap!"
  | .prn => "prn"
  | .debugStack => "debug-stack"

/-- How many arguments a function takes. -/
def arity : Primitive → Arity
  | .add | .sub | .mul | .div | .equal | .less | .reset | .swap => .exactly 2
  | .isList | .isEmpty | .count | .slurp | .readStr | .atom | .isAtom | .deref | .prn => .exactly 1
  | .debugStack => .exactly 0
  | .list | .str => .any

/-- A function as a built-in function. -/
def builtin (p : Primitive) : Builtin :=
  { name := p.name, arity := p.arity, routine := .primitive p }

end Primitive

/-- The built-in functions that a root scope binds. -/
def defaultBuiltins : List Builtin := Primitive.all.map Primitive.builtin

/-- The answer of a built-in function. -/
inductive Reply where
  /-- Its value. -/
  | value (v : Value)
  /-- What went wrong. -/
  | fault (f : Fault)
  /-- Apply `function` to the contents of `cell` and store the result there; the value is the
  atom. -/
  | update (cell : CellId) (function : Value)

namespace Primitive

/-! ## Numbers -/

/-- The two integers that an arithmetic function works on. The second argument is checked first. -/
def integers (name : Text) (a b : Value) : Except Fault (Int64 × Int64) :=
  match a, b with
  | .scalar _ (.int m), .scalar _ (.int n) => .ok (m, n)
  | _, .scalar _ (.int _) => .error (.typeMismatch name 1 .integer a)
  | _, _ => .error (.typeMismatch name 2 .integer b)

/-- An arithmetic function that is defined for all integers. -/
def arithmetic (f : Int64 → Int64 → Int64) (name : Text) (a b : Value) : Reply :=
  match integers name a b with
  | .ok (m, n) => .value (.int (f m n))
  | .error fault => .fault fault

/-- Division, truncated toward zero. -/
def divide (name : Text) (a b : Value) : Reply :=
  match integers name a b with
  | .ok (m, n) =>
    if n = 0 then .fault (.raised "division-by-zero" (name ++ ": division by zero"))
    else .value (.int (m / n))
  | .error fault => .fault fault

/-- Whether both are integers and the first is less than the second. -/
def isLess : Value → Value → Bool
  | .scalar _ (.int m), .scalar _ (.int n) => m < n
  | _, _ => false

/-! ## Strings -/

/-- The strings one behind the other; `position` counts them from the first argument of the
call. -/
def concatenate (name : Text) (position : Nat) (done : Text) : List Value → Reply
  | [] => .value (.string done)
  | .scalar _ (.string t) :: vs => concatenate name (position + 1) (done ++ t) vs
  | v :: _ => .fault (.typeMismatch name position .string v)

/-- The string that is a function's only argument. -/
def stringArgument (name : Text) : Value → Except Fault Text
  | .scalar _ (.string t) => .ok t
  | v => .error (.typeMismatch name 1 .string v)

/-- The contents of a file as a string. -/
def slurpFile (name path : Text) (s : State) : Reply × State :=
  let s := s.note (.opened path)
  match s.files.read path with
  | .ok bytes =>
    (.value (.string bytes),
      s.debug "file read" [("path", .text path), ("bytes", .number bytes.length)])
  | .error e => (.fault (.within name (.plain e.message)), s)

end Primitive

/-- The fault of an interpreter that cannot read source text. -/
def noReader : Fault := .raised "no-reader" "no reader configured for runtime"

/-- Reads the first form of a source. -/
def State.readForm (s : State) (file bytes : Text) (failure : Option Text) : Except Fault Value :=
  if s.reads then
    match readOne file bytes failure with
    | .ok v => .ok v
    | .error e => .error (.unreadable e)
  else .error noReader

/-- The reply of an answer. -/
def Reply.ofExcept : Except Fault Value → Reply
  | .ok v => .value v
  | .error f => .fault f

namespace Primitive

/-! ## Atoms -/

/-- The cell of the atom that is a function's first argument. -/
def cellArgument (name : Text) : Value → Except Fault CellId
  | .atom c => .ok c
  | v => .error (.typeMismatch name 1 .atom v)

/-- Runs a function of the language, known as `name`, on arguments of its arity. -/
def run (p : Primitive) (name : Text) (args : List Value) (s : State) : Reply × State :=
  match p, args with
  | .add, [a, b] => (arithmetic (· + ·) name a b, s)
  | .sub, [a, b] => (arithmetic (· - ·) name a b, s)
  | .mul, [a, b] => (arithmetic (· * ·) name a b, s)
  | .div, [a, b] => (divide name a b, s)
  | .equal, [a, b] => (.value (.bool (a.equal b)), s)
  | .less, [a, b] => (.value (.bool (isLess a b)), s)
  | .list, args => (.value (.list none args), s)
  | .isList, [a] => (.value (.bool (a.kind = .list)), s)
  | .isEmpty, [a] => (.value (.bool (a.kind = .list && a.length = 0)), s)
  | .count, [a] => (.value (.int (Int64.ofNat a.length)), s)
  | .str, args => (concatenate name 1 [] args, s)
  | .slurp, [a] =>
    match stringArgument name a with
    | .ok path => slurpFile name path s
    | .error fault => (.fault fault, s)
  | .readStr, [a] =>
    match stringArgument name a with
    | .ok text => (.ofExcept (s.readForm name text none), s)
    | .error fault => (.fault fault, s)
  | .atom, [a] =>
    let (v, s) := s.newAtom a
    (.value v, s)
  | .isAtom, [a] => (.value (.bool (a.kind = .atom)), s)
  | .deref, [a] =>
    match cellArgument name a with
    | .ok c => (.value (s.contents c), s)
    | .error fault => (.fault fault, s)
  | .reset, [a, v] =>
    match cellArgument name a with
    | .ok c => (.value v, s.store c v)
    | .error fault => (.fault fault, s)
  | .swap, [a, f] =>
    match cellArgument name a with
    | .ok c =>
      if f.isCallable then (.update c f, s) else (.fault (.typeMismatch name 2 .function f), s)
    | .error fault => (.fault fault, s)
  | .prn, [a] =>
    match s.print? (s.printed a ++ [10]) with
    | some s => (.value .nil, s)
    | none => (.fault (.plain Sink.failure), s)
  | .debugStack, [] =>
    let (done, s) := s.printStack
    (if done then .value .nil else .fault (.plain Sink.failure), s)
  | p, args =>
    match p.arity with
    | .exactly n => (.fault (.arityMismatch name n args.length), s)
    | .any => (.value .nil, s)

end Primitive

/-- Runs what is behind a built-in function, on arguments of its arity. -/
def Builtin.runRoutine (b : Builtin) (args : List Value) (s : State) : Reply × State :=
  match b.routine with
  | .primitive p => p.run b.name args s
  | .host slot =>
    match s.hosts[slot]? with
    | some host => (.ofExcept (host b.name args), s)
    | none => (.value .nil, s)

/-- Runs a built-in function on arguments, if their number is right. -/
def Builtin.run (b : Builtin) (args : List Value) (s : State) : Reply × State :=
  match b.arity with
  | .any => b.runRoutine args s
  | .exactly n =>
    if n = args.length then b.runRoutine args s
    else (.fault (.arityMismatch b.name n args.length), s)

end TinyLisp
