import TinyLisp.Fault
import TinyLisp.Files
import TinyLisp.Log.Basic
import TinyLisp.Scope

/-!
# The state of an interpreter

Everything that evaluation reads and changes: scopes, cells, the call stack, and what has been
written and logged so far (`State.effects`). The rest is fixed by whoever sets the interpreter up:
whether it can read source text, how strict it is about the number of arguments, the functions of
the embedding program, and the files in reach.
-/

namespace TinyLisp

/-- A function of the embedding program: from the name it was called by and its arguments to its
value or a fault. -/
abbrev Host := Text → List Value → Except Fault Value

/-- The two output streams. -/
inductive Stream where
  | stdout
  | stderr
  deriving DecidableEq, Repr, Inhabited

/-- Who writes: the program that is evaluated, or the console that evaluates it. -/
inductive Origin where
  | program
  | console
  deriving DecidableEq, Repr, Inhabited

/-- What can be observed from outside. -/
inductive Effect where
  /-- Text was written to a stream. -/
  | wrote (origin : Origin) (stream : Stream) (text : Text)
  /-- A record was logged. -/
  | logged (record : Log.Record)
  /-- A file was asked for. -/
  | opened (path : Text)

/-- The state of an interpreter. -/
structure State where
  /-- The lexical scopes. -/
  scopes : Scopes := #[{ parent := none }]
  /-- The contents of atoms. -/
  cells : Array Value := #[]
  /-- How many closures have been made. -/
  closures : Nat := 0
  /-- The evaluations that have not come to an end. -/
  stack : CallStack := { limit := CallStack.defaultLimit }
  /-- What has been observed so far, newest first. -/
  effects : List Effect := []
  /-- Where the program's output goes. -/
  stdout : Sink := {}
  /-- Where the program's debugging output goes. -/
  stderr : Sink := {}
  /-- What the log keeps. -/
  log : Log.Threshold := none
  /-- Whether source text can be read. -/
  reads : Bool := false
  /-- Whether closures may be called with any number of arguments. -/
  lenient : Bool := false
  /-- The functions of the embedding program. -/
  hosts : Array Host := #[]
  /-- The built-in functions that the embedding program adds to those of the language. -/
  registered : List Builtin := []
  /-- The files in reach. -/
  files : Files := {}

namespace State

/-- The root scope of a new interpreter. -/
def rootScope : ScopeId := 0

/-! ## Scopes, cells and closures -/

/-- The value of a name in a scope. -/
def lookup (s : State) (e : ScopeId) (name : Text) : Except Fault Value :=
  match s.scopes.lookup e name with
  | some v => .ok v
  | none => .error (.unbound name)

/-- Binds a name in a scope. -/
def bind (s : State) (e : ScopeId) (name : Text) (v : Value) : State :=
  { s with scopes := s.scopes.put e name v }

/-- Binds names to values in a scope, as far as both go. -/
def bindAll (s : State) (e : ScopeId) : List Text → List Value → State
  | name :: names, v :: vs => (s.bind e name v).bindAll e names vs
  | _, _ => s

/-- Makes a scope below another. -/
def newScope (s : State) (parent : ScopeId) : ScopeId × State :=
  let (e, scopes) := s.scopes.child parent
  (e, { s with scopes })

/-- Makes a closure. -/
def newClosure (s : State) (formals : List Text) (body : Value) (e : ScopeId) : Value × State :=
  (.closure s.closures formals body e, { s with closures := s.closures + 1 })

/-- Makes an atom that holds `v`. -/
def newAtom (s : State) (v : Value) : Value × State :=
  (.atom s.cells.size, { s with cells := s.cells.push v })

/-- The contents of a cell. -/
def contents (s : State) (c : CellId) : Value := s.cells[c]?.getD .nil

/-- Replaces the contents of a cell. -/
def store (s : State) (c : CellId) (v : Value) : State :=
  { s with cells := s.cells.setIfInBounds c v }

/-- Adds a function of the embedding program and returns what runs it. -/
def addHost (s : State) (host : Host) : Routine × State :=
  (.host s.hosts.size, { s with hosts := s.hosts.push host })

/-! ## Effects -/

/-- Notes an effect. -/
def note (s : State) (effect : Effect) : State := { s with effects := effect :: s.effects }

/-- Logs a record, if the log keeps its level. -/
def logRecord (s : State) (record : Log.Record) : State :=
  if s.log.admits record.level then s.note (.logged record) else s

/-- Logs a record at the level of debugging. -/
def debug (s : State) (message : Text) (fields : List (Text × Log.Field)) : State :=
  s.logRecord { level := .debug, message, fields }

/-- The console writes a text; its own writes do not fail. -/
def say (s : State) (stream : Stream) (text : Text) : State :=
  s.note (.wrote .console stream text)

/-- The program writes a text to its output, unless the write fails. -/
def print? (s : State) (text : Text) : Option State :=
  match s.stdout.write? with
  | some stdout => some ({ s with stdout }.note (.wrote .program .stdout text))
  | none => none

/-- Writing to the program's debugging output. -/
def debugOutput : Writer State Text where
  write text s :=
    let (receipt, stderr) := Sink.writer.write text s.stderr
    match receipt.error with
    | some _ => (receipt, { s with stderr })
    | none => (receipt, { s with stderr }.note (.wrote .program .stderr text))

/-- The program writes the trace of the call stack to its debugging output, line by line up to the
first failure, and reports whether all of it was written. -/
def printStack (s : State) : Bool × State :=
  let (receipt, s) := s.stack.writeTo debugOutput s
  (receipt.error.isNone, s)

/-- The text of a fault with the present contents of atoms. -/
def message (s : State) (fault : Fault) : Text := fault.message s.cells

/-- The printed form of a value with the present contents of atoms. -/
def printed (s : State) (v : Value) : Text := v.render s.cells

end State

end TinyLisp
