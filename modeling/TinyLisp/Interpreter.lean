import TinyLisp.Eval.Machine

/-!
# Interpreters

Setting an interpreter up and running programs in it.

* `State.prepare`: binds the built-in functions in a root scope and applies settings.
* `State.eval`: evaluates an expression in a frame of its own.
* `State.apply`: applies a function to arguments.
* `State.load`: evaluates every form of a source.

Evaluation may go on for ever, so what runs a program takes the number of steps that it may use for
each expression, and returns `none` if they do not suffice.
-/

namespace TinyLisp

/-- A choice that is made when an interpreter is set up. -/
inductive Setting where
  /-- Source text can be read. -/
  | reader
  /-- Where the program's output goes. -/
  | stdout (sink : Sink)
  /-- Where the program's debugging output goes. -/
  | stderr (sink : Sink)
  /-- What the log keeps. -/
  | log (threshold : Log.Threshold)
  /-- The greatest height of the call stack; zero for no limit. -/
  | stackLimit (limit : Int)
  /-- Closures may be called with any number of arguments. -/
  | lenient

namespace State

/-! ## Setting up -/

/-- Applies a setting, or says what is wrong with it. -/
def configure (s : State) : Setting → Except Fault State
  | .reader => .ok { s with reads := true }
  | .stdout sink => .ok { s with stdout := sink }
  | .stderr sink => .ok { s with stderr := sink }
  | .log threshold => .ok { s with log := threshold }
  | .stackLimit limit =>
    if limit < 0 then .error (.plain ("negative maximum stack height: " ++ Text.ofInt limit))
    else .ok { s with stack := s.stack.withLimit limit }
  | .lenient => .ok { s with lenient := true }

/-- Applies settings in order up to the first that is wrong. -/
def configureAll (s : State) : List Setting → Option Fault × State
  | [] => (none, s)
  | setting :: settings =>
    match s.configure setting with
    | .ok s => s.configureAll settings
    | .error fault => (some fault, s)

/-- What stands against binding a built-in function in the scope `e`. -/
def bindingFault? (s : State) (e : ScopeId) (b : Builtin) : Option Fault :=
  if (s.scopes.lookup e b.name).isSome then
    some (.plain ("symbol already defined: " ++ b.name))
  else if (SpecialForm.ofName? b.name).isSome then
    some (.plain ("builtin name is a special operator: " ++ b.name))
  else none

/-- Binds built-in functions to their names up to the first that cannot be bound. -/
def bindBuiltins (s : State) (e : ScopeId) : List Builtin → Option Fault × State
  | [] => (none, s)
  | b :: bs =>
    match s.bindingFault? e b with
    | some fault => (some fault, s)
    | none => (s.bind e b.name (.builtin b)).bindBuiltins e bs

/-- The functions of the language, and those that the embedding program adds. -/
def library (s : State) : List Builtin := defaultBuiltins ++ s.registered

/-- Binds built-in functions to their names; the whole library if none are given. -/
def addBuiltins (s : State) (e : ScopeId) (bs : List Builtin) : Option Fault × State :=
  s.bindBuiltins e (if bs.isEmpty then s.library else bs)

/-- Applies settings and binds the library in the root scope `e`. -/
def prepare (s : State) (e : ScopeId) (settings : List Setting) : Option Fault × State :=
  if (s.scopes.parent? e).isSome then
    (some (.plain "user environment must be a root environment"), s)
  else
    match s.configureAll settings with
    | (some fault, s) => (some fault, s)
    | (none, s) =>
      match s.addBuiltins e [] with
      | (some fault, s) => (some fault, s)
      | (none, s) =>
        (none, s.debug "root environment initialized"
          [("builtins", .number (s.scopes.sizeAt e)), ("max-stack-height", .number s.stack.limit),
            ("lenient-arity", .flag s.lenient)])

/-! ## Running -/

/-- Evaluates an expression in a frame of its own. -/
def eval (fuel : Nat) (s : State) (e : ScopeId) (expr : Value) : Option Outcome :=
  match Machine.run fuel (Machine.enter [] expr e [] s) with
  | some { result := .error f, state } =>
    some
      { result := .error f
        state := state.debug "evaluation failed"
          [("condition", .text f.fault.condition), ("error", .text (state.message f.fault))] }
  | outcome => outcome

/-- Applies a function to arguments. -/
def apply (fuel : Nat) (s : State) (function : Value) (args : List Value) : Option Outcome :=
  Machine.run fuel { focus := .application function args, konts := [], state := s }

/-- Evaluates expressions in order up to the first that fails; the value is the last one's, or
`last` if there are none. -/
def evalAll (fuel : Nat) (s : State) (e : ScopeId) (last : Value) : List Value → Option Outcome
  | [] => some { result := .ok last, state := s }
  | expr :: exprs =>
    match s.eval fuel e expr with
    | some { result := .ok v, state } => state.evalAll fuel e v exprs
    | outcome => outcome

/-- Evaluates every form of a source. Nothing is evaluated if the source does not read. -/
def load (fuel : Nat) (s : State) (e : ScopeId) (file bytes : Text) (failure : Option Text) :
    Option Outcome :=
  if !s.reads then some { result := .error { fault := noReader }, state := s }
  else
    match readAll file bytes failure with
    | .error error => some { result := .error { fault := .unreadable error }, state := s }
    | .ok forms =>
      let s := s.debug "source loaded" [("source", .text file), ("forms", .number forms.length)]
      s.evalAll fuel e .nil forms

end State

end TinyLisp
