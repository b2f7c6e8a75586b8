import TinyLisp.Eval.Builtin
import TinyLisp.Eval.SpecialForm

/-!
# The evaluator

Evaluation is a machine that moves in small steps. Its focus is the expression, value or failure at
hand; its continuations say what is to be done with the value, innermost first; the rest is the
state. A program may nest as deep as the call stack allows, since nothing but these three grows.

A list that is an operand is evaluated in a frame of its own on the call stack, which the
continuation `Kont.leave` removes. Everything in tail position stays in the frame at hand: the
chosen branch of an `if`, the last expression of a `do`, the body of a `let*`, the computed
expression of an `eval`, and the body of a closure, whose name the frame takes on.

A failure drops continuations. The first frame it leaves records the call stack in it.

* `Machine.step`: one step.
* `Machine.run`: steps until there is an outcome, or the given number of steps is used up.
-/

namespace TinyLisp

/-- What is at hand. -/
inductive Focus where
  /-- An expression to be evaluated in the frame at hand. -/
  | expression (expr : Value) (scope : ScopeId)
  /-- An operand to be evaluated: a list in a frame of its own. -/
  | operand (expr : Value) (scope : ScopeId)
  /-- A function to be applied to arguments in a frame of its own. -/
  | application (function : Value) (args : List Value)
  /-- A value to be handed to the innermost continuation. -/
  | value (v : Value)
  /-- A failure to be handed outward. -/
  | failure (f : Failure)

/-- A special form that is being evaluated: its name and where it was read. -/
structure FormSite where
  name : Text
  source : Option Location

/-- What is to be done with a value. -/
inductive Kont where
  /-- Leave the innermost frame with it. -/
  | leave
  /-- Call it, once the arguments are evaluated. -/
  | callee (head : Value) (args : List Value) (scope : ScopeId)
  /-- Take it as the next argument of `function`, behind those of `done` (newest first). -/
  | argument (function : Value) (name : Text) (done ahead : List Value) (scope : ScopeId)
  /-- Bind it to a name. -/
  | define (name : Text) (scope : ScopeId)
  /-- Bind it to a name, make the bindings `ahead`, then evaluate `body`. -/
  | binding (site : FormSite) (name : Text) (ahead : List Value) (body : Value) (scope : ScopeId)
  /-- Ignore it and evaluate the expressions `ahead`. -/
  | sequence (ahead : List Value) (scope : ScopeId)
  /-- Choose with it. -/
  | branch (yes : Value) (no : Option Value) (scope : ScopeId)
  /-- Evaluate it in the root scope. -/
  | evaluate (scope : ScopeId)
  /-- Store it in a cell. -/
  | update (cell : CellId)

/-- An evaluation at some point. -/
structure Machine where
  focus : Focus
  konts : List Kont
  state : State

/-- The name of functions that are not called through a symbol. -/
def anonymous : Text := "<lambda>"

namespace Machine

/-! ## Failing -/

/-- Fails. The call stack is recorded by the next frame that is left. -/
def fail (fault : Fault) (ks : List Kont) (s : State) : Machine :=
  { focus := .failure { fault }, konts := ks, state := s }

/-- Fails and records the call stack. -/
def failHere (fault : Fault) (ks : List Kont) (s : State) : Machine :=
  { focus := .failure { fault, trace := some s.stack }, konts := ks, state := s }

/-- Goes on with a value or a fault. -/
def settle (result : Except Fault Value) (ks : List Kont) (s : State) : Machine :=
  match result with
  | .ok v => { focus := .value v, konts := ks, state := s }
  | .error fault => fail fault ks s

/-- The fault of a full call stack. -/
def overflow (s : State) : Fault := .stackOverflow (s.stack.height + 1)

/-! ## Calls -/

/-- Evaluates an expression in a new frame. -/
def enter (name : Text) (expr : Value) (e : ScopeId) (ks : List Kont) (s : State) : Machine :=
  match s.stack.push name false with
  | some stack =>
    { focus := .expression expr e, konts := .leave :: ks, state := { s with stack } }
  | none =>
    let s := s.debug "stack limit reached" [("height", .number s.stack.height)]
    failHere (overflow s) ks s

/-- The fault of calling a closure, known as `name`, with the wrong number of arguments. -/
def arityFault? (lenient : Bool) (name : Text) (formals : List Text) (args : List Value) :
    Option Fault :=
  if lenient || args.length = formals.length then none
  else some (.arityMismatch name formals.length args.length)

/-- A new scope for a call: below the closure's scope, with its parameters bound to the
arguments. -/
def callScope (formals : List Text) (e : ScopeId) (args : List Value) (s : State) :
    ScopeId × State :=
  let (e, s) := s.newScope e
  (e, s.bindAll e formals args)

/-- Runs a built-in function in a frame of its own. -/
def callBuiltin (b : Builtin) (args : List Value) (ks : List Kont) (s : State) : Machine :=
  match s.stack.push b.name true with
  | none => failHere (overflow s) ks s
  | some stack =>
    match b.run args { s with stack } with
    | (.value v, s) => { focus := .value v, konts := .leave :: ks, state := s }
    | (.fault fault, s) => fail fault (.leave :: ks) s
    | (.update c f, s) =>
      { focus := .application f [s.contents c], konts := .update c :: .leave :: ks, state := s }

/-- Calls a function, known as `name`, in tail position: a closure takes over the frame at hand. -/
def call (function : Value) (name : Text) (args : List Value) (ks : List Kont) (s : State) :
    Machine :=
  match function with
  | .closure _ formals body e =>
    match arityFault? s.lenient name formals args with
    | some fault => fail fault ks s
    | none =>
      let (e, s) := callScope formals e args s
      { focus := .expression body e, konts := ks,
        state := { s with stack := s.stack.tailCall name } }
  | .builtin b => callBuiltin b args ks s
  | v => fail (.notCallable v) ks s

/-- Applies a function to arguments in a frame of its own. -/
def apply (function : Value) (args : List Value) (ks : List Kont) (s : State) : Machine :=
  match function with
  | .closure _ formals body e =>
    match arityFault? s.lenient anonymous formals args with
    | some fault => failHere fault ks s
    | none =>
      let (e, s) := callScope formals e args s
      enter anonymous body e ks s
  | .builtin b => callBuiltin b args ks s
  | v => failHere (.notCallable v) ks s

/-- Evaluates the arguments that are ahead, left to right, then calls. -/
def arguments (function : Value) (name : Text) (done ahead : List Value) (e : ScopeId)
    (ks : List Kont) (s : State) : Machine :=
  match ahead with
  | [] => call function name done.reverse ks s
  | a :: ahead =>
    { focus := .operand a e, konts := .argument function name done ahead e :: ks, state := s }

/-! ## Special forms -/

/-- Fails for a malformed special form. -/
def malformed (site : FormSite) (problem : FormProblem) (ks : List Kont) (s : State) : Machine :=
  fail (.malformed site.name site.source problem) ks s

/-- Makes the bindings of a `let*` or `letrec`, then evaluates its body. -/
def bindings (site : FormSite) (ahead : List Value) (body : Value) (e : ScopeId) (ks : List Kont)
    (s : State) : Machine :=
  match ahead with
  | [] => { focus := .expression body e, konts := ks, state := s }
  | [_] => malformed site (.oddBindings 1) ks s
  | v :: expr :: ahead =>
    match v.symbolName? with
    | some name =>
      { focus := .operand expr e, konts := .binding site name ahead body e :: ks, state := s }
    | none => malformed site (.notSymbol v) ks s

/-- Evaluates expressions in order, the last one in tail position. -/
def sequence (exprs : List Value) (e : ScopeId) (ks : List Kont) (s : State) : Machine :=
  match exprs with
  | [] => { focus := .value .nil, konts := ks, state := s }
  | [expr] => { focus := .expression expr e, konts := ks, state := s }
  | expr :: ahead =>
    { focus := .operand expr e, konts := .sequence ahead e :: ks, state := s }

/-- The names of a parameter list, or the first value in it that is no symbol. -/
def parameters : List Value → Except Value (List Text)
  | [] => .ok []
  | v :: vs =>
    match v.symbolName? with
    | none => .error v
    | some name =>
      match parameters vs with
      | .ok names => .ok (name :: names)
      | .error v => .error v

/-- Evaluates a special form. -/
def special (form : SpecialForm) (site : FormSite) (operands : List Value) (e : ScopeId)
    (ks : List Kont) (s : State) : Machine :=
  match form, operands with
  | .define, [v, expr] =>
    match v.symbolName? with
    | some name => { focus := .operand expr e, konts := .define name e :: ks, state := s }
    | none => malformed site (.notSymbol v) ks s
  | .define, operands => malformed site (.operands 2 2 operands.length) ks s
  | .letSeq, [.list _ items, body] | .letRec, [.list _ items, body] =>
    if items.length % 2 = 0 then
      let (e, s) := s.newScope e
      bindings site items body e ks s
    else malformed site (.oddBindings items.length) ks s
  | .letSeq, [v, _] | .letRec, [v, _] => malformed site (.bindingsNotList v.kind) ks s
  | .letSeq, operands | .letRec, operands => malformed site (.operands 2 2 operands.length) ks s
  | .sequence, operands => sequence operands e ks s
  | .branch, [condition, yes] =>
    { focus := .operand condition e, konts := .branch yes none e :: ks, state := s }
  | .branch, [condition, yes, no] =>
    { focus := .operand condition e, konts := .branch yes (some no) e :: ks, state := s }
  | .branch, operands => malformed site (.operands 2 3 operands.length) ks s
  | .function, [.list _ items, body] =>
    match parameters items with
    | .ok formals =>
      let (v, s) := s.newClosure formals body e
      { focus := .value v, konts := ks, state := s }
    | .error v => malformed site (.notSymbol v) ks s
  | .function, [v, _] => malformed site (.parametersNotList v.kind) ks s
  | .function, operands => malformed site (.operands 2 2 operands.length) ks s
  | .evaluate, [expr] =>
    { focus := .operand expr e, konts := .evaluate e :: ks, state := s }
  | .evaluate, operands => malformed site (.operands 1 1 operands.length) ks s

/-! ## Expressions -/

/-- The fault of evaluating what is no value. -/
def invalidValue : Fault := .raised "invalid-value" "cannot evaluate value of type INVALID"

/-- Evaluates an expression in the frame at hand. -/
def expression (expr : Value) (e : ScopeId) (ks : List Kont) (s : State) : Machine :=
  match expr with
  | .scalar _ (.symbol name) => settle (s.lookup e name) ks s
  | .list source [] => fail (.emptyCall source) ks s
  | .list source (head :: operands) =>
    match SpecialForm.ofHead? head with
    | some form => special form { name := form.name, source } operands e ks s
    | none => { focus := .operand head e, konts := .callee head operands e :: ks, state := s }
  | .invalid _ => fail invalidValue ks s
  | v => { focus := .value v, konts := ks, state := s }

/-- Evaluates an operand. Only a list needs a frame of its own. -/
def operand (expr : Value) (e : ScopeId) (ks : List Kont) (s : State) : Machine :=
  match expr with
  | .scalar _ (.symbol name) => settle (s.lookup e name) ks s
  | .list .. => enter [] expr e ks s
  | v => { focus := .value v, konts := ks, state := s }

/-! ## Steps -/

/-- Hands a value to a continuation. -/
def resume (k : Kont) (v : Value) (ks : List Kont) (s : State) : Machine :=
  match k with
  | .leave => { focus := .value v, konts := ks, state := { s with stack := s.stack.drop } }
  | .callee head args e => arguments v (head.symbolName?.getD anonymous) [] args e ks s
  | .argument function name done ahead e => arguments function name (v :: done) ahead e ks s
  | .define name e => { focus := .value v, konts := ks, state := s.bind e name v }
  | .binding site name ahead body e => bindings site ahead body e ks (s.bind e name v)
  | .sequence ahead e => sequence ahead e ks s
  | .branch yes no e =>
    if v.isTrue then { focus := .expression yes e, konts := ks, state := s }
    else
      match no with
      | some no => { focus := .expression no e, konts := ks, state := s }
      | none => { focus := .value .nil, konts := ks, state := s }
  | .evaluate e => { focus := .expression v (s.scopes.root e), konts := ks, state := s }
  | .update c => { focus := .value (.atom c), konts := ks, state := s.store c v }

/-- Hands a failure past a continuation. -/
def unwind (k : Kont) (f : Failure) (ks : List Kont) (s : State) : Machine :=
  match k with
  | .leave =>
    { focus := .failure (f.attach s.stack), konts := ks, state := { s with stack := s.stack.drop } }
  | _ => { focus := .failure f, konts := ks, state := s }

end Machine

/-- What an evaluation came to: a value or a failure, and the state it left. -/
structure Outcome where
  result : Except Failure Value
  state : State

/-- What one step comes to. -/
inductive Step where
  /-- The evaluation goes on. -/
  | next (m : Machine)
  /-- The evaluation has come to an end. -/
  | done (o : Outcome)

namespace Machine

/-- One step. -/
def step (m : Machine) : Step :=
  match m with
  | { focus := .expression expr e, konts, state } => .next (expression expr e konts state)
  | { focus := .operand expr e, konts, state } => .next (operand expr e konts state)
  | { focus := .application f args, konts, state } => .next (apply f args konts state)
  | { focus := .value v, konts := [], state } => .done { result := .ok v, state }
  | { focus := .value v, konts := k :: ks, state } => .next (resume k v ks state)
  | { focus := .failure f, konts := [], state } => .done { result := .error f, state }
  | { focus := .failure f, konts := k :: ks, state } => .next (unwind k f ks state)

/-- Steps until there is an outcome; `none` if `fuel` steps do not suffice. -/
def run : (fuel : Nat) → Machine → Option Outcome
  | 0, _ => none
  | fuel + 1, m =>
    match m.step with
    | .done o => some o
    | .next m => run fuel m

end Machine

end TinyLisp
