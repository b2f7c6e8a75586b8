import TinyLisp.Value.Basic

/-!
# Lexical scopes

A scope binds names to values and has a parent, in which a name that it does not bind is looked up;
the scope without a parent is the root. All scopes made so far are kept in the order they were made,
so that a parent has a smaller number than its children. Looking a name up follows a parent only if
it does, and so always comes to an end.

* `Scopes.lookup`: the value of a name in the nearest scope that binds it.
* `Scopes.put`: binds a name in one scope; no other scope changes.
* `Scopes.root`: the root above a scope.
-/

namespace TinyLisp

/-- Names and their values. -/
structure Scope where
  /-- Where names are looked up that are not bound here. -/
  parent : Option ScopeId
  /-- Each name bound here, once, with its value. -/
  bindings : List (Text × Value) := []
  deriving Inhabited

namespace Scope

/-- The value that the scope itself binds to a name. -/
def find? (s : Scope) (name : Text) : Option Value := s.bindings.lookup name

/-- The bindings with the value of `name` replaced. -/
def replace (name : Text) (v : Value) (bindings : List (Text × Value)) : List (Text × Value) :=
  bindings.map fun (n, w) => if n == name then (n, v) else (n, w)

/-- Binds a name, in place of an earlier binding of it. -/
def put (s : Scope) (name : Text) (v : Value) : Scope :=
  if (s.find? name).isSome then { s with bindings := replace name v s.bindings }
  else { s with bindings := (name, v) :: s.bindings }

/-- How many names the scope binds. -/
def size (s : Scope) : Nat := s.bindings.length

end Scope

/-- All scopes made so far, by number. -/
abbrev Scopes := Array Scope

namespace Scopes

/-- The value of a name in the scope `e`, or else in the scopes above it. -/
def lookup (scopes : Scopes) (e : ScopeId) (name : Text) : Option Value :=
  match scopes[e]? with
  | none => none
  | some s =>
    match s.find? name with
    | some v => some v
    | none =>
      match s.parent with
      | some p => if p < e then lookup scopes p name else none
      | none => none
termination_by e

/-- The scope without a parent above `e`. -/
def root (scopes : Scopes) (e : ScopeId) : ScopeId :=
  match scopes[e]? with
  | none => e
  | some s =>
    match s.parent with
    | some p => if p < e then root scopes p else e
    | none => e
termination_by e

/-- Binds a name in the scope `e`. -/
def put (scopes : Scopes) (e : ScopeId) (name : Text) (v : Value) : Scopes :=
  scopes.modify e (·.put name v)

/-- Makes a scope below `parent` and returns its number. -/
def child (scopes : Scopes) (parent : ScopeId) : ScopeId × Scopes :=
  (scopes.size, scopes.push { parent := some parent })

/-- How many names the scope `e` binds. -/
def sizeAt (scopes : Scopes) (e : ScopeId) : Nat :=
  match scopes[e]? with
  | some s => s.size
  | none => 0

/-- The scope above `e`, if `e` is not a root. -/
def parent? (scopes : Scopes) (e : ScopeId) : Option ScopeId := scopes[e]?.bind (·.parent)

end Scopes

end TinyLisp
