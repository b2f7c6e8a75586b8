import TinyLisp.Interpreter

/-!
# Evaluation by recursion

What the language means, without a machine: an expression is evaluated by evaluating its parts.
Nothing waits and no frame is pushed; what stands in tail position is evaluated like any other part.

An evaluation may go on for ever, so `eval` and `apply` take the depth to which evaluations may
nest, and come to nothing if it does not suffice. What they come to does not depend on the depth
otherwise (`eval_mono`).

* `expression`, `application`: one layer, given what evaluates the parts.
* `eval`, `apply`: layer upon layer.
-/

namespace TinyLisp

namespace Recursive

/-- Comes to a value or a fault and changes the state, or comes to nothing. -/
abbrev Action (α : Type) := ExceptT Fault (StateT State Option) α

/-- Comes to nothing. -/
def exhausted {α : Type} : Action α := ExceptT.mk (StateT.mk fun _ => none)

variable (ev : ScopeId → Value → Action Value) (ap : Text → Value → List Value → Action Value)

/-! ## Special forms -/

/-- Fails for a malformed special form. -/
def malformed {α : Type} (site : FormSite) (problem : FormProblem) : Action α :=
  throw (.malformed site.name site.source problem)

/-- Binds names to the values of expressions, one after the other. -/
def bindings (site : FormSite) (e : ScopeId) : List Value → Action Unit
  | [] => pure ()
  | [_] => malformed site (.oddBindings 1)
  | v :: expr :: ahead =>
    match v.symbolName? with
    | some name => do
      let w ← ev e expr
      modify (·.bind e name w)
      bindings site e ahead
    | none => malformed site (.notSymbol v)

/-- Evaluates expressions in order; the value is the last one's. -/
def sequence (e : ScopeId) : List Value → Action Value
  | [] => pure .nil
  | [expr] => ev e expr
  | expr :: ahead => do
    let _ ← ev e expr
    sequence e ahead

/-- The names of a parameter list. -/
def parameters (site : FormSite) (items : List Value) : Action (List Text) :=
  items.mapM fun v =>
    match v.symbolName? with
    | some name => pure name
    | none => malformed site (.notSymbol v)

/-- Evaluates a special form. -/
def special (form : SpecialForm) (site : FormSite) (operands : List Value) (e : ScopeId) :
    Action Value :=
  match form, operands with
  | .define, [v, expr] =>
    match v.symbolName? with
    | some name => do
      let w ← ev e expr
      modify (·.bind e name w)
      pure w
    | none => malformed site (.notSymbol v)
  | .define, operands => malformed site (.operands 2 2 operands.length)
  | .letSeq, [.list _ items, body] | .letRec, [.list _ items, body] =>
    if items.length % 2 = 0 then do
      let child ← modifyGet (·.newScope e)
      bindings ev site child items
      ev child body
    else malformed site (.oddBindings items.length)
  | .letSeq, [v, _] | .letRec, [v, _] => malformed site (.bindingsNotList v.kind)
  | .letSeq, operands | .letRec, operands => malformed site (.operands 2 2 operands.length)
  | .sequence, operands => sequence ev e operands
  | .branch, [condition, yes] => do
    let v ← ev e condition
    if v.isTrue then ev e yes else pure .nil
  | .branch, [condition, yes, no] => do
    let v ← ev e condition
    if v.isTrue then ev e yes else ev e no
  | .branch, operands => malformed site (.operands 2 3 operands.length)
  | .function, [.list _ items, body] => do
    let formals ← parameters site items
    modifyGet (·.newClosure formals body e)
  | .function, [v, _] => malformed site (.parametersNotList v.kind)
  | .function, operands => malformed site (.operands 2 2 operands.length)
  | .evaluate, [expr] => do
    let v ← ev e expr
    ev ((← get).scopes.root e) v
  | .evaluate, operands => malformed site (.operands 1 1 operands.length)

/-! ## Expressions and applications -/

/-- Evaluates an expression, given what evaluates its parts and applies functions. -/
def expression (e : ScopeId) (expr : Value) : Action Value :=
  match expr with
  | .scalar _ (.symbol name) => do MonadExcept.ofExcept ((← get).lookup e name)
  | .list source [] => throw (.emptyCall source)
  | .list source (head :: operands) =>
    match SpecialForm.ofHead? head with
    | some form => special ev form { name := form.name, source } operands e
    | none => do
      let f ← ev e head
      let args ← operands.mapM (ev e)
      ap (head.symbolName?.getD anonymous) f args
  | v => pure v

/-- Goes on with the answer of a built-in function. -/
def settle : Reply → Action Value
  | .value v => pure v
  | .fault fault => throw fault
  | .update c f => do
    let w ← ap anonymous f [(← get).contents c]
    modify (·.store c w)
    pure (.atom c)

/-- Applies a function, known as `name`, to arguments: the body of a closure is evaluated in a new
scope below the one the closure was made in. -/
def application (name : Text) (f : Value) (args : List Value) : Action Value :=
  match f with
  | .closure _ formals body e => do
    if (← get).lenient || args.length = formals.length then
      let child ← modifyGet (·.newScope e)
      modify (·.bindAll child formals args)
      ev child body
    else throw (.arityMismatch name formals.length args.length)
  | .builtin b => do settle ap (← modifyGet (b.run args))
  | v => throw (.notCallable v)

mutual

/-- Evaluates an expression in a scope. -/
def eval : (depth : Nat) → ScopeId → Value → Action Value
  | 0, _, _ => exhausted
  | depth + 1, e, expr => expression (eval depth) (apply depth) e expr

/-- Applies a function, known as `name`, to arguments. -/
def apply : (depth : Nat) → (name : Text) → Value → List Value → Action Value
  | 0, _, _, _ => exhausted
  | depth + 1, name, f, args => application (eval depth) (apply depth) name f args

end

/-! ## Depth -/

/-- What is done first may fail or run out of steps; then nothing is done after it. -/
theorem run_bind {α β : Type} (x : Action α) (g : α → Action β) (s : State) :
    (x >>= g).run.run s =
      match x.run.run s with
      | some (.ok a, t) => (g a).run.run t
      | some (.error fault, t) => some (.error fault, t)
      | none => none := by
  simp only [ExceptT.run_bind, StateT.run_bind, Option.bind_eq_bind]
  rcases x.run.run s with - | ⟨r, t⟩
  · rfl
  · cases r <;> rfl

/-- Whatever the first comes to, the second comes to. -/
def Below {α : Type} (x y : Action α) : Prop :=
  ∀ s p, x.run.run s = some p → y.run.run s = some p

namespace Below

variable {α β : Type} {x y : Action α}

theorem refl (x : Action α) : Below x x := fun _ _ => id

/-- Running out of steps is below everything. -/
theorem of_exhausted : Below exhausted x := by
  intro s p h
  exact absurd (show none = some p from h) (by simp)

/-- Doing one thing after the other is monotone. -/
theorem bind {g h : α → Action β} (hx : Below x y) (hg : ∀ a, Below (g a) (h a)) :
    Below (x >>= g) (y >>= h) := by
  intro s p hp
  rw [run_bind] at hp ⊢
  cases hr : x.run.run s with
  | none => simp [hr] at hp
  | some q =>
    obtain ⟨r, t⟩ := q
    rw [hr] at hp
    rw [hx s _ hr]
    cases r with
    | ok a => exact hg a t p hp
    | error fault => exact hp

/-- So is doing something for each member of a list. -/
theorem mapM {γ : Type} {g h : γ → Action α} (hg : ∀ a, Below (g a) (h a)) (as : List γ) :
    Below (as.mapM g) (as.mapM h) := by
  induction as with
  | nil => exact refl _
  | cons a as ih =>
    rw [List.mapM_cons, List.mapM_cons]
    exact (hg a).bind fun _ => ih.bind fun _ => refl _

end Below

section Layers

variable {ev ev' : ScopeId → Value → Action Value}
  {ap ap' : Text → Value → List Value → Action Value}

theorem bindings_below (hev : ∀ e v, Below (ev e v) (ev' e v)) (site : FormSite) (e : ScopeId)
    (items : List Value) : Below (bindings ev site e items) (bindings ev' site e items) := by
  fun_induction bindings ev site e items with
  | case1 => exact .refl _
  | case2 => exact .refl _
  | case3 v expr ahead name hname ih =>
    simp only [bindings, hname]
    exact (hev e expr).bind fun _ => Below.bind (.refl _) fun _ => ih
  | case4 v expr ahead hname =>
    simp only [bindings, hname]
    exact .refl _

theorem sequence_below (hev : ∀ e v, Below (ev e v) (ev' e v)) (e : ScopeId) (exprs : List Value) :
    Below (sequence ev e exprs) (sequence ev' e exprs) := by
  fun_induction sequence ev e exprs with
  | case1 => exact .refl _
  | case2 expr => exact hev e expr
  | case3 expr ahead hne ih =>
    -- more than one expression is left
    rw [sequence]
    · exact (hev e expr).bind fun _ => ih
    · exact hne

/-- The special forms are monotone in how their operands are evaluated. -/
theorem special_below (hev : ∀ e v, Below (ev e v) (ev' e v)) (form : SpecialForm) (site : FormSite)
    (operands : List Value) (e : ScopeId) :
    Below (special ev form site operands e) (special ev' form site operands e) := by
  unfold special
  split <;> try exact .refl _
  · split
    · exact (hev e _).bind fun _ => .refl _
    · exact .refl _
  · split
    · exact Below.bind (.refl _) fun _ => (bindings_below hev site _ _).bind fun _ => hev _ _
    · exact .refl _
  · split
    · exact Below.bind (.refl _) fun _ => (bindings_below hev site _ _).bind fun _ => hev _ _
    · exact .refl _
  · exact sequence_below hev e operands
  · refine (hev e _).bind fun v => ?_
    split
    · exact hev e _
    · exact .refl _
  · refine (hev e _).bind fun v => ?_
    split
    · exact hev e _
    · exact hev e _
  · exact (hev e _).bind fun _ => Below.bind (.refl _) fun _ => hev _ _

/-- Evaluating an expression is monotone in how operands are evaluated and functions are applied. -/
theorem expression_below (hev : ∀ e v, Below (ev e v) (ev' e v))
    (hap : ∀ name f args, Below (ap name f args) (ap' name f args)) (e : ScopeId) (expr : Value) :
    Below (expression ev ap e expr) (expression ev' ap' e expr) := by
  unfold expression
  split <;> try exact .refl _
  split
  · exact special_below hev _ _ _ e
  · exact (hev e _).bind fun _ => (Below.mapM (hev e) _).bind fun _ => hap _ _ _

theorem settle_below (hap : ∀ name f args, Below (ap name f args) (ap' name f args))
    (reply : Reply) : Below (settle ap reply) (settle ap' reply) := by
  cases reply with
  | value v => exact .refl _
  | fault fault => exact .refl _
  | update c f => exact Below.bind (.refl _) fun _ => (hap _ _ _).bind fun _ => .refl _

/-- Applying a function is monotone in how its body is evaluated. -/
theorem application_below (hev : ∀ e v, Below (ev e v) (ev' e v))
    (hap : ∀ name f args, Below (ap name f args) (ap' name f args)) (name : Text) (f : Value)
    (args : List Value) :
    Below (application ev ap name f args) (application ev' ap' name f args) := by
  unfold application
  split
  · refine Below.bind (.refl _) fun s => ?_
    split
    · exact Below.bind (.refl _) fun _ => Below.bind (.refl _) fun _ => hev _ _
    · exact .refl _
  · exact Below.bind (.refl _) fun reply => settle_below hap reply
  · exact .refl _

end Layers

/-- One more layer comes to whatever there was before. -/
theorem below_succ (n : Nat) :
    (∀ e expr, Below (eval n e expr) (eval (n + 1) e expr)) ∧
      ∀ name f args, Below (apply n name f args) (apply (n + 1) name f args) := by
  induction n with
  | zero => exact ⟨fun _ _ => .of_exhausted, fun _ _ _ => .of_exhausted⟩
  | succ n ih =>
    -- the layer on top is the same, and what is below it comes to more
    exact ⟨expression_below ih.1 ih.2, application_below ih.1 ih.2⟩

/-- **More depth does not change what an evaluation comes to.** -/
theorem eval_mono {n k : Nat} (h : n ≤ k) (e : ScopeId) (expr : Value) :
    Below (eval n e expr) (eval k e expr) := by
  induction h with
  | refl => exact .refl _
  | step _ ih => exact fun s p hp => (below_succ _).1 e expr s p (ih s p hp)

end Recursive

end TinyLisp
