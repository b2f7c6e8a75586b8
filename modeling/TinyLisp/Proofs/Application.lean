import TinyLisp.Proofs.Balance
import TinyLisp.Proofs.Confinement

/-!
# Applying a closure is calling it

There are two ways from a closure and its arguments to the evaluation of its body. A call that is
evaluated has a frame of its own, in which its head and its operands are evaluated; then the closure
takes that frame over. An application makes the scope first and pushes a frame for the body. If
neither the closure nor the arguments have to be evaluated, both come to the same machine: a frame
without a name that is handed on is the frame that would have been pushed. On a full stack both fail
before anything is evaluated.

* `Value.IsConstant`: what stands for itself as an operand.
* `callScope_eq`: the scope for a call is made whatever the call stack is.
* `reaches_body_of_eval`, `reaches_body_of_apply`: the two ways to the body.
* `apply_agrees_eval`: they come to the same (`Outcome.Agrees`).
-/

namespace TinyLisp

open Machine

/-- As an operand the value stands for itself: it is neither a name nor a list. -/
def Value.IsConstant (v : Value) : Prop := v.kind ≠ .symbol ∧ v.kind ≠ .list

/-! ## The scope of a call -/

/-- Bindings in the newest scope change nothing but that scope, whatever the call stack is. -/
theorem bindAll_newest (scopes : Scopes) (scope : Scope) (names : List Text) (vs : List Value)
    (s : State) :
    ∃ scope', ∀ stack,
      State.bindAll { s with stack, scopes := scopes.push scope } scopes.size names vs =
        { s with stack, scopes := scopes.push scope' } := by
  induction names generalizing scope vs with
  | nil => exact ⟨scope, fun _ => rfl⟩
  | cons name names ih =>
    cases vs with
    | nil => exact ⟨scope, fun _ => rfl⟩
    | cons v vs =>
      obtain ⟨scope', h⟩ := ih (scope.put name v) vs
      refine ⟨scope', fun stack => ?_⟩
      rw [State.bindAll, State.bind, Scopes.put, modify_push]
      exact h stack

/-- **The scope for a call** is the newest, and it is made whatever the call stack is. -/
theorem callScope_eq (formals : List Text) (e : ScopeId) (args : List Value) (s : State) :
    ∃ scope, ∀ stack, callScope formals e args { s with stack } =
      (s.scopes.size, { s with stack, scopes := s.scopes.push scope }) := by
  obtain ⟨scope, h⟩ := bindAll_newest s.scopes { parent := some e } formals args s
  exact ⟨scope, fun stack => congrArg (Prod.mk s.scopes.size) (h stack)⟩

/-! ## The way of a call -/

section Calls

variable {s : State} {e e' : ScopeId} {ks : List Kont} {f v body : Value} {name : Text}
  {done args : List Value} {formals : List Text} {identity : Nat} {source : Option Location}
  {stack : CallStack}

theorem operand_of_constant (hv : v.IsConstant) :
    operand v e ks s = { focus := .value v, konts := ks, state := s } := by
  cases v with
  | scalar source content =>
    cases content with
    | symbol name => exact absurd rfl hv.1
    | _ => rfl
  | list source items => exact absurd rfl hv.2
  | _ => rfl

/-- Arguments that stand for themselves are collected, and nothing else happens. -/
theorem reaches_call (f : Value) (name : Text) (done : List Value) (e : ScopeId) (ks : List Kont)
    (s : State) (hargs : ∀ v ∈ args, v.IsConstant) :
    Reaches (arguments f name done args e ks s) (call f name (done.reverse ++ args) ks s) := by
  induction args generalizing done with
  | nil =>
    rw [List.append_nil]
    exact Reaches.refl _
  | cons v args ih =>
    obtain ⟨hv, hargs⟩ := List.forall_mem_cons.1 hargs
    have hrest := ih (v :: done) hargs
    rw [List.reverse_cons, List.append_assoc, List.singleton_append] at hrest
    -- the argument is its own value, and the continuation takes it
    refine .head (congrArg Step.next (operand_of_constant hv)) (.head ?_ hrest)
    rfl

theorem arityFault_eq_none (harity : s.lenient = true ∨ args.length = formals.length) :
    arityFault? s.lenient name formals args = none := by
  unfold arityFault?
  rw [if_pos]
  simpa using harity

/-- A frame without a name that is handed on to a function is a frame of that function. -/
theorem tailCall_of_push (h : s.stack.push [] false = some stack) :
    s.stack.push name false = some (stack.tailCall name) := by
  obtain ⟨hframes, hlimit, hroom⟩ := CallStack.push_eq_some h
  unfold CallStack.push
  rw [if_neg (by simp [hroom])]
  refine congrArg some (CallStack.eq_of_frames ?_ ?_)
  · rw [CallStack.tailCall_frames hframes]
    rfl
  · rw [CallStack.tailCall_limit, hlimit]

/-- The body of a closure that was called without a name, in its frame and its scope. -/
def bodyOf (body : Value) (scope : Scope) (stack : CallStack) (ks : List Kont) (s : State) :
    Machine :=
  { focus := .expression body s.scopes.size, konts := .leave :: ks
    state := { s with stack := stack.tailCall anonymous, scopes := s.scopes.push scope } }

/-- The evaluation of a call comes to the body. -/
theorem reaches_body_of_eval (identity : Nat) (body : Value) (source : Option Location)
    (e : ScopeId) (ks : List Kont) (hargs : ∀ v ∈ args, v.IsConstant)
    (harity : s.lenient = true ∨ args.length = formals.length)
    (hpush : s.stack.push [] false = some stack) {scope : Scope}
    (hscope : ∀ stack, callScope formals e' args { s with stack } =
      (s.scopes.size, { s with stack, scopes := s.scopes.push scope })) :
    Reaches (enter [] (.list source (.closure identity formals body e' :: args)) e ks s)
      (bodyOf body scope stack ks s) := by
  have hcall : call (.closure identity formals body e') anonymous args (.leave :: ks)
      { s with stack } = bodyOf body scope stack ks s := by
    simp only [call, arityFault_eq_none harity, hscope, bodyOf]
  have harguments := reaches_call (.closure identity formals body e') anonymous [] e (.leave :: ks)
    { s with stack } hargs
  rw [List.reverse_nil, List.nil_append, hcall] at harguments
  simp only [enter, hpush]
  -- the head is no special form, it stands for itself, and the arguments are next
  exact .head rfl (.head rfl (.head rfl harguments))

/-- An application comes to the body. -/
theorem reaches_body_of_apply (identity : Nat) (body : Value) (ks : List Kont)
    (harity : s.lenient = true ∨ args.length = formals.length)
    (hpush : s.stack.push [] false = some stack) {scope : Scope}
    (hscope : ∀ stack, callScope formals e' args { s with stack } =
      (s.scopes.size, { s with stack, scopes := s.scopes.push scope })) :
    Reaches
      { focus := .application (.closure identity formals body e') args, konts := ks, state := s }
      (bodyOf body scope stack ks s) := by
  have hscope' : callScope formals e' args s =
      (s.scopes.size, { s with scopes := s.scopes.push scope }) := hscope s.stack
  have hnext : apply (.closure identity formals body e') args ks s =
      bodyOf body scope stack ks s := by
    simp only [apply, arityFault_eq_none harity, hscope', enter, tailCall_of_push hpush, bodyOf]
  exact .head (congrArg Step.next hnext) (Reaches.refl _)

end Calls

/-! ## What they come to -/

/-- Whether an effect is a record of the log. -/
def Effect.isLogged : Effect → Bool
  | .logged _ => true
  | _ => false

/-- The evaluations, which began in the state `s`, came to the same value or failure, trace
included. The states they left differ in nothing but records of the log and, if `s` has a full call
stack, in scopes that were not there in `s`. -/
structure Outcome.Agrees (s : State) (o o' : Outcome) : Prop where
  result : o'.result = o.result
  rest : o'.state = { o.state with scopes := o'.state.scopes, effects := o'.state.effects }
  effects : o'.state.effects.filter (!·.isLogged) = o.state.effects.filter (!·.isLogged)
  existing : ∀ e < s.scopes.size, o'.state.scopes[e]? = o.state.scopes[e]?
  scopes : s.stack.isFull = false → o'.state.scopes = o.state.scopes

/-- A record of the log changes nothing else. -/
theorem State.debug_rest (s : State) (message : Text) (fields : List (Text × Log.Field)) :
    s.debug message fields = { s with effects := (s.debug message fields).effects } ∧
      (s.debug message fields).effects.filter (!·.isLogged) =
        s.effects.filter (!·.isLogged) := by
  unfold State.debug logRecord
  split <;> exact ⟨rfl, rfl⟩

theorem Outcome.agrees_reported (s : State) (o : Outcome) : o.Agrees s o.reported := by
  obtain ⟨result, t⟩ := o
  cases result with
  | ok v => exact ⟨rfl, rfl, rfl, fun _ _ => rfl, fun _ => rfl⟩
  | error f =>
    obtain ⟨hrest, heffects⟩ := t.debug_rest "evaluation failed"
      [("condition", .text f.fault.condition), ("error", .text (t.message f.fault))]
    have hscopes := congrArg State.scopes hrest
    refine ⟨rfl, hrest.trans ?_, heffects, fun e _ => congrArg (·[e]?) hscopes, fun _ => hscopes⟩
    rw [Outcome.reported, ← hscopes]

section Outcomes

variable {s : State} {e e' : ScopeId} {body : Value} {args : List Value} {formals : List Text}
  {identity : Nat} {source : Option Location} {o o' o'' : Outcome}

theorem Outcome.Agrees.trans (h : o.Agrees s o') (h' : o'.Agrees s o'') : o.Agrees s o'' where
  result := h'.result.trans h.result
  rest := by rw [h'.rest, h.rest]
  effects := h'.effects.trans h.effects
  existing e he := (h'.existing e he).trans (h.existing e he)
  scopes hroom := (h'.scopes hroom).trans (h.scopes hroom)

/-- **On a full stack** nothing is evaluated: the outcome is the overflow, recorded here. -/
theorem halts_enter_full (hfull : s.stack.isFull = true) (name : Text) (expr : Value)
    (e : ScopeId) : Halts (enter name expr e [] s)
      { result := .error { fault := overflow s, trace := some s.stack }
        state := s.debug "stack limit reached" [("height", .number s.stack.height)] } := by
  have hstack := (s.quiet_debug "stack limit reached" [("height", .number s.stack.height)]).1
  have hpush : s.stack.push name false = none := by
    unfold CallStack.push
    rw [if_pos hfull]
  refine ⟨1, ?_⟩
  simp only [enter, hpush, failHere, overflow, hstack]
  rfl

/-- On a full stack an application has only made the scope in addition. -/
theorem agrees_of_full (hfull : s.stack.isFull = true) (identity : Nat) (body : Value)
    (e' : ScopeId) (source : Option Location) (e : ScopeId)
    (harity : s.lenient = true ∨ args.length = formals.length) :
    ∃ o o', Halts
        { focus := .application (.closure identity formals body e') args, konts := [], state := s } o ∧
      Halts (enter [] (.list source (.closure identity formals body e' :: args)) e [] s) o' ∧
      o.Agrees s o' := by
  obtain ⟨scope, hscope⟩ := callScope_eq formals e' args s
  have hscope' : callScope formals e' args s =
      (s.scopes.size, { s with scopes := s.scopes.push scope }) := hscope s.stack
  set t : State := { s with scopes := s.scopes.push scope } with ht
  have happly : apply (.closure identity formals body e') args [] s =
      enter anonymous body s.scopes.size [] t := by
    simp only [apply, arityFault_eq_none harity, hscope', ht]
  have hhalts := halts_enter_full (s := t) hfull anonymous body s.scopes.size
  rw [← happly] at hhalts
  refine ⟨_, _, (halts_next rfl).2 hhalts, halts_enter_full hfull [] _ e, ?_⟩
  obtain ⟨hrest, heffects⟩ := s.debug_rest "stack limit reached" [("height", .number s.stack.height)]
  obtain ⟨hrest', heffects'⟩ := t.debug_rest "stack limit reached" [("height", .number t.stack.height)]
  refine ⟨rfl, ?_, heffects.trans heffects'.symm, fun e he => ?_, fun hroom => ?_⟩
  · rw [hrest, hrest']
  · have hbelow : s.scopes[e]? = (s.scopes.push scope)[e]? := by
      rw [Array.getElem?_push_lt he, Array.getElem?_eq_getElem he]
    rw [hrest, hrest']
    exact hbelow
  · rw [hfull] at hroom
    cases hroom

/-- **The machines of an application and of a call** come to an end together, and agree there. -/
theorem application_agrees_call (identity : Nat) (body : Value) (e' : ScopeId)
    (source : Option Location) (e : ScopeId) (hargs : ∀ v ∈ args, v.IsConstant)
    (harity : s.lenient = true ∨ args.length = formals.length) :
    (∀ o, Halts
        { focus := .application (.closure identity formals body e') args, konts := [], state := s } o →
      ∃ o', Halts (enter [] (.list source (.closure identity formals body e' :: args)) e [] s) o' ∧
        o.Agrees s o') ∧
    ∀ o', Halts (enter [] (.list source (.closure identity formals body e' :: args)) e [] s) o' →
      ∃ o, Halts
        { focus := .application (.closure identity formals body e') args, konts := [], state := s } o ∧
        o.Agrees s o' := by
  cases hpush : s.stack.push [] false with
  | none =>
    obtain ⟨o₁, o₁', h₁, h₁', hagrees⟩ := agrees_of_full (isFull_of_push_eq_none hpush) identity
      body e' source e harity
    refine ⟨fun o h => ⟨o₁', h₁', ?_⟩, fun o' h' => ⟨o₁, h₁, ?_⟩⟩
    · rwa [h.unique h₁]
    · rwa [h'.unique h₁']
  | some stack =>
    -- both come to the body
    obtain ⟨scope, hscope⟩ := callScope_eq formals e' args s
    have heval := reaches_body_of_eval identity body source e [] hargs harity hpush hscope
    have happly := reaches_body_of_apply identity body [] harity hpush hscope
    have hsame (o : Outcome) : o.Agrees s o := ⟨rfl, rfl, rfl, fun _ _ => rfl, fun _ => rfl⟩
    exact ⟨fun o h => ⟨o, heval.halts_iff.2 (happly.halts_iff.1 h), hsame o⟩,
      fun o' h' => ⟨o', happly.halts_iff.2 (heval.halts_iff.1 h'), hsame o'⟩⟩

/-- **Applying a closure is evaluating a call of it**, if the arguments stand for themselves and
their number is right, or need not be. Both come to an end together, with the same value or failure,
and write the same; what was there before is left the same, and so is the call stack. -/
theorem apply_agrees_eval (s : State) (e : ScopeId) (source : Option Location) (identity : Nat)
    (body : Value) (e' : ScopeId) (hargs : ∀ v ∈ args, v.IsConstant)
    (harity : s.lenient = true ∨ args.length = formals.length) :
    (∀ fuel o, s.apply fuel (.closure identity formals body e') args = some o →
      ∃ fuel' o', s.eval fuel' e (.list source (.closure identity formals body e' :: args)) =
        some o' ∧ o.Agrees s o') ∧
    ∀ fuel o', s.eval fuel e (.list source (.closure identity formals body e' :: args)) = some o' →
      ∃ fuel' o, s.apply fuel' (.closure identity formals body e') args = some o ∧
        o.Agrees s o' := by
  obtain ⟨hforward, hback⟩ := application_agrees_call (s := s) identity body e'
    source e hargs harity
  constructor
  · intro fuel o h
    obtain ⟨o', ⟨fuel', h'⟩, hagrees⟩ := hforward o ⟨fuel, h⟩
    refine ⟨fuel', o'.reported, ?_, hagrees.trans (o'.agrees_reported s)⟩
    rw [State.eval_eq, h', Option.map_some]
  · intro fuel o' h
    rw [State.eval_eq] at h
    obtain ⟨o₁, h₁, rfl⟩ := Option.map_eq_some_iff.1 h
    obtain ⟨o, ⟨fuel', h'⟩, hagrees⟩ := hback o₁ ⟨fuel, h₁⟩
    exact ⟨fuel', o, h', hagrees.trans (o₁.agrees_reported s)⟩

/-- The closure prints the call stack, three frames high under a limit of three, and then
returns a sum. -/
theorem apply_agrees_eval_stack : ∃ o fuel o',
    State.apply 25 { stack := { limit := 3 } }
      (.closure 0 ["x"] (.list none [.symbol "do", .list none [.builtin Primitive.debugStack.builtin],
        .list none [.builtin Primitive.add.builtin, .int 6, .int 1]]) 0) [.int 6] = some o ∧
    o.result = .ok (.int 7) ∧
    State.eval fuel { stack := { limit := 3 } } 0 (.list none [.closure 0 ["x"] (.list none
      [.symbol "do", .list none [.builtin Primitive.debugStack.builtin],
        .list none [.builtin Primitive.add.builtin, .int 6, .int 1]]) 0, .int 6]) = some o' ∧
    o.Agrees { stack := { limit := 3 } } o' := by
  obtain ⟨o, h, hresult⟩ : ∃ o, State.apply 25 { stack := { limit := 3 } }
      (.closure 0 ["x"] (.list none [.symbol "do", .list none [.builtin Primitive.debugStack.builtin],
        .list none [.builtin Primitive.add.builtin, .int 6, .int 1]]) 0) [.int 6] = some o ∧
      o.result = .ok (.int 7) := ⟨_, rfl, rfl⟩
  have hargs : ∀ v ∈ [Value.int 6], v.IsConstant := by
    intro v hv
    obtain rfl := List.mem_singleton.1 hv
    exact ⟨nofun, nofun⟩
  obtain ⟨fuel, o', h', hagrees⟩ :=
    (apply_agrees_eval { stack := { limit := 3 } } 0 none 0 _ 0 hargs (.inr rfl)).1 25 o h
  exact ⟨o, fuel, o', h, hresult, h', hagrees⟩

end Outcomes

end TinyLisp
