import TinyLisp.Proofs.Frames
import TinyLisp.Proofs.Unplaced

/-!
# Steps do not look at places

Two machines that are the same up to places take steps that are the same up to places, and so do
runs of them. The one thing a step computes from a place is the fault of an empty call or a
malformed form, and no step looks into a fault.

For most functions of the evaluator this is an equation: to forget places first and then take the
step is to take the step and then forget places. A call is different, since `read-str` makes values
with places out of a text without; there places are forgotten once more behind the step.

* `Machine.step_unplaced`: steps.
* `Machine.run_unplaced`: runs.
-/

namespace TinyLisp

open Machine

/-! ## Machines without places -/

/-- The site without its place. -/
def FormSite.unplaced (site : FormSite) : FormSite := { site with source := none }

/-- The continuation without places. -/
def Kont.unplaced : Kont → Kont
  | .callee head args e => .callee head.unplaced (args.map Value.unplaced) e
  | .argument function name done ahead e =>
    .argument function.unplaced name (done.map Value.unplaced) (ahead.map Value.unplaced) e
  | .binding site name ahead body e =>
    .binding site.unplaced name (ahead.map Value.unplaced) body.unplaced e
  | .sequence ahead e => .sequence (ahead.map Value.unplaced) e
  | .branch yes no e => .branch yes.unplaced (no.map Value.unplaced) e
  | k => k

/-- The focus without places. -/
def Focus.unplaced : Focus → Focus
  | .expression expr e => .expression expr.unplaced e
  | .operand expr e => .operand expr.unplaced e
  | .application function args => .application function.unplaced (args.map Value.unplaced)
  | .value v => .value v.unplaced
  | .failure f => .failure f.unplaced

/-- The machine without places. -/
def Machine.unplaced (m : Machine) : Machine :=
  { focus := m.focus.unplaced, konts := m.konts.map Kont.unplaced, state := m.state.unplaced }

/-- The outcome without places. -/
def Outcome.unplaced (o : Outcome) : Outcome :=
  { result := (o.result.map Value.unplaced).mapError Failure.unplaced, state := o.state.unplaced }

/-- The step without places. -/
def Step.unplaced : Step → Step
  | .next m => .next m.unplaced
  | .done o => .done o.unplaced

/-- Places are forgotten once. -/
theorem Kont.unplaced_unplaced (k : Kont) : k.unplaced.unplaced = k.unplaced := by
  cases k with
  | branch yes no e => cases no <;> simp [Kont.unplaced]
  | _ => simp [Kont.unplaced, FormSite.unplaced]

theorem Failure.unplaced_unplaced (f : Failure) : f.unplaced.unplaced = f.unplaced := by
  simp [Failure.unplaced]

theorem Focus.unplaced_unplaced (f : Focus) : f.unplaced.unplaced = f.unplaced := by
  cases f <;> simp [Focus.unplaced, Failure.unplaced_unplaced]

theorem Outcome.unplaced_unplaced (o : Outcome) : o.unplaced.unplaced = o.unplaced := by
  obtain ⟨result, s⟩ := o
  cases result <;>
    simp [Outcome.unplaced, Except.map, Except.mapError, Failure.unplaced_unplaced]

namespace Machine

theorem konts_unplaced (ks : List Kont) :
    (ks.map Kont.unplaced).map Kont.unplaced = ks.map Kont.unplaced := by
  rw [List.map_map]
  exact List.map_congr_left fun k _ => k.unplaced_unplaced

@[simp] theorem unplaced_unplaced (m : Machine) : m.unplaced.unplaced = m.unplaced := by
  simp only [unplaced, Focus.unplaced_unplaced, konts_unplaced, State.unplaced_unplaced]

/-- An equation of machines, one of them without places, holds without places too. -/
theorem unplaced_of_eq {m m' : Machine} (h : m' = m.unplaced) : m'.unplaced = m.unplaced := by
  rw [h, unplaced_unplaced]

section Steps

variable {s : State} {ks : List Kont} {e : ScopeId}

/-- A name has the same value without places, up to places. -/
theorem settle_unplaced (e : ScopeId) (name : Text) :
    settle (s.unplaced.lookup e name) (ks.map Kont.unplaced) s.unplaced =
      (settle (s.lookup e name) ks s).unplaced := by
  rw [State.lookup_unplaced]
  unfold State.lookup
  cases s.scopes.lookup e name <;> rfl

/-- Parameters are bound the same way without places. -/
theorem callScope_unplaced (formals : List Text) (e : ScopeId) (args : List Value) :
    callScope formals e (args.map Value.unplaced) s.unplaced =
      ((callScope formals e args s).1, (callScope formals e args s).2.unplaced) := by
  simp only [callScope, State.newScope_unplaced, State.bindAll_unplaced]

/-- Entering a frame does not look at places. -/
theorem enter_unplaced (name : Text) (expr : Value) (e : ScopeId) :
    enter name expr.unplaced e (ks.map Kont.unplaced) s.unplaced =
      (enter name expr e ks s).unplaced := by
  have hstack : s.unplaced.stack = s.stack := rfl
  have hdebug : s.unplaced.debug "stack limit reached" [("height", .number s.stack.height)] =
      (s.debug "stack limit reached" [("height", .number s.stack.height)]).unplaced := by
    rw [State.debug_unplaced]
    with_unfolding_all rfl
  unfold enter
  rw [hstack, hdebug]
  split <;> rfl

/-- Going through bindings does not look at places. -/
theorem bindings_unplaced (site : FormSite) (ahead : List Value) (body : Value) (e : ScopeId) :
    bindings site.unplaced (ahead.map Value.unplaced) body.unplaced e (ks.map Kont.unplaced)
      s.unplaced = (bindings site ahead body e ks s).unplaced := by
  rcases ahead with _ | ⟨v, _ | ⟨expr, ahead⟩⟩
  · rfl
  · rfl
  · simp only [List.map_cons, bindings, Value.symbolName_unplaced]
    cases v.symbolName? <;> rfl

theorem sequence_unplaced (exprs : List Value) (e : ScopeId) :
    sequence (exprs.map Value.unplaced) e (ks.map Kont.unplaced) s.unplaced =
      (sequence exprs e ks s).unplaced := by
  rcases exprs with _ | ⟨v, _ | ⟨w, exprs⟩⟩ <;> rfl

/-- The names of parameters are the same without places, and so is the first that is none. -/
theorem parameters_unplaced (vs : List Value) :
    parameters (vs.map Value.unplaced) = (parameters vs).mapError Value.unplaced := by
  induction vs with
  | nil => rfl
  | cons v vs ih =>
    simp only [List.map_cons, parameters, Value.symbolName_unplaced, ih]
    cases v.symbolName? with
    | none => rfl
    | some name => cases parameters vs <;> rfl

/-- Four forms take two operands. -/
theorem special_of_length_ne {form : SpecialForm} (hform : form ∉ [.sequence, .branch, .evaluate])
    (site : FormSite) {operands : List Value} (h : operands.length ≠ 2) :
    special form site operands e ks s = malformed site (.operands 2 2 operands.length) ks s := by
  -- the forms look at what the first operand is before they count the others
  rcases operands with _ | ⟨v, _ | ⟨body, _ | ⟨w, operands⟩⟩⟩
  · cases form <;> first | rfl | exact absurd (by decide) hform
  · cases form <;> cases v <;> first | rfl | exact absurd (by decide) hform
  · exact absurd rfl h
  · cases form <;> cases v <;> first | rfl | exact absurd (by decide) hform

/-- Both kinds of `let` make a scope and go through their bindings. -/
theorem let_unplaced (site : FormSite) (v body : Value) (e : ScopeId) :
    special .letSeq site.unplaced [v.unplaced, body.unplaced] e (ks.map Kont.unplaced) s.unplaced =
      (special .letSeq site [v, body] e ks s).unplaced := by
  cases v with
  | list source items =>
    rw [Value.unplaced_list]
    simp only [special, List.length_map, State.newScope_unplaced]
    split
    · exact bindings_unplaced site items body _
    · rfl
  | scalar _ content => cases content <;> rfl
  | _ => rfl

/-- The forms that take two operands. -/
theorem special_pair_unplaced {form : SpecialForm} (hform : form ∉ [.sequence, .branch, .evaluate])
    (site : FormSite) (v body : Value) (e : ScopeId) :
    special form site.unplaced [v.unplaced, body.unplaced] e (ks.map Kont.unplaced) s.unplaced =
      (special form site [v, body] e ks s).unplaced := by
  cases form with
  | define =>
    simp only [special, Value.symbolName_unplaced]
    cases v.symbolName? <;> rfl
  | letSeq => exact let_unplaced site v body e
  | letRec =>
    rw [special_letRec, special_letRec]
    exact let_unplaced site v body e
  | function =>
    cases v with
    | list source items =>
      rw [Value.unplaced_list]
      simp only [special, parameters_unplaced]
      cases parameters items <;> rfl
    | scalar _ content => cases content <;> rfl
    | _ => rfl
  | _ => exact absurd (by decide) hform

/-- Special forms do not look at places, except to report them. -/
theorem special_unplaced (form : SpecialForm) (site : FormSite) (operands : List Value)
    (e : ScopeId) :
    special form site.unplaced (operands.map Value.unplaced) e (ks.map Kont.unplaced) s.unplaced =
      (special form site operands e ks s).unplaced := by
  by_cases hform : form ∈ [.sequence, .branch, .evaluate]
  · have hlength : (operands.map Value.unplaced).length = operands.length := List.length_map _
    cases form with
    | sequence => exact sequence_unplaced operands e
    | branch =>
      rcases operands with _ | ⟨v, _ | ⟨yes, _ | ⟨no, _ | ⟨w, operands⟩⟩⟩⟩ <;> try rfl
      exact congrArg (fun n => malformed site.unplaced (.operands 2 3 n) _ _) hlength
    | evaluate =>
      rcases operands with _ | ⟨v, _ | ⟨w, operands⟩⟩ <;> try rfl
      exact congrArg (fun n => malformed site.unplaced (.operands 1 1 n) _ _) hlength
    | _ => exact absurd hform (by decide)
  · by_cases h : operands.length = 2
    · obtain ⟨v, body, rfl⟩ := List.length_eq_two.1 h
      exact special_pair_unplaced hform site v body e
    · have h' : (operands.map Value.unplaced).length ≠ 2 := by rwa [List.length_map]
      rw [special_of_length_ne hform site h, special_of_length_ne hform site.unplaced h',
        List.length_map]
      rfl

/-- Expressions in tail position are evaluated without looking at places. -/
theorem expression_unplaced (expr : Value) (e : ScopeId) :
    expression expr.unplaced e (ks.map Kont.unplaced) s.unplaced =
      (expression expr e ks s).unplaced := by
  cases expr with
  | scalar _ content =>
    cases content with
    | symbol name => exact settle_unplaced e name
    | _ => rfl
  | list source items =>
    cases items with
    | nil => rfl
    | cons head operands =>
      simp only [Value.unplaced_list, List.map_cons, expression, Value.ofHead_unplaced]
      cases SpecialForm.ofHead? head with
      | none => rfl
      | some form => exact special_unplaced form { name := form.name, source } operands e
  | _ => rfl

/-- Operands are evaluated without looking at places. -/
theorem operand_unplaced (expr : Value) (e : ScopeId) :
    operand expr.unplaced e (ks.map Kont.unplaced) s.unplaced = (operand expr e ks s).unplaced := by
  cases expr with
  | scalar _ content =>
    cases content with
    | symbol name => exact settle_unplaced e name
    | _ => rfl
  | list source items => exact enter_unplaced [] (.list source items) e
  | _ => rfl

theorem unwind_unplaced (k : Kont) (f : Failure) :
    unwind k.unplaced f.unplaced (ks.map Kont.unplaced) s.unplaced =
      (unwind k f ks s).unplaced := by
  cases k with
  | leave =>
    obtain ⟨fault, trace⟩ := f
    cases trace <;> rfl
  | _ => rfl

/-- Goes on with the answer of a built-in function. -/
def answered (ks : List Kont) : Reply × State → Machine
  | (.value v, s) => { focus := .value v, konts := .leave :: ks, state := s }
  | (.fault fault, s) => fail fault (.leave :: ks) s
  | (.update c f, s) =>
    { focus := .application f [s.contents c], konts := .update c :: .leave :: ks, state := s }

/-- In a frame of its own, a built-in function answers. -/
theorem callBuiltin_eq (b : Builtin) (args : List Value) {stack : CallStack}
    (h : s.stack.push b.name true = some stack) :
    callBuiltin b args ks s = answered ks (b.run args { s with stack }) := by
  unfold callBuiltin
  rw [h]
  dsimp only
  rcases b.run args { s with stack } with ⟨_ | _ | _, t⟩ <;> rfl

/-- To go on with an answer is not to look at its places. -/
theorem answered_unplaced (answer : Reply × State) :
    answered (ks.map Kont.unplaced) (Prod.map Reply.unplaced State.unplaced answer) =
      (answered ks answer).unplaced := by
  obtain ⟨reply, t⟩ := answer
  cases reply with
  | value v => rfl
  | fault fault => rfl
  | update c f =>
    simp only [Prod.map, Reply.unplaced, answered, State.contents_unplaced]
    rfl

theorem arityFault_unplaced (lenient : Bool) (name : Text) (formals : List Text)
    (args : List Value) :
    arityFault? lenient name formals (args.map Value.unplaced) =
      (arityFault? lenient name formals args).map Fault.unplaced := by
  unfold arityFault?
  rw [List.length_map]
  split <;> rfl

/-- Closures are called without looking at places; what is no function is no function without them.
-/
theorem call_unplaced_of_ne {f : Value} (hf : ∀ b, f ≠ .builtin b) (name : Text)
    (args : List Value) :
    call f.unplaced name (args.map Value.unplaced) (ks.map Kont.unplaced) s.unplaced =
      (call f name args ks s).unplaced := by
  cases f with
  | closure identity formals body e =>
    have hlenient : s.unplaced.lenient = s.lenient := rfl
    simp only [Value.unplaced_closure, call, hlenient, arityFault_unplaced, callScope_unplaced]
    cases arityFault? s.lenient name formals args <;> rfl
  | builtin b => exact absurd rfl (hf b)
  | _ => rfl

/-- Closures are applied without looking at places. -/
theorem apply_unplaced_of_ne {f : Value} (hf : ∀ b, f ≠ .builtin b) (args : List Value) :
    apply f.unplaced (args.map Value.unplaced) (ks.map Kont.unplaced) s.unplaced =
      (apply f args ks s).unplaced := by
  cases f with
  | closure identity formals body e =>
    have hlenient : s.unplaced.lenient = s.lenient := rfl
    simp only [Value.unplaced_closure, apply, hlenient, arityFault_unplaced, callScope_unplaced]
    cases arityFault? s.lenient anonymous formals args with
    | none => exact enter_unplaced anonymous body _
    | some fault => rfl
  | builtin b => exact absurd rfl (hf b)
  | _ => rfl

section Calls

variable (hhosts : ∀ host ∈ s.hosts, Host.IgnoresPlaces host)

include hhosts

/-- Calls of built-in functions agree once the places of what was read are forgotten too. -/
theorem callBuiltin_unplaced (b : Builtin) (args : List Value) :
    (callBuiltin b (args.map Value.unplaced) (ks.map Kont.unplaced) s.unplaced).unplaced =
      (callBuiltin b args ks s).unplaced := by
  have hstack : s.unplaced.stack = s.stack := rfl
  cases hpush : s.stack.push b.name true with
  | none =>
    refine unplaced_of_eq ?_
    rw [callBuiltin, callBuiltin, hstack, hpush]
    rfl
  | some stack =>
    rw [callBuiltin_eq b args hpush, callBuiltin_eq b _ (hstack ▸ hpush), ← answered_unplaced,
      ← answered_unplaced, konts_unplaced]
    exact congrArg (answered _) (Builtin.run_unplaced (s := { s with stack }) hhosts b args)

/-- Calls in tail position do not look at places. -/
theorem call_unplaced (f : Value) (name : Text) (args : List Value) :
    (call f.unplaced name (args.map Value.unplaced) (ks.map Kont.unplaced) s.unplaced).unplaced =
      (call f name args ks s).unplaced := by
  by_cases hf : ∃ b, f = .builtin b
  · obtain ⟨b, rfl⟩ := hf
    exact callBuiltin_unplaced hhosts b args
  · exact unplaced_of_eq (call_unplaced_of_ne (not_exists.1 hf) name args)

/-- Applications do not look at places. -/
theorem apply_unplaced (f : Value) (args : List Value) :
    (apply f.unplaced (args.map Value.unplaced) (ks.map Kont.unplaced) s.unplaced).unplaced =
      (apply f args ks s).unplaced := by
  by_cases hf : ∃ b, f = .builtin b
  · obtain ⟨b, rfl⟩ := hf
    exact callBuiltin_unplaced hhosts b args
  · exact unplaced_of_eq (apply_unplaced_of_ne (not_exists.1 hf) args)

theorem arguments_unplaced (f : Value) (name : Text) (done ahead : List Value) (e : ScopeId) :
    (arguments f.unplaced name (done.map Value.unplaced) (ahead.map Value.unplaced) e
        (ks.map Kont.unplaced) s.unplaced).unplaced =
      (arguments f name done ahead e ks s).unplaced := by
  cases ahead with
  | nil =>
    simp only [List.map_nil, arguments, ← List.map_reverse]
    exact call_unplaced hhosts f name done.reverse
  | cons a ahead => exact unplaced_of_eq rfl

/-- To go on with a value is not to look at places. -/
theorem resume_unplaced (k : Kont) (v : Value) :
    (resume k.unplaced v.unplaced (ks.map Kont.unplaced) s.unplaced).unplaced =
      (resume k v ks s).unplaced := by
  cases k with
  | leave => exact unplaced_of_eq rfl
  | callee head args e =>
    simp only [Kont.unplaced, resume, Value.symbolName_unplaced]
    exact arguments_unplaced hhosts v _ [] args e
  | argument f name done ahead e => exact arguments_unplaced hhosts f name (v :: done) ahead e
  | define name e =>
    refine unplaced_of_eq ?_
    simp only [resume, Kont.unplaced, State.bind_unplaced]
    rfl
  | binding site name ahead body e =>
    refine unplaced_of_eq ?_
    simp only [resume, Kont.unplaced, State.bind_unplaced]
    exact bindings_unplaced site ahead body e
  | sequence ahead e => exact unplaced_of_eq (sequence_unplaced ahead e)
  | branch yes no e =>
    refine unplaced_of_eq ?_
    simp only [resume, Kont.unplaced, Value.isTrue_unplaced]
    cases v.isTrue with
    | true => rfl
    | false => cases no <;> rfl
  | evaluate e =>
    have hroot : s.unplaced.scopes.root e = s.scopes.root e := Scopes.root_unplaced s.scopes e
    refine unplaced_of_eq ?_
    simp only [resume, Kont.unplaced, hroot]
    rfl
  | update c =>
    refine unplaced_of_eq ?_
    simp only [resume, Kont.unplaced, State.store_unplaced]
    rfl

end Calls

end Steps

/-! ## Steps and runs -/

/-- **A step does not look at places**: without them it comes to the same without them. -/
theorem step_unplaced {m : Machine} (hhosts : ∀ host ∈ m.state.hosts, Host.IgnoresPlaces host) :
    m.unplaced.step.unplaced = m.step.unplaced := by
  obtain ⟨focus, ks, s⟩ := m
  cases focus with
  | expression expr e =>
    exact congrArg Step.next (unplaced_of_eq (expression_unplaced expr e))
  | operand expr e => exact congrArg Step.next (unplaced_of_eq (operand_unplaced expr e))
  | application f args => exact congrArg Step.next (apply_unplaced hhosts f args)
  | value v =>
    cases ks with
    | nil => exact congrArg Step.done (Outcome.unplaced_unplaced { result := .ok v, state := s })
    | cons k ks => exact congrArg Step.next (resume_unplaced hhosts k v)
  | failure f =>
    cases ks with
    | nil => exact congrArg Step.done (Outcome.unplaced_unplaced { result := .error f, state := s })
    | cons k ks => exact congrArg Step.next (unplaced_of_eq (unwind_unplaced k f))

/-- **A run does not look at places.** -/
theorem run_unplaced {m m' : Machine} (hhosts : ∀ host ∈ m.state.hosts, Host.IgnoresPlaces host)
    (h : m.unplaced = m'.unplaced) (fuel : Nat) :
    Option.Rel (fun o o' => o.unplaced = o'.unplaced) (run fuel m) (run fuel m') := by
  induction fuel generalizing m m' with
  | zero => exact .none
  | succ fuel ih =>
    have hsame : m'.state.hosts = m.state.hosts := congrArg (·.state.hosts) h.symm
    have hstep : m.step.unplaced = m'.step.unplaced := by
      rw [← step_unplaced hhosts, h, step_unplaced (hsame ▸ hhosts)]
    cases hm : m.step with
    | next n =>
      cases hm' : m'.step with
      | next n' =>
        rw [hm, hm'] at hstep
        rw [run_succ_next hm, run_succ_next hm']
        refine ih ?_ (Step.next.inj hstep)
        rwa [State.hosts_of_setup (setup_step hm)]
      | done o' =>
        rw [hm, hm'] at hstep
        cases hstep
    | done o =>
      cases hm' : m'.step with
      | next n' =>
        rw [hm, hm'] at hstep
        cases hstep
      | done o' =>
        rw [hm, hm'] at hstep
        rw [run_succ_done hm, run_succ_done hm']
        exact .some (Step.done.inj hstep)

end Machine

end TinyLisp
