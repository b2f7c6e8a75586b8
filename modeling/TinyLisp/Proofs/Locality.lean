import TinyLisp.Proofs.Capabilities
import TinyLisp.Proofs.InStep

/-!
# Evaluation depends only on what it can reach

Two states that differ in nothing but scopes and cells out of reach cannot be told apart. Evaluation
goes on in both in the same steps, with the same focus, continuations and effects.

* `step_inStep`, `run_inStep`: machines in step stay in step, if one of them keeps to what they agree
  on. There is one lemma for each function of the machine.
* `Entry.run_inStep`: so does every way into the evaluator.
* `Outcome.Matches`: what two evaluations come to that cannot be told apart.
-/

namespace TinyLisp

open Machine State

theorem State.Confines.withStack {R : Ref → Prop} {s : State} (hs : s.Confines R)
    (stack : CallStack) : State.Confines R { s with stack } where
  respects := ⟨hs.respects.parents, hs.respects.bindings, hs.respects.cells⟩
  closed := ⟨hs.closed.readable, hs.closed.append, hs.closed.file, hs.closed.host⟩
  admits := ⟨hs.admits.scopes, hs.admits.cells⟩

/-! ## Steps -/

/-- The machines have the same focus and the same continuations, and their states are in step. -/
structure Machine.InStep (R : Ref → Prop) (past past' : List Effect) (m n : Machine) : Prop where
  focus : n.focus = m.focus
  konts : n.konts = m.konts
  state : m.state.InStep R past past' n.state

/-- Both evaluations came to the same, and their states are in step. -/
structure Outcome.InStep (R : Ref → Prop) (past past' : List Effect) (o o' : Outcome) : Prop where
  result : o'.result = o.result
  state : o.state.InStep R past past' o'.state

namespace Machine

section Steps

variable {R : Ref → Prop} {past past' : List Effect} {s t : State} {ks : List Kont} {e : ScopeId}

/-- Looking up a name of a scope that is agreed on keeps machines in step. -/
theorem lookup_inStep (h : s.InStep R past past' t) (hs : s.Respects (.refs R)) (he : R (.scope e))
    (name : Text) :
    InStep R past past' (settle (s.lookup e name) ks s) (settle (t.lookup e name) ks t) := by
  have hlookup : t.lookup e name = s.lookup e name := by
    unfold State.lookup
    rw [h.lookup_eq hs he]
  rw [hlookup]
  cases s.lookup e name with
  | ok v => exact ⟨rfl, rfl, h⟩
  | error fault => exact ⟨rfl, rfl, h⟩

/-- Entering a frame keeps machines in step, since they have the same stack. -/
theorem enter_inStep (h : s.InStep R past past' t) (name : Text) (expr : Value) (e : ScopeId) :
    InStep R past past' (enter name expr e ks s) (enter name expr e ks t) := by
  unfold enter
  rw [h.stack_eq]
  split
  · exact ⟨rfl, rfl, h.withStack _⟩
  · have hdebug := h.debug "stack limit reached" [("height", .number s.stack.height)]
    refine ⟨?_, rfl, hdebug⟩
    simp only [failHere, overflow, hdebug.stack_eq]

/-- Calling a built-in function keeps machines in step. -/
theorem callBuiltin_inStep (h : s.InStep R past past' t) (hs : s.Confines R) (b : Builtin)
    {args : List Value} (ha : RespectAll (.refs R) args) :
    InStep R past past' (callBuiltin b args ks s) (callBuiltin b args ks t) := by
  unfold callBuiltin
  rw [h.stack_eq]
  split
  · refine ⟨?_, rfl, h⟩
    simp only [failHere, overflow, h.stack_eq]
  · rename_i stack _
    have hs' := hs.withStack stack
    obtain ⟨hreply, hstate⟩ := Builtin.run_inStep b (h.withStack stack) hs'.respects ha
    have hyields := b.run_yields hs'.closed hs'.respects ha
    generalize b.run args { t with stack } = r' at hreply hstate ⊢
    obtain ⟨reply', u'⟩ := r'
    split <;> rename_i hrun <;> rw [hrun] at hreply hstate hyields <;>
      obtain rfl := hreply
    · exact ⟨rfl, rfl, hstate⟩
    · exact ⟨rfl, rfl, hstate⟩
    · -- `swap!` goes on with the contents of a cell that it was given
      obtain ⟨hcell, -⟩ := hyields.respects (hs'.admits.admits _)
      refine ⟨?_, rfl, hstate⟩
      dsimp only
      rw [hstate.contents_eq hcell]

/-- Calling a function keeps machines in step. -/
theorem call_inStep (h : s.InStep R past past' t) (hs : s.Confines R) (f : Value) (name : Text)
    {args : List Value} (ha : RespectAll (.refs R) args) :
    InStep R past past' (call f name args ks s) (call f name args ks t) := by
  cases f with
  | closure identity formals body e =>
    have hlenient : t.lenient = s.lenient := by rw [h.rest]
    obtain ⟨hnumber, hscope⟩ := h.callScope formals e args
    simp only [call, hlenient]
    split
    · exact ⟨rfl, rfl, h⟩
    · rw [hnumber, hscope.stack_eq]
      exact ⟨rfl, rfl, hscope.withStack _⟩
  | builtin b => exact callBuiltin_inStep h hs b ha
  | _ => exact ⟨rfl, rfl, h⟩

/-- Applying a function keeps machines in step. -/
theorem apply_inStep (h : s.InStep R past past' t) (hs : s.Confines R) (f : Value)
    {args : List Value} (ha : RespectAll (.refs R) args) :
    InStep R past past' (apply f args ks s) (apply f args ks t) := by
  have hfail : ∀ fault, InStep R past past' (failHere fault ks s) (failHere fault ks t) := by
    intro fault
    unfold failHere
    rw [h.stack_eq]
    exact ⟨rfl, rfl, h⟩
  cases f with
  | closure identity formals body e =>
    have hlenient : t.lenient = s.lenient := by rw [h.rest]
    obtain ⟨hnumber, hscope⟩ := h.callScope formals e args
    simp only [apply, hlenient]
    split
    · exact hfail _
    · rw [hnumber]
      exact enter_inStep hscope _ _ _
  | builtin b => exact callBuiltin_inStep h hs b ha
  | _ => exact hfail _

theorem arguments_inStep (h : s.InStep R past past' t) (hs : s.Confines R) (f : Value) (name : Text)
    {done : List Value} (hd : RespectAll (.refs R) done) (ahead : List Value) (e : ScopeId) :
    InStep R past past' (arguments f name done ahead e ks s) (arguments f name done ahead e ks t) := by
  cases ahead with
  | nil => exact call_inStep h hs f name (respectAll_reverse hd)
  | cons a ahead => exact ⟨rfl, rfl, h⟩

theorem bindings_inStep (h : s.InStep R past past' t) (site : FormSite) (ahead : List Value)
    (body : Value) (e : ScopeId) :
    InStep R past past' (bindings site ahead body e ks s) (bindings site ahead body e ks t) := by
  unfold bindings
  split
  · exact ⟨rfl, rfl, h⟩
  · exact ⟨rfl, rfl, h⟩
  · split
    · exact ⟨rfl, rfl, h⟩
    · exact ⟨rfl, rfl, h⟩

theorem sequence_inStep (h : s.InStep R past past' t) (exprs : List Value) (e : ScopeId) :
    InStep R past past' (sequence exprs e ks s) (sequence exprs e ks t) := by
  unfold sequence
  split
  · exact ⟨rfl, rfl, h⟩
  · exact ⟨rfl, rfl, h⟩
  · exact ⟨rfl, rfl, h⟩

/-- Both kinds of `let` make a scope with the same number in both machines. -/
theorem let_inStep (h : s.InStep R past past' t) (site : FormSite) (items : List Value) (body : Value)
    (e : ScopeId) :
    InStep R past past' (bindings site items body (s.newScope e).1 ks (s.newScope e).2)
      (bindings site items body (t.newScope e).1 ks (t.newScope e).2) := by
  obtain ⟨hnumber, hscope⟩ := h.newScope e
  rw [hnumber]
  exact bindings_inStep hscope site items body _

/-- Special forms keep machines in step. -/
theorem special_inStep (h : s.InStep R past past' t) (form : SpecialForm) (site : FormSite)
    (operands : List Value) (e : ScopeId) :
    InStep R past past' (special form site operands e ks s) (special form site operands e ks t) := by
  unfold special
  split <;> try exact ⟨rfl, rfl, h⟩
  · split
    · exact ⟨rfl, rfl, h⟩
    · exact ⟨rfl, rfl, h⟩
  · split
    · exact let_inStep h site _ _ e
    · exact ⟨rfl, rfl, h⟩
  · split
    · exact let_inStep h site _ _ e
    · exact ⟨rfl, rfl, h⟩
  · exact sequence_inStep h operands e
  · split
    · obtain ⟨hclosure, hstate⟩ := h.newClosure _ _ e
      exact ⟨congrArg Focus.value hclosure, rfl, hstate⟩
    · exact ⟨rfl, rfl, h⟩

/-- Evaluating an expression keeps machines in step. -/
theorem expression_inStep (h : s.InStep R past past' t) (hs : s.Respects (.refs R)) (expr : Value)
    (he : R (.scope e)) :
    InStep R past past' (expression expr e ks s) (expression expr e ks t) := by
  unfold expression
  split
  · exact lookup_inStep h hs he _
  · exact ⟨rfl, rfl, h⟩
  · split
    · exact special_inStep h _ _ _ e
    · exact ⟨rfl, rfl, h⟩
  · exact ⟨rfl, rfl, h⟩
  · exact ⟨rfl, rfl, h⟩

theorem operand_inStep (h : s.InStep R past past' t) (hs : s.Respects (.refs R)) (expr : Value)
    (he : R (.scope e)) : InStep R past past' (operand expr e ks s) (operand expr e ks t) := by
  unfold operand
  split
  · exact lookup_inStep h hs he _
  · exact enter_inStep h _ _ e
  · exact ⟨rfl, rfl, h⟩

/-- Going on with a value keeps machines in step. -/
theorem resume_inStep (h : s.InStep R past past' t) (hs : s.Confines R) {k : Kont}
    (hk : k.Respects (.refs R)) {v : Value} (hv : v.Respects (.refs R)) :
    InStep R past past' (resume k v ks s) (resume k v ks t) := by
  cases k with
  | leave =>
    refine ⟨rfl, rfl, ?_⟩
    simp only [resume, h.stack_eq]
    exact h.withStack _
  | callee head args e => exact arguments_inStep h hs v _ respectAll_nil args e
  | argument f name done ahead e =>
    exact arguments_inStep h hs f name (respectAll_cons.2 ⟨hv, hk.2.1⟩) ahead e
  | define name e => exact ⟨rfl, rfl, h.bind e name v⟩
  | binding site name ahead body e => exact bindings_inStep (h.bind e name v) site ahead body e
  | sequence ahead e => exact sequence_inStep h ahead e
  | branch yes no e =>
    simp only [resume]
    split
    · exact ⟨rfl, rfl, h⟩
    · cases no with
      | some no => exact ⟨rfl, rfl, h⟩
      | none => exact ⟨rfl, rfl, h⟩
  | evaluate e =>
    have hroot : t.scopes.root e = s.scopes.root e := h.root_eq hs.respects hk
    simp only [resume, hroot]
    exact ⟨rfl, rfl, h⟩
  | update c => exact ⟨rfl, rfl, h.store c v⟩

theorem unwind_inStep (h : s.InStep R past past' t) (k : Kont) (f : Failure) :
    InStep R past past' (unwind k f ks s) (unwind k f ks t) := by
  cases k with
  | leave =>
    simp only [unwind, h.stack_eq]
    exact ⟨rfl, rfl, h.withStack _⟩
  | _ => exact ⟨rfl, rfl, h⟩

end Steps

end Machine

/-- Both machines go on in step, or both evaluations came to the same. -/
inductive Step.InStep (R : Ref → Prop) (past past' : List Effect) : Step → Step → Prop where
  | next {m n : Machine} (h : m.InStep R past past' n) : InStep R past past' (.next m) (.next n)
  | done {o o' : Outcome} (h : o.InStep R past past' o') : InStep R past past' (.done o) (.done o')

/-! ## Runs -/

section Runs

variable {R : Ref → Prop} {past past' : List Effect} {s t : State} {m n : Machine} {e : ScopeId}

/-- **Machines in step take the same step**, if one of them keeps to what they agree on. -/
theorem step_inStep (h : m.InStep R past past' n) (hm : m.Respects (.refs R))
    (hs : m.state.Confines R) : Step.InStep R past past' m.step n.step := by
  obtain ⟨focus, ks, s⟩ := m
  obtain ⟨focus', ks', t⟩ := n
  obtain rfl : focus' = focus := h.focus
  obtain rfl : ks' = ks := h.konts
  replace h : s.InStep R past past' t := h.state
  cases focus' with
  | expression expr e => exact .next (expression_inStep h hs.respects expr hm.focus.2)
  | operand expr e => exact .next (operand_inStep h hs.respects expr hm.focus.2)
  | application f args => exact .next (apply_inStep h hs f hm.focus.2)
  | value v =>
    cases ks' with
    | nil => exact .done ⟨rfl, h⟩
    | cons k ks => exact .next (resume_inStep h hs (hm.konts k List.mem_cons_self) hm.focus)
  | failure f =>
    cases ks' with
    | nil => exact .done ⟨rfl, h⟩
    | cons k ks => exact .next (unwind_inStep h k f)

/-- **Machines in step stay in step**, and come to an end after as many steps, if they do. -/
theorem run_inStep (fuel : Nat) (h : m.InStep R past past' n) (hm : m.Respects (.refs R))
    (hs : m.state.Confines R) :
    Option.Rel (Outcome.InStep R past past') (run fuel m) (run fuel n) := by
  induction fuel generalizing m n with
  | zero => exact .none
  | succ fuel ih =>
    have hstep := step_inStep h hm hs
    generalize hnext : m.step = next, hnext' : n.step = next' at hstep
    cases hstep with
    | done ho =>
      rw [run_succ_done hnext, run_succ_done hnext']
      exact .some ho
    | next hmn =>
      obtain ⟨hm', hs', -⟩ := hm.confined hs (Reaches.head hnext (Reaches.refl _))
      rw [run_succ_next hnext, run_succ_next hnext']
      exact ih hmn hm' hs'

/-- The text of a failure in the log is the same. -/
theorem Outcome.InStep.reported {o o' : Outcome} (h : o.InStep R past past' o')
    (hs : o.state.Respects (.refs R)) (hrefs : ∀ r ∈ o.refs, R r) :
    o.reported.InStep R past past' o'.reported := by
  obtain ⟨result, u⟩ := o
  obtain ⟨result', u'⟩ := o'
  obtain rfl : result' = result := h.result
  cases result' with
  | ok v => exact h
  | error f =>
    have hmessage : u'.message f.fault = u.message f.fault :=
      h.state.message_eq hs (Fault.respects_refs.2 hrefs)
    simp only [Outcome.reported, hmessage]
    exact ⟨rfl, h.state.debug _ _⟩

/-- **Evaluation keeps states in step**: both come to the same, or neither comes to an end. -/
theorem eval_inStep (fuel : Nat) (h : s.InStep R past past' t) (hs : s.Confines R)
    (he : R (.scope e)) {expr : Value} (hx : ∀ r ∈ expr.refs, R r) :
    Option.Rel (Outcome.InStep R past past') (s.eval fuel e expr) (t.eval fuel e expr) := by
  obtain ⟨hm, hstart, -⟩ := hs.enter he hx
  have hrun := run_inStep fuel (enter_inStep h [] expr e) hm hstart
  rw [State.eval_eq, State.eval_eq]
  generalize hr : run fuel (enter [] expr e [] s) = r, run fuel (enter [] expr e [] t) = r' at hrun ⊢
  cases hrun with
  | none => exact .none
  | some ho =>
    have hend := hm.halts hstart ⟨fuel, hr⟩
    exact .some (ho.reported hend.state.respects hend.refs)

theorem evalAll_inStep (fuel : Nat) (h : s.InStep R past past' t) (hs : s.Confines R)
    (he : R (.scope e)) {forms : List Value} (hforms : ∀ form ∈ forms, form.Readable) (last : Value) :
    Option.Rel (Outcome.InStep R past past') (s.evalAll fuel e last forms)
      (t.evalAll fuel e last forms) := by
  induction forms generalizing s t last with
  | nil => exact .some ⟨rfl, h⟩
  | cons form forms ih =>
    obtain ⟨hform, hforms⟩ := List.forall_mem_cons.1 hforms
    have hx : ∀ r ∈ form.refs, R r := by
      rw [hform.refs_eq]
      exact nofun
    have heval := eval_inStep fuel h hs he hx
    unfold State.evalAll
    generalize hr : s.eval fuel e form = r, t.eval fuel e form = r' at heval ⊢
    cases heval with
    | none => exact .none
    | @some o o' ho =>
      obtain ⟨result, u⟩ := o
      obtain ⟨result', u'⟩ := o'
      obtain rfl : result' = result := ho.result
      cases result' with
      | ok v => exact ih ho.state (hs.eval he hx hr).state hforms v
      | error f => exact .some ho

/-- Loading a source keeps states in step. -/
theorem load_inStep (fuel : Nat) (h : s.InStep R past past' t) (hs : s.Confines R)
    (he : R (.scope e)) (file bytes : Text) (failure : Option Text) :
    Option.Rel (Outcome.InStep R past past') (s.load fuel e file bytes failure)
      (t.load fuel e file bytes failure) := by
  have hreads : t.reads = s.reads := by rw [h.rest]
  unfold State.load
  rw [hreads]
  split
  · exact .some ⟨rfl, h⟩
  · split
    · exact .some ⟨rfl, h⟩
    · rename_i forms hread
      have hedit : s.Edited (.refs R) (s.loaded file forms) :=
        .of_eq (State.scopes_debug _ _) (State.cells_debug _ _)
      have hloaded := hs.edited hedit (s.quiet_debug _ _).2
      exact evalAll_inStep fuel (h.debug _ _) hloaded he (fun _ => readable_of_readAll hread) .nil

theorem Entry.run_inStep (entry : Entry) (fuel : Nat) (h : s.InStep R past past' t)
    (hs : s.Confines R) (hroots : ∀ r, entry.roots r → R r) :
    Option.Rel (Outcome.InStep R past past') (entry.run fuel s) (entry.run fuel t) := by
  cases entry with
  | eval e expr =>
    exact eval_inStep fuel h hs (hroots _ (.inl rfl)) fun r hr => hroots r (.inr hr)
  | apply f args => exact TinyLisp.run_inStep fuel ⟨rfl, rfl, h⟩ (hs.application hroots) hs
  | load e file bytes failure => exact load_inStep fuel h hs (hroots _ rfl) file bytes failure

end Runs

/-! ## Locality -/

/-- Two evaluations that began in the states `s` and `t` came to the same value or failure, with the
same effects, and agree afterwards on everything that is reachable from it and from `roots`. -/
structure Outcome.Matches (s t : State) (roots : Ref → Prop) (out out' : Outcome) : Prop where
  result : out'.result = out.result
  effects : ∃ new, out.state.effects = new ++ s.effects ∧ out'.state.effects = new ++ t.effects
  agree : out.state.Agree (Reachable out.state fun r => r ∈ out.refs ∨ roots r) out'.state

section Locality

variable {s t : State} {roots : Ref → Prop}

/-- States that agree on what is reachable are in step on what is permitted. -/
theorem State.Agree.inStep (h : s.Agree (Reachable s roots) t) :
    s.InStep (Permitted s roots) s.effects t.effects t := by
  refine ⟨⟨h.rest, h.scopes_size, h.cells_size, fun e he => ?_, fun c hc => ?_⟩, [], rfl, rfl⟩
  · rcases he with he | he
    · exact h.scopes e he
    · -- what does not exist in one does not exist in the other
      have hle : s.scopes.size ≤ e := Nat.not_lt.1 he
      rw [Array.getElem?_eq_none hle, Array.getElem?_eq_none (h.scopes_size ▸ hle)]
  · rcases hc with hc | hc
    · exact h.cells c hc
    · have hle : s.cells.size ≤ c := Nat.not_lt.1 hc
      rw [Array.getElem?_eq_none hle, Array.getElem?_eq_none (h.cells_size ▸ hle)]

/-- Outcomes in step match, since everything that is reachable from them is permitted. -/
theorem matches_of_inStep {r r' : Option Outcome}
    (h : Option.Rel (Outcome.InStep (Permitted s roots) s.effects t.effects) r r')
    (hout : ∀ out, r = some out → out.Confined (Permitted s roots) s) :
    Option.Rel (Outcome.Matches s t roots) r r' := by
  cases h with
  | none => exact .none
  | @some out out' h =>
    have hconf := hout out rfl
    refine .some ⟨h.result, h.state.effects, h.state.toAgree.mono fun r hr => ?_⟩
    refine hr.of_respects hconf.state.respects fun r hr => ?_
    rcases hr with hr | hr
    · exact hconf.refs r hr
    · exact .inl (.root hr)

theorem call_setup (f : Value) (name : Text) (args : List Value) :
    (call f name args [] s).state.setup = s.setup := by
  have hmove : Move [.leave] s _ (call f name args [.leave] s) :=
    call_move (List.mem_singleton.2 rfl) f name args
  have hatop : call f name args ([] ++ [.leave]) s = (call f name args [] s).atop [.leave] :=
    call_atop [.leave] f name args
  rw [List.nil_append] at hatop
  rw [hatop] at hmove
  exact hmove.setup_eq

end Locality

/-- **Evaluation depends only on what it can reach.** If two states differ in nothing but past effects
and what is out of reach, an evaluation comes to an end in one if it does in the other, after as many
steps, and its outcomes match. So do those of a call wherever it is made: only what can be reached from
the function and its arguments matters, not what the caller binds. -/
theorem evaluation_local {s t : State} :
    (∀ entry : Entry, (∀ host ∈ s.hosts, Host.Within (Reachable s entry.roots) host) →
      s.Agree (Reachable s entry.roots) t → ∀ fuel,
        Option.Rel (Outcome.Matches s t entry.roots) (entry.run fuel s) (entry.run fuel t)) ∧
    ∀ f name args, (∀ host ∈ s.hosts, Host.Within (Reachable s (Entry.apply f args).roots) host) →
      s.Agree (Reachable s (Entry.apply f args).roots) t → ∀ fuel,
        Option.Rel (Outcome.Matches s t (Entry.apply f args).roots)
          (run fuel (call f name args [] s)) (run fuel (call f name args [] t)) := by
  constructor
  · intro entry hhosts h fuel
    have hs := confines_permitted hhosts
    have hroots : ∀ r, entry.roots r → Permitted s entry.roots r := fun r hr => .inl (.root hr)
    exact matches_of_inStep (entry.run_inStep fuel h.inStep hs hroots) fun out =>
      Entry.confined hs hroots
  · intro f name args hhosts h fuel
    have hs := confines_permitted hhosts
    have hargs : RespectAll (.refs (Permitted s (Entry.apply f args).roots)) (f :: args) :=
      respectAll_refs.2 fun r hr => .inl (.root hr)
    obtain ⟨hf, ha⟩ := respectAll_cons.1 hargs
    have hstart := call_yielded hs.closed hs.respects (List.forall_mem_nil _) hf name ha
    have hm := hstart.respects hs.respects (hs.admits.admits _)
    have hs' := hs.edited hstart.edited (call_setup f name args)
    refine matches_of_inStep (run_inStep fuel (call_inStep h.inStep hs f name ha) hm hs') ?_
    intro out hout
    exact (hm.halts hs' ⟨fuel, hout⟩).trans hstart.edited.grows

/-- A function whose body is a name that only the caller's scope binds does not find it, whatever it is
bound to there. -/
theorem evaluation_local_unbound : ∃ (s t : State) (out out' : Outcome),
    s.scopes[2]? = some { parent := some 0, bindings := [("x", .int 1)] } ∧
    t.scopes[2]? = some { parent := some 0, bindings := [("x", .int 2)] } ∧
    run 9 (call (.closure 0 [] (.symbol "x") 1) "f" [] [] s) = some out ∧
    run 9 (call (.closure 0 [] (.symbol "x") 1) "f" [] [] t) = some out' ∧
    out.result = .error { fault := .unbound "x" } ∧
    out.Matches s t (Entry.apply (.closure 0 [] (.symbol "x") 1) []).roots out' := by
  obtain ⟨s, t, out, hs, ht, hrest, hrun, hres⟩ : ∃ (s t : State) (out : Outcome),
      s.scopes = #[{ parent := none }, { parent := some 0 },
        { parent := some 0, bindings := [("x", .int 1)] }] ∧
      t.scopes = #[{ parent := none }, { parent := some 0 },
        { parent := some 0, bindings := [("x", .int 2)] }] ∧
      (s.cells = #[] ∧ s.hosts = #[] ∧ t = { s with scopes := t.scopes }) ∧
      run 9 (call (.closure 0 [] (.symbol "x") 1) "f" [] [] s) = some out ∧
      out.result = .error { fault := .unbound "x" } := by
    have hlookup : Scopes.lookup #[{ parent := none }, { parent := some 0 },
        { parent := some 0, bindings := [("x", .int 1)] }, { parent := some 1 }] 3 "x" = none := by
      simp [Scopes.lookup, Scope.find?]
    have hunbound : ∀ u : State, u.scopes.lookup 3 "x" = none →
        run 9 { focus := .expression (.symbol "x") 3, konts := [], state := u } =
          some { result := .error { fault := .unbound "x" }, state := u } := by
      intro u hu
      simp only [run, step, Value.symbol, expression, settle, State.lookup, hu, fail]
    exact ⟨{ scopes := _ }, { scopes := _ }, _, rfl, rfl, ⟨rfl, rfl, rfl⟩, hunbound _ hlookup, rfl⟩
  obtain ⟨hcells, hhosts, hrest⟩ := hrest
  -- the caller's scope is not among the scopes that lead only to themselves and the root
  have hrespects : s.Respects (.refs fun r => r = .scope 0 ∨ r = .scope 1) := by
    refine ⟨fun e scope p he h hp => ?_, fun e scope he h => ?_, fun c v _ h => ?_⟩
    · rw [hs] at h
      rcases he with he | he <;> cases he <;> cases h
      · cases hp
      · exact .inl (congrArg Ref.scope (Option.some.inj hp).symm)
    · rw [hs] at h
      rcases he with he | he <;> cases he <;> cases h <;> exact List.forall_mem_nil _
    · rw [hcells] at h
      simp at h
  have hreach : ∀ r, Reachable s (Entry.apply (.closure 0 [] (.symbol "x") 1) []).roots r →
      r = .scope 0 ∨ r = .scope 1 := by
    intro r hr
    refine hr.of_respects hrespects fun r hr => .inr ?_
    exact List.mem_singleton.1 hr
  have hagree : s.Agree (Reachable s (Entry.apply (.closure 0 [] (.symbol "x") 1) []).roots) t := by
    refine ⟨?_, ?_, ?_, fun e he => ?_, fun c hc => ?_⟩
    · rw [hrest]
    · rw [hs, ht]
      rfl
    · rw [hrest]
    · rw [hs, ht]
      rcases hreach _ he with he | he <;> cases he <;> rfl
    · rcases hreach _ hc with hc | hc <;> cases hc
  have hnone : ∀ host ∈ s.hosts,
      Host.Within (Reachable s (Entry.apply (.closure 0 [] (.symbol "x") 1) []).roots) host := by
    rw [hhosts]
    exact fun host h => absurd h (Array.not_mem_empty host)
  have hlocal := evaluation_local.2 _ "f" [] hnone hagree 9
  rw [hrun] at hlocal
  generalize hrun' : run 9 (call (.closure 0 [] (.symbol "x") 1) "f" [] [] t) = r at hlocal
  cases hlocal with
  | @some _ out' h => exact ⟨s, t, out, out', by rw [hs]; rfl, by rw [ht]; rfl, hrun, hrun', hres, h⟩

end TinyLisp
