import TinyLisp.Proofs.Agreement
import TinyLisp.Proofs.Semantics
import TinyLisp.Proofs.Validity

/-!
# Relating the machine to recursion

What the machine has to do with evaluation by recursion is proved in two directions that go through
the same cases. So the cases are proved once, for any relation between evaluations by recursion and
machines that is closed under what the two have in common (`Closed`).

* `expression_related`, `call_related`, `apply_related`: the relation holds of a layer of the
  recursion and the step of the machine that begins it, if it holds of the parts.
-/

namespace TinyLisp

open Machine Recursive

/-- The state `s` is valid and set up as `σ`. -/
structure State.Ready (σ : Setup) (s : State) : Prop where
  valid : s.Valid
  setup : s.setup = σ

/-- Comes to what `debug-stack` does. -/
def Recursive.report : Action Value := do MonadExcept.ofExcept (← modifyGet State.report)

/-- What `x` does in a state that agrees with `s`, `x'` does in one that agrees with `s'`. -/
def Turns (s s' : State) (x x' : Action Value) : Prop :=
  ∀ base d t, Sees base d s t → ∃ t', Sees base d s' t' ∧ x.run.run t = x'.run.run t'

/-- A relation between evaluations by recursion, from a state, and machines that is closed under
what the two have in common. -/
structure Closed (σ : Setup) (R : Action Value → State → Machine → Prop) : Prop where
  value (v : Value) (s : State) : R (pure v) s { focus := .value v, konts := [], state := s }
  failure (f : Failure) (ks : List Kont) (s : State) :
    R (throw f.fault) s { focus := .failure f, konts := ks, state := s }
  report {s : State} : s.setup = σ → R report s (settle s.report.1 [] s.report.2)
  step {x : Action Value} {s : State} {m m' : Machine} : m.step = .next m' → R x s m' → R x s m
  turn {x x' : Action Value} {s s' : State} {m : Machine} : Turns s s' x x' → R x' s' m → R x s m
  bind {x : Action Value} {g : Value → Action Value} {s : State} {m : Machine} {ks : List Kont} :
    m.Valid → m.state.setup = σ → R x s m →
    (∀ v s', v.Valid → s'.Ready σ → R (g v) s' { focus := .value v, konts := ks, state := s' }) →
    R (x >>= g) s (m.atop ks)

/-! ## Layers -/

section Layers

variable {σ : Setup} {R : Action Value → State → Machine → Prop}
  {ev : ScopeId → Value → Action Value} {ap : Text → Value → List Value → Action Value}

/-- The relation holds of expressions. -/
def RelatesExpressions (σ : Setup) (R : Action Value → State → Machine → Prop)
    (ev : ScopeId → Value → Action Value) : Prop :=
  ∀ {e expr s}, expr.Valid → s.Ready σ →
    R (ev e expr) s { focus := .expression expr e, konts := [], state := s }

/-- The relation holds of operands. -/
def RelatesOperands (σ : Setup) (R : Action Value → State → Machine → Prop)
    (ev : ScopeId → Value → Action Value) : Prop :=
  ∀ {e expr s}, expr.Valid → s.Ready σ →
    R (ev e expr) s { focus := .operand expr e, konts := [], state := s }

/-- The relation holds of calls in tail position. -/
def RelatesCalls (σ : Setup) (R : Action Value → State → Machine → Prop)
    (ap : Text → Value → List Value → Action Value) : Prop :=
  ∀ {name f args s}, f.Valid → ValidAll args → s.Ready σ →
    R (ap name f args) s (call f name args [] s)

/-- The relation holds of applications in a frame of their own. -/
def RelatesApplications (σ : Setup) (R : Action Value → State → Machine → Prop)
    (ap : Text → Value → List Value → Action Value) : Prop :=
  ∀ {f args s}, f.Valid → ValidAll args → s.Ready σ →
    R (ap anonymous f args) s { focus := .application f args, konts := [], state := s }

theorem State.Ready.bind {s : State} (hs : s.Ready σ) {v : Value} (hv : v.Valid) (e : ScopeId)
    (name : Text) : (s.bind e name v).Ready σ :=
  ⟨hs.valid.bind hv e name, hs.setup⟩

theorem State.Ready.newScope {s : State} (hs : s.Ready σ) (e : ScopeId) :
    (s.newScope e).2.Ready σ :=
  ⟨hs.valid.newScope e, hs.setup⟩

/-- A machine that hands on a value is left with it. -/
theorem Closed.leave (hR : Closed σ R) {x : Action Value} {s : State} {m : Machine} (hm : m.Valid)
    (hsetup : m.state.setup = σ) (h : R x s m) : R x s (m.atop [.leave]) := by
  have h' : R (x >>= pure) s (m.atop [.leave]) :=
    hR.bind hm hsetup h fun v s' _ _ => hR.step rfl
      (hR.turn (fun base d t ht => ⟨t, ht.withStack s'.stack.drop, rfl⟩) (hR.value v _))
  rwa [bind_pure] at h'

/-- A value is at hand in both. -/
theorem value_related (hR : Closed σ R) {v : Value} (hv : v.Valid) {s : State} (hs : s.Ready σ) :
    R (pure v) s { focus := .value v, konts := [.leave], state := s } :=
  hR.leave (m := { focus := .value v, konts := [], state := s }) ⟨hv, nofun, hs.valid⟩ hs.setup
    (hR.value v s)

/-- An operand whose value `k` waits for. -/
theorem Closed.await (hR : Closed σ R) (hop : RelatesOperands σ R ev) {expr : Value} {e : ScopeId}
    {s : State} (hx : expr.Valid) (hs : s.Ready σ) {g : Value → Action Value} {k : Kont}
    (hg : ∀ v s', v.Valid → s'.Ready σ → R (g v) s' (resume k v [] s')) :
    R (ev e expr >>= g) s { focus := .operand expr e, konts := [k], state := s } := by
  have hm : Machine.Valid { focus := .operand expr e, konts := [], state := s } :=
    ⟨hx, nofun, hs.valid⟩
  exact hR.bind hm hs.setup (hop hx hs) fun v s' hv hs' => hR.step rfl (hg v s' hv hs')

/-- Arguments are evaluated from left to right by both, and then the function is called. -/
theorem arguments_related (hR : Closed σ R) (hop : RelatesOperands σ R ev)
    (hcall : RelatesCalls σ R ap) {f : Value} (hf : f.Valid) (name : Text) {done ahead : List Value}
    (hd : ValidAll done) (ha : ValidAll ahead) (e : ScopeId) {s : State} (hs : s.Ready σ) :
    R (ahead.mapM (ev e) >>= fun args => ap name f (done.reverse ++ args)) s
      (arguments f name done ahead e [] s) := by
  -- what is done already is the front of the argument list
  induction ahead generalizing done s with
  | nil =>
    rw [List.mapM_nil, pure_bind, List.append_nil]
    exact hcall hf (validAll_reverse hd) hs
  | cons a ahead ih =>
    obtain ⟨ha, hahead⟩ := validAll_cons.1 ha
    rw [List.mapM_cons, bind_assoc]
    refine hR.await hop ha hs fun v s' hv hs' => ?_
    have h := ih (validAll_cons.2 ⟨hv, hd⟩) hahead hs'
    simp only [List.reverse_cons, List.append_assoc, List.singleton_append] at h
    simp only [bind_assoc, pure_bind]
    exact h

/-- A result is handed on by both. -/
theorem settle_related (hR : Closed σ R) (r : Except Fault Value) (s : State) :
    R (MonadExcept.ofExcept r) s (settle r [] s) := by
  cases r with
  | ok v => exact hR.value v s
  | error fault => exact hR.failure { fault } [] s

theorem malformed_related (hR : Closed σ R) (site : FormSite) (problem : FormProblem) (s : State) :
    R (Recursive.malformed site problem) s (Machine.malformed site problem [] s) :=
  hR.failure { fault := .malformed site.name site.source problem } [] s

/-- Bindings are made one after the other by both, and then the body is evaluated. -/
theorem bindings_related (hR : Closed σ R) (hev : RelatesExpressions σ R ev)
    (hop : RelatesOperands σ R ev) (site : FormSite) {items : List Value} (hi : ValidAll items)
    {body : Value} (hb : body.Valid) (e : ScopeId) {s : State} (hs : s.Ready σ) :
    R (Recursive.bindings ev site e items >>= fun _ => ev e body) s
      (Machine.bindings site items body e [] s) := by
  fun_induction Recursive.bindings ev site e items generalizing s with
  | case1 =>
    rw [pure_bind]
    exact hev hb hs
  | case2 v => exact malformed_related hR site _ s
  | case3 v expr ahead name hname ih =>
    rw [validAll_cons, validAll_cons] at hi
    simp only [Machine.bindings, hname, bind_assoc]
    refine hR.await hop hi.2.1 hs fun w s' hw hs' => ?_
    refine hR.turn (fun base d t ht => ⟨t.bind e name w, ht.bind e name w, ?_⟩)
      (ih hi.2.2 (hs'.bind hw e name))
    rfl
  | case4 v expr ahead hname =>
    simp only [Machine.bindings, hname]
    exact malformed_related hR site _ s

/-- The last expression of a sequence stands for the sequence in both. -/
theorem sequence_related (hR : Closed σ R) (hev : RelatesExpressions σ R ev)
    (hop : RelatesOperands σ R ev) {exprs : List Value} (hx : ValidAll exprs) (e : ScopeId)
    {s : State} (hs : s.Ready σ) :
    R (Recursive.sequence ev e exprs) s (Machine.sequence exprs e [] s) := by
  fun_induction Recursive.sequence ev e exprs generalizing s with
  | case1 => exact hR.value .nil s
  | case2 expr => exact hev (validAll_cons.1 hx).1 hs
  | case3 expr ahead hne ih =>
    obtain ⟨hx, hahead⟩ := validAll_cons.1 hx
    rw [Machine.sequence]
    · exact hR.await hop hx hs fun _ s' _ hs' => ih hahead hs'
    · exact hne

/-- Both take the same parameters, or complain about the same one. -/
theorem parameters_eq (site : FormSite) (items : List Value) :
    Recursive.parameters site items =
      match Machine.parameters items with
      | .ok formals => pure formals
      | .error v => Recursive.malformed site (.notSymbol v) := by
  induction items with
  | nil => rfl
  | cons v items ih =>
    rw [Recursive.parameters] at ih ⊢
    rw [List.mapM_cons, ih, Machine.parameters]
    cases v.symbolName? with
    | none => rfl
    | some name =>
      cases Machine.parameters items with
      | ok formals => rfl
      | error v => rfl

/-- Both kinds of `let` make one scope for all of their bindings. -/
theorem let_related (hR : Closed σ R) (hev : RelatesExpressions σ R ev)
    (hop : RelatesOperands σ R ev) (site : FormSite) {items : List Value} (hi : ValidAll items)
    {body : Value} (hb : body.Valid) (e : ScopeId) {s : State} (hs : s.Ready σ) :
    R (do
        let child ← modifyGet (·.newScope e)
        Recursive.bindings ev site child items
        ev child body) s
      (Machine.bindings site items body (s.newScope e).1 [] (s.newScope e).2) := by
  refine hR.turn (fun base d t ht => ?_)
    (bindings_related hR hev hop site hi hb (s.newScope e).1 (hs.newScope e))
  obtain ⟨hchild, ht'⟩ := ht.newScope e
  exact ⟨_, ht', hchild ▸ rfl⟩

/-- The special forms are related, if expressions and operands are. -/
theorem special_related (hR : Closed σ R) (hev : RelatesExpressions σ R ev)
    (hop : RelatesOperands σ R ev) (form : SpecialForm) (site : FormSite) {operands : List Value}
    (hx : ValidAll operands) (e : ScopeId) {s : State} (hs : s.Ready σ) :
    R (Recursive.special ev form site operands e) s
      (Machine.special form site operands e [] s) := by
  have hbad (problem : FormProblem) := malformed_related hR site problem s
  cases form with
  | define =>
    rcases operands with - | ⟨v, - | ⟨expr, - | ⟨w, rest⟩⟩⟩
    · exact hbad _
    · exact hbad _
    · simp only [Recursive.special, Machine.special]
      cases v.symbolName? with
      | none => exact hbad _
      | some name =>
        refine hR.await hop (hx expr (by simp)) hs fun w s' _ _ => ?_
        exact hR.turn (fun base d t ht => ⟨_, ht.bind e name w, rfl⟩) (hR.value w _)
    · exact hbad _
  | letSeq | letRec =>
    rcases operands with - | ⟨v, - | ⟨body, - | ⟨w, rest⟩⟩⟩
    · exact hbad _
    · cases v <;> exact hbad _
    · cases v with
      | list source items =>
        rw [validAll_cons, validAll_cons, Value.valid_list] at hx
        simp only [Recursive.special, Machine.special]
        split
        · exact let_related hR hev hop site hx.1 hx.2.1 e hs
        · exact hbad _
      | _ => exact hbad _
    · cases v <;> exact hbad _
  | sequence => exact sequence_related hR hev hop hx e hs
  | branch =>
    rcases operands with - | ⟨condition, - | ⟨yes, - | ⟨no, - | ⟨w, rest⟩⟩⟩⟩
    · exact hbad _
    · exact hbad _
    · refine hR.await hop (hx condition (by simp)) hs fun v s' _ hs' => ?_
      simp only [resume]
      split
      · exact hev (hx yes (by simp)) hs'
      · exact hR.value .nil s'
    · refine hR.await hop (hx condition (by simp)) hs fun v s' _ hs' => ?_
      simp only [resume]
      split
      · exact hev (hx yes (by simp)) hs'
      · exact hev (hx no (by simp)) hs'
    · exact hbad _
  | function =>
    rcases operands with - | ⟨v, - | ⟨body, - | ⟨w, rest⟩⟩⟩
    · exact hbad _
    · cases v <;> exact hbad _
    · cases v with
      | list source items =>
        simp only [Recursive.special, Machine.special, parameters_eq]
        cases Machine.parameters items with
        | error v => exact hbad _
        | ok formals =>
          rw [pure_bind]
          refine hR.turn (fun base d t ht => ?_) (hR.value (s.newClosure formals body e).1 _)
          obtain ⟨hv, ht'⟩ := ht.newClosure formals body e
          exact ⟨_, ht', hv ▸ rfl⟩
      | _ => exact hbad _
    · cases v <;> exact hbad _
  | evaluate =>
    rcases operands with - | ⟨expr, - | ⟨w, rest⟩⟩
    · exact hbad _
    · refine hR.await hop (hx expr (by simp)) hs fun v s' hv hs' => ?_
      -- the computed expression is evaluated in the root scope, which both states share
      refine hR.turn (fun base d t ht => ⟨t, ht, ?_⟩) (hev hv hs')
      rw [← ht.scopes_eq]
      rfl
    · exact hbad _

/-- **The relation holds of an expression if it holds of the parts.** -/
theorem expression_related (hR : Closed σ R) (hev : RelatesExpressions σ R ev)
    (hop : RelatesOperands σ R ev) (hcall : RelatesCalls σ R ap) {expr : Value} (hx : expr.Valid)
    (e : ScopeId) {s : State} (hs : s.Ready σ) :
    R (Recursive.expression ev ap e expr) s (Machine.expression expr e [] s) := by
  cases expr with
  | scalar source content =>
    cases content with
    | symbol name =>
      refine hR.turn (fun base d t ht => ⟨t, ht, ?_⟩) (settle_related hR (s.lookup e name) s)
      rw [← ht.lookup_eq]
      rfl
    | _ => exact hR.value _ s
  | list source items =>
    cases items with
    | nil => exact hR.failure { fault := .emptyCall source } [] s
    | cons head operands =>
      rw [Value.valid_list, validAll_cons] at hx
      simp only [Recursive.expression, Machine.expression]
      cases SpecialForm.ofHead? head with
      | some form => exact special_related hR hev hop form _ hx.2 e hs
      | none =>
        refine hR.await hop hx.1 hs fun f s' hf hs' => ?_
        exact arguments_related hR hop hcall hf _ validAll_nil hx.2 e hs'
  | invalid => cases hx
  | closure identity formals body e' => exact hR.value _ s
  | builtin b => exact hR.value _ s
  | atom c => exact hR.value _ s

theorem State.Ready.withStack {s : State} (hs : s.Ready σ) {stack : CallStack}
    (h : stack.limit = s.stack.limit) : State.Ready σ { s with stack } :=
  ⟨hs.valid.of_eq rfl rfl rfl, (s.setup_withStack h).trans hs.setup⟩

theorem State.Ready.callScope {s : State} (hs : s.Ready σ) (formals : List Text) (e : ScopeId)
    {args : List Value} (ha : ValidAll args) : (callScope formals e args s).2.Ready σ :=
  ⟨callScope_valid hs.valid formals e ha, (quiet_callScope s formals e args).2.trans hs.setup⟩

/-- There is always room for another frame. -/
theorem State.Ready.push {s : State} (hs : s.Ready σ) (hσ : σ.limit = 0) (name : Text)
    (builtin : Bool) :
    ∃ stack, s.stack.push name builtin = some stack ∧ State.Ready σ { s with stack } := by
  have hlimit : s.stack.limit = 0 := (congrArg Setup.limit hs.setup).trans hσ
  obtain ⟨stack, hpush⟩ : ∃ stack, s.stack.push name builtin = some stack := by
    simp [CallStack.push, CallStack.isFull, hlimit]
  exact ⟨stack, hpush, hs.withStack (CallStack.push_eq_some hpush).2.1⟩

/-- Without a limit, a frame can always be entered. -/
theorem enter_related (hR : Closed σ R) (hσ : σ.limit = 0) {x : Action Value} (name : Text)
    {expr : Value} (hx : expr.Valid) (e : ScopeId) {s : State} (hs : s.Ready σ)
    (h : ∀ s', s'.Ready σ → R x s' { focus := .expression expr e, konts := [], state := s' }) :
    R x s (enter name expr e [] s) := by
  obtain ⟨stack, hpush, hs'⟩ := hs.push hσ name false
  simp only [enter, hpush]
  refine hR.turn (fun base d t ht => ⟨t, ht.withStack stack, rfl⟩) ?_
  exact hR.leave (m := { focus := .expression expr e, konts := [], state := { s with stack } })
    ⟨hx, nofun, hs'.valid⟩ hs'.setup (h _ hs')

theorem report_ready {s : State} (hs : s.Ready σ) :
    (Machine.settle s.report.1 [] s.report.2).Valid ∧
      (Machine.settle s.report.1 [] s.report.2).state.setup = σ := by
  have hvalid : s.report.2.Valid := hs.valid.printStack
  have hsetup : s.report.2.setup = σ := (State.quiet_printStack s).2.trans hs.setup
  have hr : s.report.1 = .ok .nil ∨ s.report.1 = .error (.plain Sink.failure) := by
    unfold State.report
    split
    · exact .inl rfl
    · exact .inr rfl
  rcases hr with hr | hr
  · rw [hr]
    exact ⟨⟨Value.valid_nil, nofun, hvalid⟩, hsetup⟩
  · rw [hr]
    exact ⟨⟨trivial, nofun, hvalid⟩, hsetup⟩

/-- `swap!` applies its function to the contents of the cell and stores the result. -/
theorem update_related (hR : Closed σ R) (hap : RelatesApplications σ R ap) (c : CellId) {f : Value}
    (hf : f.Valid) {s : State} (hs : s.Ready σ) :
    R (Recursive.settle ap (.update c f)) s
      { focus := .application f [s.contents c], konts := [.update c, .leave], state := s } := by
  have hargs : ValidAll [s.contents c] := validAll_cons.2 ⟨hs.valid.contents c, validAll_nil⟩
  have hm : Machine.Valid { focus := .application f [s.contents c], konts := [], state := s } :=
    ⟨⟨hf, hargs⟩, nofun, hs.valid⟩
  have hstore (w : Value) (s' : State) (hw : w.Valid) (hs' : s'.Ready σ) :
      R (do modify (·.store c w); pure (.atom c)) s'
        { focus := .value w, konts := [.update c, .leave], state := s' } := by
    have hdone := value_related hR (.atom c) ⟨hs'.valid.store hw c, hs'.setup⟩
    exact hR.step rfl (hR.turn (fun base d t ht => ⟨_, ht.store c w, rfl⟩) hdone)
  refine hR.turn (fun base d t ht => ⟨t, ht, ?_⟩) (hR.bind hm hs.setup (hap hf hargs hs) hstore)
  rw [← ht.contents_eq]
  rfl

/-- Built-in functions are related, if applications are. -/
theorem builtin_related (hR : Closed σ R) (hσ : σ.limit = 0) (hap : RelatesApplications σ R ap)
    (b : Builtin) {args : List Value} (ha : ValidAll args) {s : State} (hs : s.Ready σ) :
    R (do Recursive.settle ap (← modifyGet (b.run args))) s (callBuiltin b args [] s) := by
  obtain ⟨stack, hpush, hs'⟩ := hs.push hσ b.name true
  rcases b.run_sees args with hreport | hsame
  · -- `debug-stack` depends on the call stack and is taken as a whole
    have hm : callBuiltin b args [] s = (Machine.settle (State.report { s with stack }).1 []
        (State.report { s with stack }).2).atop [.leave] := by
      simp only [callBuiltin, hpush, hreport _]
      cases (State.report { s with stack }).1 <;> rfl
    have hsettle := report_ready hs'
    rw [hm]
    refine hR.turn (fun base d t ht => ⟨t, ht.withStack stack, ?_⟩)
      (hR.leave hsettle.1 hsettle.2 (hR.report hs'.setup))
    show (Recursive.settle ap (b.run args t).1).run.run (b.run args t).2 = _
    rw [hreport]
    show _ = (MonadExcept.ofExcept t.report.1 : Action Value).run.run t.report.2
    cases t.report.1 <;> rfl
  · -- any other function answers alike on both sides
    have hvalid := b.run_valid ha hs'.valid
    have hsetup := (b.quiet_run args { s with stack }).2.trans hs'.setup
    have hturn : Turns s (b.run args { s with stack }).2
        (do Recursive.settle ap (← modifyGet (b.run args)))
        (Recursive.settle ap (b.run args { s with stack }).1) := by
      intro base d t ht
      obtain ⟨hreply, ht'⟩ := hsame (ht.withStack stack)
      exact ⟨_, ht', hreply ▸ rfl⟩
    refine hR.turn hturn ?_
    simp only [callBuiltin, hpush]
    generalize b.run args { s with stack } = answer at hvalid hsetup ⊢
    obtain ⟨reply, s'⟩ := answer
    cases reply with
    | value v => exact value_related hR hvalid.1 ⟨hvalid.2, hsetup⟩
    | fault fault => exact hR.failure { fault } [.leave] s'
    | update c f => exact update_related hR hap c hvalid.1 ⟨hvalid.2, hsetup⟩

/-- A closure checks the number of its arguments, binds them and goes on with its body. -/
theorem run_closure (name : Text) (identity : Nat) (formals : List Text) (body : Value)
    (e : ScopeId) (args : List Value) (t : State) :
    (application ev ap name (.closure identity formals body e) args).run.run t =
      match arityFault? t.lenient name formals args with
      | some fault => some (.error fault, t)
      | none =>
        (ev (callScope formals e args t).1 body).run.run (callScope formals e args t).2 := by
  unfold arityFault?
  show (ite _ _ _ : Action Value).run.run t = _
  split <;> rfl

/-- An operand is evaluated as an expression, a list in a frame of its own. -/
theorem operand_related (hR : Closed σ R) (hσ : σ.limit = 0) (hev : RelatesExpressions σ R ev)
    (hexpr : ∀ {e expr s}, expr.Valid → s.Ready σ →
      R (ev e expr) s (Machine.expression expr e [] s))
    {expr : Value} (hx : expr.Valid) (e : ScopeId) {s : State} (hs : s.Ready σ) :
    R (ev e expr) s (Machine.operand expr e [] s) := by
  cases expr with
  | list source items => exact enter_related hR hσ [] hx e hs fun s' hs' => hev hx hs'
  | invalid => cases hx
  | scalar source content =>
    have h := hexpr (e := e) hx hs
    cases content <;> exact h
  | closure identity formals body e' => exact hexpr (e := e) hx hs
  | builtin b => exact hexpr (e := e) hx hs
  | atom c => exact hexpr (e := e) hx hs

/-- **The relation holds of a call if it holds of the body.** -/
theorem call_related (hR : Closed σ R) (hσ : σ.limit = 0) (hev : RelatesExpressions σ R ev)
    (hap : RelatesApplications σ R ap) {f : Value} (hf : f.Valid) (name : Text) {args : List Value}
    (ha : ValidAll args) {s : State} (hs : s.Ready σ) :
    R (Recursive.application ev ap name f args) s (call f name args [] s) := by
  cases f with
  | closure identity formals body e =>
    simp only [call]
    split
    · rename_i fault hfault
      refine hR.turn (fun base d t ht => ⟨t, ht, ?_⟩) (hR.failure { fault } [] s)
      rw [run_closure, ht.lenient_eq, hfault]
      rfl
    · rename_i hfault
      refine hR.turn (fun base d t ht => ?_) (hev (Value.valid_closure.1 hf)
        ((hs.callScope formals e ha).withStack CallStack.tailCall_limit))
      obtain ⟨hchild, ht'⟩ := ht.callScope formals e args
      refine ⟨_, ht'.withStack _, ?_⟩
      rw [run_closure, ht.lenient_eq, hfault, hchild]
  | builtin b => exact builtin_related hR hσ hap b ha hs
  | _ => exact hR.failure { fault := .notCallable _ } [] s

/-- **The relation holds of an application if it holds of the body.** -/
theorem apply_related (hR : Closed σ R) (hσ : σ.limit = 0) (hev : RelatesExpressions σ R ev)
    (hap : RelatesApplications σ R ap) {f : Value} (hf : f.Valid) {args : List Value}
    (ha : ValidAll args) {s : State} (hs : s.Ready σ) :
    R (Recursive.application ev ap anonymous f args) s (Machine.apply f args [] s) := by
  cases f with
  | closure identity formals body e =>
    simp only [Machine.apply]
    split
    · rename_i fault hfault
      refine hR.turn (fun base d t ht => ⟨t, ht, ?_⟩)
        (hR.failure { fault, trace := some s.stack } [] s)
      rw [run_closure, ht.lenient_eq, hfault]
      rfl
    · rename_i hfault
      have hb := Value.valid_closure.1 hf
      refine hR.turn (fun base d t ht => ?_)
        (enter_related hR hσ anonymous hb _ (hs.callScope formals e ha) fun s' hs' => hev hb hs')
      obtain ⟨hchild, ht'⟩ := ht.callScope formals e args
      refine ⟨_, ht', ?_⟩
      rw [run_closure, ht.lenient_eq, hfault, hchild]
  | builtin b => exact builtin_related hR hσ hap b ha hs
  | _ => exact hR.failure { fault := .notCallable _, trace := some s.stack } [] s

end Layers

end TinyLisp
