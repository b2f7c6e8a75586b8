import TinyLisp.Proofs.Overflow

/-!
# The limit of the call stack is transparent

No evaluation can tell how high its call stack may get, except by an overflow. Two machines that
differ in the limit alone take the same steps until one of them meets its limit:

* `step_withLimit`: a step under a looser limit is the same step, unless it overflows.
* `run_withLimit`: an evaluation that does not overflow is the same under a looser limit.
* `limit_transparent`: what that means for values, failures and effects.
-/

namespace TinyLisp

/-! ## Changing the limit -/

/-- The same state under another limit. -/
def State.withLimit (s : State) (limit : Int) : State :=
  { s with stack := s.stack.withLimit limit }

/-- The same failure with its trace under another limit. -/
def Failure.withLimit (f : Failure) (limit : Int) : Failure :=
  { f with trace := f.trace.map (·.withLimit limit) }

/-- The same focus under another limit. -/
def Focus.withLimit (focus : Focus) (limit : Int) : Focus :=
  match focus with
  | .failure f => .failure (f.withLimit limit)
  | focus => focus

/-- The same machine under another limit. -/
def Machine.withLimit (m : Machine) (limit : Int) : Machine :=
  { m with focus := m.focus.withLimit limit, state := m.state.withLimit limit }

/-- The same outcome under another limit. -/
def Outcome.withLimit (o : Outcome) (limit : Int) : Outcome :=
  { result := o.result.mapError (·.withLimit limit), state := o.state.withLimit limit }

/-- The limit `limit'` allows whatever `limit` allows. -/
def Looser (limit limit' : Int) : Prop := limit' ≤ 0 ∨ 0 < limit ∧ limit ≤ limit'

variable {s t : State} {l : Int}

/-- What can be pushed under a limit can be pushed under a looser one. -/
theorem CallStack.push_withLimit {stack stack' : CallStack} {name : Text} {builtin : Bool}
    (hl : Looser stack.limit l) (h : stack.push name builtin = some stack') :
    (stack.withLimit l).push name builtin = some (stack'.withLimit l) := by
  have hfull := (push_eq_some h).2.2
  -- what has room under the tighter limit has room under the looser one
  have hfull' : (stack.withLimit l).isFull = false := by
    rw [Bool.eq_false_iff] at hfull ⊢
    intro h'
    obtain ⟨hpos, hle⟩ : 0 < l ∧ l ≤ stack.height := isFull_eq_true_iff.1 h'
    refine hfull (isFull_eq_true_iff.2 ?_)
    rcases hl with hl | ⟨hpos', hl⟩
    · omega
    · exact ⟨hpos', Int.le_trans hl hle⟩
  simp only [push, hfull, Bool.false_eq_true, if_false, Option.some.injEq] at h
  simp only [push, hfull', Bool.false_eq_true, if_false]
  exact congrArg (fun stack => some (stack.withLimit l)) h

/-- A tail call never meets the limit. -/
theorem CallStack.tailCall_withLimit (stack : CallStack) (name : Text) :
    (stack.withLimit l).tailCall name = (stack.tailCall name).withLimit l := by
  obtain ⟨frames, limit, height, hh⟩ := stack
  cases frames <;> rfl

namespace State

theorem debug_withLimit (s : State) (message : Text) (fields : List (Text × Log.Field)) :
    (s.withLimit l).debug message fields = (s.debug message fields).withLimit l := by
  simp only [debug, logRecord]
  have : (s.withLimit l).log = s.log := rfl
  rw [this]
  split <;> rfl

theorem bindAll_withLimit (s : State) (e : ScopeId) (names : List Text) (vs : List Value) :
    (s.withLimit l).bindAll e names vs = (s.bindAll e names vs).withLimit l := by
  induction names generalizing s vs with
  | nil => rfl
  | cons name names ih =>
    cases vs with
    | nil => rfl
    | cons v vs => exact ih (s.bind e name v) vs

/-- Printing does not look at the call stack. -/
theorem print_withLimit (s : State) (text : Text) :
    (s.withLimit l).print? text = (s.print? text).map (·.withLimit l) := by
  have : (s.withLimit l).stdout = s.stdout := rfl
  simp only [print?, this]
  split <;> rfl

/-- The printed call stack does not show its limit. -/
theorem printStack_withLimit (s : State) :
    (s.withLimit l).printStack = (s.printStack.1, s.printStack.2.withLimit l) := by
  rw [printStack_eq, printStack_eq]
  rfl

theorem slurpFile_withLimit (s : State) (name path : Text) :
    Primitive.slurpFile name path (s.withLimit l) =
      ((Primitive.slurpFile name path s).1, (Primitive.slurpFile name path s).2.withLimit l) := by
  have hnote : (s.withLimit l).note (.opened path) = (s.note (.opened path)).withLimit l := rfl
  have hfiles : ((s.note (.opened path)).withLimit l).files = (s.note (.opened path)).files := rfl
  simp only [Primitive.slurpFile, hnote, hfiles, debug_withLimit]
  split <;> rfl

end State

/-! ## Built-in functions -/

open State Machine

/-- No function of the language can tell the limit. -/
theorem Primitive.run_withLimit (p : Primitive) (name : Text) (args : List Value) (s : State) :
    p.run name args (s.withLimit l) =
      ((p.run name args s).1, (p.run name args s).2.withLimit l) := by
  unfold Primitive.run
  split <;> try rfl
  · split
    · exact slurpFile_withLimit s name _
    · rfl
  · split <;> rfl
  · split <;> rfl
  · split <;> rfl
  · split
    · split <;> rfl
    · rfl
  · rename_i a
    have hprinted : (s.withLimit l).printed a = s.printed a := rfl
    rw [hprinted, print_withLimit]
    cases s.print? (s.printed a ++ [10]) <;> rfl
  · rw [printStack_withLimit]
  · split <;> rfl

/-- No built-in function can tell the limit. -/
theorem Builtin.run_withLimit (b : Builtin) (args : List Value) (s : State) :
    b.run args (s.withLimit l) = ((b.run args s).1, (b.run args s).2.withLimit l) := by
  have h : b.runRoutine args (s.withLimit l) =
      ((b.runRoutine args s).1, (b.runRoutine args s).2.withLimit l) := by
    have hhosts : (s.withLimit l).hosts = s.hosts := rfl
    simp only [Builtin.runRoutine, hhosts, Primitive.run_withLimit]
    split
    · rfl
    · split <;> rfl
  simp only [Builtin.run, h]
  split
  · rfl
  · split <;> rfl

/-! ## Steps -/

namespace Machine

variable {m m' : Machine} {ks : List Kont} {o : Outcome}

/-- The second machine is the first under the limit `l`, or the first overflows. -/
def SameUnder (l : Int) (m m' : Machine) : Prop :=
  m' = m.withLimit l ∨ ∃ f, m.focus = .failure f ∧ f.fault.isOverflow = true

theorem settle_withLimit (e : ScopeId) (name : Text) :
    settle ((s.withLimit l).lookup e name) ks (s.withLimit l) =
      (settle (s.lookup e name) ks s).withLimit l := by
  have hlookup : (s.withLimit l).lookup e name = s.lookup e name := rfl
  rw [hlookup]
  cases s.lookup e name <;> rfl

theorem callScope_withLimit (formals : List Text) (e : ScopeId) (args : List Value) :
    callScope formals e args (s.withLimit l) =
      ((callScope formals e args s).1, (callScope formals e args s).2.withLimit l) :=
  congrArg (Prod.mk _) (bindAll_withLimit (s.newScope e).2 _ formals args)

/-- Entering a frame is the same under a looser limit, unless it overflows. -/
theorem enter_withLimit (hl : Looser s.stack.limit l) (name : Text) (expr : Value) (e : ScopeId) :
    SameUnder l (enter name expr e ks s) (enter name expr e ks (s.withLimit l)) := by
  cases hpush : s.stack.push name false with
  | none =>
    right
    simp only [enter, hpush]
    exact ⟨_, rfl, rfl⟩
  | some stack =>
    left
    have hpush' : (s.withLimit l).stack.push name false = some (stack.withLimit l) :=
      CallStack.push_withLimit hl hpush
    simp only [enter, hpush, hpush']
    rfl

/-- Calling a built-in function is the same under a looser limit, unless it overflows. -/
theorem callBuiltin_withLimit (hl : Looser s.stack.limit l) (b : Builtin) (args : List Value) :
    SameUnder l (callBuiltin b args ks s) (callBuiltin b args ks (s.withLimit l)) := by
  cases hpush : s.stack.push b.name true with
  | none =>
    right
    simp only [callBuiltin, hpush]
    exact ⟨_, rfl, rfl⟩
  | some stack =>
    left
    have hpush' : (s.withLimit l).stack.push b.name true = some (stack.withLimit l) :=
      CallStack.push_withLimit hl hpush
    have hrun := Builtin.run_withLimit (l := l) b args { s with stack }
    have hstate : { s.withLimit l with stack := stack.withLimit l } =
        State.withLimit { s with stack } l := rfl
    simp only [callBuiltin, hpush, hpush', hstate, hrun]
    rcases b.run args { s with stack } with ⟨reply, t⟩
    cases reply <;> rfl

/-- Calling a function in tail position is the same under a looser limit, unless it overflows. -/
theorem call_withLimit (hl : Looser s.stack.limit l) (f : Value) (name : Text) (args : List Value) :
    SameUnder l (call f name args ks s) (call f name args ks (s.withLimit l)) := by
  cases f with
  | closure identity formals body e =>
    left
    -- a closure takes over the frame at hand, so there is no push that could fail
    have hlenient : (s.withLimit l).lenient = s.lenient := rfl
    simp only [call, hlenient, callScope_withLimit]
    split
    · rfl
    · simp only [Machine.withLimit, State.withLimit, CallStack.tailCall_withLimit]
      rfl
  | builtin b => exact callBuiltin_withLimit hl b args
  | _ => exact .inl rfl

/-- Applying a function is the same under a looser limit, unless it overflows. -/
theorem apply_withLimit (hl : Looser s.stack.limit l) (f : Value) (args : List Value) :
    SameUnder l (apply f args ks s) (apply f args ks (s.withLimit l)) := by
  cases f with
  | closure identity formals body e =>
    have hlenient : (s.withLimit l).lenient = s.lenient := rfl
    simp only [apply, hlenient, callScope_withLimit]
    split
    · exact .inl rfl
    · have hstack := (quiet_callScope s formals e args).1
      exact enter_withLimit (hstack ▸ hl) _ _ _
  | builtin b => exact callBuiltin_withLimit hl b args
  | _ => exact .inl rfl

theorem arguments_withLimit (hl : Looser s.stack.limit l) (f : Value) (name : Text)
    (done ahead : List Value) (e : ScopeId) :
    SameUnder l (arguments f name done ahead e ks s)
      (arguments f name done ahead e ks (s.withLimit l)) := by
  cases ahead with
  | nil => exact call_withLimit hl f name done.reverse
  | cons a ahead => exact .inl rfl

/-- Going through bindings pushes no frame, so any limit will do. -/
theorem bindings_withLimit (site : FormSite) (ahead : List Value) (body : Value) (e : ScopeId) :
    bindings site ahead body e ks (s.withLimit l) =
      (bindings site ahead body e ks s).withLimit l := by
  unfold bindings
  split
  · rfl
  · rfl
  · split <;> rfl

theorem sequence_withLimit (exprs : List Value) (e : ScopeId) :
    sequence exprs e ks (s.withLimit l) = (sequence exprs e ks s).withLimit l := by
  unfold sequence
  split <;> rfl

/-- Special forms push no frame, so any limit will do. -/
theorem special_withLimit (form : SpecialForm) (site : FormSite) (operands : List Value)
    (e : ScopeId) :
    special form site operands e ks (s.withLimit l) =
      (special form site operands e ks s).withLimit l := by
  unfold special
  split <;> try rfl
  · split <;> rfl
  · split
    · exact bindings_withLimit (s := (s.newScope e).2) site _ _ _
    · rfl
  · split
    · exact bindings_withLimit (s := (s.newScope e).2) site _ _ _
    · rfl
  · exact sequence_withLimit operands e
  · split <;> rfl

/-- Expressions in tail position push no frame, so any limit will do. -/
theorem expression_withLimit (expr : Value) (e : ScopeId) :
    expression expr e ks (s.withLimit l) = (expression expr e ks s).withLimit l := by
  unfold expression
  split
  · exact settle_withLimit e _
  · rfl
  · split
    · exact special_withLimit _ _ _ e
    · rfl
  · rfl
  · rfl

/-- Evaluating an operand is the same under a looser limit, unless it overflows. -/
theorem operand_withLimit (hl : Looser s.stack.limit l) (expr : Value) (e : ScopeId) :
    SameUnder l (operand expr e ks s) (operand expr e ks (s.withLimit l)) := by
  unfold operand
  split
  · exact .inl (settle_withLimit e _)
  · exact enter_withLimit hl _ _ e
  · exact .inl rfl

/-- Going on with a value is the same under a looser limit, unless it overflows. -/
theorem resume_withLimit (hl : Looser s.stack.limit l) (k : Kont) (v : Value) :
    SameUnder l (resume k v ks s) (resume k v ks (s.withLimit l)) := by
  cases k with
  | leave => exact .inl rfl
  | callee head args e => exact arguments_withLimit hl _ _ _ _ _
  | argument f name done ahead e => exact arguments_withLimit hl _ _ _ _ _
  | define name e => exact .inl rfl
  | binding site name ahead body e =>
    exact .inl (bindings_withLimit (s := s.bind e name v) site ahead body e)
  | sequence ahead e => exact .inl (sequence_withLimit ahead e)
  | branch yes no e =>
    left
    simp only [resume]
    split
    · rfl
    · cases no <;> rfl
  | evaluate e => exact .inl rfl
  | update c => exact .inl rfl

/-- Frames that a failure leaves are left under any limit. -/
theorem unwind_withLimit (k : Kont) (f : Failure) :
    unwind k (f.withLimit l) ks (s.withLimit l) = (unwind k f ks s).withLimit l := by
  cases k with
  | leave =>
    obtain ⟨fault, trace⟩ := f
    cases trace <;> rfl
  | _ => rfl

/-- **A step under a looser limit is the same step, unless it overflows.** -/
theorem step_withLimit (hl : Looser m.state.stack.limit l) (h : m.step = .next m') :
    (m.withLimit l).step = .next (m'.withLimit l) ∨
      ∃ f, m'.focus = .failure f ∧ f.fault.isOverflow = true := by
  -- the focus decides which function makes the step under both limits
  have key : ∀ m₁, (m.withLimit l).step = .next m₁ → SameUnder l m' m₁ →
      (m.withLimit l).step = .next (m'.withLimit l) ∨
        ∃ f, m'.focus = .failure f ∧ f.fault.isOverflow = true := by
    rintro m₁ h₁ (rfl | hf)
    · exact .inl h₁
    · exact .inr hf
  obtain ⟨focus, ks, s⟩ := m
  cases focus with
  | expression expr e =>
    obtain rfl := Step.next.inj h
    exact .inl (congrArg Step.next (expression_withLimit expr e))
  | operand expr e =>
    obtain rfl := Step.next.inj h
    exact key _ rfl (operand_withLimit hl expr e)
  | application f args =>
    obtain rfl := Step.next.inj h
    exact key _ rfl (apply_withLimit hl f args)
  | value v =>
    cases ks with
    | nil => cases h
    | cons k ks =>
      obtain rfl := Step.next.inj h
      exact key _ rfl (resume_withLimit hl k v)
  | failure f =>
    cases ks with
    | nil => cases h
    | cons k ks =>
      obtain rfl := Step.next.inj h
      exact .inl (congrArg Step.next (unwind_withLimit k f))

theorem above_withLimit (o : Outcome) : (o.above []).withLimit l = (o.withLimit l).above [] := by
  obtain ⟨r, s⟩ := o
  cases r <;> rfl

/-- **An evaluation that does not overflow is the same under a looser limit.** -/
theorem run_withLimit {base : CallStack} (hl : Looser base.limit l) {n : Nat}
    (hm : Balanced base m) (h : run n m = some o) (ho : ¬o.overflows) :
    run n (m.withLimit l) = some (o.withLimit l) := by
  induction n generalizing m with
  | zero => simp [run] at h
  | succ n ih =>
    cases hs : m.step with
    | done o' =>
      obtain rfl := Option.some.inj ((run_succ_done hs n).symm.trans h)
      rw [step_done hs, above_withLimit]
      exact run_succ_done (step_above_nil _) n
    | next m' =>
      rw [run_succ_next hs] at h
      rcases step_withLimit (hm.limit ▸ hl) hs with hs' | ⟨f, hf, hover⟩
      · rw [run_succ_next hs']
        exact ih (balanced_step hm hs) h
      · -- an overflow on the way would have been the outcome
        exact absurd (overflows_of_focus hf hover ⟨n, h⟩) ho

end Machine

theorem Outcome.reported_withLimit (o : Outcome) :
    (o.withLimit l).reported = o.reported.withLimit l := by
  obtain ⟨r, t⟩ := o
  cases r with
  | ok v => rfl
  | error f =>
    have h := debug_withLimit (l := l) t "evaluation failed"
      [("condition", .text f.fault.condition), ("error", .text (t.message f.fault))]
    exact congrArg (Outcome.mk (.error (f.withLimit l))) h

/-- The frames of a failure's trace. -/
def Failure.traceFrames (f : Failure) : Option (List CallFrame) := f.trace.map (·.frames)

/-- What came of an evaluation: the value, or the fault and the frames of its trace. -/
def Outcome.answer (o : Outcome) : Except (Fault × Option (List CallFrame)) Value :=
  o.result.mapError fun f => (f.fault, f.traceFrames)

/-- The limit is no part of an answer. -/
theorem Outcome.answer_withLimit (o : Outcome) : (o.withLimit l).answer = o.answer := by
  obtain ⟨r, t⟩ := o
  cases r with
  | ok v => rfl
  | error f =>
    obtain ⟨fault, trace⟩ := f
    cases trace <;> rfl

/-- Whether an outcome is an overflow does not depend on its log record. -/
theorem Outcome.reported_overflows (o : Outcome) : o.reported.overflows ↔ o.overflows := by
  unfold Outcome.overflows
  rw [o.reported_result]

/-- **The limit is transparent.** An evaluation that does not overflow comes to the same value or
failure under a looser limit, and has the same effects. -/
theorem limit_transparent {limit limit' : Int} (hpos : 0 < limit)
    (hlimit : limit' = 0 ∨ limit ≤ limit') (s : State) (e : ScopeId) (expr : Value) {fuel : Nat}
    {out : Outcome} (h : (s.withLimit limit).eval fuel e expr = some out)
    (hout : ¬out.overflows) :
    ∃ out', (s.withLimit limit').eval fuel e expr = some out' ∧ out'.answer = out.answer ∧
      out'.state.scopes = out.state.scopes ∧ out'.state.cells = out.state.cells ∧
      out'.state.effects = out.state.effects := by
  have hl : Looser limit limit' := hlimit.imp Int.le_of_eq (And.intro hpos)
  rw [State.eval_eq] at h
  obtain ⟨o, hrun, rfl⟩ := Option.map_eq_some_iff.1 h
  rw [o.reported_overflows] at hout
  have hrun' : run fuel (enter [] expr e [] (s.withLimit limit')) = some (o.withLimit limit') := by
    have hsame : SameUnder limit' (enter [] expr e [] (s.withLimit limit))
        (enter [] expr e [] (s.withLimit limit')) :=
      enter_withLimit (s := s.withLimit limit) hl [] expr e
    rcases hsame with hsame | ⟨f, hf, hover⟩
    · rw [hsame]
      exact run_withLimit hl (balanced_enter [] expr e (s.withLimit limit)) hrun hout
    · exact absurd (overflows_of_focus hf hover ⟨fuel, hrun⟩) hout
  refine ⟨o.reported.withLimit limit', ?_, o.reported.answer_withLimit, rfl, rfl, rfl⟩
  rw [State.eval_eq, hrun', Option.map_some, o.reported_withLimit]

/-- A closure that is called under a limit of two comes to the same without a limit. -/
theorem limit_transparent_call : ∃ out,
    (State.withLimit {} 0).eval 20 0
      (.list none [.list none [.symbol "fun*", .list none [], .int 7]]) = some out ∧
      out.answer = .ok (.int 7) := by
  obtain ⟨out, h, hres⟩ : ∃ out, (State.withLimit {} 2).eval 20 0
      (.list none [.list none [.symbol "fun*", .list none [], .int 7]]) = some out ∧
      out.result = .ok (.int 7) := ⟨_, rfl, rfl⟩
  have hout : ¬out.overflows := by
    rintro ⟨f, hf, -⟩
    rw [hres] at hf
    cases hf
  obtain ⟨out', h', hanswer, -⟩ := limit_transparent (by decide) (.inl rfl) {} 0 _ h hout
  refine ⟨out', h', hanswer.trans ?_⟩
  rw [Outcome.answer, hres]
  rfl

end TinyLisp
