import TinyLisp.Proofs.Failures

/-!
# What evaluation writes and logs

Evaluation can be observed in few ways. Built-in functions write, ask for files and log what they
read (`Effect.OfProgram`). Besides, the log tells of a frame for an expression that finds the call
stack full, though not of a frame for a built-in function, and of the failure of an evaluation.

* `Machine.meetsLimit`: whether the next step is to push a frame onto a full stack;
  `Machine.asksBuiltin`: whether that is the frame of a built-in function.
* `Builtin.run_adds`: what a built-in function adds to the effects.
* `step_emits`: what a step adds.
* `adds_of_running`: before something goes wrong, built-in functions alone are observed.
* `eval_adds`: no write of an evaluation is one of the console.
-/

namespace TinyLisp

open Machine

/-! ## Effects -/

/-- The effect is one of a built-in function. -/
inductive Effect.OfProgram : Effect → Prop where
  | wrote (stream : Stream) (text : Text) : OfProgram (.wrote .program stream text)
  | opened (path : Text) : OfProgram (.opened path)
  | read (path : Text) (bytes : Nat) :
      OfProgram (.logged
        { level := .debug, message := "file read"
          fields := [("path", .text path), ("bytes", .number bytes)] })

/-- The effect is a write of the console. -/
def Effect.OfConsole (x : Effect) : Prop := ∃ stream text, x = .wrote .console stream text

/-- What a program writes is not what the console writes. -/
theorem Effect.OfProgram.not_ofConsole {x : Effect} (h : x.OfProgram) : ¬x.OfConsole := by
  rintro ⟨stream, text, rfl⟩
  cases h

/-- What was had on the way from `s` to `t` are further effects, all of them in `P`. -/
def State.Adds (P : Effect → Prop) (s t : State) : Prop :=
  ∃ new, t.effects = new ++ s.effects ∧ ∀ x ∈ new, P x

/-- The state after the log was told that the call stack is full. -/
def State.limitReached (s : State) : State :=
  s.debug "stack limit reached" [("height", .number s.stack.height)]

/-- The failure of a push onto the full call stack. -/
def State.overflowed (s : State) : Failure := { fault := overflow s, trace := some s.stack }

namespace State.Adds

variable {P Q : Effect → Prop} {s t u : State}

theorem of_eq (h : t.effects = s.effects) : s.Adds P t := ⟨[], h, nofun⟩

/-- What is added in turn is added. -/
theorem trans (h : s.Adds P t) (h' : t.Adds P u) : s.Adds P u := by
  obtain ⟨new, hnew, hall⟩ := h
  obtain ⟨new', hnew', hall'⟩ := h'
  refine ⟨new' ++ new, by rw [hnew', hnew, List.append_assoc], fun x hx => ?_⟩
  exact (List.mem_append.1 hx).elim (hall' x) (hall x)

theorem mono (h : s.Adds P t) (hPQ : ∀ x, P x → Q x) : s.Adds Q t := by
  obtain ⟨new, hnew, hall⟩ := h
  exact ⟨new, hnew, fun x hx => hPQ x (hall x hx)⟩

theorem of_left (h : s.Adds P u) (hs : s.effects = t.effects) : t.Adds P u := by
  obtain ⟨new, hnew, hall⟩ := h
  exact ⟨new, hs ▸ hnew, hall⟩

/-- Noting an effect adds it. -/
theorem note {x : Effect} (hx : P x) : s.Adds P (s.note x) :=
  ⟨[x], rfl, fun _ hy => (List.mem_singleton.1 hy) ▸ hx⟩

end State.Adds

/-- A record of the log is all that is added by logging it. -/
theorem State.adds_debug {P : Effect → Prop} (s : State) (message : Text)
    (fields : List (Text × Log.Field)) (h : P (.logged { level := .debug, message, fields })) :
    s.Adds P (s.debug message fields) := by
  unfold debug logRecord
  split
  · exact .note h
  · exact .of_eq rfl

/-! ## Built-in functions -/

namespace Primitive

variable (name : Text) (s : State)

/-- Reading a file is noted, and logged if it succeeds. -/
theorem slurpFile_adds (path : Text) : s.Adds Effect.OfProgram (slurpFile name path s).2 := by
  simp only [slurpFile]
  split
  · exact .trans (.note (.opened path)) (State.adds_debug _ _ _ (.read path _))
  · exact .note (.opened path)

theorem print_adds {text : Text} {t : State} (h : s.print? text = some t) :
    s.Adds Effect.OfProgram t := by
  unfold State.print? at h
  split at h
  · obtain rfl := Option.some.inj h
    exact .of_left (.note (.wrote .stdout text)) rfl
  · cases h

theorem printStack_adds : s.Adds Effect.OfProgram s.printStack.2 := by
  rw [State.printStack_eq]
  refine ⟨_, rfl, fun x hx => ?_⟩
  obtain ⟨line, -, rfl⟩ := List.mem_map.1 hx
  exact .wrote .stderr line

/-- A function of the language adds effects of the program only. -/
theorem run_adds (p : Primitive) (args : List Value) :
    s.Adds Effect.OfProgram (p.run name args s).2 := by
  unfold run
  split <;> try exact .of_eq rfl
  · split
    · exact slurpFile_adds name s _
    · exact .of_eq rfl
  · split <;> exact .of_eq rfl
  · split <;> exact .of_eq rfl
  · split <;> exact .of_eq rfl
  · split
    · split <;> exact .of_eq rfl
    · exact .of_eq rfl
  · split
    · exact print_adds s ‹_›
    · exact .of_eq rfl
  · exact printStack_adds s
  · split <;> exact .of_eq rfl

end Primitive

/-- **Built-in functions** add effects of their own only. -/
theorem Builtin.run_adds (b : Builtin) (args : List Value) (s : State) :
    s.Adds Effect.OfProgram (b.run args s).2 := by
  have hroutine : s.Adds Effect.OfProgram (b.runRoutine args s).2 := by
    unfold Builtin.runRoutine
    split
    · exact Primitive.run_adds b.name s _ args
    · split <;> exact .of_eq rfl
  unfold Builtin.run
  split
  · exact hroutine
  · split
    · exact hroutine
    · exact .of_eq rfl

/-! ## Steps -/

namespace Machine

/-- Whether the frame that the next step is to push, if any, is one of a built-in function. -/
def asksBuiltin (m : Machine) : Bool :=
  match m.focus, m.konts with
  | .application f _, _ => callAsks f
  | .value f, .callee _ [] _ :: _ => callAsks f
  | .value _, .argument f _ _ [] _ :: _ => callAsks f
  | _, _ => false

/-- Whether the next step is to push a frame onto a full stack. -/
def meetsLimit (m : Machine) : Bool := m.asksFrame && m.state.stack.isFull

/-- What a step adds to the effects of the state `s`. The flags tell whether a frame was to be
pushed, and whether it is one of a built-in function. -/
inductive Emits (s : State) : Bool → Bool → Machine → Prop where
  /-- Nothing is in the way, and what is added are effects of a built-in function. -/
  | program {asks builtin : Bool} {m : Machine} (hroom : (asks && s.stack.isFull) = false)
      (h : s.Adds Effect.OfProgram m.state) : Emits s asks builtin m
  /-- There is no room for the frame of a built-in function. -/
  | unlogged {m : Machine} (hfull : s.stack.isFull = true) (hf : m.focus = .failure s.overflowed)
      (h : m.state.effects = s.effects) : Emits s true true m
  /-- There is no room for the frame of an expression, and the log is told so. -/
  | logged {m : Machine} (hfull : s.stack.isFull = true) (hf : m.focus = .failure s.overflowed)
      (h : m.state.effects = s.limitReached.effects) : Emits s true false m

variable {s s' : State} {m m' : Machine} {ks : List Kont}

/-- What keeps the effects and asks for no frame. -/
theorem Emits.of_eq {builtin : Bool} (h : m.state.effects = s.effects) :
    Emits s false builtin m :=
  .program rfl (.of_eq h)

/-- A quiet step may come before, if it has no effects. -/
theorem Emits.of_quiet {asks builtin : Bool} (h : Emits s' asks builtin m)
    (hquiet : State.Quiet s s') (heffects : s'.effects = s.effects) : Emits s asks builtin m := by
  obtain ⟨hstack, hsetup⟩ := hquiet
  have hoverflow : s'.overflowed = s.overflowed := by
    simp only [State.overflowed, overflow, hstack]
  cases h with
  | program hroom h => exact .program (hstack ▸ hroom) (h.of_left heffects)
  | unlogged hfull hf h =>
    exact .unlogged (hstack ▸ hfull) (hf.trans (by rw [hoverflow])) (h.trans heffects)
  | logged hfull hf h =>
    refine .logged (hstack ▸ hfull) (hf.trans (by rw [hoverflow])) (h.trans ?_)
    have hlog : s'.log = s.log := congrArg Setup.log hsetup
    simp only [State.limitReached, State.debug, State.logRecord, hlog, hstack]
    split
    · exact congrArg (_ :: ·) heffects
    · exact heffects

theorem settle_effects (r : Except Fault Value) : (settle r ks s).state.effects = s.effects := by
  cases r <;> rfl

theorem bindAll_effects (s : State) (e : ScopeId) (names : List Text) (vs : List Value) :
    (s.bindAll e names vs).effects = s.effects := by
  induction names generalizing s vs with
  | nil => rfl
  | cons name names ih =>
    cases vs with
    | nil => rfl
    | cons v vs => exact ih (s.bind e name v) vs

theorem callScope_effects (formals : List Text) (e : ScopeId) (args : List Value) :
    (callScope formals e args s).2.effects = s.effects :=
  bindAll_effects _ _ formals args

/-- Entering a frame has no effect, unless it meets the limit; that is logged. -/
theorem enter_emits (name : Text) (expr : Value) (e : ScopeId) :
    Emits s true false (enter name expr e ks s) := by
  unfold enter
  split
  · rename_i hpush
    exact .program (CallStack.push_eq_some hpush).2.2 (.of_eq rfl)
  · have hstack := (s.quiet_debug "stack limit reached" [("height", .number s.stack.height)]).1
    refine .logged (isFull_of_push_eq_none ‹_›) ?_ rfl
    simp only [failHere, State.overflowed, overflow, hstack]

/-- A built-in function has effects of the program; the limit that it meets is not logged. -/
theorem callBuiltin_emits (b : Builtin) (args : List Value) :
    Emits s true true (callBuiltin b args ks s) := by
  unfold callBuiltin
  split
  · exact .unlogged (isFull_of_push_eq_none ‹_›) rfl rfl
  · rename_i stack hpush
    have hroom : (true && s.stack.isFull) = false := (CallStack.push_eq_some hpush).2.2
    have hrun := (Builtin.run_adds b args { s with stack }).of_left (t := s) rfl
    split <;> rename_i hreply <;> rw [hreply] at hrun <;> exact .program hroom hrun

/-- Only the call of a built-in function has effects. -/
theorem call_emits (f : Value) (name : Text) (args : List Value) :
    Emits s (callAsks f) (callAsks f) (call f name args ks s) := by
  unfold call
  split
  · split
    · exact .of_eq rfl
    · exact .of_eq (callScope_effects _ _ args)
  · exact callBuiltin_emits _ args
  · rename_i hclosure hbuiltin
    have hasks : callAsks f = false := by
      unfold callAsks
      split
      · exact absurd rfl (hbuiltin _)
      · rfl
    rw [hasks]
    exact .of_eq rfl

theorem apply_emits (f : Value) (args : List Value) :
    Emits s (applyAsks s f args) (callAsks f) (apply f args ks s) := by
  cases f with
  | closure identity formals body e =>
    simp only [apply, applyAsks, callAsks]
    split
    · rename_i h
      rw [h]
      exact .of_eq rfl
    · rename_i h
      rw [h]
      exact (enter_emits _ _ _).of_quiet (s.quiet_callScope formals e args)
        (callScope_effects formals e args)
  | builtin b => exact callBuiltin_emits b args
  | _ => exact .of_eq rfl

theorem arguments_emits (f : Value) (name : Text) (done ahead : List Value) (e : ScopeId) :
    Emits s (ahead.isEmpty && callAsks f) (ahead.isEmpty && callAsks f)
      (arguments f name done ahead e ks s) := by
  cases ahead with
  | nil => exact call_emits f name done.reverse
  | cons a ahead => exact .of_eq rfl

theorem bindings_effects (site : FormSite) (ahead : List Value) (body : Value) (e : ScopeId) :
    (bindings site ahead body e ks s).state.effects = s.effects := by
  unfold bindings
  split
  · rfl
  · rfl
  · split <;> rfl

theorem sequence_effects (exprs : List Value) (e : ScopeId) :
    (sequence exprs e ks s).state.effects = s.effects := by
  unfold sequence
  split <;> rfl

/-- Special forms have no effects. -/
theorem special_effects (form : SpecialForm) (site : FormSite) (operands : List Value)
    (e : ScopeId) : (special form site operands e ks s).state.effects = s.effects := by
  unfold special
  split <;> try rfl
  · split <;> rfl
  · split
    · exact bindings_effects (s := (s.newScope e).2) site _ _ _
    · rfl
  · split
    · exact bindings_effects (s := (s.newScope e).2) site _ _ _
    · rfl
  · exact sequence_effects operands e
  · split <;> rfl

/-- Evaluating an expression has no effects of its own. -/
theorem expression_effects (expr : Value) (e : ScopeId) :
    (expression expr e ks s).state.effects = s.effects := by
  unfold expression
  split
  · exact settle_effects _
  · rfl
  · split
    · exact special_effects _ _ _ e
    · rfl
  · rfl
  · rfl

theorem operand_emits (expr : Value) (e : ScopeId) :
    Emits s (operandAsks expr) false (operand expr e ks s) := by
  cases expr with
  | list source items => exact enter_emits [] _ e
  | scalar source content =>
    cases content with
    | symbol name => exact .of_eq (settle_effects _)
    | _ => exact .of_eq rfl
  | _ => exact .of_eq rfl

/-- Going on with a value has effects only if it calls a built-in function. -/
theorem resume_emits (k : Kont) (v : Value) :
    Emits s (asksFrame { focus := .value v, konts := k :: ks, state := s })
      (asksBuiltin { focus := .value v, konts := k :: ks, state := s }) (resume k v ks s) := by
  cases k with
  | callee head args e =>
    cases args with
    | nil => exact arguments_emits v _ [] [] e
    | cons a args => exact arguments_emits v _ [] (a :: args) e
  | argument f name done ahead e =>
    cases ahead with
    | nil => exact arguments_emits f name (v :: done) [] e
    | cons a ahead => exact arguments_emits f name (v :: done) (a :: ahead) e
  | binding site name ahead body e =>
    exact .of_eq (bindings_effects (s := s.bind e name v) site ahead body e)
  | sequence ahead e => exact .of_eq (sequence_effects ahead e)
  | branch yes no e =>
    refine .of_eq ?_
    simp only [resume]
    split
    · rfl
    · cases no <;> rfl
  | _ => exact .of_eq rfl

theorem unwind_effects (k : Kont) (f : Failure) : (unwind k f ks s).state.effects = s.effects := by
  cases k <;> rfl

/-- **What a step adds to the effects.** -/
theorem step_emits (h : m.step = .next m') : Emits m.state m.asksFrame m.asksBuiltin m' := by
  obtain ⟨focus, ks, s⟩ := m
  cases focus with
  | expression expr e =>
    obtain rfl := Step.next.inj h
    exact .of_eq (expression_effects expr e)
  | operand expr e =>
    obtain rfl := Step.next.inj h
    exact operand_emits expr e
  | application f args =>
    obtain rfl := Step.next.inj h
    exact apply_emits f args
  | value v =>
    cases ks with
    | nil => cases h
    | cons k ks =>
      obtain rfl := Step.next.inj h
      exact resume_emits k v
  | failure f =>
    cases ks with
    | nil => cases h
    | cons k ks =>
      obtain rfl := Step.next.inj h
      exact .of_eq (unwind_effects k f)

/-! ## Runs -/

/-- A failure stays a failure. -/
theorem isFailure_step (h : m.step = .next m') (hf : m.focus.isFailure = true) :
    m'.focus.isFailure = true := by
  obtain ⟨focus, ks, s⟩ := m
  cases focus with
  | failure f =>
    cases ks with
    | nil => cases h
    | cons k ks =>
      obtain rfl := Step.next.inj h
      cases k <;> rfl
  | _ => cases hf

/-- **Before something goes wrong**, the effects are those of built-in functions. -/
theorem adds_of_running (h : Reaches m m') (hm' : m'.focus.isFailure = false) :
    m.state.Adds Effect.OfProgram m'.state := by
  induction h with
  | refl => exact .of_eq rfl
  | @tail p m' _ hstep ih =>
    have hp : p.focus.isFailure = false := by
      cases hp : p.focus.isFailure with
      | false => rfl
      | true =>
        rw [isFailure_step hstep hp] at hm'
        cases hm'
    -- a step that meets the limit fails
    have hemits := step_emits hstep
    generalize p.asksFrame = asks, p.asksBuiltin = builtin at hemits
    cases hemits with
    | program _ hadds => exact (ih hp).trans hadds
    | unlogged _ hf =>
      rw [hf] at hm'
      cases hm'
    | logged _ hf =>
      rw [hf] at hm'
      cases hm'

/-- The console has no part in what is added. -/
theorem Emits.adds {asks builtin : Bool} (h : Emits s asks builtin m) :
    s.Adds (fun x => ¬x.OfConsole) m.state := by
  cases h with
  | program _ h => exact h.mono fun _ => Effect.OfProgram.not_ofConsole
  | unlogged _ _ h => exact .of_eq h
  | logged _ _ h =>
    obtain ⟨new, hnew, hall⟩ := s.adds_debug (P := fun x => ¬x.OfConsole) "stack limit reached"
      [("height", .number s.stack.height)] (by rintro ⟨_, _, h⟩; cases h)
    exact ⟨new, h.trans hnew, hall⟩

/-- No run writes as the console does. -/
theorem adds_of_reaches (h : Reaches m m') : m.state.Adds (fun x => ¬x.OfConsole) m'.state := by
  induction h with
  | refl => exact .of_eq rfl
  | tail _ hstep ih => exact ih.trans (step_emits hstep).adds

end Machine

/-- **No write of an evaluation is one of the console.** -/
theorem eval_adds {fuel : Nat} {s : State} {e : ScopeId} {expr : Value} {out : Outcome}
    (h : s.eval fuel e expr = some out) : s.Adds (fun x => ¬x.OfConsole) out.state := by
  rw [State.eval_eq] at h
  obtain ⟨o, ho, rfl⟩ := Option.map_eq_some_iff.1 h
  have hrun : s.Adds (fun x => ¬x.OfConsole) o.state :=
    (enter_emits [] expr e).adds.trans (adds_of_reaches (reaches_of_run ho))
  refine hrun.trans ?_
  unfold Outcome.reported
  split
  · exact .of_eq rfl
  · exact o.state.adds_debug _ _ (by rintro ⟨_, _, h⟩; cases h)

end TinyLisp
