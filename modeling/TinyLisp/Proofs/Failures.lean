import TinyLisp.CommandLine.Run
import TinyLisp.Proofs.Balance

/-!
# Failures on their way out

A fault arises in one step of the machine. From then on nothing is evaluated: the failure passes every
continuation that is left, and the first frame that it leaves records the call stack in it, unless
the stack was recorded where the fault arose. Either way the stack is the one of that step.

* `Machine.FailsIn`, `State.FailsAt`: the step in which a fault arises, and the call stack there.
* `Machine.Failing`: a machine on its way out; `failing_step`: the fault stays the same, and so does the
  stack that is recorded or going to be.
* `running_step`: a step of an evaluation goes on or fails, and then in a frame of the evaluation.
* `failure_recorded_once`: what a failed evaluation returns.
-/

namespace TinyLisp

open Machine

/-! ## On the way out -/

/-- Whether a failure is in focus. -/
def Focus.isFailure : Focus → Bool
  | .failure _ => true
  | _ => false

namespace Machine

variable {ks : List Kont} {s : State} {m m' : Machine} {fault : Fault} {stack : CallStack}
  {base : CallStack}

/-- The machine is on its way out of a fault that arose while `stack` was the call stack: this is
recorded, or it is still at hand and the next frame that is left records it. -/
inductive Failing (fault : Fault) (stack : CallStack) : Machine → Prop where
  | recorded (ks : List Kont) (s : State) :
      Failing fault stack
        { focus := .failure { fault, trace := some stack }, konts := ks, state := s }
  | unrecorded {ks : List Kont} {s : State} (hs : s.stack = stack) (hks : .leave ∈ ks) :
      Failing fault stack { focus := .failure { fault }, konts := ks, state := s }

/-- **On the way out nothing changes** about the fault and the call stack where it arose. -/
theorem failing_step (hm : Failing fault stack m) (h : m.step = .next m') :
    Failing fault stack m' := by
  cases hm with
  | recorded ks s =>
    cases ks with
    | nil => cases h
    | cons k ks =>
      obtain rfl := Step.next.inj h
      cases k with
      | leave => exact .recorded ks _
      | _ => exact .recorded ks s
  | @unrecorded ks s hs hks =>
    cases ks with
    | nil => cases h
    | cons k ks =>
      obtain rfl := Step.next.inj h
      by_cases hk : k = .leave
      · subst hk
        exact hs ▸ .recorded ks _
      · rw [unwind_of_ne_leave hk]
        rcases List.mem_cons.1 hks with hk' | hks
        · exact absurd hk'.symm hk
        · exact .unrecorded hs hks

theorem Failing.reaches (hm : Failing fault stack m) (h : Reaches m m') : Failing fault stack m' :=
  h.preserves (fun _ _ => failing_step) hm

/-- Where no continuation is left, the call stack has been recorded. -/
theorem Failing.eq_of_above {o : Outcome} (h : Failing fault stack (o.above [])) :
    o.result = .error { fault, trace := some stack } := by
  obtain ⟨result, s⟩ := o
  cases result with
  | ok v =>
    generalize hm : Outcome.above { result := .ok v, state := s } [] = m at h
    cases h <;> cases hm
  | error f =>
    generalize hm : Outcome.above { result := .error f, state := s } [] = m at h
    cases h with
    | recorded =>
      cases hm
      rfl
    | unrecorded _ hks =>
      cases hm
      cases hks

/-! ## Where a fault arises -/

theorem ne_failure (h : m.focus.isFailure = false) (f : Failure) : m.focus ≠ .failure f := by
  intro hf
  rw [hf] at h
  cases h

/-- If the machine has just failed and recorded a call stack, it is the one at hand. -/
def RecordsItsStack (m : Machine) : Prop :=
  ∀ f, m.focus = .failure f → ∀ stack, f.trace = some stack → m.state.stack = stack

theorem records_of_running (h : m.focus.isFailure = false) : m.RecordsItsStack :=
  fun f hf => absurd hf (ne_failure h f)

theorem fail_records (fault : Fault) : (fail fault ks s).RecordsItsStack := by
  intro f hf stack htrace
  obtain rfl := Focus.failure.inj hf
  cases htrace

theorem failHere_records (fault : Fault) : (failHere fault ks s).RecordsItsStack := by
  intro f hf stack htrace
  obtain rfl := Focus.failure.inj hf
  exact Option.some.inj htrace

theorem settle_records (result : Except Fault Value) : (settle result ks s).RecordsItsStack := by
  cases result with
  | ok v => exact records_of_running rfl
  | error fault => exact fail_records fault

theorem enter_records (name : Text) (expr : Value) (e : ScopeId) :
    (enter name expr e ks s).RecordsItsStack := by
  unfold enter
  split
  · exact records_of_running rfl
  · exact failHere_records _

theorem callBuiltin_records (b : Builtin) (args : List Value) :
    (callBuiltin b args ks s).RecordsItsStack := by
  unfold callBuiltin
  split
  · exact failHere_records _
  · split
    · exact records_of_running rfl
    · exact fail_records _
    · exact records_of_running rfl

theorem call_records (f : Value) (name : Text) (args : List Value) :
    (call f name args ks s).RecordsItsStack := by
  unfold call
  split
  · split
    · exact fail_records _
    · exact records_of_running rfl
  · exact callBuiltin_records _ args
  · exact fail_records _

theorem apply_records (f : Value) (args : List Value) :
    (apply f args ks s).RecordsItsStack := by
  unfold apply
  split
  · split
    · exact failHere_records _
    · exact enter_records _ _ _
  · exact callBuiltin_records _ args
  · exact failHere_records _

theorem arguments_records (f : Value) (name : Text) (done ahead : List Value) (e : ScopeId) :
    (arguments f name done ahead e ks s).RecordsItsStack := by
  unfold arguments
  split
  · exact call_records f name _
  · exact records_of_running rfl

theorem bindings_records (site : FormSite) (ahead : List Value) (body : Value) (e : ScopeId) :
    (bindings site ahead body e ks s).RecordsItsStack := by
  unfold bindings
  split
  · exact records_of_running rfl
  · exact fail_records _
  · split
    · exact records_of_running rfl
    · exact fail_records _

theorem sequence_records (exprs : List Value) (e : ScopeId) :
    (sequence exprs e ks s).RecordsItsStack := by
  unfold sequence
  split <;> exact records_of_running rfl

theorem special_records (form : SpecialForm) (site : FormSite) (operands : List Value)
    (e : ScopeId) : (special form site operands e ks s).RecordsItsStack := by
  unfold special
  split <;> try exact fail_records _
  · split
    · exact records_of_running rfl
    · exact fail_records _
  · split
    · exact bindings_records site _ _ _
    · exact fail_records _
  · split
    · exact bindings_records site _ _ _
    · exact fail_records _
  · exact sequence_records operands e
  · exact records_of_running rfl
  · exact records_of_running rfl
  · split
    · exact records_of_running rfl
    · exact fail_records _
  · exact records_of_running rfl

theorem expression_records (expr : Value) (e : ScopeId) :
    (expression expr e ks s).RecordsItsStack := by
  unfold expression
  split
  · exact settle_records _
  · exact fail_records _
  · split
    · exact special_records _ _ _ e
    · exact records_of_running rfl
  · exact fail_records _
  · exact records_of_running rfl

theorem operand_records (expr : Value) (e : ScopeId) :
    (operand expr e ks s).RecordsItsStack := by
  unfold operand
  split
  · exact settle_records _
  · exact enter_records _ _ e
  · exact records_of_running rfl

theorem resume_records (k : Kont) (v : Value) : (resume k v ks s).RecordsItsStack := by
  cases k with
  | callee head args e => exact arguments_records v _ [] args e
  | argument f name done ahead e => exact arguments_records f name _ ahead e
  | binding site name ahead body e => exact bindings_records site ahead body e
  | sequence ahead e => exact sequence_records ahead e
  | branch yes no e =>
    simp only [resume]
    split
    · exact records_of_running rfl
    · cases no <;> exact records_of_running rfl
  | leave => exact records_of_running rfl
  | define => exact records_of_running rfl
  | evaluate => exact records_of_running rfl
  | update => exact records_of_running rfl

/-- A step that fails records the call stack at hand, or none. -/
theorem step_records (hm : ∀ f, m.focus ≠ .failure f) (h : m.step = .next m') :
    m'.RecordsItsStack := by
  obtain ⟨focus, ks, s⟩ := m
  cases focus with
  | expression expr e =>
    obtain rfl := Step.next.inj h
    exact expression_records expr e
  | operand expr e =>
    obtain rfl := Step.next.inj h
    exact operand_records expr e
  | application f args =>
    obtain rfl := Step.next.inj h
    exact apply_records f args
  | value v =>
    cases ks with
    | nil => cases h
    | cons k ks =>
      obtain rfl := Step.next.inj h
      exact resume_records k v
  | failure f => exact absurd rfl (hm f)

/-- The step from `m` fails: the fault arises while `stack` is the call stack. -/
structure FailsIn (m : Machine) (fault : Fault) (stack : CallStack) : Prop where
  running : ∀ f, m.focus ≠ .failure f
  step : ∃ m' f, m.step = .next m' ∧ m'.focus = .failure f ∧ f.fault = fault ∧
    m'.state.stack = stack

end Machine

/-! ## Frames of the evaluation -/

/-- The frames are those of the evaluation on top of those that were there before. -/
theorem Carries.append {base fs : List CallFrame} {ks : List Kont} (h : Carries base ks fs) :
    ∃ active, fs = active ++ base ∧ (.leave ∈ ks → active ≠ []) := by
  induction h with
  | bottom => exact ⟨[], rfl, fun h => absurd h List.not_mem_nil⟩
  | frame f _ ih =>
    obtain ⟨active, rfl, -⟩ := ih
    exact ⟨f :: active, rfl, fun _ => List.cons_ne_nil f active⟩
  | wait _ hks _ ih =>
    obtain ⟨active, hfs, hne⟩ := ih
    exact ⟨active, hfs, fun _ => hne hks⟩

/-- Whatever waits, waits in a frame of the evaluation. -/
theorem Carries.leave_mem {base fs : List CallFrame} {ks : List Kont} (h : Carries base ks fs)
    (hne : ks ≠ []) : .leave ∈ ks := by
  cases h with
  | bottom => exact absurd rfl hne
  | frame => exact List.mem_cons_self
  | wait _ hks _ => exact List.mem_cons_of_mem _ hks

namespace Machine

variable {ks : List Kont} {s : State} {m m' : Machine} {fault : Fault} {stack : CallStack}
  {base : CallStack}

/-- The machine of an evaluation that began with the stack `base` and has not failed. Without
continuations it holds the value that the evaluation comes to. -/
structure Running (base : CallStack) (m : Machine) : Prop where
  balanced : Balanced base m
  running : ∀ f, m.focus ≠ .failure f
  ended : m.konts = [] → ∃ v, m.focus = .value v

/-- A machine that takes another step has a continuation that leaves a frame. -/
theorem Running.leave_mem (hm : Running base m) (h : m.step = .next m') : .leave ∈ m.konts := by
  refine hm.balanced.frames.leave_mem fun hnil => ?_
  obtain ⟨focus, ks, s⟩ := m
  obtain ⟨v, rfl⟩ := hm.ended hnil
  obtain rfl : ks = [] := hnil
  cases h

/-- Inside a frame of the evaluation a move stays inside. -/
theorem Move.leave_mem {asks : Bool} (h : Move ks s asks m') (hks : .leave ∈ ks) :
    .leave ∈ m'.konts := by
  cases h with
  | await => exact List.mem_cons_of_mem _ hks
  | push => simp
  | _ => exact hks

/-- A step leaves the last frame with a value, or stays inside the frames of the evaluation. -/
theorem Running.inside (hm : Running base m) (h : m.step = .next m') :
    .leave ∈ m'.konts ∨ m'.konts = [] ∧ ∃ v, m'.focus = .value v := by
  have hleave := hm.leave_mem h
  have hstays := balanced_step hm.balanced h
  cases advance_of_step hm.balanced.framed h with
  | leaveValue v ks s =>
    by_cases hks : ks = []
    · exact .inr ⟨hks, v, rfl⟩
    · exact .inl (hstays.frames.leave_mem hks)
  | leaveFailure f => exact absurd rfl (hm.running f)
  | unwind f => exact absurd rfl (hm.running f)
  | resume _ _ _ _ hk hmove =>
    exact .inl (hmove.leave_mem (hm.balanced.frames.of_wait hk).1)
  | begin _ _ _ _ _ hmove => exact .inl (hmove.leave_mem hleave)

/-- **A step goes on, or it fails.** Then the frames at hand are those that were there when the
evaluation began, with at least one of its own on top. -/
theorem running_step (hm : Running base m) (h : m.step = .next m') :
    Running base m' ∨ ∃ fault, m.FailsIn fault m'.state.stack ∧
      Failing fault m'.state.stack m' ∧ m'.state.stack.limit = base.limit ∧
        ∃ active, m'.state.stack.frames = active ++ base.frames ∧ active ≠ [] := by
  have hbalanced := balanced_step hm.balanced h
  have hrecords := step_records hm.running h
  rcases hm.inside h with hleave | ⟨-, v, hv⟩
  · by_cases hfails : ∃ f, m'.focus = .failure f
    · obtain ⟨f, hf⟩ := hfails
      obtain ⟨active, hframes, hne⟩ := hbalanced.frames.append
      refine .inr ⟨f.fault, ⟨hm.running, m', f, h, hf, rfl, rfl⟩, ?_, hbalanced.limit, active,
        hframes, hne hleave⟩
      -- what the step recorded, if anything, is the stack at hand
      obtain ⟨focus, ks, s⟩ := m'
      obtain rfl : focus = .failure f := hf
      obtain ⟨fault, trace⟩ := f
      cases trace with
      | none => exact .unrecorded rfl hleave
      | some stack =>
        obtain rfl : s.stack = stack := hrecords _ rfl stack rfl
        exact .recorded ks s
    · rw [not_exists] at hfails
      refine .inl ⟨hbalanced, hfails, fun hnil => ?_⟩
      rw [hnil] at hleave
      cases hleave
  · refine .inl ⟨hbalanced, fun f hf => ?_, fun _ => ⟨v, hv⟩⟩
    rw [hv] at hf
    cases hf

end Machine

/-! ## Whole evaluations -/

/-- The evaluation of an expression fails while `stack` is the call stack: its own frame cannot be
pushed, or a step that it comes to fails. -/
inductive State.FailsAt (s : State) (e : ScopeId) (expr : Value) : Fault → CallStack → Prop where
  | full (h : s.stack.isFull = true) : FailsAt s e expr (overflow s) s.stack
  | inside {m : Machine} {fault : Fault} {stack : CallStack}
      (hr : Reaches (enter [] expr e [] s) m) (h : m.FailsIn fault stack) :
      FailsAt s e expr fault stack

section Evaluations

variable {s : State} {e : ScopeId} {expr : Value} {m : Machine} {fuel : Nat} {out : Outcome}
  {f : Failure}

/-- Evaluation begins by failing to push its frame, or in the frame that it pushed. -/
theorem enter_cases (expr : Value) (e : ScopeId) (s : State) :
    (s.stack.isFull = true ∧ Failing (overflow s) s.stack (enter [] expr e [] s)) ∨
      (s.stack.isFull = false ∧ Running s.stack (enter [] expr e [] s)) := by
  have hbalanced := balanced_enter [] expr e s
  unfold enter at hbalanced ⊢
  cases hpush : s.stack.push [] false with
  | none =>
    have hstack := (s.quiet_debug "stack limit reached" [("height", .number s.stack.height)]).1
    refine .inl ⟨isFull_of_push_eq_none hpush, ?_⟩
    simp only [failHere, overflow, hstack]
    exact .recorded [] _
  | some stack =>
    rw [hpush] at hbalanced
    exact .inr ⟨(CallStack.push_eq_some hpush).2.2, hbalanced, ne_failure rfl,
      fun hnil => absurd hnil (List.cons_ne_nil _ _)⟩

/-- **Wherever an evaluation gets to, it runs or is on its way out** of the fault that arose, with the
call stack where it arose. -/
theorem running_or_failing (h : Reaches (enter [] expr e [] s) m) :
    Running s.stack m ∨ ∃ fault stack, s.FailsAt e expr fault stack ∧ Failing fault stack m ∧
      stack.limit = s.stack.limit ∧ ∃ active, stack.frames = active ++ s.stack.frames ∧
        (active = [] ↔ s.stack.isFull = true) ∧ (s.stack.isFull = true → fault = overflow s) := by
  have hstart := enter_cases expr e s
  induction h with
  | refl =>
    rcases hstart with ⟨hfull, hfailing⟩ | ⟨-, hrunning⟩
    · exact .inr ⟨_, _, .full hfull, hfailing, rfl, [], rfl, iff_of_true rfl hfull, fun _ => rfl⟩
    · exact .inl hrunning
  | @tail m m' hreach hstep ih =>
    rcases ih with hrunning | ⟨fault, stack, harises, hfailing, hrest⟩
    · rcases running_step hrunning hstep with hrunning' | ⟨fault, hfails, hfailing, hlimit, hframes⟩
      · exact .inl hrunning'
      · obtain ⟨active, hframes, hne⟩ := hframes
        -- a full stack would have stopped the evaluation before
        have hroom : ¬s.stack.isFull = true := by
          intro hfull
          rcases hstart with ⟨-, hstart⟩ | ⟨hroom, -⟩
          · cases hstart.reaches hreach with
            | recorded => exact hrunning.running _ rfl
            | unrecorded => exact hrunning.running _ rfl
          · rw [hfull] at hroom
            cases hroom
        exact .inr ⟨fault, _, .inside hreach hfails, hfailing, hlimit, active, hframes,
          iff_of_false hne hroom, fun hfull => absurd hfull hroom⟩
    · exact .inr ⟨fault, stack, harises, failing_step hfailing hstep, hrest⟩

/-- **A failed evaluation returns the fault that arose, and the call stack where it arose**: the frames
that were there before, and on top of them (innermost first) at least one of its own, unless it was
its own frame that could not be pushed. On the way out the fault is never replaced, and the stack is
recorded once: a failure that has a stack keeps it, and while it has none the stack is still at hand.
The class and the text of the fault are what is logged, and they are reported with the trace. -/
theorem failure_recorded_once (h : s.eval fuel e expr = some out) (hf : out.result = .error f) :
    ∃ stack active, f.trace = some stack ∧ s.FailsAt e expr f.fault stack ∧
      stack.frames = active ++ s.stack.frames ∧ stack.limit = s.stack.limit ∧
      (active = [] ↔ s.stack.isFull = true) ∧ (s.stack.isFull = true → f.fault = overflow s) ∧
      (∀ m f', Reaches (enter [] expr e [] s) m → m.focus = .failure f' → f'.fault = f.fault ∧
        (f'.trace = some stack ∨ f'.trace = none ∧ m.state.stack = stack)) ∧
      (∃ t : State, out.state = t.debug "evaluation failed"
        [("condition", .text f.fault.condition), ("error", .text (t.message f.fault))]) ∧
      ∀ cells, (CommandLine.Problem.program f).report cells =
        Console.report (f.fault.message cells) ++ stack.trace := by
  rw [State.eval_eq] at h
  obtain ⟨o, ho, rfl⟩ := Option.map_eq_some_iff.1 h
  rw [o.reported_result] at hf
  have hend : Reaches (enter [] expr e [] s) (o.above []) := reaches_of_run ho
  rcases running_or_failing hend with hrunning | ⟨fault, stack, harises, hfailing, hrest⟩
  · have hfocus : (o.above []).focus = .failure f := by simp only [Outcome.above, Outcome.focus, hf]
    exact absurd hfocus (hrunning.running f)
  obtain rfl : f = { fault, trace := some stack } :=
    Except.error.inj (hf.symm.trans hfailing.eq_of_above)
  obtain ⟨hlimit, active, hframes, hempty, hfull⟩ := hrest
  refine ⟨stack, active, rfl, harises, hframes, hlimit, hempty, hfull, ?_, ?_, fun _ => rfl⟩
  · intro m f' hr hf'
    rcases running_or_failing hr with hrunning | ⟨fault', stack', -, hfailing', -⟩
    · exact absurd hf' (hrunning.running f')
    -- what is on its way out here is what comes out in the end
    have hlast : Failing fault' stack' (o.above []) :=
      hfailing'.reaches (halts_iff_reaches.1 (hr.halts_iff.1 ⟨fuel, ho⟩))
    obtain ⟨rfl, hstack⟩ := Failure.mk.inj (Except.error.inj (hf.symm.trans hlast.eq_of_above))
    obtain rfl := Option.some.inj hstack
    cases hfailing' with
    | recorded =>
      obtain rfl := Focus.failure.inj hf'
      exact ⟨rfl, .inl rfl⟩
    | unrecorded hs =>
      obtain rfl := Focus.failure.inj hf'
      exact ⟨rfl, .inr ⟨rfl, hs⟩⟩
  · refine ⟨o.state, ?_⟩
    simp only [Outcome.reported, hf]

/-- A function that `swap!` applies fails inside a built-in function that it calls: the four frames
are recorded above the one that was there. -/
theorem failure_recorded_once_swap : ∃ (out : Outcome) (f : Failure)
    (stack : CallStack),
    State.eval 28
      { stack := { frames := [{ name := "outer", builtin := false }], height := 1, limit := 0 } } 0
      (.list none [.builtin Primitive.swap.builtin,
        .list none [.builtin Primitive.atom.builtin, .int 1],
        .list none [.symbol "fun*", .list none [.symbol "x"],
          .list none [.builtin Primitive.deref.builtin, .int 7]]]) = some out ∧
      out.result = .error f ∧ f.trace = some stack ∧
      stack.frames.map (·.name) =
        [("deref" : Text), anonymous, ("swap!" : Text), [], ("outer" : Text)] := by
  obtain ⟨stack, active, htrace, -⟩ := @failure_recorded_once
    { stack := { frames := [{ name := "outer", builtin := false }], height := 1, limit := 0 } } 0
    (.list none [.builtin Primitive.swap.builtin,
      .list none [.builtin Primitive.atom.builtin, .int 1],
      .list none [.symbol "fun*", .list none [.symbol "x"],
        .list none [.builtin Primitive.deref.builtin, .int 7]]]) 28 _ _ rfl rfl
  refine ⟨_, _, stack, rfl, rfl, htrace, ?_⟩
  obtain rfl := Option.some.inj htrace
  rfl

end Evaluations

end TinyLisp
