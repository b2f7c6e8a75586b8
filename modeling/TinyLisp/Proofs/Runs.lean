import Mathlib.Logic.Relation
import TinyLisp.Interpreter

/-!
# Runs of the machine

`Machine.Reaches` and `Machine.Halts` speak of runs without counting steps. What an evaluation does
depends on its focus and state, not on what waits below it:

* `step_atop`: a step is the same step atop any further continuations.
* `halts_atop`: a machine atop the continuations `ks` comes to an end exactly if the machine alone
  does and what it came to does, handed to `ks`.
* `halts_failure`: a failure always comes to an end, with the fault it had and the trace it had, if
  it had one.
-/

namespace TinyLisp

/-- What an evaluation came to, as a focus. -/
def Outcome.focus (o : Outcome) : Focus :=
  match o.result with
  | .ok v => .value v
  | .error f => .failure f

/-- What an evaluation came to, handed to further continuations. -/
def Outcome.above (o : Outcome) (ks : List Kont) : Machine :=
  { focus := o.focus, konts := ks, state := o.state }

@[simp] theorem Failure.attach_fault (f : Failure) (stack : CallStack) :
    (f.attach stack).fault = f.fault := by
  unfold Failure.attach
  split <;> rfl

/-- The trace that is attached first stays. -/
theorem Failure.attach_of_trace (f : Failure) (h : f.trace.isSome = true) (stack : CallStack) :
    f.attach stack = f := by
  obtain ⟨t, ht⟩ := Option.isSome_iff_exists.1 h
  simp only [Failure.attach, ht]

namespace Machine

variable {m m' : Machine} {o o' : Outcome} {ks : List Kont} {s : State}

/-- Some number of steps leads from one machine to another. -/
def Reaches : Machine → Machine → Prop :=
  Relation.ReflTransGen fun m m' => m.step = .next m'

/-- The evaluation comes to an end. -/
def Halts (m : Machine) (o : Outcome) : Prop := ∃ fuel, run fuel m = some o

/-- The machine atop further continuations. -/
def atop (m : Machine) (ks : List Kont) : Machine := { m with konts := m.konts ++ ks }

/-! ## Fuel -/

theorem run_succ_next (h : m.step = .next m') (n : Nat) : run (n + 1) m = run n m' := by
  simp only [run, h]

theorem run_succ_done (h : m.step = .done o) (n : Nat) : run (n + 1) m = some o := by
  simp only [run, h]

/-- More fuel does not change an outcome. -/
theorem run_mono {n k : Nat} (h : run n m = some o) (hnk : n ≤ k) : run k m = some o := by
  induction n generalizing m k with
  | zero => simp [run] at h
  | succ n ih =>
    obtain ⟨k, rfl⟩ : ∃ j, k = j + 1 := ⟨k - 1, by omega⟩
    -- both runs take the same step
    cases hs : m.step with
    | next m' =>
      rw [run_succ_next hs] at h ⊢
      exact ih h (by omega)
    | done o' =>
      rw [run_succ_done hs] at h ⊢
      exact h

/-- A machine comes to one outcome at most. -/
theorem Halts.unique (h : Halts m o) (h' : Halts m o') : o = o' := by
  obtain ⟨n, hn⟩ := h
  obtain ⟨k, hk⟩ := h'
  -- give both the larger fuel
  have hn' := run_mono hn (Nat.le_max_left n k)
  have hk' := run_mono hk (Nat.le_max_right n k)
  exact Option.some.inj (hn'.symm.trans hk')

theorem halts_next (h : m.step = .next m') : Halts m o ↔ Halts m' o := by
  constructor
  · rintro ⟨n, hn⟩
    cases n with
    | zero => simp [run] at hn
    | succ n => exact ⟨n, run_succ_next h n ▸ hn⟩
  · rintro ⟨n, hn⟩
    exact ⟨n + 1, (run_succ_next h n).trans hn⟩

/-! ## Reaching -/

theorem Reaches.refl (m : Machine) : Reaches m m := Relation.ReflTransGen.refl

theorem Reaches.head {m₁ : Machine} (h : m.step = .next m₁) (h' : Reaches m₁ m') : Reaches m m' :=
  Relation.ReflTransGen.head h h'

/-- What every step preserves holds wherever a run gets to. -/
theorem Reaches.preserves {P : Machine → Prop} (hstep : ∀ m m', P m → m.step = .next m' → P m')
    (h : Reaches m m') (hm : P m) : P m' := by
  induction h with
  | refl => exact hm
  | tail _ h ih => exact hstep _ _ ih h

/-- A machine comes to what a machine on its way comes to. -/
theorem Reaches.halts_iff (h : Reaches m m') : Halts m o ↔ Halts m' o := by
  induction h with
  | refl => rfl
  | tail _ h ih => exact ih.trans (halts_next h)

/-- Only a value or a failure without continuations is the end. -/
theorem step_done (h : m.step = .done o) : m = o.above [] := by
  obtain ⟨focus, konts, s⟩ := m
  cases focus <;> cases konts <;> simp only [step, reduceCtorEq, Step.done.injEq] at h <;>
    subst h <;> rfl

theorem step_above_nil (o : Outcome) : (o.above []).step = .done o := by
  obtain ⟨r, s⟩ := o
  cases r <;> rfl

/-- A run with enough steps passes through its end. -/
theorem reaches_of_run {n : Nat} (h : run n m = some o) : Reaches m (o.above []) := by
  induction n generalizing m with
  | zero => simp [run] at h
  | succ n ih =>
    cases hs : m.step with
    | next m' => exact (ih (run_succ_next hs n ▸ h)).head hs
    | done o' =>
      obtain rfl : o' = o := Option.some.inj ((run_succ_done hs n).symm.trans h)
      exact step_done hs ▸ Reaches.refl _

/-- To come to an outcome is to reach its machine. -/
theorem halts_iff_reaches : Halts m o ↔ Reaches m (o.above []) := by
  constructor
  · rintro ⟨n, hn⟩
    exact reaches_of_run hn
  · intro h
    exact h.halts_iff.2 ⟨1, run_succ_done (step_above_nil o) 0⟩

/-! ## Further continuations -/

section Atop

variable (ks' : List Kont)

/-- Handing a result on does not look at the continuations. -/
theorem settle_atop (r : Except Fault Value) :
    settle r (ks ++ ks') s = (settle r ks s).atop ks' := by
  cases r <;> rfl

/-- Entering a frame does not look at the continuations. -/
theorem enter_atop (name : Text) (expr : Value) (e : ScopeId) :
    enter name expr e (ks ++ ks') s = (enter name expr e ks s).atop ks' := by
  unfold enter
  split <;> rfl

/-- Calling a built-in function does not look at the continuations. -/
theorem callBuiltin_atop (b : Builtin) (args : List Value) :
    callBuiltin b args (ks ++ ks') s = (callBuiltin b args ks s).atop ks' := by
  unfold callBuiltin
  split
  · rfl
  · split <;> rfl

theorem call_atop (f : Value) (name : Text) (args : List Value) :
    call f name args (ks ++ ks') s = (call f name args ks s).atop ks' := by
  unfold call
  split
  · split <;> rfl
  · exact callBuiltin_atop ks' _ _
  · rfl

theorem apply_atop (f : Value) (args : List Value) :
    apply f args (ks ++ ks') s = (apply f args ks s).atop ks' := by
  unfold apply
  split
  · split
    · rfl
    · exact enter_atop ks' _ _ _
  · exact callBuiltin_atop ks' _ _
  · rfl

theorem arguments_atop (f : Value) (name : Text) (done ahead : List Value) (e : ScopeId) :
    arguments f name done ahead e (ks ++ ks') s =
      (arguments f name done ahead e ks s).atop ks' := by
  unfold arguments
  split
  · exact call_atop ks' _ _ _
  · rfl

theorem bindings_atop (site : FormSite) (ahead : List Value) (body : Value) (e : ScopeId) :
    bindings site ahead body e (ks ++ ks') s = (bindings site ahead body e ks s).atop ks' := by
  unfold bindings
  split
  · rfl
  · rfl
  · split <;> rfl

theorem sequence_atop (exprs : List Value) (e : ScopeId) :
    sequence exprs e (ks ++ ks') s = (sequence exprs e ks s).atop ks' := by
  unfold sequence
  split <;> rfl

/-- Special forms do not look at the continuations. -/
theorem special_atop (form : SpecialForm) (site : FormSite) (operands : List Value) (e : ScopeId) :
    special form site operands e (ks ++ ks') s = (special form site operands e ks s).atop ks' := by
  unfold special
  split <;> try rfl
  · split <;> rfl
  · split
    · exact bindings_atop ks' _ _ _ _
    · rfl
  · split
    · exact bindings_atop ks' _ _ _ _
    · rfl
  · exact sequence_atop ks' _ _
  · split <;> rfl

/-- Evaluating an expression does not look at the continuations. -/
theorem expression_atop (expr : Value) (e : ScopeId) :
    expression expr e (ks ++ ks') s = (expression expr e ks s).atop ks' := by
  unfold expression
  split
  · exact settle_atop ks' _
  · rfl
  · split
    · exact special_atop ks' _ _ _ _
    · rfl
  · rfl
  · rfl

theorem operand_atop (expr : Value) (e : ScopeId) :
    operand expr e (ks ++ ks') s = (operand expr e ks s).atop ks' := by
  unfold operand
  split
  · exact settle_atop ks' _
  · exact enter_atop ks' _ _ _
  · rfl

/-- The first continuation goes on with a value, and does not look at the others. -/
theorem resume_atop (k : Kont) (v : Value) :
    resume k v (ks ++ ks') s = (resume k v ks s).atop ks' := by
  cases k with
  | leave => rfl
  | callee head args e => exact arguments_atop ks' _ _ _ _ _
  | argument f name done ahead e => exact arguments_atop ks' _ _ _ _ _
  | define name e => rfl
  | binding site name ahead body e => exact bindings_atop ks' _ _ _ _
  | sequence ahead e => exact sequence_atop ks' _ _
  | branch yes no e =>
    simp only [resume]
    split
    · rfl
    · cases no <;> rfl
  | evaluate e => rfl
  | update c => rfl

theorem unwind_atop (k : Kont) (f : Failure) :
    unwind k f (ks ++ ks') s = (unwind k f ks s).atop ks' := by
  cases k <;> rfl

/-- **A step is the same step atop any further continuations.** -/
theorem step_atop (h : m.step = .next m') : (m.atop ks').step = .next (m'.atop ks') := by
  obtain ⟨focus, konts, s⟩ := m
  cases focus with
  | expression expr e =>
    obtain rfl := Step.next.inj h
    exact congrArg Step.next (expression_atop ks' expr e)
  | operand expr e =>
    obtain rfl := Step.next.inj h
    exact congrArg Step.next (operand_atop ks' expr e)
  | application f args =>
    obtain rfl := Step.next.inj h
    exact congrArg Step.next (apply_atop ks' f args)
  | value v =>
    cases konts with
    | nil => simp [step] at h
    | cons k konts =>
      obtain rfl := Step.next.inj h
      exact congrArg Step.next (resume_atop ks' k v)
  | failure f =>
    cases konts with
    | nil => simp [step] at h
    | cons k konts =>
      obtain rfl := Step.next.inj h
      exact congrArg Step.next (unwind_atop ks' k f)

/-- What a machine reaches it reaches on top of other continuations. -/
theorem Reaches.atop (h : Reaches m m') : Reaches (m.atop ks') (m'.atop ks') := by
  induction h with
  | refl => exact Reaches.refl _
  | tail _ h ih => exact ih.tail (step_atop ks' h)

end Atop

/-- A run atop further continuations is a run of the machine alone and then one of what it came
to. -/
theorem run_atop {n : Nat} (h : run n (m.atop ks) = some o) :
    ∃ i j o₁, i ≤ n ∧ j ≤ n ∧ run i m = some o₁ ∧ run j (o₁.above ks) = some o := by
  induction n generalizing m with
  | zero => simp [run] at h
  | succ n ih =>
    cases hs : m.step with
    | next m' =>
      rw [run_succ_next (step_atop ks hs)] at h
      obtain ⟨i, j, o₁, hi, hj, h₁, h₂⟩ := ih h
      exact ⟨i + 1, j, o₁, by omega, by omega, (run_succ_next hs i).trans h₁, h₂⟩
    | done o₁ =>
      -- the machine alone is at its end, and the rest of the run is that of its outcome
      obtain rfl := step_done hs
      exact ⟨1, n + 1, o₁, by omega, Nat.le_refl _, run_succ_done hs 0, h⟩

/-- **Evaluation is compositional.** -/
theorem halts_atop : Halts (m.atop ks) o ↔ ∃ o₁, Halts m o₁ ∧ Halts (o₁.above ks) o := by
  constructor
  · rintro ⟨n, hn⟩
    obtain ⟨i, j, o₁, -, -, h₁, h₂⟩ := run_atop hn
    exact ⟨o₁, ⟨i, h₁⟩, ⟨j, h₂⟩⟩
  · rintro ⟨o₁, h₁, h₂⟩
    have hr : Reaches (m.atop ks) ((o₁.above []).atop ks) := (halts_iff_reaches.1 h₁).atop ks
    exact hr.halts_iff.2 h₂

/-! ## Failures -/

theorem step_failure_cons (f : Failure) (k : Kont) (ks : List Kont) (s : State) :
    step { focus := .failure f, konts := k :: ks, state := s } = .next (unwind k f ks s) := rfl

/-- A failure drops every continuation but the one that leaves a frame. -/
theorem unwind_of_ne_leave {k : Kont} (hk : k ≠ .leave) (f : Failure) (ks : List Kont) (s : State) :
    unwind k f ks s = { focus := .failure f, konts := ks, state := s } := by
  cases k with
  | leave => exact absurd rfl hk
  | _ => rfl

/-- **A failure comes to an end.** It keeps its fault, and its trace if it has one; only the call
stack changes. -/
theorem halts_failure (f : Failure) (ks : List Kont) (s : State) :
    ∃ f' stack, Halts { focus := .failure f, konts := ks, state := s }
        { result := .error f', state := { s with stack } } ∧
      f'.fault = f.fault ∧ (f.trace.isSome → f' = f) := by
  induction ks generalizing f s with
  | nil => exact ⟨f, s.stack, ⟨1, rfl⟩, rfl, fun _ => rfl⟩
  | cons k ks ih =>
    have hs := step_failure_cons f k ks s
    by_cases hk : k = .leave
    · -- the frame that is left records its stack, and no later one replaces it
      subst hk
      obtain ⟨f', stack, h, hf, ht⟩ := ih (f.attach s.stack) { s with stack := s.stack.drop }
      refine ⟨f', stack, (halts_next hs).2 h, hf.trans (f.attach_fault s.stack), fun hsome => ?_⟩
      rw [f.attach_of_trace hsome] at ht
      exact ht hsome
    · obtain ⟨f', stack, h, hf, ht⟩ := ih f s
      rw [unwind_of_ne_leave hk] at hs
      exact ⟨f', stack, (halts_next hs).2 h, hf, ht⟩

theorem failed_of_halts {f : Failure}
    (h : Halts { focus := .failure f, konts := ks, state := s } o) :
    ∃ f' stack, o = { result := .error f', state := { s with stack } } ∧ f'.fault = f.fault := by
  obtain ⟨f', stack, h', hfault, -⟩ := halts_failure f ks s
  exact ⟨f', stack, h.unique h', hfault⟩

end Machine

/-! ## Evaluation in a frame of its own -/

/-- What an evaluation came to, with its failure logged. -/
def Outcome.reported (o : Outcome) : Outcome :=
  match o.result with
  | .ok _ => o
  | .error f =>
    { result := .error f
      state := o.state.debug "evaluation failed"
        [("condition", .text f.fault.condition), ("error", .text (o.state.message f.fault))] }

@[simp] theorem Outcome.reported_result (o : Outcome) : o.reported.result = o.result := by
  unfold Outcome.reported
  split <;> simp [*]

/-- Evaluation runs a machine that has just entered its frame, and reports a failure in the log. -/
theorem State.eval_eq (fuel : Nat) (s : State) (e : ScopeId) (expr : Value) :
    s.eval fuel e expr =
      (Machine.run fuel (Machine.enter [] expr e [] s)).map Outcome.reported := by
  unfold State.eval
  cases h : Machine.run fuel (Machine.enter [] expr e [] s) with
  | none => rfl
  | some o =>
    obtain ⟨r, t⟩ := o
    cases r <;> rfl

end TinyLisp
