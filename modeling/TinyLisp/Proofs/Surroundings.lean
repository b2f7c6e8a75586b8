import TinyLisp.Proofs.Locality

/-!
# Surroundings

Evaluation changes neither the strictness about the number of arguments nor the files in reach, and
it seldom asks for them: for the strictness when a closure is called, for a file when it is opened.
Machines that differ in these surroundings alone take the same steps, up to the first call of a
closure with the wrong number of arguments and the first file that reads differently.

* `Machine.miscall?`: what is wrong, strictly speaking, with the call that the next step makes.
* `State.Opens`: the files that were asked for on the way from one state to another.
* `step_amid`, `run_amid`: steps and runs are the same in other surroundings.
* `lenient_conservative`: leniency changes nothing but strict failures.
-/

namespace TinyLisp

open Machine

/-- What evaluation reads and never changes: how strict calls are, and the files in reach. -/
structure Surroundings where
  lenient : Bool
  files : Files

/-- The same state in other surroundings. -/
def State.amid (s : State) (w : Surroundings) : State :=
  { s with lenient := w.lenient, files := w.files }

/-- The same machine in other surroundings. -/
def Machine.amid (m : Machine) (w : Surroundings) : Machine := { m with state := m.state.amid w }

/-- The same outcome in other surroundings. -/
def Outcome.amid (o : Outcome) (w : Surroundings) : Outcome := { o with state := o.state.amid w }

/-- The same step in other surroundings. -/
def Step.amid (w : Surroundings) : Step → Step
  | .next m => .next (m.amid w)
  | .done o => .done (o.amid w)

/-! ## Where surroundings matter -/

/-- The file was asked for on the way from `s` to `t`. -/
def State.Opens (s t : State) (path : Text) : Prop :=
  ∃ new, t.effects = new ++ s.effects ∧ .opened path ∈ new

/-- Every file that was asked for on the way from `s` to `t` reads the same. -/
def Surroundings.Serves (w : Surroundings) (s t : State) : Prop :=
  ∀ path, s.Opens t path → w.files.read path = s.files.read path

/-- What is wrong with calling a closure, known as `name`, with these arguments. -/
def Value.miscall? (function : Value) (name : Text) (args : List Value) : Option Fault :=
  match function with
  | .closure _ formals _ _ => arityFault? false name formals args
  | _ => none

/-- What is wrong with the closure call that the next step makes, if it makes one. -/
def Machine.miscall? (m : Machine) : Option Fault :=
  match m.focus, m.konts with
  | .value f, .callee head [] _ :: _ => f.miscall? (head.symbolName?.getD anonymous) []
  | .value v, .argument f name done [] _ :: _ => f.miscall? name (v :: done).reverse
  | .application f args, _ => f.miscall? anonymous args
  | _, _ => none

section Calls

variable {name : Text} {args : List Value} {fault : Fault} {m : Machine}

/-- If calls are strict, a call that is not refused has as many arguments as parameters. -/
theorem length_of_arityFault {formals : List Text}
    (h : arityFault? false name formals args = none) : args.length = formals.length := by
  unfold arityFault? at h
  split at h
  · rename_i hlength
    simpa using hlength
  · cases h

/-- Only a closure can be called with a wrong number of arguments. -/
theorem Value.miscall_eq_some {f : Value} (h : f.miscall? name args = some fault) :
    ∃ identity formals body e, f = .closure identity formals body e ∧
      arityFault? false name formals args = some fault := by
  unfold Value.miscall? at h
  split at h
  · exact ⟨_, _, _, _, rfl, h⟩
  · cases h

theorem Value.condition_of_miscall {f : Value} (h : f.miscall? name args = some fault) :
    fault.condition = ("arity-mismatch" : Text) := by
  obtain ⟨_, formals, _, _, -, hfault⟩ := Value.miscall_eq_some h
  unfold arityFault? at hfault
  split at hfault
  · cases hfault
  · obtain rfl := Option.some.inj hfault
    rfl

/-- A miscall is refused for its number of arguments. -/
theorem Machine.condition_of_miscall (h : m.miscall? = some fault) :
    fault.condition = ("arity-mismatch" : Text) := by
  unfold Machine.miscall? at h
  split at h
  · exact Value.condition_of_miscall h
  · exact Value.condition_of_miscall h
  · exact Value.condition_of_miscall h
  · cases h

/-- A step that calls a closure with the wrong number of arguments fails, if calls are strict. -/
theorem Machine.step_of_miscall (hs : m.state.lenient = false) (h : m.miscall? = some fault) :
    ∃ f ks, m.step = .next { focus := .failure f, konts := ks, state := m.state } ∧
      f.fault = fault := by
  obtain ⟨focus, ks, s⟩ := m
  replace hs : s.lenient = false := hs
  unfold Machine.miscall? at h
  split at h
  · rename_i f head e ks' hfocus hks
    obtain rfl : focus = .value f := hfocus
    obtain rfl : ks = .callee head [] e :: ks' := hks
    obtain ⟨_, _, _, _, rfl, hfault⟩ := Value.miscall_eq_some h
    refine ⟨{ fault }, ks', ?_, rfl⟩
    simp only [step, resume, arguments, call, List.reverse_nil, hs, hfault, fail]
  · rename_i v f name done e ks' hfocus hks
    obtain rfl : focus = .value v := hfocus
    obtain rfl : ks = .argument f name done [] e :: ks' := hks
    obtain ⟨_, _, _, _, rfl, hfault⟩ := Value.miscall_eq_some h
    refine ⟨{ fault }, ks', ?_, rfl⟩
    simp only [step, resume, arguments, call, hs, hfault, fail]
  · rename_i f args hfocus
    obtain rfl : focus = .application f args := hfocus
    obtain ⟨_, _, _, _, rfl, hfault⟩ := Value.miscall_eq_some h
    refine ⟨{ fault, trace := some s.stack }, ks, ?_, rfl⟩
    simp only [step, apply, hs, hfault, failHere]
  · cases h

end Calls

/-! ## Built-in functions -/

section Builtins

variable {w : Surroundings} {s : State}

theorem State.debug_amid (s : State) (message : Text) (fields : List (Text × Log.Field)) :
    (s.amid w).debug message fields = (s.debug message fields).amid w := by
  simp only [State.debug, State.logRecord]
  have : (s.amid w).log = s.log := rfl
  rw [this]
  split <;> rfl

theorem State.bindAll_amid (s : State) (e : ScopeId) (names : List Text) (vs : List Value) :
    (s.amid w).bindAll e names vs = (s.bindAll e names vs).amid w := by
  induction names generalizing s vs with
  | nil => rfl
  | cons name names ih =>
    cases vs with
    | nil => rfl
    | cons v vs => exact ih (s.bind e name v) vs

/-- Printing does not look at the surroundings. -/
theorem State.print_amid (s : State) (text : Text) :
    (s.amid w).print? text = (s.print? text).map (·.amid w) := by
  have : (s.amid w).stdout = s.stdout := rfl
  simp only [State.print?, this]
  split <;> rfl

/-- Printing the call stack does not look at the surroundings. -/
theorem State.printStack_amid (s : State) :
    (s.amid w).printStack = (s.printStack.1, s.printStack.2.amid w) := by
  rw [State.printStack_eq, State.printStack_eq]
  rfl

/-- A file is asked for before it is read. -/
theorem State.opens_slurpFile (s : State) (name path : Text) :
    s.Opens (Primitive.slurpFile name path s).2 path := by
  simp only [Primitive.slurpFile]
  split
  · simp only [State.debug, State.logRecord]
    split
    · exact ⟨[_, .opened path], rfl, by simp⟩
    · exact ⟨[.opened path], rfl, by simp⟩
  · exact ⟨[.opened path], rfl, by simp⟩

/-- A file that the surroundings serve is read the same way. -/
theorem slurpFile_amid {name path : Text} (hw : w.Serves s (Primitive.slurpFile name path s).2) :
    Primitive.slurpFile name path (s.amid w) =
      ((Primitive.slurpFile name path s).1, (Primitive.slurpFile name path s).2.amid w) := by
  have hread := hw path (s.opens_slurpFile name path)
  have hnote : (s.amid w).note (.opened path) = (s.note (.opened path)).amid w := rfl
  have hfiles : ((s.note (.opened path)).amid w).files.read path =
      (s.note (.opened path)).files.read path := hread
  simp only [Primitive.slurpFile, hnote, hfiles, State.debug_amid]
  split <;> rfl

/-- A function of the language does the same in surroundings that serve the files it asks for. -/
theorem Primitive.run_amid {p : Primitive} {name : Text} {args : List Value}
    (hw : w.Serves s (p.run name args s).2) :
    p.run name args (s.amid w) = ((p.run name args s).1, (p.run name args s).2.amid w) := by
  revert hw
  unfold Primitive.run
  split <;> intro hw <;> try rfl
  · split at hw
    · exact slurpFile_amid hw
    · rfl
  · split <;> rfl
  · split <;> rfl
  · split <;> rfl
  · split
    · split <;> rfl
    · rfl
  · rename_i a
    have hprinted : (s.amid w).printed a = s.printed a := rfl
    rw [hprinted, State.print_amid]
    cases s.print? (s.printed a ++ [10]) <;> rfl
  · rw [State.printStack_amid]
  · split <;> rfl

theorem Builtin.runRoutine_amid {b : Builtin} {args : List Value}
    (hw : w.Serves s (b.runRoutine args s).2) :
    b.runRoutine args (s.amid w) = ((b.runRoutine args s).1, (b.runRoutine args s).2.amid w) := by
  have hhosts : (s.amid w).hosts = s.hosts := rfl
  revert hw
  unfold Builtin.runRoutine
  rw [hhosts]
  split <;> intro hw
  · exact Primitive.run_amid hw
  · split <;> rfl

/-- A built-in function does the same in surroundings that serve the files it asks for. -/
theorem Builtin.run_amid {b : Builtin} {args : List Value} (hw : w.Serves s (b.run args s).2) :
    b.run args (s.amid w) = ((b.run args s).1, (b.run args s).2.amid w) := by
  revert hw
  unfold Builtin.run
  split
  · exact Builtin.runRoutine_amid
  · split
    · exact Builtin.runRoutine_amid
    · exact fun _ => rfl

end Builtins

/-! ## Steps -/

namespace Machine

section Steps

variable {w : Surroundings} {s : State} {ks : List Kont} {e : ScopeId}

theorem settle_amid (e : ScopeId) (name : Text) :
    settle ((s.amid w).lookup e name) ks (s.amid w) = (settle (s.lookup e name) ks s).amid w := by
  have hlookup : (s.amid w).lookup e name = s.lookup e name := rfl
  rw [hlookup]
  cases s.lookup e name <;> rfl

theorem callScope_amid (formals : List Text) (e : ScopeId) (args : List Value) :
    callScope formals e args (s.amid w) =
      ((callScope formals e args s).1, (callScope formals e args s).2.amid w) :=
  congrArg (Prod.mk _) (State.bindAll_amid (s.newScope e).2 _ formals args)

/-- Entering a frame does not look at the surroundings. -/
theorem enter_amid (name : Text) (expr : Value) (e : ScopeId) :
    enter name expr e ks (s.amid w) = (enter name expr e ks s).amid w := by
  have hstack : (s.amid w).stack = s.stack := rfl
  unfold enter
  rw [hstack]
  split
  · rfl
  · simp only [State.debug_amid]
    rfl

/-- Calling a built-in function is the same if the surroundings serve its files. -/
theorem callBuiltin_amid {b : Builtin} {args : List Value}
    (hw : w.Serves s (callBuiltin b args ks s).state) :
    callBuiltin b args ks (s.amid w) = (callBuiltin b args ks s).amid w := by
  have hstack : (s.amid w).stack = s.stack := rfl
  revert hw
  unfold callBuiltin
  rw [hstack]
  split
  · exact fun _ => rfl
  · rename_i stack _
    intro hw
    have hrun : w.Serves { s with stack } (b.run args { s with stack }).2 := by
      rcases hr : b.run args { s with stack } with ⟨reply, t⟩
      rw [hr] at hw
      cases reply <;> exact hw
    have hstate : { s.amid w with stack } = State.amid { s with stack } w := rfl
    rw [hstate, Builtin.run_amid hrun]
    rcases b.run args { s with stack } with ⟨reply, t⟩
    cases reply <;> rfl

/-- Strictness does not matter for a call with the right number of arguments. -/
theorem arityFault_amid {name : Text} {formals : List Text} {args : List Value}
    (hcall : w.lenient = s.lenient ∨ arityFault? false name formals args = none) :
    arityFault? w.lenient name formals args = arityFault? s.lenient name formals args := by
  rcases hcall with h | h
  · rw [h]
  · have hlength := length_of_arityFault h
    simp only [arityFault?, hlength, decide_true, Bool.or_true, if_true]

/-- A call in tail position is the same, unless it is a miscall and the surroundings differ in
leniency. -/
theorem call_amid {f : Value} {name : Text} {args : List Value}
    (hcall : w.lenient = s.lenient ∨ f.miscall? name args = none)
    (hw : w.Serves s (call f name args ks s).state) :
    call f name args ks (s.amid w) = (call f name args ks s).amid w := by
  cases f with
  | closure identity formals body e =>
    have hfault := arityFault_amid hcall
    have hlenient : (s.amid w).lenient = w.lenient := rfl
    simp only [call, hlenient, hfault, callScope_amid]
    split
    · rfl
    · rfl
  | builtin b => exact callBuiltin_amid hw
  | _ => rfl

/-- Applying a function is the same, unless it is a miscall and the surroundings differ in leniency.
-/
theorem apply_amid {f : Value} {args : List Value}
    (hcall : w.lenient = s.lenient ∨ f.miscall? anonymous args = none)
    (hw : w.Serves s (apply f args ks s).state) :
    apply f args ks (s.amid w) = (apply f args ks s).amid w := by
  cases f with
  | closure identity formals body e =>
    have hfault := arityFault_amid hcall
    have hlenient : (s.amid w).lenient = w.lenient := rfl
    simp only [apply, hlenient, hfault, callScope_amid]
    split
    · rfl
    · exact enter_amid _ _ _
  | builtin b => exact callBuiltin_amid hw
  | _ => rfl

theorem bindings_amid (site : FormSite) (ahead : List Value) (body : Value) (e : ScopeId) :
    bindings site ahead body e ks (s.amid w) = (bindings site ahead body e ks s).amid w := by
  unfold bindings
  split
  · rfl
  · rfl
  · split <;> rfl

theorem sequence_amid (exprs : List Value) (e : ScopeId) :
    sequence exprs e ks (s.amid w) = (sequence exprs e ks s).amid w := by
  unfold sequence
  split <;> rfl

/-- Special forms do not look at the surroundings. -/
theorem special_amid (form : SpecialForm) (site : FormSite) (operands : List Value) (e : ScopeId) :
    special form site operands e ks (s.amid w) = (special form site operands e ks s).amid w := by
  unfold special
  split <;> try rfl
  · split <;> rfl
  · split
    · exact bindings_amid (s := (s.newScope e).2) site _ _ _
    · rfl
  · split
    · exact bindings_amid (s := (s.newScope e).2) site _ _ _
    · rfl
  · exact sequence_amid operands e
  · split <;> rfl

/-- Expressions in tail position are evaluated without looking at the surroundings. -/
theorem expression_amid (expr : Value) (e : ScopeId) :
    expression expr e ks (s.amid w) = (expression expr e ks s).amid w := by
  unfold expression
  split
  · exact settle_amid e _
  · rfl
  · split
    · exact special_amid _ _ _ e
    · rfl
  · rfl
  · rfl

theorem operand_amid (expr : Value) (e : ScopeId) :
    operand expr e ks (s.amid w) = (operand expr e ks s).amid w := by
  unfold operand
  split
  · exact settle_amid e _
  · exact enter_amid _ _ e
  · rfl

/-- Going on with a value is the same, unless it is the last argument of a miscall. -/
theorem resume_amid {k : Kont} {v : Value}
    (hcall : w.lenient = s.lenient ∨
      miscall? { focus := .value v, konts := k :: ks, state := s } = none)
    (hw : w.Serves s (resume k v ks s).state) :
    resume k v ks (s.amid w) = (resume k v ks s).amid w := by
  cases k with
  | leave => rfl
  | callee head args e =>
    cases args with
    | nil => exact call_amid hcall hw
    | cons a ahead => rfl
  | argument f name done ahead e =>
    cases ahead with
    | nil => exact call_amid hcall hw
    | cons a ahead => rfl
  | define name e => rfl
  | binding site name ahead body e =>
    exact bindings_amid (s := s.bind e name v) site ahead body e
  | sequence ahead e => exact sequence_amid ahead e
  | branch yes no e =>
    simp only [resume]
    split
    · rfl
    · cases no <;> rfl
  | evaluate e => rfl
  | update c => rfl

theorem unwind_amid (k : Kont) (f : Failure) :
    unwind k f ks (s.amid w) = (unwind k f ks s).amid w := by
  cases k <;> rfl

/-- **A step is the same in other surroundings**, unless it calls a closure with the wrong number of
arguments or reads a file that is another there. -/
theorem step_amid {m : Machine} (hcall : w.lenient = m.state.lenient ∨ m.miscall? = none)
    (hw : ∀ m', m.step = .next m' → w.Serves m.state m'.state) :
    (m.amid w).step = m.step.amid w := by
  obtain ⟨focus, ks, s⟩ := m
  cases focus with
  | expression expr e => exact congrArg Step.next (expression_amid expr e)
  | operand expr e => exact congrArg Step.next (operand_amid expr e)
  | application f args => exact congrArg Step.next (apply_amid hcall (hw _ rfl))
  | value v =>
    cases ks with
    | nil => rfl
    | cons k ks => exact congrArg Step.next (resume_amid hcall (hw _ rfl))
  | failure f =>
    cases ks with
    | nil => rfl
    | cons k ks => exact congrArg Step.next (unwind_amid k f)

end Steps

/-! ## Runs -/

section Runs

variable {w : Surroundings} {m : Machine} {o : Outcome}

/-- Leniency is part of the setup. -/
theorem lenient_reaches {m' : Machine} (h : Reaches m m') : m'.state.lenient = m.state.lenient :=
  congrArg Setup.lenient (setup_reaches h)

theorem files_reaches {m' : Machine} (h : Reaches m m') : m'.state.files = m.state.files :=
  congrArg Setup.files (setup_reaches h)

/-- **A run that calls every closure with the right number of arguments is the same whether calls
are strict or not.** -/
theorem run_amid (fuel : Nat) (hfiles : w.files = m.state.files)
    (hcalls : ∀ m', Reaches m m' → m'.miscall? = none) :
    run fuel (m.amid w) = (run fuel m).map (·.amid w) := by
  induction fuel generalizing m with
  | zero => rfl
  | succ fuel ih =>
    have hserves : ∀ m', m.step = .next m' → w.Serves m.state m'.state := by
      intro m' _ path _
      rw [hfiles]
    have hstep : (m.amid w).step = m.step.amid w :=
      step_amid (.inr (hcalls m (Reaches.refl m))) hserves
    cases h : m.step with
    | next m' =>
      rw [h] at hstep
      rw [run_succ_next h, run_succ_next hstep]
      have hm' : Reaches m m' := Reaches.head h (Reaches.refl m')
      refine ih (hfiles.trans (files_reaches hm').symm) fun m'' hm'' => ?_
      exact hcalls m'' (Reaches.head h hm'')
    | done o =>
      rw [h] at hstep
      rw [run_succ_done h, run_succ_done hstep]
      rfl

/-- The evaluation fails because a closure was called with the wrong number of arguments. -/
def FailsByCall (m : Machine) (o : Outcome) : Prop :=
  ∃ m' f, Reaches m m' ∧ m'.miscall? = some f.fault ∧ o.result = .error f

/-- Where calls are strict, a call with the wrong number of arguments decides what the evaluation
comes to. -/
theorem failsByCall_of_miscall {m' : Machine} {fault : Fault} (hs : m.state.lenient = false)
    (h : Halts m o) (hm' : Reaches m m') (hcall : m'.miscall? = some fault) : m.FailsByCall o := by
  obtain ⟨f, ks, hstep, rfl⟩ := step_of_miscall ((lenient_reaches hm').trans hs) hcall
  have hfailure := (halts_next hstep).1 (hm'.halts_iff.1 h)
  obtain ⟨f', stack, rfl, hf'⟩ := failed_of_halts hfailure
  exact ⟨m', f', hm', hf' ▸ hcall, rfl⟩

end Runs

end Machine

theorem Outcome.reported_amid {w : Surroundings} (o : Outcome) :
    (o.amid w).reported = o.reported.amid w := by
  obtain ⟨result, s⟩ := o
  cases result with
  | ok v => rfl
  | error f =>
    have hmessage : (s.amid w).message f.fault = s.message f.fault := rfl
    simp only [Outcome.reported, Outcome.amid, hmessage, State.debug_amid]

/-- **Leniency is conservative.** If an expression comes to a value or a failure where calls are
strict, other than by a closure that was called with the wrong number of arguments, then it comes
to the same where they are lenient: with the same trace, scopes, cells and effects. -/
theorem lenient_conservative (s : State) (e : ScopeId) (expr : Value) {fuel : Nat} {out : Outcome}
    (h : State.eval fuel { s with lenient := false } e expr = some out)
    (hcall : ¬(enter [] expr e [] { s with lenient := false }).FailsByCall out) :
    State.eval fuel { s with lenient := true } e expr =
      some { out with state := { out.state with lenient := true } } := by
  set start : Machine := enter [] expr e [] { s with lenient := false } with hstart
  have hsetup : start.state.setup = State.setup { s with lenient := false } :=
    (enter_move [] expr e).setup_eq
  rw [State.eval_eq] at h
  obtain ⟨o, ho, rfl⟩ := Option.map_eq_some_iff.1 h
  have hcalls : ∀ m, Reaches start m → m.miscall? = none := by
    intro m hm
    by_contra hne
    obtain ⟨fault, hfault⟩ := Option.ne_none_iff_exists'.1 hne
    have hstrict : start.state.lenient = false := congrArg Setup.lenient hsetup
    obtain ⟨m', f, hm', hf, ho'⟩ := failsByCall_of_miscall hstrict ⟨fuel, ho⟩ hm hfault
    exact hcall ⟨m', f, hm', hf, o.reported_result.trans ho'⟩
  -- the lenient evaluation begins with the same machine in other surroundings
  set w : Surroundings := { lenient := true, files := s.files } with hw
  have hrun := run_amid (w := w) fuel (congrArg Setup.files hsetup).symm hcalls
  have hfiles : o.reported.state.files = s.files := by
    have hend := (setup_reaches (reaches_of_run ho)).trans hsetup
    exact congrArg Setup.files (o.reported_setup.trans hend)
  calc State.eval fuel { s with lenient := true } e expr
      = (run fuel (enter [] expr e [] (State.amid { s with lenient := false } w))).map
          Outcome.reported := State.eval_eq _ _ _ _
    _ = some (o.amid w).reported := by rw [enter_amid, ← hstart, hrun, ho]; rfl
    _ = some (o.reported.amid w) := by rw [o.reported_amid]
    _ = _ := by simp only [Outcome.amid, State.amid, hw, ← hfiles]

/-- A closure that is called by `swap!` with the one argument it takes, and divides by zero. -/
theorem lenient_conservative_swap : ∃ (s : State) (expr : Value) (out : Outcome) (f : Failure),
    expr = .list none [.builtin Primitive.swap.builtin, .atom 0,
      .closure 0 ["x"] (.list none [.builtin Primitive.div.builtin, .int 1, .int 0]) 0] ∧
    out.result = .error f ∧ f.fault.condition = ("division-by-zero" : Text) ∧
    State.eval 30 { s with lenient := false } 0 expr = some out ∧
    State.eval 30 { s with lenient := true } 0 expr =
      some { out with state := { out.state with lenient := true } } := by
  obtain ⟨s, expr, out, f, hexpr, hresult, hcondition, hstrict⟩ :
      ∃ (s : State) (expr : Value) (out : Outcome) (f : Failure),
        expr = .list none [.builtin Primitive.swap.builtin, .atom 0,
          .closure 0 ["x"] (.list none [.builtin Primitive.div.builtin, .int 1, .int 0]) 0] ∧
        out.result = .error f ∧ f.fault.condition = ("division-by-zero" : Text) ∧
        State.eval 30 { s with lenient := false } 0 expr = some out :=
    ⟨{ cells := #[.int 7] }, _, _, _, rfl, rfl, rfl, rfl⟩
  refine ⟨s, expr, out, f, hexpr, hresult, hcondition, hstrict, ?_⟩
  refine lenient_conservative s 0 expr hstrict ?_
  rintro ⟨m, g, -, hcall, hg⟩
  obtain rfl : f = g := Except.error.inj (hresult.symm.trans hg)
  rw [condition_of_miscall hcall] at hcondition
  revert hcondition
  decide

end TinyLisp
