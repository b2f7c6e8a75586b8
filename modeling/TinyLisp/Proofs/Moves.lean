import TinyLisp.Proofs.Runs
import TinyLisp.Proofs.Writers

/-!
# What a step does to the call stack

A step can do seven things besides leaving a frame and dropping a continuation on the way out of a
failure (`Move`). The call stack changes in two of them: a frame is pushed, or the function in tail
position takes over the frame at hand. `Machine.asksFrame` says beforehand whether a frame is going
to be pushed; on a full stack it is not, and the evaluation fails (`Move.overflow`).

* `expression_move`, `operand_move`, `apply_move`, `resume_move`: every other step is one of these.
* `Move.failure`, `Move.push`: a step that does not meet a full stack fails with an overflow only if
  a function of the embedding program reports one (`State.HostRaises`).
* `State.setup`: what no step changes.
-/

namespace TinyLisp

/-- Whether a fault is the overflow of the call stack, or one with a word in front. -/
def Fault.isOverflow : Fault → Bool
  | .stackOverflow _ => true
  | .within _ cause => cause.isOverflow
  | _ => false

/-! ## Frames -/

namespace CallStack

variable {s t : CallStack} {name : Text} {builtin : Bool}

/-- A call stack is its frames and its limit. -/
theorem eq_of_frames (hf : s.frames = t.frames) (hl : s.limit = t.limit) : s = t := by
  obtain ⟨fs, l, n, hn⟩ := s
  obtain ⟨gs, l', n', hn'⟩ := t
  obtain rfl : fs = gs := hf
  obtain rfl : l = l' := hl
  obtain rfl : n = n' := hn.trans hn'.symm
  rfl

/-- What a push that succeeds does: the new frame comes in front, and there was room for it. -/
theorem push_eq_some (h : s.push name builtin = some t) :
    t.frames = { name, builtin } :: s.frames ∧ t.limit = s.limit ∧ s.isFull = false := by
  unfold push at h
  split at h
  · cases h
  · obtain rfl := Option.some.inj h
    exact ⟨rfl, rfl, by simpa using ‹¬s.isFull = true›⟩

/-- A push makes the stack higher by one. -/
theorem push_height (h : s.push name builtin = some t) : t.height = s.height + 1 := by
  have hf := (push_eq_some h).1
  rw [t.height_eq, s.height_eq, hf, List.length_cons]

/-- Leaving a frame undoes entering it. -/
theorem drop_of_push (h : s.push name builtin = some t) : t.drop = s := by
  obtain ⟨hframes, hlimit, -⟩ := push_eq_some h
  have htail : t.drop.frames = t.frames.tail := rfl
  exact eq_of_frames (by rw [htail, hframes, List.tail_cons]) hlimit

/-- A stack that is not full takes another frame. -/
theorem push_of_room (h : s.isFull = false) (name : Text) (builtin : Bool) :
    ∃ t, s.push name builtin = some t := by
  unfold push
  rw [h]
  exact ⟨_, rfl⟩

/-- A tail call hands the frame on top on and keeps the others. -/
theorem tailCall_frames {f : CallFrame} {fs : List CallFrame} (h : s.frames = f :: fs) :
    (s.tailCall name).frames = f.handOn name :: fs := by
  unfold tailCall
  split
  · rename_i h'
    rw [h] at h'
    cases h'
  · rename_i h'
    rw [h] at h'
    cases h'
    rfl

@[simp] theorem tailCall_limit : (s.tailCall name).limit = s.limit := by
  unfold tailCall
  split <;> rfl

@[simp] theorem tailCall_height : (s.tailCall name).height = s.height := by
  unfold tailCall
  split <;> rfl

end CallStack

/-! ## The setup -/

theorem Sink.accepts_writeAll (sink : Sink) (pieces : List Text) :
    (sink.writeAll pieces).2.accepts.isNone = sink.accepts.isNone := by
  induction pieces generalizing sink with
  | nil => rfl
  | cons piece pieces ih =>
    obtain ⟨accepts⟩ := sink
    rcases accepts with - | - | n
    · exact ih _
    · rfl
    · exact ih _

/-- How an interpreter was set up: what evaluation reads but never changes. -/
structure Setup where
  limit : Int
  /-- Whether the debugging output takes every write. -/
  patient : Bool
  hosts : Array Host
  lenient : Bool
  reads : Bool
  files : Files
  log : Log.Threshold
  registered : List Builtin

namespace State

/-- Writing the call stack changes the debugging output and adds the lines that were taken to the
effects. -/
theorem printStack_eq (s : State) :
    s.printStack =
      (decide ((s.stack.printTo s.stderr).1.length = s.stack.height + 1),
        { s with
          stderr := (s.stack.printTo s.stderr).2
          effects := (s.stack.printTo s.stderr).1.reverse.map (.wrote .program .stderr) ++
            s.effects }) := by
  obtain ⟨hnone, hstate⟩ := writeAll_debugOutput (s.stack.lines.map (· ++ [10])) 0 s
  rw [← s.stack.writeTo_eq] at hnone hstate
  rw [List.length_map, s.stack.length_lines] at hnone
  exact Prod.ext hnone hstate

/-- How the interpreter was set up. -/
def setup (s : State) : Setup :=
  { limit := s.stack.limit, patient := s.stderr.accepts.isNone, hosts := s.hosts
    lenient := s.lenient, reads := s.reads, files := s.files, log := s.log
    registered := s.registered }

/-- A call stack with the same limit leaves the setup as it was. -/
theorem setup_withStack (s : State) {stack : CallStack} (h : stack.limit = s.stack.limit) :
    State.setup { s with stack } = s.setup :=
  congrArg (fun limit => { s.setup with limit }) h

theorem hosts_of_setup {s s' : State} (h : s'.setup = s.setup) : s'.hosts = s.hosts :=
  congrArg Setup.hosts h

/-- A function of the embedding program reports this fault. -/
def HostRaises (s : State) (fault : Fault) : Prop :=
  ∃ host ∈ s.hosts, ∃ name args, host name args = .error fault

/-- The functions of the embedding program belong to the setup. -/
theorem HostRaises.of_setup {s s' : State} {fault : Fault} (hs : s'.setup = s.setup)
    (h : s'.HostRaises fault) : s.HostRaises fault := by
  unfold HostRaises at h ⊢
  rw [← hosts_of_setup hs]
  exact h

/-- The call stack and the setup are as they were. -/
def Quiet (s s' : State) : Prop := s'.stack = s.stack ∧ s'.setup = s.setup

theorem Quiet.refl (s : State) : Quiet s s := ⟨rfl, rfl⟩

theorem Quiet.trans {s s' s'' : State} (h : Quiet s s') (h' : Quiet s' s'') : Quiet s s'' :=
  ⟨h'.1.trans h.1, h'.2.trans h.2⟩

variable (s : State)

theorem quiet_bind (e : ScopeId) (name : Text) (v : Value) : Quiet s (s.bind e name v) :=
  ⟨rfl, rfl⟩

theorem quiet_bindAll (e : ScopeId) (names : List Text) (vs : List Value) :
    Quiet s (s.bindAll e names vs) := by
  induction names generalizing s vs with
  | nil => exact Quiet.refl s
  | cons name names ih =>
    cases vs with
    | nil => exact Quiet.refl s
    | cons v vs => exact (quiet_bind s e name v).trans (ih (s.bind e name v) vs)

theorem quiet_newScope (e : ScopeId) : Quiet s (s.newScope e).2 := ⟨rfl, rfl⟩

theorem quiet_store (c : CellId) (v : Value) : Quiet s (s.store c v) := ⟨rfl, rfl⟩

theorem quiet_note (effect : Effect) : Quiet s (s.note effect) := ⟨rfl, rfl⟩

theorem quiet_debug (message : Text) (fields : List (Text × Log.Field)) :
    Quiet s (s.debug message fields) := by
  unfold debug logRecord
  split
  · exact quiet_note s _
  · exact Quiet.refl s

/-- Binding the parameters of a closure in a new scope is quiet. -/
theorem quiet_callScope (formals : List Text) (e : ScopeId) (args : List Value) :
    Quiet s (Machine.callScope formals e args s).2 :=
  (quiet_newScope s e).trans (quiet_bindAll _ _ formals args)

theorem quiet_print {s t : State} {text : Text} (h : s.print? text = some t) : Quiet s t := by
  unfold print? at h
  split at h
  · obtain rfl := Option.some.inj h
    exact ⟨rfl, rfl⟩
  · cases h

/-- Printing the call stack is quiet, although it writes to the debugging output. -/
theorem quiet_printStack : Quiet s s.printStack.2 := by
  have hpatient := s.stderr.accepts_writeAll (s.stack.lines.map (· ++ [10]))
  rw [printStack_eq]
  exact ⟨rfl, congrArg (fun patient => { s.setup with patient }) hpatient⟩

theorem quiet_slurpFile (name path : Text) : Quiet s (Primitive.slurpFile name path s).2 := by
  simp only [Primitive.slurpFile]
  split
  · exact (quiet_note s _).trans (quiet_debug _ _ _)
  · exact quiet_note s _

end State

/-! ## Built-in functions -/

open State

/-- No function of the language touches the call stack or the setup. -/
theorem Primitive.quiet_run (p : Primitive) (name : Text) (args : List Value) (s : State) :
    Quiet s (p.run name args s).2 := by
  unfold Primitive.run
  split <;> try exact Quiet.refl s
  · split
    · exact quiet_slurpFile s _ _
    · exact Quiet.refl s
  · split <;> exact Quiet.refl s
  · split <;> exact Quiet.refl s
  · split
    · exact quiet_store s _ _
    · exact Quiet.refl s
  · split
    · split <;> exact Quiet.refl s
    · exact Quiet.refl s
  · split
    · exact quiet_print ‹_›
    · exact Quiet.refl s
  · exact quiet_printStack s
  · split <;> exact Quiet.refl s

/-- No built-in function touches the call stack or the setup. -/
theorem Builtin.quiet_run (b : Builtin) (args : List Value) (s : State) :
    Quiet s (b.run args s).2 := by
  have h : Quiet s (b.runRoutine args s).2 := by
    unfold Builtin.runRoutine
    split
    · exact Primitive.quiet_run _ _ _ s
    · split <;> exact Quiet.refl s
  unfold Builtin.run
  split
  · exact h
  · split
    · exact h
    · exact Quiet.refl s

/-! ## Overflows that are not the machine's own -/

/-- Whether a built-in function answers with an overflow. -/
def Reply.overflows : Reply → Bool
  | .fault f => f.isOverflow
  | _ => false

namespace Primitive

variable {name : Text} {a b : Value} {f : Fault}

theorem not_overflow_of_integers (h : integers name a b = .error f) : f.isOverflow = false := by
  unfold integers at h
  split at h <;> cases h <;> rfl

theorem not_overflow_of_string (h : stringArgument name a = .error f) : f.isOverflow = false := by
  unfold stringArgument at h
  split at h <;> cases h
  rfl

theorem not_overflow_of_cell (h : cellArgument name a = .error f) : f.isOverflow = false := by
  unfold cellArgument at h
  split at h <;> cases h
  rfl

/-- What sums, differences and products of integers can report is a wrong type. -/
theorem arithmetic_overflows (g : Int64 → Int64 → Int64) :
    (arithmetic g name a b).overflows = false := by
  unfold arithmetic
  split
  · rfl
  · exact not_overflow_of_integers ‹_›

/-- What a division can report is a wrong type or a zero. -/
theorem divide_overflows : (divide name a b).overflows = false := by
  unfold divide
  split
  · split <;> rfl
  · exact not_overflow_of_integers ‹_›

theorem concatenate_overflows (position : Nat) (done : Text) (vs : List Value) :
    (concatenate name position done vs).overflows = false := by
  fun_induction concatenate name position done vs with
  | case1 => rfl
  | case2 _ _ _ _ _ ih => exact ih
  | case3 => rfl

/-- A text that cannot be read is no overflow. -/
theorem readForm_overflows (s : State) (file bytes : Text) (failure : Option Text) :
    (Reply.ofExcept (s.readForm file bytes failure)).overflows = false := by
  unfold State.readForm
  split
  · split <;> rfl
  · rfl

/-- No function of the language reports an overflow. -/
theorem run_overflows (p : Primitive) (name : Text) (args : List Value) (s : State) :
    (p.run name args s).1.overflows = false := by
  unfold Primitive.run
  split <;> try rfl
  · exact arithmetic_overflows _
  · exact arithmetic_overflows _
  · exact arithmetic_overflows _
  · exact divide_overflows
  · exact concatenate_overflows _ _ _
  · split
    · simp only [slurpFile]
      split <;> rfl
    · exact not_overflow_of_string ‹_›
  · split
    · exact readForm_overflows s _ _ _
    · exact not_overflow_of_string ‹_›
  · split
    · rfl
    · exact not_overflow_of_cell ‹_›
  · split
    · rfl
    · exact not_overflow_of_cell ‹_›
  · split
    · split <;> rfl
    · exact not_overflow_of_cell ‹_›
  · split <;> rfl
  · simp only
    split <;> rfl
  · split <;> rfl

end Primitive

/-- A built-in function that reports an overflow is one of the embedding program. -/
theorem Builtin.hostRaises_of_run {b : Builtin} {args : List Value} {s : State} {fault : Fault}
    (h : (b.run args s).1 = .fault fault) (hf : fault.isOverflow = true) : s.HostRaises fault := by
  -- a wrong number of arguments is no overflow, so the routine was run
  have hroutine : (b.runRoutine args s).1 = .fault fault := by
    unfold Builtin.run at h
    split at h
    · exact h
    · split at h
      · exact h
      · cases h
        cases hf
  unfold Builtin.runRoutine at hroutine
  split at hroutine
  · have hp := Primitive.run_overflows ‹_› b.name args s
    rw [hroutine] at hp
    exact absurd hf (by simpa [Reply.overflows] using hp)
  · split at hroutine
    · rename_i host hslot
      refine ⟨host, Array.mem_of_getElem? hslot, b.name, args, ?_⟩
      cases hr : host b.name args with
      | ok v => rw [hr] at hroutine; cases hroutine
      | error f => rw [hr] at hroutine; cases hroutine; rfl
    · cases hroutine

/-! ## Moves -/

namespace Machine

/-- Whether applying a function pushes a frame. -/
def applyAsks (s : State) (f : Value) (args : List Value) : Bool :=
  match f with
  | .closure _ formals _ _ => (arityFault? s.lenient anonymous formals args).isNone
  | .builtin _ => true
  | _ => false

/-- Whether calling a function in tail position pushes a frame. -/
def callAsks : Value → Bool
  | .builtin _ => true
  | _ => false

/-- Whether evaluating an operand pushes a frame. -/
def operandAsks : Value → Bool
  | .list .. => true
  | _ => false

/-- Whether the next step is to push a frame. -/
def asksFrame (m : Machine) : Bool :=
  match m.focus, m.konts with
  | .operand expr _, _ => operandAsks expr
  | .application f args, _ => applyAsks m.state f args
  | .value f, .callee _ [] _ :: _ => callAsks f
  | .value _, .argument f _ _ [] _ :: _ => callAsks f
  | _, _ => false

/-- What a step does on top of the continuations `ks`, from the state `s`. The flag tells whether a
frame was to be pushed. -/
inductive Move (ks : List Kont) (s : State) : Bool → Machine → Prop where
  /-- Hands on a value. -/
  | value (v : Value) {s' : State} (hs : Quiet s s') :
      Move ks s false { focus := .value v, konts := ks, state := s' }
  /-- Fails, though no frame was to be pushed. -/
  | failure (f : Failure) {s' : State} (hs : Quiet s s')
      (hf : f.fault.isOverflow = true → s.HostRaises f.fault) :
      Move ks s false { focus := .failure f, konts := ks, state := s' }
  /-- Goes on with an expression in tail position. -/
  | proceed (expr : Value) (e : ScopeId) {s' : State} (hs : Quiet s s') (hks : .leave ∈ ks) :
      Move ks s false { focus := .expression expr e, konts := ks, state := s' }
  /-- Goes on with an operand, whose value `k` waits for. -/
  | await (k : Kont) (expr : Value) (e : ScopeId) {s' : State} (hs : Quiet s s') (hk : k ≠ .leave)
      (hks : .leave ∈ ks) :
      Move ks s false { focus := .operand expr e, konts := k :: ks, state := s' }
  /-- Lets a closure take over the frame at hand. -/
  | tailCall (name : Text) (body : Value) (e : ScopeId) {s' : State}
      (hstack : s'.stack = s.stack.tailCall name) (hsetup : s'.setup = s.setup)
      (hks : .leave ∈ ks) :
      Move ks s false { focus := .expression body e, konts := ks, state := s' }
  /-- Pushes a frame. -/
  | push (focus : Focus) (pre : List Kont) (name : Text) (builtin : Bool) {s' : State}
      (hstack : s.stack.push name builtin = some s'.stack) (hsetup : s'.setup = s.setup)
      (hpre : ∀ k ∈ pre, k ≠ .leave)
      (hf : ∀ f, focus = .failure f → f.fault.isOverflow = true → s.HostRaises f.fault) :
      Move ks s true { focus, konts := pre ++ .leave :: ks, state := s' }
  /-- Fails to push a frame. -/
  | overflow {s' : State} (hfull : s.stack.isFull = true) (hs : Quiet s s') :
      Move ks s true
        { focus := .failure { fault := .stackOverflow (s.stack.height + 1), trace := some s.stack }
          konts := ks, state := s' }

section Moves

variable {ks : List Kont} {s s' : State}

/-- A quiet step may come before a move. -/
theorem Move.of_quiet {asks : Bool} {m : Machine} (hs : Quiet s s') (h : Move ks s' asks m) :
    Move ks s asks m := by
  obtain ⟨hstack, hsetup⟩ := hs
  have hraises {fault : Fault} : s'.HostRaises fault → s.HostRaises fault := .of_setup hsetup
  cases h with
  | value v h => exact .value v (Quiet.trans ⟨hstack, hsetup⟩ h)
  | failure f h hf => exact .failure f (Quiet.trans ⟨hstack, hsetup⟩ h) fun ho => hraises (hf ho)
  | proceed expr e h hks => exact .proceed expr e (Quiet.trans ⟨hstack, hsetup⟩ h) hks
  | await k expr e h hk hks => exact .await k expr e (Quiet.trans ⟨hstack, hsetup⟩ h) hk hks
  | tailCall name body e h h' hks =>
    exact .tailCall name body e (hstack ▸ h) (h'.trans hsetup) hks
  | push focus pre name builtin h h' hpre hf =>
    exact .push focus pre name builtin (hstack ▸ h) (h'.trans hsetup) hpre
      fun f hfoc ho => hraises (hf f hfoc ho)
  | overflow hfull h =>
    rw [hstack] at hfull ⊢
    exact .overflow hfull (Quiet.trans ⟨hstack, hsetup⟩ h)

/-- Failing without a frame of its own is a move. -/
theorem fail_move {fault : Fault} (h : fault.isOverflow = false) :
    Move ks s false (fail fault ks s) :=
  .failure _ (Quiet.refl s) fun ho => absurd ho (by simp [h])

theorem failHere_move {fault : Fault} (h : fault.isOverflow = false) :
    Move ks s false (failHere fault ks s) :=
  .failure _ (Quiet.refl s) fun ho => absurd ho (by simp [h])

/-- Looking a name up hands its value on or fails. -/
theorem lookup_move (e : ScopeId) (name : Text) :
    Move ks s false (settle (s.lookup e name) ks s) := by
  unfold State.lookup
  split
  · exact .value _ (Quiet.refl s)
  · exact fail_move rfl

theorem isFull_of_push_eq_none {stack : CallStack} {name : Text} {builtin : Bool}
    (h : stack.push name builtin = none) : stack.isFull = true := by
  unfold CallStack.push at h
  split at h
  · assumption
  · cases h

/-- Entering a frame for an expression pushes it, or meets the limit. -/
theorem enter_move (name : Text) (expr : Value) (e : ScopeId) :
    Move ks s true (enter name expr e ks s) := by
  unfold enter
  split
  · rename_i stack hpush
    exact .push _ [] name false hpush (s.setup_withStack (CallStack.push_eq_some hpush).2.1)
      (by simp) (fun f h => by cases h)
  · have hq := quiet_debug s "stack limit reached" [("height", .number s.stack.height)]
    -- the stack that overflows is the one from before the log record
    simp only [failHere, overflow, hq.1]
    exact .overflow (isFull_of_push_eq_none ‹_›) hq

/-- Calling a built-in function pushes a frame for it, or meets the limit. If the function fails,
the failure arises in that frame. -/
theorem callBuiltin_move (b : Builtin) (args : List Value) :
    Move ks s true (callBuiltin b args ks s) := by
  unfold callBuiltin
  split
  · exact .overflow (isFull_of_push_eq_none ‹_›) (Quiet.refl s)
  · rename_i stack hpush
    -- the routine runs in the new frame and leaves the stack alone
    have hstack := s.setup_withStack (CallStack.push_eq_some hpush).2.1
    have hq := Builtin.quiet_run b args { s with stack }
    have hr := @Builtin.hostRaises_of_run b args { s with stack }
    split <;> rename_i hrun <;> rw [hrun] at hq hr
    · exact .push _ [] b.name true (hpush.trans (congrArg some hq.1.symm))
        (hq.2.trans hstack) (by simp)
        (fun f h => by cases h)
    · refine .push _ [] b.name true (hpush.trans (congrArg some hq.1.symm))
        (hq.2.trans hstack) (by simp) ?_
      intro f h ho
      cases h
      exact hr rfl ho
    · exact .push _ [.update _] b.name true (hpush.trans (congrArg some hq.1.symm))
        (hq.2.trans hstack) (by simp)
        (fun f h => by cases h)

/-- A wrong number of arguments is no overflow. -/
theorem not_overflow_of_arity {lenient : Bool} {name : Text} {formals : List Text}
    {args : List Value} {fault : Fault} (h : arityFault? lenient name formals args = some fault) :
    fault.isOverflow = false := by
  unfold arityFault? at h
  split at h <;> cases h
  rfl

/-- Calling a function in tail position: a closure takes over the frame at hand, a built-in function
gets one of its own. -/
theorem call_move (hks : .leave ∈ ks) (f : Value) (name : Text) (args : List Value) :
    Move ks s (callAsks f) (call f name args ks s) := by
  cases f with
  | closure identity formals body e =>
    simp only [call]
    split
    · exact fail_move (not_overflow_of_arity ‹_›)
    · have hq := quiet_callScope s formals e args
      refine .tailCall name _ _ (congrArg (·.tailCall name) hq.1) ?_ hks
      exact (State.setup_withStack _ CallStack.tailCall_limit).trans hq.2
  | builtin b => exact callBuiltin_move b args
  | _ => exact fail_move rfl

/-- Applying a function outside of tail position: every function gets a frame of its own. -/
theorem apply_move (f : Value) (args : List Value) :
    Move ks s (applyAsks s f args) (apply f args ks s) := by
  cases f with
  | closure identity formals body e =>
    simp only [apply, applyAsks]
    split
    · rename_i h
      rw [h]
      exact failHere_move (not_overflow_of_arity h)
    · rename_i h
      rw [h]
      exact (enter_move _ _ _).of_quiet (quiet_callScope s formals e args)
  | builtin b => exact callBuiltin_move b args
  | _ => exact failHere_move rfl

/-- With an argument left the evaluation goes on with it, otherwise with the call. -/
theorem arguments_move (hks : .leave ∈ ks) (f : Value) (name : Text) (done ahead : List Value)
    (e : ScopeId) :
    Move ks s (ahead.isEmpty && callAsks f) (arguments f name done ahead e ks s) := by
  cases ahead with
  | nil => exact call_move hks f name done.reverse
  | cons a ahead => exact .await _ a e (Quiet.refl s) (by simp) hks

/-- With a binding left the evaluation goes on with its value, otherwise with the body. -/
theorem bindings_move (hks : .leave ∈ ks) (site : FormSite) (ahead : List Value) (body : Value)
    (e : ScopeId) : Move ks s false (bindings site ahead body e ks s) := by
  unfold bindings
  split
  · exact .proceed body e (Quiet.refl s) hks
  · exact fail_move rfl
  · split
    · exact .await _ _ e (Quiet.refl s) (by simp) hks
    · exact fail_move rfl

/-- The last expression of a sequence is in tail position, the others are not. -/
theorem sequence_move (hks : .leave ∈ ks) (exprs : List Value) (e : ScopeId) :
    Move ks s false (sequence exprs e ks s) := by
  unfold sequence
  split
  · exact .value .nil (Quiet.refl s)
  · exact .proceed _ e (Quiet.refl s) hks
  · exact .await _ _ e (Quiet.refl s) (by simp) hks

/-- No special form pushes a frame itself. -/
theorem special_move (hks : .leave ∈ ks) (form : SpecialForm) (site : FormSite)
    (operands : List Value) (e : ScopeId) :
    Move ks s false (special form site operands e ks s) := by
  unfold special
  split <;> try exact fail_move rfl
  · split
    · exact .await _ _ e (Quiet.refl s) (by simp) hks
    · exact fail_move rfl
  · split
    · exact (bindings_move hks site _ _ _).of_quiet (quiet_newScope s e)
    · exact fail_move rfl
  · split
    · exact (bindings_move hks site _ _ _).of_quiet (quiet_newScope s e)
    · exact fail_move rfl
  · exact sequence_move hks operands e
  · exact .await _ _ e (Quiet.refl s) (by simp) hks
  · exact .await _ _ e (Quiet.refl s) (by simp) hks
  · split
    · exact .value _ ⟨rfl, rfl⟩
    · exact fail_move rfl
  · exact .await _ _ e (Quiet.refl s) (by simp) hks

/-- An expression in tail position pushes no frame. -/
theorem expression_move (hks : .leave ∈ ks) (expr : Value) (e : ScopeId) :
    Move ks s false (expression expr e ks s) := by
  unfold expression
  split
  · exact lookup_move e _
  · exact fail_move rfl
  · split
    · exact special_move hks _ _ _ e
    · exact .await _ _ e (Quiet.refl s) (by simp) hks
  · exact fail_move rfl
  · exact .value _ (Quiet.refl s)

/-- An operand pushes a frame if it is a list. -/
theorem operand_move (expr : Value) (e : ScopeId) :
    Move ks s (operandAsks expr) (operand expr e ks s) := by
  cases expr with
  | list source items => exact enter_move [] _ e
  | scalar source content =>
    cases content with
    | symbol name => exact lookup_move e name
    | _ => exact .value _ (Quiet.refl s)
  | _ => exact .value _ (Quiet.refl s)

/-- What a value is waited for decides whether a frame is pushed, as `asksFrame` says beforehand. -/
theorem resume_move {k : Kont} (hk : k ≠ .leave) (hks : .leave ∈ ks) (v : Value) :
    Move ks s (asksFrame { focus := .value v, konts := k :: ks, state := s })
      (resume k v ks s) := by
  cases k with
  | leave => exact absurd rfl hk
  | callee head args e =>
    have h := arguments_move (s := s) hks v (head.symbolName?.getD anonymous) [] args e
    cases args <;> exact h
  | argument f name done ahead e =>
    have h := arguments_move (s := s) hks f name (v :: done) ahead e
    cases ahead <;> exact h
  | define name e => exact .value v (quiet_bind s e name v)
  | binding site name ahead body e =>
    exact (bindings_move hks site ahead body e).of_quiet (quiet_bind s e name v)
  | sequence ahead e => exact sequence_move hks ahead e
  | branch yes no e =>
    simp only [resume]
    split
    · exact .proceed yes e (Quiet.refl s) hks
    · cases no with
      | some no => exact .proceed no e (Quiet.refl s) hks
      | none => exact .value .nil (Quiet.refl s)
  | evaluate e => exact .proceed v _ (Quiet.refl s) hks
  | update c => exact .value _ (quiet_store s c v)

end Moves

end Machine

end TinyLisp
