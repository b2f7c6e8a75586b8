import TinyLisp.Proofs.Moves

/-!
# What a program sees of the state

Two states that differ in their call stacks, logs and debugging output are the same to a program
(`State.core`), and stay the same whatever is done to both. The one exception is `debug-stack`: it
writes the call stack line by line and fails if the lines are not taken (`State.report`).

* `Sees`: what an evaluation by recursion sees of a machine's state.
* `Builtin.run_sees`: a built-in function does the same to both, unless it is `debug-stack`.
-/

namespace TinyLisp

/-! ## Output -/

/-- The text that an effect adds to the program's output. -/
def Effect.output : Effect → Text
  | .wrote .program .stdout text => text
  | _ => []

/-- What the program has written to its output. -/
def State.output (s : State) : Text := s.effects.reverse.flatMap Effect.output

/-- An effect comes after the output so far. -/
theorem State.output_note (s : State) (effect : Effect) :
    (s.note effect).output = s.output ++ effect.output := by
  simp [State.output, State.note]

/-- What a program can see and change. -/
structure Core where
  scopes : Scopes
  cells : Array Value
  closures : Nat
  output : Text
  stdout : Sink
  reads : Bool
  lenient : Bool
  hosts : Array Host
  files : Files

namespace State

/-- What a program can see and change of a state. -/
def core (s : State) : Core :=
  { scopes := s.scopes, cells := s.cells, closures := s.closures, output := s.output
    stdout := s.stdout, reads := s.reads, lenient := s.lenient, hosts := s.hosts, files := s.files }

/-- Noting an effect adds its output. -/
theorem core_note (s : State) (effect : Effect) :
    (s.note effect).core = { s.core with output := s.output ++ effect.output } :=
  congrArg (fun output => { s.core with output }) (s.output_note effect)

theorem core_note_of_output (s : State) {effect : Effect} (h : effect.output = []) :
    (s.note effect).core = s.core := by
  rw [core_note, h, List.append_nil]
  rfl

/-- Log records are no part of what both evaluators share. -/
@[simp] theorem core_debug (s : State) (message : Text) (fields : List (Text × Log.Field)) :
    (s.debug message fields).core = s.core := by
  unfold debug logRecord
  split
  · exact core_note_of_output s rfl
  · rfl

/-- The printed call stack is no part of what both evaluators share. -/
@[simp] theorem core_printStack (s : State) : s.printStack.2.core = s.core := by
  -- debugging output is no output
  have houtput : s.printStack.2.output = s.output := by
    rw [s.printStack_eq]
    simp [output, List.flatMap_append, List.flatMap_map, Effect.output]
  rw [s.printStack_eq] at houtput ⊢
  exact congrArg (fun output => { s.core with output }) houtput

end State

/-! ## Writing the call stack -/

namespace Sink

theorem writeAll_of_unlimited {d : Sink} (h : d.accepts = none) (pieces : List Text) :
    d.writeAll pieces = (pieces, d) := by
  induction pieces with
  | nil => rfl
  | cons piece pieces ih => simp [writeAll, write?, h, ih]

/-- An output takes as many pieces as it accepts. -/
theorem writeAll_of_enough (n : Nat) (pieces : List Text) :
    writeAll { accepts := some (n + pieces.length) } pieces = (pieces, { accepts := some n }) := by
  induction pieces with
  | nil => rfl
  | cons piece pieces ih =>
    rw [List.length_cons, ← Nat.add_assoc]
    simp [writeAll, write?, ih]

end Sink

namespace State

/-- What `debug-stack` answers, and the state behind it. -/
def report (s : State) : Except Fault Value × State :=
  (if s.printStack.1 then .ok .nil else .error (.plain Sink.failure), s.printStack.2)

/-- The call stack was printed if all of its lines were taken. -/
theorem printStack_fst (s : State) {written : List Text} {stderr : Sink}
    (h : s.stack.printTo s.stderr = (written, stderr)) :
    s.printStack.1 = decide (written.length = s.stack.height + 1) := by
  rw [s.printStack_eq, h]

theorem printStack_stderr (s : State) : s.printStack.2.stderr = (s.stack.printTo s.stderr).2 := by
  rw [s.printStack_eq]

/-- All of the call stack is written. -/
theorem report_of_written {s : State} {stderr : Sink}
    (h : s.stack.printTo s.stderr = (s.stack.lines.map (· ++ [10]), stderr)) :
    s.report.1 = .ok .nil ∧ s.report.2.stderr = stderr := by
  have hdone : s.printStack.1 = true := by
    rw [s.printStack_fst h, List.length_map, s.stack.length_lines]
    simp
  refine ⟨by simp [report, hdone], ?_⟩
  rw [report, s.printStack_stderr, h]

/-- None of the call stack is written. -/
theorem report_of_spent {s : State} (h : s.stderr = { accepts := some 0 }) :
    s.report.1 = .error (.plain Sink.failure) ∧ s.report.2.stderr = { accepts := some 0 } := by
  have hprint : s.stack.printTo s.stderr = ([], { accepts := some 0 }) := by
    rw [h]
    rfl
  refine ⟨?_, ?_⟩
  · simp [report, s.printStack_fst hprint]
  · rw [report, s.printStack_stderr, hprint]

end State

/-! ## Agreement -/

/-- The state `t` is the state `s` to a program; its call stack is `base`, whatever that of `s` is,
and its debugging output goes to `d`. -/
structure Sees (base : CallStack) (d : Sink) (s t : State) : Prop where
  core : t.core = s.core
  stderr : t.stderr = d
  stack : t.stack = base

namespace Sees

variable {base : CallStack} {d : Sink} {s t : State}

/-- The machine's own call stack does not matter. -/
theorem withStack (h : Sees base d s t) (stack : CallStack) : Sees base d { s with stack } t :=
  ⟨h.core, h.stderr, h.stack⟩

theorem scopes_eq (h : Sees base d s t) : t.scopes = s.scopes := congrArg Core.scopes h.core

theorem cells_eq (h : Sees base d s t) : t.cells = s.cells := congrArg Core.cells h.core

theorem lenient_eq (h : Sees base d s t) : t.lenient = s.lenient := congrArg Core.lenient h.core

/-- Names mean the same to both. -/
theorem lookup_eq (h : Sees base d s t) (e : ScopeId) (name : Text) :
    t.lookup e name = s.lookup e name := by
  simp only [State.lookup, h.scopes_eq]

/-- Cells hold the same for both. -/
theorem contents_eq (h : Sees base d s t) (c : CellId) : t.contents c = s.contents c := by
  simp only [State.contents, h.cells_eq]

/-- Binding a name keeps the states together. -/
theorem bind (h : Sees base d s t) (e : ScopeId) (name : Text) (v : Value) :
    Sees base d (s.bind e name v) (t.bind e name v) :=
  ⟨congrArg (fun c : Core => { c with scopes := c.scopes.put e name v }) h.core, h.stderr, h.stack⟩

theorem bindAll (h : Sees base d s t) (e : ScopeId) (names : List Text) (vs : List Value) :
    Sees base d (s.bindAll e names vs) (t.bindAll e names vs) := by
  induction names generalizing s t vs with
  | nil => exact h
  | cons name names ih =>
    cases vs with
    | nil => exact h
    | cons v vs => exact ih (h.bind e name v) vs

theorem newScope (h : Sees base d s t) (e : ScopeId) :
    (t.newScope e).1 = (s.newScope e).1 ∧ Sees base d (s.newScope e).2 (t.newScope e).2 :=
  ⟨congrArg Array.size h.scopes_eq,
    congrArg (fun c : Core => { c with scopes := (c.scopes.child e).2 }) h.core, h.stderr, h.stack⟩

/-- Both bind the parameters of a closure in a scope with the same number. -/
theorem callScope (h : Sees base d s t) (formals : List Text) (e : ScopeId) (args : List Value) :
    (Machine.callScope formals e args t).1 = (Machine.callScope formals e args s).1 ∧
      Sees base d (Machine.callScope formals e args s).2
        (Machine.callScope formals e args t).2 := by
  obtain ⟨hchild, h'⟩ := h.newScope e
  have ht : (Machine.callScope formals e args t).2 =
      (t.newScope e).2.bindAll (s.newScope e).1 formals args := by
    rw [← hchild]
    rfl
  exact ⟨hchild, ht ▸ h'.bindAll (s.newScope e).1 formals args⟩

/-- Both give a closure the same number. -/
theorem newClosure (h : Sees base d s t) (formals : List Text) (body : Value) (e : ScopeId) :
    (t.newClosure formals body e).1 = (s.newClosure formals body e).1 ∧
      Sees base d (s.newClosure formals body e).2 (t.newClosure formals body e).2 :=
  ⟨congrArg (fun c : Core => Value.closure c.closures formals body e) h.core,
    congrArg (fun c : Core => { c with closures := c.closures + 1 }) h.core, h.stderr, h.stack⟩

/-- Both give a cell the same number. -/
theorem newAtom (h : Sees base d s t) (v : Value) :
    (t.newAtom v).1 = (s.newAtom v).1 ∧ Sees base d (s.newAtom v).2 (t.newAtom v).2 :=
  ⟨congrArg (fun c : Core => Value.atom c.cells.size) h.core,
    congrArg (fun c : Core => { c with cells := c.cells.push v }) h.core, h.stderr, h.stack⟩

theorem store (h : Sees base d s t) (c : CellId) (v : Value) :
    Sees base d (s.store c v) (t.store c v) :=
  ⟨congrArg (fun k : Core => { k with cells := k.cells.setIfInBounds c v }) h.core, h.stderr,
    h.stack⟩

theorem note (h : Sees base d s t) (effect : Effect) :
    Sees base d (s.note effect) (t.note effect) :=
  ⟨by
    rw [State.core_note, State.core_note]
    exact congrArg (fun c : Core => { c with output := c.output ++ effect.output }) h.core,
    h.stderr, h.stack⟩

theorem debug (h : Sees base d s t) (message message' : Text)
    (fields fields' : List (Text × Log.Field)) :
    Sees base d (s.debug message fields) (t.debug message' fields') := by
  refine ⟨?_, ?_, (State.quiet_debug t message' fields').1.trans h.stack⟩
  · rw [State.core_debug, State.core_debug, h.core]
  · rw [← h.stderr]
    unfold State.debug State.logRecord
    split <;> rfl

/-- Both read the same from a text. -/
theorem readForm_eq (h : Sees base d s t) (file bytes : Text) (failure : Option Text) :
    t.readForm file bytes failure = s.readForm file bytes failure := by
  have hreads : t.reads = s.reads := congrArg Core.reads h.core
  simp only [State.readForm, hreads]

/-- Either both write a text or neither does. -/
theorem print (h : Sees base d s t) (text : Text) :
    (s.print? text = none ∧ t.print? text = none) ∨
      ∃ s' t', s.print? text = some s' ∧ t.print? text = some t' ∧ Sees base d s' t' := by
  have hstdout : t.stdout = s.stdout := congrArg Core.stdout h.core
  simp only [State.print?, hstdout]
  cases s.stdout.write? with
  | none => exact .inl ⟨rfl, rfl⟩
  | some stdout =>
    have h' : Sees base d { s with stdout } { t with stdout } :=
      ⟨congrArg (fun c : Core => { c with stdout }) h.core, h.stderr, h.stack⟩
    exact .inr ⟨_, _, rfl, rfl, h'.note _⟩

/-- Both read the same files. -/
theorem slurpFile (h : Sees base d s t) (name path : Text) :
    (Primitive.slurpFile name path t).1 = (Primitive.slurpFile name path s).1 ∧
      Sees base d (Primitive.slurpFile name path s).2 (Primitive.slurpFile name path t).2 := by
  have hnote := h.note (.opened path)
  have hfiles : (t.note (.opened path)).files = (s.note (.opened path)).files :=
    congrArg Core.files hnote.core
  simp only [Primitive.slurpFile, hfiles]
  split
  · exact ⟨rfl, hnote.debug _ _ _ _⟩
  · exact ⟨rfl, hnote⟩

end Sees

/-! ## Built-in functions -/

variable {base : CallStack} {d : Sink} {s t : State}

/-- A function of the language other than `debug-stack` does the same to states that agree. -/
theorem Primitive.run_sees {p : Primitive} (hp : p ≠ .debugStack) (h : Sees base d s t)
    (name : Text) (args : List Value) :
    (p.run name args t).1 = (p.run name args s).1 ∧
      Sees base d (p.run name args s).2 (p.run name args t).2 := by
  unfold Primitive.run
  split <;> try exact ⟨rfl, h⟩
  · split
    · exact h.slurpFile name _
    · exact ⟨rfl, h⟩
  · split
    · exact ⟨congrArg Reply.ofExcept (h.readForm_eq name _ none), h⟩
    · exact ⟨rfl, h⟩
  · exact ⟨congrArg Reply.value (h.newAtom _).1, (h.newAtom _).2⟩
  · split
    · exact ⟨congrArg Reply.value (h.contents_eq _), h⟩
    · exact ⟨rfl, h⟩
  · split
    · exact ⟨rfl, h.store _ _⟩
    · exact ⟨rfl, h⟩
  · split
    · split <;> exact ⟨rfl, h⟩
    · exact ⟨rfl, h⟩
  · rename_i a
    have hprinted : t.printed a = s.printed a := congrArg (Value.render · a) h.cells_eq
    rw [hprinted]
    rcases h.print (s.printed a ++ [10]) with ⟨hs, ht⟩ | ⟨s', t', hs, ht, h'⟩
    · rw [hs, ht]
      exact ⟨rfl, h⟩
    · rw [hs, ht]
      exact ⟨rfl, h'⟩
  · exact absurd rfl hp
  · split <;> exact ⟨rfl, h⟩

/-- The function is `debug-stack`, called without arguments. -/
def Builtin.Reports (b : Builtin) (args : List Value) : Prop :=
  ∀ s, b.run args s = (.ofExcept s.report.1, s.report.2)

/-- A built-in function is either run or refused for its number of arguments, whatever the state. -/
theorem Builtin.run_eq (b : Builtin) (args : List Value) :
    (∀ s, b.run args s = b.runRoutine args s) ∨ ∃ fault, ∀ s, b.run args s = (.fault fault, s) := by
  unfold Builtin.run
  split
  · exact .inl fun _ => rfl
  · split
    · exact .inl fun _ => rfl
    · exact .inr ⟨_, fun _ => rfl⟩

/-- **A built-in function does the same to states that agree**, unless it is `debug-stack`. -/
theorem Builtin.run_sees (b : Builtin) (args : List Value) :
    b.Reports args ∨ ∀ {base d s t}, Sees base d s t →
      (b.run args t).1 = (b.run args s).1 ∧ Sees base d (b.run args s).2 (b.run args t).2 := by
  rcases b.run_eq args with hrun | ⟨fault, hrun⟩
  · cases hb : b.routine with
    | host slot =>
      refine .inr fun {base d s t} h => ?_
      have hhosts : t.hosts = s.hosts := congrArg Core.hosts h.core
      simp only [hrun, Builtin.runRoutine, hb, hhosts]
      split <;> exact ⟨rfl, h⟩
    | primitive p =>
      simp only [Builtin.Reports, hrun, Builtin.runRoutine, hb]
      by_cases hp : p = .debugStack
      · subst hp
        cases args with
        | nil =>
          refine .inl fun s => ?_
          simp only [Primitive.run, State.report]
          split <;> rfl
        | cons a args => exact .inr fun h => ⟨rfl, h⟩
      · exact .inr fun h => Primitive.run_sees hp h b.name args
  · refine .inr fun h => ?_
    simp only [hrun]
    exact ⟨trivial, h⟩

end TinyLisp
