import TinyLisp.Console

/-!
# What the console answers

The console writes one thing at most for a line: a value, a failure of the evaluation, or why the
line does not read. `Console.answer` says which, and keeps what is answered apart from writing it,
so that the answers of a session can be told from everything else that programs write and log.

* `Console.evaluated`: what is answered once a form has been read.
* `respond_eq`, `respondAll_eq`: the console gives the answers and does nothing else.
-/

namespace TinyLisp.Console

/-- What the console answers. -/
inductive Answer where
  /-- Nothing. -/
  | silence
  /-- The line does not read. -/
  | unread (message : Text)
  /-- The value of the form, as it is printed. -/
  | value (text : Text)
  /-- The evaluation of the form failed. -/
  | failure (message : Text)
  deriving DecidableEq, Repr

/-- The state after an answer was written. -/
def Answer.given (s : State) : Answer → State
  | .silence => s
  | .unread message => s.say .stderr (report message)
  | .value text => s.say .stdout (text ++ [10])
  | .failure message => s.say .stderr (report message)

/-- The line that reports a failure of the evaluation. -/
def Answer.failure? : Answer → Option Text
  | .failure message => some (report message)
  | _ => none

/-- What is to be answered once an evaluation has come to an end, and the state that it left. -/
def answered : Outcome → Answer × State
  | { result := .ok v, state } => (.value (state.printed v), state)
  | { result := .error f, state } => (.failure (state.message f.fault), state)

/-- Evaluates a form: what is to be answered, and the state that the evaluation left. -/
def evaluated (fuel : Nat) (s : State) (e : ScopeId) (form : Value) : Option (Answer × State) :=
  (s.eval fuel e form).map answered

/-- What is to be answered to a line, and the state before the answer is written. -/
def answer (fuel : Nat) (s : State) (e : ScopeId) (line : Text) : Option (Answer × State) :=
  if line.isBlank then some (.silence, s)
  else
    match readText line with
    | .error error => some (.unread error.message, s)
    | .ok form => evaluated fuel s e form

/-- The answers to lines in order, and the state after the last of them. -/
def session (fuel : Nat) (s : State) (e : ScopeId) : List Text → Option (List Answer × State)
  | [] => some ([], s)
  | line :: lines =>
    match answer fuel s e line with
    | some (a, s) => (session fuel (a.given s) e lines).map fun r => (a :: r.1, r.2)
    | none => none

/-- The reports of evaluations that failed, in order. -/
def failures (answers : List Answer) : List Text := answers.filterMap Answer.failure?

variable {fuel : Nat} {s : State} {e : ScopeId} {line : Text} {form : Value}

theorem answered_state (o : Outcome) : (answered o).2 = o.state := by
  obtain ⟨result, state⟩ := o
  cases result <;> rfl

/-- The answer is made of the result and of the cells. -/
theorem answered_congr {o o' : Outcome} (hresult : o'.result = o.result)
    (hcells : o'.state.cells = o.state.cells) : (answered o').1 = (answered o).1 := by
  obtain ⟨result, u⟩ := o
  obtain ⟨result', u'⟩ := o'
  dsimp only at hresult hcells
  subst hresult
  cases result' with
  | ok v => simp only [answered, State.printed, hcells]
  | error f => simp only [answered, State.message, hcells]

theorem answer_of_read (hblank : line.isBlank = false) (h : readText line = .ok form) :
    answer fuel s e line = evaluated fuel s e form := by
  rw [answer, hblank, h]
  rfl

/-- **The console writes its answer to a line, and does nothing else.** -/
theorem respond_eq (fuel : Nat) (s : State) (e : ScopeId) (line : Text) :
    respond fuel s e line = (answer fuel s e line).map fun r => r.1.given r.2 := by
  unfold respond answer
  split
  · rfl
  · cases readText line with
    | error error => rfl
    | ok form =>
      simp only [evaluated, Option.map_map]
      cases s.eval fuel e form with
      | none => rfl
      | some o =>
        obtain ⟨result, state⟩ := o
        cases result <;> rfl

/-- A session of the console is that of its answers. -/
theorem respondAll_eq (fuel : Nat) (s : State) (e : ScopeId) (lines : List Text) :
    respondAll fuel s e lines = (session fuel s e lines).map (·.2) := by
  induction lines generalizing s with
  | nil => rfl
  | cons line lines ih =>
    rw [respondAll, session, respond_eq]
    cases answer fuel s e line with
    | none => rfl
    | some r => simp [ih, Function.comp_def]

end TinyLisp.Console
