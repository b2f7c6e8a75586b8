import TinyLisp.Proofs.Moves

/-!
# The call stack is restored

Among the continuations of an evaluation there is one `Kont.leave` for each frame that the
evaluation has pushed (`Carries`), and every other continuation waits inside one of these frames.
So the frame that a function in tail position takes over is never one of those that were there when
the evaluation began, and there always is a frame to be left.

* `balanced_step`: every step keeps this invariant.
* `Entry`: the three ways into the evaluator, and what they pass through (`Entry.Visits`).
* `stack_restored`: an evaluation that comes to an end leaves the call stack as it found it.
-/

namespace TinyLisp

/-! ## Frames pushed and left -/

/-- The frames are those of `base` with one more for each `Kont.leave`, and every other
continuation waits above a `Kont.leave`. -/
inductive Carries (base : List CallFrame) : List Kont → List CallFrame → Prop where
  | bottom : Carries base [] base
  | frame {ks : List Kont} {fs : List CallFrame} (f : CallFrame) (h : Carries base ks fs) :
      Carries base (.leave :: ks) (f :: fs)
  | wait {k : Kont} {ks : List Kont} {fs : List CallFrame} (hk : k ≠ .leave) (hks : .leave ∈ ks)
      (h : Carries base ks fs) : Carries base (k :: ks) fs

namespace Carries

variable {base fs : List CallFrame} {ks : List Kont} {k : Kont}

theorem of_nil (h : Carries base [] fs) : fs = base := by
  cases h
  rfl

/-- Under a continuation that leaves a frame there is the frame. -/
theorem of_leave (h : Carries base (.leave :: ks) fs) :
    ∃ f gs, fs = f :: gs ∧ Carries base ks gs := by
  cases h with
  | frame f h => exact ⟨f, _, rfl, h⟩
  | wait hk => exact absurd rfl hk

/-- A continuation that waits for a value stands above one that leaves a frame. -/
theorem of_wait (h : Carries base (k :: ks) fs) (hk : k ≠ .leave) :
    .leave ∈ ks ∧ Carries base ks fs := by
  cases h with
  | frame => exact absurd rfl hk
  | wait _ hks h => exact ⟨hks, h⟩

/-- Above a `Kont.leave` the innermost frame is not one of `base`, so it may be any other. -/
theorem replace_top (h : Carries base ks fs) (hks : .leave ∈ ks) :
    ∃ f gs, fs = f :: gs ∧ ∀ f', Carries base ks (f' :: gs) := by
  -- down the continuations to the first that leaves a frame
  induction h with
  | bottom => simp at hks
  | frame f h => exact ⟨f, _, rfl, fun f' => .frame f' h⟩
  | wait hk hks' _ ih =>
    obtain ⟨f, gs, rfl, hrep⟩ := ih hks'
    exact ⟨f, gs, rfl, fun f' => .wait hk hks' (hrep f')⟩

/-- Continuations that are no `Kont.leave` wait above one. -/
theorem prepend {pre : List Kont} (h : Carries base (.leave :: ks) fs)
    (hpre : ∀ k ∈ pre, k ≠ .leave) : Carries base (pre ++ .leave :: ks) fs := by
  induction pre with
  | nil => exact h
  | cons k pre ih =>
    have hk : k ≠ .leave := hpre k List.mem_cons_self
    exact .wait hk (by simp) (ih fun k' hk' => hpre k' (List.mem_cons_of_mem k hk'))

end Carries

namespace Machine

variable {base : CallStack} {m m' : Machine}

/-- The call stack of an evaluation that began with the stack `base`. -/
structure Balanced (base : CallStack) (m : Machine) : Prop where
  frames : Carries base.frames m.konts m.state.stack.frames
  limit : m.state.stack.limit = base.limit
  inFrame : ∀ expr e, m.focus = .expression expr e → .leave ∈ m.konts

/-- Whatever is in tail position, now or later, is inside a frame that the machine pushed. -/
structure Framed (m : Machine) : Prop where
  focus : ∀ expr e, m.focus = .expression expr e → .leave ∈ m.konts
  konts : ∀ k ks, m.konts = k :: ks → k ≠ .leave → .leave ∈ ks

theorem Balanced.framed (hm : Balanced base m) : Framed m where
  focus := hm.inFrame
  konts _ _ h hk := ((h ▸ hm.frames).of_wait hk).1

/-- What stands on top of a continuation that leaves a frame has that frame. -/
theorem framed_atop (m : Machine) : Framed (m.atop [.leave]) where
  focus _ _ _ := by simp [atop]
  konts k ks h hk := by
    cases hm : m.konts with
    | nil =>
      obtain ⟨rfl, -⟩ : .leave = k ∧ [] = ks := by simpa [atop, hm] using h
      exact absurd rfl hk
    | cons k' ks' =>
      obtain ⟨-, rfl⟩ : k' = k ∧ ks' ++ [.leave] = ks := by simpa [atop, hm] using h
      simp

/-! ## Steps -/

/-- What a step of a framed machine can be. -/
inductive Advance : Machine → Machine → Prop where
  /-- Leaves a frame with a value. -/
  | leaveValue (v : Value) (ks : List Kont) (s : State) :
      Advance { focus := .value v, konts := .leave :: ks, state := s }
        { focus := .value v, konts := ks, state := { s with stack := s.stack.drop } }
  /-- Leaves a frame with a failure. -/
  | leaveFailure (f : Failure) (ks : List Kont) (s : State) :
      Advance { focus := .failure f, konts := .leave :: ks, state := s }
        { focus := .failure (f.attach s.stack), konts := ks
          state := { s with stack := s.stack.drop } }
  /-- Drops a continuation for a failure. -/
  | unwind (f : Failure) (k : Kont) (ks : List Kont) (s : State) (hk : k ≠ .leave) :
      Advance { focus := .failure f, konts := k :: ks, state := s }
        { focus := .failure f, konts := ks, state := s }
  /-- Hands a value to a continuation. -/
  | resume (v : Value) (k : Kont) (ks : List Kont) (s : State) {m' : Machine} (hk : k ≠ .leave)
      (h : Move ks s (asksFrame { focus := .value v, konts := k :: ks, state := s }) m') :
      Advance { focus := .value v, konts := k :: ks, state := s } m'
  /-- Begins to evaluate what is in focus. -/
  | begin (focus : Focus) (ks : List Kont) (s : State) {m' : Machine}
      (hv : ∀ v, focus ≠ .value v) (hf : ∀ f, focus ≠ .failure f)
      (h : Move ks s (asksFrame { focus, konts := ks, state := s }) m') :
      Advance { focus, konts := ks, state := s } m'

/-- A step of a machine that has a frame is a move, or drops a continuation. -/
theorem advance_of_step (hm : Framed m) (h : m.step = .next m') : Advance m m' := by
  obtain ⟨focus, ks, s⟩ := m
  cases focus with
  | expression expr e =>
    obtain rfl := Step.next.inj h
    exact .begin _ ks s nofun nofun (expression_move (hm.focus expr e rfl) expr e)
  | operand expr e =>
    obtain rfl := Step.next.inj h
    exact .begin _ ks s nofun nofun (operand_move expr e)
  | application f args =>
    obtain rfl := Step.next.inj h
    exact .begin _ ks s nofun nofun (apply_move f args)
  | value v =>
    cases ks with
    | nil => cases h
    | cons k ks =>
      obtain rfl := Step.next.inj h
      by_cases hk : k = .leave
      · subst hk
        exact .leaveValue v ks s
      · exact .resume v k ks s hk (resume_move hk (hm.konts k ks rfl hk) v)
  | failure f =>
    cases ks with
    | nil => cases h
    | cons k ks =>
      obtain rfl := Step.next.inj h
      by_cases hk : k = .leave
      · subst hk
        exact .leaveFailure f ks s
      · rw [unwind_of_ne_leave hk]
        exact .unwind f k ks s hk

/-- Moves keep the setup. -/
theorem Move.setup_eq {ks : List Kont} {s : State} {asks : Bool} (h : Move ks s asks m') :
    m'.state.setup = s.setup := by
  cases h with
  | value _ hs => exact hs.2
  | failure _ hs => exact hs.2
  | proceed _ _ hs => exact hs.2
  | await _ _ _ hs => exact hs.2
  | tailCall _ _ _ _ hsetup => exact hsetup
  | push _ _ _ _ _ hsetup => exact hsetup
  | overflow _ hs => exact hs.2

/-- A move adds a frame if one was to be pushed and there was room for it. -/
theorem Move.height_eq {ks : List Kont} {s : State} {asks : Bool} (h : Move ks s asks m') :
    m'.state.stack.height =
      if asks && !s.stack.isFull then s.stack.height + 1 else s.stack.height := by
  cases h with
  | value _ hs => exact congrArg _ hs.1
  | failure _ hs => exact congrArg _ hs.1
  | proceed _ _ hs => exact congrArg _ hs.1
  | await _ _ _ hs => exact congrArg _ hs.1
  | tailCall name _ _ hstack =>
    rw [hstack, CallStack.tailCall_height]
    rfl
  | push _ _ _ _ hstack =>
    rw [CallStack.push_height hstack, (CallStack.push_eq_some hstack).2.2]
    rfl
  | overflow hfull hs =>
    rw [hfull]
    exact congrArg _ hs.1

/-- No step changes how the interpreter was set up. -/
theorem setup_step (h : m.step = .next m') : m'.state.setup = m.state.setup := by
  -- the same step inside a frame
  have hadv := advance_of_step (framed_atop m) (step_atop [.leave] h)
  generalize hm : m.atop [.leave] = m₁ at hadv
  generalize hm' : m'.atop [.leave] = m₁' at hadv
  have hs : m₁.state = m.state := hm ▸ rfl
  have hs' : m₁'.state = m'.state := hm' ▸ rfl
  rw [← hs, ← hs']
  cases hadv with
  | leaveValue => rfl
  | leaveFailure => rfl
  | unwind => rfl
  | resume _ _ _ _ _ hmove => exact hmove.setup_eq
  | begin _ _ _ _ _ hmove => exact hmove.setup_eq

theorem balanced_of_leave {ks : List Kont} {focus focus' : Focus} {s : State}
    (hm : Balanced base { focus, konts := .leave :: ks, state := s })
    (hfocus : ∀ expr e, focus' ≠ .expression expr e) :
    Balanced base { focus := focus', konts := ks, state := { s with stack := s.stack.drop } } := by
  obtain ⟨f, gs, hfs, hc⟩ := hm.frames.of_leave
  refine ⟨?_, hm.limit, fun expr e h => absurd h (hfocus expr e)⟩
  have htail : s.stack.drop.frames = gs := congrArg List.tail hfs
  exact htail ▸ hc

/-- A move keeps the balance: whatever pushes a frame waits to leave it. -/
theorem balanced_of_move {ks : List Kont} {s : State} {asks : Bool}
    (hc : Carries base.frames ks s.stack.frames) (hl : s.stack.limit = base.limit)
    (h : Move ks s asks m') : Balanced base m' := by
  cases h with
  | value v hs => exact ⟨hs.1 ▸ hc, hs.1 ▸ hl, nofun⟩
  | failure f hs => exact ⟨hs.1 ▸ hc, hs.1 ▸ hl, nofun⟩
  | proceed expr e hs hks => exact ⟨hs.1 ▸ hc, hs.1 ▸ hl, fun _ _ _ => hks⟩
  | await k expr e hs hk hks => exact ⟨.wait hk hks (hs.1 ▸ hc), hs.1 ▸ hl, nofun⟩
  | tailCall name body e hstack _ hks =>
    -- the frame that is taken over is one that this evaluation pushed
    obtain ⟨f, gs, hfs, hrep⟩ := hc.replace_top hks
    refine ⟨?_, ?_, fun _ _ _ => hks⟩
    · rw [hstack, CallStack.tailCall_frames hfs]
      exact hrep _
    · rw [hstack, CallStack.tailCall_limit]
      exact hl
  | push focus pre name builtin hstack _ hpre _ =>
    obtain ⟨hfs, hlim, -⟩ := CallStack.push_eq_some hstack
    refine ⟨?_, hlim.trans hl, fun _ _ _ => by simp⟩
    have hframe : Carries base.frames (.leave :: ks) ({ name, builtin } :: s.stack.frames) :=
      .frame _ hc
    exact hfs ▸ hframe.prepend hpre
  | overflow _ hs => exact ⟨hs.1 ▸ hc, hs.1 ▸ hl, nofun⟩

/-- **Every step keeps the call stack balanced.** -/
theorem balanced_step (hm : Balanced base m) (h : m.step = .next m') : Balanced base m' := by
  cases advance_of_step hm.framed h with
  | leaveValue v ks s => exact balanced_of_leave hm nofun
  | leaveFailure f ks s => exact balanced_of_leave hm nofun
  | unwind f k ks s hk => exact ⟨(hm.frames.of_wait hk).2, hm.limit, nofun⟩
  | resume v k ks s hk hmove => exact balanced_of_move (hm.frames.of_wait hk).2 hm.limit hmove
  | begin focus ks s _ _ hmove => exact balanced_of_move hm.frames hm.limit hmove

/-- Balance is kept along runs. -/
theorem Balanced.reaches (hm : Balanced base m) (h : Reaches m m') : Balanced base m' :=
  h.preserves (fun _ _ => balanced_step) hm

/-- Where the evaluation ends, the stack is the one it began with. -/
theorem Balanced.stack_eq {o : Outcome} (hm : Balanced base m) (h : Halts m o) :
    o.state.stack = base := by
  -- no continuation is left, so no frame of this evaluation is
  have hend := hm.reaches (halts_iff_reaches.1 h)
  exact CallStack.eq_of_frames hend.frames.of_nil hend.limit

end Machine

/-! ## Ways in -/

/-- A way into the evaluator. -/
inductive Entry where
  /-- Evaluate an expression. -/
  | eval (e : ScopeId) (expr : Value)
  /-- Apply a function to arguments. -/
  | apply (function : Value) (args : List Value)
  /-- Evaluate every form of a source. -/
  | load (e : ScopeId) (file bytes : Text) (failure : Option Text)

/-- What comes of it. -/
def Entry.run (fuel : Nat) (s : State) : Entry → Option Outcome
  | .eval e expr => s.eval fuel e expr
  | .apply function args => s.apply fuel function args
  | .load e file bytes failure => s.load fuel e file bytes failure

/-- The state in which the forms of a source are evaluated. -/
def State.loaded (s : State) (file : Text) (forms : List Value) : State :=
  s.debug "source loaded" [("source", .text file), ("forms", .number forms.length)]

open Machine

/-- The evaluation of some forms in order comes to `form` in the state `t`. -/
inductive BeginsForm (e : ScopeId) (form : Value) (t : State) : State → List Value → Prop where
  | here {forms : List Value} : BeginsForm e form t t (form :: forms)
  | later {s s' : State} {first v : Value} {forms : List Value} {fuel : Nat}
      (h : s.eval fuel e first = some { result := .ok v, state := s' })
      (h' : BeginsForm e form t s' forms) : BeginsForm e form t s (first :: forms)

/-- The evaluation begins with the expression, or comes to it as the next form, in the state `t`. -/
inductive Entry.Begins (s : State) : Entry → ScopeId → Value → State → Prop where
  | eval {e : ScopeId} {expr : Value} : Begins s (.eval e expr) e expr s
  | load {e : ScopeId} {file bytes : Text} {failure : Option Text} {forms : List Value}
      {form : Value} {t : State} (hr : s.reads = true) (hf : readAll file bytes failure = .ok forms)
      (h : BeginsForm e form t (s.loaded file forms) forms) :
      Begins s (.load e file bytes failure) e form t

/-- The evaluation passes through the machine, whether it comes to an end or not. -/
inductive Entry.Visits (s : State) (m : Machine) : Entry → Prop where
  | inside {entry : Entry} {e : ScopeId} {expr : Value} {t : State}
      (hb : entry.Begins s e expr t) (h : Reaches (enter [] expr e [] t) m) : Visits s m entry
  | apply {f : Value} {args : List Value}
      (h : Reaches { focus := .application f args, konts := [], state := s } m) :
      Visits s m (.apply f args)

/-- Whether the next step leaves a frame. -/
def Machine.leavesFrame (m : Machine) : Bool :=
  match m.focus, m.konts with
  | .value _, .leave :: _ => true
  | .failure _, .leave :: _ => true
  | _, _ => false

variable {s : State} {m : Machine} {out : Outcome} {fuel : Nat} {e : ScopeId}

theorem balanced_enter (name : Text) (expr : Value) (e : ScopeId) (s : State) :
    Balanced s.stack (enter name expr e [] s) :=
  balanced_of_move .bottom rfl (enter_move name expr e)

theorem balanced_application (f : Value) (args : List Value) (s : State) :
    Balanced s.stack { focus := .application f args, konts := [], state := s } :=
  ⟨.bottom, rfl, nofun⟩

theorem Outcome.reported_stack (o : Outcome) : o.reported.state.stack = o.state.stack := by
  unfold Outcome.reported
  split
  · rfl
  · exact (State.quiet_debug _ _ _).1

/-- Evaluation leaves the stack as it found it. -/
theorem eval_stack {expr : Value} (h : s.eval fuel e expr = some out) :
    out.state.stack = s.stack := by
  rw [State.eval_eq] at h
  obtain ⟨o, ho, rfl⟩ := Option.map_eq_some_iff.1 h
  rw [o.reported_stack]
  exact (balanced_enter [] expr e s).stack_eq ⟨fuel, ho⟩

theorem apply_stack {f : Value} {args : List Value} (h : s.apply fuel f args = some out) :
    out.state.stack = s.stack :=
  (balanced_application f args s).stack_eq ⟨fuel, h⟩

theorem evalAll_stack {last : Value} {forms : List Value}
    (h : s.evalAll fuel e last forms = some out) : out.state.stack = s.stack := by
  induction forms generalizing s last with
  | nil =>
    obtain rfl := Option.some.inj h
    rfl
  | cons form forms ih =>
    unfold State.evalAll at h
    split at h
    · rename_i v s' hev
      exact (ih h).trans (eval_stack hev)
    · exact eval_stack h

/-- Loading a source leaves the stack as it found it. -/
theorem load_stack {file bytes : Text} {failure : Option Text}
    (h : s.load fuel e file bytes failure = some out) : out.state.stack = s.stack := by
  unfold State.load at h
  split at h
  · obtain rfl := Option.some.inj h
    rfl
  · split at h
    · obtain rfl := Option.some.inj h
      rfl
    · rename_i forms _
      exact (evalAll_stack h).trans (s.quiet_debug _ _).1

theorem BeginsForm.stack {form : Value} {t : State} {forms : List Value}
    (h : BeginsForm e form t s forms) : t.stack = s.stack := by
  induction h with
  | here => rfl
  | later h _ ih => exact ih.trans (eval_stack h)

theorem Entry.Begins.stack {entry : Entry} {expr : Value} {t : State}
    (h : entry.Begins s e expr t) : t.stack = s.stack := by
  cases h with
  | eval => rfl
  | load _ _ h => exact h.stack.trans (s.quiet_debug _ _).1

/-- **Evaluation is balanced wherever it gets to**, relative to the stack it began with. -/
theorem Entry.Visits.balanced {entry : Entry} (h : entry.Visits s m) : Balanced s.stack m := by
  cases h with
  | inside hb h => exact hb.stack ▸ (balanced_enter [] _ _ _).reaches h
  | apply h => exact (balanced_application _ _ s).reaches h

/-- A frame is left with a value or with a failure. -/
theorem Machine.leavesFrame_iff :
    m.leavesFrame = true ↔ ∃ ks, m.konts = .leave :: ks ∧
      ((∃ v, m.focus = .value v) ∨ ∃ f, m.focus = .failure f) := by
  obtain ⟨focus, ks, s⟩ := m
  unfold leavesFrame
  split
  · rename_i v ks' hfocus hks
    exact ⟨fun _ => ⟨ks', hks, .inl ⟨v, hfocus⟩⟩, fun _ => rfl⟩
  · rename_i f ks' hfocus hks
    exact ⟨fun _ => ⟨ks', hks, .inr ⟨f, hfocus⟩⟩, fun _ => rfl⟩
  · rename_i hvalue hfailure
    refine ⟨nofun, ?_⟩
    rintro ⟨ks', hks, ⟨v, hv⟩ | ⟨f, hf⟩⟩
    · exact absurd hks (hvalue v ks' hv)
    · exact absurd hks (hfailure f ks' hf)

/-- A step that leaves a frame pops one that is there. -/
theorem Machine.Balanced.pop_eq {base : CallStack} {m' : Machine} (hm : Balanced base m)
    (hleave : m.leavesFrame = true) (h : m.step = .next m') :
    ∃ frame, m.state.stack.pop = some (frame, m'.state.stack) := by
  obtain ⟨focus, ks, s⟩ := m
  obtain ⟨ks, rfl, hfocus⟩ := leavesFrame_iff.1 hleave
  obtain ⟨f, gs, hfs, -⟩ := hm.frames.of_leave
  have hpop : s.stack.pop = some (f, s.stack.drop) := by
    simp only at hfs
    simp only [CallStack.pop, hfs]
  rcases hfocus with ⟨v, rfl⟩ | ⟨f', rfl⟩
  · obtain rfl := Step.next.inj h
    exact ⟨f, hpop⟩
  · obtain rfl := Step.next.inj h
    exact ⟨f, hpop⟩

/-- No other step removes a frame, and `asksFrame` tells which steps push one. -/
theorem Machine.Balanced.height_eq {base : CallStack} {m' : Machine} (hm : Balanced base m)
    (hleave : m.leavesFrame = false) (h : m.step = .next m') :
    m'.state.stack.height =
      if m.asksFrame && !m.state.stack.isFull then m.state.stack.height + 1
      else m.state.stack.height := by
  cases advance_of_step hm.framed h with
  | leaveValue => cases hleave
  | leaveFailure => cases hleave
  | unwind => rfl
  | resume _ _ _ _ _ hmove => exact hmove.height_eq
  | begin _ _ _ _ _ hmove => exact hmove.height_eq

/-- **An evaluation that comes to an end leaves the call stack as it found it**, whatever it came
to. On the way every frame that is left is there to be popped, and no step removes a frame
otherwise. -/
theorem stack_restored (s : State) (entry : Entry) :
    (∀ fuel out, entry.run fuel s = some out → out.state.stack = s.stack) ∧
      ∀ m m', entry.Visits s m → m.step = .next m' →
        if m.leavesFrame then ∃ frame, m.state.stack.pop = some (frame, m'.state.stack)
        else m.state.stack.height ≤ m'.state.stack.height := by
  constructor
  · intro fuel out h
    cases entry with
    | eval e expr => exact eval_stack h
    | apply f args => exact apply_stack h
    | load e file bytes failure => exact load_stack h
  · intro m m' hm hstep
    split
    · rename_i hleave
      exact hm.balanced.pop_eq hleave hstep
    · rename_i hleave
      rw [hm.balanced.height_eq (by simpa using hleave) hstep]
      split <;> omega

end TinyLisp
