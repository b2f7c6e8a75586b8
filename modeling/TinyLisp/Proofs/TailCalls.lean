import TinyLisp.Proofs.Balance

/-!
# Tail calls share one frame

The evaluation of an expression in a frame of its own goes from expression to expression: a closure
called in tail position hands it the closure's body, and a special form the expression that stands
in tail position of the form. Each such step is a `Bounce`, and `FrameRun` keeps a record of them.
However many there were, the call stack at each of these expressions is that of the caller with one
frame on top, and what that frame says of itself follows from the record.

* `InFrame`: between two expressions the machine is in an evaluation nested in the frame, and that
  one restores the stack.
* `InFrame.step`: what one step does to the frame.
* `tail_calls_share_frame`: the frame at each expression of the run.
-/

namespace TinyLisp

/-- A step from one expression to the next in the same frame. -/
inductive Bounce where
  /-- A closure that is called by this name takes over the frame. -/
  | call (name : Text)
  /-- A special form goes on with an expression in tail position. -/
  | form
  deriving DecidableEq, Repr

namespace Bounce

/-- The name that a closure is called by. -/
def callee? : Bounce → Option Text
  | .call name => some name
  | .form => none

/-- What the step does to the call stack. -/
def after : Bounce → CallStack → CallStack
  | .call name, stack => stack.tailCall name
  | .form, stack => stack

end Bounce

namespace Machine

/-- What a closure is called by; a call of anything else does not stay in the frame. -/
def calledBy? (name : Text) : Value → Option Text
  | .closure .. => some name
  | _ => none

/-- The name of the closure that the next step calls in tail position, if it calls one: the symbol
at the head of the call, or `anonymous`. -/
def tailCallee? (m : Machine) : Option Text :=
  match m.konts, m.focus with
  | .callee head [] _ :: _, .value f => calledBy? (head.symbolName?.getD anonymous) f
  | .argument f name _ [] _ :: _, .value _ => calledBy? name f
  | _, _ => none

/-- The next step as one from an expression to the next. -/
def bounce (m : Machine) : Bounce :=
  match m.tailCallee? with
  | some name => .call name
  | none => .form

/-- The machine is at an expression in the frame above the continuations `ks`. -/
def Iterates (ks : List Kont) (m : Machine) : Prop :=
  ∃ expr e, m.focus = .expression expr e ∧ m.konts = .leave :: ks

/-- The run of a frame above the continuations `ks`, from where the frame is entered to where it is
left, with the bounces so far, newest first. -/
inductive FrameRun (ks : List Kont) (m₀ : Machine) : List Bounce → Machine → Prop where
  | start : FrameRun ks m₀ [] m₀
  | inner {bounces : List Bounce} {m m' : Machine} (h : FrameRun ks m₀ bounces m)
      (hin : ks.length < m.konts.length) (hstep : m.step = .next m') (hm' : ¬Iterates ks m') :
      FrameRun ks m₀ bounces m'
  | bounce {bounces : List Bounce} {m m' : Machine} (h : FrameRun ks m₀ bounces m)
      (hin : ks.length < m.konts.length) (hstep : m.step = .next m') (hm' : Iterates ks m') :
      FrameRun ks m₀ (m.bounce :: bounces) m'

variable {ks : List Kont} {stack : CallStack} {s : State} {m m' : Machine}

/-! ## Steps between expressions -/

theorem bindings_stack (site : FormSite) (ahead : List Value) (body : Value) (e : ScopeId) :
    (bindings site ahead body e ks s).state.stack = s.stack := by
  unfold bindings
  split
  · rfl
  · rfl
  · split <;> rfl

theorem sequence_stack (exprs : List Value) (e : ScopeId) :
    (sequence exprs e ks s).state.stack = s.stack := by
  unfold sequence
  split <;> rfl

theorem settle_stack (r : Except Fault Value) : (settle r ks s).state.stack = s.stack := by
  cases r <;> rfl

theorem special_stack (form : SpecialForm) (site : FormSite) (operands : List Value)
    (e : ScopeId) : (special form site operands e ks s).state.stack = s.stack := by
  unfold special
  split <;> try rfl
  · split <;> rfl
  · split
    · exact bindings_stack site _ _ _
    · rfl
  · split
    · exact bindings_stack site _ _ _
    · rfl
  · exact sequence_stack operands e
  · split <;> rfl

/-- Beginning with an expression leaves the call stack alone. -/
theorem expression_stack (expr : Value) (e : ScopeId) :
    (expression expr e ks s).state.stack = s.stack := by
  unfold expression
  split
  · exact settle_stack _
  · rfl
  · split
    · exact special_stack _ _ _ e
    · rfl
  · rfl
  · rfl

/-- A step that pushes a frame or fails to push one does not go on in the frame at hand. -/
theorem Move.not_iterates (h : Move (.leave :: ks) s true m') : ¬Iterates ks m' := by
  rintro ⟨expr, e, hfocus, hkonts⟩
  cases h with
  | push focus pre name builtin =>
    have hlen := congrArg List.length hkonts
    simp only [List.length_append, List.length_cons] at hlen
    omega
  | overflow => cases hfocus

/-- A closure that is called takes over the frame at hand, if it runs at all. -/
theorem call_closure_stack (identity : Nat) {formals : List Text} {body : Value} {e : ScopeId}
    {name : Text} {args : List Value}
    (h : Iterates ks (call (.closure identity formals body e) name args (.leave :: ks) s)) :
    (call (.closure identity formals body e) name args (.leave :: ks) s).state.stack =
      s.stack.tailCall name := by
  obtain ⟨expr, e', hfocus, -⟩ := h
  simp only [call] at hfocus ⊢
  split
  · rename_i hfault
    rw [hfault] at hfocus
    cases hfocus
  · exact congrArg (·.tailCall name) (s.quiet_callScope formals e args).1

/-- Handing a value to a continuation hands the frame at hand to the closure that is called, and
leaves the call stack alone if none is. -/
theorem resume_stack {k : Kont} {v : Value} (hk : k ≠ .leave)
    (h : Iterates ks (resume k v (.leave :: ks) s)) :
    (resume k v (.leave :: ks) s).state.stack =
      (bounce { focus := .value v, konts := k :: .leave :: ks, state := s }).after s.stack := by
  have hmove := resume_move (s := s) hk (List.mem_cons_self (a := .leave) (l := ks)) v
  cases k with
  | leave => exact absurd rfl hk
  | callee head args e =>
    cases args with
    | cons a args =>
      obtain ⟨_, _, hfocus, -⟩ := h
      cases hfocus
    | nil =>
      cases v with
      | closure identity => exact call_closure_stack identity h
      | builtin b => exact absurd h hmove.not_iterates
      | _ => rfl
  | argument f name done ahead e =>
    cases ahead with
    | cons a ahead =>
      obtain ⟨_, _, hfocus, -⟩ := h
      cases hfocus
    | nil =>
      cases f with
      | closure identity => exact call_closure_stack identity h
      | builtin b => exact absurd h hmove.not_iterates
      | _ => rfl
  | define name e => rfl
  | binding site name ahead body e => exact bindings_stack site ahead body e
  | sequence ahead e => exact sequence_stack ahead e
  | branch yes no e =>
    simp only [resume]
    split
    · rfl
    · cases no <;> rfl
  | evaluate e => rfl
  | update c => rfl

/-! ## Inside the frame -/

/-- The machine is inside the frame above the continuations `ks`, while `stack` is the call stack
with that frame on top: at an expression of the frame, or in an evaluation nested in it, whose
outcome a continuation of the frame may be waiting for. -/
inductive InFrame (ks : List Kont) (stack : CallStack) : Machine → Prop where
  | tail (expr : Value) (e : ScopeId) (s : State) (hs : s.stack = stack) :
      InFrame ks stack { focus := .expression expr e, konts := .leave :: ks, state := s }
  | nested (m : Machine) (waiting : Option Kont) (hw : ∀ k ∈ waiting, k ≠ .leave)
      (hm : Balanced stack m) : InFrame ks stack (m.atop (waiting.toList ++ .leave :: ks))

/-- The value or failure of the frame, which is about to be left. -/
theorem InFrame.ends {focus : Focus} (hfocus : ∀ expr e, focus ≠ .expression expr e)
    (hs : s.stack = stack) :
    InFrame ks stack { focus, konts := .leave :: ks, state := s } ∧
      ¬Iterates ks { focus, konts := .leave :: ks, state := s } := by
  have hm : Balanced stack { focus, konts := [], state := s } :=
    ⟨hs ▸ .bottom, congrArg _ hs, fun expr e h => absurd h (hfocus expr e)⟩
  refine ⟨.nested _ none (by simp) hm, ?_⟩
  rintro ⟨expr, e, h, -⟩
  exact hfocus expr e h

/-- A nested evaluation is not at an expression of the frame itself. -/
theorem Balanced.not_iterates_atop (hm : Balanced stack m) (waiting : Option Kont) :
    ¬Iterates ks (m.atop (waiting.toList ++ .leave :: ks)) := by
  rintro ⟨expr, e, hfocus, hkonts⟩
  -- the expression is in a frame of the nested evaluation, so there are more continuations
  have hpos := List.length_pos_of_mem (hm.inFrame expr e hfocus)
  have hlen := congrArg List.length hkonts
  simp only [atop, List.length_append, List.length_cons] at hlen
  omega

/-- What a move at an expression of the frame, or with a value that one of the frame's
continuations was waiting for, comes to. -/
theorem InFrame.of_move {asks : Bool} (hs : s.stack = stack) (h : Move (.leave :: ks) s asks m') :
    Iterates ks m' ∨ InFrame ks stack m' ∧ ¬Iterates ks m' := by
  cases h with
  | value v hq => exact .inr (InFrame.ends nofun (hq.1.trans hs))
  | failure f hq => exact .inr (InFrame.ends nofun (hq.1.trans hs))
  | overflow _ hq => exact .inr (InFrame.ends nofun (hq.1.trans hs))
  | proceed expr e => exact .inl ⟨expr, e, rfl, rfl⟩
  | tailCall name body e => exact .inl ⟨body, e, rfl, rfl⟩
  | @await k expr e s' hq hk =>
    have hm : Balanced stack { focus := .operand expr e, konts := [], state := s' } :=
      ⟨hq.1.trans hs ▸ .bottom, congrArg _ (hq.1.trans hs), nofun⟩
    exact .inr ⟨.nested _ (some k) (by simpa using hk) hm, hm.not_iterates_atop (some k)⟩
  | @push focus pre name builtin s' hstack hsetup hpre hf =>
    -- without the continuations of the frame, the new frame is one of a nested evaluation
    have hm : Balanced stack { focus, konts := pre ++ [.leave], state := s' } := by
      obtain ⟨hframes, hlimit, -⟩ := CallStack.push_eq_some hstack
      subst hs
      refine ⟨?_, hlimit, fun _ _ _ => by simp⟩
      have hnew : Carries s.stack.frames [.leave] ({ name, builtin } :: s.stack.frames) :=
        .frame _ .bottom
      exact hframes ▸ hnew.prepend hpre
    have heq : ({ focus, konts := pre ++ .leave :: .leave :: ks, state := s' } : Machine) =
        atop { focus, konts := pre ++ [.leave], state := s' } (none.toList ++ .leave :: ks) := by
      simp [atop]
    rw [heq]
    exact .inr ⟨.nested _ none (by simp) hm, hm.not_iterates_atop none⟩

/-- A step inside the frame: the frame is left, or the machine stays inside it, or comes to the
next expression with the effect of the bounce on the call stack. -/
theorem InFrame.step (h : InFrame ks stack m) (hstep : m.step = .next m') :
    m'.konts = ks ∨ (InFrame ks stack m' ∧ ¬Iterates ks m') ∨
      (Iterates ks m' ∧ m'.state.stack = m.bounce.after stack) := by
  cases h with
  | tail expr e s hs =>
    obtain rfl := Step.next.inj hstep
    have hmove : Move (.leave :: ks) s false (expression expr e (.leave :: ks) s) :=
      expression_move List.mem_cons_self expr e
    rcases InFrame.of_move hs hmove with hit | hin
    · exact .inr (.inr ⟨hit, (expression_stack expr e).trans hs⟩)
    · exact .inr (.inl hin)
  | nested m waiting hw hm =>
    cases hs : m.step with
    | next m₁ =>
      obtain rfl := Step.next.inj ((step_atop _ hs).symm.trans hstep)
      have hm₁ := balanced_step hm hs
      exact .inr (.inl ⟨.nested m₁ waiting hw hm₁, hm₁.not_iterates_atop waiting⟩)
    | done o =>
      -- the nested evaluation has come to its end and left the stack as it was
      have hstack : o.state.stack = stack := hm.stack_eq ⟨1, run_succ_done hs 0⟩
      obtain rfl := step_done hs
      obtain ⟨r, t⟩ := o
      cases waiting with
      | none => cases r <;> exact .inl (congrArg konts (Step.next.inj hstep).symm)
      | some k =>
        have hk : k ≠ .leave := hw k rfl
        cases r with
        | ok v =>
          obtain rfl := Step.next.inj hstep
          rcases InFrame.of_move hstack (resume_move hk List.mem_cons_self v) with hit | hin
          · refine .inr (.inr ⟨hit, ?_⟩)
            rw [← hstack]
            exact resume_stack hk hit
          · exact .inr (.inl hin)
        | error f =>
          obtain rfl : unwind k f (.leave :: ks) t = m' := Step.next.inj hstep
          rw [unwind_of_ne_leave hk]
          exact .inr (.inl (InFrame.ends nofun hstack))

/-! ## The run of a frame -/

/-- A run that has not left the frame is inside it, and the bounces account for the call stack. -/
theorem FrameRun.inFrame {name : Text} {expr : Value} {e : ScopeId} {bounces : List Bounce}
    (hpush : s.stack.push name false = some stack)
    (h : FrameRun ks (enter name expr e ks s) bounces m) :
    m.konts = ks ∨ InFrame ks (bounces.foldr Bounce.after stack) m := by
  induction h with
  | start =>
    right
    simp only [enter, hpush, List.foldr_nil]
    exact .tail expr e _ rfl
  | inner _ hin hstep hm' ih =>
    rcases ih with hleft | hinside
    · exact absurd (congrArg List.length hleft) (by omega)
    · rcases hinside.step hstep with hleft | ⟨hinside', -⟩ | ⟨hit, -⟩
      · exact .inl hleft
      · exact .inr hinside'
      · exact absurd hit hm'
  | @bounce bounces m m' _ hin hstep hm' ih =>
    rcases ih with hleft | hinside
    · exact absurd (congrArg List.length hleft) (by omega)
    · rcases hinside.step hstep with hleft | ⟨-, hnot⟩ | ⟨⟨expr', e', hfocus, hkonts⟩, hstack⟩
      · exact .inl hleft
      · exact absurd hm' hnot
      · right
        obtain ⟨focus, konts, s'⟩ := m'
        obtain rfl : focus = .expression expr' e' := hfocus
        obtain rfl : konts = .leave :: ks := hkonts
        exact .tail expr' e' s' hstack

/-- On a full stack the frame is not entered. -/
theorem FrameRun.eq_of_full {name : Text} {expr : Value} {e : ScopeId}
    {bounces : List Bounce} (hpush : s.stack.push name false = none)
    (h : FrameRun ks (enter name expr e ks s) bounces m) : m = enter name expr e ks s := by
  have hkonts : (enter name expr e ks s).konts = ks := by
    simp only [enter, hpush]
    rfl
  induction h with
  | start => rfl
  | inner _ hin _ _ ih => exact absurd hin (by rw [ih, hkonts]; omega)
  | bounce _ hin _ _ ih => exact absurd hin (by rw [ih, hkonts]; omega)

end Machine

namespace CallFrame

/-- A frame after it was handed on to the given functions, the last one first. -/
def handOnAll (f : CallFrame) (names : List Text) : CallFrame :=
  names.foldr (fun n f => f.handOn n) f

variable {f : CallFrame} {names : List Text}

@[simp] theorem handOnAll_builtin : (f.handOnAll names).builtin = f.builtin := by
  induction names with
  | nil => rfl
  | cons name names ih => exact ih

@[simp] theorem handOnAll_name : (f.handOnAll names).name = names.headD f.name := by
  cases names <;> rfl

/-- Every function but the first hands the frame on, and the first one does if a function ran in
the frame before it. -/
theorem handOnAll_tailCalls (hnames : ∀ n ∈ names, n ≠ []) :
    (f.handOnAll names).tailCalls =
      f.tailCalls + if f.name = [] then names.length - 1 else names.length := by
  induction names with
  | nil => simp [handOnAll]
  | cons name names ih =>
    have ih := ih fun n hn => hnames n (List.mem_cons_of_mem name hn)
    have hstep : (f.handOnAll (name :: names)).tailCalls =
        if (f.handOnAll names).name.isEmpty then (f.handOnAll names).tailCalls
        else (f.handOnAll names).tailCalls + 1 := rfl
    rw [hstep, handOnAll_name, ih, List.length_cons]
    cases names with
    | nil => by_cases hf : f.name = [] <;> simp [hf]
    | cons n names =>
      have hn : n ≠ [] := hnames n (by simp)
      simp only [List.headD_cons, List.isEmpty_iff, hn, if_false, List.length_cons]
      split <;> omega

end CallFrame

/-- Bounces change the frame on top only, and only those that call a closure do. -/
theorem frames_after_bounces {stack : CallStack} {frame : CallFrame} {fs : List CallFrame}
    (h : stack.frames = frame :: fs) (bounces : List Bounce) :
    (bounces.foldr Bounce.after stack).frames =
        frame.handOnAll (bounces.filterMap Bounce.callee?) :: fs ∧
      (bounces.foldr Bounce.after stack).limit = stack.limit := by
  induction bounces with
  | nil => exact ⟨h, rfl⟩
  | cons b bounces ih =>
    cases b with
    | call name => exact ⟨CallStack.tailCall_frames ih.1, CallStack.tailCall_limit.trans ih.2⟩
    | form => exact ih

open Machine

/-- **Tail calls run in constant stack space.** At every expression that the run of a frame comes
to, the call stack is that of the caller with one frame on top, which is not that of a built-in
function. If the closures that were called in tail position have names, the frame bears the name of
the last of them, and it counts them all but the first that came into a frame without a name. -/
theorem tail_calls_share_frame (name : Text) (expr : Value) (e : ScopeId) (ks : List Kont)
    (s : State) {bounces : List Bounce} {m : Machine}
    (h : FrameRun ks (enter name expr e ks s) bounces m) (hm : m.Iterates ks) :
    ∃ frame, m.state.stack.frames = frame :: s.stack.frames ∧
      m.state.stack.limit = s.stack.limit ∧ frame.builtin = false ∧
      ((∀ callee ∈ bounces.filterMap Bounce.callee?, callee ≠ []) →
        frame.name = (bounces.filterMap Bounce.callee?).headD name ∧
        frame.tailCalls =
          if name = [] then (bounces.filterMap Bounce.callee?).length - 1
          else (bounces.filterMap Bounce.callee?).length) := by
  obtain ⟨expr', e', hfocus, hkonts⟩ := hm
  cases hpush : s.stack.push name false with
  | none =>
    -- the frame could not be pushed, and what is left of the run is a failure
    rw [h.eq_of_full hpush] at hfocus
    simp only [enter, hpush] at hfocus
    cases hfocus
  | some stack =>
    obtain ⟨hframes, hlimit, -⟩ := CallStack.push_eq_some hpush
    obtain ⟨hbounced, hbounced'⟩ := frames_after_bounces hframes bounces
    have hstack : m.state.stack = bounces.foldr Bounce.after stack := by
      rcases h.inFrame hpush with hleft | hin
      · exact absurd (congrArg List.length (hleft.symm.trans hkonts)) (by simp)
      · cases hin with
        | tail _ _ _ hs => exact hs
        | nested m₁ waiting _ hm₁ =>
          exact absurd ⟨expr', e', hfocus, hkonts⟩ (hm₁.not_iterates_atop waiting)
    refine ⟨_, hstack ▸ hbounced, (hstack ▸ hbounced').trans hlimit, by simp, fun hnames => ?_⟩
    exact ⟨by simp, by simp [CallFrame.handOnAll_tailCalls hnames]⟩

/-- A closure is called in a frame without a name, and goes on through a `do` to a second one. -/
theorem tail_calls_share_frame_twice :
    let inner : Value := .closure 0 [] (.int 7) 0
    let outer : Value := .closure 1 [] (.list none [.symbol "do", .list none [inner]]) 0
    ∃ m, FrameRun [] (enter [] (.list none [outer]) 0 [] {})
        [.call anonymous, .form, .call anonymous] m ∧ m.focus = .expression (.int 7) 2 ∧
      m.state.stack.frames = [{ name := anonymous, tailCalls := 1, builtin := false }] := by
  intro inner outer
  have next {bounces : List Bounce} {m m' : Machine}
      (h : FrameRun [] (enter [] (.list none [outer]) 0 [] {}) bounces m)
      (hin : 0 < m.konts.length) (hstep : m.step = .next m')
      (hfocus : ∀ expr e, m'.focus ≠ .expression expr e) :
      FrameRun [] (enter [] (.list none [outer]) 0 [] {}) bounces m' :=
    .inner h hin hstep fun ⟨expr, e, h, _⟩ => hfocus expr e h
  -- the outer closure is called, its body goes on with a call of the inner one
  have outerAhead := next .start (by decide) rfl nofun
  have outerFound := next outerAhead (by decide) rfl nofun
  have atBody := FrameRun.bounce outerFound (by decide) rfl ⟨_, _, rfl, rfl⟩
  have atCall := FrameRun.bounce atBody (by decide) rfl ⟨_, _, rfl, rfl⟩
  have innerAhead := next atCall (by decide) rfl nofun
  have innerFound := next innerAhead (by decide) rfl nofun
  have run := FrameRun.bounce innerFound (by decide) rfl ⟨_, _, rfl, rfl⟩
  obtain ⟨frame, hframes, -, hbuiltin, hnames⟩ :=
    tail_calls_share_frame [] (.list none [outer]) 0 [] {} run ⟨_, _, rfl, rfl⟩
  obtain ⟨hname, hcalls⟩ := hnames (by decide)
  refine ⟨_, run, rfl, hframes.trans ?_⟩
  obtain ⟨name, tailCalls, builtin⟩ := frame
  obtain rfl : name = anonymous := hname
  obtain rfl : tailCalls = 1 := hcalls
  obtain rfl : builtin = false := hbuiltin
  rfl

end TinyLisp
