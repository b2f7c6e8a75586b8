import TinyLisp.Proofs.Balance

/-!
# The limit of the call stack

Under a limit, the call stack never gets higher than the limit, at any moment of any evaluation that
begins below it. An evaluation fails with an overflow exactly if at some moment it is about to push
a frame onto a stack that is as high as the limit; the fault then names the height above the limit,
and the trace is the full stack.

* `Within.step`: every step keeps the stack within the limit.
* `halts_of_full`: a machine that is to push a frame onto a full stack fails with an overflow.
* `full_of_overflow`: no other machine does, unless a function of the embedding program reports one.
* `stack_limit`: the same for whole evaluations.
-/

namespace TinyLisp

open Machine

/-- The evaluation failed with an overflow. -/
def Outcome.overflows (o : Outcome) : Prop := ∃ f, o.result = .error f ∧ f.fault.isOverflow = true

/-- The failure of a push onto a stack that is as high as the limit. -/
def Failure.IsOverflowAt (limit : Int) (f : Failure) : Prop :=
  f.fault = .stackOverflow (limit + 1) ∧ ∃ trace, f.trace = some trace ∧ trace.frames.length = limit

/-- The evaluation failed with the overflow at the limit. -/
def Outcome.OverflowsAt (limit : Int) (o : Outcome) : Prop :=
  ∃ f, o.result = .error f ∧ f.IsOverflowAt limit

/-- At some moment of the evaluation `stack` is the call stack, and the flag tells whether a frame
is about to be pushed. -/
inductive Entry.Moment (s : State) (entry : Entry) : CallStack → Bool → Prop where
  | begins {e : ScopeId} {expr : Value} {t : State} (h : entry.Begins s e expr t) :
      Moment s entry t.stack true
  | visits {m : Machine} (h : entry.Visits s m) : Moment s entry m.state.stack m.asksFrame

namespace CallStack

variable {s t : CallStack}

theorem isFull_eq_true_iff : s.isFull = true ↔ 0 < s.limit ∧ s.limit ≤ s.height := by
  simp [isFull]

theorem isFull_iff (hl : 0 < s.limit) : s.isFull = true ↔ s.limit ≤ s.height := by
  simp [isFull, hl]

end CallStack

namespace Machine

variable {base : CallStack} {m m' : Machine} {s : State} {o : Outcome}

/-! ## Within the limit -/

/-- A move keeps the stack within a limit. -/
theorem Move.height_le {ks : List Kont} {asks : Bool} (h : Move ks s asks m')
    (hl : 0 < s.stack.limit) (hh : (s.stack.height : Int) ≤ s.stack.limit) :
    (m'.state.stack.height : Int) ≤ s.stack.limit := by
  rw [h.height_eq]
  split
  · rename_i hpush
    rw [Bool.and_eq_true, Bool.not_eq_true'] at hpush
    have hroom : ¬s.stack.limit ≤ s.stack.height := by
      rw [← CallStack.isFull_iff hl, hpush.2]
      exact Bool.false_ne_true
    omega
  · exact hh

/-- The machine of an evaluation that began in the state `s`, with its stack within the limit. -/
structure Within (s : State) (m : Machine) : Prop where
  balanced : Balanced s.stack m
  setup : m.state.setup = s.setup
  height : (m.state.stack.height : Int) ≤ s.stack.limit

/-- **Every step keeps the stack within the limit.** -/
theorem Within.step (hl : 0 < s.stack.limit) (hm : Within s m) (h : m.step = .next m') :
    Within s m' := by
  refine ⟨balanced_step hm.balanced h, (setup_step h).trans hm.setup, ?_⟩
  have hlim : m.state.stack.limit = s.stack.limit := hm.balanced.limit
  have hh := hm.height
  rw [← hlim] at hl hh ⊢
  cases advance_of_step hm.balanced.framed h with
  | leaveValue v ks t => simp only [CallStack.drop] at hh ⊢; omega
  | leaveFailure f ks t => simp only [CallStack.drop] at hh ⊢; omega
  | unwind => exact hh
  | resume _ _ _ _ _ hmove => exact hmove.height_le hl hh
  | begin _ _ _ _ _ hmove => exact hmove.height_le hl hh

theorem Within.reaches (hl : 0 < s.stack.limit) (hm : Within s m) (h : Reaches m m') :
    Within s m' :=
  h.preserves (fun _ _ => Within.step hl) hm

theorem within_enter (hl : 0 < s.stack.limit) (hh : (s.stack.height : Int) ≤ s.stack.limit)
    (expr : Value) (e : ScopeId) : Within s (enter [] expr e [] s) :=
  have hmove : Move [] s true (enter [] expr e [] s) := enter_move [] expr e
  ⟨balanced_enter [] expr e s, hmove.setup_eq, hmove.height_le hl hh⟩

theorem within_application (hh : (s.stack.height : Int) ≤ s.stack.limit) (f : Value)
    (args : List Value) : Within s { focus := .application f args, konts := [], state := s } :=
  ⟨balanced_application f args s, rfl, hh⟩

/-! ## Overflows -/

theorem step_of_asksFrame (h : m.asksFrame = true) : ∃ m', m.step = .next m' := by
  obtain ⟨focus, ks, t⟩ := m
  cases focus with
  | value v =>
    cases ks with
    | nil => cases h
    | cons k ks => exact ⟨_, rfl⟩
  | failure f => cases h
  | expression => exact ⟨_, rfl⟩
  | operand => exact ⟨_, rfl⟩
  | application => exact ⟨_, rfl⟩

/-- A step that is to push a frame is a move of that kind. -/
theorem move_of_asksFrame (hm : Balanced base m) (hask : m.asksFrame = true)
    (h : m.step = .next m') : ∃ ks, Move ks m.state true m' := by
  cases advance_of_step hm.framed h with
  | leaveValue => cases hask
  | leaveFailure => cases hask
  | unwind => cases hask
  | resume _ _ ks _ _ hmove => exact ⟨ks, hask ▸ hmove⟩
  | begin _ ks _ _ _ hmove => exact ⟨ks, hask ▸ hmove⟩

theorem isOverflowAt_of_full (hheight : (s.stack.height : Int) = s.stack.limit) :
    Failure.IsOverflowAt s.stack.limit
      { fault := .stackOverflow (s.stack.height + 1), trace := some s.stack } :=
  ⟨by rw [hheight], s.stack, rfl, by rw [← s.stack.height_eq, hheight]⟩

/-- A failure that records a trace is the outcome. -/
theorem halts_failure_of_trace {f : Failure} (hf : f.trace.isSome = true) (ks : List Kont)
    (t : State) : ∃ o, Halts { focus := .failure f, konts := ks, state := t } o ∧
      o.result = .error f := by
  obtain ⟨f', stack, h, -, hkeep⟩ := halts_failure f ks t
  exact ⟨_, h, by rw [hkeep hf]⟩

/-- An evaluation on its way out of a failure comes to its fault. -/
theorem fault_of_halts {f f' : Failure} (hf : m.focus = .failure f) (h : Halts m o)
    (hf' : o.result = .error f') : f'.fault = f.fault := by
  obtain ⟨focus, ks, t⟩ := m
  obtain rfl : focus = .failure f := hf
  obtain ⟨f'', stack, rfl, hfault⟩ := failed_of_halts h
  obtain rfl := Except.error.inj hf'
  exact hfault

/-- An evaluation on its way out of an overflow comes to an overflow. -/
theorem overflows_of_focus {f : Failure} (hf : m.focus = .failure f)
    (ho : f.fault.isOverflow = true) (h : Halts m o) : o.overflows := by
  obtain ⟨focus, ks, t⟩ := m
  obtain rfl : focus = .failure f := hf
  obtain ⟨f', stack, rfl, hfault⟩ := failed_of_halts h
  exact ⟨f', rfl, hfault ▸ ho⟩

/-- An overflow is the outcome of the evaluation that meets it. -/
theorem halts_of_isOverflowAt {limit : Int} {f : Failure} (hf : m.focus = .failure f)
    (hat : f.IsOverflowAt limit) : ∃ o, Halts m o ∧ o.result = .error f := by
  obtain ⟨-, trace, htr, -⟩ := hat
  obtain ⟨focus, ks, t⟩ := m
  obtain rfl : focus = .failure f := hf
  exact halts_failure_of_trace (by rw [htr]; rfl) ks t

theorem Move.halts_of_full {ks : List Kont} (h : Move ks s true m) (hl : 0 < s.stack.limit)
    (hheight : (s.stack.height : Int) = s.stack.limit) :
    ∃ o f, Halts m o ∧ o.result = .error f ∧ f.IsOverflowAt s.stack.limit := by
  have hfull := (CallStack.isFull_iff hl).2 (Int.le_of_eq hheight.symm)
  cases h with
  | push _ _ _ _ hstack =>
    rw [(CallStack.push_eq_some hstack).2.2] at hfull
    cases hfull
  | @overflow t _ _ =>
    have hat := isOverflowAt_of_full hheight
    obtain ⟨o, ho, hres⟩ :=
      halts_of_isOverflowAt (m := { focus := _, konts := ks, state := t }) rfl hat
    exact ⟨o, _, ho, hres, hat⟩

/-- **A push onto a full stack ends the evaluation** with the overflow at the limit. -/
theorem halts_of_full (hl : 0 < s.stack.limit) (hm : Within s m) (hask : m.asksFrame = true)
    (hheight : (m.state.stack.height : Int) = s.stack.limit) :
    ∃ o f, Halts m o ∧ o.result = .error f ∧ f.IsOverflowAt s.stack.limit := by
  obtain ⟨m', hstep⟩ := step_of_asksFrame hask
  obtain ⟨ks, hmove⟩ := move_of_asksFrame hm.balanced hask hstep
  have hlim : m.state.stack.limit = s.stack.limit := hm.balanced.limit
  rw [← hlim] at hl hheight ⊢
  obtain ⟨o, f, ho, hrest⟩ := hmove.halts_of_full hl hheight
  exact ⟨o, f, (halts_next hstep).2 ho, hrest⟩

/-- The machine is not on its way out of an overflow. -/
def NotOverflowing (m : Machine) : Prop :=
  ∀ f, m.focus = .failure f → f.fault.isOverflow = false

/-- A move into an overflow that the embedding program does not report was to push a frame onto a
full stack. -/
theorem Move.full_of_overflow {ks : List Kont} {asks : Bool} {f : Failure}
    (h : Move ks s asks m') (hl : 0 < s.stack.limit)
    (hh : (s.stack.height : Int) ≤ s.stack.limit) (hf : m'.focus = .failure f)
    (ho : f.fault.isOverflow = true) :
    s.HostRaises f.fault ∨
      (asks = true ∧ (s.stack.height : Int) = s.stack.limit) ∧
        f.IsOverflowAt s.stack.limit := by
  cases h with
  | value => cases hf
  | failure f' _ hraise =>
    cases hf
    exact .inl (hraise ho)
  | proceed => cases hf
  | await => cases hf
  | tailCall => cases hf
  | push _ _ _ _ _ _ _ hraise => exact .inl (hraise f hf ho)
  | overflow hfull _ =>
    cases hf
    have heq := Int.le_antisymm hh ((CallStack.isFull_iff hl).1 hfull)
    exact .inr ⟨⟨rfl, heq⟩, isOverflowAt_of_full heq⟩

/-- A step into an overflow that the embedding program does not report was to push a frame onto a
full stack. -/
theorem full_of_step (hl : 0 < s.stack.limit) (hm : Within s m) (hn : NotOverflowing m)
    (h : m.step = .next m') {f : Failure} (hf : m'.focus = .failure f)
    (ho : f.fault.isOverflow = true) :
    s.HostRaises f.fault ∨
      (m.asksFrame = true ∧ (m.state.stack.height : Int) = s.stack.limit) ∧
        f.IsOverflowAt s.stack.limit := by
  have hlim : m.state.stack.limit = s.stack.limit := hm.balanced.limit
  have hmove {ks : List Kont} {asks : Bool} (h : Move ks m.state asks m') :
      s.HostRaises f.fault ∨
        (asks = true ∧ (m.state.stack.height : Int) = s.stack.limit) ∧
          f.IsOverflowAt s.stack.limit := by
    have hh := hm.height
    rw [← hlim] at hl hh ⊢
    exact (h.full_of_overflow hl hh hf ho).imp (.of_setup hm.setup) id
  cases advance_of_step hm.balanced.framed h with
  | leaveValue => cases hf
  | leaveFailure f' _ t =>
    cases hf
    rw [Failure.attach_fault, hn f' rfl] at ho
    cases ho
  | unwind f' =>
    cases hf
    rw [hn f rfl] at ho
    cases ho
  | resume _ _ _ _ _ h => exact hmove h
  | begin _ _ _ _ _ h => exact hmove h

/-- What is so of the overflow that an evaluation is on its way out of is so of its outcome. -/
theorem full_of_focus {P : Prop} {limit : Int} {f f' : Failure} (hf' : m.focus = .failure f')
    (hcase : s.HostRaises f'.fault ∨ P ∧ f'.IsOverflowAt limit) (h : Halts m o)
    (hf : o.result = .error f) : s.HostRaises f.fault ∨ P ∧ f.IsOverflowAt limit := by
  rcases hcase with hhost | ⟨hp, hat⟩
  · rw [← fault_of_halts hf' h hf] at hhost
    exact .inl hhost
  · obtain ⟨o', h', hres⟩ := halts_of_isOverflowAt hf' hat
    obtain rfl : o' = o := h'.unique h
    obtain rfl : f' = f := Except.error.inj (hres.symm.trans hf)
    exact .inr ⟨hp, hat⟩

/-- **Only a push onto a full stack overflows**, unless the embedding program reports it. -/
theorem full_of_overflow (hl : 0 < s.stack.limit) (hm : Within s m) (hn : NotOverflowing m)
    (h : Halts m o) {f : Failure} (hf : o.result = .error f) (ho : f.fault.isOverflow = true) :
    s.HostRaises f.fault ∨
      (∃ m', Reaches m m' ∧ m'.asksFrame = true ∧
        (m'.state.stack.height : Int) = s.stack.limit) ∧ f.IsOverflowAt s.stack.limit := by
  obtain ⟨n, hrun⟩ := h
  induction n generalizing m with
  | zero => simp [run] at hrun
  | succ n ih =>
    cases hstep : m.step with
    | done o' =>
      obtain rfl := Option.some.inj ((run_succ_done hstep n).symm.trans hrun)
      obtain rfl := step_done hstep
      have hfocus : (o'.above []).focus = .failure f := by
        simp only [Outcome.above, Outcome.focus, hf]
      rw [hn f hfocus] at ho
      cases ho
    | next m' =>
      rw [run_succ_next hstep] at hrun
      by_cases hn' : NotOverflowing m'
      · refine (ih (hm.step hl hstep) hn' hrun).imp_right ?_
        rintro ⟨⟨m'', hr, hfull⟩, hat⟩
        exact ⟨⟨m'', hr.head hstep, hfull⟩, hat⟩
      · -- the step from `m` is the one that fails; its failure is that of the outcome
        simp only [NotOverflowing, Classical.not_forall, Bool.not_eq_false] at hn'
        obtain ⟨f', hf', ho'⟩ := hn'
        have hcase := full_of_step hl hm hn hstep hf' ho'
        refine (full_of_focus hf' hcase ⟨n, hrun⟩ hf).imp_right ?_
        rintro ⟨hfull, hat⟩
        exact ⟨⟨m, Reaches.refl m, hfull⟩, hat⟩

end Machine

/-! ## Whole evaluations -/

section Evaluations

variable {s t : State} {e : ScopeId} {expr : Value} {fuel : Nat} {out : Outcome} {f : Failure}

theorem eval_overflows (hl : 0 < s.stack.limit) (hh : (s.stack.height : Int) ≤ s.stack.limit)
    (hfull : (s.stack.height : Int) = s.stack.limit ∨ ∃ m, Reaches (enter [] expr e [] s) m ∧
      m.asksFrame = true ∧ (m.state.stack.height : Int) = s.stack.limit) :
    ∃ fuel out, s.eval fuel e expr = some out ∧ out.OverflowsAt s.stack.limit := by
  obtain ⟨o, f, ⟨fuel, ho⟩, hres, hat⟩ : ∃ o f, Halts (enter [] expr e [] s) o ∧
      o.result = .error f ∧ f.IsOverflowAt s.stack.limit := by
    rcases hfull with hfull | ⟨m, hr, hask, hheight⟩
    · have hmove : Move [] s true (enter [] expr e [] s) := enter_move [] expr e
      exact hmove.halts_of_full hl hfull
    · have hm := (within_enter hl hh expr e).reaches hl hr
      obtain ⟨o, f, ho, hrest⟩ := halts_of_full hl hm hask hheight
      exact ⟨o, f, hr.halts_iff.2 ho, hrest⟩
  refine ⟨fuel, o.reported, ?_, f, o.reported_result.trans hres, hat⟩
  rw [State.eval_eq, ho, Option.map_some]

theorem full_of_eval (hl : 0 < s.stack.limit) (hh : (s.stack.height : Int) ≤ s.stack.limit)
    (h : s.eval fuel e expr = some out) (hf : out.result = .error f)
    (ho : f.fault.isOverflow = true) :
    s.HostRaises f.fault ∨
      ((s.stack.height : Int) = s.stack.limit ∨ ∃ m, Reaches (enter [] expr e [] s) m ∧
        m.asksFrame = true ∧ (m.state.stack.height : Int) = s.stack.limit) ∧
      f.IsOverflowAt s.stack.limit := by
  rw [State.eval_eq] at h
  obtain ⟨o, hrun, rfl⟩ := Option.map_eq_some_iff.1 h
  rw [o.reported_result] at hf
  by_cases hn : NotOverflowing (enter [] expr e [] s)
  · refine (full_of_overflow hl (within_enter hl hh expr e) hn ⟨fuel, hrun⟩ hf ho).imp_right ?_
    exact And.imp_left .inr
  · -- the frame of the evaluation itself cannot be pushed
    simp only [NotOverflowing, Classical.not_forall, Bool.not_eq_false] at hn
    obtain ⟨f', hf', ho'⟩ := hn
    have hmove : Move [] s true (enter [] expr e [] s) := enter_move [] expr e
    have hcase := hmove.full_of_overflow hl hh hf' ho'
    refine (full_of_focus hf' hcase ⟨fuel, hrun⟩ hf).imp_right ?_
    rintro ⟨⟨-, hheight⟩, hat⟩
    exact ⟨.inl hheight, hat⟩

/-! ## Forms in order -/

theorem eval_mono {k : Nat} (h : s.eval fuel e expr = some out) (hk : fuel ≤ k) :
    s.eval k e expr = some out := by
  rw [State.eval_eq] at h ⊢
  obtain ⟨o, ho, rfl⟩ := Option.map_eq_some_iff.1 h
  rw [run_mono ho hk, Option.map_some]

theorem evalAll_mono {k : Nat} {last : Value} {forms : List Value}
    (h : s.evalAll fuel e last forms = some out) (hk : fuel ≤ k) :
    s.evalAll k e last forms = some out := by
  induction forms generalizing s last with
  | nil => exact h
  | cons form forms ih =>
    unfold State.evalAll at h ⊢
    cases hev : s.eval fuel e form with
    | none =>
      rw [hev] at h
      cases h
    | some o =>
      rw [hev] at h
      rw [eval_mono hev hk]
      obtain ⟨r, s'⟩ := o
      cases r with
      | ok v => exact ih h
      | error f => exact h

theorem eval_setup (h : s.eval fuel e expr = some out) : out.state.setup = s.setup := by
  rw [State.eval_eq] at h
  obtain ⟨o, ho, rfl⟩ := Option.map_eq_some_iff.1 h
  have hreach := reaches_of_run ho
  have hinv : Balanced s.stack (o.above []) ∧ (o.above []).state.setup = s.setup := by
    refine hreach.preserves (P := fun m => Balanced s.stack m ∧ m.state.setup = s.setup) ?_ ?_
    · rintro m m' ⟨hb, hs⟩ hstep
      exact ⟨balanced_step hb hstep, (setup_step hstep).trans hs⟩
    · exact ⟨balanced_enter [] expr e s, (enter_move [] expr e).setup_eq⟩
  have hreported : o.reported.state.setup = o.state.setup := by
    unfold Outcome.reported
    split
    · rfl
    · exact (State.quiet_debug _ _ _).2
  exact hreported.trans hinv.2

theorem BeginsForm.setup {form : Value} {forms : List Value} (h : BeginsForm e form t s forms) :
    t.setup = s.setup := by
  induction h with
  | here => rfl
  | later h _ ih => exact ih.trans (eval_setup h)

theorem evalAll_overflows {limit : Int} {form : Value} {forms : List Value} (last : Value)
    (hb : BeginsForm e form t s forms)
    (h : ∃ fuel out, t.eval fuel e form = some out ∧ out.OverflowsAt limit) :
    ∃ fuel out, s.evalAll fuel e last forms = some out ∧ out.OverflowsAt limit := by
  induction hb generalizing last with
  | here =>
    obtain ⟨fuel, out, h, f, hf, ho⟩ := h
    refine ⟨fuel, out, ?_, f, hf, ho⟩
    obtain ⟨r, s'⟩ := out
    obtain rfl : r = .error f := hf
    simp only [State.evalAll, h]
  | @later s s' first v forms fuel₁ hev _ ih =>
    obtain ⟨fuel, out, h, hover⟩ := ih v
    refine ⟨max fuel₁ fuel, out, ?_, hover⟩
    simp only [State.evalAll, eval_mono hev (Nat.le_max_left fuel₁ fuel)]
    exact evalAll_mono h (Nat.le_max_right fuel₁ fuel)

/-- A failure of forms in order is the failure of one that they come to. -/
theorem begins_of_evalAll {last : Value} {forms : List Value}
    (h : s.evalAll fuel e last forms = some out) (hf : out.result = .error f) :
    ∃ form t, BeginsForm e form t s forms ∧ t.eval fuel e form = some out := by
  induction forms generalizing s last with
  | nil =>
    obtain rfl := Option.some.inj h
    cases hf
  | cons form forms ih =>
    unfold State.evalAll at h
    split at h
    · rename_i v s' hev
      obtain ⟨form', t, hb, ht⟩ := ih h
      exact ⟨form', t, .later hev hb, ht⟩
    · exact ⟨form, s, .here, h⟩

/-! ## Every way in -/

variable {entry : Entry}

theorem load_eq_evalAll {file bytes : Text} {failure : Option Text} {forms : List Value}
    (hr : s.reads = true) (hf : readAll file bytes failure = .ok forms) :
    s.load fuel e file bytes failure = (s.loaded file forms).evalAll fuel e .nil forms := by
  simp only [State.load, State.loaded, hr, hf, Bool.not_true, Bool.false_eq_true, if_false]

theorem Entry.Begins.setup (h : entry.Begins s e expr t) : t.setup = s.setup := by
  cases h with
  | eval => rfl
  | load _ _ h => exact h.setup.trans (s.quiet_debug _ _).2

/-- What an evaluation begins with decides it if it overflows. -/
theorem Entry.Begins.overflows {limit : Int} (hb : entry.Begins s e expr t)
    (h : ∃ fuel out, t.eval fuel e expr = some out ∧ out.OverflowsAt limit) :
    ∃ fuel out, entry.run fuel s = some out ∧ out.OverflowsAt limit := by
  cases hb with
  | eval => exact h
  | load hr hf hb =>
    obtain ⟨fuel, out, hev, hover⟩ := evalAll_overflows .nil hb h
    exact ⟨fuel, out, (load_eq_evalAll hr hf).trans hev, hover⟩

/-- An overflow of an evaluation is one of what it begins with, or of an application. -/
theorem begins_of_overflow (h : entry.run fuel s = some out) (hf : out.result = .error f)
    (ho : f.fault.isOverflow = true) :
    (∃ e expr t, entry.Begins s e expr t ∧ t.eval fuel e expr = some out) ∨
      ∃ g args, entry = .apply g args ∧ s.apply fuel g args = some out := by
  cases entry with
  | eval e expr => exact .inl ⟨e, expr, s, .eval, h⟩
  | apply g args => exact .inr ⟨g, args, rfl, h⟩
  | load e file bytes failure =>
    simp only [Entry.run, State.load] at h
    split at h
    · -- no reader: a fault of another kind
      obtain rfl := Option.some.inj h
      cases hf
      cases ho
    · rename_i hr
      split at h
      · obtain rfl := Option.some.inj h
        cases hf
        cases ho
      · rename_i forms hforms
        obtain ⟨form, t, hb, ht⟩ := begins_of_evalAll h hf
        exact .inl ⟨e, form, t, .load (by simpa using hr) hforms hb, ht⟩

theorem Entry.Visits.within (hl : 0 < s.stack.limit) (hh : (s.stack.height : Int) ≤ s.stack.limit)
    {m : Machine} (h : entry.Visits s m) : (m.state.stack.height : Int) ≤ s.stack.limit := by
  cases h with
  | inside hb h =>
    rw [← hb.stack] at hl hh ⊢
    exact ((within_enter hl hh _ _).reaches hl h).height
  | apply h => exact ((within_application hh _ _).reaches hl h).height

theorem overflows_of_moment (hl : 0 < s.stack.limit)
    (hh : (s.stack.height : Int) ≤ s.stack.limit) {stack : CallStack}
    (h : entry.Moment s stack true) (hheight : (stack.height : Int) = s.stack.limit) :
    ∃ fuel out, entry.run fuel s = some out ∧ out.OverflowsAt s.stack.limit := by
  generalize hask : true = asks at h
  cases h with
  | begins hb =>
    rw [← hb.stack] at hl hh hheight ⊢
    exact hb.overflows (eval_overflows hl hh (.inl hheight))
  | @visits m hv =>
    cases hv with
    | inside hb hr =>
      rw [← hb.stack] at hl hh hheight ⊢
      exact hb.overflows (eval_overflows hl hh (.inr ⟨m, hr, hask.symm, hheight⟩))
    | @apply g args hr =>
      have hm := (within_application hh g args).reaches hl hr
      obtain ⟨o, f, ho, hf, hat⟩ := halts_of_full hl hm hask.symm hheight
      obtain ⟨fuel, hrun⟩ := hr.halts_iff.2 ho
      exact ⟨fuel, o, hrun, f, hf, hat⟩

theorem moment_of_overflow (hl : 0 < s.stack.limit)
    (hh : (s.stack.height : Int) ≤ s.stack.limit) (h : entry.run fuel s = some out)
    (hf : out.result = .error f) (ho : f.fault.isOverflow = true) :
    s.HostRaises f.fault ∨
      (∃ stack, entry.Moment s stack true ∧ (stack.height : Int) = s.stack.limit) ∧
        f.IsOverflowAt s.stack.limit := by
  rcases begins_of_overflow h hf ho with ⟨e, expr, t, hb, ht⟩ | ⟨g, args, rfl, ht⟩
  · rw [← hb.stack] at hl hh ⊢
    refine (full_of_eval hl hh ht hf ho).imp (.of_setup hb.setup) ?_
    rintro ⟨hheight | ⟨m, hr, hask, hheight⟩, hat⟩
    · exact ⟨⟨t.stack, .begins hb, hheight⟩, hat⟩
    · exact ⟨⟨m.state.stack, hask ▸ .visits (.inside hb hr), hheight⟩, hat⟩
  · have hm := within_application hh g args
    refine (full_of_overflow hl hm nofun ⟨fuel, ht⟩ hf ho).imp_right ?_
    rintro ⟨⟨m, hr, hask, hheight⟩, hat⟩
    exact ⟨⟨m.state.stack, hask ▸ .visits (.apply hr), hheight⟩, hat⟩

/-- **The limit holds at every moment, and only it makes an evaluation overflow.** The stack never
gets higher than the limit. If a frame is about to be pushed while the stack is as high as the
limit, the evaluation comes to an overflow that names the height above the limit, with a trace of
as many frames as the limit allows. Every overflow arises in this way, except one that a function of
the embedding program reports as its own. -/
theorem stack_limit {s : State} {limit : Int} (hpos : 0 < limit) (hlimit : s.stack.limit = limit)
    (hheight : (s.stack.height : Int) ≤ limit) (entry : Entry) :
    (∀ stack asks, entry.Moment s stack asks → (stack.height : Int) ≤ limit) ∧
      (∀ stack, entry.Moment s stack true → (stack.height : Int) = limit →
        ∃ fuel out, entry.run fuel s = some out ∧ out.OverflowsAt limit) ∧
      ∀ fuel out f, entry.run fuel s = some out → out.result = .error f →
        f.fault.isOverflow = true →
        s.HostRaises f.fault ∨
          (∃ stack, entry.Moment s stack true ∧ (stack.height : Int) = limit) ∧
            f.IsOverflowAt limit := by
  subst hlimit
  refine ⟨?_, ?_, ?_⟩
  · intro stack asks h
    cases h with
    | begins hb => exact hb.stack ▸ hheight
    | visits hv => exact hv.within hpos hheight
  · intro stack h heq
    exact overflows_of_moment hpos hheight h heq
  · intro fuel out f h hf ho
    exact moment_of_overflow hpos hheight h hf ho

theorem stack_limit_one : ∃ stack : CallStack,
    Entry.Moment { stack := { limit := 1 } } (.eval 0 (.list none [.list none []])) stack true ∧
      (stack.height : Int) = 1 := by
  have h := stack_limit (s := { stack := { limit := 1 } }) Int.one_pos rfl (by decide)
    (.eval 0 (.list none [.list none []]))
  rcases h.2.2 6 _ _ rfl rfl rfl with ⟨host, hhost, -⟩ | ⟨hmoment, -⟩
  · simp at hhost
  · exact hmoment

end Evaluations

end TinyLisp
