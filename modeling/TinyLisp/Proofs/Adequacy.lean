import TinyLisp.Proofs.Refinement

/-!
# The machine evaluates as recursion does

Without a limit on the call stack the machine comes to what evaluation by recursion comes to, and
comes to nothing if that does.

The only thing that the machine's call stack decides is how much `debug-stack` writes, and so, if
the debugging output takes only a number of writes, which `debug-stack` is the first to fail. The
recursion pushes no frames; its debugging output is taken to fail at the same `debug-stack`.

* `Sound`: what the machine comes to in a number of steps, the recursion comes to.
* `Complete`: if the recursion comes to something, the machine does too.
* `eval_iff_recursive`: the two together.
-/

namespace TinyLisp

open Machine Recursive

/-- What an evaluation came to, without the trace. -/
def Outcome.verdict (o : Outcome) : Except Fault Value := o.result.mapError Failure.fault

theorem Outcome.verdict_ok {o : Outcome} {v : Value} (h : o.result = .ok v) :
    o.verdict = .ok v := by
  rw [verdict, h]
  rfl

theorem Outcome.verdict_error {o : Outcome} {f : Failure} (h : o.result = .error f) :
    o.verdict = .error f.fault := by
  rw [verdict, h]
  rfl

variable {σ : Setup} {base : CallStack}

/-- Where an evaluation of a valid machine ends, the state is ready. -/
theorem ready_of_halts {m : Machine} {o : Outcome} (hm : m.Valid) (hsetup : m.state.setup = σ)
    (h : Halts m o) : (o.above []).Valid ∧ o.state.Ready σ := by
  have hvalid := hm.halts h
  have hend : (o.above []).state.setup = σ :=
    (halts_iff_reaches.1 h).preserves (P := fun m => m.state.setup = σ)
      (fun _ _ hm hstep => (setup_step hstep).trans hm) hsetup
  exact ⟨hvalid, hvalid.state, hend⟩

theorem above_of_ok {o : Outcome} {v : Value} (h : o.result = .ok v) (ks : List Kont) :
    o.above ks = { focus := .value v, konts := ks, state := o.state } := by
  simp only [Outcome.above, Outcome.focus, h]

/-- A machine that settles on a result has it. -/
theorem halts_settle {r : Except Fault Value} {s : State} {o : Outcome}
    (h : Halts (Machine.settle r [] s) o) : o.verdict = r ∧ o.state = s := by
  cases r with
  | ok v =>
    obtain rfl := h.unique ⟨1, rfl⟩
    exact ⟨rfl, rfl⟩
  | error fault =>
    obtain rfl := h.unique ⟨1, rfl⟩
    exact ⟨rfl, rfl⟩

/-! ## Debugging output -/

theorem Sink.eq_of_unlimited {d d' : Sink} (h : d.accepts = none) (h' : d'.accepts = none) :
    d = d' :=
  congrArg Sink.mk (h.trans h'.symm)

/-- The sink takes no further write, or every one. -/
def Sink.Spent (d : Sink) : Prop := ∀ n, d.accepts = some n → n = 0

/-- For every output there is one that takes all of the pieces and ends as that output. -/
theorem Sink.exists_writeAll (d' : Sink) (pieces : List Text) :
    ∃ d : Sink, d.accepts.isNone = d'.accepts.isNone ∧ d.writeAll pieces = (pieces, d') := by
  obtain ⟨accepts⟩ := d'
  cases accepts with
  | none => exact ⟨{}, rfl, writeAll_of_unlimited rfl pieces⟩
  | some n => exact ⟨{ accepts := some (n + pieces.length) }, rfl, writeAll_of_enough n pieces⟩

/-- Printing the call stack fails only if the debugging output gives up. -/
theorem State.report_cases (s : State) :
    s.report.1 = .ok .nil ∨
      s.report.1 = .error (.plain Sink.failure) ∧ s.stderr.accepts.isNone = false := by
  cases hd : s.stderr.accepts with
  | none => exact .inl (State.report_of_written (Sink.writeAll_of_unlimited hd _)).1
  | some n =>
    unfold State.report
    split
    · exact .inl rfl
    · exact .inr ⟨rfl, rfl⟩

theorem Sees.report {d d' : Sink} {s t : State} (h : Sees base d s t)
    (hd : t.report.2.stderr = d') : Sees base d' s.report.2 t.report.2 where
  core := by rw [State.report, State.report, State.core_printStack, State.core_printStack, h.core]
  stderr := hd
  stack := (State.quiet_printStack t).1.trans h.stack

/-- Printing the call stack does not run out of steps. -/
theorem run_report (t : State) : Recursive.report.run.run t = some t.report := by
  show (MonadExcept.ofExcept t.report.1 : Action Value).run.run t.report.2 = some t.report
  rcases t.report with ⟨r, t'⟩
  cases r <;> rfl

/-- What debugging output is left to the recursion where the machine came to `o`: nothing after a
failure, since the failure may have been that of `debug-stack`. -/
structure Fits (σ : Setup) (o : Outcome) (d : Sink) : Prop where
  patient : d.accepts.isNone = σ.patient
  spent : ∀ f, o.result = .error f → d.Spent

/-! ## From the machine to the recursion -/

/-- From a state that agrees with `s`, the recursion comes to `o` and leaves `d'` of the debugging
output `d`. -/
def Derives (base : CallStack) (x : Action Value) (s : State) (d : Sink) (o : Outcome) (d' : Sink) :
    Prop :=
  ∀ t, Sees base d s t → ∃ t', x.run.run t = some (o.verdict, t') ∧ Sees base d' o.state t'

/-- Whatever the machine comes to in at most `n` steps, the recursion comes to, for some amount of
debugging output. -/
def Sound (σ : Setup) (base : CallStack) (n : Nat) (x : Action Value) (s : State) (m : Machine) :
    Prop :=
  ∀ k ≤ n, ∀ o, run k m = some o → ∀ d', Fits σ o d' →
    ∃ d : Sink, d.accepts.isNone = σ.patient ∧ Derives base x s d o d'

namespace Sound

variable {n : Nat} {x y : Action Value} {s : State} {m m' : Machine}

/-- A computation that goes further is sound too. -/
theorem below (h : Sound σ base n x s m) (hxy : Below x y) : Sound σ base n y s m := by
  intro k hk o hrun d' hd'
  obtain ⟨d, hd, hder⟩ := h k hk o hrun d' hd'
  refine ⟨d, hd, fun t ht => ?_⟩
  obtain ⟨t', hx, ht'⟩ := hder t ht
  exact ⟨t', hxy t _ hx, ht'⟩

/-- What is sound for a number of steps is sound for fewer. -/
theorem weaken (h : Sound σ base (n + 1) x s m) : Sound σ base n x s m :=
  fun k hk => h k (Nat.le_succ_of_le hk)

/-- The machine may take a step first, at the cost of one of its steps. -/
theorem of_next (hstep : m.step = .next m') (h : Sound σ base n x s m') :
    Sound σ base (n + 1) x s m := by
  intro k hk o hrun d' hd'
  cases k with
  | zero => simp [run] at hrun
  | succ k =>
    rw [run_succ_next hstep] at hrun
    exact h k (by omega) o hrun d' hd'

theorem report (hs : s.setup = σ) :
    Sound σ base n Recursive.report s (Machine.settle s.report.1 [] s.report.2) := by
  intro k hk o hrun d' hd'
  obtain ⟨hverdict, hstate⟩ := halts_settle ⟨k, hrun⟩
  rcases s.report_cases with hdone | ⟨hfailed, hlimited⟩
  · -- the recursion is given the writes that its own stack takes, on top of what is left
    obtain ⟨d, hd, hwrite⟩ := d'.exists_writeAll (base.lines.map (· ++ [10]))
    refine ⟨d, hd.trans hd'.patient, fun t ht => ?_⟩
    have hprint : t.stack.printTo t.stderr = (t.stack.lines.map (· ++ [10]), d') := by
      rw [ht.stack, ht.stderr]
      exact hwrite
    obtain ⟨hr, hleft⟩ := State.report_of_written hprint
    refine ⟨t.report.2, ?_, hstate ▸ ht.report hleft⟩
    rw [run_report, hverdict, hdone, ← hr]
  · -- the machine failed, so the recursion has nothing left and fails too
    have hfail : ∃ f, o.result = .error f := by
      cases hres : o.result with
      | ok v => rw [o.verdict_ok hres, hfailed] at hverdict; cases hverdict
      | error f => exact ⟨f, rfl⟩
    obtain ⟨f, hf⟩ := hfail
    have hspent : d' = { accepts := some 0 } := by
      have hpatient : d'.accepts.isNone = false := by
        rw [hd'.patient, ← hs]
        exact hlimited
      obtain ⟨accepts⟩ := d'
      cases accepts with
      | none => cases hpatient
      | some n => rw [hd'.spent f hf n rfl]
    subst hspent
    refine ⟨_, hd'.patient, fun t ht => ?_⟩
    obtain ⟨hr, hleft⟩ := State.report_of_spent ht.stderr
    refine ⟨t.report.2, ?_, hstate ▸ ht.report hleft⟩
    rw [run_report, hverdict, hfailed, ← hr]

theorem bind {g : Value → Action Value} {ks : List Kont} (hm : m.Valid)
    (hsetup : m.state.setup = σ) (hx : Sound σ base n x s m)
    (hg : ∀ v s', v.Valid → s'.Ready σ →
      Sound σ base n (g v) s' { focus := .value v, konts := ks, state := s' }) :
    Sound σ base n (x >>= g) s (m.atop ks) := by
  intro k hk o hrun d' hd'
  obtain ⟨i, j, o₁, hi, hj, h₁, h₂⟩ := run_atop hrun
  obtain ⟨hvalid, hready⟩ := ready_of_halts hm hsetup ⟨i, h₁⟩
  cases hres : o₁.result with
  | ok v =>
    -- what the rest of the run leaves for it decides what this part is given
    rw [above_of_ok hres] at h₂ hvalid
    obtain ⟨d₁, hd₁, hder₁⟩ := hg v o₁.state hvalid.focus hready j (Nat.le_trans hj hk) o h₂ d' hd'
    have hfit : Fits σ o₁ d₁ := ⟨hd₁, fun f hf => by rw [hres] at hf; cases hf⟩
    obtain ⟨d, hd, hder⟩ := hx i (Nat.le_trans hi hk) o₁ h₁ d₁ hfit
    refine ⟨d, hd, fun t ht => ?_⟩
    obtain ⟨t₁, hx₁, ht₁⟩ := hder t ht
    obtain ⟨t', hx₂, ht'⟩ := hder₁ t₁ ht₁
    refine ⟨t', ?_, ht'⟩
    rw [run_bind, hx₁, o₁.verdict_ok hres]
    exact hx₂
  | error f =>
    -- the failure passes the continuations, and the recursion stops there
    have h₂' : Halts { focus := .failure f, konts := ks, state := o₁.state } o := by
      refine ⟨j, ?_⟩
      rwa [Outcome.above, Outcome.focus, hres] at h₂
    obtain ⟨f', stack, rfl, hfault⟩ := failed_of_halts h₂'
    have hfit : Fits σ o₁ d' := ⟨hd'.patient, fun _ _ => hd'.spent f' rfl⟩
    obtain ⟨d, hd, hder⟩ := hx i (Nat.le_trans hi hk) o₁ h₁ d' hfit
    refine ⟨d, hd, fun t ht => ?_⟩
    obtain ⟨t', hx₁, ht'⟩ := hder t ht
    refine ⟨t', ?_, ht'.withStack stack⟩
    rw [run_bind, hx₁, o₁.verdict_error hres, ← hfault]
    rfl

/-- **Soundness is kept by every layer of the evaluator.** -/
theorem closed (σ : Setup) (base : CallStack) (n : Nat) : Closed σ (Sound σ base n) where
  value v s := by
    intro k hk o hrun d' hd'
    obtain rfl := Halts.unique ⟨k, hrun⟩ ⟨1, rfl⟩
    exact ⟨d', hd'.patient, fun t ht => ⟨t, rfl, ht⟩⟩
  failure f ks s := by
    intro k hk o hrun d' hd'
    obtain ⟨f', stack, rfl, hfault⟩ := failed_of_halts ⟨k, hrun⟩
    refine ⟨d', hd'.patient, fun t ht => ⟨t, ?_, ht.withStack stack⟩⟩
    exact congrArg (fun fault => some (Except.error fault, t)) hfault.symm
  report hs := Sound.report hs
  step hstep h := (h.of_next hstep).weaken
  turn hturn h := by
    intro k hk o hrun d' hd'
    obtain ⟨d, hd, hder⟩ := h k hk o hrun d' hd'
    refine ⟨d, hd, fun t ht => ?_⟩
    obtain ⟨t₁, ht₁, hrun₁⟩ := hturn base d t ht
    obtain ⟨t', hx, ht'⟩ := hder t₁ ht₁
    exact ⟨t', hrun₁.trans hx, ht'⟩
  bind := Sound.bind

end Sound

/-- **The recursion comes to what the machine comes to in `n` steps.** -/
theorem sound (hσ : σ.limit = 0) (base : CallStack) (n : Nat) :
    RelatesExpressions σ (Sound σ base n) (eval (2 * n)) ∧
      RelatesOperands σ (Sound σ base n) (eval (2 * n)) ∧
      RelatesApplications σ (Sound σ base n) (Recursive.apply (2 * n)) := by
  induction n with
  | zero =>
    have hzero (x : Action Value) (s : State) (m : Machine) : Sound σ base 0 x s m := by
      intro k hk o hrun
      obtain rfl : k = 0 := Nat.le_zero.1 hk
      simp [run] at hrun
    exact ⟨fun _ _ => hzero _ _ _, fun _ _ => hzero _ _ _, fun _ _ _ => hzero _ _ _⟩
  | succ n ih =>
    -- a call in tail position takes a layer of the recursion but no step of the machine
    obtain ⟨hev, hop, hap⟩ := ih
    have hR := Sound.closed σ base n
    have hcall : RelatesCalls σ (Sound σ base n) (Recursive.apply (2 * n + 1)) :=
      fun hf ha hs => call_related hR hσ hev hap hf _ ha hs
    have hev' : RelatesExpressions σ (Sound σ base n) (eval (2 * n + 1)) :=
      fun hx hs => (hev hx hs).below ((below_succ _).1 _ _)
    have hop' : RelatesOperands σ (Sound σ base n) (eval (2 * n + 1)) :=
      fun hx hs => (hop hx hs).below ((below_succ _).1 _ _)
    have hap' : RelatesApplications σ (Sound σ base n) (Recursive.apply (2 * n + 1)) :=
      fun hf ha hs => (hap hf ha hs).below ((below_succ _).2 _ _ _)
    have hexpr {e : ScopeId} {expr : Value} {s : State} (hx : expr.Valid) (hs : s.Ready σ) :
        Sound σ base n (eval (2 * (n + 1)) e expr) s (Machine.expression expr e [] s) :=
      expression_related hR hev' hop' hcall hx e hs
    have hnext : RelatesExpressions σ (Sound σ base (n + 1)) (eval (2 * (n + 1))) :=
      fun hx hs => Sound.of_next rfl (hexpr hx hs)
    refine ⟨hnext, fun hx hs => Sound.of_next rfl ?_, fun hf ha hs => Sound.of_next rfl ?_⟩
    · exact operand_related hR hσ (fun hx hs => (hnext hx hs).weaken) hexpr hx _ hs
    · exact apply_related hR hσ hev' hap' hf ha hs

/-! ## From the recursion to the machine -/

/-- If the recursion comes to something where every debugging output is taken, the machine comes to
something: the same, or a failure. -/
def Complete (base : CallStack) (x : Action Value) (s : State) (m : Machine) : Prop :=
  ∀ t r t', Sees base {} s t → x.run.run t = some (r, t') →
    ∃ o, Halts m o ∧ ∀ v, o.result = .ok v → r = .ok v ∧ Sees base {} o.state t'

namespace Complete

variable {x : Action Value} {s : State} {m : Machine}

/-- A computation that runs out of steps promises nothing. -/
theorem exhausted : Complete base Recursive.exhausted s m := by
  intro t r t' ht hx
  exact absurd (show none = some (r, t') from hx) (by simp)

theorem report : Complete base Recursive.report s (Machine.settle s.report.1 [] s.report.2) := by
  intro t r t' ht hx
  obtain ⟨hr, hleft⟩ :=
    State.report_of_written (Sink.writeAll_of_unlimited (by rw [ht.stderr]) (t.stack.lines.map _))
  obtain ⟨rfl, rfl⟩ : t.report.1 = r ∧ t.report.2 = t' := by
    rw [run_report] at hx
    exact Prod.mk.inj (Option.some.inj hx)
  rcases s.report_cases with hdone | ⟨hfailed, -⟩
  · rw [hdone]
    refine ⟨{ result := .ok .nil, state := s.report.2 }, ⟨1, rfl⟩, fun v hv => ?_⟩
    obtain rfl := Except.ok.inj hv
    exact ⟨hr, ht.report (hleft.trans ht.stderr)⟩
  · rw [hfailed]
    exact ⟨_, ⟨1, rfl⟩, nofun⟩

theorem bind {g : Value → Action Value} {ks : List Kont} (hm : m.Valid)
    (hsetup : m.state.setup = σ) (hx : Complete base x s m)
    (hg : ∀ v s', v.Valid → s'.Ready σ →
      Complete base (g v) s' { focus := .value v, konts := ks, state := s' }) :
    Complete base (x >>= g) s (m.atop ks) := by
  intro t r t' ht hbind
  rw [run_bind] at hbind
  cases hxt : x.run.run t with
  | none => simp [hxt] at hbind
  | some p =>
    obtain ⟨r₁, t₁⟩ := p
    obtain ⟨o₁, ho₁, hsame⟩ := hx t r₁ t₁ ht hxt
    cases hres : o₁.result with
    | error f =>
      -- whatever the recursion came to, the machine failed before
      obtain ⟨f', stack, hfail, -⟩ := halts_failure f ks o₁.state
      have habove : Halts (o₁.above ks)
          { result := .error f', state := { o₁.state with stack } } := by
        simpa only [Outcome.above, Outcome.focus, hres] using hfail
      exact ⟨_, halts_atop.2 ⟨o₁, ho₁, habove⟩, nofun⟩
    | ok v =>
      obtain ⟨rfl, ht₁⟩ := hsame v hres
      obtain ⟨hvalid, hready⟩ := ready_of_halts hm hsetup ho₁
      rw [above_of_ok hres] at hvalid
      rw [hxt] at hbind
      obtain ⟨o, ho, hsame'⟩ := hg v o₁.state hvalid.focus hready t₁ r t' ht₁ hbind
      exact ⟨o, halts_atop.2 ⟨o₁, ho₁, above_of_ok hres ks ▸ ho⟩, hsame'⟩

/-- **Completeness is kept by every layer of the evaluator.** -/
theorem closed (σ : Setup) (base : CallStack) : Closed σ (Complete base) where
  value v s := by
    intro t r t' ht hx
    refine ⟨{ result := .ok v, state := s }, ⟨1, rfl⟩, fun w hw => ?_⟩
    obtain ⟨rfl, rfl⟩ : Except.ok v = r ∧ t = t' := by simpa using hx
    obtain rfl := Except.ok.inj hw
    exact ⟨rfl, ht⟩
  failure f ks s := by
    intro t r t' ht hx
    obtain ⟨f', stack, hfail, -⟩ := halts_failure f ks s
    exact ⟨_, hfail, nofun⟩
  report _ := Complete.report
  step hstep h := by
    intro t r t' ht hx
    obtain ⟨o, ho, hsame⟩ := h t r t' ht hx
    exact ⟨o, (halts_next hstep).2 ho, hsame⟩
  turn hturn h := by
    intro t r t' ht hx
    obtain ⟨t₁, ht₁, hrun₁⟩ := hturn base {} t ht
    exact h t₁ r t' ht₁ (hrun₁ ▸ hx)
  bind := Complete.bind

end Complete

/-- **The machine comes to something if the recursion does.** -/
theorem complete (hσ : σ.limit = 0) (base : CallStack) (depth : Nat) :
    RelatesExpressions σ (Complete base) (eval depth) ∧
      RelatesOperands σ (Complete base) (eval depth) ∧
      RelatesCalls σ (Complete base) (Recursive.apply depth) ∧
      RelatesApplications σ (Complete base) (Recursive.apply depth) := by
  induction depth with
  | zero =>
    exact ⟨fun _ _ => .exhausted, fun _ _ => .exhausted, fun _ _ _ => .exhausted,
      fun _ _ _ => .exhausted⟩
  | succ depth ih =>
    obtain ⟨hev, hop, hcall, hap⟩ := ih
    have hR := Complete.closed σ base
    have hexpr {e : ScopeId} {expr : Value} {s : State} (hx : expr.Valid) (hs : s.Ready σ) :
        Complete base (eval (depth + 1) e expr) s (Machine.expression expr e [] s) :=
      expression_related hR hev hop hcall hx e hs
    have hnext : RelatesExpressions σ (Complete base) (eval (depth + 1)) :=
      fun hx hs => hR.step rfl (hexpr hx hs)
    refine ⟨hnext, fun hx hs => hR.step rfl ?_, ?_, fun hf ha hs => hR.step rfl ?_⟩
    · exact operand_related hR hσ hnext hexpr hx _ hs
    · exact fun hf ha hs => call_related hR hσ hev hap hf _ ha hs
    · exact apply_related hR hσ hev hap hf ha hs

/-! ## Both -/

/-- What is observed of an evaluation: its value or fault, the scopes and cells it left, and what
the program has written to its output. -/
structure Observation where
  answer : Except Fault Value
  scopes : Scopes
  cells : Array Value
  output : Text

/-- What is observed of an evaluation that came to `answer` in this state. -/
def State.observed (s : State) (answer : Except Fault Value) : Observation :=
  { answer, scopes := s.scopes, cells := s.cells, output := s.output }

/-- What is observed of an evaluation by the machine. -/
def Outcome.observed (o : Outcome) : Observation := o.state.observed o.verdict

theorem State.observed_of_core {s t : State} (h : t.core = s.core) (answer : Except Fault Value) :
    t.observed answer = s.observed answer :=
  congrArg (fun c : Core => Observation.mk answer c.scopes c.cells c.output) h

/-- The log record of a failure cannot be observed. -/
theorem Outcome.reported_observed (o : Outcome) : o.reported.observed = o.observed := by
  have hcore : o.reported.state.core = o.state.core := by
    unfold Outcome.reported
    split
    · rfl
    · exact State.core_debug _ _ _
  rw [observed, observed, State.observed_of_core hcore, verdict, verdict, o.reported_result]

/-- What can be observed of an evaluation is what can be observed of the run behind it. -/
theorem eval_observed {s : State} {e : ScopeId} {expr : Value} {seen : Observation} :
    (∃ fuel out, s.eval fuel e expr = some out ∧ out.observed = seen) ↔
      ∃ o, Halts (enter [] expr e [] s) o ∧ o.observed = seen := by
  constructor
  · rintro ⟨fuel, out, h, hseen⟩
    rw [State.eval_eq] at h
    obtain ⟨o, ho, rfl⟩ := Option.map_eq_some_iff.1 h
    exact ⟨o, ⟨fuel, ho⟩, o.reported_observed ▸ hseen⟩
  · rintro ⟨o, ⟨fuel, ho⟩, hseen⟩
    refine ⟨fuel, o.reported, ?_, o.reported_observed.trans hseen⟩
    rw [State.eval_eq, ho, Option.map_some]

/-- For every outcome there is a debugging output that fits it. -/
theorem exists_fits (σ : Setup) (o : Outcome) : ∃ d, Fits σ o d := by
  cases h : σ.patient with
  | true => exact ⟨{}, h.symm, nofun⟩
  | false =>
    refine ⟨{ accepts := some 0 }, h.symm, fun f hf n hn => ?_⟩
    exact (Option.some.inj hn).symm

/-- What evaluation by recursion comes to does not depend on the depth. -/
theorem Recursive.eval_unique {n k : Nat} {e : ScopeId} {expr : Value} {s : State}
    {p q : Except Fault Value × State} (h : (eval n e expr).run.run s = some p)
    (h' : (eval k e expr).run.run s = some q) : p = q := by
  have hp := Recursive.eval_mono (Nat.le_max_left n k) e expr s p h
  have hq := Recursive.eval_mono (Nat.le_max_right n k) e expr s q h'
  exact Option.some.inj (hp.symm.trans hq)

/-- **The machine evaluates as recursion does.** Without a limit on the call stack, an evaluation
comes to what evaluation by recursion comes to from the same state, and to nothing if that comes to
nothing. Only if the debugging output takes a limited number of writes, the limit of the recursion
is another one, since it has less to write. -/
theorem eval_iff_recursive {s : State} (hlimit : s.stack.limit = 0) (hs : s.Valid) (e : ScopeId)
    {expr : Value} (hx : expr.Valid) :
    ∃ d : Sink, (s.stderr.accepts = none → d = s.stderr) ∧ ∀ seen : Observation,
      (∃ fuel out, s.eval fuel e expr = some out ∧ out.observed = seen) ↔
        ∃ depth answer t, (Recursive.eval depth e expr).run.run { s with stderr := d } =
          some (answer, t) ∧ t.observed answer = seen := by
  have hready : s.Ready s.setup := ⟨hs, rfl⟩
  simp only [eval_observed]
  by_cases hhalts : ∃ o, Halts (enter [] expr e [] s) o
  · -- both sides are functions, so it is enough that the recursion comes to this outcome
    obtain ⟨o, n, hrun⟩ := hhalts
    have hsound : Sound s.setup s.stack n (eval (2 * n) e expr) s (enter [] expr e [] s) :=
      enter_related (Sound.closed _ _ n) hlimit [] hx e hready
        fun s' hs' => (sound hlimit s.stack n).1 hx hs'
    obtain ⟨d', hd'⟩ := exists_fits s.setup o
    obtain ⟨d, hd, hder⟩ := hsound n (Nat.le_refl n) o hrun d' hd'
    obtain ⟨t, ht, hsees⟩ := hder { s with stderr := d } ⟨rfl, rfl, rfl⟩
    have hobs : t.observed o.verdict = o.observed := State.observed_of_core hsees.core _
    refine ⟨d, fun hstderr => ?_, fun seen => ⟨?_, ?_⟩⟩
    · have hpatient : d.accepts.isNone = true := by
        rw [hd]
        exact Option.isNone_iff_eq_none.2 hstderr
      exact Sink.eq_of_unlimited (Option.isNone_iff_eq_none.1 hpatient) hstderr
    · rintro ⟨o', ho', rfl⟩
      obtain rfl := ho'.unique ⟨n, hrun⟩
      exact ⟨2 * n, _, t, ht, hobs⟩
    · rintro ⟨depth, answer, t', ht', rfl⟩
      obtain ⟨rfl, rfl⟩ := Prod.mk.inj (Recursive.eval_unique ht ht')
      exact ⟨o, ⟨n, hrun⟩, hobs.symm⟩
  · -- the machine goes on for ever, and so does the recursion, whatever is written
    refine ⟨{}, fun hstderr => Sink.eq_of_unlimited rfl hstderr, fun seen => ⟨?_, ?_⟩⟩
    · rintro ⟨o, ho, -⟩
      exact absurd ⟨o, ho⟩ hhalts
    · rintro ⟨depth, answer, t, ht, -⟩
      have hcomplete : Complete s.stack (eval depth e expr) s (enter [] expr e [] s) :=
        enter_related (Complete.closed s.setup _) hlimit [] hx e hready
          fun s' hs' => (complete hlimit s.stack depth).1 hx hs'
      obtain ⟨o, ho, -⟩ := hcomplete { s with stderr := {} } answer t ⟨rfl, rfl, rfl⟩ ht
      exact absurd ⟨o, ho⟩ hhalts

/-- A `swap!` of a closure under no limit, by both evaluators. -/
theorem eval_iff_recursive_swap : ∃ fuel out,
    State.eval fuel { stack := { limit := 0 } } 0
      (.list none [.builtin Primitive.swap.builtin,
        .list none [.builtin Primitive.atom.builtin, .int 1],
        .list none [.symbol "fun*", .list none [.symbol "x"], .int 7]]) = some out ∧
      out.observed.answer = .ok (.atom 0) ∧ out.observed.cells = #[.int 7] := by
  have hx : Value.Valid (.list none [.builtin Primitive.swap.builtin,
      .list none [.builtin Primitive.atom.builtin, .int 1],
      .list none [.symbol "fun*", .list none [.symbol "x"], .int 7]]) := by
    simp [Value.symbol, Value.int, Value.Valid.scalar, Value.Valid.builtin]
  obtain ⟨d, hd, h⟩ := eval_iff_recursive rfl (State.valid_new { limit := 0 }) 0 hx
  rw [hd rfl] at h
  obtain ⟨fuel, out, hout, hseen⟩ := (h _).2 ⟨4, _, _, rfl, rfl⟩
  exact ⟨fuel, out, hout, hseen ▸ ⟨rfl, rfl⟩⟩

end TinyLisp
