import TinyLisp.Proofs.WrappedSteps

/-!
# Wrapping an expression does not change a program

An operand is not evaluated like an expression: what is no list is not given a frame, and is told
apart by cases of its own. `(do e)` is a list and sends `e` the long way. Both ways come to the same,
with one exception: the invalid value, which an embedding program can make by mistake, passes for a
value as an operand, but fails where it is evaluated as an expression.

* `operand_agrees_enter`, `operand_invalid`: an operand and the same value in a frame of its own.
* `halts_wrapped`, `halts_of_wrapped`: a program and the wrapped program come to an end together.
* `wrapping_agrees`: the result, down to what can be seen of an evaluation.

The frame around a wrapped constant or name is there for a moment only, but it needs room: the
program must not fill the call stack (`Machine.HasRoom`).
-/

namespace TinyLisp

open Machine

/-! ## Operands -/

/-- Both evaluations came to the same value or fault and left the same state; the traces may
differ. -/
structure Outcome.SameCause (o o' : Outcome) : Prop where
  result : o'.result.mapError Failure.fault = o.result.mapError Failure.fault
  state : o'.state = o.state

section Operands

variable {s : State} {v : Value}

/-- What is had in a frame without further continuations. -/
theorem halts_settled (r : Except Fault Value) {stack : CallStack}
    (hpush : s.stack.push [] false = some stack) :
    ∃ o o', Halts (settle r [] s) o ∧ Halts (settle r [.leave] { s with stack }) o' ∧
      o.SameCause o' := by
  have hdrop : { s with stack := stack.drop } = s := by
    rw [CallStack.drop_of_push hpush]
  cases r with
  | ok v => exact ⟨_, _, ⟨1, rfl⟩, ⟨2, rfl⟩, ⟨rfl, hdrop⟩⟩
  | error f => exact ⟨_, _, ⟨1, rfl⟩, ⟨2, rfl⟩, ⟨rfl, hdrop⟩⟩

/-- **An operand is evaluated as in a frame of its own**, unless it is invalid. -/
theorem operand_agrees_enter (hroom : s.stack.isFull = false) (hv : v.kind ≠ .invalid)
    (e : ScopeId) :
    (∀ o, Halts (operand v e [] s) o → ∃ o', Halts (enter [] v e [] s) o' ∧ o.SameCause o') ∧
      ∀ o', Halts (enter [] v e [] s) o' → ∃ o, Halts (operand v e [] s) o ∧ o.SameCause o' := by
  by_cases hlist : v.kind = .list
  · cases v with
    | list source items =>
      -- a list has a frame of its own in any case
      exact ⟨fun o h => ⟨o, h, rfl, rfl⟩, fun o h => ⟨o, h, rfl, rfl⟩⟩
    | scalar source content => cases content <;> cases hlist
    | _ => cases hlist
  · obtain ⟨stack, hpush⟩ := CallStack.push_of_room hroom [] false
    obtain ⟨r, hr⟩ := exists_settle hlist hv e s
    obtain ⟨o, o', h, h', hsame⟩ := halts_settled r hpush
    have hoperand : operand v e [] s = settle r [] s := (hr s.stack []).1
    have henter : (enter [] v e [] s).step = .next (settle r [.leave] { s with stack }) := by
      rw [← (hr stack [.leave]).2]
      simp only [enter, hpush]
      rfl
    rw [hoperand]
    refine ⟨fun o₁ h₁ => ⟨o', (halts_next henter).2 h', ?_⟩, fun o₁ h₁ => ⟨o, h, ?_⟩⟩
    · rwa [h₁.unique h]
    · rwa [((halts_next henter).1 h₁).unique h']

/-- **An invalid value** passes as an operand, and fails in a frame of its own. -/
theorem operand_invalid (hroom : s.stack.isFull = false) (u : Untyped) (e : ScopeId) :
    Halts (operand (.invalid u) e [] s) { result := .ok (.invalid u), state := s } ∧
      ∃ trace, Halts (enter [] (.invalid u) e [] s)
        { result := .error { fault := invalidValue, trace }, state := s } := by
  obtain ⟨stack, hpush⟩ := CallStack.push_of_room hroom [] false
  have hdrop := CallStack.drop_of_push hpush
  refine ⟨⟨1, rfl⟩, some stack, 3, ?_⟩
  simp only [enter, hpush, run, step, expression, fail, unwind, Failure.attach, hdrop]

end Operands

/-! ## Runs -/

namespace Machine

variable {m m' n : Machine} {o o' : Outcome}

/-- Wherever the run gets to, there is room for another frame. -/
def HasRoom (m : Machine) : Prop := ∀ n, Reaches m n → n.state.stack.isFull = false

theorem HasRoom.next (h : m.HasRoom) (hstep : m.step = .next n) : n.HasRoom :=
  fun _ hr => h _ (hr.head hstep)

/-- Without a limit there is always room. -/
theorem hasRoom_of_unlimited (h : m.state.stack.limit ≤ 0) : m.HasRoom := by
  intro n hr
  have hsetup : n.state.setup = m.state.setup :=
    hr.preserves (P := fun n => n.state.setup = m.state.setup)
      (fun _ _ hm hstep => (setup_step hstep).trans hm) rfl
  have hlimit : n.state.stack.limit = m.state.stack.limit := congrArg Setup.limit hsetup
  unfold CallStack.isFull
  rw [hlimit, decide_eq_false (by omega), Bool.false_and]

theorem Advances.reaches (h : Advances m m') : Reaches m m' := h.to_reflTransGen

theorem Advances.run (h : Advances m m') {fuel : Nat} (hrun : run fuel m = some o) :
    ∃ fuel' < fuel, Machine.run fuel' m' = some o := by
  induction h generalizing fuel with
  | single hstep =>
    cases fuel with
    | zero => simp [Machine.run] at hrun
    | succ fuel => exact ⟨fuel, Nat.lt_succ_self _, run_succ_next hstep fuel ▸ hrun⟩
  | tail _ hstep ih =>
    obtain ⟨fuel', hlt, hrun'⟩ := ih hrun
    cases fuel' with
    | zero => simp [Machine.run] at hrun'
    | succ fuel' => exact ⟨fuel', by omega, run_succ_next hstep fuel' ▸ hrun'⟩

/-- **What a program comes to, the wrapped program comes to.** -/
theorem halts_wrapped (hhosts : ∀ host ∈ m.state.hosts, Host.IgnoresBodies host)
    (hroom : m.HasRoom) (h : m.Wrapped m') (hhalts : Halts m o) :
    ∃ o', Halts m' o' ∧ o.Wrapped o' := by
  obtain ⟨fuel, hrun⟩ := hhalts
  induction fuel generalizing m m' with
  | zero => simp [run] at hrun
  | succ fuel ih =>
    cases hstep : m.step with
    | next n =>
      obtain ⟨n', hadv, hrel⟩ := step_wrapped hhosts (hroom m (.refl m)) h hstep
      have hsame := State.hosts_of_setup (setup_step hstep)
      obtain ⟨o', hhalts, hout⟩ :=
        ih (hsame ▸ hhosts) (hroom.next hstep) hrel (run_succ_next hstep fuel ▸ hrun)
      exact ⟨o', hadv.reaches.halts_iff.2 hhalts, hout⟩
    | done o₁ =>
      obtain rfl : o₁ = o := Option.some.inj ((run_succ_done hstep fuel).symm.trans hrun)
      obtain ⟨o', hdone, hout⟩ := done_wrapped h hstep
      exact ⟨o', ⟨1, run_succ_done hdone 0⟩, hout⟩

/-- **What the wrapped program comes to, the program comes to.** The wrapped program takes at least
as many steps, so the induction is on its run. -/
theorem halts_of_wrapped (hhosts : ∀ host ∈ m.state.hosts, Host.IgnoresBodies host)
    (hroom : m.HasRoom) (h : m.Wrapped m') (hhalts : Halts m' o') :
    ∃ o, Halts m o ∧ o.Wrapped o' := by
  obtain ⟨fuel, hrun⟩ := hhalts
  induction fuel using Nat.strong_induction_on generalizing m m' with
  | _ fuel ih =>
    cases hstep : m.step with
    | next n =>
      obtain ⟨n', hadv, hrel⟩ := step_wrapped hhosts (hroom m (.refl m)) h hstep
      have hsame := State.hosts_of_setup (setup_step hstep)
      obtain ⟨fuel', hlt, hrun'⟩ := hadv.run hrun
      obtain ⟨o, hhalts, hout⟩ := ih fuel' hlt (hsame ▸ hhosts) (hroom.next hstep) hrel hrun'
      exact ⟨o, (halts_next hstep).2 hhalts, hout⟩
    | done o =>
      obtain ⟨o₁, hdone, hout⟩ := done_wrapped h hstep
      have hhalts : Halts m' o₁ := ⟨1, run_succ_done hdone 0⟩
      obtain rfl := hhalts.unique ⟨fuel, hrun⟩
      exact ⟨o, ⟨1, run_succ_done hstep 0⟩, hout⟩

end Machine

/-! ## Programs -/

/-- What is shown of an outcome: the condition and the message of a failure, or the printed value. -/
def Outcome.shown (o : Outcome) : Except (Text × Text) Text :=
  match o.result with
  | .ok v => .ok (o.state.printed v)
  | .error f => .error (f.fault.condition, o.state.message f.fault)

namespace Outcome.Wrapped

variable {o o' : Outcome}

theorem reported (h : o.Wrapped o') : o.reported.Wrapped o'.reported := by
  cases h with
  | value hv hstate => exact .value hv hstate
  | @failure f g s t hf hstate =>
    have hmessage : t.message g.fault = s.message f.fault := hf.message hstate.cells
    refine .failure hf ?_
    simp only [hf.condition, hmessage]
    exact hstate.debug _ _

/-- The wrapped program shows the same. -/
theorem shown_eq (h : o.Wrapped o') : o'.shown = o.shown := by
  cases h with
  | value hv hstate =>
    exact congrArg Except.ok (TinyLisp.Wrapped.render_eq hstate.cells hv)
  | failure hf hstate =>
    exact congrArg Except.error (Prod.ext hf.condition (hf.message hstate.cells))

theorem effects_eq (h : o.Wrapped o') : o'.state.effects = o.state.effects := by
  cases h with
  | value _ hstate => rw [hstate.rest]
  | failure _ hstate => rw [hstate.rest]

end Outcome.Wrapped

/-- **A program and the wrapped program** come to an end together, with the same outcome, wrapped
here and there; they show the same and have had the same effects. -/
theorem eval_wrapped {s t : State} {expr expr' : Value} (e : ScopeId)
    (h : Wrapped .expression expr expr') (hstate : s.Wrapped t)
    (hhosts : ∀ host ∈ s.hosts, Host.IgnoresBodies host) (hroom : (enter [] expr e [] s).HasRoom) :
    (∀ fuel o, s.eval fuel e expr = some o → ∃ fuel' o', t.eval fuel' e expr' = some o' ∧
      o.Wrapped o' ∧ o'.shown = o.shown ∧ o'.state.effects = o.state.effects) ∧
    ∀ fuel o', t.eval fuel e expr' = some o' → ∃ fuel' o, s.eval fuel' e expr = some o ∧
      o.Wrapped o' ∧ o'.shown = o.shown ∧ o'.state.effects = o.state.effects := by
  have hrel := enter_wrapped [] h e .nil hstate
  have hhosts' : ∀ host ∈ (enter [] expr e [] s).state.hosts, Host.IgnoresBodies host := by
    rwa [State.hosts_of_setup (enter_move [] expr e).setup_eq]
  constructor
  · intro fuel o ho
    rw [State.eval_eq] at ho
    obtain ⟨o₁, h₁, rfl⟩ := Option.map_eq_some_iff.1 ho
    obtain ⟨o', ⟨fuel', h'⟩, hout⟩ := halts_wrapped hhosts' hroom hrel ⟨fuel, h₁⟩
    refine ⟨fuel', o'.reported, ?_, hout.reported, hout.reported.shown_eq, hout.reported.effects_eq⟩
    rw [State.eval_eq, h', Option.map_some]
  · intro fuel o' ho
    rw [State.eval_eq] at ho
    obtain ⟨o₁, h₁, rfl⟩ := Option.map_eq_some_iff.1 ho
    obtain ⟨o, ⟨fuel', h'⟩, hout⟩ := halts_of_wrapped hhosts' hroom hrel ⟨fuel, h₁⟩
    refine ⟨fuel', o.reported, ?_, hout.reported, hout.reported.shown_eq, hout.reported.effects_eq⟩
    rw [State.eval_eq, h', Option.map_some]

/-- **Evaluating an operand is evaluating an expression**, but for invalid values: an operand that
is none comes to what it comes to in a frame of its own, while an invalid one passes for a value
instead of failing. So a program in which valid operands are wrapped does what the program does, as
long as there is room on the call stack. -/
theorem wrapping_agrees (s : State) (e : ScopeId) :
    (s.stack.isFull = false → ∀ v : Value, v.kind ≠ .invalid →
      (∀ o, Halts (operand v e [] s) o → ∃ o', Halts (enter [] v e [] s) o' ∧ o.SameCause o') ∧
      ∀ o', Halts (enter [] v e [] s) o' → ∃ o, Halts (operand v e [] s) o ∧ o.SameCause o') ∧
    (s.stack.isFull = false → ∀ u : Untyped,
      Halts (operand (.invalid u) e [] s) { result := .ok (.invalid u), state := s } ∧
      ∃ trace, Halts (enter [] (.invalid u) e [] s)
        { result := .error { fault := invalidValue, trace }, state := s }) ∧
    ∀ t expr expr', s.Wrapped t → Wrapped .expression expr expr' →
      (∀ host ∈ s.hosts, Host.IgnoresBodies host) → (enter [] expr e [] s).HasRoom →
      (∀ fuel o, s.eval fuel e expr = some o → ∃ fuel' o', t.eval fuel' e expr' = some o' ∧
        o.Wrapped o' ∧ o'.shown = o.shown ∧ o'.state.effects = o.state.effects) ∧
      ∀ fuel o', t.eval fuel e expr' = some o' → ∃ fuel' o, s.eval fuel' e expr = some o ∧
        o.Wrapped o' ∧ o'.shown = o.shown ∧ o'.state.effects = o.state.effects :=
  ⟨fun hroom _ hv => operand_agrees_enter hroom hv e, fun hroom u => operand_invalid hroom u e,
    fun _ _ _ hstate h hhosts hroom => eval_wrapped e h hstate hhosts hroom⟩

/-- The condition is wrapped, and an operand in the branch that it chooses. -/
theorem wrapping_agrees_branch : ∃ fuel o,
    State.eval fuel { stack := { limit := 0 } } 0 (.list none [.symbol "if",
      Value.wrapped (.bool true),
      .list none [.builtin Primitive.add.builtin, .int 1, Value.wrapped (.int 2)], .nil]) = some o ∧
    o.result = .ok (.int 3) := by
  obtain ⟨o, h, hresult⟩ : ∃ o, State.eval 20 { stack := { limit := 0 } } 0
      (.list none [.symbol "if", .bool true,
        .list none [.builtin Primitive.add.builtin, .int 1, .int 2], .nil]) = some o ∧
      o.result = .ok (.int 3) := ⟨_, rfl, rfl⟩
  have hcondition : Wrapped .operand (.bool true) (Value.wrapped (.bool true)) :=
    .wrap none none nofun .scalar
  have hyes : Wrapped .expression (.list none [.builtin Primitive.add.builtin, .int 1, .int 2])
      (.list none [.builtin Primitive.add.builtin, .int 1, Value.wrapped (.int 2)]) :=
    .item .expression none [.builtin Primitive.add.builtin, .int 1] [] nofun
  have hprogram : Wrapped .expression
      (.list none [.symbol "if", .bool true,
        .list none [.builtin Primitive.add.builtin, .int 1, .int 2], .nil])
      (.list none [.symbol "if", Value.wrapped (.bool true),
        .list none [.builtin Primitive.add.builtin, .int 1, Value.wrapped (.int 2)], .nil]) :=
    .list (.cons .scalar (.cons hcondition (.cons hyes (.cons .scalar .nil))))
  obtain ⟨fuel, o', h', hrel, -, -⟩ := ((wrapping_agrees { stack := { limit := 0 } } 0).2.2 _ _ _
    (.refl _) hprogram (fun _ hhost => nomatch hhost) (hasRoom_of_unlimited (by decide))).1 20 o h
  refine ⟨fuel, o', h', ?_⟩
  cases hrel with
  | value hv _ =>
    obtain rfl := Except.ok.inj hresult
    cases hv with
    | scalar => rfl
    | wrap _ _ hmay _ => exact hmay.elim
  | failure => cases hresult

/-- Wrapping an invalid operand changes what a program does: `list?` does not mind it, but a
sequence cannot evaluate it. -/
theorem invalid_operand_differs : ∃ o o',
    State.eval 20 {} 0 (.list none [.builtin Primitive.isList.builtin, .invalid {}]) = some o ∧
    o.result = .ok (.bool false) ∧
    State.eval 20 {} 0 (.list none [.builtin Primitive.isList.builtin,
      Value.wrapped (.invalid {})]) = some o' ∧
    ∃ f, o'.result = .error f ∧ f.fault = invalidValue :=
  ⟨_, _, rfl, rfl, rfl, _, rfl, rfl⟩

end TinyLisp
