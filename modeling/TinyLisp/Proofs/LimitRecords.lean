import TinyLisp.Proofs.Effects
import TinyLisp.Proofs.Overflow
import TinyLisp.Proofs.Vocabulary

/-!
# What the log tells of a full call stack

Frames are pushed for expressions and for built-in functions. If there is no room for the frame of an
expression, the log tells so before the evaluation fails; if there is none for the frame of a built-in
function, it does not. Either way it tells of the failure, and of nothing else besides what built-in
functions read.

* `State.MeetsLimit`: the evaluation is to push a frame onto a full stack.
* `MeetsLimit.halts`: what comes of it; `adds_of_unmet`: what comes of every other evaluation.
* `limit_hits_logged`: the two together, for evaluations with their failure logged.
* `builtin_frame_unlogged`: an overflow that the log tells nothing of but the failure.
-/

namespace TinyLisp

open Machine

/-! ## Records -/

/-- The record of a push that finds `height` frames on a full stack. -/
def Effect.limitReached (height : Nat) : Effect :=
  .logged { level := .debug, message := "stack limit reached", fields := [("height", .number height)] }

/-- The record of a failed evaluation. -/
def Effect.evaluationFailed (condition message : Text) : Effect :=
  .logged
    { level := .debug, message := "evaluation failed"
      fields := [("condition", .text condition), ("error", .text message)] }

/-- What is logged at the end of an evaluation. -/
def Outcome.records (o : Outcome) : List Effect :=
  match o.result with
  | .ok _ => []
  | .error f => [.evaluationFailed f.fault.condition (o.state.message f.fault)]

/-- The evaluation is to push a frame onto a full stack. The flag tells whether it is the frame of a
built-in function, and the number how many frames there are. -/
inductive State.MeetsLimit (s : State) (e : ScopeId) (expr : Value) : Bool → Nat → Prop where
  /-- There is no room for the frame of the evaluation itself. -/
  | full (h : s.stack.isFull = true) : MeetsLimit s e expr false s.stack.height
  | inside {m : Machine} (hr : Reaches (enter [] expr e [] s) m) (h : m.meetsLimit = true) :
      MeetsLimit s e expr m.asksBuiltin m.state.stack.height

variable {s : State} {e : ScopeId} {expr : Value} {m : Machine} {o : Outcome} {fuel : Nat}
  {builtin : Bool} {height : Nat}

/-- What the log keeps is a matter of how the interpreter was set up. -/
theorem admits_of_setup {t : State} (h : t.setup = s.setup) (hlog : s.log.admits .debug = true) :
    t.log.admits .debug = true := by
  rw [show t.log = s.log from congrArg Setup.log h, hlog]

theorem Outcome.reported_effects (hlog : o.state.log.admits .debug = true) :
    o.reported.state.effects = o.reported.records ++ o.state.effects := by
  obtain ⟨result, t⟩ := o
  cases result with
  | ok v => rfl
  | error f =>
    have hlog : t.log.admits .debug = true := hlog
    simp only [Outcome.reported, Outcome.records, State.debug, State.logRecord, hlog]
    rfl

/-! ## Pushes onto a full stack -/

theorem Machine.Emits.of_full {asks : Bool} (h : Emits s asks builtin m)
    (hmeets : (asks && s.stack.isFull) = true) (hlog : s.log.admits .debug = true) :
    m.focus = .failure s.overflowed ∧
      m.state.effects =
        (if builtin then [] else [.limitReached s.stack.height]) ++ s.effects := by
  cases h with
  | program hroom =>
    rw [hmeets] at hroom
    cases hroom
  | unlogged _ hf h => exact ⟨hf, h⟩
  | logged _ hf h =>
    refine ⟨hf, h.trans ?_⟩
    simp only [State.limitReached, State.debug, State.logRecord, hlog]
    rfl

/-- On the way out nothing is added. -/
theorem effects_of_failure {f : Failure} (hf : m.focus = .failure f) (h : Halts m o) :
    ∃ f', o.result = .error f' ∧ f'.fault = f.fault ∧ o.state.effects = m.state.effects := by
  obtain ⟨focus, ks, t⟩ := m
  obtain rfl : focus = .failure f := hf
  obtain ⟨f', stack, rfl, hfault⟩ := failed_of_halts h
  exact ⟨f', rfl, hfault, rfl⟩

theorem setup_inside (hr : Reaches (enter [] expr e [] s) m) : m.state.setup = s.setup :=
  (setup_reaches hr).trans (enter_move [] expr e).setup_eq

/-- What has not failed began with room for the frame of the evaluation, and up to here nothing but
built-in functions was observed. -/
theorem adds_inside (hr : Reaches (enter [] expr e [] s) m) (hm : m.focus.isFailure = false) :
    s.stack.isFull = false ∧ s.Adds Effect.OfProgram m.state := by
  have hadds := adds_of_running hr hm
  have hemits : Emits s true false (enter [] expr e [] s) := enter_emits [] expr e
  have hstays (hstart : (enter [] expr e [] s).focus.isFailure = true) : False := by
    rw [hr.preserves (P := fun m => m.focus.isFailure = true)
      (fun _ _ hf hstep => isFailure_step hstep hf) hstart] at hm
    cases hm
  cases hemits with
  | program hroom h => exact ⟨hroom, h.trans hadds⟩
  | logged _ hf => exact (hstays (by rw [hf]; rfl)).elim

theorem isFailure_of_asksFrame (h : m.asksFrame = true) : m.focus.isFailure = false := by
  unfold asksFrame at h
  split at h <;> simp_all [Focus.isFailure]

/-- The height at which the limit is met. -/
theorem State.MeetsLimit.height_eq (h : s.MeetsLimit e expr builtin height) :
    (height : Int) = max s.stack.limit s.stack.height := by
  cases h with
  | full hfull =>
    obtain ⟨-, hle⟩ := CallStack.isFull_eq_true_iff.1 hfull
    exact (Int.max_eq_right hle).symm
  | @inside m hr hmeets =>
    obtain ⟨hask, hfull⟩ := Bool.and_eq_true_iff.1 hmeets
    have hroom := (adds_inside hr (isFailure_of_asksFrame hask)).1
    have hlimit : m.state.stack.limit = s.stack.limit :=
      ((balanced_enter [] expr e s).reaches hr).limit
    obtain ⟨hpos, hle⟩ := CallStack.isFull_eq_true_iff.1 hfull
    rw [hlimit] at hpos hle
    have hlow : ¬s.stack.limit ≤ s.stack.height := by
      rw [← CallStack.isFull_iff hpos, hroom]
      exact Bool.false_ne_true
    have hwithin := ((within_enter hpos (by omega) expr e).reaches hpos hr).height
    omega

/-- **A push onto a full stack** ends the evaluation. Unless it was for the frame of a built-in
function, the log tells of it. -/
theorem State.MeetsLimit.halts (h : s.MeetsLimit e expr builtin height)
    (hlog : s.log.admits .debug = true) (ho : Halts (enter [] expr e [] s) o) :
    ∃ f earlier, o.result = .error f ∧ f.fault = .stackOverflow (height + 1) ∧
      (∀ x ∈ earlier, x.OfProgram) ∧
      o.state.effects =
        (if builtin then [] else [.limitReached height]) ++ (earlier ++ s.effects) := by
  cases h with
  | full hfull =>
    have hemits : Emits s true false (enter [] expr e [] s) := enter_emits [] expr e
    obtain ⟨hf, heffects⟩ := hemits.of_full (by rw [hfull]; rfl) hlog
    obtain ⟨f, hres, hfault, hend⟩ := effects_of_failure hf ho
    exact ⟨f, [], hres, hfault, nofun, hend.trans heffects⟩
  | @inside m hr hmeets =>
    have hask := (Bool.and_eq_true_iff.1 hmeets).1
    obtain ⟨m', hstep⟩ := step_of_asksFrame hask
    obtain ⟨earlier, hearlier, hall⟩ := (adds_inside hr (isFailure_of_asksFrame hask)).2
    obtain ⟨hf, heffects⟩ :=
      (step_emits hstep).of_full hmeets (admits_of_setup (setup_inside hr) hlog)
    obtain ⟨f, hres, hfault, hend⟩ :=
      effects_of_failure hf ((halts_next hstep).1 (hr.halts_iff.1 ho))
    refine ⟨f, earlier, hres, hfault, hall, hend.trans ?_⟩
    rw [heffects, hearlier]

theorem Machine.Move.meets_of_overflow {ks : List Kont} {asks : Bool} {f : Failure}
    (h : Move ks s asks m) (hf : m.focus = .failure f) (ho : f.fault.isOverflow = true) :
    s.HostRaises f.fault ∨ (asks && s.stack.isFull) = true := by
  cases h with
  | failure f' _ hraise =>
    obtain rfl := Focus.failure.inj hf
    exact .inl (hraise ho)
  | push _ _ _ _ _ _ _ hraise => exact .inl (hraise f hf ho)
  | overflow hfull => exact .inr hfull
  | _ => cases hf

/-- A step into an overflow that the embedding program does not report meets the limit. -/
theorem meetsLimit_of_overflow {m' : Machine} {base : CallStack} {f : Failure}
    (hm : Balanced base m) (hrunning : ∀ f, m.focus ≠ .failure f) (h : m.step = .next m')
    (hf : m'.focus = .failure f) (ho : f.fault.isOverflow = true) :
    m.state.HostRaises f.fault ∨ m.meetsLimit = true := by
  cases advance_of_step hm.framed h with
  | leaveValue => cases hf
  | leaveFailure f' => exact absurd rfl (hrunning f')
  | unwind f' => exact absurd rfl (hrunning f')
  | resume _ _ _ _ _ hmove => exact hmove.meets_of_overflow hf ho
  | begin _ _ _ _ _ hmove => exact hmove.meets_of_overflow hf ho

/-- **Where the limit is not met**, no overflow arises but one that a function of the embedding program
reports, and nothing is observed but built-in functions. -/
theorem adds_of_unmet (h : ∀ builtin height, ¬s.MeetsLimit e expr builtin height)
    (ho : Halts (enter [] expr e [] s) o) :
    (∀ f, o.result = .error f → f.fault.isOverflow = true → s.HostRaises f.fault) ∧
      s.Adds Effect.OfProgram o.state := by
  have hend : Reaches (enter [] expr e [] s) (o.above []) := halts_iff_reaches.1 ho
  rcases running_or_failing hend with hrunning | ⟨fault, stack, hfails, hfailing, -⟩
  · obtain ⟨v, hv⟩ := hrunning.ended rfl
    refine ⟨fun f hf => ?_, (adds_inside hend (by rw [hv]; rfl)).2⟩
    have hfocus : (o.above []).focus = .failure f := by simp only [Outcome.above, Outcome.focus, hf]
    exact absurd hfocus (hrunning.running f)
  have hres := hfailing.eq_of_above
  cases hfails with
  | full hfull => exact absurd (.full hfull) (h _ _)
  | @inside m _ _ hr hfails =>
    obtain ⟨m', f, hstep, hf, rfl, -⟩ := hfails.step
    have hunmet : m.meetsLimit = false := by
      cases hmeets : m.meetsLimit with
      | false => rfl
      | true => exact absurd (.inside hr hmeets) (h _ _)
    have hm : m.focus.isFailure = false := by
      cases hfocus : m.focus with
      | failure f => exact absurd hfocus (hfails.running f)
      | _ => rfl
    obtain ⟨f', hres', -, heffects⟩ :=
      effects_of_failure hf ((halts_next hstep).1 (hr.halts_iff.1 ho))
    refine ⟨fun f' hf' hover => ?_, ?_⟩
    · have hbalanced := (balanced_enter [] expr e s).reaches hr
      obtain rfl := Except.error.inj (hres.symm.trans hf')
      rcases meetsLimit_of_overflow hbalanced hfails.running hstep hf hover with hraises | hmeets
      · exact hraises.of_setup (setup_inside hr)
      · rw [hunmet] at hmeets
        cases hmeets
    · have hstays : m.state.Adds Effect.OfProgram m'.state := by
        have hemits := step_emits hstep
        unfold meetsLimit at hunmet
        generalize m.asksFrame = asks, m.asksBuiltin = builtin at hemits hunmet
        cases hemits with
        | program _ hadds => exact hadds
        | unlogged hfull => simp [hfull] at hunmet
        | logged hfull => simp [hfull] at hunmet
      obtain ⟨new, hnew, hall⟩ := (adds_inside hr hm).2.trans hstays
      exact ⟨new, heffects.trans hnew, hall⟩

/-- **Which overflows the log tells of.** An evaluation that is to push a frame onto a full stack fails
with the overflow at that height, which is the limit unless the stack was higher to begin with. The
last record is the one of the failure. The one before it tells of the full stack if the frame was
one for an expression: for the evaluation itself, for a list in it, or for a closure that `swap!`
applies. If it was the frame of a built-in function, there is no such record. Any other evaluation
overflows only if a function of the embedding program says so, and has no such record either. -/
theorem limit_hits_logged {out : Outcome} (hlog : s.log.admits .debug = true)
    (h : s.eval fuel e expr = some out) :
    (∀ builtin height, s.MeetsLimit e expr builtin height →
      (height : Int) = max s.stack.limit s.stack.height ∧
      ∃ f message earlier, out.result = .error f ∧ f.fault = .stackOverflow (height + 1) ∧
        (∀ x ∈ earlier, x.OfProgram) ∧
        out.state.effects = .evaluationFailed "stack-overflow" message ::
          ((if builtin then [] else [.limitReached height]) ++ (earlier ++ s.effects))) ∧
    ((∀ builtin height, ¬s.MeetsLimit e expr builtin height) →
      (∀ f, out.result = .error f → f.fault.isOverflow = true → s.HostRaises f.fault) ∧
      ∃ earlier, (∀ x ∈ earlier, x.OfProgram) ∧
        out.state.effects = out.records ++ (earlier ++ s.effects)) := by
  have hlogged := admits_of_setup (eval_setup h) hlog
  rw [State.eval_eq] at h
  obtain ⟨o, hrun, rfl⟩ := Option.map_eq_some_iff.1 h
  have ho : Halts (enter [] expr e [] s) o := ⟨fuel, hrun⟩
  have hlogged' := admits_of_setup (later_reported o).setup.symm hlogged
  refine ⟨fun builtin height hmeets => ⟨hmeets.height_eq, ?_⟩, fun hunmet => ?_⟩
  · obtain ⟨f, earlier, hres, hfault, hall, heffects⟩ := hmeets.halts hlog ho
    have hreported : o.reported.result = .error f := o.reported_result.trans hres
    refine ⟨f, o.reported.state.message f.fault, earlier, hreported, hfault, hall, ?_⟩
    rw [Outcome.reported_effects hlogged', heffects]
    simp only [Outcome.records, hreported, hfault]
    rfl
  · obtain ⟨hraises, earlier, heffects, hall⟩ := adds_of_unmet hunmet ho
    refine ⟨fun f hf => hraises f (o.reported_result.symm.trans hf), earlier, hall, ?_⟩
    rw [Outcome.reported_effects hlogged', heffects]

/-- A list in a list, with room for one frame. -/
theorem limit_hits_logged_nested : ∃ out f message earlier,
    State.eval 6 { stack := { limit := 1 }, log := some .debug } 0 (.list none [.list none []]) =
        some out ∧
      out.result = .error f ∧ f.fault = .stackOverflow 2 ∧
      out.state.effects =
        .evaluationFailed "stack-overflow" message :: .limitReached 1 :: (earlier ++ []) := by
  have hmeets : State.MeetsLimit { stack := { limit := 1 }, log := some .debug } 0
      (.list none [.list none []]) _ _ :=
    .inside (.head rfl (.refl _)) rfl
  have heval : State.eval 6 { stack := { limit := 1 }, log := some .debug } 0
      (.list none [.list none []]) = some _ := rfl
  obtain ⟨-, f, message, earlier, hf, hfault, -, heffects⟩ :=
    (limit_hits_logged rfl heval).1 _ _ hmeets
  exact ⟨_, f, message, earlier, heval, hf, hfault, heffects⟩

/-- A call of a built-in function in the only frame there is room for: the overflow is not preceded by
a record of the full stack. -/
theorem builtin_frame_unlogged : ∃ out f,
    State.eval 12 { stack := { limit := 1 }, log := some .debug } 0
        (.list none [.builtin Primitive.add.builtin, Value.int 1, Value.int 2]) = some out ∧
      out.result = .error f ∧ f.fault = .stackOverflow 2 ∧
      out.state.effects = [.evaluationFailed "stack-overflow" (out.state.message f.fault)] :=
  ⟨_, _, rfl, rfl, rfl, rfl⟩

end TinyLisp
