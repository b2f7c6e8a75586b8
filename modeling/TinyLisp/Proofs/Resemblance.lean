import TinyLisp.CommandLine.Run
import TinyLisp.Proofs.Vocabulary

/-!
# States that resemble each other

A program cannot find out which files were asked for before it began. So two states that differ in
nothing else, and in which the same was written and logged, go on in the same way: whatever is done
in one is done in the other, and what a command reports of them is the same.

* `State.Resembles`: the states differ in nothing but the files that were asked for on the way.
* `eval_parallel`: an evaluation comes to the same whatever effects there were before it.
* `eval_resembles`, `prepare_resembles`: evaluating an expression and setting an interpreter up come
  to the same in states that resemble each other.
* `ofState_same`: so does what is written when a command ends.
-/

namespace TinyLisp

open State

/-! ## States -/

/-- Whether an effect can be seen from outside; that a file is asked for cannot. -/
def Effect.shows : Effect → Bool
  | .opened _ => false
  | _ => true

/-- The states differ in nothing but the files that were asked for on the way. -/
structure State.Resembles (s t : State) : Prop where
  rest : t = { s with effects := t.effects }
  effects : t.effects.filter Effect.shows = s.effects.filter Effect.shows

/-- Both came to the same, in states that resemble each other. -/
structure SameEnd {α : Type} (r r' : α × State) : Prop where
  result : r'.1 = r.1
  state : r.2.Resembles r'.2

section Resembles

variable {s t u : State} {e : ScopeId}

theorem State.Resembles.refl (s : State) : s.Resembles s := ⟨rfl, rfl⟩

theorem State.Resembles.symm (h : s.Resembles t) : t.Resembles s := ⟨by rw [h.rest], h.effects.symm⟩

theorem State.Resembles.trans (h : s.Resembles t) (h' : t.Resembles u) : s.Resembles u := by
  refine ⟨?_, h'.effects.trans h.effects⟩
  rw [h'.rest, h.rest]

/-- A file that is asked for makes no difference. -/
theorem resembles_opened (s : State) (path : Text) : s.Resembles (s.note (.opened path)) := ⟨rfl, rfl⟩

theorem State.Resembles.note (h : s.Resembles t) (effect : Effect) :
    (s.note effect).Resembles (t.note effect) := by
  refine ⟨by rw [h.rest]; rfl, ?_⟩
  simp only [State.note, List.filter_cons, h.effects]

theorem State.Resembles.debug (h : s.Resembles t) (message : Text) (fields : List (Text × Log.Field)) :
    (s.debug message fields).Resembles (t.debug message fields) := by
  have hlog : t.log = s.log := by rw [h.rest]
  unfold State.debug logRecord
  rw [hlog]
  split
  · exact h.note _
  · exact h

/-- States that differ in nothing but effects are in step on all references. -/
theorem State.inStep_of_rest (h : t = { s with effects := t.effects }) :
    s.InStep (fun _ => True) s.effects t.effects t := by
  have hscopes : t.scopes = s.scopes := by rw [h]
  have hcells : t.cells = s.cells := by rw [h]
  refine ⟨⟨?_, ?_, ?_, fun e _ => ?_, fun c _ => ?_⟩, [], rfl, rfl⟩
  · rw [h]
  · rw [hscopes]
  · rw [hcells]
  · rw [hscopes]
  · rw [hcells]

/-- States in step on all references differ in nothing but effects. -/
theorem State.InStep.rest_eq {past past' : List Effect}
    (h : s.InStep (fun _ => True) past past' t) : t = { s with effects := t.effects } := by
  have hscopes : t.scopes = s.scopes := Array.ext_getElem? fun e => h.scopes e trivial
  have hcells : t.cells = s.cells := Array.ext_getElem? fun c => h.cells c trivial
  rw [h.rest, hscopes, hcells]

/-- Two evaluations came to the same, in states that differ in nothing but effects, and had the same
effects on top of `past` and of `past'`. -/
structure Outcome.Parallel (past past' : List Effect) (o o' : Outcome) : Prop where
  result : o'.result = o.result
  rest : o'.state = { o.state with effects := o'.state.effects }
  effects : ∃ new, o.state.effects = new ++ past ∧ o'.state.effects = new ++ past'

/-- **An evaluation does not look at past effects.** -/
theorem eval_parallel (fuel : Nat) (h : t = { s with effects := t.effects }) (e : ScopeId)
    (expr : Value) :
    Option.Rel (Outcome.Parallel s.effects t.effects) (s.eval fuel e expr)
      (t.eval fuel e expr) := by
  have hrefs : ∀ r ∈ expr.refs, (fun _ : Ref => True) r := fun _ _ => trivial
  have heval := eval_inStep fuel (inStep_of_rest h) s.confines_all (e := e) trivial hrefs
  generalize s.eval fuel e expr = r, t.eval fuel e expr = r' at heval
  cases heval with
  | none => exact .none
  | some ho => exact .some ⟨ho.result, ho.state.rest_eq, ho.state.effects⟩

/-- **An evaluation comes to the same in states that resemble each other.** -/
theorem eval_resembles (fuel : Nat) (h : s.Resembles t) (e : ScopeId) (expr : Value) :
    Option.Rel (fun o o' : Outcome => SameEnd (o.result, o.state) (o'.result, o'.state))
      (s.eval fuel e expr) (t.eval fuel e expr) := by
  have heval := eval_parallel fuel h.rest e expr
  generalize s.eval fuel e expr = r, t.eval fuel e expr = r' at heval
  cases heval with
  | none => exact .none
  | some ho =>
    obtain ⟨new, hs, ht⟩ := ho.effects
    refine .some ⟨ho.result, ho.rest, ?_⟩
    rw [hs, ht, List.filter_append, List.filter_append, h.effects]

/-! ## Setting up -/

/-- A setting is refused by both or by neither. -/
theorem configure_resembles (h : s.Resembles t) (setting : Setting) :
    (∃ fault, s.configure setting = .error fault ∧ t.configure setting = .error fault) ∨
    ∃ s' t', s.configure setting = .ok s' ∧ t.configure setting = .ok t' ∧ s'.Resembles t' := by
  obtain ⟨E, rfl⟩ : ∃ E, t = { s with effects := E } := ⟨_, h.rest⟩
  cases setting with
  | stackLimit limit =>
    simp only [State.configure]
    split
    · exact .inl ⟨_, rfl, rfl⟩
    · exact .inr ⟨_, _, rfl, rfl, rfl, h.effects⟩
  | _ => exact .inr ⟨_, _, rfl, rfl, rfl, h.effects⟩

/-- Settings are refused by both or by neither. -/
theorem configureAll_resembles (h : s.Resembles t) (settings : List Setting) :
    SameEnd (s.configureAll settings) (t.configureAll settings) := by
  induction settings generalizing s t with
  | nil => exact ⟨rfl, h⟩
  | cons setting settings ih =>
    unfold State.configureAll
    rcases configure_resembles h setting with ⟨fault, hs, ht⟩ | ⟨s', t', hs, ht, h'⟩
    · rw [hs, ht]
      exact ⟨rfl, h⟩
    · rw [hs, ht]
      exact ih h'

theorem bindBuiltins_resembles (h : s.Resembles t) (e : ScopeId) (bs : List Builtin) :
    SameEnd (s.bindBuiltins e bs) (t.bindBuiltins e bs) := by
  induction bs generalizing s t with
  | nil => exact ⟨rfl, h⟩
  | cons b bs ih =>
    have hscopes : t.scopes = s.scopes := by rw [h.rest]
    have hfault : t.bindingFault? e b = s.bindingFault? e b := by
      unfold State.bindingFault?
      rw [hscopes]
    have hbind : (s.bind e b.name (.builtin b)).Resembles (t.bind e b.name (.builtin b)) := by
      refine ⟨?_, h.effects⟩
      unfold State.bind
      rw [h.rest]
    unfold State.bindBuiltins
    rw [hfault]
    split
    · exact ⟨rfl, h⟩
    · exact ih hbind

theorem addBuiltins_resembles (h : s.Resembles t) (e : ScopeId) (bs : List Builtin) :
    SameEnd (s.addBuiltins e bs) (t.addBuiltins e bs) := by
  have hregistered : t.registered = s.registered := by rw [h.rest]
  unfold State.addBuiltins State.library
  rw [hregistered]
  exact bindBuiltins_resembles h e _

/-- **Interpreters that resemble each other are set up alike.** -/
theorem prepare_resembles (h : s.Resembles t) (e : ScopeId) (settings : List Setting) :
    SameEnd (s.prepare e settings) (t.prepare e settings) := by
  have hscopes : t.scopes = s.scopes := by rw [h.rest]
  have hconf := configureAll_resembles h settings
  unfold State.prepare
  rw [hscopes]
  generalize s.configureAll settings = r, t.configureAll settings = r' at hconf
  obtain ⟨fault, s₁⟩ := r
  obtain ⟨fault', t₁⟩ := r'
  obtain ⟨rfl, h₁⟩ : fault' = fault ∧ s₁.Resembles t₁ := ⟨hconf.result, hconf.state⟩
  split
  · exact ⟨rfl, h⟩
  · cases fault' with
    | some fault => exact ⟨rfl, h₁⟩
    | none =>
      dsimp only
      have hadd := addBuiltins_resembles h₁ e []
      generalize s₁.addBuiltins e [] = r, t₁.addBuiltins e [] = r' at hadd
      obtain ⟨fault, s₂⟩ := r
      obtain ⟨fault', t₂⟩ := r'
      obtain ⟨rfl, h₂⟩ : fault' = fault ∧ s₂.Resembles t₂ := ⟨hadd.result, hadd.state⟩
      cases fault' with
      | some fault => exact ⟨rfl, h₂⟩
      | none =>
        refine ⟨rfl, ?_⟩
        dsimp only
        rw [show t₂.scopes = s₂.scopes by rw [h₂.rest], show t₂.stack = s₂.stack by rw [h₂.rest],
          show t₂.lenient = s₂.lenient by rw [h₂.rest]]
        exact h₂.debug _ _

end Resembles

namespace CommandLine

/-! ## Results -/

section Results

variable {s t : State}

/-- The results are the same but for the files that were asked for. -/
structure Result.Same (r r' : Result) : Prop where
  status : r'.status = r.status
  stdout : r'.stdout = r.stdout
  stderr : r'.stderr = r.stderr
  log : r'.log = r.log
  files : r'.files = r.files

/-- What is made of some effects can be made without the others. -/
theorem flatMap_filter {p : Effect → Bool} {f : Effect → Text}
    (hf : ∀ effect, p effect = false → f effect = []) (effects : List Effect) :
    (effects.filter p).flatMap f = effects.flatMap f := by
  induction effects with
  | nil => rfl
  | cons effect effects ih =>
    cases hp : p effect with
    | false => rw [List.filter_cons_of_neg (by simp [hp]), List.flatMap_cons, hf effect hp, ih]; rfl
    | true => rw [List.filter_cons_of_pos hp, List.flatMap_cons, List.flatMap_cons, ih]

/-- Effects without a text may be left out. -/
theorem reverse_flatMap_eq {p : Effect → Bool} {f : Effect → Text} {effects effects' : List Effect}
    (h : effects'.filter p = effects.filter p) (hf : ∀ effect, p effect = false → f effect = []) :
    effects'.reverse.flatMap f = effects.reverse.flatMap f := by
  rw [← flatMap_filter hf, ← flatMap_filter hf effects.reverse, List.filter_reverse,
    List.filter_reverse, h]

theorem reverse_flatMap_resembles (h : s.Resembles t) {f : Effect → Text}
    (hf : ∀ path, f (.opened path) = []) :
    t.effects.reverse.flatMap f = s.effects.reverse.flatMap f :=
  reverse_flatMap_eq h.effects fun
    | .opened path, _ => hf path

/-- States that resemble each other have the same result. -/
theorem ofState_none_same (h : s.Resembles t) (log : LogTarget) :
    (Result.ofState none log s).Same (Result.ofState none log t) := by
  have hfiles : t.files = s.files := by rw [h.rest]
  have hstream (stream : Stream) (line : Log.Record → Text) :
      streamText stream line t.effects.reverse = streamText stream line s.effects.reverse :=
    reverse_flatMap_resembles h fun _ => rfl
  have hlog (line : Log.Record → Text) :
      logText line t.effects.reverse = logText line s.effects.reverse :=
    reverse_flatMap_resembles h fun _ => rfl
  unfold Result.ofState
  refine ⟨rfl, hstream _ _, hstream _ _, ?_, ?_⟩
  · simp only [hlog]
  · simp only [hfiles, hlog]

/-- **States that resemble each other give the same result.** -/
theorem ofState_same (h : s.Resembles t) (problem : Option Problem) (log : LogTarget) :
    (Result.ofState problem log s).Same (Result.ofState problem log t) := by
  cases problem with
  | none => exact ofState_none_same h log
  | some p =>
    -- the report is one more text on the error output
    have hcells : t.cells = s.cells := by rw [h.rest]
    have hsaid : (s.say .stderr (p.report s.cells)).Resembles (t.say .stderr (p.report t.cells)) := by
      rw [hcells]
      exact h.note _
    have hsame := ofState_none_same hsaid log
    exact ⟨rfl, hsame.stdout, hsame.stderr, hsame.log, hsame.files⟩

end Results

end CommandLine

end TinyLisp
