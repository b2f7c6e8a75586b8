import TinyLisp.Proofs.Layout
import TinyLisp.Proofs.Overflow
import TinyLisp.Proofs.PlacelessRuns

/-!
# Evaluation ignores places

What two evaluations that differ in places alone have in common (`Outcome.Alike`): how they end,
what they leave behind, what was written, and the messages but for the places in them.

* `State.eval_alike`, `State.load_alike`: expressions and sources.
* `evaluation_place_free`: evaluation ignores places, layout and file names.
-/

namespace TinyLisp

open Machine

/-! ## What is the same -/

/-- The text that an effect adds to a stream. -/
def Effect.textOn (stream : Stream) : Effect → Text
  | .wrote _ stream' text => if stream' = stream then text else []
  | _ => []

/-- What has been written to a stream. -/
def State.written (s : State) (stream : Stream) : Text :=
  s.effects.reverse.flatMap (Effect.textOn stream)

/-- The two states are the same up to places, and the same texts were written. -/
structure State.Alike (s t : State) : Prop where
  unplaced : s.unplaced = t.unplaced
  written : ∀ stream, s.written stream = t.written stream

/-- The two evaluations came to the same up to places. -/
inductive Outcome.Alike : Outcome → Outcome → Prop
  | value {v w : Value} {s t : State} (hvalue : v.unplaced = w.unplaced) (hstate : s.Alike t) :
      Alike { result := .ok v, state := s } { result := .ok w, state := t }
  /-- The call stacks are the same, and so are the messages but for the place of an empty call or a
  malformed form. -/
  | failure {f g : Failure} {s t : State} (hfault : f.fault.unplaced = g.fault.unplaced)
      (hcondition : f.fault.condition = g.fault.condition)
      (hmessage : t.message g.fault = s.message (f.fault.placedAt g.fault.place))
      (htrace : f.trace = g.trace) (hstate : s.Alike t) :
      Alike { result := .error f, state := s } { result := .error g, state := t }

theorem State.written_unplaced (s : State) (stream : Stream) :
    s.unplaced.written stream = s.written stream := by
  have htext : ∀ effect : Effect, effect.unplaced.textOn stream = effect.textOn stream := by
    intro effect
    cases effect <;> rfl
  simp only [State.written, State.unplaced, ← List.map_reverse, List.flatMap_map, htext]

theorem State.alike_of_unplaced {s t : State} (h : s.unplaced = t.unplaced) : s.Alike t where
  unplaced := h
  written stream := by rw [← s.written_unplaced, h, t.written_unplaced]

theorem Outcome.alike_of_unplaced {o o' : Outcome} (h : o.unplaced = o'.unplaced) : o.Alike o' := by
  obtain ⟨r, s⟩ := o
  obtain ⟨r', t⟩ := o'
  obtain ⟨hresult, hstate⟩ := Outcome.mk.inj h
  have halike := State.alike_of_unplaced hstate
  cases r with
  | ok v =>
    cases r' with
    | ok w => exact .value (Except.ok.inj hresult) halike
    | error g => cases hresult
  | error f =>
    cases r' with
    | ok w => cases hresult
    | error g =>
      obtain ⟨hfault, htrace⟩ := Failure.mk.inj (Except.error.inj hresult)
      have hcells : s.cells.map Value.unplaced = t.cells.map Value.unplaced :=
        congrArg State.cells hstate
      have hmessage := Fault.message_eq hfault hcells
      exact .failure hfault (Fault.condition_eq hfault) hmessage htrace halike

/-- The record of a failure is the same but for the text of the fault. -/
theorem State.debug_failure_unplaced {s t : State} {f g : Failure} (hst : s.unplaced = t.unplaced)
    (hfault : f.fault.unplaced = g.fault.unplaced) (text text' : Text) :
    (s.debug "evaluation failed"
        [("condition", .text f.fault.condition), ("error", .text text)]).unplaced =
      (t.debug "evaluation failed"
        [("condition", .text g.fault.condition), ("error", .text text')]).unplaced := by
  rw [State.debug_unplaced, State.debug_unplaced, hst, Fault.condition_eq hfault]
  with_unfolding_all rfl

theorem Outcome.reported_unplaced {o o' : Outcome} (h : o.unplaced = o'.unplaced) :
    o.reported.unplaced = o'.reported.unplaced := by
  obtain ⟨r, s⟩ := o
  obtain ⟨r', t⟩ := o'
  obtain ⟨hresult, hstate⟩ := Outcome.mk.inj h
  cases r with
  | ok v =>
    cases r' with
    | ok w => exact h
    | error g => cases hresult
  | error f =>
    cases r' with
    | ok w => cases hresult
    | error g =>
      have hfault := congrArg Failure.fault (Except.error.inj hresult)
      exact congrArg₂ Outcome.mk hresult (State.debug_failure_unplaced hstate hfault _ _)

/-! ## Evaluating and loading -/

section Running

variable {s t : State} {e : ScopeId} {fuel : Nat}

/-- **Evaluation does not look at places.** -/
theorem State.eval_alike (hst : s.unplaced = t.unplaced)
    (hhosts : ∀ host ∈ s.hosts, Host.IgnoresPlaces host) {x y : Value}
    (hxy : x.unplaced = y.unplaced) :
    Option.Rel Outcome.Alike (s.eval fuel e x) (t.eval fuel e y) := by
  have henter : (enter [] x e [] s).unplaced = (enter [] y e [] t).unplaced := by
    rw [← enter_unplaced, ← enter_unplaced, hxy, hst]
  have hhosts' : ∀ host ∈ (enter [] x e [] s).state.hosts, Host.IgnoresPlaces host := by
    rwa [State.hosts_of_setup (enter_move [] x e).setup_eq]
  have hrun := run_unplaced hhosts' henter fuel
  rw [State.eval_eq, State.eval_eq]
  generalize run fuel (enter [] x e [] s) = a at hrun ⊢
  generalize run fuel (enter [] y e [] t) = b at hrun ⊢
  cases hrun with
  | none => exact .none
  | some h => exact .some (Outcome.alike_of_unplaced (Outcome.reported_unplaced h))

theorem State.evalAll_alike (hst : s.unplaced = t.unplaced)
    (hhosts : ∀ host ∈ s.hosts, Host.IgnoresPlaces host) {v w : Value}
    (hvw : v.unplaced = w.unplaced) {xs ys : List Value}
    (hxs : xs.map Value.unplaced = ys.map Value.unplaced) :
    Option.Rel Outcome.Alike (s.evalAll fuel e v xs) (t.evalAll fuel e w ys) := by
  induction xs generalizing s t v w ys with
  | nil =>
    obtain rfl := List.map_eq_nil_iff.1 hxs.symm
    exact .some (.value hvw (State.alike_of_unplaced hst))
  | cons x xs ih =>
    obtain ⟨y, ys, rfl, hy, hys⟩ := List.map_eq_cons_iff.1 hxs.symm
    have heval : Option.Rel Outcome.Alike (s.eval fuel e x) (t.eval fuel e y) :=
      State.eval_alike hst hhosts hy.symm
    unfold State.evalAll
    cases hx : s.eval fuel e x with
    | none =>
      rw [hx] at heval
      generalize t.eval fuel e y = b at heval ⊢
      cases heval
      exact .none
    | some o =>
      have hsetup := State.hosts_of_setup (eval_setup hx)
      rw [hx] at heval
      generalize t.eval fuel e y = b at heval ⊢
      cases heval with
      | some halike =>
        cases halike with
        | value hvalue hstate => exact ih hstate.unplaced (hsetup ▸ hhosts) hvalue hys.symm
        | failure hfault hcondition hmessage htrace hstate =>
          exact .some (.failure hfault hcondition hmessage htrace hstate)

/-- Neither source was read, for the same reason: the errors differ in nothing but places. -/
structure Outcome.Unread (o o' : Outcome) : Prop where
  errors : ∃ error error', o.result = .error { fault := .unreadable error } ∧
    o'.result = .error { fault := .unreadable error' } ∧ error.reason = error'.reason ∧
    error.description = error'.description
  state : o.state.Alike o'.state

/-- The record of a source is the same but for its name. -/
theorem State.debug_loaded_unplaced (hst : s.unplaced = t.unplaced) (file file' : Text) (n : Nat) :
    (s.debug "source loaded" [("source", .text file), ("forms", .number n)]).unplaced =
      (t.debug "source loaded" [("source", .text file'), ("forms", .number n)]).unplaced := by
  rw [State.debug_unplaced, State.debug_unplaced, hst]
  with_unfolding_all rfl

/-- **Loading does not look at places**: sources with tokens that look the same are evaluated to the
same up to places, unless neither is read. -/
theorem State.load_alike (hst : s.unplaced = t.unplaced)
    (hhosts : ∀ host ∈ s.hosts, Host.IgnoresPlaces host) {file bytes file' bytes' : Text}
    {failure failure' : Option Text}
    (h : (tokenStream file bytes failure).map Token.face =
      (tokenStream file' bytes' failure').map Token.face) :
    Option.Rel Outcome.Alike (s.load fuel e file bytes failure)
        (t.load fuel e file' bytes' failure') ∨
      ∃ o o', s.load fuel e file bytes failure = some o ∧
        t.load fuel e file' bytes' failure' = some o' ∧ o.Unread o' := by
  have hreads : t.reads = s.reads := congrArg (·.reads) hst.symm
  have hread := readAll_unplaced h
  have halike := State.alike_of_unplaced hst
  unfold State.load
  rw [hreads]
  cases s.reads with
  | false => exact .inl (.some (.failure rfl rfl rfl rfl halike))
  | true =>
    cases hfirst : readAll file bytes failure with
    | error error =>
      cases hsecond : readAll file' bytes' failure' with
      | error error' =>
        rw [hfirst, hsecond] at hread
        have hsame : error.unplaced = error'.unplaced := Except.error.inj hread
        have hreason : error.reason = error'.reason := congrArg (·.reason) hsame
        have hdescription : error.description = error'.description := by
          rw [← error.description_unplaced, hsame, error'.description_unplaced]
        exact .inr ⟨_, _, rfl, rfl, ⟨error, error', rfl, rfl, hreason, hdescription⟩, halike⟩
      | ok forms' =>
        rw [hfirst, hsecond] at hread
        cases hread
    | ok forms =>
      cases hsecond : readAll file' bytes' failure' with
      | error error' =>
        rw [hfirst, hsecond] at hread
        cases hread
      | ok forms' =>
        rw [hfirst, hsecond] at hread
        have hforms : forms.map Value.unplaced = forms'.map Value.unplaced := Except.ok.inj hread
        have hlength : forms.length = forms'.length := by simpa using congrArg List.length hforms
        refine .inl (State.evalAll_alike ?_ ?_ rfl hforms)
        · rw [hlength]
          exact State.debug_loaded_unplaced hst file file' forms'.length
        · rwa [State.hosts_of_setup (State.quiet_debug s _ _).2]

end Running

/-- **Evaluation ignores where things were read**, but for invalid values, which show their places.
Expressions that are the same up to places, evaluated in states that are, come to the same up to
places: both evaluations end or neither does, the values, the states and the call stacks of failures
are the same, the same texts are written, and a message differs in nothing but the place of an empty
call or a malformed form. So layout and file name of a source make no difference: if the tokens look
the same, the forms are the same up to places and so is what loading them comes to, or both are
rejected for the same reason. The functions of the embedding program are taken to ignore places
too. -/
theorem evaluation_place_free {s t : State} (hst : s.unplaced = t.unplaced)
    (hhosts : ∀ host ∈ s.hosts, Host.IgnoresPlaces host) :
    (∀ fuel e x y, x.unplaced = y.unplaced →
      Option.Rel Outcome.Alike (s.eval fuel e x) (t.eval fuel e y)) ∧
    ∀ file bytes failure file' bytes' failure',
      (tokenStream file bytes failure).map Token.face =
        (tokenStream file' bytes' failure').map Token.face →
      unplacedForm (readOne file bytes failure) = unplacedForm (readOne file' bytes' failure') ∧
      unplacedForms (readAll file bytes failure) = unplacedForms (readAll file' bytes' failure') ∧
      ∀ fuel e,
        Option.Rel Outcome.Alike (s.load fuel e file bytes failure)
          (t.load fuel e file' bytes' failure') ∨
        ∃ o o', s.load fuel e file bytes failure = some o ∧
          t.load fuel e file' bytes' failure' = some o' ∧ o.Unread o' := by
  refine ⟨fun fuel e x y hxy => State.eval_alike hst hhosts hxy, ?_⟩
  intro file bytes failure file' bytes' failure' h
  exact ⟨readOne_unplaced h, readAll_unplaced h, fun fuel e => State.load_alike hst hhosts h⟩

/-- The message of the failure, if the evaluation failed. -/
def Outcome.message? (o : Outcome) : Option Text :=
  match o.result with
  | .ok _ => none
  | .error f => some (o.state.message f.fault)

/-- A function whose body is an empty call, read at one of two places, and the source of another
function, laid out in two ways. -/
theorem evaluation_place_free_empty_call :
    ∃ (s t : State) (x y : Value), s.unplaced = t.unplaced ∧ s.hosts.size = 1 ∧
      x.unplaced = y.unplaced ∧ Option.Rel Outcome.Alike (s.eval 9 0 x) (t.eval 9 0 y) ∧
      (s.eval 9 0 x).bind Outcome.message? = some "a:1:2: empty list is not callable" ∧
      (t.eval 9 0 y).bind Outcome.message? = some "b:3:4: empty list is not callable" ∧
      Option.Rel Outcome.Alike (s.load 9 0 "a" "(fun* (x) (x))" none)
        (t.load 9 0 "b" "\n( fun*( x )\n(x) )" none) := by
  let made (place : Location) : State :=
    { scopes :=
        #[{ parent := none, bindings := [("f", .closure 0 [] (.list (some place) []) 0)] }]
      closures := 1, reads := true
      hosts := #[fun _ args => .ok (.int (Int64.ofNat args.length))] }
  let here : Location := { file := "a", pos := 1, line := 1, col := 2 }
  let there : Location := { file := "b", pos := 9, line := 3, col := 4 }
  have hsame : (made here).unplaced = (made there).unplaced := by with_unfolding_all rfl
  have hhosts : ∀ host ∈ (made here).hosts, Host.IgnoresPlaces host := by
    intro host hmem name args args' h
    obtain rfl := List.mem_singleton.1 (Array.mem_toList_iff.2 hmem)
    have hlength : args.length = args'.length := by simpa using congrArg List.length h
    simp only [hlength]
  obtain ⟨heval, hsource⟩ := evaluation_place_free hsame hhosts
  have hfaces : (tokenStream "a" "(fun* (x) (x))" none).map Token.face =
      (tokenStream "b" "\n( fun*( x )\n(x) )" none).map Token.face := by decide +kernel
  refine ⟨made here, made there, .list (some here) [.symbol "f"], .list (some there) [.symbol "f"],
    hsame, rfl, rfl, heval 9 0 _ _ rfl, by decide +kernel, by decide +kernel, ?_⟩
  obtain h | ⟨o, o', ho, -, hunread⟩ := (hsource _ _ _ _ _ _ hfaces).2.2 9 0
  · exact h
  · -- both sources are read
    have hok : (State.load 9 (made here) 0 "a" "(fun* (x) (x))" none).map (·.result.isOk) =
        some true := by decide +kernel
    obtain ⟨error, error', hresult, -⟩ := hunread.errors
    rw [ho, Option.map_some, hresult] at hok
    cases hok

/-- What is printed of an invalid value. -/
theorem written_prn_invalid (u : Untyped) : ∃ o,
    State.eval 9 {} 0 (.list none [.builtin Primitive.prn.builtin, .invalid u]) = some o ∧
    o.state.written .stdout = u.render ++ [10] := by
  refine ⟨_, rfl, ?_⟩
  have hprinted (s : State) : s.printed (.invalid u) = u.render := by
    rw [State.printed, Value.render_eq, Value.renderOnto, List.append_nil]
  simp only [State.written, State.note, hprinted]
  exact List.append_nil _

/-- Two invalid values that differ in nothing but where they were read are printed differently. -/
theorem invalid_place_shown : ∃ (u w : Untyped) (o o' : Outcome),
    { u with source := none } = { w with source := none } ∧
    State.eval 9 {} 0 (.list none [.builtin Primitive.prn.builtin, .invalid u]) = some o ∧
    State.eval 9 {} 0 (.list none [.builtin Primitive.prn.builtin, .invalid w]) = some o' ∧
    o.state.written .stdout ≠ o'.state.written .stdout := by
  let u : Untyped := {}
  let w : Untyped := { source := some (4096, { file := "a", pos := 0, line := 1, col := 1 }) }
  obtain ⟨o, ho, hwritten⟩ := written_prn_invalid u
  obtain ⟨o', ho', hwritten'⟩ := written_prn_invalid w
  refine ⟨u, w, o, o', rfl, ho, ho', ?_⟩
  rw [hwritten, hwritten']
  decide

end TinyLisp
