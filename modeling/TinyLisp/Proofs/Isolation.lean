import TinyLisp.Proofs.Answers
import TinyLisp.Proofs.Resemblance

/-!
# Lines that do not read leave no trace

The console goes on after a line that went wrong. If the line does not read, nothing has happened
but that this was reported: lines without a form to evaluate can be left out of a session, and
programs compute the same, write and log the same, and fail in the same way. If the evaluation
failed, the next line finds what that evaluation has left, with the call stack as it was before.

* `Pruned`: lines without a form to evaluate are left out.
* `Kept`: what does not change then.
* `session_isolated`: the result for whole sessions.
-/

namespace TinyLisp

open Console

/-- Whether the console reports with this effect that something went wrong. -/
def Effect.isReport : Effect → Bool
  | .wrote .console .stderr _ => true
  | _ => false

/-- The states differ in nothing but reports of the console. -/
structure State.Peers (s t : State) : Prop where
  rest : t = { s with effects := t.effects }
  effects : t.effects.filter (!·.isReport) = s.effects.filter (!·.isReport)

section Peers

variable {s t u : State}

theorem State.Peers.refl (s : State) : s.Peers s := ⟨rfl, rfl⟩

theorem State.Peers.symm (h : s.Peers t) : t.Peers s := ⟨by rw [h.rest], h.effects.symm⟩

theorem State.Peers.trans (h : s.Peers t) (h' : t.Peers u) : s.Peers u := by
  refine ⟨?_, h'.effects.trans h.effects⟩
  rw [h'.rest, h.rest]

theorem State.Peers.say (h : s.Peers t) (stream : Stream) (text : Text) :
    (s.say stream text).Peers (t.say stream text) := by
  refine ⟨by rw [h.rest]; rfl, ?_⟩
  simp only [State.say, State.note, List.filter_cons, h.effects]

theorem State.peers_report (s : State) (text : Text) : s.Peers (s.say .stderr text) := ⟨rfl, rfl⟩

/-- What was written to the output is the same, whatever lines of the log go there. -/
theorem State.Peers.stdout (h : s.Peers t) (line : Log.Record → Text) :
    CommandLine.streamText .stdout line t.effects.reverse =
      CommandLine.streamText .stdout line s.effects.reverse :=
  CommandLine.reverse_flatMap_eq h.effects fun
    | .wrote .console .stderr _, _ => rfl

theorem Console.Answer.given_peers (a : Answer) (h : s.Peers t) :
    (a.given s).Peers (a.given t) := by
  cases a with
  | silence => exact h
  | _ => exact h.say _ _

/-- **A form is evaluated and answered in the same way**, whatever was reported before. -/
theorem evaluated_peers (fuel : Nat) (h : s.Peers t) (e : ScopeId) (form : Value) :
    Option.Rel (fun r r' : Answer × State => r'.1 = r.1 ∧ r.2.Peers r'.2) (evaluated fuel s e form)
      (evaluated fuel t e form) := by
  have heval := eval_parallel fuel h.rest e form
  unfold evaluated
  generalize s.eval fuel e form = r, t.eval fuel e form = r' at heval
  cases heval with
  | none => exact .none
  | @some o o' ho =>
    obtain ⟨new, hs, ht⟩ := ho.effects
    refine .some ⟨answered_congr ho.result (by rw [ho.rest]), ?_⟩
    rw [answered_state, answered_state]
    refine ⟨ho.rest, ?_⟩
    rw [hs, ht, List.filter_append, List.filter_append, h.effects]

end Peers

namespace Console

/-- There is no form to evaluate in the line: it is blank, or its first form does not read. -/
def IsIdle (line : Text) : Prop := line.isBlank = true ∨ ∃ error, readText line = .error error

/-- The second lines are the first ones without some that have no form to evaluate. -/
inductive Pruned : List Text → List Text → Prop
  | nil : Pruned [] []
  | keep {line : Text} {lines lines' : List Text} (h : Pruned lines lines') :
      Pruned (line :: lines) (line :: lines')
  | drop {line : Text} {lines lines' : List Text} (hidle : IsIdle line) (h : Pruned lines lines') :
      Pruned (line :: lines) lines'

/-- Two sessions ended in the same state up to reports, and the same was written to the output and
reported of evaluations that failed. -/
structure Kept (r r' : List Answer × State) : Prop where
  state : r.2.Peers r'.2
  stdout : ∀ line : Log.Record → Text,
    CommandLine.streamText .stdout line r'.2.effects.reverse =
      CommandLine.streamText .stdout line r.2.effects.reverse
  failures : failures r'.1 = failures r.1

variable {fuel : Nat} {s t : State} {e : ScopeId} {line : Text} {lines lines' : List Text}

/-- Such a line is no failure of an evaluation, and its answer leaves no trace but a report. -/
theorem answer_idle (h : IsIdle line) (fuel : Nat) (s : State) (e : ScopeId) :
    ∃ a, answer fuel s e line = some (a, s) ∧ a.failure? = none ∧ s.Peers (a.given s) := by
  unfold answer
  split
  · exact ⟨_, rfl, rfl, .refl s⟩
  · obtain hblank | ⟨error, herror⟩ := h
    · contradiction
    · exact ⟨.unread error.message, by rw [herror], rfl, s.peers_report _⟩

theorem answer_peers (h : s.Peers t) : Option.Rel
    (fun r r' : Answer × State => r'.1 = r.1 ∧ r.2.Peers r'.2) (answer fuel s e line)
      (answer fuel t e line) := by
  unfold answer
  split
  · exact .some ⟨rfl, h⟩
  · split
    · exact .some ⟨rfl, h⟩
    · exact evaluated_peers fuel h e _

/-- **Sessions of peers end as peers**, with the same failures, if lines without a form are left out
of one of them. -/
theorem session_peers (hlines : Pruned lines lines') (h : s.Peers t) : Option.Rel
    (fun r r' : List Answer × State => failures r'.1 = failures r.1 ∧ r.2.Peers r'.2)
      (session fuel s e lines) (session fuel t e lines') := by
  induction hlines generalizing s t with
  | nil => exact .some ⟨rfl, h⟩
  | @keep line lines lines' _ ih =>
    -- both answer the line alike, which leaves them peers
    have hanswer := @answer_peers fuel s t e line h
    unfold session
    generalize answer fuel s e line = r, answer fuel t e line = r' at hanswer
    cases hanswer with
    | none => exact .none
    | @some r r' hr =>
      obtain ⟨a, u⟩ := r
      obtain ⟨a', u'⟩ := r'
      obtain ⟨rfl, hu⟩ : a' = a ∧ u.Peers u' := hr
      have hrest := ih (a'.given_peers hu)
      dsimp only
      generalize session fuel (a'.given u) e lines = q, session fuel (a'.given u') e lines' = q'
        at hrest
      cases hrest with
      | none => exact .none
      | some hq =>
        refine .some ⟨?_, hq.2⟩
        simp only [failures, List.filterMap_cons] at hq ⊢
        rw [hq.1]
  | @drop line lines lines' hidle _ ih =>
    -- only the first session has this line, and its answer leaves it a peer of what it was
    obtain ⟨a, hanswer, hfailure, hgiven⟩ := answer_idle hidle fuel s e
    have hrest := ih (hgiven.symm.trans h)
    rw [session, hanswer]
    dsimp only
    generalize session fuel (a.given s) e lines = q, session fuel t e lines' = q' at hrest
    cases hrest with
    | none => exact .none
    | some hq =>
      refine .some ⟨hq.1.trans ?_, hq.2⟩
      rw [failures, failures, List.filterMap_cons_none hfailure]

/-- **Lines are isolated from each other.** A session of the console is that of its answers. Lines
without a form to evaluate can be left out: the state in the end, what was written to the output and
the failures of evaluations are kept. After an evaluation that failed the session goes on in the
state which that has left, where the call stack is the one from before. -/
theorem session_isolated (fuel : Nat) (s : State) (e : ScopeId) :
    (∀ lines, respondAll fuel s e lines = (session fuel s e lines).map (·.2)) ∧
    (∀ lines lines', Pruned lines lines' →
      Option.Rel Kept (session fuel s e lines) (session fuel s e lines')) ∧
    ∀ line lines form f u, line.isBlank = false → readText line = .ok form →
      s.eval fuel e form = some { result := .error f, state := u } →
      u.stack = s.stack ∧
        session fuel s e (line :: lines) =
          (session fuel (u.say .stderr (report (u.message f.fault))) e lines).map fun r =>
            (.failure (u.message f.fault) :: r.1, r.2) := by
  refine ⟨respondAll_eq fuel s e, fun lines lines' hlines => ?_,
    fun line lines form f u hblank hread heval => ?_⟩
  · have hrel := @session_peers fuel s s e lines lines' hlines (.refl s)
    generalize session fuel s e lines = r, session fuel s e lines' = r' at hrel
    cases hrel with
    | none => exact .none
    | some h => exact .some ⟨h.2, h.2.stdout, h.1⟩
  · refine ⟨eval_stack heval, ?_⟩
    rw [session, answer_of_read hblank hread, evaluated, heval]
    rfl

/-- A parenthesis and a blank between a value and the empty list, which is no call. -/
theorem session_isolated_unread :
    Option.Rel Kept (session 4 {} 0 ["1", ")", " ", "()"]) (session 4 {} 0 ["1", "()"]) ∧
    ∃ (f : Failure) (u : State), u.stack = { limit := CallStack.defaultLimit } ∧
      session 4 {} 0 ["()", "1"] =
        (session 4 (u.say .stderr (report (u.message f.fault))) 0 ["1"]).map fun r =>
          (.failure (u.message f.fault) :: r.1, r.2) := by
  obtain ⟨-, hpruned, hfailed⟩ := session_isolated 4 {} 0
  have hparen : IsIdle ")" := .inr ⟨_, by cbv⟩
  have hblank : IsIdle " " := .inl (by cbv)
  have hlist : Text.isBlank "()" = false := by cbv
  have hread : readText "()" =
      .ok (.list (some { file := "input", pos := 0, line := 1, col := 1 }) []) := by
    cbv
  obtain ⟨f, u, heval⟩ : ∃ f u, State.eval 4 {} 0
      (.list (some { file := "input", pos := 0, line := 1, col := 1 }) []) =
        some { result := .error f, state := u } := ⟨_, _, rfl⟩
  exact ⟨hpruned _ _ (.keep (.drop hparen (.drop hblank (.keep .nil)))), f, u,
    hfailed _ _ _ _ _ hlist hread heval⟩

end Console

end TinyLisp
