import TinyLisp.CommandLine.Run
import TinyLisp.Proofs.Answers
import TinyLisp.Proofs.Renaming

/-!
# The first form of a source

A source can be read to its end or up to its first form. Both begin alike, so they agree as far as
they go together: the first of all forms is the first form; a source without any form reads as no
forms, while there is no first one; and whatever else is wrong with the first form is wrong with the
source.

Programs are read to their end, texts that a program or a user enters up to the first form, and each
reader has its own name for the source. So they find the same form first, up to that name.

* `ReadError.IsEmpty`: the error of a source without any form.
* `readForm_isEmpty_iff`: it arises at the end of the source and nowhere else.
* `FirstForm`: where the first form of a source is met.
* `readOne_readAll`: the result for sources.
-/

namespace TinyLisp

/-- The source ended where any form would have done. -/
def ReadError.IsEmpty (e : ReadError) : Prop := e.reason = .unexpectedEnd ∧ e.expected = none

instance (e : ReadError) : Decidable e.IsEmpty := inferInstanceAs (Decidable (_ ∧ _))

variable {final t : Token} {ts : List Token} {opened : List OpenList} {l : OpenList}
  {v : Value} {vs seen : List Value} {e : ReadError} {last : Option Token}

/-! ## One form -/

theorem unexpectedIn_isEmpty : (unexpectedIn opened t).IsEmpty ↔ t.kind = .eof ∧ opened = [] := by
  cases hk : t.kind <;> cases opened <;>
    simp [ReadError.IsEmpty, unexpectedIn, ReadError.unexpected, hk]

/-- The end of the source inside a list calls for a parenthesis. -/
theorem not_isEmpty_of_opened (h : (readForm final (l :: opened) ts).result = .error e) :
    ¬e.IsEmpty := by
  induction ts generalizing l opened with
  | nil =>
    obtain rfl := Except.error.inj h
    simp [unexpectedIn_isEmpty]
  | cons t ts ih =>
    obtain ⟨-, hread⟩ | ⟨-, o, outer, ho, hread⟩ | ⟨s, -, hread⟩ | hread :=
      readForm_cons final (l :: opened) t ts <;> rw [hread] at h
    · exact ih h
    · -- the list that was closed is the form, or an item of the list around it
      cases outer with
      | nil => cases h
      | cons l' outer => exact ih h
    · exact ih h
    · obtain rfl := Except.error.inj h
      simp [unexpectedIn_isEmpty]

/-- **There is no form if and only if the sequence is at its end.** -/
theorem readForm_isEmpty_iff (h : (readForm final [] ts).result = .error e) :
    e.IsEmpty ↔ (ts.headD final).kind = .eof := by
  cases ts with
  | nil =>
    obtain rfl := Except.error.inj h
    simp [unexpectedIn_isEmpty]
  | cons t ts =>
    obtain ⟨hl, hread⟩ | ⟨-, l, outer, ho, -⟩ | ⟨s, -, hread⟩ | hread :=
      readForm_cons final [] t ts
    · rw [hread] at h
      simp [not_isEmpty_of_opened h, hl]
    · cases ho
    · rw [hread] at h
      cases h
    · rw [hread] at h
      obtain rfl := Except.error.inj h
      simp [unexpectedIn_isEmpty]

theorem readForm_of_end (h : (ts.headD final).kind = .eof) :
    ∃ e, (readForm final [] ts).result = .error e := by
  cases ts with
  | nil => exact ⟨_, rfl⟩
  | cons t ts =>
    have hk : t.kind = .eof := h
    have hs : Scalar.ofToken? t = none := by simp only [Scalar.ofToken?, hk]
    rw [readForm_other (by simp [hk]) (by simp [hk]) hs]
    exact ⟨_, rfl⟩

/-! ## All forms -/

/-- The forms read before are the first ones. -/
theorem readForms_extends (h : (readForms final seen last ts).result = .ok vs) :
    ∃ ws, vs = seen.reverse ++ ws := by
  fun_induction readForms final seen last ts with
  | case1 =>
    obtain rfl := Except.ok.inj h
    exact ⟨[], (List.append_nil _).symm⟩
  | case2 seen last ts hend reading v hv hlt ih =>
    obtain ⟨ws, rfl⟩ := ih h
    exact ⟨v :: ws, by simp⟩
  | case3 => cases h

/-- **Reading to the end goes by the first form**: it comes to no forms if there is none, fails as
that does, or has it first. -/
theorem readForms_first (final : Token) (ts : List Token) (last : Option Token) :
    (∃ e, (readForm final [] ts).result = .error e ∧ e.IsEmpty ∧
      (readForms final [] last ts).result = .ok []) ∨
    (∃ e, (readForm final [] ts).result = .error e ∧ ¬e.IsEmpty ∧
      (readForms final [] last ts).result = .error e) ∨
    ∃ v, (readForm final [] ts).result = .ok v ∧
      ∀ vs, (readForms final [] last ts).result = .ok vs → ∃ ws, vs = v :: ws := by
  by_cases hend : (ts.headD final).kind = .eof
  · -- here reading to the end stops, while reading a form fails
    obtain ⟨e, he⟩ := readForm_of_end hend
    exact .inl ⟨e, he, (readForm_isEmpty_iff he).2 hend, by rw [readForms_of_end hend]; rfl⟩
  cases hread : (readForm final [] ts).result with
  | error e =>
    have he : ¬e.IsEmpty := fun he => hend ((readForm_isEmpty_iff hread).1 he)
    exact .inr (.inl ⟨e, rfl, he, readForms_of_error hend hread last⟩)
  | ok v =>
    refine .inr (.inr ⟨v, rfl, fun vs h => ?_⟩)
    rw [readForms_of_ok hend hread] at h
    exact readForms_extends h

theorem readAll_first (file bytes : Text) (failure : Option Text) :
    (∃ e, readOne file bytes failure = .error e ∧ e.IsEmpty ∧
      readAll file bytes failure = .ok []) ∨
    (∃ e, readOne file bytes failure = .error e ∧ ¬e.IsEmpty ∧
      readAll file bytes failure = .error e) ∨
    ∃ v, readOne file bytes failure = .ok v ∧
      ∀ vs, readAll file bytes failure = .ok vs → ∃ ws, vs = v :: ws :=
  readForms_first _ _ _

section Sources

variable {file bytes : Text} {failure : Option Text}

theorem readOne_of_readAll (h : readAll file bytes failure = .ok (v :: vs)) :
    readOne file bytes failure = .ok v := by
  obtain ⟨e, -, -, hall⟩ | ⟨e, -, -, hall⟩ | ⟨w, hone, hextends⟩ := readAll_first file bytes failure
  · cases h.symm.trans hall
  · cases h.symm.trans hall
  · obtain ⟨ws, hws⟩ := hextends _ h
    rw [hone, (List.cons.inj hws).1]

theorem readAll_eq_nil_iff : readAll file bytes failure = .ok [] ↔
    ∃ e, readOne file bytes failure = .error e ∧ e.IsEmpty := by
  obtain ⟨e, hone, he, hall⟩ | ⟨e, hone, he, hall⟩ | ⟨w, hone, hextends⟩ :=
    readAll_first file bytes failure
  · exact ⟨fun _ => ⟨e, hone, he⟩, fun _ => hall⟩
  · refine ⟨fun h => ?_, fun ⟨e', hone', he'⟩ => ?_⟩
    · cases h.symm.trans hall
    · obtain rfl := Except.error.inj (hone.symm.trans hone')
      exact absurd he' he
  · refine ⟨fun h => ?_, fun ⟨e', hone', _⟩ => ?_⟩
    · obtain ⟨ws, hws⟩ := hextends _ h
      cases hws
    · cases hone.symm.trans hone'

theorem readAll_of_readOne_error (h : readOne file bytes failure = .error e) (he : ¬e.IsEmpty) :
    readAll file bytes failure = .error e := by
  obtain ⟨e', hone, he', -⟩ | ⟨e', hone, -, hall⟩ | ⟨w, hone, -⟩ := readAll_first file bytes failure
  · obtain rfl := Except.error.inj (h.symm.trans hone)
    exact absurd he' he
  · obtain rfl := Except.error.inj (h.symm.trans hone)
    exact hall
  · cases h.symm.trans hone

end Sources

/-! ## Where it is met -/

/-- A blank text has no first form. -/
theorem not_isBlank_of_readText {bytes : Text} (h : readText bytes = .ok v) :
    bytes.isBlank = false := by
  cases hblank : bytes.isBlank with
  | false => rfl
  | true =>
    have hend : (Cursor.ofText unnamedSource bytes none).lexeme = .error .endOfInput := by
      unfold Text.isBlank at hblank
      split at hblank
      · rename_i cs hdecode
        refine Cursor.lexeme_of_end rfl ?_ ?_
        · simp only [Cursor.ofText, hdecode]
          exact List.dropWhile_eq_nil_iff.2 (List.all_eq_true.1 hblank)
        · simp only [Cursor.ofText, hdecode]
      · cases hblank
    simp only [readText, readOne, Reader.form, Reader.ofText, Reader.ofCursor,
      tokensFrom_of_error hend] at h
    cases h

/-- The forms `v :: vs` of the source are evaluated from the first one on by whatever evaluates the
whole of it, and the first one is met, with the places of a source named otherwise, by whatever
reads a single form. -/
structure FirstForm (file bytes : Text) (v : Value) (vs : List Value) : Prop where
  /-- Loading the source. -/
  load : ∀ (fuel : Nat) (s : State) (e : ScopeId), s.reads = true →
    s.load fuel e file bytes none =
      (s.debug "source loaded"
        [("source", .text file), ("forms", .number (v :: vs).length)]).evalAll fuel e .nil (v :: vs)
  /-- Running it as a program. -/
  run : ∀ (fuel : Nat) (print : Bool) (s : State),
    CommandLine.runSources fuel print s [{ name := file, bytes }] =
      CommandLine.runForms fuel print s (v :: vs)
  /-- Reading a text without a name. -/
  text : readText bytes = .ok (v.inFile unnamedSource)
  /-- Reading it in a program, by a function known as `name`. -/
  readStr : ∀ (name : Text) (source : Option Location) (s : State), s.reads = true →
    Primitive.readStr.run name [.scalar source (.string bytes)] s = (.value (v.inFile name), s)
  /-- Entering it at the console. -/
  console : ∀ (fuel : Nat) (s : State) (e : ScopeId),
    Console.answer fuel s e bytes = Console.evaluated fuel s e (v.inFile unnamedSource)

theorem firstForm_of_readAll {file bytes : Text} (hall : readAll file bytes none = .ok (v :: vs)) :
    FirstForm file bytes v vs := by
  have hone : readOne file bytes none = .ok v := readOne_of_readAll hall
  have htext : readText bytes = .ok (v.inFile unnamedSource) := readOne_inFile hone _
  refine ⟨fun fuel s e hs => ?_, fun fuel print s => ?_, htext, fun name source s hs => ?_,
    fun fuel s e => Console.answer_of_read (not_isBlank_of_readText htext) htext⟩
  · simp only [State.load, hs, hall]
    rfl
  · simp only [CommandLine.runSources, hall]
    cases CommandLine.runForms fuel print s (v :: vs) with
    | none => rfl
    | some r =>
      obtain ⟨problem, u⟩ := r
      cases problem <;> rfl
  · simp only [Primitive.run, Primitive.stringArgument, State.readForm, hs,
      readOne_inFile hone name]
    rfl

/-- **Both ways to read a source agree.** The first of all forms is the first form, places included;
a source has no forms if and only if there is no first one; and any other failure to read the first
form is the failure to read the source. So whatever reads a single form meets the first of the forms
that are read when the source is loaded or run. -/
theorem readOne_readAll (file bytes : Text) (failure : Option Text) :
    (∀ v vs, readAll file bytes failure = .ok (v :: vs) → readOne file bytes failure = .ok v) ∧
    (readAll file bytes failure = .ok [] ↔
      ∃ e, readOne file bytes failure = .error e ∧ e.IsEmpty) ∧
    (∀ e, readOne file bytes failure = .error e → ¬e.IsEmpty →
      readAll file bytes failure = .error e) ∧
    ∀ v vs, readAll file bytes none = .ok (v :: vs) → FirstForm file bytes v vs :=
  ⟨fun _ _ => readOne_of_readAll, readAll_eq_nil_iff, fun _ => readAll_of_readOne_error,
    fun _ _ => firstForm_of_readAll⟩

/-- A number and a list with a blank in front, a blank, and a parenthesis that closes nothing. -/
theorem readOne_readAll_number :
    FirstForm "in" " 7 ('a')"
      (.scalar (some { file := "in", pos := 1, line := 1, col := 2 }) (.int 7))
      [.list (some { file := "in", pos := 3, line := 1, col := 4 })
        [.scalar (some { file := "in", pos := 4, line := 1, col := 5 }) (.string "a")]] ∧
    (∃ e, readOne "in" " " none = .error e ∧ e.IsEmpty) ∧
    ∃ e, ¬e.IsEmpty ∧ readAll "in" ") 7" none = .error e := by
  have hforms : readAll "in" " 7 ('a')" none = .ok
      [.scalar (some { file := "in", pos := 1, line := 1, col := 2 }) (.int 7),
        .list (some { file := "in", pos := 3, line := 1, col := 4 })
          [.scalar (some { file := "in", pos := 4, line := 1, col := 5 }) (.string "a")]] := by
    cbv
  have hblank : readAll "in" " " none = .ok [] := by cbv
  have hparen : readOne "in" ") 7" none = .error
      { reason := .unexpectedToken, source := some { file := "in", pos := 0, line := 1, col := 1 },
        expected := none,
        got := { kind := .rightParen, text := ")",
                 source := { file := "in", pos := 0, line := 1, col := 1 } } } := by
    cbv
  exact ⟨(readOne_readAll "in" " 7 ('a')" none).2.2.2 _ _ hforms,
    (readOne_readAll "in" " " none).2.1.1 hblank,
    _, by decide, (readOne_readAll "in" ") 7" none).2.2.1 _ hparen (by decide)⟩

end TinyLisp
