import TinyLisp.Proofs.Effects
import TinyLisp.Proofs.FirstForm
import TinyLisp.Proofs.InvalidBytes

/-!
# Each line has one answer

Whether a line is blank is decided by the console, on its bytes, and whether there is nothing to read
by the reader, on its tokens. Both decide alike, so that no line is left without an answer but those
that hold nothing, and none of those is reported as an error. Each of the others is answered with
one write, behind whatever the program writes itself.

* `Text.isBlank_iff`: the texts that are blank.
* `isBlank_iff_isEmpty`: these are the ones without any form.
* `Console.Gives`: what is written in answer to a line.
* `Console.answered_once`: the result.
-/

namespace TinyLisp

variable {line : Text} {c : Cursor}

/-! ## Blank lines -/

theorem Text.isBlank_iff_decode :
    line.isBlank = true ↔ (∀ c ∈ line.decode.1, TinyLisp.isBlank c = true) ∧ line.decode.2 = [] := by
  unfold Text.isBlank
  split
  · rename_i hdecode
    rw [hdecode]
    simp
  · rename_i hbytes
    refine ⟨nofun, fun h => absurd ?_ (hbytes line.decode.1)⟩
    rw [← h.2]

/-- **Blank texts** are those written as white space only, without a byte that is not UTF-8. -/
theorem Text.isBlank_iff :
    line.isBlank = true ↔ ∃ cs, line = .ofChars cs ∧ ∀ c ∈ cs, TinyLisp.isBlank c = true := by
  rw [Text.isBlank_iff_decode]
  constructor
  · rintro ⟨hall, hrest⟩
    obtain ⟨hline, -⟩ := Text.decode_eq_iff.1 (show line.decode = (line.decode.1, []) by rw [← hrest])
    exact ⟨_, hline.trans (List.append_nil _), hall⟩
  · rintro ⟨cs, rfl, hall⟩
    rw [Text.decode_ofChars]
    exact ⟨hall, rfl⟩

/-- The scan of a text comes to its end at once, with nothing wrong, if the text is blank. -/
theorem lexeme_ofText_iff (file : Text) :
    (Cursor.ofText file line none).lexeme = .error .endOfInput ↔ line.isBlank = true := by
  rw [Text.isBlank_iff_decode]
  constructor
  · intro h
    refine ⟨isBlank_of_lexeme_error rfl h, ?_⟩
    have hstart : (Cursor.ofText file line none).here = markBehind [] := rfl
    have hfault := lexeme_error_eq rfl hstart h
    cases hrest : line.decode.2 with
    | nil => rfl
    | cons byte rest =>
      rw [show (Cursor.ofText file line none).undecodable = byte :: rest from hrest] at hfault
      cases hfault
  · rintro ⟨hall, hrest⟩
    exact Cursor.lexeme_of_end rfl (List.dropWhile_eq_nil_iff.2 hall) hrest

/-- The first token is the one of the end if there is none before it. -/
theorem headD_tokensFrom_iff :
    ((tokensFrom c).1.headD (tokensFrom c).2.2).kind = .eof ↔ c.lexeme = .error .endOfInput := by
  cases hlex : c.lexeme with
  | ok r =>
    obtain ⟨t, c'⟩ := r
    rw [tokensFrom_of_lexeme hlex]
    exact ⟨fun h => absurd h (isLexeme_of_lexeme hlex).not_final.1, nofun⟩
  | error why =>
    rw [tokensFrom_of_error hlex]
    cases why <;> simp [Cursor.finalToken]

/-- **A line is blank if and only if it reads as no form**, with nothing else wrong. -/
theorem isBlank_iff_isEmpty :
    line.isBlank = true ↔ ∃ error, readText line = .error error ∧ error.IsEmpty := by
  rw [← lexeme_ofText_iff unnamedSource, ← headD_tokensFrom_iff]
  constructor
  · intro hend
    obtain ⟨error, h⟩ := readForm_of_end hend
    exact ⟨error, h, (readForm_isEmpty_iff h).2 hend⟩
  · rintro ⟨error, h, hempty⟩
    exact (readForm_isEmpty_iff h).1 hempty

/-! ## Answers -/

namespace Console

variable {fuel : Nat} {s u : State} {e : ScopeId} {stream : Stream} {text : Text}

/-- What the console writes in answer to a line, and the state right before it does. -/
inductive Gives (fuel : Nat) (s : State) (e : ScopeId) (line : Text) : State → Stream → Text → Prop
  /-- The line does not read, and that is not for want of a form. -/
  | unread {error : ReadError} (h : readText line = .error error) (hempty : ¬error.IsEmpty) :
      Gives fuel s e line s .stderr (("error: " : Text) ++ error.message ++ [10])
  | value {form v : Value} {u : State} (h : readText line = .ok form)
      (heval : s.eval fuel e form = some { result := .ok v, state := u }) :
      Gives fuel s e line u .stdout (u.printed v ++ [10])
  | failure {form : Value} {f : Failure} {u : State} (h : readText line = .ok form)
      (heval : s.eval fuel e form = some { result := .error f, state := u }) :
      Gives fuel s e line u .stderr (("error: " : Text) ++ u.message f.fault ++ [10])

/-- It is written, and that is all the console does. -/
theorem Gives.respond (h : Gives fuel s e line u stream text) :
    respond fuel s e line = some (u.say stream text) := by
  have hblank : line.isBlank = false := by
    cases hblank : line.isBlank with
    | false => rfl
    | true =>
      obtain ⟨error, herror, hempty⟩ := isBlank_iff_isEmpty.1 hblank
      cases h with
      | unread h hempty' =>
        obtain rfl := Except.error.inj (herror.symm.trans h)
        exact absurd hempty hempty'
      | value h => cases herror.symm.trans h
      | failure h => cases herror.symm.trans h
  unfold Console.respond
  rw [hblank]
  cases h with
  | unread h => simp [h, report]
  | value h heval => simp [h, heval]
  | failure h heval => simp [h, heval, report]

/-- No write of the program is one of the console. -/
theorem Gives.adds (h : Gives fuel s e line u stream text) :
    s.Adds (fun x => ¬x.OfConsole) u := by
  cases h with
  | unread => exact .of_eq rfl
  | value _ heval => exact eval_adds heval
  | failure _ heval => exact eval_adds heval

/-- There is something to write if the line is not blank. -/
theorem gives_of_not_blank (hblank : line.isBlank = false)
    (hends : ∀ form, readText line = .ok form → ∃ out, s.eval fuel e form = some out) :
    ∃ u stream text, Gives fuel s e line u stream text := by
  cases hread : readText line with
  | error error =>
    refine ⟨_, _, _, .unread hread fun hempty => ?_⟩
    rw [isBlank_iff_isEmpty.2 ⟨error, hread, hempty⟩] at hblank
    cases hblank
  | ok form =>
    obtain ⟨⟨result, u⟩, heval⟩ := hends form hread
    cases result with
    | ok v => exact ⟨_, _, _, .value hread heval⟩
    | error f => exact ⟨_, _, _, .failure hread heval⟩

/-- **Each line has one answer.** A line is blank if and only if it is made of white space, and also if
and only if it reads as no form; and a blank line changes nothing. Any other line, if the evaluation
of its form ends, is answered with one write of the console, behind what the program itself wrote: the
value of the form, or an error. -/
theorem answered_once
    (hends : ∀ form, readText line = .ok form → ∃ out, s.eval fuel e form = some out) :
    (line.isBlank = true ↔ ∃ cs, line = .ofChars cs ∧ ∀ c ∈ cs, TinyLisp.isBlank c = true) ∧
    (line.isBlank = true ↔ ∃ error, readText line = .error error ∧ error.IsEmpty) ∧
    (line.isBlank = true → respond fuel s e line = some s) ∧
    (line.isBlank = false → ∃ t u stream text, respond fuel s e line = some t ∧
      Gives fuel s e line u stream text ∧ t = u.say stream text ∧
      ∃ before, t.effects = .wrote .console stream text :: (before ++ s.effects) ∧
        ∀ x ∈ before, ¬x.OfConsole) := by
  refine ⟨Text.isBlank_iff, isBlank_iff_isEmpty, fun h => ?_, fun h => ?_⟩
  · rw [respond, h]
    rfl
  · obtain ⟨u, stream, text, hgives⟩ := gives_of_not_blank h hends
    obtain ⟨before, hbefore, hall⟩ := hgives.adds
    exact ⟨_, u, stream, text, hgives.respond, hgives, rfl, before,
      congrArg (_ :: ·) hbefore, hall⟩

/-- A number. -/
theorem answered_once_number : ∃ u stream text,
    respond 4 {} 0 "7" = some (u.say stream text) ∧ Gives 4 {} 0 "7" u stream text := by
  have hread : readText "7" = .ok
      (.scalar (some { file := "input", pos := 0, line := 1, col := 1 }) (.int 7)) := by
    cbv
  have hends : ∀ form, readText "7" = .ok form → ∃ out, State.eval 4 {} 0 form = some out := by
    intro form h
    obtain rfl := Except.ok.inj (hread.symm.trans h)
    exact ⟨_, rfl⟩
  have hblank : Text.isBlank "7" = false := by cbv
  obtain ⟨_, u, stream, text, hrespond, hgives, rfl, -⟩ := (answered_once hends).2.2.2 hblank
  exact ⟨u, stream, text, hrespond, hgives⟩

end Console

end TinyLisp
