import TinyLisp.Proofs.Layout
import TinyLisp.Proofs.Progress

/-!
# Reading by descent

`readForm` has all tokens of a source before it and keeps the open lists on a stack. A reader can do
with the lexer and one token in hand: it calls itself for the items of a list. None of its loops
counts anything either. An end inside a list is an error, and an error ends every loop that it comes
up through, so that whatever goes round again has used up a token.

* `Descent.form`, `Descent.items`, `Descent.forms`: the descent as it stands, with a bound on its
  depth and its rounds.
* `Descent.Follows`: a descent has come to what the reader with a stack comes to, whatever is open.
* `Descent.ends`: two layers for each token are enough, by induction on the layers.
* `lexing_ends`: how often a source can be asked for tokens, and what comes of it.
-/

namespace TinyLisp

/-- A reader that takes its tokens from a lexer and has the next one in hand. -/
structure Descent where
  /-- The token ahead. -/
  ahead : Token
  /-- Where the tokens behind it come from. -/
  lexer : Lexer

variable {final t : Token} {ts rest : List Token} {opened : List OpenList} {l : OpenList} {fuel : ℕ}

/-! ## The reader with a stack -/

theorem ofToken?_final (h : final.kind = .eof ∨ final.kind = .error) :
    Scalar.ofToken? final = none := by
  rcases h with hk | hk <;> simp only [Scalar.ofToken?, hk]

theorem unexpectedIn_nil (t : Token) : unexpectedIn [] t = .unexpected none t := by
  simp [unexpectedIn]

theorem unexpectedIn_of_ne (h : t.kind ≠ .eof) (opened : List OpenList) :
    unexpectedIn opened t = .unexpected none t := by
  simp [unexpectedIn, h]

/-- Inside a list, the end of the source stands where a right parenthesis was expected. -/
theorem unexpectedIn_of_end (h : t.kind = .eof) (l : OpenList) (opened : List OpenList) :
    unexpectedIn (l :: opened) t = .unexpected (some .rightParen) t := by
  simp [unexpectedIn, h]

/-- Where neither a list begins, nor one ends, nor a form can be read off one token, the token ahead
is unexpected. -/
theorem readForm_stuck (hl : (ts.headD final).kind ≠ .leftParen)
    (hr : opened ≠ [] → (ts.headD final).kind ≠ .rightParen)
    (hs : Scalar.ofToken? (ts.headD final) = none) :
    (readForm final opened ts).result = .error (unexpectedIn opened (ts.headD final)) := by
  cases ts with
  | nil => rfl
  | cons t ts =>
    by_cases hk : t.kind = .rightParen
    · obtain rfl : opened = [] := by
        by_contra hne
        exact hr hne hk
      rw [readForm_unopened hk]
      rfl
    · rw [readForm_other (t := t) hl hk hs]
      rfl

namespace Descent

/-! ## The descent -/

/-- A reader behind which a lexer has its tokens. -/
def ofLexer (l : Lexer) : Descent := { ahead := l.next.1, lexer := l.next.2 }

/-- Reads one token. -/
def advance (r : Descent) : Descent := ofLexer r.lexer

/-- Reads one token that is a form by itself. -/
def scalar (r : Descent) : Except ReadError Value × Descent :=
  match Scalar.ofToken? r.ahead with
  | some s => (.ok (.scalar (some r.ahead.source) s), r.advance)
  | none => (.error (.unexpected none r.ahead), r.advance)

mutual

/-- Reads one form; `none` if that takes more than `fuel` layers of calls and rounds. -/
def form : ℕ → Descent → Option (Except ReadError Value × Descent)
  | 0, _ => none
  | fuel + 1, r =>
    if r.ahead.kind = .leftParen then items fuel { source := r.ahead.source } r.advance
    else some r.scalar

/-- Reads items of the list `l` until it is closed. -/
def items : ℕ → OpenList → Descent → Option (Except ReadError Value × Descent)
  | 0, _, _ => none
  | fuel + 1, l, r =>
    if r.ahead.kind = .eof then some (.error (.unexpected (some .rightParen) r.ahead), r.advance)
    else if r.ahead.kind = .rightParen then some (.ok l.close, r.advance)
    else
      match form fuel r with
      | some (.ok v, r) => items fuel (l.add v) r
      | other => other

end

/-- Reads forms to the end, behind the forms `seen` (newest first). -/
def forms : ℕ → List Value → Descent → Option (Except ReadError (List Value) × Descent)
  | 0, _, _ => none
  | fuel + 1, seen, r =>
    if r.ahead.kind = .eof then some (.ok seen.reverse, r)
    else
      match form fuel r with
      | some (.ok v, r) => forms fuel (v :: seen) r
      | some (.error e, r) => some (.error e, r)
      | none => none

/-! ## The descent follows the reader with a stack -/

/-- The reader has the tokens `ts` ahead, and behind them `final`, again and again. -/
structure Has (r : Descent) (ts : List Token) (final : Token) : Prop where
  ahead : r.ahead = ts.headD final
  behind : r.lexer.Yields ts.tail final

variable {r : Descent}

theorem has_ofLexer {l : Lexer} (h : l.Yields ts final) : (ofLexer l).Has ts final :=
  ⟨h.head, h.tail⟩

/-- Advancing takes the token that comes first. -/
theorem Has.advance (h : r.Has ts final) : r.advance.Has ts.tail final := has_ofLexer h.behind

/-- A descent over the tokens `ts` has come to what `reading` comes to from any open lists, or in
the case of an error from those with `P`. -/
inductive Follows (final : Token) (ts : List Token) (P : List OpenList → Prop)
    (reading : List OpenList → Reading) : Except ReadError Value × Descent → Prop
  /-- A form was read, and at least one token. -/
  | form {v : Value} {r : Descent} {last : Token} {rest : List Token}
      (h : ∀ opened, reading opened = delivered final v last rest opened)
      (hr : r.Has rest final) (hlt : rest.length < ts.length) :
      Follows final ts P reading (.ok v, r)
  | error {e : ReadError} {r : Descent}
      (h : ∀ opened, P opened → (reading opened).result = .error e) :
      Follows final ts P reading (.error e, r)

/-- A form can begin here: inside of a list there is neither the end of it nor that of the
source. -/
def Begins (final : Token) (ts : List Token) (opened : List OpenList) : Prop :=
  opened ≠ [] → (ts.headD final).kind ≠ .eof ∧ (ts.headD final).kind ≠ .rightParen

theorem begins_nil : Begins final ts [] := fun h => absurd rfl h

/-- A token that begins no form is reported without an expectation. -/
theorem Begins.unexpectedIn_eq (h : Begins final ts opened) :
    unexpectedIn opened (ts.headD final) = .unexpected none (ts.headD final) := by
  cases opened with
  | nil => exact unexpectedIn_nil _
  | cons l opened => exact unexpectedIn_of_ne (h (List.cons_ne_nil _ _)).1 _

/-- With this many layers a form can be read off any tokens that are not too many. -/
def FormEnds (final : Token) (fuel : ℕ) : Prop :=
  ∀ {ts : List Token} {r : Descent}, r.Has ts final → 2 * ts.length + 1 ≤ fuel →
    ∃ out, form fuel r = some out ∧
      Follows final ts (Begins final ts) (fun opened => readForm final opened ts) out

/-- With this many layers the rest of a list can be. -/
def ItemsEnd (final : Token) (fuel : ℕ) : Prop :=
  ∀ {ts : List Token} {r : Descent} (l : OpenList), r.Has ts final → 2 * ts.length + 2 ≤ fuel →
    ∃ out, items fuel l r = some out ∧
      Follows final ts (fun _ => True) (fun opened => readForm final (l :: opened) ts) out

/-- A form is a scalar or the items of a list, one layer below. -/
theorem formEnds_succ (hfinal : final.kind = .eof ∨ final.kind = .error)
    (hitems : ItemsEnd final fuel) : FormEnds final (fuel + 1) := by
  intro ts r hr hfuel
  unfold form
  rw [hr.ahead]
  by_cases hl : (ts.headD final).kind = .leftParen
  · -- a list, which is read on from behind its parenthesis
    rw [if_pos hl]
    cases ts with
    | nil => rcases hfinal with hk | hk <;> cases hk.symm.trans hl
    | cons t ts =>
      rw [List.length_cons] at hfuel
      obtain ⟨out, hout, hfollows⟩ := hitems { source := t.source } hr.advance
        (show 2 * ts.length + 2 ≤ fuel by omega)
      refine ⟨out, hout, ?_⟩
      cases hfollows with
      | form h hr hlt =>
        exact .form (fun opened => (readForm_left hl).trans (h opened)) hr (Nat.lt_succ_of_lt hlt)
      | error h =>
        refine .error fun opened _ => ?_
        rw [readForm_left (t := t) hl]
        exact h opened trivial
  · rw [if_neg hl]
    refine ⟨_, rfl, ?_⟩
    unfold scalar
    rw [hr.ahead]
    cases hs : Scalar.ofToken? (ts.headD final) with
    | none =>
      refine .error fun opened hbegins => ?_
      rw [readForm_stuck hl (fun hne => (hbegins hne).2) hs, hbegins.unexpectedIn_eq]
    | some s =>
      cases ts with
      | nil => cases hs.symm.trans (ofToken?_final hfinal)
      | cons t ts => exact .form (fun opened => readForm_scalar hs) hr.advance (Nat.lt_succ_self _)

/-- Items end at once, or after a form and the items behind it. -/
theorem itemsEnd_succ (hfinal : final.kind = .eof ∨ final.kind = .error)
    (hform : FormEnds final fuel) (hitems : ItemsEnd final fuel) : ItemsEnd final (fuel + 1) := by
  intro ts r l hr hfuel
  unfold items
  rw [hr.ahead]
  by_cases hend : (ts.headD final).kind = .eof
  · rw [if_pos hend]
    refine ⟨_, rfl, .error fun opened _ => ?_⟩
    have hl : (ts.headD final).kind ≠ .leftParen := by rw [hend]; decide
    have hclose : (ts.headD final).kind ≠ .rightParen := by rw [hend]; decide
    rw [readForm_stuck hl (fun _ => hclose) (ofToken?_final (.inl hend)), unexpectedIn_of_end hend]
  by_cases hclose : (ts.headD final).kind = .rightParen
  · rw [if_neg hend, if_pos hclose]
    refine ⟨_, rfl, ?_⟩
    cases ts with
    | nil => rcases hfinal with hk | hk <;> cases hk.symm.trans hclose
    | cons t ts =>
      exact .form (fun opened => readForm_right hclose) hr.advance (Nat.lt_succ_self _)
  · -- an item, which uses up a token, and the rest of the list behind it
    rw [if_neg hend, if_neg hclose]
    obtain ⟨out, hout, hfollows⟩ := hform hr (show 2 * ts.length + 1 ≤ fuel by omega)
    rw [hout]
    cases hfollows with
    | error h => exact ⟨_, rfl, .error fun opened _ => h (l :: opened) fun _ => ⟨hend, hclose⟩⟩
    | @form v r last rest h hr hlt =>
      obtain ⟨out, hout, hfollows⟩ := hitems (l.add v) hr (show 2 * rest.length + 2 ≤ fuel by omega)
      refine ⟨out, hout, ?_⟩
      cases hfollows with
      | form h' hr' hlt' =>
        exact .form (fun opened => (h (l :: opened)).trans (h' opened)) hr' (Nat.lt_trans hlt' hlt)
      | error h' =>
        refine .error fun opened _ => ?_
        rw [h (l :: opened)]
        exact h' opened trivial

/-- **The descent ends**, if it is given two layers for each token. -/
theorem ends (hfinal : final.kind = .eof ∨ final.kind = .error) (fuel : ℕ) :
    FormEnds final fuel ∧ ItemsEnd final fuel := by
  induction fuel with
  | zero => exact ⟨fun _ hfuel => by omega, fun _ _ hfuel => by omega⟩
  | succ fuel ih => exact ⟨formEnds_succ hfinal ih.2, itemsEnd_succ hfinal ih.1 ih.2⟩

/-- The descent finds the form that the reader with a stack finds. -/
theorem form_eq (hfinal : final.kind = .eof ∨ final.kind = .error) (hr : r.Has ts final)
    (hfuel : 2 * ts.length + 1 ≤ fuel) :
    ∃ r', form fuel r = some ((readForm final [] ts).result, r') := by
  obtain ⟨out, hout, hfollows⟩ := (ends hfinal fuel).1 hr hfuel
  cases hfollows with
  | @form v r' last rest h _ _ =>
    rw [h []]
    exact ⟨r', hout⟩
  | @error e r' h =>
    rw [h [] begins_nil]
    exact ⟨r', hout⟩

/-- It finds all forms as well. -/
theorem forms_eq (hfinal : final.kind = .eof ∨ final.kind = .error) (hr : r.Has ts final)
    (hfuel : 2 * ts.length + 2 ≤ fuel) (seen : List Value) (last : Option Token) :
    ∃ r', forms fuel seen r = some ((readForms final seen last ts).result, r') := by
  induction fuel generalizing r ts seen last with
  | zero => omega
  | succ fuel ih =>
    unfold forms
    rw [hr.ahead]
    by_cases hend : (ts.headD final).kind = .eof
    · rw [if_pos hend, readForms_of_end hend]
      exact ⟨r, rfl⟩
    rw [if_neg hend]
    obtain ⟨out, hout, hfollows⟩ :=
      (ends hfinal fuel).1 hr (show 2 * ts.length + 1 ≤ fuel by omega)
    rw [hout]
    cases hfollows with
    | @error e r' h =>
      rw [readForms_of_error hend (h [] begins_nil)]
      exact ⟨r', rfl⟩
    | @form v r' last' rest h hr' hlt =>
      have hread : (readForm final [] ts).result = .ok v := by rw [h []]; rfl
      rw [readForms_of_ok hend hread, h []]
      exact ih hr' (show 2 * rest.length + 2 ≤ fuel by omega) _ _

end Descent

open Lexer in
/-- **A source can be asked for tokens, and comes to an end.** Each call of the lexer ends, with one
round of a loop for each byte of the source at most, and one that stops it. A call that hands out a
token of the source passes a byte at least; once a call has handed out a token that ends the sequence,
every call hands out this one; and there are no more tokens in front of it than the source has bytes.
So the loop that takes all tokens ends, and reading by descent does, for one form as for all, with
what `tokenize`, `readOne` and `readAll` come to. -/
theorem lexing_ends (file bytes : Text) (failure : Option Text) :
    let l := Lexer.ofText file bytes failure
    (∀ n limit, bytes.length < limit → (l.after n).nextWithin limit = some (l.after n).next) ∧
    (∀ n, (l.after n).next.1.kind.isFinal = false →
      (l.after n).cursor.here.pos < (l.after (n + 1)).cursor.here.pos) ∧
    (∀ n m, n ≤ m → (l.after n).next.1.kind.isFinal = true →
      (l.after m).next.1 = (l.after n).next.1) ∧
    (∃ n ≤ bytes.length, (tokenize file bytes failure).1.length = n ∧
      (l.after n).next.1.kind.isFinal = true ∧
      ∀ k < n, (l.after k).next.1.kind.isFinal = false ∧
        (tokenize file bytes failure).1[k]? = some (l.after k).next.1) ∧
    (∀ fuel, bytes.length < fuel → l.collect fuel [] = some (tokenize file bytes failure)) ∧
    ∀ fuel, 2 * bytes.length + 2 ≤ fuel →
      (∃ r, (Descent.ofLexer l).form fuel = some (readOne file bytes failure, r)) ∧
      ∃ r, (Descent.ofLexer l).forms fuel [] = some (readAll file bytes failure, r) := by
  intro l
  set c := Cursor.ofText file bytes failure
  have hfinal := kind_of_final c
  have hbytes : c.unread.length ≤ bytes.length := Cursor.length_unread_ofText file bytes failure
  have hcount : (tokensFrom c).1.length ≤ bytes.length :=
    Nat.le_trans (Lexer.length_tokensFrom_le c) hbytes
  have htokens : (tokenize file bytes failure).1 = (tokensFrom c).1 := by rw [tokenize_eq]
  have hhas : (Descent.ofLexer l).Has (tokensFrom c).1 (tokensFrom c).2.2 :=
    Descent.has_ofLexer (Lexer.yields_tokensFrom c)
  refine ⟨fun n limit hlimit => ?_, fun n h => ?_, fun n m hnm h => ?_,
    ⟨(tokensFrom c).1.length, hcount, ?_, ?_, fun k hk => ⟨?_, ?_⟩⟩, fun fuel hfuel => ?_,
    fun fuel hfuel => ⟨?_, ?_⟩⟩
  · have hle := Lexer.length_unread_after_le n l
    exact Lexer.nextWithin_eq (Nat.lt_of_le_of_lt (Nat.le_trans hle hbytes) hlimit)
  · rw [Lexer.after_succ_next]
    exact Lexer.pos_lt_of_next h
  · exact Lexer.next_after_of_isFinal h hnm
  · rw [htokens]
  · exact (Lexer.isFinal_after_iff c _).2 (Nat.le_refl _)
  · rw [← Bool.not_eq_true]
    exact mt (Lexer.isFinal_after_iff c k).1 (Nat.not_le_of_lt hk)
  · rw [htokens, List.getElem?_eq_getElem hk]
    exact congrArg some (Lexer.next_after_of_lt hk).symm
  · rw [tokenize_eq]
    exact Lexer.collect_eq [] (Nat.lt_of_le_of_lt hcount hfuel)
  · have hlayers : 2 * (tokensFrom c).1.length + 1 ≤ fuel := by omega
    exact Descent.form_eq hfinal hhas hlayers
  · have hlayers : 2 * (tokensFrom c).1.length + 2 ≤ fuel := by omega
    exact Descent.forms_eq hfinal hhas hlayers [] none

end TinyLisp
