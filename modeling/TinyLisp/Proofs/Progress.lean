import Mathlib.Logic.Function.Iterate
import TinyLisp.Proofs.Grammar
import TinyLisp.Proofs.Scanning

/-!
# Progress of the lexer

The lexer skips white space, goes through strings and through words, and is called for one token
after another. None of these loops counts anything: each goes on as long as a character can be seen
ahead, or until a token says that the sequence is over. They end all the same, because a token is
never empty, and what ends the sequence stays in front of the lexer.

* `Lexer.nextWithin`: one call, with the loops as they stand; `nextWithin_eq`: as many rounds as there
  are characters ahead are enough for each of them.
* `Lexer.pos_lt_of_next`: a call that hands out a token of the source passes a byte.
* `Lexer.Yields`: what all calls hand out; `yields_tokensFrom`: the tokens ahead, and then the one
  that ends the sequence, for ever.
* `Lexer.collect`: the loop that takes all tokens; `collect_eq`: it comes to an end.
-/

namespace TinyLisp

/-- A mark moves on by the bytes that are passed. -/
theorem pos_foldl_after (xs : List Char) (m : Mark) :
    (xs.foldl Mark.after m).pos = m.pos + (Text.ofChars xs).length := by
  induction xs generalizing m with
  | nil => rfl
  | cons x xs ih =>
    have hx : (m.after x).pos = m.pos + x.utf8Size := by
      unfold Mark.after
      split <;> rfl
    rw [List.foldl_cons, ih, hx, Text.ofChars_cons, List.length_append,
      String.length_utf8EncodeChar, Nat.add_assoc]

/-- No character is shorter than a byte. -/
theorem length_le_length_ofChars (cs : List Char) : cs.length ≤ (Text.ofChars cs).length := by
  induction cs with
  | nil => exact Nat.le_refl _
  | cons x xs ih =>
    have hx := x.utf8Size_pos
    rw [Text.ofChars_cons, List.length_append, String.length_utf8EncodeChar, List.length_cons]
    omega

theorem Token.Kind.isFinal_iff {kind : Token.Kind} :
    kind.isFinal = true ↔ kind = .eof ∨ kind = .error := by
  cases kind <;> simp [isFinal]

theorem Token.IsLexeme.isFinal_eq {t : Token} (h : t.IsLexeme) : t.kind.isFinal = false := by
  rw [← Bool.not_eq_true, Token.Kind.isFinal_iff, not_or]
  exact h.not_final

namespace Cursor

variable {c c' : Cursor} {p : Char → Bool} {x : Char} {t : Token} {why : ScanFault}

/-- There are no more characters ahead than the source has bytes. -/
theorem length_unread_ofText (file bytes : Text) (failure : Option Text) :
    (ofText file bytes failure).unread.length ≤ bytes.length := by
  obtain ⟨cs, bad, -, rfl, hbad⟩ := Text.ofChars_decodeOnto [] bytes
  have hcs := length_le_length_ofChars cs
  rw [ofText_append hbad, List.length_append]
  exact Nat.le_trans hcs (Nat.le_add_right _ _)

/-- **A token is never empty.** -/
theorem pos_lt_of_lexeme (h : c.lexeme = .ok (t, c')) : c.here.pos < c'.here.pos := by
  obtain ⟨gap, span, -, hspan, hwalked, -⟩ := span_of_lexeme h
  have hpos := length_ofChars_pos hspan.ne_nil
  rw [hwalked.here, pos_foldl_after, Text.ofChars_append, List.length_append]
  omega

theorem isFinal_finalToken (c : Cursor) (why : ScanFault) :
    (c.finalToken why).kind.isFinal = true := by
  cases why <;> rfl

/-! ## Passing characters one by one -/

theorem pass_pass (c : Cursor) (xs ys rest rest' : List Char) :
    (c.pass xs rest).pass ys rest' = c.pass (xs ++ ys) rest' := by
  simp [pass, List.getLast?_append, Option.or_assoc]

theorem pass_nil (c : Cursor) : c.pass [] c.unread = c := rfl

theorem unread_of_peek (h : c.peek = .ok x) : c.failure = none ∧ ∃ xs, c.unread = x :: xs := by
  unfold peek at h
  split at h
  · cases h
  · obtain rfl := Except.ok.inj h
    exact ⟨‹_›, _, ‹_›⟩
  · cases h
  · cases h

theorem advanceWhile_of_peek (h : c.peek = .ok x) :
    c.advanceWhile p = if p x then (c.pass [x] c.unread.tail).advanceWhile p else c := by
  obtain ⟨hf, xs, hxs⟩ := unread_of_peek h
  have hf' : (c.pass [x] c.unread.tail).failure = none := hf
  rw [advanceWhile_eq hf, advanceWhile_eq hf', pass_pass, hxs]
  cases hx : p x with
  | true => simp [hx, pass]
  | false =>
    rw [List.takeWhile_cons_of_neg (by simp [hx]), List.dropWhile_cons_of_neg (by simp [hx]), ← hxs]
    exact c.pass_nil

theorem advanceWhile_of_peek_error (h : c.peek = .error why) : c.advanceWhile p = c := by
  cases hf : c.failure with
  | some message => simp [advanceWhile, hf]
  | none =>
    cases hxs : c.unread with
    | nil =>
      have hnil := c.pass_nil
      rw [hxs] at hnil
      rw [advanceWhile_eq hf, hxs, List.takeWhile_nil, List.dropWhile_nil, hnil]
    | cons x xs => simp [peek, hf, hxs] at h

/-- At the end of the bytes there is nothing to pass. -/
theorem scan_of_atEnd (h : c.atEnd = true) : ∃ why, c.scan = .error why :=
  scan_of_nil (List.isEmpty_iff.1 (Bool.and_eq_true_iff.1 h).1)

end Cursor

namespace Lexer

variable {l : Lexer} {c c' : Cursor} {t final : Token} {ts : List Token} {why : ScanFault}
  {limit fuel n m : ℕ}

/-! ## The loops of one call -/

/-- Passes the next character. Why that failed, or that it did not, is kept. -/
def readChar (l : Lexer) : Lexer :=
  match l.cursor.scan with
  | .ok (_, c) => { cursor := c }
  | .error why => { l with ended := some why }

/-- Drops the pending text. -/
def ignore (l : Lexer) : Lexer := { l with cursor := l.cursor.ignore }

/-- Looks at the next character and passes it, as long as there is one and it is in the class `p`. -/
def readWhile (p : Char → Bool) : ℕ → Lexer → Option Lexer
  | 0, _ => none
  | limit + 1, l =>
    match l.cursor.peek with
    | .ok x => if p x then readWhile p limit l.readChar else some l
    | .error _ => some l

/-- The rest of a string. What is wrong behind the text is left to the next call. -/
def readString (limit : ℕ) (l : Lexer) : Option (Token × Lexer) := do
  let source := l.cursor.startLocation
  let l ← readWhile (· ≠ quoteMark) limit l.ignore
  let token : Token := { kind := .string, text := l.cursor.text, source }
  if l.cursor.atEnd then return (token, l)
  let l := l.readChar
  match l.ended with
  | none => return (token, l.ignore)
  | some _ => return (token, { l with ended := none })

/-- The rest of a word. -/
def readWord (limit : ℕ) (l : Lexer) : Option (Token × Lexer) := do
  let l ← readWhile (fun x => !isDelimiter x) limit l
  return (l.cursor.token (Cursor.wordKind l.cursor.text), l.ignore)

/-- The token that ends the sequence. -/
def endToken (l : Lexer) (why : ScanFault) : Token × Lexer := (l.cursor.finalToken why, l.ignore)

/-- The next token, found character by character; `none` if a loop takes more than `limit`
rounds. -/
def nextWithin (limit : ℕ) (l : Lexer) : Option (Token × Lexer) :=
  match l.ended with
  | some why => some (l.endToken why)
  | none => do
    let l ← readWhile isBlank limit l
    let l := l.ignore.readChar
    match l.ended with
    | some why => some (l.endToken why)
    | none =>
      if l.cursor.current = some '(' then some (l.cursor.token .leftParen, l.ignore)
      else if l.cursor.current = some ')' then some (l.cursor.token .rightParen, l.ignore)
      else if l.cursor.current = some quoteMark then l.readString limit
      else l.readWord limit

theorem readChar_of_ok {x : Char} {ended : Option ScanFault} (h : c.scan = .ok (x, c')) :
    readChar { cursor := c, ended } = { cursor := c' } := by
  simp only [readChar, h]

theorem readChar_of_error {ended : Option ScanFault} (h : c.scan = .error why) :
    readChar { cursor := c, ended } = { cursor := c, ended := some why } := by
  simp only [readChar, h]

/-- **The loop ends**: every round passes a character. -/
theorem readWhile_eq (p : Char → Bool) (h : c.unread.length < limit) :
    readWhile p limit { cursor := c } = some { cursor := c.advanceWhile p } := by
  induction limit generalizing c with
  | zero => omega
  | succ limit ih =>
    unfold readWhile
    cases hpeek : c.peek with
    | error why => rw [Cursor.advanceWhile_of_peek_error hpeek]
    | ok x =>
      obtain ⟨hf, xs, hxs⟩ := Cursor.unread_of_peek hpeek
      rw [Cursor.advanceWhile_of_peek hpeek]
      dsimp only
      split
      · rw [readChar_of_ok (Cursor.scan_eq hf hxs), hxs, List.tail_cons]
        refine ih ?_
        rw [hxs, List.length_cons] at h
        exact Nat.lt_of_succ_lt_succ h
      · rfl

theorem readString_eq (h : c.unread.length < limit) :
    readString limit { cursor := c } = some (c.stringToken.1, { cursor := c.stringToken.2 }) := by
  have hloop : readWhile (· ≠ quoteMark) limit { cursor := c.ignore } =
      some { cursor := c.ignore.advanceWhile (· ≠ quoteMark) } := readWhile_eq _ h
  simp only [readString, ignore, hloop, Option.bind_eq_bind, Option.bind_some, Cursor.stringToken]
  split
  · rename_i hend
    obtain ⟨why, hscan⟩ := Cursor.scan_of_atEnd hend
    rw [hscan]
    rfl
  · cases hscan : (c.ignore.advanceWhile (· ≠ quoteMark)).scan with
    | ok r =>
      rw [readChar_of_ok hscan]
      rfl
    | error why =>
      rw [readChar_of_error hscan]
      rfl

theorem readWord_eq (h : c.unread.length < limit) :
    readWord limit { cursor := c } = some (c.wordToken.1, { cursor := c.wordToken.2 }) := by
  simp only [readWord, readWhile_eq _ h, Option.bind_eq_bind, Option.bind_some]
  rfl

/-- **A call comes to an end**, and hands out the next token. -/
theorem nextWithin_eq (h : l.cursor.unread.length < limit) :
    l.nextWithin limit = some l.next := by
  obtain ⟨c, ended⟩ := l
  cases ended with
  | some why => rfl
  | none =>
    simp only [nextWithin, readWhile_eq isBlank h, Option.bind_eq_bind, Option.bind_some, next,
      Cursor.lexeme]
    have hskip : ignore { cursor := c.advanceWhile isBlank } = { cursor := c.skipBlanks } := rfl
    rw [hskip]
    cases hscan : c.skipBlanks.scan with
    | error why =>
      rw [readChar_of_error hscan]
      rfl
    | ok r =>
      obtain ⟨x, d⟩ := r
      have hcurrent : d.current = some x := by
        obtain ⟨-, rfl⟩ := Cursor.pass_of_scan hscan
        rfl
      have hd : d.unread.length < limit := by
        have hc : c.unread.length < limit := h
        have hunread := congrArg List.length (Cursor.unread_of_scan hscan)
        have hle := Cursor.length_advanceWhile_le isBlank c
        simp only [Cursor.skipBlanks, Cursor.unread_ignore, List.length_cons] at hunread
        omega
      rw [readChar_of_ok hscan]
      dsimp only
      simp only [hcurrent, Option.some.injEq, Cursor.tokenStarting, readString_eq hd, readWord_eq hd]
      split
      · rfl
      split
      · rfl
      split <;> rfl

/-! ## Calls one after another -/

/-- A lexer at the start of a source. -/
def ofText (file bytes : Text) (failure : Option Text) : Lexer :=
  { cursor := Cursor.ofText file bytes failure }

/-- The lexer behind `n` calls. -/
def after (n : ℕ) (l : Lexer) : Lexer := (fun l => l.next.2)^[n] l

theorem after_succ (n : ℕ) (l : Lexer) : l.after (n + 1) = l.next.2.after n := rfl

theorem after_succ_next (n : ℕ) (l : Lexer) : l.after (n + 1) = (l.after n).next.2 :=
  Function.iterate_succ_apply' _ n l

theorem next_of_lexeme (h : c.lexeme = .ok (t, c')) :
    next { cursor := c } = (t, { cursor := c' }) := by
  simp only [next, h]

theorem next_of_error (h : c.lexeme = .error why) :
    next { cursor := c } =
      (c.skipBlanks.finalToken why, { cursor := c.skipBlanks, ended := some why }) := by
  simp only [next, h]
  rfl

/-- Behind the white space at the end of a sequence, calls change nothing. -/
theorem next_ended (c : Cursor) (why : ScanFault) :
    next { cursor := c.skipBlanks, ended := some why } =
      (c.skipBlanks.finalToken why, { cursor := c.skipBlanks, ended := some why }) := rfl

/-- What a call can come to: a token of the source, or one that ends the sequence. -/
theorem next_cases (l : Lexer) :
    (∃ t c', l.cursor.lexeme = .ok (t, c') ∧ l.next = (t, { cursor := c' })) ∨
      l.next.1.kind.isFinal = true ∧ l.next.2.cursor.unread.length ≤ l.cursor.unread.length := by
  obtain ⟨c, ended⟩ := l
  cases ended with
  | some why => exact .inr ⟨c.isFinal_finalToken why, Nat.le_refl _⟩
  | none =>
    cases hlex : c.lexeme with
    | ok r =>
      obtain ⟨t, c'⟩ := r
      exact .inl ⟨t, c', rfl, next_of_lexeme hlex⟩
    | error why =>
      rw [next_of_error hlex]
      exact .inr ⟨Cursor.isFinal_finalToken _ why, Cursor.length_advanceWhile_le isBlank c⟩

/-- **A call that hands out a token of the source passes a byte.** -/
theorem pos_lt_of_next (h : l.next.1.kind.isFinal = false) :
    l.cursor.here.pos < l.next.2.cursor.here.pos := by
  obtain ⟨t, c', hlex, hnext⟩ | ⟨hfinal, -⟩ := l.next_cases
  · rw [hnext]
    exact Cursor.pos_lt_of_lexeme hlex
  · rw [h] at hfinal
    cases hfinal

theorem length_unread_after_le (n : ℕ) (l : Lexer) :
    (l.after n).cursor.unread.length ≤ l.cursor.unread.length := by
  induction n with
  | zero => exact Nat.le_refl _
  | succ n ih =>
    rw [after_succ_next]
    refine Nat.le_trans ?_ ih
    obtain ⟨t, c', hlex, hnext⟩ | ⟨-, hle⟩ := (l.after n).next_cases
    · rw [hnext]
      exact Nat.le_of_lt (Cursor.length_lt_of_lexeme hlex)
    · exact hle

/-- The calls hand out the tokens `ts`, and then `final` again and again. -/
def Yields (l : Lexer) (ts : List Token) (final : Token) : Prop :=
  ∀ n, (l.after n).next.1 = ts.getD n final

theorem Yields.head (h : l.Yields ts final) : l.next.1 = ts.headD final := by
  have hfirst := h 0
  cases ts <;> exact hfirst

theorem Yields.tail (h : l.Yields ts final) : l.next.2.Yields ts.tail final := by
  intro n
  rw [← after_succ, h (n + 1)]
  cases ts <;> rfl

/-- **The calls hand out the tokens ahead**, and then what ends them. -/
theorem yields_tokensFrom (c : Cursor) :
    Yields { cursor := c } (tokensFrom c).1 (tokensFrom c).2.2 := by
  induction c using Cursor.lexeme_induction with
  | ok c t c' hlex ih =>
    rw [tokensFrom_of_lexeme hlex]
    intro n
    cases n with
    | zero => exact congrArg Prod.fst (next_of_lexeme hlex)
    | succ n =>
      rw [after_succ, next_of_lexeme hlex]
      exact ih n
  | error c why hlex =>
    rw [tokensFrom_of_error hlex]
    intro n
    cases n with
    | zero => exact congrArg Prod.fst (next_of_error hlex)
    | succ n =>
      rw [after_succ, next_of_error hlex, after,
        Function.iterate_fixed (congrArg Prod.snd (next_ended c why))]
      rfl

theorem next_after_of_lt (h : n < (tokensFrom c).1.length) :
    (after n { cursor := c }).next.1 = (tokensFrom c).1[n] := by
  rw [yields_tokensFrom c n, List.getD_eq_getElem?_getD, List.getElem?_eq_getElem h,
    Option.getD_some]

theorem next_after_of_le (h : (tokensFrom c).1.length ≤ n) :
    (after n { cursor := c }).next.1 = (tokensFrom c).2.2 := by
  rw [yields_tokensFrom c n, List.getD_eq_getElem?_getD, List.getElem?_eq_none h, Option.getD_none]

/-- **A call ends the sequence if and only if the tokens of the source are used up.** -/
theorem isFinal_after_iff (c : Cursor) (n : ℕ) :
    (after n { cursor := c }).next.1.kind.isFinal = true ↔ (tokensFrom c).1.length ≤ n := by
  rcases Nat.lt_or_ge n (tokensFrom c).1.length with hn | hn
  · have hlexeme : Token.IsLexeme (tokensFrom c).1[n] := isLexeme_of_mem (List.getElem_mem hn)
    rw [next_after_of_lt hn, hlexeme.isFinal_eq]
    exact iff_of_false Bool.false_ne_true (Nat.not_le_of_lt hn)
  · rw [next_after_of_le hn]
    exact iff_of_true (Token.Kind.isFinal_iff.2 (kind_of_final c)) hn

/-- **The end of the sequence is final**: once a call has handed it out, every call does. -/
theorem next_after_of_isFinal (h : (after n { cursor := c }).next.1.kind.isFinal = true)
    (hnm : n ≤ m) : (after m { cursor := c }).next.1 = (after n { cursor := c }).next.1 := by
  have hn := (isFinal_after_iff c n).1 h
  rw [next_after_of_le hn, next_after_of_le (Nat.le_trans hn hnm)]

theorem length_tokensFrom_le (c : Cursor) : (tokensFrom c).1.length ≤ c.unread.length := by
  induction c using Cursor.lexeme_induction with
  | ok c t c' hlex ih =>
    rw [tokensFrom_of_lexeme hlex]
    exact Nat.lt_of_le_of_lt ih (Cursor.length_lt_of_lexeme hlex)
  | error c why hlex =>
    rw [tokensFrom_of_error hlex]
    exact Nat.zero_le _

/-! ## All tokens -/

/-- Calls until a token ends the sequence, behind the tokens `seen` (newest first): what was handed
out, and what stopped the scan short. `none` if it takes more than `fuel` calls. -/
def collect : ℕ → List Token → Lexer → Option (List Token × Option ScanFault)
  | 0, _, _ => none
  | fuel + 1, seen, l =>
    match l.next with
    | (t, l) =>
      match t.kind with
      | .eof => some (seen.reverse, none)
      | .error => some (seen.reverse, l.ended)
      | _ => collect fuel (t :: seen) l

/-- **The loop ends**: one round for each token, and one for the token that ends the sequence. -/
theorem collect_eq (seen : List Token) (h : (tokensFrom c).1.length < fuel) :
    collect fuel seen { cursor := c } =
      some (seen.reverse ++ (tokensFrom c).1,
        if (tokensFrom c).2.1 = .endOfInput then none else some (tokensFrom c).2.1) := by
  induction c using Cursor.lexeme_induction generalizing fuel seen with
  | ok c t c' hlex ih =>
    rw [tokensFrom_of_lexeme hlex] at h ⊢
    obtain ⟨fuel, rfl⟩ := Nat.exists_eq_add_one_of_ne_zero (Nat.ne_zero_of_lt h)
    have hlexeme : t.IsLexeme := isLexeme_of_lexeme hlex
    have ih := ih (t :: seen) (Nat.lt_of_succ_lt_succ h)
    rw [List.reverse_cons, List.append_assoc, List.singleton_append] at ih
    rw [← ih, collect, next_of_lexeme hlex]
    dsimp only
    split
    · exact absurd ‹_› hlexeme.not_final.1
    · exact absurd ‹_› hlexeme.not_final.2
    · rfl
  | error c why hlex =>
    rw [tokensFrom_of_error hlex] at h ⊢
    obtain ⟨fuel, rfl⟩ := Nat.exists_eq_add_one_of_ne_zero (Nat.ne_zero_of_lt h)
    rw [collect, next_of_error hlex, List.append_nil]
    cases why <;> rfl

end Lexer

end TinyLisp
