import Mathlib.Tactic.Set
import TinyLisp.Proofs.Encoding
import TinyLisp.Token.Lexer

/-!
# Tokens as characters

A cursor counts bytes, lines and columns, but which token comes next depends only on the characters
ahead of it. `splitToken` says how, and `lexeme_of_splitToken` that the cursor does just that.

* `Leads`: how a token of each class stands at the front of characters; `leads_of_splitToken`: where a
  token is split off, it stands there.
* `Token.IsLexeme`: what the tokens of each class can be; `isLexeme_of_mem`: every token that a
  source is split into is one of these.
* `splitToken_word`, `splitToken_string`: the characters of a word or a quoted text are split off as
  they are.
* `tokensFrom_of_lexeme`, `tokensFrom_of_end`: the tokens ahead, one by one.
-/

namespace TinyLisp

/-- The token at the front of some characters: its class, its text, and what is behind it. -/
def splitToken : List Char → Option (Token.Kind × List Char × List Char)
  | [] => none
  | x :: xs =>
    if x = '(' then some (.leftParen, [x], xs)
    else if x = ')' then some (.rightParen, [x], xs)
    else if x = quoteMark then
      some (.string, xs.takeWhile (· ≠ quoteMark), (xs.dropWhile (· ≠ quoteMark)).tail)
    else
      let word := x :: xs.takeWhile fun x => !isDelimiter x
      some (Cursor.wordKind (Text.ofChars word), word, xs.dropWhile fun x => !isDelimiter x)

theorem splitToken_eq_none {cs : List Char} : splitToken cs = none ↔ cs = [] := by
  cases cs with
  | nil => simp [splitToken]
  | cons x xs =>
    simp only [splitToken, reduceCtorEq, iff_false]
    repeat' split
    all_goals simp

/-! ## Cursors -/

namespace Cursor

variable {c c' : Cursor} {x : Char} {xs cs rest : List Char} {kind : Token.Kind} {t : Token}

/-- A cursor advances over the longest run of characters. -/
theorem advanceWhile_eq (hf : c.failure = none) (p : Char → Bool) :
    c.advanceWhile p = c.pass (c.unread.takeWhile p) (c.unread.dropWhile p) := by
  simp [advanceWhile, hf]

theorem skipBlanks_eq (hf : c.failure = none) :
    c.skipBlanks = (c.pass (c.unread.takeWhile isBlank) (c.unread.dropWhile isBlank)).ignore := by
  rw [skipBlanks, advanceWhile_eq hf]

theorem scan_eq (hf : c.failure = none) (hx : c.unread = x :: xs) :
    c.scan = .ok (x, c.pass [x] xs) := by
  simp only [scan, peek, hf, hx, List.tail_cons]

/-- The cursor `c'` has passed some characters of `c`, and `rest` is still ahead. -/
structure Passed (c c' : Cursor) (rest : List Char) : Prop where
  unread : c'.unread = rest
  failure : c'.failure = c.failure
  undecodable : c'.undecodable = c.undecodable

theorem Passed.trans {c'' : Cursor} {rest' : List Char} (h : Passed c c' rest)
    (h' : Passed c' c'' rest') : Passed c c'' rest' :=
  ⟨h'.unread, h'.failure.trans h.failure, h'.undecodable.trans h.undecodable⟩

/-- Nothing can be scanned where no character is ahead. -/
theorem scan_of_nil (hx : c.unread = []) : ∃ why, c.scan = .error why := by
  unfold scan
  cases hp : c.peek with
  | error why => exact ⟨why, rfl⟩
  | ok y =>
    unfold peek at hp
    split at hp <;> simp_all

/-- A string reaches up to the next quotation mark. -/
theorem stringToken_eq (hf : c.failure = none) :
    ∃ c', c.stringToken =
        ({ kind := .string
           text := .ofChars (c.unread.takeWhile (· ≠ quoteMark))
           source := c.startLocation }, c') ∧
      Passed c c' (c.unread.dropWhile (· ≠ quoteMark)).tail := by
  have hf' : c.ignore.failure = none := hf
  simp only [stringToken, advanceWhile_eq hf', unread_ignore]
  -- behind the text there is a quote, or the end
  cases hrest : c.unread.dropWhile (· ≠ quoteMark) with
  | nil =>
    obtain ⟨why, hwhy⟩ :=
      scan_of_nil (c := c.ignore.pass (c.unread.takeWhile (· ≠ quoteMark)) []) rfl
    rw [hwhy]
    refine ⟨c.ignore.pass (c.unread.takeWhile (· ≠ quoteMark)) [], ?_, rfl, rfl, rfl⟩
    simp [text, pass, ignore]
  | cons q rest =>
    set d := c.ignore.pass (c.unread.takeWhile (· ≠ quoteMark)) (q :: rest) with hd
    have hscan : d.scan = .ok (q, d.pass [q] rest) := scan_eq hf' rfl
    rw [hscan]
    refine ⟨(d.pass [q] rest).ignore, ?_, rfl, rfl, rfl⟩
    simp [hd, text, pass, ignore]

/-- A word reaches up to the next delimiter. -/
theorem wordToken_eq {x : Char} (hf : c.failure = none) (hp : c.pending = [x]) :
    ∃ c', c.wordToken =
        ({ kind := wordKind (.ofChars (x :: c.unread.takeWhile fun x => !isDelimiter x))
           text := .ofChars (x :: c.unread.takeWhile fun x => !isDelimiter x)
           source := c.startLocation }, c') ∧
      Passed c c' (c.unread.dropWhile fun x => !isDelimiter x) := by
  rw [wordToken, advanceWhile_eq hf]
  set d := c.pass (c.unread.takeWhile fun x => !isDelimiter x)
    (c.unread.dropWhile fun x => !isDelimiter x) with hd
  have htext : d.text = .ofChars (x :: c.unread.takeWhile fun x => !isDelimiter x) := by
    simp [hd, text, pass, hp]
  refine ⟨d.ignore, ?_, rfl, rfl, rfl⟩
  rw [htext, token, htext]
  rfl

/-- **The token ahead is the one at the front of the characters ahead**, behind any white space. -/
theorem lexeme_of_splitToken (hf : c.failure = none)
    (h : splitToken (c.unread.dropWhile isBlank) = some (kind, cs, rest)) :
    ∃ c', c.lexeme =
        .ok ({ kind, text := .ofChars cs, source := c.skipBlanks.location }, c') ∧
      Passed c c' rest := by
  have hskip := skipBlanks_eq hf
  cases hrest : c.unread.dropWhile isBlank with
  | nil => simp [hrest, splitToken] at h
  | cons x xs =>
    -- the first character is scanned, and the rest of the token with it
    set d := c.skipBlanks.pass [x] xs with hd
    have hscan : c.skipBlanks.scan = .ok (x, d) :=
      scan_eq (by rw [hskip]; exact hf) (by rw [hskip]; exact hrest)
    have hdf : d.failure = none := by rw [hd, hskip]; exact hf
    have hdu : d.undecodable = c.undecodable := by rw [hd, hskip]; rfl
    have hpending : d.pending = [x] := by rw [hd, hskip]; rfl
    have hsource : d.startLocation = c.skipBlanks.location := by rw [hd, hskip]; rfl
    have htext : d.text = .ofChars [x] := by rw [text, hpending]; rfl
    rw [hrest, splitToken] at h
    simp only [lexeme, hscan, tokenStarting]
    split at h
    · -- a parenthesis
      simp only [Option.some.injEq, Prod.mk.injEq] at h
      obtain ⟨rfl, rfl, rfl⟩ := h
      rw [if_pos ‹_›, token, htext, hsource]
      exact ⟨d.ignore, rfl, rfl, hdf.trans hf.symm, hdu⟩
    rw [if_neg ‹_›]
    split at h
    · simp only [Option.some.injEq, Prod.mk.injEq] at h
      obtain ⟨rfl, rfl, rfl⟩ := h
      rw [if_pos ‹_›, token, htext, hsource]
      exact ⟨d.ignore, rfl, rfl, hdf.trans hf.symm, hdu⟩
    rw [if_neg ‹_›]
    split at h
    · -- a quote: what is behind it is a string
      obtain ⟨c', hc', hp⟩ := stringToken_eq hdf
      simp only [Option.some.injEq, Prod.mk.injEq] at h
      obtain ⟨rfl, rfl, rfl⟩ := h
      rw [if_pos ‹_›, hc', hsource]
      exact ⟨c', rfl, hp.unread, hp.failure.trans (hdf.trans hf.symm), hp.undecodable.trans hdu⟩
    · obtain ⟨c', hc', hp⟩ := wordToken_eq hdf hpending
      simp only [Option.some.injEq, Prod.mk.injEq] at h
      obtain ⟨rfl, rfl, rfl⟩ := h
      rw [if_neg ‹_›, hc', hsource]
      exact ⟨c', rfl, hp.unread, hp.failure.trans (hdf.trans hf.symm), hp.undecodable.trans hdu⟩

theorem skipBlanks_failure (c : Cursor) : c.skipBlanks.failure = c.failure := by
  unfold skipBlanks advanceWhile
  split <;> rfl

/-- In a source that could not be read there is no token. -/
theorem lexeme_of_failure {message : Text} (hf : c.failure = some message) :
    c.lexeme = .error (.unreadable message) := by
  have hf' := c.skipBlanks_failure.trans hf
  simp only [lexeme, scan, peek, hf']

theorem failure_of_lexeme (h : c.lexeme = .ok (t, c')) : c.failure = none := by
  cases hf : c.failure with
  | none => rfl
  | some message =>
    rw [lexeme_of_failure hf] at h
    cases h

/-- A token is the one at the front of the characters ahead. -/
theorem splitToken_of_lexeme (h : c.lexeme = .ok (t, c')) :
    ∃ cs, splitToken (c.unread.dropWhile isBlank) = some (t.kind, cs, c'.unread) ∧
      t.text = .ofChars cs ∧ t.source = c.skipBlanks.location ∧ Passed c c' c'.unread := by
  have hf := failure_of_lexeme h
  cases hsplit : splitToken (c.unread.dropWhile isBlank) with
  | none =>
    -- then no character is ahead, and nothing can be scanned
    have hnil : c.skipBlanks.unread = [] := by
      rw [skipBlanks_eq hf]
      exact splitToken_eq_none.1 hsplit
    obtain ⟨why, hscan⟩ := scan_of_nil hnil
    simp only [lexeme, hscan] at h
    cases h
  | some split =>
    obtain ⟨kind, cs, rest⟩ := split
    obtain ⟨d, hd, hp⟩ := lexeme_of_splitToken hf hsplit
    obtain ⟨rfl, rfl⟩ := Prod.mk.inj (Except.ok.inj (hd.symm.trans h))
    obtain rfl := hp.unread
    exact ⟨cs, rfl, rfl, rfl, hp⟩

/-- At the end of a source that was read and is UTF-8 throughout there is no token. -/
theorem lexeme_of_end (hf : c.failure = none) (hx : c.unread.dropWhile isBlank = [])
    (hu : c.undecodable = []) : c.lexeme = .error .endOfInput := by
  have hpeek : c.skipBlanks.peek = .error .endOfInput := by
    rw [skipBlanks_eq hf]
    simp only [peek, ignore, pass, hf, hx, hu]
  simp only [lexeme, scan, hpeek]

end Cursor

/-! ## What the tokens are -/

/-- The characters of a word: there are some, and none of them ends a word. -/
def IsWord (cs : List Char) : Prop := cs ≠ [] ∧ ∀ c ∈ cs, isDelimiter c = false

instance (cs : List Char) : Decidable (IsWord cs) :=
  decidable_of_iff (cs ≠ [] ∧ cs.all (fun c => !isDelimiter c) = true) (by simp [IsWord])

/-- The characters cannot go on with a word. -/
def EndsWord (rest : List Char) : Prop := ∀ x, rest.head? = some x → isDelimiter x = true

/-- What the tokens of each class are; the classes that end a sequence are left out. -/
def Token.IsLexeme (t : Token) : Prop :=
  match t.kind with
  | .leftParen => t.text = .ofChars ['(']
  | .rightParen => t.text = .ofChars [')']
  | .string => ∃ cs, t.text = .ofChars cs ∧ quoteMark ∉ cs
  | .int => (∃ cs, t.text = .ofChars cs ∧ IsWord cs) ∧ t.text.toInt64?.isSome = true
  | .symbol => (∃ cs, t.text = .ofChars cs ∧ IsWord cs) ∧ t.text.toInt64? = none
  | _ => False

theorem isDelimiter_eq_false {c : Char} :
    isDelimiter c = false ↔ c ≠ '(' ∧ c ≠ ')' ∧ c ≠ quoteMark ∧ isBlank c = false := by
  simp [isDelimiter, and_assoc]

theorem isLexeme_word {cs : List Char} (h : IsWord cs) (source : Location) :
    Token.IsLexeme { kind := Cursor.wordKind (.ofChars cs), text := .ofChars cs, source } := by
  unfold Cursor.wordKind
  split
  · exact ⟨⟨cs, rfl, h⟩, ‹_›⟩
  · rename_i hint
    exact ⟨⟨cs, rfl, h⟩, by simpa using hint⟩

/-- How the token with the text `cs` stands at the front of some characters, with `rest` behind it. -/
inductive Leads : List Char → Token.Kind → List Char → List Char → Prop
  | left (rest : List Char) : Leads ('(' :: rest) .leftParen ['('] rest
  | right (rest : List Char) : Leads (')' :: rest) .rightParen [')'] rest
  | quoted {cs : List Char} (h : quoteMark ∉ cs) (rest : List Char) :
      Leads (quoteMark :: (cs ++ quoteMark :: rest)) .string cs rest
  | unclosed {cs : List Char} (h : quoteMark ∉ cs) : Leads (quoteMark :: cs) .string cs []
  | word {cs rest : List Char} (h : IsWord cs) (hrest : EndsWord rest) :
      Leads (cs ++ rest) (Cursor.wordKind (.ofChars cs)) cs rest

theorem head_dropWhile {p : Char → Bool} {cs : List Char} {x : Char}
    (h : (cs.dropWhile p).head? = some x) : p x = false := by
  have hnot := List.head?_dropWhile_not p cs
  rw [h] at hnot
  exact hnot

/-- The text behind a quote goes up to the next one, or to the end. -/
theorem leads_quote (xs : List Char) :
    Leads (quoteMark :: xs) .string (xs.takeWhile (· ≠ quoteMark))
      (xs.dropWhile (· ≠ quoteMark)).tail := by
  have hxs : xs.takeWhile (· ≠ quoteMark) ++ xs.dropWhile (· ≠ quoteMark) = xs :=
    List.takeWhile_append_dropWhile
  have hmem : quoteMark ∉ xs.takeWhile (· ≠ quoteMark) := by
    intro hmem
    have := List.all_eq_true.1 List.all_takeWhile quoteMark hmem
    simp at this
  cases hrest : xs.dropWhile (· ≠ quoteMark) with
  | nil =>
    rw [hrest, List.append_nil] at hxs
    have hleads := Leads.unclosed hmem
    rw [hxs] at hleads ⊢
    exact hleads
  | cons q rest =>
    have hq : q = quoteMark := by
      have hnot := head_dropWhile (x := q) (by rw [hrest]; rfl)
      simpa using hnot
    have hleads := Leads.quoted hmem rest
    rw [hrest, hq] at hxs
    rwa [hxs] at hleads

/-- **The token at the front of characters that do not begin with white space**, class by class. -/
theorem leads_of_splitToken {cs₀ cs rest : List Char} {kind : Token.Kind}
    (hblank : ∀ x, cs₀.head? = some x → isBlank x = false)
    (h : splitToken cs₀ = some (kind, cs, rest)) : Leads cs₀ kind cs rest := by
  cases cs₀ with
  | nil => cases h
  | cons x xs =>
    have hx : isBlank x = false := hblank x rfl
    simp only [splitToken] at h
    split at h
    · rename_i hleft
      simp only [Option.some.injEq, Prod.mk.injEq] at h
      obtain ⟨rfl, rfl, rfl⟩ := h
      rw [hleft]
      exact .left xs
    rename_i hleft
    split at h
    · rename_i hright
      simp only [Option.some.injEq, Prod.mk.injEq] at h
      obtain ⟨rfl, rfl, rfl⟩ := h
      rw [hright]
      exact .right xs
    rename_i hright
    split at h
    · rename_i hquote
      simp only [Option.some.injEq, Prod.mk.injEq] at h
      obtain ⟨rfl, rfl, rfl⟩ := h
      rw [hquote]
      exact leads_quote xs
    · rename_i hquote
      simp only [Option.some.injEq, Prod.mk.injEq] at h
      obtain ⟨rfl, rfl, rfl⟩ := h
      have hword : IsWord (x :: xs.takeWhile fun x => !isDelimiter x) := by
        refine ⟨List.cons_ne_nil _ _, fun c hc => ?_⟩
        rcases List.mem_cons.1 hc with rfl | hc
        · exact isDelimiter_eq_false.2 ⟨hleft, hright, hquote, hx⟩
        · have := List.all_eq_true.1 List.all_takeWhile c hc
          simpa using this
      have hrest : EndsWord (xs.dropWhile fun x => !isDelimiter x) := by
        intro y hy
        have := head_dropWhile hy
        simpa using this
      have hleads := Leads.word hword hrest
      rwa [List.cons_append, List.takeWhile_append_dropWhile] at hleads

theorem Leads.isLexeme {cs₀ cs rest : List Char} {kind : Token.Kind} (h : Leads cs₀ kind cs rest)
    (source : Location) : Token.IsLexeme { kind, text := .ofChars cs, source } := by
  cases h with
  | left => rfl
  | right => rfl
  | quoted h => exact ⟨cs, rfl, h⟩
  | unclosed h => exact ⟨cs, rfl, h⟩
  | word h => exact isLexeme_word h source

/-- The token ahead of a cursor leads what is ahead of it behind the white space. -/
theorem leads_of_lexeme {c c' : Cursor} {t : Token} (h : c.lexeme = .ok (t, c')) :
    ∃ cs, Leads (c.unread.dropWhile isBlank) t.kind cs c'.unread ∧ t.text = .ofChars cs := by
  obtain ⟨cs, hsplit, htext, -, -⟩ := Cursor.splitToken_of_lexeme h
  exact ⟨cs, leads_of_splitToken (fun _ hx => head_dropWhile hx) hsplit, htext⟩

/-- Whatever is read as a token is one. -/
theorem isLexeme_of_lexeme {c c' : Cursor} {t : Token} (h : c.lexeme = .ok (t, c')) :
    t.IsLexeme := by
  obtain ⟨cs, hleads, htext⟩ := leads_of_lexeme h
  obtain ⟨kind, text, source⟩ := t
  obtain rfl : text = .ofChars cs := htext
  exact hleads.isLexeme source

/-! ## Texts that are split off as they are -/

theorem dropWhile_word {cs : List Char} (h : IsWord cs) (rest : List Char) :
    (cs ++ rest).dropWhile isBlank = cs ++ rest := by
  obtain ⟨hne, hcs⟩ := h
  cases cs with
  | nil => exact absurd rfl hne
  | cons x xs =>
    obtain ⟨-, -, -, hx⟩ := isDelimiter_eq_false.1 (hcs x List.mem_cons_self)
    rw [List.cons_append, List.dropWhile_cons_of_neg (by simp [hx])]

/-- A word is split off up to the character that ends it. -/
theorem splitToken_word {cs rest : List Char} (h : IsWord cs) (hrest : EndsWord rest) :
    splitToken (cs ++ rest) = some (Cursor.wordKind (.ofChars cs), cs, rest) := by
  obtain ⟨hne, hcs⟩ := h
  cases cs with
  | nil => exact absurd rfl hne
  | cons x xs =>
    obtain ⟨hleft, hright, hquote, -⟩ := isDelimiter_eq_false.1 (hcs x List.mem_cons_self)
    have hxs : ∀ c ∈ xs, (!isDelimiter c) = true := by
      intro c hc
      rw [hcs c (List.mem_cons_of_mem x hc)]
      rfl
    -- the word goes on through `xs` and no further
    have htake : (rest.takeWhile fun c => !isDelimiter c) = [] := by
      cases rest with
      | nil => rfl
      | cons y ys => simp [hrest y rfl]
    have hdrop : (rest.dropWhile fun c => !isDelimiter c) = rest := by
      cases rest with
      | nil => rfl
      | cons y ys => simp [hrest y rfl]
    simp only [List.cons_append, splitToken, if_neg hleft, if_neg hright, if_neg hquote,
      List.takeWhile_append_of_pos hxs, List.dropWhile_append_of_pos hxs, htake, hdrop,
      List.append_nil]

/-- A quoted text is split off with its quotes. -/
theorem splitToken_string {cs : List Char} (h : quoteMark ∉ cs) (rest : List Char) :
    splitToken (quoteMark :: (cs ++ quoteMark :: rest)) = some (.string, cs, rest) := by
  have hcs : ∀ c ∈ cs, decide (c ≠ quoteMark) = true := by
    intro c hc
    simp only [decide_eq_true_eq]
    rintro rfl
    exact h hc
  have hleft : quoteMark ≠ '(' := by decide
  have hright : quoteMark ≠ ')' := by decide
  simp only [splitToken, if_neg hleft, if_neg hright, if_true,
    List.takeWhile_append_of_pos hcs, List.dropWhile_append_of_pos hcs]
  simp

/-! ## All tokens ahead -/

section Tokens

variable {c c' : Cursor} {t : Token} {why : ScanFault}

/-- What holds where no token is ahead, and behind a token only if in front of it, holds
everywhere. -/
@[elab_as_elim]
theorem Cursor.lexeme_induction {P : Cursor → Prop}
    (ok : ∀ c t c', c.lexeme = .ok (t, c') → P c' → P c)
    (error : ∀ c why, c.lexeme = .error why → P c) (c : Cursor) : P c := by
  cases h : c.lexeme with
  | error why => exact error c why h
  | ok r => exact ok c r.1 r.2 h (lexeme_induction ok error r.2)
termination_by c.unread.length
decreasing_by exact length_lt_of_lexeme h

theorem tokensOnto_of_lexeme (h : c.lexeme = .ok (t, c')) (seen : List Token) :
    tokensOnto seen c = tokensOnto (t :: seen) c' := by
  conv => lhs; unfold tokensOnto
  split
  · rename_i t' d h'
    obtain ⟨rfl, rfl⟩ := Prod.mk.inj (Except.ok.inj (h'.symm.trans h))
    rfl
  · rename_i why h'
    rw [h] at h'
    cases h'

theorem tokensOnto_of_error (h : c.lexeme = .error why) (seen : List Token) :
    tokensOnto seen c = (seen.reverse, why, c.skipBlanks.finalToken why) := by
  unfold tokensOnto
  split
  · rename_i t' d h'
    rw [h] at h'
    cases h'
  · rename_i why' h'
    obtain rfl := Except.error.inj (h'.symm.trans h)
    rfl

theorem tokensOnto_eq (seen : List Token) (c : Cursor) :
    tokensOnto seen c = (seen.reverse ++ (tokensFrom c).1, (tokensFrom c).2) := by
  induction c using Cursor.lexeme_induction generalizing seen with
  | ok c t c' h ih =>
    rw [tokensFrom, tokensOnto_of_lexeme h, tokensOnto_of_lexeme h, ih [t], ih (t :: seen)]
    simp
  | error c why h => simp [tokensFrom, tokensOnto_of_error h]

/-- The first token comes before those behind it. -/
theorem tokensFrom_of_lexeme (h : c.lexeme = .ok (t, c')) :
    tokensFrom c = (t :: (tokensFrom c').1, (tokensFrom c').2) := by
  rw [tokensFrom, tokensOnto_of_lexeme h, tokensOnto_eq]
  rfl

theorem tokensFrom_of_error (h : c.lexeme = .error why) :
    tokensFrom c = ([], why, c.skipBlanks.finalToken why) := tokensOnto_of_error h []

/-- The tokens ahead begin with the one that the characters begin with. -/
theorem tokensFrom_of_splitToken {kind : Token.Kind} {cs rest : List Char} (hf : c.failure = none)
    (h : splitToken (c.unread.dropWhile isBlank) = some (kind, cs, rest)) :
    ∃ t c', t.kind = kind ∧ t.text = .ofChars cs ∧ c.Passed c' rest ∧
      tokensFrom c = (t :: (tokensFrom c').1, (tokensFrom c').2) := by
  obtain ⟨c', hlex, hpassed⟩ := Cursor.lexeme_of_splitToken hf h
  exact ⟨_, c', rfl, rfl, hpassed, tokensFrom_of_lexeme hlex⟩

/-- Behind the last token of a source that is UTF-8 throughout there is its end. -/
theorem tokensFrom_of_end (hf : c.failure = none) (hx : c.unread = []) (hu : c.undecodable = []) :
    ∃ final, tokensFrom c = ([], .endOfInput, final) ∧ final.kind = .eof := by
  have hlex := Cursor.lexeme_of_end hf (by rw [hx]; rfl) hu
  exact ⟨_, tokensFrom_of_error hlex, rfl⟩

theorem ofText_ofChars (file : Text) (cs : List Char) :
    Cursor.ofText file (.ofChars cs) none =
      { file, unread := cs, undecodable := [], failure := none } := by
  simp only [Cursor.ofText, Text.decode_ofChars]

/-- **Every token that a source is split into is a lexeme of its class.** -/
theorem isLexeme_of_mem (h : t ∈ (tokensFrom c).1) : t.IsLexeme := by
  induction c using Cursor.lexeme_induction with
  | ok c t' c' hlex ih =>
    rw [tokensFrom_of_lexeme hlex] at h
    rcases List.mem_cons.1 h with rfl | h
    · exact isLexeme_of_lexeme hlex
    · exact ih h
  | error c why hlex =>
    rw [tokensFrom_of_error hlex] at h
    cases h

/-- The token behind them says that the source is exhausted or cannot be scanned. -/
theorem kind_of_final (c : Cursor) :
    (tokensFrom c).2.2.kind = .eof ∨ (tokensFrom c).2.2.kind = .error := by
  induction c using Cursor.lexeme_induction with
  | ok c t c' hlex ih =>
    rw [tokensFrom_of_lexeme hlex]
    exact ih
  | error c why hlex =>
    rw [tokensFrom_of_error hlex]
    cases why with
    | endOfInput => exact .inl rfl
    | unreadable message => exact .inr rfl
    | invalidByte b => exact .inr rfl

/-- It says that the source is exhausted only where that is so. -/
theorem fault_of_final (h : (tokensFrom c).2.2.kind = .eof) : (tokensFrom c).2.1 = .endOfInput := by
  induction c using Cursor.lexeme_induction with
  | ok c t c' hlex ih =>
    rw [tokensFrom_of_lexeme hlex] at h ⊢
    exact ih h
  | error c why hlex =>
    rw [tokensFrom_of_error hlex] at h ⊢
    cases why with
    | endOfInput => rfl
    | unreadable message => cases h
    | invalidByte b => cases h

/-- A source is cut into the tokens ahead of the cursor at its beginning. -/
theorem tokenize_eq (file bytes : Text) (failure : Option Text) :
    tokenize file bytes failure =
      ((tokensFrom (Cursor.ofText file bytes failure)).1,
        if (tokensFrom (Cursor.ofText file bytes failure)).2.1 = .endOfInput then none
        else some (tokensFrom (Cursor.ofText file bytes failure)).2.1) := by
  unfold tokenize
  obtain ⟨ts, why, final⟩ := tokensFrom (Cursor.ofText file bytes failure)
  cases why with
  | endOfInput => rfl
  | unreadable message => rfl
  | invalidByte b => rfl

end Tokens

end TinyLisp
