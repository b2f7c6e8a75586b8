import TinyLisp.Proofs.Displacement
import TinyLisp.Proofs.InvalidBytes

/-!
# Sources compose

A source is a text, a line feed and another source. If the quotes in the text are even in number,
every string in it is closed, so each of its tokens ends at the line feed or in front of it
(`Leads.extend`). What is behind the line feed is scanned as a source of its own, further down.

* `tokensFrom_lineFeed`: the tokens of a cursor in front of a line feed, one by one.
* `readForms_append`: forms in front of other tokens are read first.
* `sources_compose`: whole sources, split into tokens and read.
-/

namespace TinyLisp

/-! ## Quotes -/

theorem count_quoteMark (cs : List Char) : (Text.ofChars cs).count 39 = cs.count quoteMark :=
  Text.count_ofChars_ascii (x := quoteMark) (by decide) cs

theorem count_quoteMark_word {cs : List Char} (h : IsWord cs) : cs.count quoteMark = 0 := by
  rw [List.count_eq_zero]
  intro hmem
  have hdelimiter := h.2 quoteMark hmem
  exact absurd hdelimiter (by decide)

theorem count_quoteMark_blank {gap : List Char} (h : ∀ x ∈ gap, isBlank x = true) :
    gap.count quoteMark = 0 := by
  rw [List.count_eq_zero]
  intro hmem
  have hblank := h quoteMark hmem
  exact absurd hblank (by decide)

theorem EndsWord.append {rest more : List Char} (h : EndsWord rest) (hmore : EndsWord more) :
    EndsWord (rest ++ more) := by
  cases rest with
  | nil => exact hmore
  | cons x xs => exact h

/-- **A token leads longer characters as well**, if it is no string that was left open. -/
theorem Leads.extend {cs₀ cs rest more : List Char} {kind : Token.Kind}
    (h : Leads cs₀ kind cs rest) (heven : cs₀.count quoteMark % 2 = 0) (hmore : EndsWord more) :
    Leads (cs₀ ++ more) kind cs (rest ++ more) ∧ rest.count quoteMark % 2 = 0 := by
  cases h with
  | left rest =>
    rw [List.count_cons_of_ne (by decide)] at heven
    exact ⟨.left (rest ++ more), heven⟩
  | right rest =>
    rw [List.count_cons_of_ne (by decide)] at heven
    exact ⟨.right (rest ++ more), heven⟩
  | quoted hcs rest =>
    rw [List.count_cons_self, List.count_append, List.count_cons_self,
      List.count_eq_zero.2 hcs] at heven
    refine ⟨?_, by omega⟩
    rw [List.cons_append, List.append_assoc, List.cons_append]
    exact .quoted hcs (rest ++ more)
  | unclosed hcs =>
    -- its opening quote is the only one
    rw [List.count_cons_self, List.count_eq_zero.2 hcs] at heven
    omega
  | word hcs hrest =>
    rw [List.count_append, count_quoteMark_word hcs] at heven
    refine ⟨?_, by omega⟩
    rw [List.append_assoc]
    exact .word hcs (hrest.append hmore)

/-! ## Tokens -/

section Tokens

variable {c c' d : Cursor} {t : Token} {gap rest tail : List Char}

/-- White space in front of a cursor can be passed first. -/
theorem Cursor.skipBlanks_pass (hf : c.failure = none) (hgap : ∀ x ∈ gap, isBlank x = true)
    (hunread : c.unread = gap ++ rest) : (c.pass gap rest).skipBlanks = c.skipBlanks := by
  have hf' : (c.pass gap rest).failure = none := hf
  rw [skipBlanks_eq hf, skipBlanks_eq hf', hunread, List.takeWhile_append_of_pos hgap,
    List.dropWhile_append_of_pos hgap]
  simp [pass, ignore, List.foldl_append, List.getLast?_append, Option.or_assoc]

theorem tokensFrom_of_skipBlanks (h : c.skipBlanks = d.skipBlanks) :
    tokensFrom c = tokensFrom d := by
  have hlex : c.lexeme = d.lexeme := by rw [Cursor.lexeme, Cursor.lexeme, h]
  cases hd : d.lexeme with
  | ok r => rw [tokensFrom_of_lexeme (hlex.trans hd), tokensFrom_of_lexeme hd]
  | error why => rw [tokensFrom_of_error (hlex.trans hd), tokensFrom_of_error hd, h]

/-- The cursor `d` is where `c` is, but behind the characters ahead of `c` it has `more`. -/
structure Cursor.Lengthened (more : List Char) (c d : Cursor) : Prop where
  file : d.file = c.file
  unread : d.unread = c.unread ++ more
  failure : c.failure = none
  failure' : d.failure = none
  here : d.here = c.here

/-- There the same token is ahead, if it leads the longer characters as well. -/
theorem Cursor.Lengthened.lexeme {more : List Char} (h : Lengthened more c d)
    (hlex : c.lexeme = .ok (t, c'))
    (hleads : ∀ gap span cs, c.unread = gap ++ (span ++ c'.unread) →
      (∀ x ∈ gap, isBlank x = true) → Leads (span ++ c'.unread) t.kind cs c'.unread →
      Leads (span ++ c'.unread ++ more) t.kind cs (c'.unread ++ more)) :
    ∃ d', d.lexeme = .ok (t, d') ∧ Lengthened more c' d' ∧ d'.undecodable = d.undecodable := by
  obtain ⟨gap, span, cs, hgap, hspan, htext, -, hwalked, hsource⟩ := leads_span_of_lexeme hlex
  obtain ⟨-, -, -, -, hpassed⟩ := splitToken_of_lexeme hlex
  have hahead : c.unread = gap ++ (span ++ c'.unread) := by rw [hwalked.unread, List.append_assoc]
  have hunread : d.unread = gap ++ (span ++ (c'.unread ++ more)) := by
    rw [h.unread, hahead]
    simp only [List.append_assoc]
  have hspan' := hleads gap span cs hahead hgap hspan
  rw [List.append_assoc] at hspan'
  obtain ⟨d', hlex', hwalked', hpassed'⟩ := lexeme_of_leads h.failure' hgap hunread hspan'
  have htoken : t =
      { kind := t.kind, text := .ofChars cs, source := d.locate (gap.foldl Mark.after d.here) } := by
    rw [← htext, h.here, locate, h.file, ← locate, ← hsource]
  refine ⟨d', htoken ▸ hlex', ⟨?_, hpassed'.unread, hpassed.failure.trans h.failure,
    hpassed'.failure.trans h.failure', ?_⟩, hpassed'.undecodable⟩
  · rw [hwalked'.file, hwalked.file, h.file]
  · rw [hwalked'.here, hwalked.here, h.here]

/-- The cursor `d` is where `c` is, but behind the characters ahead of `c` it has a line feed and
`tail`. -/
abbrev Cursor.Continued (tail : List Char) (c d : Cursor) : Prop := Lengthened ('\n' :: tail) c d

/-- Where the source goes on there is the same token. -/
theorem Cursor.Continued.lexeme (h : Continued tail c d)
    (heven : c.unread.count quoteMark % 2 = 0) (hlex : c.lexeme = .ok (t, c')) :
    ∃ d', d.lexeme = .ok (t, d') ∧ Continued tail c' d' ∧ d'.undecodable = d.undecodable ∧
      c'.unread.count quoteMark % 2 = 0 := by
  have hends : EndsWord ('\n' :: tail) := by
    intro x hx
    obtain rfl := Option.some.inj hx
    decide
  have hextend : ∀ gap span cs, c.unread = gap ++ (span ++ c'.unread) →
      (∀ x ∈ gap, isBlank x = true) → Leads (span ++ c'.unread) t.kind cs c'.unread →
      Leads (span ++ c'.unread ++ '\n' :: tail) t.kind cs (c'.unread ++ '\n' :: tail) ∧
        c'.unread.count quoteMark % 2 = 0 := by
    intro gap span cs hahead hgap hspan
    rw [hahead, List.count_append, count_quoteMark_blank hgap, Nat.zero_add] at heven
    exact hspan.extend heven hends
  obtain ⟨d', hlex', h', hundecodable⟩ :=
    Lengthened.lexeme h hlex fun gap span cs hahead hgap hspan =>
      (hextend gap span cs hahead hgap hspan).1
  obtain ⟨gap, span, cs, hgap, hspan, -, -, hwalked, -⟩ := leads_span_of_lexeme hlex
  have hahead : c.unread = gap ++ (span ++ c'.unread) := by rw [hwalked.unread, List.append_assoc]
  exact ⟨d', hlex', h', hundecodable, (hextend gap span cs hahead hgap hspan).2⟩

/-- **In front of a line feed the tokens are those of a source that ends there.** Behind it there are
the tokens of a cursor right behind it. -/
theorem tokensFrom_lineFeed (h : c.Continued tail d)
    (heven : c.unread.count quoteMark % 2 = 0) :
    ∃ d' : Cursor, d'.file = d.file ∧ d'.unread = tail ∧ d'.undecodable = d.undecodable ∧
      d'.failure = none ∧ d'.here = (c.unread ++ ['\n']).foldl Mark.after c.here ∧
      tokensFrom d = ((tokensFrom c).1 ++ (tokensFrom d').1, (tokensFrom d').2) := by
  induction c using Cursor.lexeme_induction generalizing d with
  | ok c t c' hlex ih =>
    obtain ⟨d₁, hlex', h₁, hundecodable, heven₁⟩ := h.lexeme heven hlex
    obtain ⟨xs, hxs⟩ := Cursor.walked_lexeme hlex
    obtain ⟨ys, hys⟩ := Cursor.walked_lexeme hlex'
    obtain ⟨d', hfile, hunread, hundecodable', hfailure, hhere, htokens⟩ := ih h₁ heven₁
    refine ⟨d', hfile.trans hys.file, hunread, hundecodable'.trans hundecodable, hfailure, ?_, ?_⟩
    · rw [hhere, hxs.here, hxs.unread, List.append_assoc, ← List.foldl_append]
    · rw [tokensFrom_of_lexeme hlex, tokensFrom_of_lexeme hlex', htokens]
      rfl
  | error c why hlex =>
    -- only white space is left, and the line feed is white space too
    have hblank := isBlank_of_lexeme_error h.failure hlex
    have hgap : ∀ x ∈ c.unread ++ ['\n'], isBlank x = true := by
      intro x hx
      rcases List.mem_append.1 hx with hx | hx
      · exact hblank x hx
      · rw [List.mem_singleton.1 hx]
        decide
    have hunread : d.unread = (c.unread ++ ['\n']) ++ tail := by
      rw [h.unread, List.append_assoc, List.singleton_append]
    refine ⟨d.pass (c.unread ++ ['\n']) tail, rfl, rfl, rfl, h.failure', ?_, ?_⟩
    · rw [Cursor.pass, h.here]
    · rw [tokensFrom_of_error hlex, List.nil_append]
      exact (tokensFrom_of_skipBlanks (Cursor.skipBlanks_pass h.failure' hgap hunread)).symm

end Tokens

/-! ## Forms -/

/-- Forms in front of other tokens are read first. -/
theorem readForms_append {pieces : List (Value × List Token)} (h : AllSpelled pieces)
    (final : Token) (seen : List Value) (last : Option Token) (ts : List Token) :
    ∃ last', readForms final seen last (pieces.flatMap (·.2) ++ ts) =
      readForms final ((pieces.map (·.1)).reverse ++ seen) last' ts := by
  induction pieces generalizing seen last with
  | nil => exact ⟨last, rfl⟩
  | cons p pieces ih =>
    obtain ⟨hp, h⟩ := allSpelled_cons.1 h
    obtain ⟨t, us, hus, ht⟩ := hp.head
    obtain ⟨last', hread⟩ := readForm_of_spells hp final [] (pieces.flatMap (·.2) ++ ts)
    have hhead : ((p.2 ++ (pieces.flatMap (·.2) ++ ts)).headD final).kind ≠ .eof := by
      rw [hus]
      exact ht
    obtain ⟨last'', hrest⟩ := ih h (p.1 :: seen) (some last')
    refine ⟨last'', ?_⟩
    rw [List.flatMap_cons, List.append_assoc,
      readForms_of_ok (v := p.1) hhead (by rw [hread]; rfl), hread, delivered, hrest]
    simp

/-! ## Whole sources -/

section Sources

variable {file s₁ s₂ : Text}

/-- The place behind a text and a line feed is the start of a source, further down. -/
theorem markBehind_lineFeed (cs : List Char) :
    markBehind (cs ++ ['\n']) = Mark.moved (.below (Text.ofChars cs)) {} := by
  have hsize : '\n'.utf8Size = 1 := by decide
  rw [markBehind_concat, markBehind_eq, Mark.after, if_pos rfl, hsize]
  simp only [Mark.moved, Displacement.below, Text.count_ofChars, Mark.mk.injEq]
  exact ⟨by omega, by omega, trivial⟩

/-- What the source `s₁`, a line feed and the source `s₂` are split into. -/
theorem tokensFrom_append_lineFeed (file : Text) (hs₁ : s₁.IsUtf8) (heven : s₁.count 39 % 2 = 0) (s₂ : Text) :
    tokensFrom (Cursor.ofText file (s₁ ++ 10 :: s₂) none) =
      ((tokensFrom (Cursor.ofText file s₁ none)).1 ++
          (tokensFrom (Cursor.ofText file s₂ none)).1.map (Token.moved (.below s₁)),
        (tokensFrom (Cursor.ofText file s₂ none)).2.1.moved (.below s₁),
        (tokensFrom (Cursor.ofText file s₂ none)).2.2.movedBy (.below s₁)
          (tokensFrom (Cursor.ofText file s₂ none)).2.1.stop?) := by
  obtain ⟨cs₁, rfl⟩ := hs₁
  obtain ⟨cs₂, bad, -, rfl, hbad⟩ := Text.ofChars_decodeOnto [] s₂
  have hbytes : Text.ofChars cs₁ ++ 10 :: (Text.ofChars cs₂ ++ bad) =
      Text.ofChars (cs₁ ++ '\n' :: cs₂) ++ bad := by
    rw [Text.ofChars_append, Text.ofChars_cons, List.append_assoc, List.append_assoc]
    rfl
  rw [count_quoteMark] at heven
  rw [hbytes, ofText_append hbad, ofText_append hbad, ofText_ofChars]
  set c₁ : Cursor := { file, unread := cs₁, undecodable := [], failure := none } with hc₁
  set c₂ : Cursor := { file, unread := cs₂, undecodable := bad, failure := none } with hc₂
  set d : Cursor :=
    { file, unread := cs₁ ++ '\n' :: cs₂, undecodable := bad, failure := none } with hd
  have hcontinued : c₁.Continued cs₂ d := ⟨rfl, rfl, rfl, rfl, rfl⟩
  obtain ⟨d', hfile, hunread, hundecodable, hfailure, hhere, htokens⟩ :=
    tokensFrom_lineFeed hcontinued heven
  have hmark : (cs₁ ++ ['\n']).foldl Mark.after {} = Mark.moved (.below (Text.ofChars cs₁)) {} :=
    markBehind_lineFeed cs₁
  have hmoved : c₂.Moved (.below (Text.ofChars cs₁)) d' :=
    ⟨hfile, hunread, hundecodable, rfl, hfailure, hhere.trans hmark⟩
  rw [htokens, tokensFrom_moved hmoved]

theorem tokenize_eq_stop (file bytes : Text) (failure : Option Text) :
    tokenize file bytes failure =
      ((tokensFrom (Cursor.ofText file bytes failure)).1,
        (tokensFrom (Cursor.ofText file bytes failure)).2.1.stop?) := by
  rw [tokenize_eq]
  cases (tokensFrom (Cursor.ofText file bytes failure)).2.1 <;> rfl

theorem ScanFault.stop_moved (δ : Displacement) (why : ScanFault) :
    (why.moved δ).stop? = why.stop?.map (ScanFault.moved δ) := by
  cases why <;> rfl

/-- **Sources compose.** Behind a text with an even number of quotes and a line feed, a source has the
tokens that it has by itself, further down, and is stopped by the same fault there. If the text reads
as forms, these come first, and the source is read as it is by itself: to the same forms further down,
or to the same error. -/
theorem sources_compose (file : Text) (hs₁ : s₁.IsUtf8) (heven : s₁.count 39 % 2 = 0) (s₂ : Text) :
    tokenize file (s₁ ++ 10 :: s₂) none =
        ((tokenize file s₁ none).1 ++ (tokenize file s₂ none).1.map (Token.moved (.below s₁)),
          (tokenize file s₂ none).2.map (ScanFault.moved (.below s₁))) ∧
      ∀ vs, readAll file s₁ none = .ok vs →
        (∀ ws, readAll file s₂ none = .ok ws →
          readAll file (s₁ ++ 10 :: s₂) none = .ok (vs ++ ws.map (Value.moved (.below s₁)))) ∧
        ∀ e, readAll file s₂ none = .error e →
          readAll file (s₁ ++ 10 :: s₂) none =
            .error (e.moved (.below s₁) (tokenize file s₂ none).2) := by
  have hfrom := tokensFrom_append_lineFeed file hs₁ heven s₂
  simp only [tokenize_eq_stop]
  refine ⟨by rw [hfrom, ScanFault.stop_moved], fun vs hvs => ?_⟩
  obtain ⟨pieces, hall, rfl, htokens, -⟩ := allSpelled_of_readAll hvs
  rw [tokenize_eq_stop] at htokens
  obtain ⟨hfront, -⟩ := Prod.mk.inj htokens
  set r₂ := tokensFrom (Cursor.ofText file s₂ none) with hr₂
  -- the tokens behind the line feed are lexemes, so they show no place
  have hmoved : r₂.1.map (Token.moved (.below s₁)) =
      r₂.1.map (Token.movedBy (.below s₁) r₂.2.1.stop?) :=
    List.map_congr_left fun t ht => ((isLexeme_of_mem ht).movedBy_eq _).symm
  have hread : readAll file (s₁ ++ 10 :: s₂) none =
      ((readAll file s₂ none).map fun ws =>
        pieces.map (·.1) ++ ws.map (Value.moved (.below s₁))).mapError
          (ReadError.moved (.below s₁) r₂.2.1.stop?) := by
    obtain ⟨last', happend⟩ := readForms_append hall
      (r₂.2.2.movedBy (.below s₁) r₂.2.1.stop?) [] none
      (r₂.1.map (Token.movedBy (.below s₁) r₂.2.1.stop?))
    have hforms := readForms_moved (.below s₁) r₂.2.1.stop? r₂.2.2
      (pieces.map (·.1)).reverse [] none last' r₂.1
    rw [List.map_nil, List.nil_append] at hforms
    rw [List.append_nil] at happend
    rw [List.reverse_reverse] at hforms
    simp only [readAll, Reader.ofText, Reader.ofCursor, Reader.forms, hfrom, hfront, hmoved,
      happend, hforms]
    rfl
  refine ⟨fun ws hws => ?_, fun e he => ?_⟩
  · rw [hread, hws]
    rfl
  · rw [hread, he]
    rfl

/-- A string that spans two lines is in front, and a list that is left open behind. -/
theorem sources_compose_string : ("('\n' 1)" : Text).count 39 % 2 = 0 ∧
    readAll "f" (("('\n' 1)" : Text) ++ 10 :: ("(2" : Text)) none =
      .error
        { reason := .unexpectedEnd
          source := some { file := "f", pos := 10, line := 3, col := 3 }
          expected := some .rightParen
          got := { kind := .eof, text := []
                   source := { file := "f", pos := 10, line := 3, col := 3 } } } := by
  have hutf8 : Text.IsUtf8 "('\n' 1)" := ⟨['(', quoteMark, '\n', quoteMark, ' ', '1', ')'], by decide⟩
  have heven : ("('\n' 1)" : Text).count 39 % 2 = 0 := by decide
  have hread : readAll "f" "('\n' 1)" none =
      .ok [.list (some { file := "f", pos := 0, line := 1, col := 1 })
        [.scalar (some { file := "f", pos := 1, line := 1, col := 2 }) (.string "\n"),
          .scalar (some { file := "f", pos := 5, line := 2, col := 3 }) (.int 1)]] := by
    cbv
  have hopen : readAll "f" "(2" none =
      .error
        { reason := .unexpectedEnd
          source := some { file := "f", pos := 2, line := 1, col := 3 }
          expected := some .rightParen
          got := { kind := .eof, text := []
                   source := { file := "f", pos := 2, line := 1, col := 3 } } } := by
    cbv
  have h := ((sources_compose "f" hutf8 heven "(2").2 _ hread).2 _ hopen
  have hbelow : Displacement.below "('\n' 1)" = { bytes := 8, lines := 2 } := by decide
  rw [hbelow] at h
  exact ⟨heven, h⟩

end Sources

end TinyLisp
