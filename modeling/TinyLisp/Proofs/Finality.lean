import TinyLisp.Proofs.Composition

/-!
# A list that is closed is final

The reader stops at the parenthesis that closes the first list of a source. Whatever bytes come
behind, the source still begins with that list: they may complete a character, go on with a word or
open a string, but only behind the parenthesis. Every token of the list in front of it is followed by
another token, so no token of the list reaches the end of the source, where it could be extended
(`Leads.lengthen`).

* `tokensFrom_lengthened`: tokens up to a closing parenthesis stay as they are.
* `readOne_append`: the result for sources.
-/

namespace TinyLisp

/-- **A token that something follows leads longer characters as well.** Behind a closing parenthesis
nothing needs to follow. -/
theorem Leads.lengthen {cs₀ cs rest : List Char} {kind : Token.Kind} (h : Leads cs₀ kind cs rest)
    (hnext : kind = .rightParen ∨ rest ≠ []) (more : List Char) :
    Leads (cs₀ ++ more) kind cs (rest ++ more) := by
  cases h with
  | left rest => exact .left (rest ++ more)
  | right rest => exact .right (rest ++ more)
  | quoted hcs rest =>
    rw [List.cons_append, List.append_assoc, List.cons_append]
    exact .quoted hcs (rest ++ more)
  | unclosed hcs =>
    -- the string reaches to the end
    rcases hnext with hkind | hrest
    · cases hkind
    · exact absurd rfl hrest
  | @word cs rest hcs hends =>
    have hrest : rest ≠ [] := by
      rcases hnext with hkind | hrest
      · unfold Cursor.wordKind at hkind
        split at hkind <;> cases hkind
      · exact hrest
    obtain ⟨x, xs, rfl⟩ := List.exists_cons_of_ne_nil hrest
    rw [List.append_assoc]
    exact .word hcs hends

/-! ## Tokens -/

section Tokens

variable {c d : Cursor} {t r : Token} {more : List Char} {ts us rest : List Token}

theorem exists_lexeme_of_tokens (h : (tokensFrom c).1 = t :: ts) :
    ∃ c', c.lexeme = .ok (t, c') ∧ (tokensFrom c').1 = ts := by
  cases hlex : c.lexeme with
  | error why =>
    rw [tokensFrom_of_error hlex] at h
    cases h
  | ok next =>
    obtain ⟨t', c'⟩ := next
    rw [tokensFrom_of_lexeme hlex] at h
    obtain ⟨rfl, htokens⟩ := List.cons.inj h
    exact ⟨c', rfl, htokens⟩

/-- Where a token is ahead, characters are. -/
theorem unread_ne_nil_of_tokens (h : (tokensFrom c).1 = t :: ts) : c.unread ≠ [] := by
  obtain ⟨c', hlex, -⟩ := exists_lexeme_of_tokens h
  have hlt := Cursor.length_lt_of_lexeme hlex
  intro hnil
  rw [hnil] at hlt
  exact absurd hlt (Nat.not_lt_zero _)

/-- **Tokens up to a closing parenthesis stay as they are** when characters are added behind. -/
theorem tokensFrom_lengthened (h : c.Lengthened more d) (hr : r.kind = .rightParen)
    (htokens : (tokensFrom c).1 = us ++ r :: rest) :
    ∃ rest', (tokensFrom d).1 = us ++ r :: rest' := by
  induction us generalizing c d with
  | nil =>
    obtain ⟨c', hlex, -⟩ := exists_lexeme_of_tokens htokens
    obtain ⟨d', hlex', -⟩ := h.lexeme hlex fun _ _ _ _ _ hleads => hleads.lengthen (.inl hr) more
    exact ⟨(tokensFrom d').1, by rw [tokensFrom_of_lexeme hlex', List.nil_append]⟩
  | cons u us ih =>
    obtain ⟨c', hlex, hbehind⟩ := exists_lexeme_of_tokens htokens
    -- at least the parenthesis is ahead behind this token
    have hnext : c'.unread ≠ [] := by
      cases us with
      | nil => exact unread_ne_nil_of_tokens hbehind
      | cons u' us => exact unread_ne_nil_of_tokens hbehind
    obtain ⟨d', hlex', h', -⟩ := h.lexeme hlex fun _ _ _ _ _ hleads =>
      hleads.lengthen (.inr hnext) more
    obtain ⟨rest', hrest'⟩ := ih h' hbehind
    exact ⟨rest', by rw [tokensFrom_of_lexeme hlex', hrest', List.cons_append]⟩

/-- A source is a longer source without what is added to it. -/
theorem lengthened_ofText (file t u : Text) :
    ∃ more, (Cursor.ofText file t none).Lengthened more (Cursor.ofText file (t ++ u) none) := by
  obtain ⟨cs, bad, -, rfl, hbad⟩ := Text.ofChars_decodeOnto [] t
  -- bytes that were no character may be one together with those added
  obtain ⟨more, bad', -, hmore, hbad'⟩ := Text.ofChars_decodeOnto [] (bad ++ u)
  refine ⟨more, ?_⟩
  rw [List.append_assoc, hmore, ← List.append_assoc, ← Text.ofChars_append, ofText_append hbad,
    ofText_append hbad']
  exact ⟨rfl, rfl, rfl, rfl, rfl⟩

end Tokens

/-! ## Forms -/

variable {file t : Text} {source : Option Location} {items : List Value}

/-- **A source that begins with a list begins with the same list whatever bytes are added to it**:
with the same items at the same places. -/
theorem readOne_append (h : readOne file t none = .ok (.list source items)) (u : Text) :
    readOne file (t ++ u) none = .ok (.list source items) := by
  have hlexemes : ∀ x ∈ (tokensFrom (Cursor.ofText file t none)).1, x.IsLexeme :=
    fun _ => isLexeme_of_mem
  obtain ⟨used, htokens, hspells⟩ := spells_of_readForm hlexemes .nil h
  rw [List.nil_append] at hspells
  obtain ⟨more, hmore⟩ := lengthened_ofText file t u
  -- the last token of a list is a closing parenthesis
  have hused : ∃ rest', (tokensFrom (Cursor.ofText file (t ++ u) none)).1 = used ++ rest' := by
    cases hspells with
    | @list l r pieces hl hitems hr =>
      rw [← List.cons_append, List.append_assoc, List.singleton_append] at htokens
      obtain ⟨rest', hrest'⟩ := tokensFrom_lengthened hmore hr htokens
      exact ⟨rest', by simpa using hrest'⟩
  obtain ⟨rest', hrest'⟩ := hused
  obtain ⟨last, hread⟩ := readForm_of_spells hspells
    (tokensFrom (Cursor.ofText file (t ++ u) none)).2.2 [] rest'
  simp only [readOne, Reader.form, Reader.ofText, Reader.ofCursor, hrest', hread, delivered]

/-- The second text goes on with the word behind the list, and holds a byte that is no character. -/
theorem readOne_append_word :
    readText "(1 'b')x" =
      .ok (.list (some { file := "input", pos := 0, line := 1, col := 1 })
        [.scalar (some { file := "input", pos := 1, line := 1, col := 2 }) (.int 1),
          .scalar (some { file := "input", pos := 3, line := 1, col := 4 }) (.string "b")]) ∧
    readText (("(1 'b')x" : Text) ++ (("y'(" : Text) ++ [0xC3])) =
      .ok (.list (some { file := "input", pos := 0, line := 1, col := 1 })
        [.scalar (some { file := "input", pos := 1, line := 1, col := 2 }) (.int 1),
          .scalar (some { file := "input", pos := 3, line := 1, col := 4 }) (.string "b")]) := by
  have hread : readOne unnamedSource "(1 'b')x" none =
      .ok (.list (some { file := "input", pos := 0, line := 1, col := 1 })
        [.scalar (some { file := "input", pos := 1, line := 1, col := 2 }) (.int 1),
          .scalar (some { file := "input", pos := 3, line := 1, col := 4 }) (.string "b")]) := by
    cbv
  exact ⟨hread, readOne_append hread (("y'(" : Text) ++ [0xC3])⟩

end TinyLisp
