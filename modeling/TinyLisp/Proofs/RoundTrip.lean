import Mathlib
import TinyLisp.Proofs.Equality
import TinyLisp.Proofs.Grammar

/-!
# Reading what was printed

A value that a source can spell is printed as text that reads back as that value.

* `Value.Readable`: the values that a source can spell.
* `Printed`: the printed form of a value, wherever it stands in a source, is split into tokens that
  spell the value; `Readable.printed`: every readable value has such a form.
* `read_render`: reading undoes printing.
* `render_normal`: what is read from any source is readable, so that printing is a normal form of
  sources.
* `equal_render`: equality is what printing respects, and on readable values printing tells apart
  what is not equal.
-/

namespace TinyLisp

/-- The scalars that a source can spell. -/
def Scalar.IsReadable : Scalar → Prop
  | .int _ | .bool _ | .nil => True
  | .string text => ∃ cs, text = .ofChars cs ∧ quoteMark ∉ cs
  | .symbol name =>
    (∃ cs, name = .ofChars cs ∧ IsWord cs) ∧ name.toInt64? = none ∧
      name ≠ ("true" : Text) ∧ name ≠ ("false" : Text) ∧ name ≠ ("nil" : Text)

/-- The values that a source can spell. -/
inductive Value.Readable : Value → Prop
  | scalar {source : Option Location} {s : Scalar} (h : s.IsReadable) : Readable (.scalar source s)
  | list {source : Option Location} {items : List Value} (h : ∀ v ∈ items, Readable v) :
      Readable (.list source items)

variable {c : Cursor} {cs rest : List Char} {kind : Token.Kind} {v w : Value} {items : List Value}
  {s : Scalar} {source : Option Location} {bytes : Text}

/-! ## Tokens of printed forms -/

/-- The value `v` is printed as the characters `cs`. Wherever these stand, they are split into
tokens that spell a value equal to `v`. -/
structure Printed (v : Value) (cs : List Char) : Prop where
  render : ∀ cells path rest, v.renderOnto cells path rest = .ofChars cs ++ rest
  reads : ∀ (c : Cursor) (rest : List Char), c.failure = none →
    c.unread.dropWhile isBlank = (cs ++ rest).dropWhile isBlank → EndsWord rest →
    ∃ v' ts c', Spells v' ts ∧ v.equal v' = true ∧ c.Passed c' rest ∧
      tokensFrom c = (ts ++ (tokensFrom c').1, (tokensFrom c').2)

/-- A scalar that is printed as one token. -/
theorem printed_scalar {text : Text} (hrender : s.render = .ofChars cs)
    (hsplit : ∀ rest, EndsWord rest → ∃ ds,
      splitToken ((cs ++ rest).dropWhile isBlank) = some (kind, ds, rest) ∧ text = .ofChars ds)
    (hs : ∀ place, Scalar.ofToken? { kind, text, source := place } = some s) :
    Printed (.scalar source s) cs := by
  constructor
  · intro cells path rest
    rw [Value.renderOnto, hrender]
  · intro c rest hf hc hrest
    obtain ⟨ds, hds, rfl⟩ := hsplit rest hrest
    obtain ⟨⟨_, _, place⟩, c', rfl, rfl, hpassed, htokens⟩ :=
      tokensFrom_of_splitToken hf (hc ▸ hds)
    exact ⟨_, _, c', .scalar (hs place), by simp [Value.equal], hpassed, htokens⟩

theorem printed_word (hword : IsWord cs) (hrender : s.render = .ofChars cs)
    (hs : ∀ place, Scalar.ofToken?
      { kind := Cursor.wordKind (.ofChars cs), text := .ofChars cs, source := place } = some s) :
    Printed (.scalar source s) cs := by
  refine printed_scalar hrender (fun rest hrest => ⟨cs, ?_, rfl⟩) hs
  rw [dropWhile_word hword, splitToken_word hword hrest]

theorem printed_string (h : quoteMark ∉ cs) :
    Printed (.scalar source (.string (.ofChars cs))) (quoteMark :: (cs ++ [quoteMark])) := by
  have hrender : Scalar.render (.string (.ofChars cs)) =
      .ofChars (quoteMark :: (cs ++ [quoteMark])) := by
    have hquote : ("'" : Text) = .ofChars [quoteMark] := by decide
    rw [Scalar.render, hquote, ← Text.ofChars_append, ← Text.ofChars_append]
    rfl
  have hs : ∀ place, Scalar.ofToken? { kind := .string, text := .ofChars cs, source := place } =
      some (.string (.ofChars cs)) := fun _ => rfl
  refine printed_scalar hrender (fun rest _ => ⟨cs, ?_, rfl⟩) hs
  rw [List.cons_append, List.dropWhile_cons_of_neg (by decide), List.append_assoc,
    List.singleton_append, splitToken_string h]

/-- A word that is no integer is printed as it is read. -/
theorem printed_name (hword : IsWord cs) (hint : (Text.ofChars cs).toInt64? = none)
    (hrender : s.render = .ofChars cs) (hs : Scalar.ofWord (.ofChars cs) = s) :
    Printed (.scalar source s) cs := by
  refine printed_word hword hrender fun _ => ?_
  simp only [Cursor.wordKind, hint, Option.isSome_none, Bool.false_eq_true, if_false,
    Scalar.ofToken?, hs]

/-- A decimal integer is a word. -/
theorem isWord_ofInt (n : Int) : ∃ cs, IsWord cs ∧ Text.ofInt n = .ofChars cs := by
  have hbyte : ∀ b ∈ Text.ofInt n, 45 ≤ b.toNat ∧ b.toNat < 58 := by
    intro b hb
    rcases Text.mem_ofInt hb with rfl | hb
    · decide
    · rw [Text.isDigit_iff] at hb
      omega
  have hword : ∀ k < 58, 45 ≤ k → isDelimiter (Char.ofNat k) = false := by decide
  refine ⟨(Text.ofInt n).map fun b => Char.ofNat b.toNat, ⟨?_, ?_⟩, ?_⟩
  · simpa using Text.ofInt_ne_nil n
  · intro x hx
    obtain ⟨b, hb, rfl⟩ := List.mem_map.1 hx
    exact hword b.toNat (hbyte b hb).2 (hbyte b hb).1
  · refine (Text.ofChars_ascii fun b hb => ?_).symm
    have := hbyte b hb
    omega

/-- Every readable scalar has a printed form. -/
theorem Scalar.IsReadable.printed (h : s.IsReadable) (source : Option Location) :
    ∃ cs, Printed (.scalar source s) cs := by
  cases s with
  | symbol name =>
    obtain ⟨⟨cs, rfl, hword⟩, hint, htrue, hfalse, hnil⟩ := h
    refine ⟨cs, printed_name hword hint rfl ?_⟩
    rw [Scalar.ofWord, if_neg htrue, if_neg hfalse, if_neg hnil]
  | int n =>
    obtain ⟨cs, hword, hcs⟩ := isWord_ofInt n.toInt
    have hint := Text.toInt64?_ofInt n
    rw [hcs] at hint
    refine ⟨cs, printed_word hword hcs fun _ => ?_⟩
    simp only [Cursor.wordKind, hint, Option.isSome_some, if_true, Scalar.ofToken?]
  | bool b =>
    cases b with
    | true => exact ⟨"true".toList, printed_name (by decide) (by decide) rfl (by decide)⟩
    | false => exact ⟨"false".toList, printed_name (by decide) (by decide) rfl (by decide)⟩
  | string text =>
    obtain ⟨cs, rfl, hquote⟩ := h
    exact ⟨_, printed_string hquote⟩
  | nil => exact ⟨"nil".toList, printed_name (by decide) (by decide) rfl (by decide)⟩

/-- The printed forms of some values, with spaces between, are split into tokens that spell equal
values, up to the parenthesis that closes their list. -/
theorem printed_items (h : ∀ v ∈ items, ∃ cs, Printed v cs) :
    ∃ cs, (∀ cells path rest, Value.renderItemsOnto cells path items rest = .ofChars cs ++ rest) ∧
      ∀ (c : Cursor) (rest : List Char), c.failure = none →
        c.unread.dropWhile isBlank = (cs ++ ')' :: rest).dropWhile isBlank →
        ∃ pieces c', AllSpelled pieces ∧ Value.equalItems items (pieces.map (·.1)) = true ∧
          c'.unread.dropWhile isBlank = ')' :: rest ∧ c.Passed c' c'.unread ∧
          tokensFrom c = (pieces.flatMap (·.2) ++ (tokensFrom c').1, (tokensFrom c').2) := by
  induction items with
  | nil =>
    refine ⟨[], fun _ _ _ => by rw [Value.renderItemsOnto]; rfl, fun c rest hf hc => ?_⟩
    exact ⟨[], c, allSpelled_nil, rfl, hc, ⟨rfl, rfl, rfl⟩, rfl⟩
  | cons v vs ih =>
    obtain ⟨hv, hvs⟩ := List.forall_mem_cons.1 h
    obtain ⟨cs, hrender, hreads⟩ := hv
    obtain ⟨ds, hrenders, ih⟩ := ih hvs
    cases vs with
    | nil =>
      refine ⟨cs, fun _ _ _ => by rw [Value.renderItemsOnto, hrender], fun c rest hf hc => ?_⟩
      obtain ⟨v', ts, c', hspells, hequal, hpassed, htokens⟩ :=
        hreads c (')' :: rest) hf hc (by simp [EndsWord, isDelimiter])
      refine ⟨[(v', ts)], c', allSpelled_cons.2 ⟨hspells, allSpelled_nil⟩, ?_, ?_, ?_, ?_⟩
      · simp [Value.equalItems, hequal]
      · rw [hpassed.unread]
        rfl
      · exact ⟨rfl, hpassed.failure, hpassed.undecodable⟩
      · simpa using htokens
    | cons w ws =>
      refine ⟨cs ++ ' ' :: ds, fun cells path rest => ?_, fun c rest hf hc => ?_⟩
      · rw [Value.renderItemsOnto, hrender, hrenders, Text.ofChars_append, Text.ofChars_cons,
          List.append_assoc]
        rfl
      · rw [List.append_assoc] at hc
        obtain ⟨v', ts, c₁, hspells, hequal, hpassed, htokens⟩ :=
          hreads c _ hf hc (by simp [EndsWord, isDelimiter]; decide)
        -- the space in front of the next item is skipped
        have hc₁ : c₁.unread.dropWhile isBlank = (ds ++ ')' :: rest).dropWhile isBlank := by
          rw [hpassed.unread]
          exact List.dropWhile_cons_of_pos (by decide)
        obtain ⟨pieces, c₂, hall, hequals, hclose, hpassed₂, htokens₂⟩ :=
          ih c₁ rest (hpassed.failure.trans hf) hc₁
        refine ⟨(v', ts) :: pieces, c₂, allSpelled_cons.2 ⟨hspells, hall⟩, ?_, hclose,
          hpassed.trans hpassed₂, ?_⟩
        · rw [List.map_cons, Value.equalItems, hequal, hequals]
          rfl
        · rw [htokens, htokens₂]
          simp

/-- **Every readable value has a printed form.** -/
theorem Value.Readable.printed (h : v.Readable) : ∃ cs, Printed v cs := by
  induction h with
  | @scalar source s h => exact h.printed source
  | @list source items _ ih =>
    obtain ⟨cs, hrender, hreads⟩ := printed_items ih
    refine ⟨'(' :: (cs ++ [')']), fun cells path rest => ?_, fun c rest hf hc hrest => ?_⟩
    · have hleft : String.utf8EncodeChar '(' = [40] := by decide
      have hright : Text.ofChars [')'] = [41] := by decide
      rw [Value.renderOnto, hrender, Text.ofChars_cons, Text.ofChars_append, hleft, hright]
      simp
    · rw [List.cons_append, List.dropWhile_cons_of_neg (by decide), List.append_assoc,
        List.singleton_append] at hc
      -- the opening parenthesis, the items, the closing parenthesis
      have hopen : splitToken (c.unread.dropWhile isBlank) =
          some (.leftParen, ['('], cs ++ ')' :: rest) := by rw [hc]; rfl
      obtain ⟨l, c₁, hl, -, hpassed₁, htokens₁⟩ := tokensFrom_of_splitToken hf hopen
      obtain ⟨pieces, c₂, hall, hequals, hc₂, hpassed₂, htokens₂⟩ :=
        hreads c₁ rest (hpassed₁.failure.trans hf) (by rw [hpassed₁.unread])
      have hpassed := hpassed₁.trans hpassed₂
      have hclose : splitToken (c₂.unread.dropWhile isBlank) = some (.rightParen, [')'], rest) := by
        rw [hc₂]; rfl
      obtain ⟨r, c₃, hr, -, hpassed₃, htokens₃⟩ :=
        tokensFrom_of_splitToken (hpassed.failure.trans hf) hclose
      refine ⟨_, _, c₃, .list hl hall hr, ?_, hpassed.trans hpassed₃, ?_⟩
      · rw [Value.equal, hequals]
      · rw [htokens₁, htokens₂, htokens₃]
        simp

/-! ## Whole sources -/

/-- A source that holds the printed form of a value and nothing else. -/
theorem Printed.tokens (h : Printed v cs) (file : Text) :
    ∃ v' ts final, Spells v' ts ∧ v.equal v' = true ∧ final.kind = .eof ∧
      tokensFrom (Cursor.ofText file (.ofChars cs) none) = (ts, .endOfInput, final) := by
  rw [ofText_ofChars]
  set c : Cursor := { file, unread := cs, undecodable := [], failure := none } with hc
  obtain ⟨v', ts, c', hspells, hequal, hpassed, htokens⟩ :=
    h.reads c [] rfl (by rw [List.append_nil]) (by simp [EndsWord])
  obtain ⟨final, hend, hfinal⟩ :=
    tokensFrom_of_end hpassed.failure hpassed.unread hpassed.undecodable
  refine ⟨v', ts, final, hspells, hequal, hfinal, ?_⟩
  rw [htokens, hend, List.append_nil]

/-- The printed form of a value is a source with one form, which is that value. -/
theorem Printed.read (h : Printed v cs) (file : Text) :
    ∃ v', readOne file (.ofChars cs) none = .ok v' ∧ readAll file (.ofChars cs) none = .ok [v'] ∧
      v.equal v' = true := by
  obtain ⟨v', ts, final, hspells, hequal, hfinal, htokens⟩ := h.tokens file
  refine ⟨v', ?_, ?_, hequal⟩
  · obtain ⟨last, hread⟩ := readForm_of_spells hspells final [] []
    rw [List.append_nil] at hread
    simp only [readOne, Reader.form, Reader.ofText, Reader.ofCursor, htokens, hread]
    rfl
  · have hone : AllSpelled [(v', ts)] := allSpelled_cons.2 ⟨hspells, allSpelled_nil⟩
    have hread := readForms_of_spells hone hfinal [] none
    simp only [List.flatMap_cons, List.flatMap_nil, List.append_nil] at hread
    simp only [readAll, Reader.forms, Reader.ofText, Reader.ofCursor, htokens, hread]
    rfl

theorem Printed.render_eq (h : Printed v cs) (cells : Array Value) :
    v.render cells = .ofChars cs := by
  rw [Value.render_eq, h.render, List.append_nil]

/-- **Reading undoes printing.** The printed form of a readable value reads as a value equal to it,
and as a program it is that one form. -/
theorem read_render (v : Value) (h : v.Readable) (cells : Array Value) :
    ∃ v', readText (v.render cells) = .ok v' ∧ v.equal v' = true ∧
      ∀ file, ∃ w, readAll file (v.render cells) none = .ok [w] ∧ v.equal w = true ∧
        readOne file (v.render cells) none = .ok w := by
  obtain ⟨cs, hprinted⟩ := h.printed
  rw [hprinted.render_eq]
  obtain ⟨v', hone, -, hequal⟩ := hprinted.read unnamedSource
  refine ⟨v', hone, hequal, fun file => ?_⟩
  obtain ⟨w, hone, hall, hequal⟩ := hprinted.read file
  exact ⟨w, hall, hequal, hone⟩

/-- The smallest integer, a string that looks like a list, an empty list and a symbol. -/
theorem read_render_nested :
    ∃ v : Value, v.Readable ∧ v.render #[] = ("(-9223372036854775808 'a (b)' () -x)" : Text) ∧
      ∃ v', readText (v.render #[]) = .ok v' ∧ v.equal v' = true ∧
        ∀ file, ∃ w, readAll file (v.render #[]) none = .ok [w] ∧ v.equal w = true ∧
          readOne file (v.render #[]) none = .ok w := by
  have hreadable : Value.Readable (.list none [.scalar none (.int Int64.minValue),
      .scalar none (.string "a (b)"), .list none [], .scalar none (.symbol "-x")]) := by
    refine .list ?_
    simp only [List.forall_mem_cons]
    refine ⟨.scalar trivial, .scalar ⟨_, rfl, by decide⟩, .list (by simp), ?_, by simp⟩
    exact .scalar ⟨⟨_, rfl, by decide⟩, by decide, by decide, by decide, by decide⟩
  exact ⟨_, hreadable, by cbv, read_render _ hreadable #[]⟩

/-! ## What is read -/

theorem Scalar.isReadable_of_token {t : Token} (ht : t.IsLexeme)
    (h : Scalar.ofToken? t = some s) : s.IsReadable := by
  unfold Scalar.ofToken? at h
  split at h
  · rename_i hk
    rw [Token.IsLexeme, hk] at ht
    obtain ⟨n, hn⟩ := Option.isSome_iff_exists.1 ht.2
    rw [hn] at h
    obtain rfl := Option.some.inj h
    exact trivial
  · rename_i hk
    rw [Token.IsLexeme, hk] at ht
    obtain rfl := Option.some.inj h
    exact ht
  · rename_i hk
    rw [Token.IsLexeme, hk] at ht
    obtain rfl := Option.some.inj h
    unfold Scalar.ofWord
    split
    · exact trivial
    split
    · exact trivial
    split
    · exact trivial
    · exact ⟨ht.1, ht.2, ‹_›, ‹_›, ‹_›⟩
  · cases h

/-- **What tokens of a source spell is readable.** -/
theorem Spells.readable {ts : List Token} (h : Spells v ts) (hts : ∀ t ∈ ts, t.IsLexeme) :
    v.Readable := by
  induction h with
  | scalar h => exact .scalar (Scalar.isReadable_of_token (hts _ List.mem_cons_self) h)
  | @list l r pieces _ _ _ ih =>
    refine .list fun v hv => ?_
    obtain ⟨p, hp, rfl⟩ := List.mem_map.1 hv
    refine ih p hp fun t ht => hts t ?_
    have : t ∈ pieces.flatMap (·.2) := List.mem_flatMap.2 ⟨p, hp, ht⟩
    simp [this]

theorem readable_of_readOne {file : Text} {failure : Option Text}
    (h : readOne file bytes failure = .ok v) : v.Readable := by
  have hts : ∀ t ∈ (tokensFrom (Cursor.ofText file bytes failure)).1, t.IsLexeme :=
    fun _ => isLexeme_of_mem
  obtain ⟨used, hused, hspells⟩ := spells_of_readForm hts .nil h
  refine hspells.readable fun t ht => hts t ?_
  rw [hused]
  exact List.mem_append_left _ ht

theorem readable_of_readAll {file : Text} {failure : Option Text} {vs : List Value}
    (h : readAll file bytes failure = .ok vs) (hv : v ∈ vs) : v.Readable := by
  have hts : ∀ t ∈ (tokensFrom (Cursor.ofText file bytes failure)).1, t.IsLexeme :=
    fun _ => isLexeme_of_mem
  obtain ⟨pieces, rest, hall, htokens, ⟨-, -, hok⟩ | ⟨-, e, -, herror⟩⟩ :=
    readForms_cases hts (tokensFrom (Cursor.ofText file bytes failure)).2.2 [] none
  · obtain rfl := Except.ok.inj (hok.symm.trans h)
    rw [List.reverse_nil, List.nil_append] at hv
    obtain ⟨p, hp, rfl⟩ := List.mem_map.1 hv
    refine (hall p hp).readable fun t ht => hts t ?_
    rw [htokens]
    exact List.mem_append_left _ (List.mem_flatMap.2 ⟨p, hp, ht⟩)
  · cases herror.symm.trans h

/-! ## Printing again -/

/-- The scalar `s` occurs in a value. -/
inductive Value.Holds (s : Scalar) : Value → Prop
  | scalar {source : Option Location} : Holds s (.scalar source s)
  | list {source : Option Location} {items : List Value} {v : Value} (hv : v ∈ items)
      (h : Holds s v) : Holds s (.list source items)

theorem Value.Readable.holds (h : v.Readable) (hs : v.Holds s) : s.IsReadable := by
  induction hs with
  | scalar =>
    cases h with
    | scalar h => exact h
  | list hv _ ih =>
    cases h with
    | list h => exact ih (h _ hv)

/-- The name of a readable symbol is one token, which is that symbol. -/
theorem tokenize_symbol {name : Text} (h : (Scalar.symbol name).IsReadable) (file : Text) :
    ∃ source, tokenize file name none = ([{ kind := .symbol, text := name, source }], none) := by
  obtain ⟨⟨cs, rfl, hword⟩, hint, -⟩ := h
  have hkind : Cursor.wordKind (.ofChars cs) = .symbol := by simp [Cursor.wordKind, hint]
  set c : Cursor := { file, unread := cs, undecodable := [], failure := none } with hc
  have hsplit : splitToken (c.unread.dropWhile isBlank) = some (.symbol, cs, []) := by
    have hend : EndsWord [] := by simp [EndsWord]
    have hblank := dropWhile_word hword []
    have hword := splitToken_word hword hend
    rw [List.append_nil] at hblank hword
    rw [hblank, hword, hkind]
  obtain ⟨⟨_, _, source⟩, c', rfl, rfl, hpassed, htokens⟩ := tokensFrom_of_splitToken rfl hsplit
  obtain ⟨final, hend, -⟩ :=
    tokensFrom_of_end hpassed.failure hpassed.unread hpassed.undecodable
  refine ⟨source, ?_⟩
  simp only [tokenize, ofText_ofChars, ← hc, htokens, hend]

/-- The value is readable, its symbols are single tokens, and its printed form reads as a value that
is equal to it and printed alike. -/
structure ReadsBack (v : Value) : Prop where
  readable : v.Readable
  symbols : ∀ name, v.Holds (.symbol name) → ∀ file, ∃ source,
    tokenize file name none = ([{ kind := .symbol, text := name, source }], none)
  reads : ∀ cells, ∃ v', readText (v.render cells) = .ok v' ∧ v.equal v' = true ∧
    ∀ cells', v'.render cells' = v.render cells

theorem Value.Readable.readsBack (h : v.Readable) : ReadsBack v := by
  refine ⟨h, fun name hname => tokenize_symbol (h.holds hname), fun cells => ?_⟩
  obtain ⟨cs, hprinted⟩ := h.printed
  rw [hprinted.render_eq]
  obtain ⟨v', hone, -, hequal⟩ := hprinted.read unnamedSource
  refine ⟨v', hone, hequal, fun cells' => ?_⟩
  rw [← (Value.equal_iff_same.1 hequal).render_eq, hprinted.render_eq]

/-- **The printed form is a normal form of sources**: whatever the layout and the spelling of a
source, the values read from it read back from what they are printed as. -/
theorem render_normal :
    (∀ bytes v, readText bytes = .ok v → ReadsBack v) ∧
    ∀ file bytes failure vs, readAll file bytes failure = .ok vs → ∀ v ∈ vs, ReadsBack v :=
  ⟨fun _ _ h => (readable_of_readOne h).readsBack,
    fun _ _ _ _ h _ hv => (readable_of_readAll h hv).readsBack⟩

/-- A sign, a line feed, padding, and a string without its closing quote. -/
theorem render_normal_padded :
    (∃ v, readText "(+3\n 'a)')" = .ok v ∧ ReadsBack v) ∧
    ∃ v w, readAll "in" "007 'abc" none = .ok [v, w] ∧ ReadsBack v ∧ ReadsBack w := by
  constructor
  · have h : readText "(+3\n 'a)')" =
        .ok (.list (some { file := "input", pos := 0, line := 1, col := 1 })
          [.scalar (some { file := "input", pos := 1, line := 1, col := 2 }) (.int 3),
           .scalar (some { file := "input", pos := 5, line := 2, col := 2 }) (.string "a)")]) := by
      cbv
    exact ⟨_, h, render_normal.1 _ _ h⟩
  · have h : readAll "in" "007 'abc" none =
        .ok [.scalar (some { file := "in", pos := 0, line := 1, col := 1 }) (.int 7),
          .scalar (some { file := "in", pos := 4, line := 1, col := 5 }) (.string "abc")] := by
      cbv
    have hback := render_normal.2 _ _ _ _ h
    exact ⟨_, _, h, hback _ (by simp), hback _ (by simp)⟩

/-! ## Printed alike -/

/-- Readable values that are printed alike are equal, since both are equal to what is read from that
printed form. -/
theorem Value.Readable.equal_of_render_eq (hv : v.Readable) (hw : w.Readable)
    {cells cells' : Array Value} (h : v.render cells = w.render cells') : v.equal w = true := by
  obtain ⟨v', hread, hequal, -⟩ := read_render v hv cells
  obtain ⟨w', hread', hequal', -⟩ := read_render w hw cells'
  obtain rfl : v' = w' := Except.ok.inj (hread.symm.trans (h ▸ hread'))
  exact ((equal_iff_same.1 hequal).trans (equal_iff_same.1 hequal').symm).equal

/-- **Equality and printing.** The comparison decides whether values are the same, it is an
equivalence on valid values, equal values are printed alike whatever the cells hold, and readable
values that are printed alike are equal. -/
theorem equal_render :
    (∀ v w : Value, v.equal w = true ↔ v.Same w) ∧
    Equivalence (fun v w : { v : Value // v.Valid } => v.1.equal w.1 = true) ∧
    (∀ cells (v w : Value), v.equal w = true → v.render cells = w.render cells) ∧
    ∀ v w : Value, v.Readable → w.Readable → ∀ cells cells',
      v.render cells = w.render cells' → v.equal w = true :=
  ⟨fun _ _ => Value.equal_iff_same,
    { refl := fun v => v.2.same.equal
      symm := fun h => (Value.equal_iff_same.1 h).symm.equal
      trans := fun h h' => ((Value.equal_iff_same.1 h).trans (Value.equal_iff_same.1 h')).equal },
    fun cells _ _ h => (Value.equal_iff_same.1 h).render_eq cells,
    fun _ _ hv hw _ _ h => hv.equal_of_render_eq hw h⟩

/-- Lists read at different places: with an atom that holds itself, and of readable items. -/
theorem equal_render_lists :
    let place : Location := { file := "in", pos := 0, line := 1, col := 1 }
    (Value.list none [.atom 0]).render #[.list none [.atom 0]] =
      (Value.list (some place) [.atom 0]).render #[.list none [.atom 0]] ∧
    (Value.list none [.scalar none (.int 1)]).equal
      (.list (some place) [.scalar none (.int 1)]) = true := by
  intro place
  have hreadable : ∀ source, (Value.list source [.scalar none (.int 1)]).Readable :=
    fun source => .list fun v hv => List.mem_singleton.1 hv ▸ .scalar trivial
  have hrender : (Value.list none [.scalar none (.int 1)]).render #[] =
      (Value.list (some place) [.scalar none (.int 1)]).render #[] := by
    rw [Value.render_eq, Value.render_eq]
    simp [Value.renderOnto, Value.renderItemsOnto]
  exact ⟨equal_render.2.2.1 _ _ _ (by simp [Value.equal, Value.equalItems]),
    equal_render.2.2.2 _ _ (hreadable _) (hreadable _) #[] #[] hrender⟩

end TinyLisp
