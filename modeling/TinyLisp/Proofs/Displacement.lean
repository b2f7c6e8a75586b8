import TinyLisp.Proofs.Layout
import TinyLisp.Proofs.Places

/-!
# Sources further down

Where a source begins is of no account for how it is scanned and read. A cursor that is so many bytes
and lines further down (`Cursor.Moved`) meets the same tokens so much further down, is stopped by the
same fault there, and what is read from the tokens are the same forms, or the same error, with their
places moved. The text of a token that stopped the scan shows a place, which moves too
(`Token.movedBy`).

* `tokensFrom_moved`: the tokens ahead, what stops the scan and the token that ends the sequence.
* `readForm_moved`, `readForms_moved`: one form, and all forms, of moved tokens.
-/

namespace TinyLisp

/-! ## Moving places -/

/-- How much further down places are. Columns stay the same. -/
structure Displacement where
  bytes : Nat
  lines : Nat
  deriving DecidableEq, Repr

/-- The displacement of what is behind a text and a line feed. -/
def Displacement.below (front : Text) : Displacement :=
  { bytes := front.length + 1, lines := front.count 10 + 1 }

/-- The mark further down. -/
def Mark.moved (δ : Displacement) (m : Mark) : Mark :=
  { m with pos := m.pos + δ.bytes, line := m.line + δ.lines }

/-- The location further down. -/
def Location.moved (δ : Displacement) (loc : Location) : Location :=
  { loc with pos := loc.pos + δ.bytes, line := loc.line + δ.lines }

/-- What stops a scan, further down. -/
def ScanFault.moved (δ : Displacement) : ScanFault → ScanFault
  | .invalidByte b => .invalidByte { b with pos := b.pos + δ.bytes, line := b.line + δ.lines }
  | why => why

/-- What stops a scan short of the end of the source. -/
def ScanFault.stop? : ScanFault → Option ScanFault
  | .endOfInput => none
  | why => some why

/-- The token further down. -/
def Token.moved (δ : Displacement) (t : Token) : Token := { t with source := t.source.moved δ }

/-- The token further down in a source whose scan is stopped like this: if it is the token that says
so, it shows the place further down. -/
def Token.movedBy (δ : Displacement) (stop : Option ScanFault) (t : Token) : Token :=
  { kind := t.kind
    text :=
      match t.kind, stop with
      | .error, some why => (why.moved δ).message
      | _, _ => t.text
    source := t.source.moved δ }

/-- The read error further down. -/
def ReadError.moved (δ : Displacement) (stop : Option ScanFault) (e : ReadError) : ReadError :=
  { e with source := e.source.map (Location.moved δ), got := e.got.movedBy δ stop }

namespace Value

mutual

/-- The value that was read further down. Computed values have no place to move. -/
def moved (δ : Displacement) : Value → Value
  | .scalar source content => .scalar (source.map (Location.moved δ)) content
  | .list source items => .list (source.map (Location.moved δ)) (movedAll δ items)
  | v => v

/-- The values that were read further down. -/
def movedAll (δ : Displacement) : List Value → List Value
  | [] => []
  | v :: vs => moved δ v :: movedAll δ vs

end

theorem movedAll_eq (δ : Displacement) (vs : List Value) : movedAll δ vs = vs.map (moved δ) := by
  induction vs with
  | nil => rfl
  | cons v vs ih => rw [movedAll, ih, List.map_cons]

theorem moved_list (δ : Displacement) (source : Option Location) (items : List Value) :
    (Value.list source items).moved δ =
      .list (source.map (Location.moved δ)) (items.map (moved δ)) :=
  congrArg (Value.list _) (movedAll_eq δ items)

end Value

variable {δ : Displacement} {stop : Option ScanFault}

/-! ## Scanning -/

theorem Mark.after_moved (m : Mark) (x : Char) : (m.moved δ).after x = (m.after x).moved δ := by
  unfold Mark.after
  split <;> simp [Mark.moved, Nat.add_right_comm]

theorem foldl_after_moved (xs : List Char) (m : Mark) :
    xs.foldl Mark.after (m.moved δ) = (xs.foldl Mark.after m).moved δ := by
  induction xs generalizing m with
  | nil => rfl
  | cons x xs ih => rw [List.foldl_cons, List.foldl_cons, m.after_moved, ih]

theorem Token.IsLexeme.movedBy_eq {t : Token} (h : t.IsLexeme) (stop : Option ScanFault) :
    t.movedBy δ stop = t.moved δ := by
  have hkind := h.not_final.2
  simp [Token.movedBy, Token.moved, hkind]

/-- How a token leads the characters at its front, the cursor splits it off behind white space. -/
theorem Leads.splitToken_eq {cs₀ cs rest : List Char} {kind : Token.Kind}
    (h : Leads cs₀ kind cs rest) : splitToken cs₀ = some (kind, cs, rest) := by
  cases h with
  | left => rfl
  | right => rfl
  | quoted h => exact splitToken_string h _
  | @unclosed cs h =>
    have hcs : ∀ c ∈ cs, decide (c ≠ quoteMark) = true := by
      intro c hc
      simp only [decide_eq_true_eq]
      rintro rfl
      exact h hc
    have hleft : quoteMark ≠ '(' := by decide
    have hright : quoteMark ≠ ')' := by decide
    simp only [splitToken, if_neg hleft, if_neg hright, if_true, List.takeWhile_eq_self_iff.2 hcs,
      List.dropWhile_eq_nil_iff.2 hcs, List.tail_nil]
  | word h hrest => exact splitToken_word h hrest

/-- A token does not begin with white space. -/
theorem Leads.not_blank {cs₀ cs rest : List Char} {kind : Token.Kind}
    (h : Leads cs₀ kind cs rest) : cs₀.dropWhile isBlank = cs₀ := by
  cases h with
  | left => rfl
  | right => rfl
  | quoted h => rfl
  | unclosed h => rfl
  | word h hrest => exact dropWhile_word h _

namespace Cursor

variable {c c' d : Cursor} {t : Token} {why : ScanFault}

/-- Behind white space the cursor splits off the token that leads the characters there. -/
theorem lexeme_of_leads {gap span cs rest : List Char} {kind : Token.Kind} (hf : c.failure = none)
    (hgap : ∀ x ∈ gap, isBlank x = true) (hunread : c.unread = gap ++ (span ++ rest))
    (hleads : Leads (span ++ rest) kind cs rest) :
    ∃ c', c.lexeme =
        .ok ({ kind, text := .ofChars cs, source := c.locate (gap.foldl Mark.after c.here) }, c') ∧
      Walked c c' (gap ++ span) ∧ Passed c c' rest := by
  have hdrop : c.unread.dropWhile isBlank = span ++ rest := by
    rw [hunread, List.dropWhile_append_of_pos hgap, hleads.not_blank]
  have htake : c.unread.takeWhile isBlank = gap := by
    have hsplit := List.takeWhile_append_dropWhile (p := isBlank) (l := c.unread)
    rw [hdrop, hunread] at hsplit
    rw [hunread]
    exact List.append_cancel_right hsplit
  have hsplit : splitToken (c.unread.dropWhile isBlank) = some (kind, cs, rest) := by
    rw [hdrop]
    exact hleads.splitToken_eq
  obtain ⟨c', hlex, hpassed⟩ := lexeme_of_splitToken hf hsplit
  rw [location_skipBlanks hf, htake] at hlex
  obtain ⟨xs, hxs⟩ := walked_lexeme hlex
  have hwalked : xs = gap ++ span := by
    have h := hxs.unread
    rw [hunread, hpassed.unread, ← List.append_assoc] at h
    exact (List.append_cancel_right h).symm
  exact ⟨c', hlex, hwalked ▸ hxs, hpassed⟩

/-- The cursor `d` has the same ahead as `c`, but is further down. -/
structure Moved (δ : Displacement) (c d : Cursor) : Prop where
  file : d.file = c.file
  unread : d.unread = c.unread
  undecodable : d.undecodable = c.undecodable
  failure : c.failure = none
  failure' : d.failure = none
  here : d.here = c.here.moved δ

theorem Moved.locate (h : Moved δ c d) (m : Mark) :
    d.locate (m.moved δ) = (c.locate m).moved δ := by
  simp [Cursor.locate, Mark.moved, Location.moved, h.file]

/-- Further down there is the same token. -/
theorem Moved.lexeme (h : Moved δ c d) (hlex : c.lexeme = .ok (t, c')) :
    ∃ d', d.lexeme = .ok (t.moved δ, d') ∧ Moved δ c' d' := by
  obtain ⟨gap, span, cs, hgap, hleads, htext, -, hwalked, hsource⟩ := leads_span_of_lexeme hlex
  obtain ⟨-, -, -, -, hpassed⟩ := splitToken_of_lexeme hlex
  have hunread : d.unread = gap ++ (span ++ c'.unread) := by
    rw [h.unread, hwalked.unread, List.append_assoc]
  obtain ⟨d', hlex', hwalked', hpassed'⟩ := lexeme_of_leads h.failure' hgap hunread hleads
  have htoken : t.moved δ =
      { kind := t.kind, text := .ofChars cs, source := d.locate (gap.foldl Mark.after d.here) } := by
    rw [h.here, foldl_after_moved, h.locate, ← htext, ← hsource]
    rfl
  refine ⟨d', htoken ▸ hlex', ?_, hpassed'.unread, ?_, hpassed.failure.trans h.failure,
    hpassed'.failure.trans h.failure', ?_⟩
  · rw [hwalked'.file, hwalked.file, h.file]
  · rw [hpassed'.undecodable, hpassed.undecodable, h.undecodable]
  · rw [hwalked'.here, hwalked.here, h.here, foldl_after_moved]

theorem Moved.skipBlanks (h : Moved δ c d) : Moved δ c.skipBlanks d.skipBlanks := by
  rw [skipBlanks_eq h.failure, skipBlanks_eq h.failure', h.unread]
  refine ⟨h.file, rfl, h.undecodable, h.failure, h.failure', ?_⟩
  simp only [ignore, pass, h.here, foldl_after_moved]

theorem Moved.peek (h : Moved δ c d) (hpeek : c.peek = .error why) :
    d.peek = .error (why.moved δ) := by
  unfold Cursor.peek at hpeek ⊢
  rw [h.failure', h.unread, h.undecodable, h.here, h.file]
  rw [h.failure] at hpeek
  cases hunread : c.unread with
  | cons x xs => simp [hunread] at hpeek
  | nil =>
    cases hbad : c.undecodable with
    | nil =>
      simp only [hunread, hbad] at hpeek ⊢
      obtain rfl := Except.error.inj hpeek
      rfl
    | cons byte bad =>
      simp only [hunread, hbad] at hpeek ⊢
      obtain rfl := Except.error.inj hpeek
      simp [ScanFault.moved, Mark.moved]

theorem lexeme_eq_error : c.lexeme = .error why ↔ c.skipBlanks.peek = .error why := by
  unfold lexeme scan
  cases c.skipBlanks.peek with
  | ok x => simp
  | error why' => simp

end Cursor

section Tokens

variable {c d : Cursor}

/-- The token that ends the sequence further down. -/
theorem Cursor.Moved.finalToken (h : c.Moved δ d) (why : ScanFault) :
    d.skipBlanks.finalToken (why.moved δ) =
      (c.skipBlanks.finalToken why).movedBy δ why.stop? := by
  have hplace : d.skipBlanks.startLocation = c.skipBlanks.startLocation.moved δ := by
    have hskip := h.skipBlanks
    have hlocate := hskip.locate c.skipBlanks.here
    rw [← hskip.here] at hlocate
    exact hlocate
  cases why <;> simp [Cursor.finalToken, Token.movedBy, ScanFault.moved, ScanFault.stop?, hplace]

/-- **Further down there are the same tokens**, and the same fault stops the scan. -/
theorem tokensFrom_moved (h : c.Moved δ d) :
    tokensFrom d =
      ((tokensFrom c).1.map (Token.moved δ), (tokensFrom c).2.1.moved δ,
        (tokensFrom c).2.2.movedBy δ (tokensFrom c).2.1.stop?) := by
  induction c using Cursor.lexeme_induction generalizing d with
  | ok c t c' hlex ih =>
    obtain ⟨d', hlex', h'⟩ := h.lexeme hlex
    rw [tokensFrom_of_lexeme hlex, tokensFrom_of_lexeme hlex', ih h']
    rfl
  | error c why hlex =>
    have hpeek := h.skipBlanks.peek (Cursor.lexeme_eq_error.1 hlex)
    rw [tokensFrom_of_error hlex, tokensFrom_of_error (Cursor.lexeme_eq_error.2 hpeek),
      h.finalToken why]
    rfl

end Tokens

/-! ## Reading -/

/-- The open list further down. -/
def OpenList.moved (δ : Displacement) (l : OpenList) : OpenList :=
  { source := l.source.moved δ, items := l.items.map (Value.moved δ) }

/-- What reading a form comes to further down. -/
def movedForm (δ : Displacement) (stop : Option ScanFault) (result : Except ReadError Value) :
    Except ReadError Value :=
  (result.map (Value.moved δ)).mapError (ReadError.moved δ stop)

section Reading

variable {final t : Token} {ts : List Token} {opened : List OpenList} {l : OpenList}

/-- The reading `r'` is what `r` comes to further down. -/
structure Reading.Moves (δ : Displacement) (stop : Option ScanFault) (r r' : Reading) : Prop where
  result : r'.result = movedForm δ stop r.result
  rest : r'.rest = r.rest.map (Token.movedBy δ stop)

theorem ofToken_movedBy (t : Token) :
    Scalar.ofToken? (t.movedBy δ stop) = Scalar.ofToken? t := by
  obtain ⟨kind, text, source⟩ := t
  cases kind <;> rfl

theorem unexpectedIn_movedBy (opened : List OpenList) (t : Token) :
    unexpectedIn (opened.map (OpenList.moved δ)) (t.movedBy δ stop) =
      (unexpectedIn opened t).moved δ stop := by
  unfold unexpectedIn
  rw [List.isEmpty_map]
  rfl

theorem close_moved (l : OpenList) : (l.moved δ).close = l.close.moved δ := by
  rw [OpenList.close, OpenList.close, Value.moved_list, List.map_reverse]
  rfl

/-- **A form is read further down as it is read here**, with its places moved. -/
theorem readForm_moved (final : Token) (opened : List OpenList) (ts : List Token) :
    (readForm final opened ts).Moves δ stop
      (readForm (final.movedBy δ stop) (opened.map (OpenList.moved δ))
        (ts.map (Token.movedBy δ stop))) := by
  induction ts generalizing opened with
  | nil => exact ⟨congrArg Except.error (unexpectedIn_movedBy opened final), rfl⟩
  | cons t ts ih =>
    -- a form that is complete goes into the innermost list
    have hdeliver : ∀ (v : Value) (opened : List OpenList),
        (delivered final v t ts opened).Moves δ stop
          (delivered (final.movedBy δ stop) (v.moved δ) (t.movedBy δ stop)
            (ts.map (Token.movedBy δ stop)) (opened.map (OpenList.moved δ))) := by
      intro v opened
      cases opened with
      | nil => exact ⟨rfl, rfl⟩
      | cons l opened => exact ih (l.add v :: opened)
    have hkind : (t.movedBy δ stop).kind = t.kind := rfl
    rw [List.map_cons]
    by_cases hl : t.kind = .leftParen
    · rw [readForm_left hl, readForm_left (hkind.trans hl)]
      exact ih ({ source := t.source } :: opened)
    by_cases hr : t.kind = .rightParen
    · cases opened with
      | nil =>
        rw [List.map_nil, readForm_unopened hr, readForm_unopened (hkind.trans hr)]
        exact ⟨congrArg Except.error (unexpectedIn_movedBy [] t), rfl⟩
      | cons l opened =>
        rw [List.map_cons, readForm_right hr, readForm_right (hkind.trans hr), close_moved]
        exact hdeliver l.close opened
    cases hs : Scalar.ofToken? t with
    | none =>
      have hs' : Scalar.ofToken? (t.movedBy δ stop) = none := (ofToken_movedBy t).trans hs
      rw [readForm_other hl hr hs, readForm_other (hkind ▸ hl) (hkind ▸ hr) hs']
      exact ⟨congrArg Except.error (unexpectedIn_movedBy opened t), rfl⟩
    | some s =>
      have hs' : Scalar.ofToken? (t.movedBy δ stop) = some s := (ofToken_movedBy t).trans hs
      rw [readForm_scalar hs, readForm_scalar hs']
      exact hdeliver (.scalar (some t.source) s) opened

theorem headD_movedBy (final : Token) (ts : List Token) :
    ((ts.map (Token.movedBy δ stop)).headD (final.movedBy δ stop)).kind =
      (ts.headD final).kind := by
  cases ts <;> rfl

/-- **All forms are read further down as they are read here**, behind the forms `before` that come
first there. -/
theorem readForms_moved (δ : Displacement) (stop : Option ScanFault) (final : Token) (before seen : List Value) (last last' : Option Token)
    (ts : List Token) :
    (readForms (final.movedBy δ stop) (seen.map (Value.moved δ) ++ before) last'
        (ts.map (Token.movedBy δ stop))).result =
      ((readForms final seen last ts).result.map fun vs =>
        before.reverse ++ vs.map (Value.moved δ)).mapError (ReadError.moved δ stop) := by
  induction hn : ts.length using Nat.strongRecOn generalizing ts seen last last' with
  | ind n ih =>
    subst hn
    have hhead : ((ts.map (Token.movedBy δ stop)).headD (final.movedBy δ stop)).kind =
        (ts.headD final).kind := headD_movedBy final ts
    by_cases hend : (ts.headD final).kind = .eof
    · have hend' := hhead.trans hend
      rw [readForms_of_end hend, readForms_of_end hend', List.reverse_append, ← List.map_reverse]
      rfl
    · have hend' := hhead.trans_ne hend
      have hform : (readForm final [] ts).Moves δ stop
          (readForm (final.movedBy δ stop) [] (ts.map (Token.movedBy δ stop))) :=
        readForm_moved final [] ts
      obtain ⟨hresult, hrest⟩ := hform
      cases hread : (readForm final [] ts).result with
      | ok v =>
        rw [hread] at hresult
        rw [readForms_of_ok hend hread, readForms_of_ok hend' hresult]
        rw [hrest]
        exact ih _ (length_rest_lt_of_readForm hread) (v :: seen) _ _ _ rfl
      | error e =>
        rw [hread] at hresult
        rw [readForms_of_error hend hread, readForms_of_error hend' hresult]
        rfl

end Reading

end TinyLisp
