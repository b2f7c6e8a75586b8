import TinyLisp.Proofs.Layout

/-!
# Sources under another name

A source has a name, and every place in it shows the name. Nothing else depends on it: under another
name the source is split into the same tokens, and a form that is read from it is the same value
with the places in the source of the other name (`Value.inFile`).

* `lexeme_inFile`: the token ahead of a cursor, and why there is none.
* `tokensFrom_inFile`: the tokens ahead.
* `readOne_inFile`: the first form.
-/

namespace TinyLisp

/-- The same place in a source of another name. -/
def Location.inFile (file : Text) (loc : Location) : Location := { loc with file }

/-- What stops a scan of the source of another name. -/
def ScanFault.inFile (file : Text) : ScanFault → ScanFault
  | .invalidByte b => .invalidByte { b with file }
  | why => why

/-- The token at the same place in a source of another name. -/
def Token.inFile (file : Text) (t : Token) : Token := { t with source := t.source.inFile file }

/-- The cursor at the same place in a source of another name. -/
def Cursor.inFile (file : Text) (c : Cursor) : Cursor := { c with file }

namespace Value

mutual

/-- The value read from a source of another name. Computed values have no place. -/
def inFile (file : Text) : Value → Value
  | .scalar source content => .scalar (source.map (Location.inFile file)) content
  | .list source items => .list (source.map (Location.inFile file)) (inFileAll file items)
  | v => v

/-- The values read from a source of another name. -/
def inFileAll (file : Text) : List Value → List Value
  | [] => []
  | v :: vs => inFile file v :: inFileAll file vs

end

theorem inFileAll_eq (file : Text) (vs : List Value) :
    inFileAll file vs = vs.map (inFile file) := by
  induction vs with
  | nil => rfl
  | cons v vs ih => rw [inFileAll, ih, List.map_cons]

theorem inFile_list (file : Text) (source : Option Location) (items : List Value) :
    (Value.list source items).inFile file =
      .list (source.map (Location.inFile file)) (items.map (inFile file)) :=
  congrArg (Value.list _) (inFileAll_eq file items)

end Value

variable {file : Text}

/-! ## Scanning -/

namespace Cursor

/-- How far a cursor advances does not depend on the name of its file. -/
theorem advanceWhile_inFile (p : Char → Bool) (c : Cursor) :
    (c.inFile file).advanceWhile p = (c.advanceWhile p).inFile file := by
  have hfailure : (c.inFile file).failure = c.failure := rfl
  unfold advanceWhile
  rw [hfailure]
  split <;> rfl

/-- The next character does not depend on the name of the file; the place of a bad byte shows it. -/
theorem peek_inFile (c : Cursor) :
    (c.inFile file).peek = c.peek.mapError (ScanFault.inFile file) := by
  unfold peek
  simp only [inFile]
  split <;> rfl

/-- Reading a character commutes with naming the file. -/
theorem scan_inFile (c : Cursor) : (c.inFile file).scan =
    (c.scan.map fun r => (r.1, r.2.inFile file)).mapError (ScanFault.inFile file) := by
  unfold scan
  rw [peek_inFile]
  cases c.peek <;> rfl

/-- Strings are read the same way in a file of another name. -/
theorem stringToken_inFile (c : Cursor) : (c.inFile file).stringToken =
    (c.stringToken.1.inFile file, c.stringToken.2.inFile file) := by
  have hadvance : (c.inFile file).ignore.advanceWhile (· ≠ quoteMark) =
      (c.ignore.advanceWhile (· ≠ quoteMark)).inFile file := advanceWhile_inFile _ c.ignore
  unfold stringToken
  simp only [hadvance, scan_inFile]
  cases (c.ignore.advanceWhile (· ≠ quoteMark)).scan <;> rfl

/-- Words are read the same way in a file of another name. -/
theorem wordToken_inFile (c : Cursor) : (c.inFile file).wordToken =
    (c.wordToken.1.inFile file, c.wordToken.2.inFile file) := by
  unfold wordToken
  simp only [advanceWhile_inFile]
  rfl

/-- A token is the same in a file of another name, up to its place. -/
theorem tokenStarting_inFile (x : Char) (c : Cursor) : (c.inFile file).tokenStarting x =
    ((c.tokenStarting x).1.inFile file, (c.tokenStarting x).2.inFile file) := by
  unfold tokenStarting
  split
  · rfl
  split
  · rfl
  split
  · exact stringToken_inFile c
  · exact wordToken_inFile c

theorem skipBlanks_inFile (c : Cursor) : (c.inFile file).skipBlanks = c.skipBlanks.inFile file := by
  unfold skipBlanks
  rw [advanceWhile_inFile]
  rfl

/-- **The same token is ahead in a source of another name**, or none for the same reason. -/
theorem lexeme_inFile (file : Text) (c : Cursor) : (c.inFile file).lexeme =
    (c.lexeme.map fun r => (r.1.inFile file, r.2.inFile file)).mapError
      (ScanFault.inFile file) := by
  unfold lexeme
  rw [skipBlanks_inFile, scan_inFile]
  cases c.skipBlanks.scan with
  | error why => rfl
  | ok r => exact congrArg Except.ok (tokenStarting_inFile r.1 r.2)

end Cursor

/-- **The same tokens are ahead in a source of another name.** -/
theorem tokensFrom_inFile (file : Text) (c : Cursor) :
    (tokensFrom (c.inFile file)).1 = (tokensFrom c).1.map (Token.inFile file) := by
  induction c using Cursor.lexeme_induction with
  | ok c t c' hlex ih =>
    have hlex' := c.lexeme_inFile file
    rw [hlex] at hlex'
    rw [tokensFrom_of_lexeme hlex, tokensFrom_of_lexeme hlex', List.map_cons, ih]
  | error c why hlex =>
    have hlex' := c.lexeme_inFile file
    rw [hlex] at hlex'
    rw [tokensFrom_of_error hlex, tokensFrom_of_error hlex']
    rfl

/-! ## Reading -/

/-- The open list in a source of another name. -/
def OpenList.inFile (file : Text) (l : OpenList) : OpenList :=
  { source := l.source.inFile file, items := l.items.map (Value.inFile file) }

section Reading

variable {final : Token} {ts : List Token} {opened : List OpenList} {v : Value}

theorem close_inFile (l : OpenList) : (l.inFile file).close = l.close.inFile file := by
  rw [OpenList.close, OpenList.close, Value.inFile_list, List.map_reverse]
  rfl

/-- **A form is read from a source of another name** as the same value with its places there. -/
theorem readForm_inFile (file : Text) (final' : Token)
    (h : (readForm final opened ts).result = .ok v) :
    (readForm final' (opened.map (OpenList.inFile file)) (ts.map (Token.inFile file))).result =
      .ok (v.inFile file) := by
  induction ts generalizing opened with
  | nil => cases h
  | cons t ts ih =>
    -- a form that is complete goes into the innermost list
    have hdeliver : ∀ {w : Value} {opened : List OpenList},
        (delivered final w t ts opened).result = .ok v →
        (delivered final' (w.inFile file) (t.inFile file) (ts.map (Token.inFile file))
          (opened.map (OpenList.inFile file))).result = .ok (v.inFile file) := by
      intro w opened h
      cases opened with
      | nil =>
        obtain rfl := Except.ok.inj h
        rfl
      | cons l opened => exact @ih (l.add w :: opened) h
    have hkind : (t.inFile file).kind = t.kind := rfl
    rw [List.map_cons]
    obtain ⟨hl, hread⟩ | ⟨hr, l, outer, rfl, hread⟩ | ⟨s, hs, hread⟩ | hread :=
      readForm_cons final opened t ts
    · rw [hread] at h
      rw [readForm_left (hkind.trans hl)]
      exact @ih ({ source := t.source } :: opened) h
    · rw [hread] at h
      rw [List.map_cons, readForm_right (hkind.trans hr), close_inFile]
      exact hdeliver h
    · have hs' : Scalar.ofToken? (t.inFile file) = some s := hs
      rw [hread] at h
      rw [readForm_scalar hs']
      exact hdeliver h
    · rw [hread] at h
      cases h

/-- **The first form of a source is the same under another name**, with its places there. -/
theorem readOne_inFile {file bytes : Text} {failure : Option Text}
    (h : readOne file bytes failure = .ok v) (file' : Text) :
    readOne file' bytes failure = .ok (v.inFile file') := by
  have hcursor : Cursor.ofText file' bytes failure =
      (Cursor.ofText file bytes failure).inFile file' := rfl
  have htokens := tokensFrom_inFile file' (Cursor.ofText file bytes failure)
  have hread := readForm_inFile file' (tokensFrom (Cursor.ofText file' bytes failure)).2.2 h
  rw [← hcursor] at htokens
  simp only [Reader.ofText, Reader.ofCursor, ← htokens] at hread
  exact hread

end Reading

end TinyLisp
