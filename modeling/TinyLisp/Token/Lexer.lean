import TinyLisp.Source.Cursor
import TinyLisp.Text.Blank
import TinyLisp.Token.Basic

/-!
# Splitting a source into tokens

White space separates words, and each parenthesis is a token of its own. A single quote opens a
string, which takes every character literally up to the next single quote or the end of the
source; there are no escapes. A word is an integer if it reads as a signed 64-bit decimal number,
and a symbol otherwise.

* `Lexer.next`: the next token; the token that ends the sequence is returned again and again.
* `tokensFrom`: all tokens ahead of a cursor, and why the sequence ends.
-/

namespace TinyLisp

/-- The character that opens and closes a string. -/
def quoteMark : Char := Char.ofNat 39

/-- Whether a character ends a word. -/
def isDelimiter (c : Char) : Bool := c = '(' || c = ')' || c = quoteMark || isBlank c

namespace Cursor

/-- The pending text as a token of class `kind`. -/
def token (c : Cursor) (kind : Token.Kind) : Token :=
  { kind, text := c.text, source := c.startLocation }

/-- The class of a word. -/
def wordKind (word : Text) : Token.Kind :=
  if (Text.toInt64? word).isSome then .int else .symbol

/-- The rest of a string whose opening quote has just been passed. An invalid byte ends the string
and is left to the next token. -/
def stringToken (c : Cursor) : Token × Cursor :=
  let source := c.startLocation
  let c := c.ignore.advanceWhile (· ≠ quoteMark)
  let token : Token := { kind := .string, text := c.text, source }
  match c.scan with
  | .ok (_, c) => (token, c.ignore)
  | .error _ => (token, c)

/-- The rest of a word whose first character has just been passed. -/
def wordToken (c : Cursor) : Token × Cursor :=
  let c := c.advanceWhile fun x => !isDelimiter x
  (c.token (wordKind c.text), c.ignore)

/-- The token that starts with the character `x`, which has just been passed. -/
def tokenStarting (x : Char) (c : Cursor) : Token × Cursor :=
  if x = '(' then (c.token .leftParen, c.ignore)
  else if x = ')' then (c.token .rightParen, c.ignore)
  else if x = quoteMark then c.stringToken
  else c.wordToken

/-- Skips white space. -/
def skipBlanks (c : Cursor) : Cursor := (c.advanceWhile isBlank).ignore

/-- The token ahead, behind any white space, or why there is none. -/
def lexeme (c : Cursor) : Except ScanFault (Token × Cursor) :=
  match c.skipBlanks.scan with
  | .ok (x, c) => .ok (c.tokenStarting x)
  | .error why => .error why

/-- The token that ends the sequence at the cursor. -/
def finalToken (c : Cursor) : ScanFault → Token
  | .endOfInput => { kind := .eof, text := [], source := c.startLocation }
  | why => { kind := .error, text := why.message, source := c.startLocation }

theorem length_tokenStarting_le (x : Char) (c : Cursor) :
    (c.tokenStarting x).2.unread.length ≤ c.unread.length := by
  unfold tokenStarting
  split
  · simp
  split
  · simp
  split
  · have h := length_advanceWhile_le (· ≠ quoteMark) c.ignore
    simp only [stringToken]
    split
    · rename_i heq
      have := congrArg List.length (unread_of_scan heq)
      simp only [unread_ignore, List.length_cons] at *
      omega
    · simpa using h
  · simpa [wordToken] using length_advanceWhile_le (fun x => !isDelimiter x) c

/-- Each token uses up at least one character. -/
theorem length_lt_of_lexeme {c c' : Cursor} {t : Token} (h : c.lexeme = .ok (t, c')) :
    c'.unread.length < c.unread.length := by
  unfold lexeme at h
  split at h
  · rename_i x d hd
    simp only [Except.ok.injEq] at h
    have h1 := congrArg List.length (unread_of_scan hd)
    have h2 := length_advanceWhile_le isBlank c
    have h3 : c'.unread.length ≤ d.unread.length := by
      simpa [h] using length_tokenStarting_le x d
    simp only [skipBlanks, unread_ignore, List.length_cons] at h1
    omega
  · simp at h

end Cursor

/-- The tokens ahead of a cursor, behind the tokens `seen` (newest first); why the sequence ends;
and the token that ends it. -/
def tokensOnto (seen : List Token) (c : Cursor) : List Token × ScanFault × Token :=
  match h : c.lexeme with
  | .ok (t, c') =>
    have := Cursor.length_lt_of_lexeme h
    tokensOnto (t :: seen) c'
  | .error why => (seen.reverse, why, c.skipBlanks.finalToken why)
termination_by c.unread.length

/-- The tokens ahead of a cursor, why the sequence ends, and the token that ends it. -/
def tokensFrom (c : Cursor) : List Token × ScanFault × Token := tokensOnto [] c

/-- The tokens of a source, without the one that ends the sequence, and what stopped the scan
short of the end of the source. -/
def tokenize (file bytes : Text) (failure : Option Text) : List Token × Option ScanFault :=
  match tokensFrom (Cursor.ofText file bytes failure) with
  | (tokens, .endOfInput, _) => (tokens, none)
  | (tokens, why, _) => (tokens, some why)

/-- A source that is being split into tokens. -/
structure Lexer where
  /-- The position in the source. -/
  cursor : Cursor
  /-- Why the token sequence has ended, once it has. -/
  ended : Option ScanFault := none

namespace Lexer

/-- The next token. Once the sequence has ended, every call returns the token that ended it. -/
def next (lexer : Lexer) : Token × Lexer :=
  match lexer.ended with
  | some why => (lexer.cursor.finalToken why, { cursor := lexer.cursor.ignore, ended := some why })
  | none =>
    match lexer.cursor.lexeme with
    | .ok (t, c) => (t, { cursor := c })
    | .error why =>
      let c := lexer.cursor.skipBlanks
      (c.finalToken why, { cursor := c.ignore, ended := some why })

/-- The next `n` tokens. -/
def take : Nat → Lexer → List Token
  | 0, _ => []
  | n + 1, lexer => lexer.next.1 :: take n lexer.next.2

end Lexer

end TinyLisp
