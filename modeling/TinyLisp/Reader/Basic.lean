import TinyLisp.Reader.Error
import TinyLisp.Token.Lexer
import TinyLisp.Value.Basic

/-!
# Reading tokens into values

A form is an integer, a string, a symbol, or a parenthesised list of forms. The symbols `true`,
`false` and `nil` read as the constants of that name. The reader looks one token ahead.

Lists are read with an explicit stack of the lists that are open (`OpenList`), so that a source may
nest them to any depth.

* `readForm`: reads one form off a token sequence.
* `readForms`: reads forms to the end of the sequence.
* `Reader`: a source that is being read form by form or token by token.
* `readOne`, `readAll`: the first form, or all forms, of a source.
-/

namespace TinyLisp

/-- The value of a symbol in a source: three names are constants. -/
def Scalar.ofWord (word : Text) : Scalar :=
  if word = ("true" : Text) then .bool true
  else if word = ("false" : Text) then .bool false
  else if word = ("nil" : Text) then .nil
  else .symbol word

/-- The scalar that a token denotes, if it denotes one. -/
def Scalar.ofToken? (t : Token) : Option Scalar :=
  match t.kind with
  | .int =>
    match t.text.toInt64? with
    | some n => some (.int n)
    | none => some (.symbol t.text)
  | .string => some (.string t.text)
  | .symbol => some (Scalar.ofWord t.text)
  | _ => none

/-- A list whose closing parenthesis has not been read. -/
structure OpenList where
  /-- Where its opening parenthesis is. -/
  source : Location
  /-- The items read so far, newest first. -/
  items : List Value := []

namespace OpenList

/-- The list as it is when it closes. -/
def close (l : OpenList) : Value := .list (some l.source) l.items.reverse

/-- The list with one more item. -/
def add (l : OpenList) (v : Value) : OpenList := { l with items := v :: l.items }

end OpenList

/-- What reading one form came to. -/
structure Reading where
  /-- The form, or what is wrong. -/
  result : Except ReadError Value
  /-- The token read last. -/
  last : Token
  /-- The tokens behind it. -/
  rest : List Token

/-- The error of meeting `t` while the lists `opened` are open. -/
def unexpectedIn (opened : List OpenList) (t : Token) : ReadError :=
  ReadError.unexpected
    (if t.kind = .eof && !opened.isEmpty then some .rightParen else none) t

/-- Reads one form while the lists `opened` are open, innermost first. The token `final` follows
the last of the tokens. -/
def readForm (final : Token) : List OpenList → List Token → Reading
  | opened, [] => { result := .error (unexpectedIn opened final), last := final, rest := [] }
  | opened, t :: ts =>
    match t.kind, opened with
    | .leftParen, opened => readForm final ({ source := t.source } :: opened) ts
    | .rightParen, [l] => { result := .ok l.close, last := t, rest := ts }
    | .rightParen, l :: outer :: opened => readForm final (outer.add l.close :: opened) ts
    | _, opened =>
      match Scalar.ofToken? t, opened with
      | none, opened => { result := .error (unexpectedIn opened t), last := t, rest := ts }
      | some s, [] => { result := .ok (.scalar (some t.source) s), last := t, rest := ts }
      | some s, l :: opened => readForm final (l.add (.scalar (some t.source) s) :: opened) ts

/-- Reading a form uses up a token, unless there is none. -/
theorem length_rest_readForm_le (final : Token) (opened : List OpenList) (ts : List Token) :
    (readForm final opened ts).rest.length ≤ ts.length - 1 := by
  induction ts generalizing opened with
  | nil => simp [readForm]
  | cons t ts ih =>
    have ih' := fun opened => Nat.le_trans (ih opened) (Nat.sub_le ts.length 1)
    unfold readForm
    split
    · exact ih' _
    · simp
    · exact ih' _
    · split
      · simp
      · simp
      · exact ih' _

/-- A form that was read used up a token. -/
theorem length_rest_lt_of_readForm {final : Token} {ts : List Token} {v : Value}
    (h : (readForm final [] ts).result = .ok v) :
    (readForm final [] ts).rest.length < ts.length := by
  cases ts with
  | nil => simp [readForm] at h
  | cons t ts =>
    have := length_rest_readForm_le final [] (t :: ts)
    simp only [List.length_cons] at *
    omega

/-- What reading to the end of the sequence came to. -/
structure ReadingAll where
  /-- The forms, or what is wrong. -/
  result : Except ReadError (List Value)
  /-- The token read last. -/
  last : Option Token
  /-- The tokens behind it. -/
  rest : List Token

/-- Reads forms to the end of the sequence, behind the forms `seen` (newest first) and the token
`last`. -/
def readForms (final : Token) (seen : List Value) (last : Option Token) (ts : List Token) :
    ReadingAll :=
  if (ts.headD final).kind = .eof then { result := .ok seen.reverse, last, rest := ts }
  else
    let reading := readForm final [] ts
    match h : reading.result with
    | .ok v =>
      have := length_rest_lt_of_readForm h
      readForms final (v :: seen) reading.last reading.rest
    | .error e => { result := .error e, last := reading.last, rest := reading.rest }
termination_by ts.length

/-- A source that is being read. -/
structure Reader where
  /-- The token read last. -/
  current : Option Token := none
  /-- The tokens ahead. -/
  upcoming : List Token
  /-- The token that follows them, again and again. -/
  final : Token

namespace Reader

/-- A reader at a cursor. -/
def ofCursor (c : Cursor) : Reader :=
  let (upcoming, _, final) := tokensFrom c
  { upcoming, final }

/-- A reader at the start of a source. With a `failure`, reading the source ended with that
message instead of the end of input. -/
def ofText (file bytes : Text) (failure : Option Text) : Reader :=
  ofCursor (Cursor.ofText file bytes failure)

/-- The token ahead. -/
def peek (r : Reader) : Token := r.upcoming.headD r.final

/-- Reads one token. -/
def advance (r : Reader) : Reader :=
  { r with current := some r.peek, upcoming := r.upcoming.tail }

/-- Reads one form. -/
def form (r : Reader) : Except ReadError Value × Reader :=
  let reading := readForm r.final [] r.upcoming
  (reading.result, { r with current := some reading.last, upcoming := reading.rest })

/-- Reads one list. -/
def list (r : Reader) : Except ReadError Value × Reader :=
  if r.peek.kind = .leftParen then r.form
  else (.error (.unexpected (some .leftParen) r.peek), r.advance)

/-- Reads one token that is a form by itself. -/
def scalar (r : Reader) : Except ReadError Value × Reader :=
  match Scalar.ofToken? r.peek with
  | some s => (.ok (.scalar (some r.peek.source) s), r.advance)
  | none => (.error (.unexpected none r.peek), r.advance)

/-- Reads every form ahead. -/
def forms (r : Reader) : Except ReadError (List Value) × Reader :=
  let reading := readForms r.final [] r.current r.upcoming
  (reading.result, { r with current := reading.last, upcoming := reading.rest })

end Reader

/-- The first form of a source; what follows it is ignored. -/
def readOne (file bytes : Text) (failure : Option Text) : Except ReadError Value :=
  (Reader.ofText file bytes failure).form.1

/-- Every form of a source. -/
def readAll (file bytes : Text) (failure : Option Text) : Except ReadError (List Value) :=
  (Reader.ofText file bytes failure).forms.1

/-- The name given to a source that comes without one. -/
def unnamedSource : Text := "input"

/-- The first form of a text that belongs to no file. -/
def readText (bytes : Text) : Except ReadError Value := readOne unnamedSource bytes none

end TinyLisp
