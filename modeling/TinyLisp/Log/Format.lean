import TinyLisp.Log.Basic
import TinyLisp.Text.Blank
import TinyLisp.Text.Quoted

/-!
# Writing log records

A record is written on one line, as a JSON object or as `key=value` pairs. Level and message come
first, then the fields in order.

* `Record.json`: strings are escaped; bytes that are not UTF-8 become replacement characters.
* `Record.text`: a text is quoted if it is empty, holds white space, an equals sign, a double quote
  or a character that is not printable.
-/

namespace TinyLisp.Log

/-- How records are written. -/
inductive Format where
  | json
  | text
  deriving DecidableEq, Repr, Inhabited

/-- The level and format that settings ask for by name; `none` and the empty name keep nothing,
whatever the format is called. -/
def choose (level format : Text) : Except Text (Threshold × Format) :=
  if level = ("none" : Text) || level.isEmpty then .ok (none, .text)
  else
    match Level.ofName? level with
    | none => .error ("unknown log level: " ++ level)
    | some level =>
      if format = ("json" : Text) || format.isEmpty then .ok (some level, .json)
      else if format = ("text" : Text) then .ok (some level, .text)
      else .error ("unknown log format: " ++ format)

/-! ## JSON -/

/-- A character inside a JSON string. -/
def jsonChar (c : Char) : Text :=
  if c = '"' || c = '\\' then 92 :: String.utf8EncodeChar c
  else if c.toNat < 0x20 then 92 :: 117 :: Text.hex 4 c.toNat
  else String.utf8EncodeChar c

/-- A JSON string. -/
def jsonString (t : Text) : Text := 34 :: t.toCharsLossy.flatMap jsonChar ++ [34]

/-- The contents of a field in JSON. -/
def Field.json : Field → Text
  | .text t => jsonString t
  | .number n => Text.ofInt n
  | .flag b => if b then "true" else "false"

/-- Level, message and fields of a record, in the order in which they are written. -/
def Record.members (r : Record) : List (Text × Field) :=
  ("level", .text r.level.name) :: ("msg", .text r.message) :: r.fields

/-- A record as a JSON object. -/
def Record.json (r : Record) : Text :=
  123 :: Text.join "," (r.members.map fun (key, field) => jsonString key ++ ":" ++ field.json)
    ++ [125]

/-! ## Text -/

/-- Whether a character stands for itself in a text that is not quoted. -/
def isBare (c : Char) : Bool :=
  if c.toNat < 0x80 then !(c.toNat ≤ 0x20 || c = '=' || c = '"')
  else c ≠ Text.replacement && isPrintable c

/-- A text, in quotes if it needs them. -/
def textValue (t : Text) : Text :=
  if t.isEmpty || !t.toCharsLossy.all isBare then t.quoted else t

/-- The contents of a field in a line of text. -/
def Field.line : Field → Text
  | .text t => textValue t
  | .number n => Text.ofInt n
  | .flag b => if b then "true" else "false"

/-- A record as `key=value` pairs. -/
def Record.text (r : Record) : Text :=
  Text.join " " (r.members.map fun (key, field) => textValue key ++ "=" ++ field.line)

/-- A record as a line, without its end. -/
def Record.line (r : Record) : Format → Text
  | .json => r.json
  | .text => r.text

end TinyLisp.Log
