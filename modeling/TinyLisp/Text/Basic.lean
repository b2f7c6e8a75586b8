/-!
# Text

Source files, strings and printed output are sequences of bytes. They are usually UTF-8, but
nothing here depends on it: a string read from a file may hold any bytes.

* `Text.ofString`: the UTF-8 bytes of a literal; string literals coerce to `Text` with it.
* `Text.ofNat`, `Text.ofInt`: decimal digits, with a minus sign for negative numbers.
* `Text.toInt64?`: reads an optional sign and decimal digits that fit a signed 64-bit word.
-/

namespace TinyLisp

/-- A sequence of bytes. -/
abbrev Text := List UInt8

namespace Text

/-- The UTF-8 bytes of a sequence of characters. -/
def ofChars (cs : List Char) : Text := cs.flatMap String.utf8EncodeChar

/-- The UTF-8 bytes of a string. -/
def ofString (s : String) : Text := ofChars s.toList

instance : Coe String Text := ⟨ofString⟩

@[simp] theorem ofChars_nil : ofChars [] = [] := rfl

@[simp] theorem ofChars_cons (c : Char) (cs : List Char) :
    ofChars (c :: cs) = String.utf8EncodeChar c ++ ofChars cs := rfl

@[simp] theorem ofChars_append (cs ds : List Char) :
    ofChars (cs ++ ds) = ofChars cs ++ ofChars ds := by
  simp [ofChars]

/-! ## Numbers -/

/-- The byte of a decimal digit. -/
def digit (n : Nat) : UInt8 := UInt8.ofNat (48 + n % 10)

/-- The decimal digits of a number, most significant first, in front of `rest`. -/
def digitsOnto (n : Nat) (rest : Text) : Text :=
  if n < 10 then digit n :: rest else digitsOnto (n / 10) (digit n :: rest)
termination_by n
decreasing_by omega

/-- A natural number in decimal, without leading zeros. -/
def ofNat (n : Nat) : Text := digitsOnto n []

/-- An integer in decimal: a minus sign when negative, then the digits of its size. -/
def ofInt : Int → Text
  | .ofNat n => ofNat n
  | .negSucc n => 45 :: ofNat (n + 1)

/-- Whether a byte is a decimal digit. -/
def isDigit (b : UInt8) : Bool := 48 ≤ b && b ≤ 57

/-- The number that a sequence of decimal digits denotes. -/
def digitsValue (ds : Text) : Nat := ds.foldl (fun n b => 10 * n + (b.toNat - 48)) 0

/-- Splits an optional sign off; `true` stands for a minus sign. -/
def splitSign : Text → Bool × Text
  | 43 :: ds => (false, ds)
  | 45 :: ds => (true, ds)
  | ds => (false, ds)

/-- Reads an optional sign and at least one decimal digit; leading zeros are allowed. -/
def toInt? (t : Text) : Option Int :=
  let (negative, ds) := splitSign t
  if ds.isEmpty || !ds.all isDigit then none
  else some (if negative then -(digitsValue ds : Int) else (digitsValue ds : Int))

/-- Whether an integer fits a signed 64-bit word. -/
def fitsInt64 (n : Int) : Bool := Int64.minValue.toInt ≤ n && n ≤ Int64.maxValue.toInt

/-- Reads a decimal integer that fits a signed 64-bit word. -/
def toInt64? (t : Text) : Option Int64 :=
  match toInt? t with
  | some n => if fitsInt64 n then some (Int64.ofInt n) else none
  | none => none

/-! ## Joining and splitting -/

/-- The texts in order with `separator` between each two. -/
def join (separator : Text) : List Text → Text
  | [] => []
  | [t] => t
  | t :: ts => t ++ separator ++ join separator ts

/-- The pieces of `t` between occurrences of the byte `b`; always at least one piece. -/
def splitOn (b : UInt8) (t : Text) : List Text :=
  let (last, pieces) := t.foldr
    (fun x (piece, pieces) => if x = b then ([], piece :: pieces) else (x :: piece, pieces))
    (([], []) : Text × List Text)
  last :: pieces

/-- `word` for one thing, `word` with an `s` for any other number of things. -/
def plural (n : Int) (word : Text) : Text := if n = 1 then word else word ++ [115]

end Text

end TinyLisp
