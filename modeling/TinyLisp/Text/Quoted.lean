import TinyLisp.Text.Printable
import TinyLisp.Text.Utf8

/-!
# Quoted text

A text between quotes: printable characters stand for themselves, the quote and the backslash get
a backslash, the control characters with a letter of their own (`\n`, `\t`, ...) use it, and
everything else is written in hexadecimal, a byte that is no UTF-8 as `\x` and two digits.
-/

namespace TinyLisp.Text

/-- A hexadecimal digit in lower case. -/
def hexDigit (n : Nat) : UInt8 :=
  if n % 16 < 10 then UInt8.ofNat (48 + n % 16) else UInt8.ofNat (87 + n % 16)

/-- The last `width` hexadecimal digits of a number. -/
def hex : (width : Nat) → Nat → Text
  | 0, _ => []
  | width + 1, n => hex width (n / 16) ++ [hexDigit n]

/-- The letter that stands for a control character behind a backslash. -/
def controlLetter? (c : Char) : Option UInt8 :=
  match c.toNat with
  | 0x07 => some 97
  | 0x08 => some 98
  | 0x09 => some 116
  | 0x0A => some 110
  | 0x0B => some 118
  | 0x0C => some 102
  | 0x0D => some 114
  | _ => none

/-- A character as it stands between two quotes `quote`. -/
def escapeChar (quote c : Char) : Text :=
  if c = quote || c = '\\' then 92 :: String.utf8EncodeChar c
  else if isPrintable c then String.utf8EncodeChar c
  else
    match controlLetter? c with
    | some letter => [92, letter]
    | none =>
      let n := c.toNat
      if n < 0x20 || n = 0x7F then 92 :: 120 :: hex 2 n
      else if n < 0x10000 then 92 :: 117 :: hex 4 n
      else 92 :: 85 :: hex 8 n

/-- A byte that belongs to no character, as it stands between quotes. -/
def escapeByte (b : UInt8) : Text := 92 :: 120 :: hex 2 b.toNat

/-- The text between double quotes. -/
def quoted (t : Text) : Text :=
  34 :: (t.decodeLossy.flatMap fun
    | .inl c => escapeChar '"' c
    | .inr b => escapeByte b) ++ [34]

/-- The character with the number of a byte, between single quotes. -/
def quotedByte (b : UInt8) : Text :=
  39 :: escapeChar (Char.ofNat 39) (Char.ofNat b.toNat) ++ [39]

end TinyLisp.Text
