import TinyLisp.Text.Basic

/-!
# Reading bytes as UTF-8

`Text.decodeChar?` reads one character from the front of a text and refuses what is not the
shortest encoding of a Unicode scalar value: stray continuation bytes, truncated characters,
overlong forms, surrogates and values above `10FFFF`. `Text.decode` reads as many characters as it
can and returns the bytes it stopped at.
-/

namespace TinyLisp.Text

/-- Whether a byte continues a character of several bytes. -/
def isContinuation (b : UInt8) : Bool := 0x80 ≤ b && b < 0xC0

/-- The six bits that a continuation byte carries. -/
def continuationBits (b : UInt8) : Nat := b.toNat - 0x80

/-- The character at the front of a text and the bytes behind it. -/
def decodeChar? : Text → Option (Char × Text)
  | [] => none
  | a :: rest =>
    if a < 0x80 then some (Char.ofNat a.toNat, rest)
    else if a < 0xC2 then none
    else if a < 0xE0 then
      match rest with
      | b :: rest =>
        if isContinuation b then
          some (Char.ofNat ((a.toNat - 0xC0) * 64 + continuationBits b), rest)
        else none
      | [] => none
    else if a < 0xF0 then
      match rest with
      | b :: c :: rest =>
        let n := (a.toNat - 0xE0) * 4096 + continuationBits b * 64 + continuationBits c
        if isContinuation b && isContinuation c && 0x800 ≤ n && !(0xD800 ≤ n && n < 0xE000) then
          some (Char.ofNat n, rest)
        else none
      | _ => none
    else if a < 0xF5 then
      match rest with
      | b :: c :: d :: rest =>
        let n := (a.toNat - 0xF0) * 262144 + continuationBits b * 4096 + continuationBits c * 64
          + continuationBits d
        if isContinuation b && isContinuation c && isContinuation d && 0x10000 ≤ n
            && n < 0x110000 then
          some (Char.ofNat n, rest)
        else none
      | _ => none
    else none

/-- Reading a character uses up at least one byte. -/
theorem length_lt_of_decodeChar? {t rest : Text} {c : Char}
    (h : decodeChar? t = some (c, rest)) : rest.length < t.length := by
  unfold decodeChar? at h
  split at h
  · simp at h
  · grind

/-- The characters of a text up to the first bytes that are not UTF-8, behind the characters
`seen` (newest first), and those bytes. -/
def decodeOnto (seen : List Char) (t : Text) : List Char × Text :=
  match h : decodeChar? t with
  | none => (seen.reverse, t)
  | some (c, rest) =>
    have := length_lt_of_decodeChar? h
    decodeOnto (c :: seen) rest
termination_by t.length
decreasing_by exact this

/-- The longest run of characters at the front of a text, and the bytes it stopped at: no bytes
if the whole text is UTF-8. -/
def decode (t : Text) : List Char × Text := decodeOnto [] t

/-- The whole text one character at a time, behind the parts `seen` (newest first); a byte that
starts no character stands alone. -/
def decodeLossyOnto (seen : List (Char ⊕ UInt8)) (t : Text) : List (Char ⊕ UInt8) :=
  match t with
  | [] => seen.reverse
  | b :: bytes =>
    match h : decodeChar? (b :: bytes) with
    | some (c, rest) =>
      have := length_lt_of_decodeChar? h
      decodeLossyOnto (.inl c :: seen) rest
    | none => decodeLossyOnto (.inr b :: seen) bytes
termination_by t.length
decreasing_by
  · exact this
  · exact Nat.lt_succ_self _

/-- The whole text one character at a time; a byte that starts no character stands alone. -/
def decodeLossy (t : Text) : List (Char ⊕ UInt8) := decodeLossyOnto [] t

/-- The character that stands for bytes that are not UTF-8. -/
def replacement : Char := Char.ofNat 0xFFFD

/-- The characters of a text, with a replacement character for each byte that starts none. -/
def toCharsLossy (t : Text) : List Char :=
  t.decodeLossy.map fun
    | .inl c => c
    | .inr _ => replacement

end TinyLisp.Text
