import Mathlib.Data.List.Induction
import Mathlib.Data.Nat.Digits.Defs
import TinyLisp.Proofs.InvalidBytes

/-!
# Splitting a source as an automaton

The lexer looks one character ahead and has a loop for each class of tokens. The same tokens come
out of an automaton that looks at nothing but the character at hand. It has two states: outside
quotes it collects a word, inside quotes it collects a string.

* `IsDecimal`: the words that are integers, by their spelling and their value;
  `isDecimal_iff`: these are the words that are classed as integers.
* `Mode.run`: the automaton.
* `run_of_leads`: where a token is split off, the automaton emits it and is outside quotes
  again behind it.
* `tokenize_automaton`: the tokens of a source are what the automaton emits.
-/

namespace TinyLisp

/-! ## Integers -/

/-- The number that decimal digits denote, the last digit being the units. -/
def decimalValue (digits : List Char) : Nat :=
  Nat.ofDigits 10 (digits.reverse.map fun x => x.toNat - '0'.toNat)

/-- The number that a sign and decimal digits denote. -/
def signedValue (sign digits : List Char) : Int :=
  if sign = ['-'] then -(decimalValue digits : Int) else (decimalValue digits : Int)

/-- The word is spelled as an integer: a sign or none, then at least one decimal digit. -/
structure SpellsInt (word sign digits : List Char) : Prop where
  word_eq : word = sign ++ digits
  sign_mem : sign = [] ∨ sign = ['+'] ∨ sign = ['-']
  ne_nil : digits ≠ []
  isDigit : ∀ x ∈ digits, x.isDigit = true

/-- The word is spelled as an integer that fits a signed 64-bit word. -/
def IsDecimal (word : List Char) : Prop :=
  ∃ sign digits, SpellsInt word sign digits ∧
    -2 ^ 63 ≤ signedValue sign digits ∧ signedValue sign digits ≤ 2 ^ 63 - 1

theorem toNat_of_isDigit {x : Char} (h : x.isDigit = true) : 48 ≤ x.toNat ∧ x.toNat ≤ 57 := by
  simp only [Char.isDigit, Bool.and_eq_true, decide_eq_true_eq, ge_iff_le,
    UInt32.le_iff_toNat_le] at h
  exact h

/-- A digit is one byte. -/
theorem encode_digit {x : Char} (h : x.isDigit = true) :
    String.utf8EncodeChar x = [UInt8.ofNat x.toNat] := by
  have hx := toNat_of_isDigit h
  have hbyte : (UInt8.ofNat x.toNat).toNat = x.toNat := by
    rw [UInt8.toNat_ofNat']
    omega
  have hascii := Text.encode_ascii (b := UInt8.ofNat x.toNat) (by omega)
  rw [hbyte, Char.ofNat_toNat] at hascii
  exact hascii

theorem ofChars_digits {digits : List Char} (h : ∀ x ∈ digits, x.isDigit = true) :
    Text.ofChars digits = digits.map fun x => UInt8.ofNat x.toNat := by
  induction digits with
  | nil => rfl
  | cons x digits ih =>
    obtain ⟨hx, hdigits⟩ := List.forall_mem_cons.1 h
    rw [Text.ofChars_cons, encode_digit hx, ih hdigits]
    rfl

/-- The bytes of digits are digits. -/
theorem isDigit_ofChars {digits : List Char} (h : ∀ x ∈ digits, x.isDigit = true) :
    (Text.ofChars digits).all Text.isDigit = true := by
  rw [ofChars_digits h, List.all_eq_true]
  intro b hb
  obtain ⟨x, hx, rfl⟩ := List.mem_map.1 hb
  have hx := toNat_of_isDigit (h x hx)
  rw [Text.isDigit_iff, UInt8.toNat_ofNat']
  omega

/-- The bytes of digits have the value of the digits. -/
theorem digitsValue_ofChars {digits : List Char} (h : ∀ x ∈ digits, x.isDigit = true) :
    Text.digitsValue (.ofChars digits) = decimalValue digits := by
  rw [ofChars_digits h]
  induction digits using List.reverseRecOn with
  | nil => rfl
  | append_singleton digits x ih =>
    have hx := toNat_of_isDigit (h x (by simp))
    have hbyte : (UInt8.ofNat x.toNat).toNat = x.toNat := by
      rw [UInt8.toNat_ofNat']
      omega
    have ih := ih fun y hy => h y (List.mem_append_left _ hy)
    -- one more digit at the end moves the others up one place
    have hbytes : Text.digitsValue ((digits ++ [x]).map fun x => UInt8.ofNat x.toNat) =
        10 * Text.digitsValue (digits.map fun x => UInt8.ofNat x.toNat) + (x.toNat - 48) := by
      simp [Text.digitsValue, hbyte]
    have hchars : decimalValue (digits ++ [x]) = x.toNat - 48 + 10 * decimalValue digits := by
      simp [decimalValue, Nat.ofDigits_cons]
    rw [hbytes, hchars, ih]
    omega

/-- Bytes that are digits are the bytes of digits. -/
theorem exists_digits {ds : Text} (h : ds.all Text.isDigit = true) :
    ∃ digits : List Char, ds = .ofChars digits ∧ ∀ x ∈ digits, x.isDigit = true := by
  have hbyte : ∀ b ∈ ds, 48 ≤ b.toNat ∧ b.toNat ≤ 57 := by
    intro b hb
    exact Text.isDigit_iff.1 (List.all_eq_true.1 h b hb)
  refine ⟨ds.map fun b => Char.ofNat b.toNat, (Text.ofChars_ascii ?_).symm, ?_⟩
  · intro b hb
    have := hbyte b hb
    omega
  · intro x hx
    obtain ⟨b, hb, rfl⟩ := List.mem_map.1 hx
    have hdigit : ∀ n < 58, 48 ≤ n → (Char.ofNat n).isDigit = true := by decide
    have hb := hbyte b hb
    exact hdigit b.toNat (by omega) hb.1

theorem ofChars_ne_nil {xs : List Char} (h : xs ≠ []) : Text.ofChars xs ≠ [] :=
  List.length_pos_iff.1 (length_ofChars_pos h)

/-- What is behind the sign is read as digits. -/
theorem toInt?_of_splitSign {t : Text} {negative : Bool} {digits : List Char}
    (hsign : t.splitSign = (negative, .ofChars digits)) (hne : digits ≠ [])
    (h : ∀ x ∈ digits, x.isDigit = true) :
    t.toInt? = some (if negative then -(decimalValue digits : Int) else (decimalValue digits : Int)) := by
  have hempty : (Text.ofChars digits).isEmpty = false :=
    List.isEmpty_eq_false_iff.2 (ofChars_ne_nil hne)
  simp only [Text.toInt?, hsign, hempty, isDigit_ofChars h, digitsValue_ofChars h]
  rfl

theorem splitSign_eq (t : Text) :
    ∃ sign : List Char, (sign = [] ∨ sign = ['+'] ∨ sign = ['-']) ∧
      t = .ofChars sign ++ t.splitSign.2 ∧ t.splitSign.1 = decide (sign = ['-']) := by
  unfold Text.splitSign
  split
  · exact ⟨['+'], by simp, rfl, rfl⟩
  · exact ⟨['-'], by simp, rfl, rfl⟩
  · exact ⟨[], by simp, rfl, rfl⟩

/-- **An integer is read from a word exactly if it is spelled there.** -/
theorem toInt?_eq_some_iff {word : List Char} {n : Int} :
    (Text.ofChars word).toInt? = some n ↔
      ∃ sign digits, SpellsInt word sign digits ∧ n = signedValue sign digits := by
  constructor
  · intro h
    obtain ⟨sign, hsign, hword, hnegative⟩ := splitSign_eq (.ofChars word)
    -- behind the sign there are digits only
    have hds : (Text.ofChars word).splitSign.2 ≠ [] ∧
        (Text.ofChars word).splitSign.2.all Text.isDigit = true := by
      simp only [Text.toInt?] at h
      split at h
      · cases h
      · rename_i hcond
        simpa using hcond
    obtain ⟨digits, hdigits, hisDigit⟩ := exists_digits hds.2
    have hne : digits ≠ [] := by
      rintro rfl
      exact hds.1 hdigits
    have hsplit : (Text.ofChars word).splitSign = (decide (sign = ['-']), .ofChars digits) :=
      Prod.ext hnegative hdigits
    rw [hdigits, ← Text.ofChars_append] at hword
    refine ⟨sign, digits, ⟨Text.ofChars_injective hword, hsign, hne, hisDigit⟩, ?_⟩
    rw [toInt?_of_splitSign hsplit hne hisDigit] at h
    rw [← Option.some.inj h, signedValue]
    simp only [decide_eq_true_eq]
  · rintro ⟨sign, digits, ⟨rfl, hsign, hne, hdigits⟩, rfl⟩
    rcases hsign with rfl | rfl | rfl
    · have hsplit : (Text.ofChars ([] ++ digits)).splitSign = (false, .ofChars digits) :=
        Text.splitSign_of_digits (isDigit_ofChars hdigits)
      rw [toInt?_of_splitSign hsplit hne hdigits]
      rfl
    · have hsplit : (Text.ofChars (['+'] ++ digits)).splitSign = (false, .ofChars digits) := rfl
      rw [toInt?_of_splitSign hsplit hne hdigits]
      rfl
    · have hsplit : (Text.ofChars (['-'] ++ digits)).splitSign = (true, .ofChars digits) := rfl
      rw [toInt?_of_splitSign hsplit hne hdigits]
      rfl

/-- **The words that are classed as integers are the decimal integers of 64 bits.** -/
theorem isDecimal_iff {word : List Char} :
    IsDecimal word ↔ (Text.ofChars word).toInt64?.isSome = true := by
  have hsome : (Text.ofChars word).toInt64?.isSome = true ↔
      ∃ n, (Text.ofChars word).toInt? = some n ∧ Text.fitsInt64 n = true := by
    unfold Text.toInt64?
    cases (Text.ofChars word).toInt? with
    | none => simp
    | some n => by_cases hn : Text.fitsInt64 n = true <;> simp [hn]
  rw [hsome]
  constructor
  · rintro ⟨sign, digits, hspells, hrange⟩
    exact ⟨_, toInt?_eq_some_iff.2 ⟨sign, digits, hspells, rfl⟩, Text.fitsInt64_iff.2 hrange⟩
  · rintro ⟨n, hn, hfits⟩
    obtain ⟨sign, digits, hspells, rfl⟩ := toInt?_eq_some_iff.1 hn
    exact ⟨sign, digits, hspells, Text.fitsInt64_iff.1 hfits⟩

instance (word : List Char) : Decidable (IsDecimal word) := decidable_of_iff _ isDecimal_iff.symm

/-! ## The automaton -/

/-- What the automaton emits: a token without its place. -/
structure Emission where
  kind : Token.Kind
  text : Text
  deriving DecidableEq

/-- The state of the automaton. -/
inductive Mode where
  /-- Outside quotes, behind the characters of a word, or of none. -/
  | bare (word : List Char)
  /-- Inside quotes, behind some characters of the string. -/
  | quoted (text : List Char)

namespace Mode

/-- The token that a word is, if there is a word. -/
def flush : List Char → List Emission
  | [] => []
  | word => [⟨if IsDecimal word then .int else .symbol, .ofChars word⟩]

/-- The state behind a character, and what is emitted there. -/
def step : Mode → Char → Mode × List Emission
  | .bare word, x =>
    if isBlank x then (.bare [], flush word)
    else if x = '(' then (.bare [], flush word ++ [⟨.leftParen, .ofChars ['(']⟩])
    else if x = ')' then (.bare [], flush word ++ [⟨.rightParen, .ofChars [')']⟩])
    else if x = quoteMark then (.quoted [], flush word)
    else (.bare (word ++ [x]), [])
  | .quoted text, x =>
    if x = quoteMark then (.bare [], [⟨.string, .ofChars text⟩])
    else (.quoted (text ++ [x]), [])

/-- What is emitted at the end of the source. -/
def finish : Mode → List Emission
  | .bare word => flush word
  | .quoted text => [⟨.string, .ofChars text⟩]

/-- What is emitted from a state on. -/
def run (m : Mode) : List Char → List Emission
  | [] => m.finish
  | x :: xs => (m.step x).2 ++ (m.step x).1.run xs

/-- The state at the start of a source. -/
def start : Mode := .bare []

/-! ## Runs of the automaton -/

variable {word text xs rest : List Char} {x : Char}

theorem flush_eq (h : word ≠ []) :
    flush word = [⟨Cursor.wordKind (.ofChars word), .ofChars word⟩] := by
  cases word with
  | nil => exact absurd rfl h
  | cons x xs =>
    rw [flush, Cursor.wordKind]
    · simp only [isDecimal_iff]
    · exact h

/-- A character that ends words flushes the word, and then does what it does without one. -/
theorem step_delimiter (h : isDelimiter x = true) :
    (bare word).step x = ((start.step x).1, flush word ++ (start.step x).2) := by
  simp only [isDelimiter, Bool.or_eq_true, decide_eq_true_eq] at h
  simp only [step, start]
  split
  · simp [flush]
  split
  · simp [flush]
  split
  · simp [flush]
  split
  · simp [flush]
  · rename_i hblank hleft hright hquote
    rcases h with ((h | h) | h) | h
    · exact absurd h hleft
    · exact absurd h hright
    · exact absurd h hquote
    · exact absurd h hblank

/-- What cannot go on with a word flushes it. -/
theorem run_endsWord (h : EndsWord rest) :
    (bare word).run rest = flush word ++ start.run rest := by
  cases rest with
  | nil => simp [run, finish, start, flush]
  | cons x rest => rw [run, step_delimiter (h x rfl), List.append_assoc, run]

/-- White space outside words changes nothing. -/
theorem run_blanks (h : ∀ x ∈ xs, isBlank x = true) : start.run (xs ++ rest) = start.run rest := by
  induction xs with
  | nil => rfl
  | cons x xs ih =>
    obtain ⟨hx, hxs⟩ := List.forall_mem_cons.1 h
    have hstep : start.step x = (start, []) := by simp [start, step, hx, flush]
    rw [List.cons_append, run, hstep, List.nil_append, ih hxs]

/-- A word is collected up to the character that ends it. -/
theorem run_word (h : ∀ x ∈ xs, isDelimiter x = false) :
    (bare word).run (xs ++ rest) = (bare (word ++ xs)).run rest := by
  induction xs generalizing word with
  | nil => rw [List.nil_append, List.append_nil]
  | cons x xs ih =>
    obtain ⟨hx, hxs⟩ := List.forall_mem_cons.1 h
    obtain ⟨hleft, hright, hquote, hblank⟩ := isDelimiter_eq_false.1 hx
    have hstep : (bare word).step x = (bare (word ++ [x]), []) := by
      simp [step, hleft, hright, hquote, hblank]
    rw [List.cons_append, run, hstep, List.nil_append, ih hxs, List.append_assoc]
    rfl

/-- A string is collected up to the quote that closes it. -/
theorem run_quoted (h : quoteMark ∉ xs) :
    (quoted text).run (xs ++ rest) = (quoted (text ++ xs)).run rest := by
  induction xs generalizing text with
  | nil => rw [List.nil_append, List.append_nil]
  | cons x xs ih =>
    rw [List.mem_cons, not_or] at h
    have hstep : (quoted text).step x = (quoted (text ++ [x]), []) := by
      rw [step, if_neg (Ne.symm h.1)]
    rw [List.cons_append, run, hstep, List.nil_append, ih h.2, List.append_assoc]
    rfl

/-- White space in front of a token changes nothing. -/
theorem run_dropWhile (cs : List Char) : start.run (cs.dropWhile isBlank) = start.run cs := by
  have hblank : ∀ x ∈ cs.takeWhile isBlank, isBlank x = true :=
    List.all_eq_true.1 List.all_takeWhile
  have hrun : start.run (cs.takeWhile isBlank ++ cs.dropWhile isBlank) =
      start.run (cs.dropWhile isBlank) := run_blanks hblank
  rw [List.takeWhile_append_dropWhile] at hrun
  exact hrun.symm

theorem run_open (rest : List Char) : start.run (quoteMark :: rest) = (quoted []).run rest := rfl

/-- **Where a token stands, the automaton emits it**, and is as at the start behind it. -/
theorem run_of_leads {cs₀ cs : List Char} {kind : Token.Kind} (h : Leads cs₀ kind cs rest) :
    start.run cs₀ = ⟨kind, .ofChars cs⟩ :: start.run rest := by
  cases h with
  | left => rfl
  | right => rfl
  | quoted h =>
    rw [run_open, run_quoted h, run, step, if_pos rfl]
    rfl
  | unclosed h =>
    have hrun : (quoted []).run (cs ++ []) = (quoted cs).run [] := run_quoted h
    rw [List.append_nil] at hrun
    rw [run_open, hrun]
    rfl
  | word h hrest =>
    rw [start, run_word h.2, List.nil_append, run_endsWord hrest, flush_eq h.1]
    rfl

end Mode

/-! ## Whole sources -/

/-- A token without its place. -/
def Token.emission (t : Token) : Emission := ⟨t.kind, t.text⟩

/-- **The tokens ahead of a cursor are what the automaton emits** for the characters ahead. -/
theorem emission_tokensFrom (c : Cursor) (hf : c.failure = none) :
    (tokensFrom c).1.map Token.emission = Mode.start.run c.unread := by
  induction c using Cursor.lexeme_induction with
  | ok c t c' hlex ih =>
    obtain ⟨cs, hleads, htext⟩ := leads_of_lexeme hlex
    obtain ⟨-, -, -, -, hpassed⟩ := Cursor.splitToken_of_lexeme hlex
    have htail := ih (hpassed.failure.trans hf)
    rw [tokensFrom_of_lexeme hlex, List.map_cons, htail, ← Mode.run_dropWhile c.unread,
      Mode.run_of_leads hleads, Token.emission, htext]
  | error c why hlex =>
    have hblank := isBlank_of_lexeme_error hf hlex
    rw [tokensFrom_of_error hlex, ← Mode.run_dropWhile, List.dropWhile_eq_nil_iff.2 hblank]
    rfl

/-- **The tokens of a source of characters are what the automaton emits**, and it is split to its
end. -/
theorem tokenize_automaton (file : Text) (cs : List Char) :
    (tokenize file (.ofChars cs) none).1.map Token.emission = Mode.start.run cs ∧
      (tokenize file (.ofChars cs) none).2 = none := by
  refine ⟨?_, tokenize_ofChars file cs⟩
  rw [tokenize_eq, ofText_ofChars]
  exact emission_tokensFrom { file, unread := cs, undecodable := [], failure := none } rfl

/-- Quotes next to words, a signed integer, one that is too large, and strings that are empty or not
closed. -/
example : Mode.start.run "ab'c d'+7 9223372036854775808''('".toList =
    [⟨.symbol, "ab"⟩, ⟨.string, "c d"⟩, ⟨.int, "+7"⟩, ⟨.symbol, "9223372036854775808"⟩,
      ⟨.string, ""⟩, ⟨.leftParen, "("⟩, ⟨.string, ""⟩] := by decide

end TinyLisp
