import TinyLisp.Text.Blank

/-!
# Encodings that read back

Characters written as UTF-8 and integers written in decimal are read back as they were, and nothing
else is read as a character.

* `decodeChar?_encode`: one character, by the number of its bytes; `decode_ofChars`: a whole text.
* `encode_of_decodeChar?`: a character is read only where it is written; `decode_eq_iff`: decoding
  stops at the first bytes that are no character; `isPrefix_of_isUtf8`: what it read is the longest
  part of the text from its start that is UTF-8 throughout.
* `toInt64?_ofInt`: a decimal integer of 64 bits, the least and the greatest included.
* `ofChars_ascii`: a text of ASCII bytes as characters.
-/

namespace TinyLisp.Text

/-! ## UTF-8 -/

theorem isContinuation_ofNat {n : Nat} (h : n < 64) :
    isContinuation (UInt8.ofNat (n + 0x80)) = true := by
  simp only [isContinuation, Bool.and_eq_true, decide_eq_true_eq, UInt8.le_iff_toNat_le,
    UInt8.lt_iff_toNat_lt, UInt8.toNat_ofNat', UInt8.reduceToNat]
  omega

theorem continuationBits_ofNat {n : Nat} (h : n < 64) :
    continuationBits (UInt8.ofNat (n + 0x80)) = n := by
  unfold continuationBits
  rw [UInt8.toNat_ofNat']
  omega

theorem decodeChar?_one {v : Nat} (h : v ≤ 0x7F) (rest : Text) :
    decodeChar? (UInt8.ofNat v :: rest) = some (Char.ofNat v, rest) := by
  simp only [decodeChar?, UInt8.lt_iff_toNat_lt, UInt8.toNat_ofNat', UInt8.reduceToNat]
  rw [Nat.mod_eq_of_lt (by omega), if_pos (by omega)]

theorem decodeChar?_two {v : Nat} (h : 0x7F < v) (h' : v ≤ 0x7FF) (rest : Text) :
    decodeChar? (UInt8.ofNat (v / 64 % 0x20 + 0xC0) :: UInt8.ofNat (v % 0x40 + 0x80) :: rest) =
      some (Char.ofNat v, rest) := by
  have hb : v % 0x40 < 64 := Nat.mod_lt v (by decide)
  simp only [decodeChar?, UInt8.lt_iff_toNat_lt, UInt8.toNat_ofNat', UInt8.reduceToNat,
    isContinuation_ofNat hb, continuationBits_ofNat hb, if_true]
  rw [if_neg (by omega), if_neg (by omega), if_pos (by omega)]
  have hv : ((v / 64 % 0x20 + 0xC0) % 2 ^ 8 - 0xC0) * 64 + v % 0x40 = v := by omega
  rw [hv]

theorem decodeChar?_three {v : Nat} (h : 0x7FF < v) (h' : v ≤ 0xFFFF)
    (hvalid : v < 0xD800 ∨ 0xDFFF < v) (rest : Text) :
    decodeChar? (UInt8.ofNat (v / 4096 % 0x10 + 0xE0) :: UInt8.ofNat (v / 64 % 0x40 + 0x80) ::
      UInt8.ofNat (v % 0x40 + 0x80) :: rest) = some (Char.ofNat v, rest) := by
  have hb : v / 64 % 0x40 < 64 := Nat.mod_lt _ (by decide)
  have hc : v % 0x40 < 64 := Nat.mod_lt v (by decide)
  simp only [decodeChar?, UInt8.lt_iff_toNat_lt, UInt8.toNat_ofNat', UInt8.reduceToNat,
    isContinuation_ofNat hb, continuationBits_ofNat hb, isContinuation_ofNat hc,
    continuationBits_ofNat hc]
  rw [if_neg (by omega), if_neg (by omega), if_neg (by omega), if_pos (by omega)]
  have hv : ((v / 4096 % 0x10 + 0xE0) % 2 ^ 8 - 0xE0) * 4096 + v / 64 % 0x40 * 64 + v % 0x40 =
      v := by
    omega
  rw [hv, if_pos]
  simp only [Bool.and_eq_true, Bool.not_eq_true', decide_eq_true_eq, Bool.and_eq_false_iff,
    decide_eq_false_iff_not, true_and]
  omega

theorem decodeChar?_four {v : Nat} (h : 0xFFFF < v) (h' : v < 0x110000) (rest : Text) :
    decodeChar? (UInt8.ofNat (v / 262144 % 0x08 + 0xF0) :: UInt8.ofNat (v / 4096 % 0x40 + 0x80) ::
      UInt8.ofNat (v / 64 % 0x40 + 0x80) :: UInt8.ofNat (v % 0x40 + 0x80) :: rest) =
      some (Char.ofNat v, rest) := by
  have hb : v / 4096 % 0x40 < 64 := Nat.mod_lt _ (by decide)
  have hc : v / 64 % 0x40 < 64 := Nat.mod_lt _ (by decide)
  have hd : v % 0x40 < 64 := Nat.mod_lt v (by decide)
  simp only [decodeChar?, UInt8.lt_iff_toNat_lt, UInt8.toNat_ofNat', UInt8.reduceToNat,
    isContinuation_ofNat hb, continuationBits_ofNat hb, isContinuation_ofNat hc,
    continuationBits_ofNat hc, isContinuation_ofNat hd, continuationBits_ofNat hd]
  rw [if_neg (by omega), if_neg (by omega), if_neg (by omega), if_neg (by omega), if_pos (by omega)]
  have hv : ((v / 262144 % 0x08 + 0xF0) % 2 ^ 8 - 0xF0) * 262144 + v / 4096 % 0x40 * 4096 +
      v / 64 % 0x40 * 64 + v % 0x40 = v := by
    omega
  rw [hv, if_pos]
  simp only [Bool.and_eq_true, decide_eq_true_eq, true_and]
  omega

/-- **A character written as UTF-8 is read back.** -/
theorem decodeChar?_encode (c : Char) (rest : Text) :
    decodeChar? (String.utf8EncodeChar c ++ rest) = some (c, rest) := by
  have hvalid : c.val.toNat < 0xD800 ∨ 0xDFFF < c.val.toNat ∧ c.val.toNat < 0x110000 := c.valid
  have hc : Char.ofNat c.val.toNat = c := Char.ofNat_toNat c
  unfold String.utf8EncodeChar
  generalize c.val.toNat = v at hc hvalid ⊢
  subst hc
  simp only
  split
  · exact decodeChar?_one ‹_› rest
  split
  · exact decodeChar?_two (by omega) ‹_› rest
  split
  · exact decodeChar?_three (by omega) ‹_› (by omega) rest
  · exact decodeChar?_four (by omega) (by omega) rest

theorem toNat_ofNat {n : Nat} (h : n.isValidChar) : (Char.ofNat n).val.toNat = n := by
  rw [Char.ofNat, dif_pos h]
  rfl

/-- An ASCII byte is the encoding of the character with its number. -/
theorem encode_ascii {b : UInt8} (h : b.toNat < 0x80) :
    String.utf8EncodeChar (Char.ofNat b.toNat) = [b] := by
  have hval : (Char.ofNat b.toNat).val.toNat = b.toNat := toNat_ofNat (.inl (by omega))
  unfold String.utf8EncodeChar
  simp only [hval]
  rw [if_pos (by omega), UInt8.ofNat_toNat]

theorem isContinuation_iff {b : UInt8} :
    isContinuation b = true ↔ 0x80 ≤ b.toNat ∧ b.toNat < 0xC0 := by
  simp only [isContinuation, Bool.and_eq_true, decide_eq_true_eq, UInt8.le_iff_toNat_le,
    UInt8.lt_iff_toNat_lt, UInt8.reduceToNat]

/-- A byte is told by its number. -/
theorem ofNat_eq {n : Nat} {b : UInt8} (h : n = b.toNat) : UInt8.ofNat n = b := by
  rw [h, UInt8.ofNat_toNat]

theorem encode_two {a b : UInt8} {n : Nat} (ha : 0xC2 ≤ a.toNat) (ha' : a.toNat < 0xE0)
    (hb : isContinuation b = true) (hn : n = (a.toNat - 0xC0) * 64 + continuationBits b) :
    String.utf8EncodeChar (Char.ofNat n) = [a, b] := by
  rw [isContinuation_iff] at hb
  unfold continuationBits at hn
  have hval : (Char.ofNat n).val.toNat = n := toNat_ofNat (.inl (by omega))
  simp only [String.utf8EncodeChar, hval]
  rw [if_neg (by omega), if_pos (by omega), ofNat_eq (b := a) (by omega),
    ofNat_eq (b := b) (by omega)]

theorem encode_three {a b c : UInt8} {n : Nat} (ha : 0xE0 ≤ a.toNat) (ha' : a.toNat < 0xF0)
    (hb : isContinuation b = true) (hc : isContinuation c = true)
    (hn : n = (a.toNat - 0xE0) * 4096 + continuationBits b * 64 + continuationBits c)
    (hleast : 0x800 ≤ n) (hvalid : n < 0xD800 ∨ 0xE000 ≤ n) :
    String.utf8EncodeChar (Char.ofNat n) = [a, b, c] := by
  rw [isContinuation_iff] at hb hc
  unfold continuationBits at hn
  have hval : (Char.ofNat n).val.toNat = n := toNat_ofNat (by unfold Nat.isValidChar; omega)
  simp only [String.utf8EncodeChar, hval]
  rw [if_neg (by omega), if_neg (by omega), if_pos (by omega), ofNat_eq (b := a) (by omega),
    ofNat_eq (b := b) (by omega), ofNat_eq (b := c) (by omega)]

theorem encode_four {a b c d : UInt8} {n : Nat} (ha : 0xF0 ≤ a.toNat) (ha' : a.toNat < 0xF5)
    (hb : isContinuation b = true) (hc : isContinuation c = true) (hd : isContinuation d = true)
    (hn : n = (a.toNat - 0xF0) * 262144 + continuationBits b * 4096 + continuationBits c * 64
      + continuationBits d)
    (hleast : 0x10000 ≤ n) (hmost : n < 0x110000) :
    String.utf8EncodeChar (Char.ofNat n) = [a, b, c, d] := by
  rw [isContinuation_iff] at hb hc hd
  unfold continuationBits at hn
  have hval : (Char.ofNat n).val.toNat = n := toNat_ofNat (by unfold Nat.isValidChar; omega)
  simp only [String.utf8EncodeChar, hval]
  rw [if_neg (by omega), if_neg (by omega), if_neg (by omega), ofNat_eq (b := a) (by omega),
    ofNat_eq (b := b) (by omega), ofNat_eq (b := c) (by omega), ofNat_eq (b := d) (by omega)]

/-- **A character that was read is the one that is written there.** -/
theorem encode_of_decodeChar? {t rest : Text} {c : Char} (h : decodeChar? t = some (c, rest)) :
    t = String.utf8EncodeChar c ++ rest := by
  unfold decodeChar? at h
  simp only [UInt8.lt_iff_toNat_lt, UInt8.reduceToNat] at h
  split at h
  · cases h
  rename_i a tail
  split at h
  · obtain ⟨rfl, rfl⟩ := Prod.mk.inj (Option.some.inj h)
    rw [encode_ascii ‹_›]
    rfl
  split at h
  · cases h
  split at h
  · cases tail with
    | nil => cases h
    | cons b tail =>
      dsimp only at h
      split at h
      · obtain ⟨rfl, rfl⟩ := Prod.mk.inj (Option.some.inj h)
        rw [encode_two (by omega) (by omega) ‹_› rfl]
        rfl
      · cases h
  split at h
  · split at h
    · rename_i b c' tail
      split at h
      · rename_i hcond
        obtain ⟨rfl, rfl⟩ := Prod.mk.inj (Option.some.inj h)
        simp only [Bool.and_eq_true, Bool.not_eq_true', decide_eq_true_eq, Bool.and_eq_false_iff,
          decide_eq_false_iff_not] at hcond
        obtain ⟨⟨⟨hb, hc⟩, hleast⟩, hvalid⟩ := hcond
        rw [encode_three (by omega) (by omega) hb hc rfl hleast (by omega)]
        rfl
      · cases h
    · cases h
  split at h
  · split at h
    · rename_i b c' d tail
      split at h
      · rename_i hcond
        obtain ⟨rfl, rfl⟩ := Prod.mk.inj (Option.some.inj h)
        simp only [Bool.and_eq_true, decide_eq_true_eq] at hcond
        obtain ⟨⟨⟨⟨hb, hc⟩, hd⟩, hleast⟩, hmost⟩ := hcond
        rw [encode_four (by omega) (by omega) hb hc hd rfl hleast hmost]
        rfl
      · cases h
    · cases h
  · cases h

/-- Characters are decoded up to where none begins. -/
theorem decodeOnto_append (seen cs : List Char) {rest : Text} (h : decodeChar? rest = none) :
    decodeOnto seen (ofChars cs ++ rest) = (seen.reverse ++ cs, rest) := by
  induction cs generalizing seen with
  | nil =>
    rw [ofChars_nil, List.nil_append, List.append_nil]
    unfold decodeOnto
    split
    · rfl
    · rename_i h'
      rw [h] at h'
      cases h'
  | cons c cs ih =>
    have hc : decodeChar? (ofChars (c :: cs) ++ rest) = some (c, ofChars cs ++ rest) := by
      rw [ofChars_cons, List.append_assoc, decodeChar?_encode]
    unfold decodeOnto
    split
    · rename_i h'
      rw [hc] at h'
      cases h'
    · rename_i h'
      obtain ⟨rfl, rfl⟩ := Prod.mk.inj (Option.some.inj (hc.symm.trans h'))
      rw [ih (c :: seen)]
      simp

/-- **Characters written as UTF-8 are read back.** -/
theorem decode_ofChars (cs : List Char) : decode (ofChars cs) = (cs, []) := by
  have h := decodeOnto_append [] cs (show decodeChar? [] = none from rfl)
  rwa [List.append_nil] at h

/-- A text is what was decoded of it and what was left. -/
theorem ofChars_decodeOnto (seen : List Char) (t : Text) :
    ∃ cs rest, decodeOnto seen t = (seen.reverse ++ cs, rest) ∧ t = ofChars cs ++ rest ∧
      decodeChar? rest = none := by
  fun_induction decodeOnto seen t with
  | case1 seen t h => exact ⟨[], t, by simp, rfl, h⟩
  | case2 seen t c tail h _ ih =>
    obtain ⟨cs, rest, hdecode, htail, hrest⟩ := ih
    refine ⟨c :: cs, rest, by simpa using hdecode, ?_, hrest⟩
    rw [encode_of_decodeChar? h, htail, ofChars_cons, List.append_assoc]

/-- **Decoding stops at the first bytes that are no character**, and what it read is what is written
in front of them. -/
theorem decode_eq_iff {t rest : Text} {cs : List Char} :
    decode t = (cs, rest) ↔ t = ofChars cs ++ rest ∧ decodeChar? rest = none := by
  constructor
  · intro h
    obtain ⟨cs', rest', hdecode, ht, hrest⟩ := ofChars_decodeOnto [] t
    rw [decode, hdecode] at h
    obtain ⟨rfl, rfl⟩ := Prod.mk.inj h
    exact ⟨ht, hrest⟩
  · rintro ⟨rfl, hrest⟩
    exact decodeOnto_append [] cs hrest

/-- Texts of different characters are different. -/
theorem ofChars_injective {cs ds : List Char} (h : ofChars cs = ofChars ds) : cs = ds := by
  have hdecode := decode_ofChars cs
  rw [h, decode_ofChars] at hdecode
  exact (Prod.mk.inj hdecode).1.symm

/-- The text is the UTF-8 encoding of some characters. -/
def IsUtf8 (t : Text) : Prop := ∃ cs, t = ofChars cs

/-- What decoding read is the longest part of a text from its start that is UTF-8 throughout. -/
theorem isPrefix_of_isUtf8 {p bad q : Text} (hp : IsUtf8 p) (hbad : decodeChar? bad = none)
    (hq : IsUtf8 q) (h : q <+: p ++ bad) : q <+: p := by
  obtain ⟨cs, rfl⟩ := hp
  obtain ⟨ds, rfl⟩ := hq
  obtain ⟨tail, htail⟩ := h
  obtain ⟨es, rest, -, rfl, hrest⟩ := ofChars_decodeOnto [] tail
  -- the characters of `q`, and those read behind it, are those of `p`
  have hdecode : decode (ofChars cs ++ bad) = (ds ++ es, rest) := by
    refine decode_eq_iff.2 ⟨?_, hrest⟩
    rw [ofChars_append, List.append_assoc, htail]
  have hcs : cs = ds ++ es := by
    rw [decode_eq_iff.2 ⟨rfl, hbad⟩] at hdecode
    exact (Prod.mk.inj hdecode).1
  rw [hcs, ofChars_append]
  exact List.prefix_append _ _

/-- Every byte of a character above ASCII is above ASCII. -/
theorem le_of_mem_encode {c : Char} (hc : 0x80 ≤ c.val.toNat) {b : UInt8}
    (hb : b ∈ String.utf8EncodeChar c) : 0x80 ≤ b.toNat := by
  have hbyte : ∀ {n : Nat}, 0x80 ≤ n → n < 0x100 → b = UInt8.ofNat n → 0x80 ≤ b.toNat := by
    intro n hn hn' h
    rw [h, UInt8.toNat_ofNat']
    omega
  simp only [String.utf8EncodeChar] at hb
  rw [if_neg (by omega)] at hb
  split at hb
  · simp only [List.mem_cons, List.not_mem_nil, or_false] at hb
    rcases hb with h | h <;> exact hbyte (by omega) (by omega) h
  split at hb
  · simp only [List.mem_cons, List.not_mem_nil, or_false] at hb
    rcases hb with h | h | h <;> exact hbyte (by omega) (by omega) h
  · simp only [List.mem_cons, List.not_mem_nil, or_false] at hb
    rcases hb with h | h | h | h <;> exact hbyte (by omega) (by omega) h

/-- Only an ASCII character itself is written with its byte. -/
theorem count_encode {x : Char} (hx : x.val.toNat < 0x80) (c : Char) :
    (String.utf8EncodeChar c).count (UInt8.ofNat x.val.toNat) = if c = x then 1 else 0 := by
  have hc : c = x ↔ c.val.toNat = x.val.toNat := by
    rw [Char.ext_iff, ← UInt32.toNat_inj]
  simp only [hc]
  by_cases hv : c.val.toNat < 0x80
  · have hbyte : UInt8.ofNat c.val.toNat = UInt8.ofNat x.val.toNat ↔
        c.val.toNat = x.val.toNat := by
      rw [← UInt8.toNat_inj, UInt8.toNat_ofNat', UInt8.toNat_ofNat']
      omega
    simp only [String.utf8EncodeChar]
    rw [if_pos (by omega), List.count_singleton]
    simp only [beq_iff_eq, hbyte]
  · rw [if_neg (by omega), List.count_eq_zero]
    intro hmem
    have hle := le_of_mem_encode (by omega) hmem
    rw [UInt8.toNat_ofNat'] at hle
    omega

/-- A byte below 80 stands for itself only, so it occurs as often as its character. -/
theorem count_ofChars_ascii {x : Char} (hx : x.val.toNat < 0x80) (cs : List Char) :
    (ofChars cs).count (UInt8.ofNat x.val.toNat) = cs.count x := by
  induction cs with
  | nil => rfl
  | cons c cs ih =>
    rw [ofChars_cons, List.count_append, count_encode hx, ih, List.count_cons, Nat.add_comm]
    simp only [beq_iff_eq]

/-- The line feeds of a text are those of its characters. -/
theorem count_ofChars (cs : List Char) : (ofChars cs).count 10 = cs.count '\n' :=
  count_ofChars_ascii (x := '\n') (by decide) cs

theorem ofChars_ascii {t : Text} (h : ∀ b ∈ t, b.toNat < 0x80) :
    ofChars (t.map fun b => Char.ofNat b.toNat) = t := by
  induction t with
  | nil => rfl
  | cons b t ih =>
    have hb : b.toNat < 0x80 := h b List.mem_cons_self
    rw [List.map_cons, ofChars_cons, encode_ascii hb,
      ih fun b' hb' => h b' (List.mem_cons_of_mem b hb')]
    rfl

/-! ## Decimal integers -/

theorem toNat_digit (n : Nat) : (digit n).toNat = 48 + n % 10 := by
  unfold digit
  rw [UInt8.toNat_ofNat']
  omega

theorem isDigit_iff {b : UInt8} : isDigit b = true ↔ 48 ≤ b.toNat ∧ b.toNat ≤ 57 := by
  simp only [isDigit, Bool.and_eq_true, decide_eq_true_eq, UInt8.le_iff_toNat_le,
    UInt8.reduceToNat]

theorem isDigit_digit (n : Nat) : isDigit (digit n) = true := by
  rw [isDigit_iff, toNat_digit]
  omega

theorem digitsOnto_digits (n : Nat) {rest : Text} (h : rest.all isDigit = true) :
    (digitsOnto n rest).all isDigit = true ∧ digitsOnto n rest ≠ [] := by
  fun_induction digitsOnto n rest with
  | case1 n rest hn => simp [isDigit_digit, h]
  | case2 n rest hn ih => exact ih (by simp [isDigit_digit, h])

/-- A number is written with digits only, and at least one. -/
theorem ofNat_digits (n : Nat) : (ofNat n).all isDigit = true ∧ ofNat n ≠ [] :=
  digitsOnto_digits n rfl

/-- The digits of a number have its value, in front of other digits. -/
theorem foldl_digitsOnto (n : Nat) (rest : Text) :
    (digitsOnto n rest).foldl (fun n b => 10 * n + (b.toNat - 48)) 0 =
      rest.foldl (fun n b => 10 * n + (b.toNat - 48)) n := by
  fun_induction digitsOnto n rest with
  | case1 n rest hn =>
    rw [List.foldl_cons, toNat_digit]
    congr 1
    omega
  | case2 n rest hn ih =>
    rw [ih, List.foldl_cons, toNat_digit]
    congr 1
    omega

theorem digitsValue_ofNat (n : Nat) : digitsValue (ofNat n) = n := foldl_digitsOnto n []

theorem splitSign_of_digits {ds : Text} (h : ds.all isDigit = true) :
    splitSign ds = (false, ds) := by
  unfold splitSign
  split
  · simp [isDigit] at h
  · simp [isDigit] at h
  · rfl

/-- A number can be read back from its digits. -/
theorem toInt?_ofInt (n : Int) : toInt? (ofInt n) = some n := by
  cases n with
  | ofNat n =>
    obtain ⟨hall, hne⟩ := ofNat_digits n
    simp [ofInt, toInt?, splitSign_of_digits hall, hall, hne, digitsValue_ofNat]
  | negSucc n =>
    obtain ⟨hall, hne⟩ := ofNat_digits (n + 1)
    simp only [ofInt, toInt?, splitSign, hall, digitsValue_ofNat]
    simp [hne]
    omega

/-- The numbers of 64 bits. -/
theorem fitsInt64_iff {n : Int} :
    fitsInt64 n = true ↔ Int64.minValue.toInt ≤ n ∧ n ≤ Int64.maxValue.toInt := by
  simp only [fitsInt64, Bool.and_eq_true, decide_eq_true_eq]

/-- A text is read as an integer of 64 bits if it is read as an integer at all and that one fits. -/
theorem toInt64?_eq_some_iff {t : Text} {n : Int64} :
    t.toInt64? = some n ↔ t.toInt? = some n.toInt := by
  unfold toInt64?
  constructor
  · intro h
    split at h
    · rename_i m hm
      split at h
      · rename_i hfits
        obtain ⟨hmin, hmax⟩ := fitsInt64_iff.1 hfits
        have hlt := Int.lt_of_le_of_lt hmax (show Int64.maxValue.toInt < 2 ^ 63 by decide)
        rw [hm, ← Option.some.inj h, Int64.toInt_ofInt_of_le hmin hlt]
      · cases h
    · cases h
  · intro h
    have hfits : fitsInt64 n.toInt = true := fitsInt64_iff.2 ⟨n.minValue_le_toInt, n.toInt_le⟩
    simp only [h, hfits, if_true, Int64.ofInt_toInt]

/-- **An integer of 64 bits written in decimal is read back.** -/
theorem toInt64?_ofInt (n : Int64) : toInt64? (ofInt n.toInt) = some n :=
  toInt64?_eq_some_iff.2 (toInt?_ofInt n.toInt)

/-- The bytes of a decimal integer are digits, and perhaps a minus sign. -/
theorem mem_ofInt {n : Int} {b : UInt8} (h : b ∈ ofInt n) : b = 45 ∨ isDigit b = true := by
  have hdigits (k : Nat) (hb : b ∈ ofNat k) : isDigit b = true :=
    List.all_eq_true.1 (ofNat_digits k).1 b hb
  cases n with
  | ofNat n => exact .inr (hdigits n h)
  | negSucc n => exact (List.mem_cons.1 h).imp_right (hdigits (n + 1))

theorem ofInt_ne_nil (n : Int) : ofInt n ≠ [] := by
  cases n with
  | ofNat n => exact (ofNat_digits n).2
  | negSucc n => exact List.cons_ne_nil _ _

end TinyLisp.Text
