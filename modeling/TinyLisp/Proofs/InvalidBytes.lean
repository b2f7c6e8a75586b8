import TinyLisp.Proofs.Grammar
import TinyLisp.Proofs.Places

/-!
# Sources that are not UTF-8

A source is scanned up to its first byte that starts no character. The tokens in front of that byte
are those of a source that ends there, and the byte is reported with its place.

* `tokens_of_alike`: the tokens ahead of a cursor depend on the characters ahead and the place, and
  not on what stops the scan behind them.
* `fault_of_tokensFrom`: what stops the scan, and where.
* `tokenize_undecodable`: the tokens and the error of any source.
-/

namespace TinyLisp

/-- The text `p` is the longest part of `t`, from its start, that is UTF-8 throughout. -/
structure Text.IsLongestUtf8 (p t : Text) : Prop where
  isPrefix : p <+: t
  isUtf8 : p.IsUtf8
  longest : ∀ q : Text, q <+: t → q.IsUtf8 → q <+: p

variable {c d : Cursor} {front : List Char}

/-! ## The tokens -/

/-- Two cursors are at the same place with the same characters ahead. -/
structure Cursor.Alike (c d : Cursor) : Prop where
  file : d.file = c.file
  unread : d.unread = c.unread
  here : d.here = c.here

/-- Where two cursors are alike, the same token is ahead of both, and they are alike behind it. -/
theorem Cursor.Alike.lexeme {c' : Cursor} {t : Token} (h : c.Alike d) (hd : d.failure = none)
    (hlex : c.lexeme = .ok (t, c')) : ∃ d', d.lexeme = .ok (t, d') ∧ c'.Alike d' := by
  obtain ⟨cs, hsplit, htext, hsource, -⟩ := splitToken_of_lexeme hlex
  have hc := failure_of_lexeme hlex
  have hsplit' : splitToken (d.unread.dropWhile isBlank) = some (t.kind, cs, c'.unread) := by
    rw [h.unread]
    exact hsplit
  obtain ⟨d', hlex', hpassed⟩ := lexeme_of_splitToken hd hsplit'
  have hplace : d.skipBlanks.location = t.source := by
    rw [hsource, location_skipBlanks hd, location_skipBlanks hc, h.unread, h.here, locate, locate,
      h.file]
  have htoken : ({ kind := t.kind, text := .ofChars cs, source := d.skipBlanks.location } : Token) =
      t := by rw [hplace, ← htext]
  rw [htoken] at hlex'
  refine ⟨d', hlex', ?_⟩
  -- both cursors have passed the same characters
  obtain ⟨xs, hxs⟩ := walked_lexeme hlex
  obtain ⟨ys, hys⟩ := walked_lexeme hlex'
  have hsame : ys = xs := by
    have hunread := hys.unread
    rw [h.unread, hxs.unread, hpassed.unread] at hunread
    exact (List.append_cancel_right hunread).symm
  refine ⟨?_, hpassed.unread, ?_⟩
  · rw [hys.file, hxs.file, h.file]
  · rw [hys.here, hxs.here, h.here, hsame]

/-- **The tokens depend on the characters ahead and the place**, whatever is behind the
characters. -/
theorem tokens_of_alike (h : c.Alike d) (hc : c.failure = none) (hd : d.failure = none) :
    (tokensFrom d).1 = (tokensFrom c).1 := by
  induction c using Cursor.lexeme_induction generalizing d with
  | ok c t c' hlex ih =>
    obtain ⟨d', hlex', h'⟩ := h.lexeme hd hlex
    obtain ⟨-, -, -, -, hpassed⟩ := Cursor.splitToken_of_lexeme hlex
    obtain ⟨-, -, -, -, hpassed'⟩ := Cursor.splitToken_of_lexeme hlex'
    have htail := ih h' (hpassed.failure.trans hc) (hpassed'.failure.trans hd)
    rw [tokensFrom_of_lexeme hlex, tokensFrom_of_lexeme hlex', htail]
  | error c why hlex =>
    -- a token ahead of one would be ahead of the other
    cases hlex' : d.lexeme with
    | error why' => rw [tokensFrom_of_error hlex, tokensFrom_of_error hlex']
    | ok r =>
      have h' : d.Alike c := ⟨h.file.symm, h.unread.symm, h.here.symm⟩
      obtain ⟨c', hok, -⟩ := h'.lexeme hc hlex'
      rw [hlex] at hok
      cases hok

/-! ## What stops the scan -/

/-- What stops a scan behind the characters `front`, where the bytes `bad` are ahead. -/
def faultBehind (file : Text) (front : List Char) : Text → ScanFault
  | [] => .endOfInput
  | byte :: _ =>
    .invalidByte
      { file, pos := (Text.ofChars front).length, line := 1 + front.count '\n', byte }

theorem lexeme_error_eq {why : ScanFault} (hf : c.failure = none)
    (hhere : c.here = markBehind front) (h : c.lexeme = .error why) :
    why = faultBehind c.file (front ++ c.unread) c.undecodable := by
  have hblank := isBlank_of_lexeme_error hf h
  have hskip : c.skipBlanks = (c.pass c.unread []).ignore := by
    rw [Cursor.skipBlanks_eq hf, List.takeWhile_eq_self_iff.2 hblank,
      List.dropWhile_eq_nil_iff.2 hblank]
  have hplace : c.unread.foldl Mark.after c.here = markBehind (front ++ c.unread) := by
    rw [markBehind_append, ← hhere]
  have hpeek : c.skipBlanks.peek =
      .error (faultBehind c.file (front ++ c.unread) c.undecodable) := by
    rw [hskip]
    cases hu : c.undecodable with
    | nil => simp only [Cursor.peek, Cursor.ignore, Cursor.pass, hf, hu, faultBehind]
    | cons byte rest =>
      simp only [Cursor.peek, Cursor.ignore, Cursor.pass, hf, hu, faultBehind, hplace,
        markBehind_eq, Int.natCast_add, Int.cast_ofNat_Int]
  simp only [Cursor.lexeme, Cursor.scan, hpeek] at h
  exact (Except.error.inj h).symm

/-- **What stops the scan** is the first byte behind the characters ahead, at its place. -/
theorem fault_of_tokensFrom (c : Cursor) (hf : c.failure = none) {front : List Char}
    (hhere : c.here = markBehind front) :
    (tokensFrom c).2.1 =
      faultBehind c.file (front ++ c.unread) c.undecodable := by
  induction c using Cursor.lexeme_induction generalizing front with
  | ok c t c' hlex ih =>
    obtain ⟨xs, hwalked⟩ := Cursor.walked_lexeme hlex
    obtain ⟨-, -, -, -, hpassed⟩ := Cursor.splitToken_of_lexeme hlex
    have hhere' : c'.here = markBehind (front ++ xs) := by
      rw [hwalked.here, hhere, markBehind_append]
    rw [tokensFrom_of_lexeme hlex, ih (hpassed.failure.trans hf) hhere', hwalked.file,
      hpassed.undecodable, hwalked.unread, List.append_assoc]
  | error c why hlex =>
    rw [tokensFrom_of_error hlex]
    exact lexeme_error_eq hf hhere hlex

/-! ## Whole sources -/

theorem tokenize_append (cs : List Char) {bad : Text} (hbad : bad.decodeChar? = none)
    (file : Text) :
    tokenize file (.ofChars cs ++ bad) none =
      ((tokenize file (.ofChars cs) none).1,
        if faultBehind file cs bad = .endOfInput then none else some (faultBehind file cs bad)) := by
  have hfault : (tokensFrom { file, unread := cs, undecodable := bad, failure := none }).2.1 =
      faultBehind file cs bad :=
    fault_of_tokensFrom { file, unread := cs, undecodable := bad, failure := none } rfl
      (show _ = markBehind [] from rfl)
  have htokens : (tokensFrom { file, unread := cs, undecodable := bad, failure := none }).1 =
      (tokensFrom { file, unread := cs, undecodable := [], failure := none }).1 :=
    tokens_of_alike ⟨rfl, rfl, rfl⟩ rfl rfl
  rw [tokenize_eq, tokenize_eq, ofText_append hbad, ofText_ofChars, hfault, htokens]

/-- A source of characters is scanned to its end. -/
theorem tokenize_ofChars (file : Text) (cs : List Char) :
    (tokenize file (.ofChars cs) none).2 = none := by
  have h := tokenize_append cs (show Text.decodeChar? [] = none from rfl) file
  rw [List.append_nil] at h
  rw [h]
  rfl

theorem Text.isUtf8_append_iff {p bad : Text} (hp : p.IsUtf8) (hbad : bad.decodeChar? = none) :
    Text.IsUtf8 (p ++ bad) ↔ bad = [] := by
  constructor
  · intro h
    have hle := (isPrefix_of_isUtf8 hp hbad h (List.prefix_refl _)).length_le
    rw [List.length_append] at hle
    exact List.length_eq_zero_iff.1 (by omega)
  · rintro rfl
    rwa [List.append_nil]

/-- **Invalid bytes are reported exactly and nothing before them is lost.** Let `p` be the longest
part of a source that is UTF-8, from its start. The tokens of the source are those of `p`; scanning
it fails iff it goes on behind `p`, which is where decoding stops, and then reports the byte there.
A source that is not UTF-8 throughout is never read. -/
theorem tokenize_undecodable (file bytes : Text) :
    ∃ p : Text, p.IsLongestUtf8 bytes ∧ bytes.decode.2 = bytes.drop p.length ∧
      tokenize file p none = ((tokenize file bytes none).1, none) ∧
      (tokenize file bytes none).2 = bytes[p.length]?.map (fun byte =>
        .invalidByte { file, pos := p.length, line := 1 + p.count 10, byte }) ∧
      ((tokenize file bytes none).2 ≠ none ↔ ¬bytes.IsUtf8) ∧
      ∀ failure vs, readAll file bytes failure = .ok vs → bytes.IsUtf8 := by
  obtain ⟨cs, bad, -, rfl, hbad⟩ := Text.ofChars_decodeOnto [] bytes
  have hutf8 : (Text.ofChars cs).IsUtf8 := ⟨cs, rfl⟩
  have htokenize := tokenize_append cs hbad file
  have hfault : (tokenize file (.ofChars cs ++ bad) none).2 = bad.head?.map (fun byte =>
      .invalidByte { file, pos := (Text.ofChars cs).length,
                     line := 1 + (Text.ofChars cs).count 10, byte }) := by
    rw [htokenize, Text.count_ofChars]
    cases bad with
    | nil => rfl
    | cons byte rest => rfl
  have hiff : (tokenize file (.ofChars cs ++ bad) none).2 = none ↔
      Text.IsUtf8 (.ofChars cs ++ bad) := by
    rw [hfault, Text.isUtf8_append_iff hutf8 hbad, Option.map_eq_none_iff, List.head?_eq_none_iff]
  refine ⟨Text.ofChars cs, ⟨List.prefix_append _ _, hutf8, ?_⟩, ?_, ?_, ?_, not_congr hiff, ?_⟩
  · intro q hq hq'
    exact Text.isPrefix_of_isUtf8 hutf8 hbad hq' hq
  · rw [Text.decode_eq_iff.2 ⟨rfl, hbad⟩, List.drop_left]
  · rw [htokenize, ← tokenize_ofChars file cs]
  · rw [hfault, List.getElem?_append_right (Nat.le_refl _), Nat.sub_self, List.head?_eq_getElem?]
  · intro failure vs hread
    obtain ⟨pieces, -, -, hscanned, -⟩ := allSpelled_of_readAll hread
    cases failure with
    | none => exact hiff.1 (by rw [hscanned])
    | some message =>
      rw [tokenize_failure] at hscanned
      cases (Prod.mk.inj hscanned).2

end TinyLisp
