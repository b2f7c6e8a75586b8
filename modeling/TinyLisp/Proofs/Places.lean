import Mathlib.Data.List.DropRight
import Mathlib.Data.List.Induction
import TinyLisp.Proofs.Lexing

/-!
# Places in a source

A cursor keeps its place up to date character by character, and the tokens take theirs from it.
Said without cursors: the tokens of a source lie in it one behind the other with nothing but white
space between them, and the place of a token counts what is in front of it.

* `Cursor.Walked`: one cursor comes from another by passing characters; `walked_lexeme`: splitting a
  token off is such a walk.
* `Location.Behind`: a location counts the bytes, lines and columns of the characters in front of it.
* `span_of_lexeme`: one token, as it stands in the source; `tiled_tokensFrom`: all of them.
* `tokenize_increasing`: the tokens of a source are in order; `tokenize_tiled`: they tile it up to
  its end or its first invalid byte.
-/

namespace TinyLisp

/-! ## Counting -/

/-- The location is in the source `file`, right behind the characters `front`. -/
structure Location.Behind (loc : Location) (file : Text) (front : List Char) : Prop where
  file : loc.file = file
  pos : loc.pos = (Text.ofChars front).length
  line : loc.line = 1 + front.count '\n'
  col : loc.col = 1 + (front.rtakeWhile (· ≠ '\n')).length

/-- The mark behind some characters at the start of a source. -/
def markBehind (front : List Char) : Mark := front.foldl Mark.after {}

theorem markBehind_append (front xs : List Char) :
    markBehind (front ++ xs) = xs.foldl Mark.after (markBehind front) := List.foldl_append

theorem markBehind_concat (front : List Char) (x : Char) :
    markBehind (front ++ [x]) = (markBehind front).after x := markBehind_append front [x]

theorem length_ofChars_concat (front : List Char) (x : Char) :
    (Text.ofChars (front ++ [x])).length = (Text.ofChars front).length + x.utf8Size := by
  rw [Text.ofChars_append, List.length_append, Text.ofChars_cons, Text.ofChars_nil,
    List.append_nil, String.length_utf8EncodeChar]

theorem length_ofChars_pos {xs : List Char} (h : xs ≠ []) : 0 < (Text.ofChars xs).length := by
  cases xs with
  | nil => exact absurd rfl h
  | cons x xs =>
    have hx := x.utf8Size_pos
    rw [Text.ofChars_cons, List.length_append, String.length_utf8EncodeChar]
    omega

/-- A mark counts what was passed. -/
theorem markBehind_eq (front : List Char) :
    markBehind front =
      { pos := (Text.ofChars front).length
        line := 1 + front.count '\n'
        col := 1 + (front.rtakeWhile (· ≠ '\n')).length } := by
  induction front using List.reverseRecOn with
  | nil => rfl
  | append_singleton front x ih =>
    rw [markBehind_concat, ih, length_ofChars_concat, List.count_append, List.rtakeWhile_concat]
    -- a line feed starts a new line, any other character a new column
    by_cases hx : x = '\n'
    · simp [Mark.after, hx, Nat.add_assoc]
    · simp [Mark.after, hx, Nat.add_assoc]

theorem behind_locate (c : Cursor) (front : List Char) :
    (c.locate (markBehind front)).Behind c.file front := by
  rw [markBehind_eq]
  exact ⟨rfl, rfl, by simp [Cursor.locate], by simp [Cursor.locate]⟩

/-! ## Walking -/

namespace Cursor

variable {c c' c'' : Cursor} {x : Char} {xs ys rest : List Char} {t : Token}

/-- The cursor `c'` is `c` behind the characters `xs`. -/
structure Walked (c c' : Cursor) (xs : List Char) : Prop where
  file : c'.file = c.file
  unread : c.unread = xs ++ c'.unread
  here : c'.here = xs.foldl Mark.after c.here

theorem Walked.trans (h : Walked c c' xs) (h' : Walked c' c'' ys) : Walked c c'' (xs ++ ys) := by
  refine ⟨h'.file.trans h.file, ?_, ?_⟩
  · rw [h.unread, h'.unread, List.append_assoc]
  · rw [h'.here, h.here, List.foldl_append]

theorem walked_ignore (c : Cursor) : Walked c c.ignore [] := ⟨rfl, rfl, rfl⟩

theorem walked_pass (h : c.unread = xs ++ rest) : Walked c (c.pass xs rest) xs := ⟨rfl, h, rfl⟩

/-- A cursor that advances walks over characters. -/
theorem walked_advanceWhile (p : Char → Bool) (c : Cursor) :
    ∃ xs, Walked c (c.advanceWhile p) xs := by
  unfold advanceWhile
  split
  · exact ⟨[], rfl, rfl, rfl⟩
  · exact ⟨_, walked_pass List.takeWhile_append_dropWhile.symm⟩

theorem walked_scan (h : c.scan = .ok (x, c')) : Walked c c' [x] := by
  have hunread := unread_of_scan h
  unfold scan at h
  split at h
  · obtain ⟨rfl, rfl⟩ := Prod.mk.inj (Except.ok.inj h)
    exact ⟨rfl, hunread, rfl⟩
  · cases h

/-- A string is read by walking over characters. -/
theorem walked_stringToken (c : Cursor) : ∃ xs, Walked c c.stringToken.2 xs := by
  obtain ⟨xs, hxs⟩ := walked_advanceWhile (· ≠ quoteMark) c.ignore
  have hxs := c.walked_ignore.trans hxs
  simp only [stringToken]
  split
  · rename_i hscan
    exact ⟨_, (hxs.trans (walked_scan hscan)).trans (walked_ignore _)⟩
  · exact ⟨_, hxs⟩

/-- A word is read by walking over characters. -/
theorem walked_wordToken (c : Cursor) : ∃ xs, Walked c c.wordToken.2 xs := by
  obtain ⟨xs, hxs⟩ := walked_advanceWhile (fun x => !isDelimiter x) c
  exact ⟨_, hxs.trans (walked_ignore _)⟩

theorem walked_tokenStarting (x : Char) (c : Cursor) : ∃ xs, Walked c (c.tokenStarting x).2 xs := by
  unfold tokenStarting
  split
  · exact ⟨[], c.walked_ignore⟩
  split
  · exact ⟨[], c.walked_ignore⟩
  split
  · exact c.walked_stringToken
  · exact c.walked_wordToken

/-- **Splitting a token off is a walk.** -/
theorem walked_lexeme (h : c.lexeme = .ok (t, c')) : ∃ xs, Walked c c' xs := by
  unfold lexeme at h
  split at h
  · rename_i x d hscan
    obtain ⟨xs, hxs⟩ := walked_advanceWhile isBlank c
    obtain ⟨ys, hys⟩ := walked_tokenStarting x d
    rw [Except.ok.inj h] at hys
    exact ⟨_, ((hxs.trans (walked_ignore _)).trans (walked_scan hscan)).trans hys⟩
  · cases h

/-- Behind blanks a cursor is where these lead. -/
theorem location_skipBlanks (hf : c.failure = none) :
    c.skipBlanks.location =
      c.locate ((c.unread.takeWhile isBlank).foldl Mark.after c.here) := by
  rw [skipBlanks_eq hf]
  rfl

end Cursor

/-! ## Tokens as they stand in a source -/

/-- How a token stands in a source where the characters `rest` are behind it: a string is between
quotes, of which the second is missing only where nothing is behind it. -/
inductive Token.Spans (t : Token) : List Char → List Char → Prop
  | plain {span rest : List Char} (hk : t.kind ≠ .string) (hne : span ≠ [])
      (ht : t.text = .ofChars span) : Spans t span rest
  | quoted {cs rest : List Char} (hk : t.kind = .string) (ht : t.text = .ofChars cs) :
      Spans t (quoteMark :: (cs ++ [quoteMark])) rest
  | unclosed {cs : List Char} (hk : t.kind = .string) (ht : t.text = .ofChars cs) :
      Spans t (quoteMark :: cs) []

/-- A token spans one character at least. -/
theorem Token.Spans.ne_nil {t : Token} {span rest : List Char} (h : t.Spans span rest) :
    span ≠ [] := by
  cases h with
  | plain _ hne _ => exact hne
  | quoted _ _ => exact List.cons_ne_nil _ _
  | unclosed _ _ => exact List.cons_ne_nil _ _

theorem wordKind_ne_string (word : Text) : Cursor.wordKind word ≠ .string := by
  unfold Cursor.wordKind
  split <;> decide

/-- The token at the front of some characters stands there. -/
theorem Leads.spans {cs₀ cs rest : List Char} {t : Token} (h : Leads cs₀ t.kind cs rest)
    (ht : t.text = .ofChars cs) : ∃ span, cs₀ = span ++ rest ∧ t.Spans span rest := by
  generalize hk : t.kind = kind at h
  cases h with
  | left => exact ⟨_, rfl, .plain (by simp [hk]) (by simp) ht⟩
  | right => exact ⟨_, rfl, .plain (by simp [hk]) (by simp) ht⟩
  | quoted h => exact ⟨_, by simp, .quoted hk ht⟩
  | unclosed h => exact ⟨_, by simp, .unclosed hk ht⟩
  | word h => exact ⟨_, rfl, .plain (hk ▸ wordKind_ne_string _) h.1 ht⟩

/-- The token ahead leads the characters behind the white space, and its place is there. -/
theorem leads_span_of_lexeme {c c' : Cursor} {t : Token} (h : c.lexeme = .ok (t, c')) :
    ∃ gap span cs, (∀ x ∈ gap, isBlank x = true) ∧
      Leads (span ++ c'.unread) t.kind cs c'.unread ∧ t.text = .ofChars cs ∧
      t.Spans span c'.unread ∧ c.Walked c' (gap ++ span) ∧
      t.source = c.locate (gap.foldl Mark.after c.here) := by
  obtain ⟨-, -, -, hsource, -⟩ := Cursor.splitToken_of_lexeme h
  obtain ⟨cs, hleads, htext⟩ := leads_of_lexeme h
  obtain ⟨span, hspan, hspans⟩ := hleads.spans htext
  obtain ⟨xs, hwalked⟩ := Cursor.walked_lexeme h
  have hxs : xs = c.unread.takeWhile isBlank ++ span := by
    have hunread := hwalked.unread
    rw [← List.takeWhile_append_dropWhile (p := isBlank) (l := c.unread), hspan,
      ← List.append_assoc] at hunread
    exact (List.append_cancel_right hunread).symm
  refine ⟨c.unread.takeWhile isBlank, span, cs, ?_, hspan ▸ hleads, htext, hspans, hxs ▸ hwalked,
    ?_⟩
  · intro x hx
    exact List.all_eq_true.1 List.all_takeWhile x hx
  · rw [hsource, Cursor.location_skipBlanks (Cursor.failure_of_lexeme h)]

/-- **One token**: white space, then the token, at the place where it stands. -/
theorem span_of_lexeme {c c' : Cursor} {t : Token} (h : c.lexeme = .ok (t, c')) :
    ∃ gap span, (∀ x ∈ gap, isBlank x = true) ∧ t.Spans span c'.unread ∧
      c.Walked c' (gap ++ span) ∧ t.source = c.locate (gap.foldl Mark.after c.here) := by
  obtain ⟨gap, span, -, hgap, -, -, hspans, hwalked, hsource⟩ := leads_span_of_lexeme h
  exact ⟨gap, span, hgap, hspans, hwalked, hsource⟩

/-- The characters ahead, in the source `file` and behind the characters `front`, are the tokens in
order, each at its place, with white space in front of each of them and behind the last. -/
inductive Tiled (file : Text) : List Char → List Char → List Token → Prop
  | blank {front gap : List Char} (hgap : ∀ x ∈ gap, isBlank x = true) : Tiled file front gap []
  | token {front gap span rest : List Char} {t : Token} {ts : List Token}
      (hgap : ∀ x ∈ gap, isBlank x = true) (hplace : t.source.Behind file (front ++ gap))
      (hspan : t.Spans span rest) (hrest : Tiled file (front ++ gap ++ span) rest ts) :
      Tiled file front (gap ++ (span ++ rest)) (t :: ts)

/-- Where no token is ahead, there is only white space. -/
theorem isBlank_of_lexeme_error {c : Cursor} {why : ScanFault} (hf : c.failure = none)
    (h : c.lexeme = .error why) : ∀ x ∈ c.unread, isBlank x = true := by
  cases hsplit : splitToken (c.unread.dropWhile isBlank) with
  | none => exact List.dropWhile_eq_nil_iff.1 (splitToken_eq_none.1 hsplit)
  | some split =>
    obtain ⟨c', hok, -⟩ := Cursor.lexeme_of_splitToken hf hsplit
    rw [hok] at h
    cases h

/-- **The tokens ahead of a cursor tile the characters ahead of it.** -/
theorem tiled_tokensFrom (c : Cursor) (hf : c.failure = none) {front : List Char}
    (hhere : c.here = markBehind front) : Tiled c.file front c.unread (tokensFrom c).1 := by
  induction c using Cursor.lexeme_induction generalizing front with
  | error c why h =>
    rw [tokensFrom_of_error h]
    exact .blank (isBlank_of_lexeme_error hf h)
  | ok c t c' h ih =>
    obtain ⟨gap, span, hgap, hspan, hwalked, hsource⟩ := span_of_lexeme h
    obtain ⟨-, -, -, -, hpassed⟩ := Cursor.splitToken_of_lexeme h
    rw [tokensFrom_of_lexeme h, hwalked.unread, List.append_assoc]
    refine .token hgap ?_ hspan ?_
    · rw [hsource, hhere, ← markBehind_append]
      exact behind_locate c (front ++ gap)
    · have hhere' : c'.here = markBehind (front ++ gap ++ span) := by
        rw [hwalked.here, hhere, List.append_assoc, markBehind_append]
      have htiled := ih (hpassed.failure.trans hf) hhere'
      rwa [hwalked.file] at htiled

/-! ## What follows for places -/

/-- The token is in the source where it says, `k` bytes from the start: its text stands there, in
quotes if it is a string, and its line and column count the characters in front of it. A closing
quote is missing only if the text runs up to the place `stop`. -/
structure Token.Placed (t : Token) (bytes : Text) (stop k : Nat) : Prop where
  pos : t.source.pos = k
  plain : t.kind ≠ .string → t.text <+: bytes.drop k
  quoted : t.kind = .string → ("'" : Text) ++ t.text ++ ("'" : Text) <+: bytes.drop k ∨
    ("'" : Text) ++ t.text <+: bytes.drop k ∧ k + 1 + t.text.length = stop
  front : ∃ cs, bytes.take k = Text.ofChars cs ∧ t.source.line = 1 + cs.count '\n' ∧
    t.source.col = 1 + (cs.rtakeWhile (· ≠ '\n')).length

/-- A token that begins behind some characters, and spans others, is placed there. -/
theorem placed_of_spans (bad : Text) {file : Text} {t : Token} {front span rest : List Char}
    (hplace : t.source.Behind file front) (hspan : t.Spans span rest) :
    t.Placed (.ofChars (front ++ (span ++ rest)) ++ bad)
      (Text.ofChars (front ++ (span ++ rest))).length (Text.ofChars front).length := by
  have hquote : ("'" : Text) = .ofChars [quoteMark] := by decide
  have hdrop : (Text.ofChars (front ++ (span ++ rest)) ++ bad).drop (Text.ofChars front).length =
      Text.ofChars span ++ (Text.ofChars rest ++ bad) := by simp
  have htake : (Text.ofChars (front ++ (span ++ rest)) ++ bad).take (Text.ofChars front).length =
      Text.ofChars front := by simp
  refine ⟨hplace.pos, ?_, ?_, front, htake, hplace.line, hplace.col⟩
  · intro hk
    rw [hdrop]
    cases hspan with
    | plain _ _ ht => exact ⟨_, congrArg (· ++ _) ht⟩
    | quoted hk' _ => exact absurd hk' hk
    | unclosed hk' _ => exact absurd hk' hk
  · intro hk
    rw [hdrop, hquote]
    cases hspan with
    | plain hk' _ _ => exact absurd hk hk'
    | quoted _ ht =>
      left
      rw [ht, ← Text.ofChars_append, ← Text.ofChars_append]
      exact List.prefix_append _ _
    | @unclosed cs _ ht =>
      right
      rw [ht, ← Text.ofChars_append]
      refine ⟨List.prefix_append _ _, ?_⟩
      have hone : (String.utf8EncodeChar quoteMark).length = 1 := by decide
      simp only [Text.ofChars_append, Text.ofChars_cons, Text.ofChars_nil, List.length_append,
        List.length_nil, hone]
      omega

namespace Tiled

variable {file : Text} {front cs : List Char} {ts : List Token}

/-- Tokens that tile a source are placed in it. -/
theorem placed (h : Tiled file front cs ts) (bad : Text) {t : Token} (ht : t ∈ ts) :
    ∃ k, t.Placed (.ofChars (front ++ cs) ++ bad) (Text.ofChars (front ++ cs)).length k := by
  induction h with
  | blank _ => cases ht
  | @token front gap span rest u ts _ hplace hspan _ ih =>
    rcases List.mem_cons.1 ht with rfl | ht
    · have hplaced := placed_of_spans bad hplace hspan
      rw [List.append_assoc] at hplaced
      exact ⟨_, hplaced⟩
    · have hplaced := ih ht
      simp only [List.append_assoc] at hplaced
      exact hplaced

/-- Tokens that tile what is behind some characters begin behind them. -/
theorem le_pos (h : Tiled file front cs ts) {t : Token} (ht : t ∈ ts) :
    (Text.ofChars front).length ≤ t.source.pos := by
  induction h with
  | blank _ => cases ht
  | @token front gap span rest u ts _ hplace _ _ ih =>
    rcases List.mem_cons.1 ht with rfl | ht
    · rw [hplace.pos, Text.ofChars_append, List.length_append]
      omega
    · have hle := ih ht
      simp only [Text.ofChars_append, List.length_append] at hle
      omega

/-- Each token is behind the one before. -/
theorem increasing (h : Tiled file front cs ts) :
    ts.Pairwise (fun t u => t.source.pos < u.source.pos) := by
  induction h with
  | blank _ => exact .nil
  | @token front gap span rest t ts _ hplace hspan hrest ih =>
    refine List.pairwise_cons.2 ⟨?_, ih⟩
    intro u hu
    have hle := hrest.le_pos hu
    have hspan := length_ofChars_pos hspan.ne_nil
    have hpos := hplace.pos
    rw [Text.ofChars_append, List.length_append] at hle
    omega

end Tiled

/-! ## Whole sources -/

theorem ofText_append {cs : List Char} {bad : Text} (hbad : bad.decodeChar? = none)
    (file : Text) (failure : Option Text) :
    Cursor.ofText file (.ofChars cs ++ bad) failure =
      { file, unread := cs, undecodable := bad, failure } := by
  simp only [Cursor.ofText, Text.decode_eq_iff.2 ⟨rfl, hbad⟩]

theorem tiled_tokenize (cs : List Char) {bad : Text} (hbad : bad.decodeChar? = none)
    (file : Text) : Tiled file [] cs (tokenize file (.ofChars cs ++ bad) none).1 := by
  rw [tokenize_eq, ofText_append hbad]
  exact tiled_tokensFrom { file, unread := cs, undecodable := bad, failure := none } rfl rfl

/-- A source that could not be read has no tokens. -/
theorem tokenize_failure (file bytes message : Text) :
    tokenize file bytes (some message) = ([], some (.unreadable message)) := by
  have hlex : (Cursor.ofText file bytes (some message)).lexeme = .error (.unreadable message) :=
    Cursor.lexeme_of_failure rfl
  rw [tokenize_eq, tokensFrom_of_error hlex]
  rfl

/-- The tokens of a source are in order. -/
theorem tokenize_increasing (file bytes : Text) (failure : Option Text) :
    (tokenize file bytes failure).1.Pairwise fun t u => t.source.pos < u.source.pos := by
  cases failure with
  | none =>
    obtain ⟨cs, bad, -, rfl, hbad⟩ := Text.ofChars_decodeOnto [] bytes
    exact (tiled_tokenize cs hbad file).increasing
  | some message =>
    rw [tokenize_failure]
    exact .nil

/-- **The tokens of a source tile it.** Up to the end of the source, or to its first byte that starts
no character, the tokens stand in it in order with white space around them; their places increase;
and each is at its place, with its line and column. -/
theorem tokenize_tiled (file bytes : Text) :
    ∃ cs bad, bytes = .ofChars cs ++ bad ∧ bad.decodeChar? = none ∧
      Tiled file [] cs (tokenize file bytes none).1 ∧
      (tokenize file bytes none).1.Pairwise (fun t u => t.source.pos < u.source.pos) ∧
      ∀ t ∈ (tokenize file bytes none).1, ∃ k, t.Placed bytes (Text.ofChars cs).length k := by
  obtain ⟨cs, bad, -, rfl, hbad⟩ := Text.ofChars_decodeOnto [] bytes
  have htiled := tiled_tokenize cs hbad file
  exact ⟨cs, bad, rfl, hbad, htiled, htiled.increasing, fun t ht => htiled.placed bad ht⟩

end TinyLisp
