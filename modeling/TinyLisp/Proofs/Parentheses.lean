import Mathlib.Data.List.Infix
import TinyLisp.Proofs.Grammar

/-!
# Matching parentheses

Whether a source can be read, and what is wrong with it if not, can be said without any reading:
walk through its tokens and count the parentheses that are open.

* `depth`: the parentheses that some tokens leave open.
* `Offence`: the tokens that cannot stand where so many are open, and how they are reported.
* `Spells.level`: the tokens of a form close what they open, so that they offend nowhere.
* `offence_of_readForm`: where no form can be read, the first offence is reported.
* `readAll_classified`: a source is read iff its parentheses match and it can be scanned to the end,
  and otherwise the first offence is reported.
-/

namespace TinyLisp

variable {final t : Token} {ts us : List Token} {v : Value} {s : Scalar} {opened : List OpenList}
  {pieces : List (Value × List Token)} {e : ReadError}

/-- What a token adds to the number of open parentheses. -/
def Token.weight (t : Token) : Int :=
  match t.kind with
  | .leftParen => 1
  | .rightParen => -1
  | _ => 0

/-- The number of parentheses that some tokens leave open. -/
def depth : List Token → Int
  | [] => 0
  | t :: ts => t.weight + depth ts

@[simp]
theorem depth_nil : depth [] = 0 := rfl

@[simp]
theorem depth_cons (t : Token) (ts : List Token) : depth (t :: ts) = t.weight + depth ts := rfl

/-- Depth is additive. -/
@[simp]
theorem depth_append (ts us : List Token) : depth (ts ++ us) = depth ts + depth us := by
  induction ts with
  | nil => simp
  | cons t ts ih => rw [List.cons_append, depth_cons, depth_cons, ih, Int.add_assoc]

theorem weight_left (h : t.kind = .leftParen) : t.weight = 1 := by rw [Token.weight, h]

theorem weight_right (h : t.kind = .rightParen) : t.weight = -1 := by rw [Token.weight, h]

theorem weight_scalar (h : Scalar.ofToken? t = some s) : t.weight = 0 := by
  rcases kind_of_ofToken? h with hk | hk | hk <;> rw [Token.weight, hk]

/-- The token `t` cannot stand where `d` parentheses are open, and is reported as `e`. -/
inductive Offence (d : Int) (t : Token) : ReadError → Prop
  /-- A parenthesis closes that was not open. -/
  | unopened (hk : t.kind = .rightParen) (hd : d = 0) :
      Offence d t
        { reason := .unexpectedToken, source := some t.source, expected := none, got := t }
  /-- The source cannot be scanned any further. -/
  | unscannable (hk : t.kind = .error) :
      Offence d t { reason := .scan, source := some t.source, expected := none, got := t }
  /-- The source ends where a parenthesis is open. -/
  | unclosed (hk : t.kind = .eof) (hd : 0 < d) :
      Offence d t
        { reason := .unexpectedEnd
          source := some t.source
          expected := some .rightParen
          got := t }

/-- No token of `ts` offends, with `d` parentheses open in front. -/
def Clear (d : Int) (ts : List Token) : Prop :=
  ∀ p t, p ++ [t] <+: ts → ∀ e, ¬Offence (d + depth p) t e

/-- How many tokens of `ts` leave no parenthesis open, with `d` open in front: each of them closes
a form that is in no list. -/
def closings (d : Int) : List Token → Nat
  | [] => 0
  | t :: ts => (if d + t.weight = 0 then 1 else 0) + closings (d + t.weight) ts

/-- The sequence comes to the end of its source at depth zero. -/
structure Accepted (stream : List Token) : Prop where
  closed : ∃ body t, stream = body ++ [t] ∧ t.kind = .eof ∧ depth body = 0
  nonneg : ∀ p, p <+: stream → 0 ≤ depth p
  scanned : ∀ t ∈ stream, t.kind ≠ .error

section Clear

variable {d : Int}

theorem clear_nil : Clear d [] := by
  intro p t h
  simp at h

theorem clear_cons : Clear d (t :: ts) ↔ (∀ e, ¬Offence d t e) ∧ Clear (d + t.weight) ts := by
  constructor
  · intro h
    constructor
    · simpa using h [] t (by simp)
    · intro p u hp e
      have := h (t :: p) u (by simpa using hp) e
      rwa [depth_cons, ← Int.add_assoc] at this
  · rintro ⟨ht, h⟩ p u hp e
    cases p with
    | nil =>
      obtain rfl : u = t := by simpa using hp
      simpa using ht e
    | cons x p =>
      obtain ⟨rfl, hp'⟩ := List.cons_prefix_cons.1 hp
      rw [depth_cons, ← Int.add_assoc]
      exact h p u hp' e

/-- Tokens in a row are clear if each part is, at the depth where it begins. -/
theorem clear_append : Clear d (ts ++ us) ↔ Clear d ts ∧ Clear (d + depth ts) us := by
  induction ts generalizing d with
  | nil => simp [clear_nil]
  | cons t ts ih => rw [List.cons_append, clear_cons, clear_cons, ih, depth_cons, Int.add_assoc,
      and_assoc]

/-- As long as no token offends, the depth does not become negative. -/
theorem Clear.nonneg (h : Clear d ts) (hd : 0 ≤ d) {p : List Token} (hp : p <+: ts) :
    0 ≤ d + depth p := by
  induction p generalizing d ts with
  | nil => simpa using hd
  | cons t p ih =>
    cases ts with
    | nil => simp at hp
    | cons u ts =>
      obtain ⟨rfl, hp'⟩ := List.cons_prefix_cons.1 hp
      obtain ⟨ht, h⟩ := clear_cons.1 h
      -- only a closing parenthesis lowers the depth, and not where it is zero
      have hstep : 0 ≤ d + t.weight := by
        by_cases hk : t.kind = .rightParen
        · have hne : d ≠ 0 := fun h0 => ht _ (.unopened hk h0)
          rw [weight_right hk]
          omega
        · have : 0 ≤ t.weight := by
            unfold Token.weight
            split
            · omega
            · exact absurd ‹_› hk
            · omega
          omega
      have := ih h hstep hp'
      rw [depth_cons]
      omega

/-- A left parenthesis is at its place anywhere. -/
theorem not_offence_left (hk : t.kind = .leftParen) : ¬Offence d t e := by
  intro h
  cases h <;> simp_all

/-- A right parenthesis is at its place inside a list. -/
theorem not_offence_right (hk : t.kind = .rightParen) (hd : d ≠ 0) : ¬Offence d t e := by
  intro h
  cases h <;> simp_all

/-- A scalar is at its place anywhere. -/
theorem not_offence_scalar (hs : Scalar.ofToken? t = some s) : ¬Offence d t e := by
  intro h
  rcases kind_of_ofToken? hs with hk | hk | hk <;> cases h <;> simp_all

theorem closings_append (ts us : List Token) :
    closings d (ts ++ us) = closings d ts + closings (d + depth ts) us := by
  induction ts generalizing d with
  | nil => simp [closings]
  | cons t ts ih =>
    rw [List.cons_append, closings, closings, ih, depth_cons, Int.add_assoc]
    omega

/-- Tokens that close what they open and nothing else, so that they can stand anywhere. -/
structure Level (ts : List Token) : Prop where
  depth : depth ts = 0
  clear : ∀ d, 0 ≤ d → Clear d ts
  inner : ∀ d, 0 < d → closings d ts = 0

theorem level_flatMap (h : ∀ p ∈ pieces, Level p.2) : Level (pieces.flatMap (·.2)) := by
  induction pieces with
  | nil => exact ⟨rfl, fun _ _ => clear_nil, fun _ _ => rfl⟩
  | cons p pieces ih =>
    obtain ⟨hp, hrest⟩ := List.forall_mem_cons.1 h
    have ih := ih hrest
    rw [List.flatMap_cons]
    refine ⟨?_, fun d hd => ?_, fun d hd => ?_⟩
    · rw [depth_append, hp.depth, ih.depth]
      rfl
    · rw [clear_append, hp.depth, Int.add_zero]
      exact ⟨hp.clear d hd, ih.clear d hd⟩
    · rw [closings_append, hp.depth, Int.add_zero, hp.inner d hd, ih.inner d hd]

/-- The tokens of a form open as many lists as they close, and never close more. -/
theorem Spells.level (h : Spells v ts) : Level ts := by
  induction h with
  | @scalar t s h =>
    have hw := weight_scalar h
    refine ⟨by simp [hw], fun d _ => ?_, fun d hd => ?_⟩
    · exact clear_cons.2 ⟨fun _ => not_offence_scalar h, clear_nil⟩
    · rw [closings, hw, if_neg (by omega), closings]
  | @list l r pieces hl _ hr ih =>
    have hitems := level_flatMap ih
    have hlw := weight_left hl
    have hrw := weight_right hr
    refine ⟨?_, fun d hd => ?_, fun d hd => ?_⟩
    · simp [hlw, hrw, hitems.depth]
    · refine clear_cons.2 ⟨fun _ => not_offence_left hl, ?_⟩
      rw [clear_append, hlw, hitems.depth]
      exact ⟨hitems.clear _ (by omega),
        clear_cons.2 ⟨fun _ => not_offence_right hr (by omega), clear_nil⟩⟩
    · rw [closings, closings_append, hlw, hitems.depth, hitems.inner _ (by omega), closings, hrw]
      rw [if_neg (by omega), if_neg (by omega), closings]

theorem AllSpelled.level (h : AllSpelled pieces) : Level (pieces.flatMap (·.2)) :=
  level_flatMap fun p hp => (h p hp).level

/-- A form that is in no list is closed once. -/
theorem Spells.closings_eq (h : Spells v ts) : closings 0 ts = 1 := by
  cases h with
  | scalar h => simp [closings, weight_scalar h]
  | @list l r pieces hl items hr =>
    have hitems := AllSpelled.level items
    rw [closings, closings_append, weight_left hl, hitems.depth, hitems.inner _ (by omega),
      closings, weight_right hr]
    simp [closings]

/-- The tokens of forms come back to depth zero once for each form. -/
theorem closings_flatMap (h : AllSpelled pieces) :
    closings 0 (pieces.flatMap (·.2)) = pieces.length := by
  induction pieces with
  | nil => rfl
  | cons p pieces ih =>
    obtain ⟨hp, h⟩ := allSpelled_cons.1 h
    rw [List.flatMap_cons, closings_append, hp.closings_eq, hp.level.depth, Int.add_zero, ih h,
      List.length_cons]
    omega

end Clear

/-! ## The first offence -/

/-- Where no form can be read, the first token that offends is reported. -/
theorem offence_of_readForm (hts : ∀ t ∈ ts, t.IsLexeme)
    (hfinal : final.kind = .eof ∨ final.kind = .error)
    (hend : opened = [] → ts = [] → final.kind ≠ .eof)
    (h : (readForm final opened ts).result = .error e) :
    ∃ before t after, ts ++ [final] = before ++ t :: after ∧ Clear opened.length before ∧
      Offence (opened.length + depth before) t e := by
  induction ts generalizing opened with
  | nil =>
    obtain rfl := Except.error.inj h
    refine ⟨[], final, [], rfl, clear_nil, ?_⟩
    rw [depth_nil, Int.add_zero]
    rcases hfinal with hk | hk
    · have hne : opened ≠ [] := fun h0 => hend h0 rfl hk
      have hpos : 0 < opened.length := List.length_pos_iff.2 hne
      have := Offence.unclosed (d := opened.length) hk (by omega)
      simpa [unexpectedIn, ReadError.unexpected, hk, hne] using this
    · have := Offence.unscannable (d := opened.length) hk
      simpa [unexpectedIn, ReadError.unexpected, hk] using this
  | cons t ts ih =>
    have hts' : ∀ t ∈ ts, t.IsLexeme := fun u hu => hts u (List.mem_cons_of_mem t hu)
    -- a token that does not offend, and behind it one more or one less list open
    have hpass : ∀ {opened'}, (opened'.length : Int) = opened.length + t.weight → opened' ≠ [] →
        (∀ e, ¬Offence opened.length t e) → (readForm final opened' ts).result = .error e →
        ∃ before u after, t :: ts ++ [final] = before ++ u :: after ∧
          Clear opened.length before ∧ Offence (opened.length + depth before) u e := by
      intro opened' hlen hne ht h
      obtain ⟨before, u, after, heq, hclear, hu⟩ := ih hts' (fun h0 => absurd h0 hne) h
      refine ⟨t :: before, u, after, by rw [List.cons_append, heq]; rfl, ?_, ?_⟩
      · exact clear_cons.2 ⟨ht, hlen ▸ hclear⟩
      · rwa [depth_cons, ← Int.add_assoc, ← hlen]
    rcases (hts t List.mem_cons_self).cases with hk | hk | ⟨s, hs⟩
    · rw [readForm_left hk] at h
      exact hpass (by simp [weight_left hk]) (by simp) (fun _ => not_offence_left hk) h
    · cases opened with
      | nil =>
        rw [readForm_unopened hk] at h
        obtain rfl := Except.error.inj h
        refine ⟨[], t, ts ++ [final], rfl, clear_nil, ?_⟩
        have := Offence.unopened (d := 0) hk rfl
        simpa [unexpectedIn, ReadError.unexpected, hk] using this
      | cons o opened =>
        rw [readForm_right hk] at h
        cases opened with
        | nil => cases h
        | cons o' opened =>
          exact hpass (by simp only [weight_right hk, List.length_cons]; omega) (by simp)
            (fun _ => not_offence_right hk (by simp; omega)) h
    · rw [readForm_scalar hs] at h
      cases opened with
      | nil => cases h
      | cons o opened =>
        exact hpass (by simp [weight_scalar hs]) (by simp) (fun _ => not_offence_scalar hs) h

/-- The tokens of a source, up to and with the one that ends the sequence. -/
def tokenStream (file bytes : Text) (failure : Option Text) : List Token :=
  let (tokens, _, final) := tokensFrom (Cursor.ofText file bytes failure)
  tokens ++ [final]

/-- These are the tokens that the lexer hands out one by one. -/
theorem take_tokenStream (file bytes : Text) (failure : Option Text) :
    Lexer.take (tokenStream file bytes failure).length
      { cursor := Cursor.ofText file bytes failure } = tokenStream file bytes failure := by
  have htake : ∀ c : Cursor, Lexer.take ((tokensFrom c).1.length + 1) { cursor := c } =
      (tokensFrom c).1 ++ [(tokensFrom c).2.2] := by
    intro c
    induction c using Cursor.lexeme_induction with
    | ok c t c' hlex ih =>
      rw [tokensFrom_of_lexeme hlex, Lexer.take]
      simp only [Lexer.next, hlex, List.length_cons, List.cons_append]
      rw [ih]
    | error c why hlex =>
      rw [tokensFrom_of_error hlex]
      simp only [Lexer.take, Lexer.next, hlex, List.length_nil, List.nil_append]
  have := htake (Cursor.ofText file bytes failure)
  simpa [tokenStream] using this

/-- Forms up to the end of the source make an accepted sequence. -/
theorem AllSpelled.accepted (h : AllSpelled pieces)
    (hts : ∀ t ∈ pieces.flatMap (·.2), t.IsLexeme) (hend : final.kind = .eof) :
    Accepted (pieces.flatMap (·.2) ++ [final]) := by
  refine ⟨⟨_, final, rfl, hend, h.level.depth⟩, fun p hp => ?_, fun t ht => ?_⟩
  · have hclear : Clear 0 (pieces.flatMap (·.2) ++ [final]) := by
      rw [clear_append, h.level.depth]
      refine ⟨h.level.clear 0 (by omega), clear_cons.2 ⟨fun e h => ?_, clear_nil⟩⟩
      cases h <;> simp_all
    have := hclear.nonneg (by omega) hp
    omega
  · rcases List.mem_append.1 ht with ht | ht
    · exact (hts t ht).not_final.2
    · rw [List.mem_singleton.1 ht, hend]
      decide

/-- No sequence with an offence is accepted. -/
theorem not_accepted_of_offence {before after : List Token} (hts : ∀ t ∈ ts, t.IsLexeme)
    (heq : ts ++ [final] = before ++ t :: after) (h : Offence (depth before) t e) :
    ¬Accepted (ts ++ [final]) := by
  intro hacc
  cases h with
  | unopened hk hd =>
    have := hacc.nonneg (before ++ [t]) (by rw [heq]; simp)
    simp [weight_right hk, hd] at this
  | unscannable hk => exact hacc.scanned t (by rw [heq]; simp) hk
  | unclosed hk hd =>
    -- only the last token is the end of the source
    obtain ⟨body, u, hbody, -, hdepth⟩ := hacc.closed
    obtain ⟨rfl, -⟩ := List.append_inj' hbody rfl
    rcases List.eq_nil_or_concat after with rfl | ⟨after, u, rfl⟩
    · obtain ⟨rfl, -⟩ := List.append_inj' heq rfl
      omega
    · have : ts = before ++ t :: after := by
        rw [List.concat_eq_append, ← List.cons_append, ← List.append_assoc] at heq
        exact (List.append_inj' heq rfl).1
      exact (hts t (by rw [this]; simp)).not_final.1 hk

/-- What the reader is given: lexemes, and behind them the end or what stopped the scan. -/
theorem tokenStream_eq (file bytes : Text) (failure : Option Text) :
    ∃ ts final, tokenStream file bytes failure = ts ++ [final] ∧ (∀ t ∈ ts, t.IsLexeme) ∧
      (final.kind = .eof ∨ final.kind = .error) ∧
      readAll file bytes failure = (readForms final [] none ts).result :=
  ⟨_, _, rfl, fun _ => isLexeme_of_mem, kind_of_final _, rfl⟩

/-- **The reader accepts exactly the sequences whose parentheses match and that come to the end of
the source**, and gives a value for each form; otherwise it reports the first token that cannot
stand where it is. The sequence is what the lexer hands out. -/
theorem readAll_classified (file bytes : Text) (failure : Option Text) :
    Lexer.take (tokenStream file bytes failure).length
      { cursor := Cursor.ofText file bytes failure } = tokenStream file bytes failure ∧
    ((∃ vs, readAll file bytes failure = .ok vs) ↔ Accepted (tokenStream file bytes failure)) ∧
    (∀ vs, readAll file bytes failure = .ok vs →
      vs.length = closings 0 (tokenStream file bytes failure).dropLast) ∧
    (¬Accepted (tokenStream file bytes failure) →
      ∃ before t after e, tokenStream file bytes failure = before ++ t :: after ∧
        Clear 0 before ∧ Offence (depth before) t e ∧ readAll file bytes failure = .error e) := by
  refine ⟨take_tokenStream file bytes failure, ?_⟩
  obtain ⟨ts, final, hstream, hts, hfinal, hread⟩ := tokenStream_eq file bytes failure
  rw [hstream, hread, List.dropLast_concat]
  obtain ⟨pieces, rest, hall, rfl, ⟨rfl, hend, hok⟩ | ⟨hend, e, herror, hresult⟩⟩ :=
    readForms_cases hts final [] none
  · -- every form is read
    rw [List.append_nil] at hts hok ⊢
    have haccepted := hall.accepted hts hend
    refine ⟨⟨fun _ => haccepted, fun _ => ⟨_, hok⟩⟩, fun vs hvs => ?_, fun h => absurd haccepted h⟩
    obtain rfl := Except.ok.inj (hok.symm.trans hvs)
    rw [closings_flatMap hall]
    simp
  · -- the forms in front of the one that cannot be read do not offend
    have hlevel := hall.level
    have hrest : ∀ t ∈ rest, t.IsLexeme := fun t ht => hts t (List.mem_append_right _ ht)
    obtain ⟨before, t, after, heq, hclear, hoffence⟩ :=
      offence_of_readForm hrest hfinal (fun _ => hend) herror
    set front := pieces.flatMap (·.2)
    have hsplit : front ++ rest ++ [final] = (front ++ before) ++ t :: after := by
      rw [List.append_assoc, heq, List.append_assoc]
    have hfront : Clear 0 (front ++ before) := by
      rw [clear_append, hlevel.depth]
      exact ⟨hlevel.clear 0 (by omega), by simpa using hclear⟩
    have hoffence' : Offence (depth (front ++ before)) t e := by
      rw [depth_append, hlevel.depth]
      simpa using hoffence
    have hnot := not_accepted_of_offence hts hsplit hoffence'
    refine ⟨⟨fun ⟨vs, hvs⟩ => ?_, fun h => absurd h hnot⟩, fun vs hvs => ?_, fun _ => ?_⟩
    · cases hresult.symm.trans hvs
    · cases hresult.symm.trans hvs
    · exact ⟨_, t, after, e, hsplit, hfront, hoffence', hresult⟩

end TinyLisp
