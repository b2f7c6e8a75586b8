import TinyLisp.Proofs.Lexing
import TinyLisp.Reader.Basic

/-!
# The grammar of forms

A form is spelled by one token, or by the forms of a list between parentheses (`Spells`). The reader
has no such rule: it keeps a stack of the lists that are open. Both agree.

* `readForm_of_spells`: tokens that spell a value are read as that value, whatever is open.
* `spells_of_readForm`: a form that was read is spelled by the tokens read. The induction carries
  what the tokens so far have opened (`Opens`).
* `readForms_cases`: reading to the end reads forms, up to the end or up to tokens that are no form;
  `allSpelled_of_readAll`: a source that is read is forms throughout.
-/

namespace TinyLisp

/-- The tokens `ts` spell the value `v`. -/
inductive Spells : Value → List Token → Prop
  | scalar {t : Token} {s : Scalar} (h : Scalar.ofToken? t = some s) :
      Spells (.scalar (some t.source) s) [t]
  | list {l r : Token} {pieces : List (Value × List Token)} (hl : l.kind = .leftParen)
      (items : ∀ p ∈ pieces, Spells p.1 p.2) (hr : r.kind = .rightParen) :
      Spells (.list (some l.source) (pieces.map (·.1))) (l :: (pieces.flatMap (·.2) ++ [r]))

/-- Each of the pieces is a value with tokens that spell it. -/
def AllSpelled (pieces : List (Value × List Token)) : Prop := ∀ p ∈ pieces, Spells p.1 p.2

variable {final last t l r : Token} {ts us rest : List Token} {v : Value} {vs seen : List Value}
  {s : Scalar} {opened : List OpenList} {o : OpenList} {pieces : List (Value × List Token)}
  {e : ReadError}

theorem allSpelled_nil : AllSpelled [] := fun _ h => absurd h List.not_mem_nil

theorem allSpelled_cons {p : Value × List Token} :
    AllSpelled (p :: pieces) ↔ Spells p.1 p.2 ∧ AllSpelled pieces := List.forall_mem_cons

theorem allSpelled_concat {p : Value × List Token} (h : AllSpelled pieces) (hp : Spells p.1 p.2) :
    AllSpelled (pieces ++ [p]) := by
  intro q hq
  rcases List.mem_append.1 hq with hq | hq
  · exact h q hq
  · rw [List.mem_singleton.1 hq]
    exact hp

/-! ## One token -/

/-- What becomes of the form `v`, with `last` its last token, while the lists `opened` are open: it
is the result, or an item of the innermost list. -/
def delivered (final : Token) (v : Value) (last : Token) (rest : List Token) :
    List OpenList → Reading
  | [] => { result := .ok v, last, rest }
  | l :: opened => readForm final (l.add v :: opened) rest

/-- A left parenthesis opens a list. -/
theorem readForm_left (h : t.kind = .leftParen) :
    readForm final opened (t :: ts) = readForm final ({ source := t.source } :: opened) ts := by
  simp only [readForm, h]

/-- A right parenthesis delivers the list that it closes. -/
theorem readForm_right (h : t.kind = .rightParen) :
    readForm final (o :: opened) (t :: ts) = delivered final o.close t ts opened := by
  cases opened <;> simp only [readForm, h, delivered]

theorem kind_of_ofToken? (h : Scalar.ofToken? t = some s) :
    t.kind = .int ∨ t.kind = .string ∨ t.kind = .symbol := by
  unfold Scalar.ofToken? at h
  split at h
  · exact .inl ‹_›
  · exact .inr (.inl ‹_›)
  · exact .inr (.inr ‹_›)
  · cases h

/-- A scalar is delivered at once. -/
theorem readForm_scalar (h : Scalar.ofToken? t = some s) :
    readForm final opened (t :: ts) =
      delivered final (.scalar (some t.source) s) t ts opened := by
  rcases kind_of_ofToken? h with hk | hk | hk <;>
    cases opened <;> simp only [readForm, hk, h, delivered]

/-- A closing parenthesis is no form. -/
theorem readForm_unopened (h : t.kind = .rightParen) :
    readForm final [] (t :: ts) =
      { result := .error (unexpectedIn [] t), last := t, rest := ts } := by
  simp only [readForm, h, Scalar.ofToken?]

/-- What a token of a source can be to the reader. -/
theorem Token.IsLexeme.cases (h : t.IsLexeme) :
    t.kind = .leftParen ∨ t.kind = .rightParen ∨ ∃ s, Scalar.ofToken? t = some s := by
  unfold Token.IsLexeme at h
  split at h
  · exact .inl ‹_›
  · exact .inr (.inl ‹_›)
  · rename_i hk
    exact .inr (.inr ⟨.string t.text, by simp only [Scalar.ofToken?, hk]⟩)
  · rename_i hk
    obtain ⟨n, hn⟩ := Option.isSome_iff_exists.1 h.2
    exact .inr (.inr ⟨.int n, by simp only [Scalar.ofToken?, hk, hn]⟩)
  · rename_i hk
    exact .inr (.inr ⟨Scalar.ofWord t.text, by simp only [Scalar.ofToken?, hk]⟩)
  · exact h.elim

theorem Token.IsLexeme.not_final (h : t.IsLexeme) : t.kind ≠ .eof ∧ t.kind ≠ .error := by
  unfold Token.IsLexeme at h
  constructor <;> intro hk <;> simp [hk] at h

/-! ## The reader follows the grammar -/

/-- A form is spelled with a token at least, which is not the end. -/
theorem Spells.head (h : Spells v ts) : ∃ t us, ts = t :: us ∧ t.kind ≠ .eof := by
  cases h with
  | scalar h =>
    refine ⟨_, [], rfl, ?_⟩
    rcases kind_of_ofToken? h with hk | hk | hk <;> simp [hk]
  | list hl _ _ => exact ⟨_, _, rfl, by simp [hl]⟩

/-- Tokens that spell a value are read as that value, whatever lists are open and whatever comes
behind. -/
theorem readForm_of_spells (h : Spells v ts) (final : Token) (opened : List OpenList)
    (rest : List Token) :
    ∃ last, readForm final opened (ts ++ rest) = delivered final v last rest opened := by
  induction h generalizing opened rest with
  | scalar h => exact ⟨_, readForm_scalar h⟩
  | @list l r pieces hl _ hr ih =>
    -- the items go to the open list one after another
    have hitems : ∀ qs : List (Value × List Token), (∀ q ∈ qs, q ∈ pieces) → ∀ o : OpenList,
        readForm final (o :: opened) (qs.flatMap (·.2) ++ (r :: rest)) =
          readForm final ({ o with items := (qs.map (·.1)).reverse ++ o.items } :: opened)
            (r :: rest) := by
      intro qs
      induction qs with
      | nil => intro _ o; rfl
      | cons q qs ihq =>
        intro hqs o
        obtain ⟨last, hq⟩ := ih q (hqs q List.mem_cons_self) (o :: opened)
          (qs.flatMap (·.2) ++ (r :: rest))
        rw [List.flatMap_cons, List.append_assoc, hq, delivered,
          ihq (fun p hp => hqs p (List.mem_cons_of_mem q hp))]
        simp [OpenList.add]
    refine ⟨r, ?_⟩
    rw [List.cons_append, List.append_assoc, List.singleton_append, readForm_left hl,
      hitems pieces (fun _ h => h), readForm_right hr]
    simp [OpenList.close]

/-- The tokens `ts` have opened the lists `opened`, innermost first, and spell the items that these
have so far. -/
inductive Opens : List OpenList → List Token → Prop
  | nil : Opens [] []
  | cons {opened : List OpenList} {ts : List Token} {l : Token}
      {pieces : List (Value × List Token)} (h : Opens opened ts) (hl : l.kind = .leftParen)
      (items : AllSpelled pieces) :
      Opens ({ source := l.source, items := (pieces.map (·.1)).reverse } :: opened)
        (ts ++ l :: pieces.flatMap (·.2))

theorem Opens.left (h : Opens opened ts) (hl : l.kind = .leftParen) :
    Opens ({ source := l.source } :: opened) (ts ++ [l]) := .cons h hl allSpelled_nil

/-- A form that is spelled behind becomes an item of the innermost list. -/
theorem Opens.add (h : Opens (o :: opened) ts) (hv : Spells v us) :
    Opens (o.add v :: opened) (ts ++ us) := by
  cases h with
  | @cons _ ts l pieces h hl items =>
    have := Opens.cons h hl (allSpelled_concat items (p := (v, us)) hv)
    simpa [OpenList.add] using this

/-- A closing parenthesis completes the innermost list. -/
theorem Opens.close (h : Opens (o :: opened) ts) (hr : r.kind = .rightParen) :
    ∃ outer us, ts ++ [r] = outer ++ us ∧ Opens opened outer ∧ Spells o.close us := by
  cases h with
  | @cons _ outer l pieces h hl items =>
    refine ⟨outer, l :: (pieces.flatMap (·.2) ++ [r]), by simp, h, ?_⟩
    have := Spells.list hl items hr
    simpa [OpenList.close] using this

/-- A form that was read is spelled by the tokens read, those that opened the lists it is in
included. -/
theorem spells_of_readForm (hts : ∀ t ∈ ts, t.IsLexeme) {done : List Token}
    (hopen : Opens opened done) (h : (readForm final opened ts).result = .ok v) :
    ∃ used, ts = used ++ (readForm final opened ts).rest ∧ Spells v (done ++ used) := by
  induction ts generalizing opened done with
  | nil => cases h
  | cons t ts ih =>
    have hts' : ∀ t ∈ ts, t.IsLexeme := fun u hu => hts u (List.mem_cons_of_mem t hu)
    have ih := fun opened done => @ih opened hts' done
    -- behind a form that is spelled by `us`, the last of them `t`, reading is over or goes on
    have hdeliver : ∀ {opened outer us w}, Opens opened outer → Spells w us →
        outer ++ us = done ++ [t] → (delivered final w t ts opened).result = .ok v →
        ∃ used, t :: ts = used ++ (delivered final w t ts opened).rest ∧
          Spells v (done ++ used) := by
      intro opened outer us w hopen hw heq h
      cases opened with
      | nil =>
        cases hopen
        obtain rfl := Except.ok.inj h
        exact ⟨[t], rfl, heq ▸ hw⟩
      | cons o opened =>
        obtain ⟨used, hused, hv⟩ := ih _ _ (hopen.add hw) h
        refine ⟨t :: used, congrArg (t :: ·) hused, ?_⟩
        rw [heq] at hv
        simpa using hv
    rcases (hts t List.mem_cons_self).cases with hk | hk | ⟨s, hs⟩
    · rw [readForm_left hk] at h ⊢
      obtain ⟨used, hused, hv⟩ := ih _ _ (hopen.left hk) h
      exact ⟨t :: used, congrArg (t :: ·) hused, by simpa using hv⟩
    · cases opened with
      | nil =>
        rw [readForm_unopened hk] at h
        cases h
      | cons o opened =>
        rw [readForm_right hk] at h ⊢
        obtain ⟨outer, us, heq, hopen', hw⟩ := hopen.close hk
        exact hdeliver hopen' hw heq.symm h
    · rw [readForm_scalar hs] at h ⊢
      exact hdeliver hopen (.scalar hs) rfl h

/-! ## Forms to the end -/

/-- At the end there are no more forms. -/
theorem readForms_of_end (h : (ts.headD final).kind = .eof) (last : Option Token) :
    readForms final seen last ts = { result := .ok seen.reverse, last, rest := ts } := by
  unfold readForms
  rw [if_pos h]

/-- A form that is read comes before those behind it. -/
theorem readForms_of_ok (hne : (ts.headD final).kind ≠ .eof)
    (h : (readForm final [] ts).result = .ok v) (last : Option Token) :
    readForms final seen last ts =
      readForms final (v :: seen) (readForm final [] ts).last (readForm final [] ts).rest := by
  conv => lhs; unfold readForms
  rw [if_neg hne]
  dsimp only
  split
  · rename_i w hw
    obtain rfl := Except.ok.inj (hw.symm.trans h)
    rfl
  · rename_i e he
    rw [h] at he
    cases he

/-- The first form that is not read decides. -/
theorem readForms_of_error (hne : (ts.headD final).kind ≠ .eof)
    (h : (readForm final [] ts).result = .error e) (last : Option Token) :
    (readForms final seen last ts).result = .error e := by
  unfold readForms
  rw [if_neg hne]
  dsimp only
  split
  · rename_i w hw
    rw [h] at hw
    cases hw
  · rename_i e' he
    obtain rfl := Except.error.inj (he.symm.trans h)
    rfl

/-- **Reading to the end** reads forms up to the end, or up to tokens that are no form. -/
theorem readForms_cases (hts : ∀ t ∈ ts, t.IsLexeme) (final : Token) (seen : List Value)
    (last : Option Token) :
    ∃ pieces rest, AllSpelled pieces ∧ ts = pieces.flatMap (·.2) ++ rest ∧
      (rest = [] ∧ final.kind = .eof ∧
          (readForms final seen last ts).result = .ok (seen.reverse ++ pieces.map (·.1)) ∨
        (rest = [] → final.kind ≠ .eof) ∧ ∃ e, (readForm final [] rest).result = .error e ∧
          (readForms final seen last ts).result = .error e) := by
  induction hn : ts.length using Nat.strongRecOn generalizing ts seen last with
  | ind n ih =>
    subst hn
    by_cases hend : (ts.headD final).kind = .eof
    · rw [readForms_of_end hend]
      cases ts with
      | nil => exact ⟨[], [], allSpelled_nil, rfl, .inl ⟨rfl, hend, by simp⟩⟩
      | cons t ts => exact absurd hend (hts t List.mem_cons_self).not_final.1
    cases hread : (readForm final [] ts).result with
    | error e =>
      rw [readForms_of_error hend hread]
      refine ⟨[], ts, allSpelled_nil, rfl, .inr ⟨?_, e, hread, rfl⟩⟩
      rintro rfl
      exact hend
    | ok v =>
      rw [readForms_of_ok hend hread]
      obtain ⟨used, hused, hv⟩ := spells_of_readForm hts .nil hread
      have hrest : ∀ t ∈ (readForm final [] ts).rest, t.IsLexeme := by
        intro t ht
        refine hts t ?_
        rw [hused]
        exact List.mem_append_right used ht
      obtain ⟨pieces, rest, hall, hpieces, hresult⟩ :=
        ih _ (length_rest_lt_of_readForm hread) hrest (v :: seen) _ rfl
      refine ⟨(v, used) :: pieces, rest, allSpelled_cons.2 ⟨hv, hall⟩, ?_, ?_⟩
      · rw [List.flatMap_cons, List.append_assoc, ← hpieces]
        exact hused
      · simpa using hresult

/-- Tokens that spell values are read as these values. -/
theorem readForms_of_spells (h : AllSpelled pieces) (hfinal : final.kind = .eof)
    (seen : List Value) (last : Option Token) :
    (readForms final seen last (pieces.flatMap (·.2))).result =
      .ok (seen.reverse ++ pieces.map (·.1)) := by
  induction pieces generalizing seen last with
  | nil =>
    have hend : (([] : List Token).headD final).kind = .eof := hfinal
    rw [List.flatMap_nil, readForms_of_end hend]
    simp
  | cons p pieces ih =>
    obtain ⟨hp, h⟩ := allSpelled_cons.1 h
    obtain ⟨t, us, hus, ht⟩ := hp.head
    obtain ⟨last', hread⟩ := readForm_of_spells hp final [] (pieces.flatMap (·.2))
    rw [List.flatMap_cons]
    rw [readForms_of_ok (v := p.1) (by simpa [hus] using ht) (by rw [hread]; rfl), hread]
    rw [delivered, ih h]
    simp

/-- **A source that is read to its end is split into tokens that spell the forms**, and nothing else
is in it. -/
theorem allSpelled_of_readAll {file bytes : Text} {failure : Option Text}
    (h : readAll file bytes failure = .ok vs) :
    ∃ pieces, AllSpelled pieces ∧ vs = pieces.map (·.1) ∧
      tokenize file bytes failure = (pieces.flatMap (·.2), none) ∧
      ∀ t ∈ pieces.flatMap (·.2), t.IsLexeme := by
  have hts : ∀ t ∈ (tokensFrom (Cursor.ofText file bytes failure)).1, t.IsLexeme :=
    fun _ => isLexeme_of_mem
  obtain ⟨pieces, rest, hall, htokens, ⟨rfl, hend, hok⟩ | ⟨-, e, -, herror⟩⟩ :=
    readForms_cases hts (tokensFrom (Cursor.ofText file bytes failure)).2.2 [] none
  · rw [List.append_nil] at htokens
    refine ⟨pieces, hall, (Except.ok.inj (hok.symm.trans h)).symm, ?_, htokens ▸ hts⟩
    rw [tokenize_eq, if_pos (fault_of_final hend), htokens]
  · cases herror.symm.trans h

end TinyLisp
