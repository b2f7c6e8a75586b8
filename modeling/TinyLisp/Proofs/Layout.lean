import TinyLisp.Proofs.Parentheses
import TinyLisp.Proofs.Unplaced

/-!
# Reading does not look at places

The reader looks at the class and the text of a token (`Token.face`). Where the token is goes into
the values that are read and into the error of a source that does not read, and nowhere else. So
sources whose tokens look the same are read as the same values up to places, or not read for the
same reason: blanks, line ends and the name of the file make no difference.

* `readForm_unplaced`: one form.
* `readForms_unplaced`: all forms.
* `readOne_unplaced`, `readAll_unplaced`: sources.
-/

namespace TinyLisp

/-- What a token looks like wherever it is. -/
def Token.face (t : Token) : Token.Kind × Text := (t.kind, t.text)

/-- The read error without places. -/
def ReadError.unplaced (e : ReadError) : ReadError :=
  { e with source := none, got := { e.got with source := default } }

/-- What reading a form came to, without places. -/
def unplacedForm (result : Except ReadError Value) : Except ReadError Value :=
  (result.map Value.unplaced).mapError ReadError.unplaced

/-- What reading forms came to, without places. -/
def unplacedForms (result : Except ReadError (List Value)) : Except ReadError (List Value) :=
  (result.map (·.map Value.unplaced)).mapError ReadError.unplaced

/-- The items of the list that were read, without places. -/
def OpenList.bare (l : OpenList) : List Value := l.items.map Value.unplaced

section

variable {t t' final final' : Token} {ts ts' : List Token} {opened opened' : List OpenList}
  {v v' : Value}

theorem Token.kind_of_face (h : t.face = t'.face) : t.kind = t'.kind := congrArg Prod.fst h

theorem Token.text_of_face (h : t.face = t'.face) : t.text = t'.text := congrArg Prod.snd h

/-- The text of a read error behind its location is that of the error without places. -/
theorem ReadError.description_unplaced (e : ReadError) :
    e.unplaced.description = e.description := rfl

theorem ofToken_of_face (h : t.face = t'.face) : Scalar.ofToken? t = Scalar.ofToken? t' := by
  unfold Scalar.ofToken?
  rw [Token.kind_of_face h, Token.text_of_face h]

theorem unexpectedIn_unplaced (h : t.face = t'.face)
    (hopened : opened.map OpenList.bare = opened'.map OpenList.bare) :
    (unexpectedIn opened t).unplaced = (unexpectedIn opened' t').unplaced := by
  have hempty : opened.isEmpty = opened'.isEmpty := by
    rw [← List.isEmpty_map (f := OpenList.bare), hopened, List.isEmpty_map]
  obtain ⟨kind, text, source⟩ := t
  obtain ⟨kind', text', source'⟩ := t'
  obtain ⟨rfl, rfl⟩ := Prod.mk.inj h
  simp only [unexpectedIn, hempty]
  rfl

theorem close_unplaced {l l' : OpenList} (h : l.bare = l'.bare) :
    l.close.unplaced = l'.close.unplaced := by
  have hitems : l.items.map Value.unplaced = l'.items.map Value.unplaced := h
  simp only [OpenList.close, Value.unplaced_list, List.map_reverse, hitems]

/-- A token that is no form and no parenthesis. -/
theorem readForm_other (hl : t.kind ≠ .leftParen) (hr : t.kind ≠ .rightParen)
    (h : Scalar.ofToken? t = none) :
    readForm final opened (t :: ts) =
      { result := .error (unexpectedIn opened t), last := t, rest := ts } := by
  unfold readForm
  split
  · exact absurd ‹_› hl
  · exact absurd ‹_› hr
  · exact absurd ‹_› hr
  · rw [h]

/-- What becomes of the token in front: it opens a list, closes the innermost one, is a form by
itself, or cannot stand here. -/
theorem readForm_cons (final : Token) (opened : List OpenList) (t : Token) (ts : List Token) :
    (t.kind = .leftParen ∧ readForm final opened (t :: ts) =
      readForm final ({ source := t.source } :: opened) ts) ∨
    (t.kind = .rightParen ∧ ∃ l outer, opened = l :: outer ∧
      readForm final opened (t :: ts) = delivered final l.close t ts outer) ∨
    (∃ s, Scalar.ofToken? t = some s ∧ readForm final opened (t :: ts) =
      delivered final (.scalar (some t.source) s) t ts opened) ∨
    readForm final opened (t :: ts) =
      { result := .error (unexpectedIn opened t), last := t, rest := ts } := by
  by_cases hl : t.kind = .leftParen
  · exact .inl ⟨hl, readForm_left hl⟩
  by_cases hr : t.kind = .rightParen
  · cases opened with
    | nil => exact .inr (.inr (.inr (readForm_unopened hr)))
    | cons l outer => exact .inr (.inl ⟨hr, l, outer, rfl, readForm_right hr⟩)
  cases hs : Scalar.ofToken? t with
  | none => exact .inr (.inr (.inr (readForm_other hl hr hs)))
  | some s => exact .inr (.inr (.inl ⟨s, rfl, readForm_scalar hs⟩))

/-- Two readings that are the same up to places. -/
structure Reading.Alike (r r' : Reading) : Prop where
  result : unplacedForm r.result = unplacedForm r'.result
  rest : r.rest.map Token.face = r'.rest.map Token.face

/-- **Reading a form does not look at places.** -/
theorem readForm_unplaced (hfinal : final.face = final'.face)
    (hts : ts.map Token.face = ts'.map Token.face)
    (hopened : opened.map OpenList.bare = opened'.map OpenList.bare) :
    (readForm final opened ts).Alike (readForm final' opened' ts') := by
  induction ts generalizing ts' opened opened' with
  | nil =>
    obtain rfl := List.map_eq_nil_iff.1 hts.symm
    exact ⟨congrArg Except.error (unexpectedIn_unplaced hfinal hopened), rfl⟩
  | cons t ts ih =>
    obtain ⟨t', ts', rfl, ht, hts⟩ := List.map_eq_cons_iff.1 hts.symm
    have hkind := Token.kind_of_face ht
    -- a form that is complete goes into the innermost list
    have hdeliver : ∀ {v v' : Value} {opened opened' : List OpenList}, v.unplaced = v'.unplaced →
        opened.map OpenList.bare = opened'.map OpenList.bare →
        (delivered final v t ts opened).Alike (delivered final' v' t' ts' opened') := by
      intro v v' opened opened' hv hopened
      cases opened with
      | nil =>
        obtain rfl := List.map_eq_nil_iff.1 hopened.symm
        exact ⟨congrArg Except.ok hv, hts.symm⟩
      | cons l opened =>
        obtain ⟨l', opened', rfl, hl, hopened⟩ := List.map_eq_cons_iff.1 hopened.symm
        refine ih hts.symm (List.cons_eq_cons.2 ⟨?_, hopened.symm⟩)
        exact List.cons_eq_cons.2 ⟨hv, hl.symm⟩
    by_cases hl : t.kind = .leftParen
    · rw [readForm_left hl, readForm_left (hkind.trans hl)]
      exact ih hts.symm (List.cons_eq_cons.2 ⟨rfl, hopened⟩)
    by_cases hr : t.kind = .rightParen
    · cases opened with
      | nil =>
        obtain rfl := List.map_eq_nil_iff.1 hopened.symm
        rw [readForm_unopened hr, readForm_unopened (hkind.trans hr)]
        exact ⟨congrArg Except.error (unexpectedIn_unplaced ht.symm rfl), hts.symm⟩
      | cons l opened =>
        obtain ⟨l', opened', rfl, hl, hopened⟩ := List.map_eq_cons_iff.1 hopened.symm
        rw [readForm_right hr, readForm_right (hkind.trans hr)]
        exact hdeliver (close_unplaced hl.symm) hopened.symm
    cases hs : Scalar.ofToken? t with
    | none =>
      rw [readForm_other hl hr hs, readForm_other (hkind ▸ hl) (hkind ▸ hr)
        ((ofToken_of_face ht).trans hs)]
      exact ⟨congrArg Except.error (unexpectedIn_unplaced ht.symm hopened), hts.symm⟩
    | some s =>
      rw [readForm_scalar hs, readForm_scalar ((ofToken_of_face ht).trans hs)]
      exact hdeliver rfl hopened

theorem headD_face (hfinal : final.face = final'.face)
    (hts : ts.map Token.face = ts'.map Token.face) :
    (ts.headD final).face = (ts'.headD final').face := by
  cases ts with
  | nil =>
    obtain rfl := List.map_eq_nil_iff.1 hts.symm
    exact hfinal
  | cons t ts =>
    obtain ⟨t', ts', rfl, ht, -⟩ := List.map_eq_cons_iff.1 hts.symm
    exact ht.symm

/-- **Reading to the end does not look at places.** -/
theorem readForms_unplaced {seen seen' : List Value} (last last' : Option Token)
    (hfinal : final.face = final'.face) (hts : ts.map Token.face = ts'.map Token.face)
    (hseen : seen.map Value.unplaced = seen'.map Value.unplaced) :
    unplacedForms (readForms final seen last ts).result =
      unplacedForms (readForms final' seen' last' ts').result := by
  induction hn : ts.length using Nat.strongRecOn generalizing ts ts' seen seen' last last' with
  | ind n ih =>
    subst hn
    have hhead := Token.kind_of_face (headD_face hfinal hts)
    by_cases hend : (ts.headD final).kind = .eof
    · rw [readForms_of_end hend, readForms_of_end (hhead ▸ hend)]
      have hreverse : seen.reverse.map Value.unplaced = seen'.reverse.map Value.unplaced := by
        rw [List.map_reverse, hseen, List.map_reverse]
      exact congrArg Except.ok hreverse
    · have hend' : (ts'.headD final').kind ≠ .eof := hhead ▸ hend
      obtain ⟨hresult, hrest⟩ : (readForm final [] ts).Alike (readForm final' [] ts') :=
        readForm_unplaced hfinal hts rfl
      cases hread : (readForm final [] ts).result with
      | ok v =>
        cases hread' : (readForm final' [] ts').result with
        | ok v' =>
          rw [hread, hread'] at hresult
          rw [readForms_of_ok hend hread, readForms_of_ok hend' hread']
          refine ih _ (length_rest_lt_of_readForm hread) _ _ hrest ?_ rfl
          exact List.cons_eq_cons.2 ⟨Except.ok.inj hresult, hseen⟩
        | error e' =>
          rw [hread, hread'] at hresult
          cases hresult
      | error e =>
        cases hread' : (readForm final' [] ts').result with
        | ok v' =>
          rw [hread, hread'] at hresult
          cases hresult
        | error e' =>
          rw [hread, hread'] at hresult
          rw [readForms_of_error hend hread, readForms_of_error hend' hread']
          exact congrArg Except.error (Except.error.inj hresult)

end

/-! ## Sources -/

section

variable {file bytes file' bytes' : Text} {failure failure' : Option Text}
  (h : (tokenStream file bytes failure).map Token.face =
    (tokenStream file' bytes' failure').map Token.face)

include h

/-- Sources whose tokens look the same have as many, and what ends them looks the same. -/
theorem faces_of_tokenStream :
    (tokensFrom (Cursor.ofText file bytes failure)).1.map Token.face =
        (tokensFrom (Cursor.ofText file' bytes' failure')).1.map Token.face ∧
      (tokensFrom (Cursor.ofText file bytes failure)).2.2.face =
        (tokensFrom (Cursor.ofText file' bytes' failure')).2.2.face := by
  simp only [tokenStream, List.map_append, List.map_cons, List.map_nil] at h
  obtain ⟨hts, hfinal⟩ := List.append_inj' h rfl
  exact ⟨hts, List.head_eq_of_cons_eq hfinal⟩

/-- **The first form of a source does not depend on its layout or name.** -/
theorem readOne_unplaced :
    unplacedForm (readOne file bytes failure) = unplacedForm (readOne file' bytes' failure') := by
  obtain ⟨hts, hfinal⟩ := faces_of_tokenStream h
  exact (readForm_unplaced hfinal hts (Eq.refl (List.map OpenList.bare []))).result

/-- **The forms of a source do not depend on its layout or name.** -/
theorem readAll_unplaced :
    unplacedForms (readAll file bytes failure) = unplacedForms (readAll file' bytes' failure') := by
  obtain ⟨hts, hfinal⟩ := faces_of_tokenStream h
  exact readForms_unplaced none none hfinal hts (Eq.refl (List.map Value.unplaced []))

end

end TinyLisp
