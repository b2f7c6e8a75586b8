import TinyLisp.Proofs.PathPrinter
import TinyLisp.Proofs.Validity
import TinyLisp.Value.Equality

/-!
# Equality as a relation

`Value.Same` says when values are the same by content and by identity: scalars and lists by content,
closures by the closure they are, atoms by cell and built-in functions by name. There is no rule for
`Value.invalid`. The comparison `Value.equal` decides this relation, so what is shown of the
relation by induction on it holds of the comparison.

* `equal_iff_same`: the comparison decides the relation.
* `Value.Valid.same`, `Value.Same.symm`, `Value.Same.trans`: on valid values it is an equivalence.
* `Value.Same.render_eq`: the same values are printed alike, whatever the cells hold.
-/

namespace TinyLisp

/-- The values are the same by content and by identity. -/
inductive Value.Same : Value → Value → Prop
  | scalar {source source' : Option Location} {s : Scalar} :
      Same (.scalar source s) (.scalar source' s)
  | list {source source' : Option Location} {vs ws : List Value} (hlength : vs.length = ws.length)
      (hitems : ∀ i (hv : i < vs.length) (hw : i < ws.length), Same vs[i] ws[i]) :
      Same (.list source vs) (.list source' ws)
  | closure {identity : Nat} {formals formals' : List Text} {body body' : Value} {e e' : ScopeId} :
      Same (.closure identity formals body e) (.closure identity formals' body' e')
  | builtin {b b' : Builtin} (hname : b.name = b'.name) : Same (.builtin b) (.builtin b')
  | atom {c : CellId} : Same (.atom c) (.atom c)

namespace Value

variable {u v w : Value}

/-! ## An equivalence -/

/-- A value that is valid is the same as itself. -/
theorem Valid.same (h : v.Valid) : v.Same v := by
  induction h with
  | scalar => exact .scalar
  | list _ ih => exact .list rfl fun _ hv _ => ih _ (List.getElem_mem hv)
  | closure => exact .closure
  | builtin => exact .builtin rfl
  | atom => exact .atom

/-- Being the same is symmetric, by the rules. -/
theorem Same.symm (h : v.Same w) : w.Same v := by
  induction h with
  | scalar => exact .scalar
  | list hlength _ ih => exact .list hlength.symm fun i hw hv => ih i hv hw
  | closure => exact .closure
  | builtin hname => exact .builtin hname.symm
  | atom => exact .atom

/-- Being the same is transitive, by the rules. -/
theorem Same.trans (h : u.Same v) (h' : v.Same w) : u.Same w := by
  induction h generalizing w with
  | scalar => cases h'; exact .scalar
  | list hlength _ ih =>
    cases h' with
    | list hlength' hitems =>
      refine .list (hlength.trans hlength') fun i hu hw => ?_
      have hv := hlength ▸ hu
      exact ih i hu hv (hitems i hv hw)
  | closure => cases h'; exact .closure
  | builtin hname =>
    cases h' with
    | builtin hname' => exact .builtin (hname.trans hname')
  | atom => exact h'

/-! ## The comparison -/

theorem equalItems_cons {vs ws : List Value} :
    equalItems (v :: vs) (w :: ws) = true ↔ v.equal w = true ∧ equalItems vs ws = true := by
  rw [equalItems, Bool.and_eq_true]

/-- Lists are equal if they are equally long and equal at every index. -/
theorem equalItems_iff {vs ws : List Value} : equalItems vs ws = true ↔
    vs.length = ws.length ∧
      ∀ i (hv : i < vs.length) (hw : i < ws.length), vs[i].equal ws[i] = true := by
  induction vs generalizing ws with
  | nil => cases ws <;> simp [equalItems]
  | cons v vs ih =>
    cases ws with
    | nil => simp [equalItems]
    | cons w ws =>
      rw [equalItems_cons, ih]
      constructor
      · rintro ⟨hfirst, hlength, hrest⟩
        refine ⟨congrArg (· + 1) hlength, fun i hv hw => ?_⟩
        cases i with
        | zero => exact hfirst
        | succ i => exact hrest i (Nat.lt_of_succ_lt_succ hv) (Nat.lt_of_succ_lt_succ hw)
      · rintro ⟨hlength, hitems⟩
        refine ⟨hitems 0 (Nat.zero_lt_succ _) (Nat.zero_lt_succ _),
          Nat.succ.inj hlength, fun i hv hw => ?_⟩
        exact hitems (i + 1) (Nat.succ_lt_succ hv) (Nat.succ_lt_succ hw)

/-- Values that compare as equal are the same. -/
theorem same_of_equal (v w : Value) (h : v.equal w = true) : v.Same w := by
  -- values of different kinds are not equal, so one case is left for each kind but the invalid one
  cases v <;> cases w <;> simp only [equal, beq_iff_eq, Bool.false_eq_true] at h
  case scalar => exact h ▸ .scalar
  case list source vs source' ws =>
    obtain ⟨hlength, hitems⟩ := equalItems_iff.1 h
    exact .list hlength fun i hv hw => same_of_equal vs[i] ws[i] (hitems i hv hw)
  case closure => exact h ▸ .closure
  case builtin => exact .builtin h
  case atom => exact h ▸ .atom
termination_by sizeOf v
decreasing_by
  subst_vars
  have := List.sizeOf_lt_of_mem (List.getElem_mem hv)
  simp only [list.sizeOf_spec]
  omega

/-- Values that are the same compare as equal. -/
theorem Same.equal (h : v.Same w) : v.equal w = true := by
  induction h with
  | list hlength _ ih =>
    rw [Value.equal]
    exact equalItems_iff.2 ⟨hlength, ih⟩
  | builtin hname => rw [Value.equal, hname, beq_self_eq_true]
  | _ => rw [Value.equal, beq_self_eq_true]

/-- **The comparison decides whether values are the same.** -/
theorem equal_iff_same : v.equal w = true ↔ v.Same w := ⟨same_of_equal v w, Same.equal⟩

/-! ## Printing -/

section Render

variable {cells : Array Value} {path : List CellId}

theorem renderItemsOnto_congr {vs ws : List Value} (hlength : vs.length = ws.length)
    (h : ∀ i (hv : i < vs.length) (hw : i < ws.length), ∀ rest,
      vs[i].renderOnto cells path rest = ws[i].renderOnto cells path rest) (rest : Text) :
    renderItemsOnto cells path vs rest = renderItemsOnto cells path ws rest := by
  induction vs generalizing ws with
  | nil => rw [List.length_eq_zero_iff.1 hlength.symm]
  | cons v vs ih =>
    obtain ⟨w, ws, rfl⟩ := List.exists_cons_of_length_eq_add_one hlength.symm
    have hlength := Nat.add_right_cancel hlength
    have hfirst := h 0 (Nat.zero_lt_succ _) (Nat.zero_lt_succ _)
    have hrest := ih hlength fun i hv hw => h (i + 1) (Nat.succ_lt_succ hv) (Nat.succ_lt_succ hw)
    simp only [List.getElem_cons_zero] at hfirst
    -- a space is printed on both sides or on neither
    cases vs with
    | nil =>
      obtain rfl := List.length_eq_zero_iff.1 hlength.symm
      rw [renderItemsOnto, renderItemsOnto, hfirst]
    | cons v' vs =>
      obtain ⟨w', ws, rfl⟩ := List.exists_cons_of_length_eq_add_one hlength.symm
      rw [renderItemsOnto, renderItemsOnto, hrest, hfirst]

/-- Values that are the same are printed alike, whatever the cells hold and whichever are open. -/
theorem Same.renderOnto_eq (h : v.Same w) (rest : Text) :
    v.renderOnto cells path rest = w.renderOnto cells path rest := by
  induction h generalizing rest with
  | list hlength _ ih => rw [renderOnto, renderOnto, renderItemsOnto_congr hlength ih]
  | builtin hname => rw [renderOnto, renderOnto, hname]
  | atom => rfl
  | _ => rw [renderOnto, renderOnto]

/-- **The same values are printed alike**, whatever the cells hold. An atom is printed along with
its contents, so this rests on atoms of the same cell having the same contents. -/
theorem Same.render_eq (h : v.Same w) (cells : Array Value) : v.render cells = w.render cells := by
  rw [Value.render_eq, Value.render_eq, h.renderOnto_eq]

end Render

end Value

end TinyLisp
