import TinyLisp.Proofs.Bounds

/-!
# What a name means from a scope

The chain of a scope leads from the scope itself over its parent up to a root. A name has the value
that the nearest scope of the chain gives it, so that a new binding can be seen from a scope exactly
where the bound scope is on the chain and no nearer one binds the name.

* `Scopes.Chain`: the chain of a scope; there is one, and only one.
* `Scopes.Chain.lookup_eq`: looking a name up searches the chain.
* `Scopes.Sees`: the way up to a scope is free of bindings of a name.
* `lookup_bind`: the laws of looking up and binding.
-/

namespace TinyLisp

namespace Scope

variable {scope : Scope} {name : Text} {v : Value}

theorem lookup_replace_eq (bindings : List (Text × Value)) (name name' : Text) (v : Value) :
    (replace name v bindings).lookup name' =
      if name' = name then (bindings.lookup name).map fun _ => v else bindings.lookup name' := by
  induction bindings with
  | nil => simp [replace]
  | cons b bindings ih =>
    obtain ⟨n, w⟩ := b
    have hcons : replace name v ((n, w) :: bindings) =
        (n, if n = name then v else w) :: replace name v bindings := by
      by_cases hn : n = name <;> simp [replace, hn]
    rw [hcons, List.lookup_cons, List.lookup_cons, List.lookup_cons, ih]
    by_cases hname : name' = name
    · by_cases hn : n = name
      · simp [hname, hn]
      · simp [hname, beq_eq_false_iff_ne.2 (Ne.symm hn)]
    · by_cases hn : name' = n
      · have hn' : n ≠ name := fun h => hname (hn.trans h)
        simp [hn, hn']
      · simp [hname, beq_eq_false_iff_ne.2 hn]

/-- Binding a name in a scope changes what the scope gives this name and no other. -/
theorem find_put (scope : Scope) (name name' : Text) (v : Value) :
    (scope.put name v).find? name' = if name' = name then some v else scope.find? name' := by
  unfold put find?
  split
  · rename_i hbound
    obtain ⟨w, hw⟩ := Option.isSome_iff_exists.1 hbound
    rw [lookup_replace_eq, hw]
    rfl
  · rw [List.lookup_cons]
    by_cases hname : name' = name
    · simp [hname]
    · simp [hname, beq_eq_false_iff_ne.2 hname]

theorem parent_put (scope : Scope) (name : Text) (v : Value) :
    (scope.put name v).parent = scope.parent := (scope.extends_put name v).parent

end Scope

namespace Scopes

/-- The value that the scope `e` itself binds to a name. -/
def bound? (scopes : Scopes) (e : ScopeId) (name : Text) : Option Value :=
  scopes[e]?.bind (·.find? name)

/-- Every scope was made after its parent, so that the scopes form trees. -/
def ParentsFirst (scopes : Scopes) : Prop :=
  ∀ (e : ScopeId) scope p, scopes[e]? = some scope → scope.parent = some p → p < e

/-- From a scope up to a root: the scope itself, its parent, and so on. -/
inductive Chain (scopes : Scopes) : ScopeId → List ScopeId → Prop where
  | root {e : ScopeId} {scope : Scope} (hscope : scopes[e]? = some scope)
      (hp : scope.parent = none) : Chain scopes e [e]
  | parent {e p : ScopeId} {scope : Scope} {above : List ScopeId} (hscope : scopes[e]? = some scope)
      (hp : scope.parent = some p) (h : Chain scopes p above) : Chain scopes e (e :: above)

/-- The scope `e` is on the chain of `d`, and no scope on the way up to it binds the name. -/
def Sees (scopes : Scopes) (d e : ScopeId) (name : Text) : Prop :=
  ∃ near far, scopes.Chain d (near ++ e :: far) ∧ ∀ f ∈ near, scopes.bound? f name = none

variable {scopes : Scopes} {d e : ScopeId} {name : Text} {v : Value} {chain : List ScopeId}

/-! ## Chains -/

theorem ParentsFirst.exists_chain (h : scopes.ParentsFirst) (he : e < scopes.size) :
    ∃ chain, scopes.Chain e chain := by
  induction e using Nat.strong_induction_on with
  | _ e ih =>
    have hget := Array.getElem?_eq_getElem he
    cases hp : scopes[e].parent with
    | none => exact ⟨[e], .root hget hp⟩
    | some p =>
      have hlt := h e _ p hget hp
      obtain ⟨above, habove⟩ := ih p hlt (Nat.lt_trans hlt he)
      exact ⟨e :: above, .parent hget hp habove⟩

theorem Chain.unique {chain' : List ScopeId} (h : scopes.Chain e chain)
    (h' : scopes.Chain e chain') : chain = chain' := by
  induction h generalizing chain' with
  | root hscope hp =>
    cases h' with
    | root => rfl
    | parent hscope' hp' _ =>
      obtain rfl := Option.some.inj (hscope.symm.trans hscope')
      rw [hp] at hp'
      cases hp'
  | parent hscope hp _ ih =>
    cases h' with
    | root hscope' hp' =>
      obtain rfl := Option.some.inj (hscope.symm.trans hscope')
      rw [hp] at hp'
      cases hp'
    | parent hscope' hp' habove =>
      obtain rfl := Option.some.inj (hscope.symm.trans hscope')
      obtain rfl := Option.some.inj (hp.symm.trans hp')
      rw [ih habove]

section Parents

variable {scopes' : Scopes}

/-- The chain of a scope depends on the parents only. -/
theorem Chain.of_parents (h : scopes.Chain d chain)
    (hparents : ∀ f : ScopeId, scopes'[f]?.map Scope.parent = scopes[f]?.map Scope.parent) :
    scopes'.Chain d chain := by
  have hkept : ∀ {f : ScopeId} {scope : Scope}, scopes[f]? = some scope →
      ∃ scope', scopes'[f]? = some scope' ∧ scope'.parent = scope.parent := by
    intro f scope hscope
    have hf := hparents f
    rw [hscope] at hf
    exact Option.map_eq_some_iff.1 hf
  induction h with
  | root hscope hp =>
    obtain ⟨scope', hscope', hparent⟩ := hkept hscope
    exact .root hscope' (hparent.trans hp)
  | parent hscope hp _ ih =>
    obtain ⟨scope', hscope', hparent⟩ := hkept hscope
    exact .parent hscope' (hparent.trans hp) ih

theorem ParentsFirst.of_parents (h : scopes.ParentsFirst)
    (hparents : ∀ f : ScopeId, scopes'[f]?.map Scope.parent = scopes[f]?.map Scope.parent) :
    scopes'.ParentsFirst := by
  intro f scope p hscope hp
  have hf := hparents f
  rw [hscope] at hf
  obtain ⟨scope', hscope', hparent⟩ := Option.map_eq_some_iff.1 hf.symm
  exact h f scope' p hscope' (hparent.trans hp)

end Parents

theorem Chain.mem_self (h : scopes.Chain e chain) : e ∈ chain := by
  cases h <;> exact List.mem_cons_self

/-- **Looking a name up searches the chain**, the nearest scope first. -/
theorem Chain.lookup_eq (h : scopes.Chain e chain) (hfirst : scopes.ParentsFirst) (name : Text) :
    scopes.lookup e name = chain.findSome? (scopes.bound? · name) := by
  induction h with
  | @root e scope hscope hp =>
    rw [lookup, List.findSome?_cons, bound?]
    simp only [hscope, hp, Option.bind_some]
    cases scope.find? name <;> rfl
  | @parent e p scope above hscope hp _ ih =>
    rw [lookup, List.findSome?_cons, bound?]
    simp only [hscope, hp, Option.bind_some, if_pos (hfirst e scope p hscope hp), ih]
    cases scope.find? name <;> rfl

/-! ## Binding -/

theorem bound_put (he : e < scopes.size) (f : ScopeId) (name name' : Text) (v : Value) :
    (scopes.put e name v).bound? f name' =
      if f = e ∧ name' = name then some v else scopes.bound? f name' := by
  unfold bound?
  rw [getElem?_put]
  by_cases hf : f = e
  · subst hf
    rw [Array.getElem?_eq_getElem he]
    simp only [if_true, true_and, Option.map_some, Option.bind_some, Scope.find_put]
  · simp only [hf, Ne.symm hf, if_false, false_and]

theorem put_of_size_le (he : scopes.size ≤ e) (name : Text) (v : Value) :
    scopes.put e name v = scopes := by
  apply Array.ext_getElem?
  intro f
  rw [getElem?_put]
  split
  · rename_i hf
    rw [Array.getElem?_eq_none (hf ▸ he)]
    rfl
  · rfl

/-- A scope may have a new binding, but it has the parent that it had. -/
theorem parents_put (e : ScopeId) (name : Text) (v : Value) (f : ScopeId) :
    ((scopes.put e name v)[f]?).map Scope.parent = scopes[f]?.map Scope.parent := by
  rw [getElem?_put]
  split
  · cases scopes[f]? with
    | none => rfl
    | some scope => exact congrArg some (scope.parent_put name v)
  · rfl

theorem Chain.put (h : scopes.Chain d chain) (e : ScopeId) (name : Text) (v : Value) :
    (scopes.put e name v).Chain d chain := h.of_parents (parents_put e name v)

theorem ParentsFirst.put (h : scopes.ParentsFirst) (e : ScopeId) (name : Text) (v : Value) :
    (scopes.put e name v).ParentsFirst := h.of_parents (parents_put e name v)

/-- A binding of `e` is found if the way up to `e` is free of others. -/
theorem findSome_put_of_free (he : e < scopes.size) (name : Text) (v : Value)
    {near : List ScopeId} (far : List ScopeId)
    (hnear : ∀ f ∈ near, scopes.bound? f name = none) :
    (near ++ e :: far).findSome? ((scopes.put e name v).bound? · name) = some v := by
  induction near with
  | nil => simp [bound_put he]
  | cons f near ih =>
    obtain ⟨hf, hnear⟩ := List.forall_mem_cons.1 hnear
    rw [List.cons_append, List.findSome?_cons, bound_put he, ih hnear, hf]
    split
    · rename_i heq
      split at heq <;> simp_all
    · rfl

/-- A binding of `e` makes no difference if `e` is not there or is behind another binding. -/
theorem findSome_put_of_hidden (he : e < scopes.size) (name : Text) (v : Value)
    (hhidden : ∀ near far, chain = near ++ e :: far →
      ∃ f ∈ near, scopes.bound? f name ≠ none) :
    chain.findSome? ((scopes.put e name v).bound? · name) =
      chain.findSome? (scopes.bound? · name) := by
  induction chain with
  | nil => rfl
  | cons f chain ih =>
    have hf : f ≠ e := by
      rintro rfl
      obtain ⟨g, hg, -⟩ := hhidden [] chain rfl
      cases hg
    rw [List.findSome?_cons, List.findSome?_cons, bound_put he]
    simp only [hf, false_and, if_false]
    cases hbound : scopes.bound? f name with
    | some w => rfl
    | none =>
      refine ih fun near far hsplit => ?_
      obtain ⟨g, hg, hne⟩ := hhidden (f :: near) far (by rw [hsplit]; rfl)
      rcases List.mem_cons.1 hg with rfl | hg
      · exact absurd hbound hne
      · exact ⟨g, hg, hne⟩

theorem Chain.lt_size (h : scopes.Chain d chain) {f : ScopeId} (hf : f ∈ chain) :
    f < scopes.size := by
  induction h with
  | root hscope hp =>
    obtain rfl := List.mem_singleton.1 hf
    exact (Array.getElem?_eq_some_iff.1 hscope).1
  | parent hscope hp _ ih =>
    rcases List.mem_cons.1 hf with rfl | hf
    · exact (Array.getElem?_eq_some_iff.1 hscope).1
    · exact ih hf

/-- A name can be looked up if some scope of the chain binds it. -/
theorem Chain.isSome_lookup_iff (h : scopes.Chain d chain) (hfirst : scopes.ParentsFirst) :
    (scopes.lookup d name).isSome ↔ ∃ f ∈ chain, (scopes.bound? f name).isSome := by
  rw [h.lookup_eq hfirst, List.findSome?_isSome_iff]

/-- **A name has the value of the nearest scope that binds it.** -/
theorem Chain.lookup_eq_some_iff (h : scopes.Chain d chain) (hfirst : scopes.ParentsFirst) :
    scopes.lookup d name = some v ↔ ∃ f, scopes.Sees d f name ∧ scopes.bound? f name = some v := by
  rw [h.lookup_eq hfirst, List.findSome?_eq_some_iff]
  constructor
  · rintro ⟨near, f, far, rfl, hbound, hnear⟩
    exact ⟨f, ⟨near, far, h, hnear⟩, hbound⟩
  · rintro ⟨f, ⟨near, far, hchain, hnear⟩, hbound⟩
    exact ⟨near, f, far, h.unique hchain, hbound, hnear⟩

theorem lookup_put_of_sees (hfirst : scopes.ParentsFirst) (h : scopes.Sees d e name) (v : Value) :
    (scopes.put e name v).lookup d name = some v := by
  obtain ⟨near, far, hchain, hnear⟩ := h
  have he : e < scopes.size := hchain.lt_size (List.mem_append_right _ List.mem_cons_self)
  rw [(hchain.put e name v).lookup_eq (hfirst.put e name v)]
  exact findSome_put_of_free he name v far hnear

theorem lookup_put_of_not_sees (hfirst : scopes.ParentsFirst) (hchain : scopes.Chain d chain)
    {name' : Text} (h : ¬(name' = name ∧ scopes.Sees d e name)) (v : Value) :
    (scopes.put e name v).lookup d name' = scopes.lookup d name' := by
  rw [(hchain.put e name v).lookup_eq (hfirst.put e name v), hchain.lookup_eq hfirst]
  by_cases hname : name' = name
  · subst hname
    by_cases he : e < scopes.size
    · refine findSome_put_of_hidden he name' v fun near far hsplit => ?_
      by_contra hfree
      push Not at hfree
      exact h ⟨rfl, near, far, hsplit ▸ hchain, hfree⟩
    · rw [put_of_size_le (Nat.not_lt.1 he)]
  · congr 1
    funext f
    by_cases he : e < scopes.size
    · simp only [bound_put he, hname, and_false, if_false]
    · rw [put_of_size_le (Nat.not_lt.1 he)]

end Scopes

open State

/-- **The laws of looking up and binding.** A name has the value that the nearest scope of the chain
gives it, and it is unbound if no scope of the chain binds it. After binding a name in the scope `e`,
that name has the new value from every scope that sees `e`, which is to say that `e` is on its chain
and no nearer scope binds the name; from every other scope, and for every other name, everything is
as it was. -/
theorem lookup_bind {s : State} (h : s.scopes.ParentsFirst) (e : ScopeId) {d : ScopeId}
    (hd : d < s.scopes.size) (n m : Text) (v : Value) :
    (∃ chain, s.scopes.Chain d chain ∧
      ∀ fault, s.lookup d m = .error fault ↔
        fault = .unbound m ∧ ∀ f ∈ chain, s.scopes.bound? f m = none) ∧
    (∀ w, s.lookup d m = .ok w ↔ ∃ f, s.scopes.Sees d f m ∧ s.scopes.bound? f m = some w) ∧
    (m = n ∧ s.scopes.Sees d e n → (s.bind e n v).lookup d m = .ok v) ∧
    (¬(m = n ∧ s.scopes.Sees d e n) → (s.bind e n v).lookup d m = s.lookup d m) := by
  obtain ⟨chain, hchain⟩ := h.exists_chain hd
  have hok : ∀ {t : State} {w : Value}, t.lookup d m = .ok w ↔ t.scopes.lookup d m = some w := by
    intro t w
    unfold State.lookup
    cases t.scopes.lookup d m <;> simp
  have herror : ∀ fault, s.lookup d m = .error fault ↔
      fault = .unbound m ∧ s.scopes.lookup d m = none := by
    intro fault
    unfold State.lookup
    cases s.scopes.lookup d m <;> simp [eq_comm]
  refine ⟨⟨chain, hchain, fun fault => ?_⟩, fun w => ?_, ?_, fun hnot => ?_⟩
  · rw [herror, hchain.lookup_eq h, List.findSome?_eq_none_iff]
  · rw [hok, hchain.lookup_eq_some_iff h]
  · rintro ⟨rfl, hsees⟩
    exact hok.2 (Scopes.lookup_put_of_sees h hsees v)
  · unfold State.lookup
    rw [show (s.bind e n v).scopes.lookup d m = s.scopes.lookup d m from
      Scopes.lookup_put_of_not_sees h hchain hnot v]

/-- Of two scopes below the same parent, one binds a name itself: a new binding in the parent can be
seen from the other one only. -/
theorem lookup_bind_siblings : ∃ s : State, s.scopes.ParentsFirst ∧
    s.scopes.Chain 2 [2, 1, 0] ∧ s.scopes.Chain 3 [3, 1, 0] ∧
    s.lookup 2 "x" = .ok (.int 2) ∧ s.lookup 3 "x" = .ok (.int 1) ∧
    (s.bind 1 "x" (.int 5)).lookup 2 "x" = .ok (.int 2) ∧
    (s.bind 1 "x" (.int 5)).lookup 3 "x" = .ok (.int 5) := by
  let s : State := { scopes := #[{ parent := none, bindings := [("x", .int 1)] },
    { parent := some 0 }, { parent := some 1, bindings := [("x", .int 2)] }, { parent := some 1 }] }
  have hfirst : s.scopes.ParentsFirst := by
    intro e scope p hscope hp
    obtain ⟨he, rfl⟩ := Array.getElem?_eq_some_iff.1 hscope
    have hlt : e < 4 := he
    interval_cases e <;> cases hp <;> decide
  have hone : s.scopes.Chain 1 [1, 0] := .parent rfl rfl (.root rfl rfl)
  have htwo : s.scopes.Chain 2 [2, 1, 0] := .parent rfl rfl hone
  have hthree : s.scopes.Chain 3 [3, 1, 0] := .parent rfl rfl hone
  have hsees : s.scopes.Sees 3 1 "x" := ⟨[3], [0], hthree, by decide⟩
  have hhidden : ¬s.scopes.Sees 2 1 "x" := by
    rintro ⟨near, far, hchain, hnear⟩
    have hsplit := hchain.unique htwo
    cases near with
    | nil => cases hsplit
    | cons f near =>
      obtain ⟨rfl, -⟩ := List.cons.inj hsplit
      exact absurd (hnear 2 List.mem_cons_self) (by decide)
  obtain ⟨-, hok, -, hkept⟩ := lookup_bind hfirst 1 (d := 2) (by decide) "x" "x" (.int 5)
  obtain ⟨-, hok', hseen, -⟩ := lookup_bind hfirst 1 (d := 3) (by decide) "x" "x" (.int 5)
  have hbelow : s.lookup 2 "x" = .ok (.int 2) := (hok _).2 ⟨2, ⟨[], [1, 0], htwo, nofun⟩, rfl⟩
  have hroot : s.lookup 3 "x" = .ok (.int 1) :=
    (hok' _).2 ⟨0, ⟨[3, 1], [], hthree, by decide⟩, rfl⟩
  refine ⟨s, hfirst, htwo, hthree, hbelow, hroot, ?_, hseen ⟨rfl, hsees⟩⟩
  rw [hkept fun h => hhidden h.2, hbelow]

end TinyLisp
