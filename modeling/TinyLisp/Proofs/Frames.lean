import TinyLisp.Proofs.Sessions

/-!
# Evaluation writes only where scoping allows

A name is bound in the scope at hand, in a scope that a call, a `let*` or a `letrec` has just made, or
in the root, by an `eval`. Everything else that was there before is as it was (`State.Unaltered`):

* `reaches_unaltered`: evaluation that begins in the scopes `W` or in new ones binds names in these
  alone, and in the root if it comes to an `eval`.
* `Machine.OpensScope`: calls and `let` forms begin in a scope of their own, so that `W` is empty.
-/

namespace TinyLisp

open Machine State

/-- Every scope has the parent that it had, and every scope that is not in `W` has the bindings that it
had. -/
def State.Unaltered (W : ScopeId → Prop) (s t : State) : Prop :=
  ∀ e scope, s.scopes[e]? = some scope → ∃ scope', t.scopes[e]? = some scope' ∧
    scope'.parent = scope.parent ∧ (¬W e → scope'.bindings = scope.bindings)

/-- The scopes `W` and those that are not in the state. -/
def State.WithNew (s : State) (W : ScopeId → Prop) (e : ScopeId) : Prop := W e ∨ s.scopes.size ≤ e

section Within

variable {W : ScopeId → Prop} {s t : State}

theorem State.Grows.unaltered (h : s.Grows (.within (s.WithNew W)) t) : s.Unaltered W t := by
  intro e scope hscope
  obtain ⟨scope', hscope', hext, hkept⟩ := h.scopes e scope hscope
  refine ⟨scope', hscope', hext.parent, fun hW => ?_⟩
  have hlt := (Array.getElem?_eq_some_iff.1 hscope).1
  have hout : ¬(Bounds.within (s.WithNew W)).current e := by
    rintro (h | h)
    · exact hW h
    · exact absurd hlt (Nat.not_lt.2 h)
  rw [hkept hout]

theorem Bounds.allows_within (r : Ref) : (Bounds.within W).Allows r := by
  cases r <;> trivial

theorem Value.respects_within (v : Value) : v.Respects (.within W) :=
  (Value.respects_iff fun _ => trivial).2 fun r _ => Bounds.allows_within r

theorem respectAll_within (vs : List Value) : RespectAll (.within W) vs :=
  fun v _ => v.respects_within

theorem State.respects_within (s : State) : s.Respects (.within W) where
  parents _ _ _ _ _ _ := trivial
  bindings _ _ _ _ b _ := ⟨trivial, b.2.respects_within⟩
  cells _ v _ _ := v.respects_within

theorem Bounds.within_closed (σ : Setup) : (Bounds.within W).Closed σ := by
  have hhosts : ∀ host ∈ σ.hosts, Host.Within (fun _ => True) host :=
    fun _ _ _ _ _ _ => .inr trivial
  exact Bounds.closed_of_allows (fun _ => trivial) hhosts fun r _ => Bounds.allows_within r

/-- Whatever is made of a well-formed state, the root above a scope is the one root or a new scope. -/
theorem State.WellFormed.root_of_grows {B : Bounds} (hs : s.WellFormed) (h : s.Grows B t)
    (e : ScopeId) : t.scopes.root e = rootScope ∨ s.scopes.size ≤ t.scopes.root e := by
  -- a scope that was there has the parent that it had
  have hold : ∀ {e : ScopeId} {scope : Scope}, t.scopes[e]? = some scope → ¬s.scopes.size ≤ e →
      ∃ scope', s.scopes[e]? = some scope' ∧ scope.parent = scope'.parent := by
    intro e scope ht he
    have hget := Array.getElem?_eq_getElem (Nat.not_le.1 he)
    obtain ⟨scope', ht', hext, -⟩ := h.scopes e _ hget
    obtain rfl := Option.some.inj (ht.symm.trans ht')
    exact ⟨_, hget, hext.parent⟩
  fun_induction Scopes.root t.scopes e with
  | case1 e hnone =>
    have hsize := h.scopes_size
    have hle := Array.getElem?_eq_none_iff.1 hnone
    exact .inr (Nat.le_trans hsize hle)
  | case2 e scope hscope p hp hlt ih => exact ih
  | case3 e scope hscope p hp hle =>
    by_cases he : s.scopes.size ≤ e
    · exact .inr he
    · obtain ⟨scope', hscope', hparent⟩ := hold hscope he
      exact absurd (hs.parent_lt hscope' (hparent ▸ hp)) hle
  | case4 e scope hscope hnone =>
    by_cases he : s.scopes.size ≤ e
    · exact .inr he
    · obtain ⟨scope', hscope', hparent⟩ := hold hscope he
      left
      by_contra hne
      obtain ⟨p, hp, -⟩ := hs.parents e scope' hscope' hne
      rw [← hparent, hnone] at hp
      cases hp

/-- **Evaluation that begins in the scopes `W` or in new ones alters no other scope**, except for the
root if it comes to an `eval`. -/
theorem reaches_unaltered {m m' : Machine} (hs : s.WellFormed)
    (hstart : Yielded (.within (s.WithNew W)) s m)
    (hroot : ∀ m' e, Reaches m m' → m'.Evaluates e → W rootScope) (h : Reaches m m') :
    s.Unaltered W m'.state := by
  have hnew : ∀ t, (Bounds.within (s.WithNew W)).Admits s t :=
    fun _ => ⟨fun _ he _ => .inr he, fun _ _ _ => trivial⟩
  have hm : m.Respects (.within (s.WithNew W)) := hstart.respects s.respects_within (hnew _)
  have hgrows := hstart.edited.grows
  have hadmits : AdmitsNew (.within (s.WithNew W)) m.state :=
    ⟨fun e he => .inr (Nat.le_trans hgrows.scopes_size he), fun _ _ => trivial⟩
  have hrun := hm.reaches (Bounds.within_closed _) hadmits (fun m' h' _ hg e he => ?_) h
  · exact (hgrows.trans hrun.2).unaltered
  · rcases hs.root_of_grows (hgrows.trans hg) e with hr | hr
    · rw [hr]
      exact .inl (hroot m' e h' he)
    · exact .inr hr

end Within

/-- A function is called, or a `let*` or a `letrec` is begun, and nothing waits for its value. -/
inductive Machine.OpensScope (s : State) : Machine → Prop where
  | call (f : Value) (name : Text) (args : List Value) : OpensScope s (call f name args [] s)
  | apply (f : Value) (args : List Value) : OpensScope s (apply f args [] s)
  | letSeq (site : FormSite) (operands : List Value) (e : ScopeId) :
      OpensScope s (special .letSeq site operands e [] s)
  | letRec (site : FormSite) (operands : List Value) (e : ScopeId) :
      OpensScope s (special .letRec site operands e [] s)

section Opens

variable {W : ScopeId → Prop} {s : State} {m m' : Machine}

/-- Both `let` forms evaluate in the same way. -/
theorem special_letRec (site : FormSite) (operands : List Value) (e : ScopeId) (ks : List Kont) :
    special .letRec site operands e ks s = special .letSeq site operands e ks s := by
  rcases operands with _ | ⟨v, rest⟩
  · rfl
  · cases v <;> rcases rest with _ | ⟨body, _ | ⟨w, rest⟩⟩ <;> rfl

/-- A `let*` makes a scope first, or it is malformed. -/
theorem letSeq_yielded (site : FormSite) (operands : List Value) (e : ScopeId) :
    Yielded (.within W) s (special .letSeq site operands e [] s) := by
  have hks : ∀ k ∈ ([] : List Kont), k.Respects (.within W) := List.forall_mem_nil _
  generalize hform : SpecialForm.letSeq = form
  unfold special
  split <;> cases hform
  · split
    · exact let_yielded hks site (respectAll_within _) (Value.respects_within _) trivial
    · exact .same trivial hks
  · exact .same trivial hks
  · exact .same trivial hks

/-- What opens a scope of its own begins in no other. -/
theorem Machine.OpensScope.yielded (h : OpensScope s m) : Yielded (.within W) s m := by
  have hB : (Bounds.within W).Closed s.setup := Bounds.within_closed _
  have hks : ∀ k ∈ ([] : List Kont), k.Respects (.within W) := List.forall_mem_nil _
  cases h with
  | call f name args =>
    exact call_yielded hB s.respects_within hks f.respects_within name (respectAll_within args)
  | apply f args =>
    exact apply_yielded hB s.respects_within hks f.respects_within (respectAll_within args)
  | letSeq site operands e => exact letSeq_yielded site operands e
  | letRec site operands e =>
    rw [special_letRec]
    exact letSeq_yielded site operands e

/-- **Calls and `let` forms alter no scope but the root**, and this one only through an `eval`. -/
theorem Machine.OpensScope.unaltered (h : OpensScope s m) (hs : s.WellFormed) (hr : Reaches m m') :
    s.Unaltered (· = rootScope) m'.state ∧
      ((∀ m' e, Reaches m m' → ¬m'.Evaluates e) → s.Unaltered (fun _ => False) m'.state) := by
  constructor
  · exact reaches_unaltered hs h.yielded (fun _ _ _ _ => rfl) hr
  · intro hnone
    exact reaches_unaltered hs h.yielded (fun m' e h' he => hnone m' e h' he) hr

end Opens

section Entries

variable {s : State} {e : ScopeId} {fuel : Nat} {out : Outcome}

theorem State.Unaltered.of_scopes_eq {W : ScopeId → Prop} {t u : State} (h : s.Unaltered W t)
    (hscopes : u.scopes = t.scopes) : s.Unaltered W u := by
  unfold State.Unaltered at h ⊢
  rw [hscopes]
  exact h

theorem eval_unaltered (hs : s.WellFormed) (he : s.Exists (.scope e)) {expr : Value}
    (h : s.eval fuel e expr = some out) :
    s.Unaltered (fun e' => e' = e ∨ e' = s.scopes.root e) out.state := by
  rw [State.eval_eq] at h
  obtain ⟨o, ho, rfl⟩ := Option.map_eq_some_iff.1 h
  have hend : Reaches (enter [] expr e [] s) (o.above []) := reaches_of_run ho
  -- an `eval` can only lead to the root above the scope at hand, since there is no other root
  have hrun := reaches_unaltered (W := fun e' => e' = e ∨ e' = s.scopes.root e) hs
    (enter_yielded (List.forall_mem_nil _) [] expr.respects_within (.inl (.inl rfl)))
    (fun _ _ _ _ => .inr (hs.root_eq he).symm) hend
  exact hrun.of_scopes_eq o.reported_scopes

theorem apply_unaltered (hs : s.WellFormed) {f : Value} {args : List Value}
    (h : s.apply fuel f args = some out) : s.Unaltered (· = rootScope) out.state := by
  -- the first step of an application opens it
  have hfirst : step { focus := .application f args, konts := [], state := s } =
      .next (Machine.apply f args [] s) := rfl
  have hend := halts_iff_reaches.1 ((halts_next hfirst).1 ⟨fuel, h⟩)
  exact ((OpensScope.apply f args).unaltered hs hend).1

end Entries

/-- **Evaluation writes only where scoping allows.** In every state of a session, an evaluation leaves
alone every scope but the one it is made in and the root above it, and an application every scope but
the root. Wherever evaluation gets to, a call or a `let` form alters no scope that is there but the
root, neither that of the caller nor that of the closure, and not even the root without an `eval`. -/
theorem scopes_unaltered {s₀ s : State} (hnew : s₀.IsNew) (h : Session s₀ s) :
    (∀ e expr fuel out, s.Exists (.scope e) → s.eval fuel e expr = some out →
      s.Unaltered (fun e' => e' = e ∨ e' = s.scopes.root e) out.state) ∧
    (∀ f args fuel out, s.apply fuel f args = some out → s.Unaltered (· = rootScope) out.state) ∧
    ∀ (entry : Entry) m m₁ m₂, (∀ r, entry.roots r → s.Exists r) → entry.Visits s m →
      OpensScope m.state m₁ → Reaches m₁ m₂ →
      m.state.Unaltered (· = rootScope) m₂.state ∧
        ((∀ m' e, Reaches m₁ m' → ¬m'.Evaluates e) →
          m.state.Unaltered (fun _ => False) m₂.state) := by
  have hs : s.WellFormed := (h.kept hnew.wellFormed).1
  refine ⟨?_, ?_, ?_⟩
  · intro e expr fuel out he hrun
    exact eval_unaltered hs he hrun
  · intro f args fuel out hrun
    exact apply_unaltered hs hrun
  · intro entry m m₁ m₂ hroots hm hopen hreach
    exact hopen.unaltered (hm.wellFormed hs hroots).state hreach

/-- A function that was made in a scope defines a name when it is called, and neither its scope nor
that of the caller binds the name. -/
theorem scopes_unaltered_define : ∃ (s : State) (f : Value) (out : Outcome), Session {} s ∧
    f = .closure 0 [] (.list none [.symbol "def!", .symbol "x", .int 1]) 1 ∧
    s.eval 20 2 (.list none [f]) = some out ∧ out.result = .ok (.int 1) ∧
    s.Unaltered (fun e' => e' = 2 ∨ e' = s.scopes.root 2) out.state ∧
    ∀ m, Reaches (call f "f" [] [] s) m → s.Unaltered (· = rootScope) m.state := by
  have hnew : State.IsNew {} := ⟨rfl, rfl, nofun⟩
  have hchild : Session {} (State.newScope {} 0).2 := .single (.child 0 (by decide))
  obtain ⟨s, out, hs, hexists, hrun, hres⟩ : ∃ (s : State) (out : Outcome), Session {} s ∧
      s.Exists (.scope 2) ∧ s.eval 20 2 (.list none
        [.closure 0 [] (.list none [.symbol "def!", .symbol "x", .int 1]) 1]) = some out ∧
      out.result = .ok (.int 1) :=
    ⟨_, _, hchild.tail (.child 1 (by decide)), by decide, rfl, rfl⟩
  obtain ⟨heval, -, hopen⟩ := scopes_unaltered hnew hs
  refine ⟨s, _, out, hs, rfl, hrun, hres, heval 2 _ 20 out hexists hrun, fun m h => ?_⟩
  have hroots : ∀ r, (Entry.apply .nil []).roots r → s.Exists r :=
    fun r hr => absurd hr List.not_mem_nil
  have hvisit : (Entry.apply .nil []).Visits s
      { focus := .application .nil [], konts := [], state := s } := .apply (Reaches.refl _)
  exact (hopen _ _ _ m hroots hvisit (.call _ _ _) h).1

end TinyLisp
