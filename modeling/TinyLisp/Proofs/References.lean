import TinyLisp.Proofs.Confinement

/-!
# References

A value refers to scopes and cells: a closure to the scope it was made in and to whatever its body
refers to, an atom to its cell, a list to what its items refer to. Scopes refer to their parent and
to what their bindings refer to, cells to what their contents refer to.

* `Value.refs`, `Fault.refs`, `Outcome.refs`: what a value, a fault and an outcome refer to.
* `State.Exists`: the scopes and cells of a state.
* `Bounds.refs`: bounds on references alone; a value respects them if its references are among them
  (`Value.respects_refs`).
* `Reachable`: what can be reached from some references by following references.
* `load_invariant`: what holds of sources, if it holds of their forms.
-/

namespace TinyLisp

/-- A reference to a scope or a cell. -/
inductive Ref where
  | scope (e : ScopeId)
  | cell (c : CellId)
  deriving DecidableEq, Repr

namespace Value

mutual

/-- What a value refers to. -/
def refs : Value → List Ref
  | .list _ items => refsAll items
  | .closure _ _ body e => .scope e :: refs body
  | .atom c => [.cell c]
  | _ => []

/-- What some values refer to. -/
def refsAll : List Value → List Ref
  | [] => []
  | v :: vs => refs v ++ refsAll vs

end

/-- Values refer to what one of them refers to. -/
theorem mem_refsAll {r : Ref} {vs : List Value} : r ∈ refsAll vs ↔ ∃ v ∈ vs, r ∈ v.refs := by
  induction vs with
  | nil => simp [refsAll]
  | cons v vs ih => simp [refsAll, ih]

end Value

/-- What the values in a fault refer to. -/
def Fault.refs : Fault → List Ref
  | .typeMismatch _ _ _ got => got.refs
  | .notCallable got => got.refs
  | .malformed _ _ (.notSymbol got) => got.refs
  | .within _ cause => cause.refs
  | _ => []

/-- What the answer of a function of the embedding program refers to. -/
def answerRefs : Except Fault Value → List Ref
  | .ok v => v.refs
  | .error fault => fault.refs

/-- What the value or the failure that an evaluation came to refers to. -/
def Outcome.refs (o : Outcome) : List Ref :=
  match o.result with
  | .ok v => v.refs
  | .error f => f.fault.refs

/-- A function of the embedding program refers to nothing but what its arguments refer to and what
it holds itself. -/
def Host.Within (held : Ref → Prop) (host : Host) : Prop :=
  ∀ name args, ∀ r ∈ answerRefs (host name args), r ∈ Value.refsAll args ∨ held r

theorem Host.Within.mono {held held' : Ref → Prop} {host : Host} (h : Host.Within held host)
    (hle : ∀ r, held r → held' r) : Host.Within held' host :=
  fun name args r hr => (h name args r hr).imp_right (hle r)

/-- The reference leads to a scope or a cell of the state. -/
def State.Exists (s : State) : Ref → Prop
  | .scope e => e < s.scopes.size
  | .cell c => c < s.cells.size

instance State.decidableExists (s : State) : DecidablePred s.Exists
  | .scope e => inferInstanceAs (Decidable (e < s.scopes.size))
  | .cell c => inferInstanceAs (Decidable (c < s.cells.size))

/-! ## Bounds on references -/

/-- Bounds that allow the references `R`. -/
def Bounds.refs (R : Ref → Prop) : Bounds where
  scalar _ := True
  scope e := R (.scope e)
  cell c := R (.cell c)
  current e := R (.scope e)
  scope_of_current _ := id

/-- Bounds that allow evaluation in the scopes `W`, and all values. -/
def Bounds.within (W : ScopeId → Prop) : Bounds where
  scalar _ := True
  scope _ := True
  cell _ := True
  current := W
  scope_of_current _ _ := trivial

/-- A reference that the bounds allow. -/
def Bounds.Allows (B : Bounds) : Ref → Prop
  | .scope e => B.scope e
  | .cell c => B.cell c

section Allows

variable {B : Bounds}

mutual

/-- With all scalars allowed, a value respects bounds that allow what it refers to. -/
theorem Value.respects_of_allows (hB : ∀ content, B.scalar content) :
    (v : Value) → (∀ r ∈ v.refs, B.Allows r) → v.Respects B
  | .scalar _ content, _ => .scalar (hB content)
  | .list _ items, h => .list (respectAll_of_allows hB items h)
  | .closure _ _ body e, h => by
    obtain ⟨he, hbody⟩ := List.forall_mem_cons.1 h
    exact .closure (fun _ _ => hB _) (Value.respects_of_allows hB body hbody) he
  | .builtin b, _ => .builtin b
  | .atom c, h => .atom (h (.cell c) (List.mem_singleton.2 rfl))
  | .invalid u, _ => .invalid u

theorem respectAll_of_allows (hB : ∀ content, B.scalar content) :
    (vs : List Value) → (∀ r ∈ Value.refsAll vs, B.Allows r) → RespectAll B vs
  | [], _ => respectAll_nil
  | v :: vs, h => by
    obtain ⟨hv, hvs⟩ := List.forall_mem_append.1 h
    exact respectAll_cons.2 ⟨Value.respects_of_allows hB v hv, respectAll_of_allows hB vs hvs⟩

end

/-- **A value respects bounds that allow all scalars if they allow its references.** -/
theorem Value.respects_iff (hB : ∀ content, B.scalar content) {v : Value} :
    v.Respects B ↔ ∀ r ∈ v.refs, B.Allows r := by
  refine ⟨fun h => ?_, Value.respects_of_allows hB v⟩
  induction h with
  | scalar => exact nofun
  | list _ ih =>
    intro r hr
    obtain ⟨v, hv, hr⟩ := Value.mem_refsAll.1 hr
    exact ih v hv r hr
  | closure _ _ he ih => exact List.forall_mem_cons.2 ⟨he, ih⟩
  | builtin => exact nofun
  | atom h =>
    intro r hr
    obtain rfl := List.mem_singleton.1 hr
    exact h
  | invalid => exact nofun

/-- With all scalars allowed, bounds are about references only. -/
theorem respectAll_iff (hB : ∀ content, B.scalar content) {vs : List Value} :
    RespectAll B vs ↔ ∀ r ∈ Value.refsAll vs, B.Allows r := by
  refine ⟨fun h r hr => ?_, respectAll_of_allows hB vs⟩
  obtain ⟨v, hv, hr⟩ := Value.mem_refsAll.1 hr
  exact (Value.respects_iff hB).1 (h v hv) r hr

/-- With all scalars allowed, a fault is within bounds that allow what it refers to. -/
theorem Fault.respects_iff (hB : ∀ content, B.scalar content) {f : Fault} :
    f.Respects B ↔ ∀ r ∈ f.refs, B.Allows r := by
  induction f with
  | typeMismatch _ _ _ got => exact Value.respects_iff hB
  | notCallable got => exact Value.respects_iff hB
  | malformed _ _ problem =>
    cases problem with
    | notSymbol got => exact Value.respects_iff hB
    | _ => exact ⟨nofun, fun _ => trivial⟩
  | within _ cause ih => exact ih
  | _ => exact ⟨nofun, fun _ => trivial⟩

/-- Bounds that allow all scalars are closed if they allow what functions of the embedding program
hold. -/
theorem Bounds.closed_of_allows (hB : ∀ content, B.scalar content) {σ : Setup} {held : Ref → Prop}
    (hhosts : ∀ host ∈ σ.hosts, Host.Within held host) (hheld : ∀ r, held r → B.Allows r) :
    B.Closed σ where
  readable _ _ := hB _
  append _ _ _ _ := hB _
  file _ _ _ := hB _
  host host hmem name args hargs := by
    have hrefs : ∀ r ∈ answerRefs (host name args), B.Allows r := by
      intro r hr
      rcases hhosts host hmem name args r hr with h | h
      · exact (respectAll_iff hB).1 hargs r h
      · exact hheld r h
    cases hanswer : host name args with
    | ok v => rw [hanswer] at hrefs; exact (Value.respects_iff hB).2 hrefs
    | error f => rw [hanswer] at hrefs; exact (Fault.respects_iff hB).2 hrefs

end Allows

section Refs

variable {R R' : Ref → Prop}

theorem Bounds.allows_refs {r : Ref} : (Bounds.refs R).Allows r ↔ R r := by
  cases r <;> exact Iff.rfl

/-- **A value respects bounds on references if its references are among them.** -/
theorem Value.respects_refs {v : Value} : v.Respects (.refs R) ↔ ∀ r ∈ v.refs, R r := by
  rw [Value.respects_iff fun _ => trivial]
  simp only [Bounds.allows_refs]

theorem respectAll_refs {vs : List Value} :
    RespectAll (.refs R) vs ↔ ∀ r ∈ Value.refsAll vs, R r := by
  rw [respectAll_iff fun _ => trivial]
  simp only [Bounds.allows_refs]

theorem Fault.respects_refs {f : Fault} : f.Respects (.refs R) ↔ ∀ r ∈ f.refs, R r := by
  rw [Fault.respects_iff fun _ => trivial]
  simp only [Bounds.allows_refs]

/-- An outcome within the bounds refers to what they allow. -/
theorem Outcome.refs_of_respects {o : Outcome} (h : (o.above []).Respects (.refs R)) :
    ∀ r ∈ o.refs, R r := by
  obtain ⟨result, s⟩ := o
  cases result with
  | ok v => exact Value.respects_refs.1 h.focus
  | error f => exact Fault.respects_refs.1 h.focus

theorem Bounds.refs_le (h : ∀ r, R r → R' r) : (Bounds.refs R).Le (.refs R') :=
  ⟨fun _ => id, fun _ => h _, fun _ => h _, fun _ => h _⟩

/-- Bounds on references are closed if the functions of the embedding program hold nothing that is
out of bounds. -/
theorem Bounds.refs_closed {σ : Setup} {held : Ref → Prop}
    (hhosts : ∀ host ∈ σ.hosts, Host.Within held host) (hheld : ∀ r, held r → R r) :
    (Bounds.refs R).Closed σ :=
  Bounds.closed_of_allows (fun _ => trivial) hhosts fun r hr => Bounds.allows_refs.2 (hheld r hr)

end Refs

/-! ## Sources -/

section Load

variable {I : Outcome → Prop} {s : State} {e : ScopeId} {fuel : Nat} {out : Outcome}

/-- What every evaluation keeps, evaluating forms in turn keeps. -/
theorem evalAll_invariant {last : Value} {forms : List Value}
    (h₀ : I { result := .ok last, state := s })
    (hform : ∀ o form out, I o → form ∈ forms → o.state.eval fuel e form = some out → I out)
    (h : s.evalAll fuel e last forms = some out) : I out := by
  induction forms generalizing s last with
  | nil =>
    obtain rfl := Option.some.inj h
    exact h₀
  | cons form forms ih =>
    have hfirst : ∀ o, s.eval fuel e form = some o → I o :=
      fun o => hform _ form o h₀ List.mem_cons_self
    unfold State.evalAll at h
    split at h
    · rename_i v s' hv
      refine ih (hfirst _ hv) (fun o form' out ho hmem => ?_) h
      exact hform o form' out ho (List.mem_cons_of_mem form hmem)
    · exact hfirst out h

/-- **What holds of a source.** It is enough that it holds before the first form is evaluated, that it
holds of a source that does not read, and that every form keeps it. -/
theorem load_invariant {file bytes : Text} {failure : Option Text}
    (h₀ : ∀ o, o.refs = [] → o.state.scopes = s.scopes → o.state.cells = s.cells →
      o.state.setup = s.setup → I o)
    (hform : ∀ o form out, I o → form.Readable → o.state.eval fuel e form = some out → I out)
    (h : s.load fuel e file bytes failure = some out) : I out := by
  unfold State.load at h
  split at h
  · obtain rfl := Option.some.inj h
    exact h₀ _ rfl rfl rfl rfl
  · split at h
    · obtain rfl := Option.some.inj h
      exact h₀ _ rfl rfl rfl rfl
    · rename_i forms hread
      refine evalAll_invariant ?_ (fun o form out ho hmem => ?_) h
      · exact h₀ _ rfl (State.scopes_debug _ _) (State.cells_debug _ _) (s.quiet_debug _ _).2
      · exact hform o form out ho (readable_of_readAll hread hmem)

end Load

/-! ## Reachability -/

/-- What can be reached from the references `roots` along parents, bindings and contents. -/
inductive Reachable (s : State) (roots : Ref → Prop) : Ref → Prop where
  | root {r : Ref} (h : roots r) : Reachable s roots r
  | parent {e p : ScopeId} {scope : Scope} (h : Reachable s roots (.scope e))
      (hscope : s.scopes[e]? = some scope) (hp : scope.parent = some p) :
      Reachable s roots (.scope p)
  | binding {e : ScopeId} {scope : Scope} {b : Text × Value} {r : Ref}
      (h : Reachable s roots (.scope e)) (hscope : s.scopes[e]? = some scope)
      (hb : b ∈ scope.bindings) (hr : r ∈ b.2.refs) : Reachable s roots r
  | contents {c : CellId} {v : Value} {r : Ref} (h : Reachable s roots (.cell c))
      (hcell : s.cells[c]? = some v) (hr : r ∈ v.refs) : Reachable s roots r

/-- What an evaluation begins with: the scope at hand and what the expression refers to, or what a
function and its arguments refer to. A source refers to nothing. -/
def Entry.roots : Entry → Ref → Prop
  | .eval e expr, r => r = .scope e ∨ r ∈ expr.refs
  | .apply f args, r => r ∈ Value.refsAll (f :: args)
  | .load e _ _ _, r => r = .scope e

end TinyLisp
