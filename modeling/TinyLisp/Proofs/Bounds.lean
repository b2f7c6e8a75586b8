import TinyLisp.Proofs.Moves
import TinyLisp.Proofs.RoundTrip

/-!
# Bounds

Evaluation combines what it is given with what it makes anew. `Bounds` say of what values may be
made (scalars, scopes that closures refer to, cells that atoms refer to) and in which scopes
expressions may be evaluated; a value, a state or a machine respects bounds if it keeps to them.
Scopes and cells that are out of bounds may hold anything.

One step changes the scopes and cells in one of five ways, each within bounds (`Edit`), and it makes
at most one scope or cell. So a machine that respects bounds does so after a step, if the bounds
admit what the step makes (`Bounds.Admits`).

* `Bounds.Closed`: no function of the interpreter leads out of the bounds.
* `Primitive.run_yields`, `Builtin.run_yields`: what built-in functions make and change.
* `Edit.respects`, `Edit.grows`: an edit within bounds keeps the state within them, and what was
  there stays there except in scopes and cells within bounds.
-/

namespace TinyLisp

/-- What values may be made of, and where expressions may be evaluated. -/
structure Bounds where
  /-- The scalars that values may hold. A name may be bound if its symbol may be held. -/
  scalar : Scalar → Prop
  /-- The scopes that closures may refer to. -/
  scope : ScopeId → Prop
  /-- The cells that atoms may refer to. -/
  cell : CellId → Prop
  /-- The scopes in which expressions may be evaluated. -/
  current : ScopeId → Prop
  scope_of_current : ∀ e, current e → scope e

/-! ## Values -/

/-- The value is made of what the bounds allow. -/
inductive Value.Respects (B : Bounds) : Value → Prop where
  | scalar {source : Option Location} {content : Scalar} (h : B.scalar content) :
      Respects B (.scalar source content)
  | list {source : Option Location} {items : List Value} (h : ∀ v ∈ items, Respects B v) :
      Respects B (.list source items)
  | closure {identity : Nat} {formals : List Text} {body : Value} {e : ScopeId}
      (hf : ∀ name ∈ formals, B.scalar (.symbol name)) (hb : Respects B body) (he : B.scope e) :
      Respects B (.closure identity formals body e)
  | builtin (b : Builtin) : Respects B (.builtin b)
  | atom {c : CellId} (h : B.cell c) : Respects B (.atom c)
  | invalid (u : Untyped) : Respects B (.invalid u)

/-- Every one of the values respects the bounds. -/
def RespectAll (B : Bounds) (vs : List Value) : Prop := ∀ v ∈ vs, v.Respects B

/-- Every name is within the bounds, and so is the value that it is bound to. -/
def RespectBindings (B : Bounds) (bindings : List (Text × Value)) : Prop :=
  ∀ b ∈ bindings, B.scalar (.symbol b.1) ∧ b.2.Respects B

/-- The values in a fault respect the bounds. -/
def Fault.Respects (B : Bounds) : Fault → Prop
  | .typeMismatch _ _ _ got => got.Respects B
  | .notCallable got => got.Respects B
  | .malformed _ _ (.notSymbol got) => got.Respects B
  | .within _ cause => cause.Respects B
  | _ => True

/-- The answer of a function of the embedding program respects the bounds. -/
def AnswerRespects (B : Bounds) : Except Fault Value → Prop
  | .ok v => v.Respects B
  | .error fault => fault.Respects B

section Values

variable {B : Bounds} {source : Option Location} {content : Scalar} {v : Value} {vs : List Value}
  {c : CellId}

@[simp] theorem respectAll_nil : RespectAll B [] := nofun

@[simp] theorem respectAll_cons : RespectAll B (v :: vs) ↔ v.Respects B ∧ RespectAll B vs :=
  List.forall_mem_cons

/-- Arguments are gathered in reverse. -/
theorem respectAll_reverse (h : RespectAll B vs) : RespectAll B vs.reverse :=
  fun v hv => h v (List.mem_reverse.1 hv)

namespace Value

@[simp] theorem respects_scalar : (Value.scalar source content).Respects B ↔ B.scalar content :=
  ⟨fun | .scalar h => h, .scalar⟩

@[simp] theorem respects_list : (Value.list source vs).Respects B ↔ RespectAll B vs :=
  ⟨fun | .list h => h, .list⟩

@[simp] theorem respects_atom : (Value.atom c).Respects B ↔ B.cell c :=
  ⟨fun | .atom h => h, .atom⟩

/-- The name of a symbol within the bounds may be bound. -/
theorem scalar_of_symbolName {name : Text} (hv : v.Respects B) (h : v.symbolName? = some name) :
    B.scalar (.symbol name) := by
  unfold symbolName? at h
  split at h
  · obtain rfl := Option.some.inj h
    exact respects_scalar.1 hv
  · cases h

/-- A value without closures and atoms respects bounds that allow its scalars. -/
theorem Readable.respects (hv : v.Readable) (hB : ∀ s : Scalar, s.IsReadable → B.scalar s) :
    v.Respects B := by
  induction hv with
  | scalar h => exact .scalar (hB _ h)
  | list _ ih => exact .list ih

end Value

end Values

/-- Whatever is within the bounds `B` is within the bounds `C`. -/
structure Bounds.Le (B C : Bounds) : Prop where
  scalar : ∀ s, B.scalar s → C.scalar s
  scope : ∀ e, B.scope e → C.scope e
  cell : ∀ c, B.cell c → C.cell c
  current : ∀ e, B.current e → C.current e

/-- A value within bounds is within wider ones. -/
theorem Value.Respects.mono {B C : Bounds} {v : Value} (hBC : B.Le C) (h : v.Respects B) :
    v.Respects C := by
  induction h with
  | scalar h => exact .scalar (hBC.scalar _ h)
  | list _ ih => exact .list ih
  | closure hf _ he ih => exact .closure (fun name hn => hBC.scalar _ (hf name hn)) ih (hBC.scope _ he)
  | builtin b => exact .builtin b
  | atom h => exact .atom (hBC.cell _ h)
  | invalid u => exact .invalid u

theorem RespectAll.mono {B C : Bounds} {vs : List Value} (hBC : B.Le C) (h : RespectAll B vs) :
    RespectAll C vs := fun v hv => (h v hv).mono hBC

/-- A fault within bounds is within wider ones. -/
theorem Fault.Respects.mono {B C : Bounds} {f : Fault} (hBC : B.Le C) (h : f.Respects B) :
    f.Respects C := by
  induction f with
  | typeMismatch _ _ _ got => exact Value.Respects.mono hBC h
  | notCallable got => exact Value.Respects.mono hBC h
  | malformed _ _ problem =>
    cases problem with
    | notSymbol got => exact Value.Respects.mono hBC h
    | _ => trivial
  | within _ cause ih => exact ih h
  | _ => trivial

/-! ## States -/

/-- Scopes and cells within the bounds lead to nothing that is out of bounds. -/
structure State.Respects (B : Bounds) (s : State) : Prop where
  parents : ∀ e scope p, B.scope e → s.scopes[e]? = some scope → scope.parent = some p → B.scope p
  bindings : ∀ e scope, B.scope e → s.scopes[e]? = some scope → RespectBindings B scope.bindings
  cells : ∀ c v, B.cell c → s.cells[c]? = some v → v.Respects B

/-- No function of an interpreter that was set up like this leads out of the bounds: they allow all
scalars that a source can spell, the strings that are made of strings, the contents of files, and
what functions of the embedding program make of values within the bounds. -/
structure Bounds.Closed (B : Bounds) (σ : Setup) : Prop where
  readable : ∀ s : Scalar, s.IsReadable → B.scalar s
  append : ∀ a b, B.scalar (.string a) → B.scalar (.string b) → B.scalar (.string (a ++ b))
  file : ∀ path bytes, σ.files.read path = .ok bytes → B.scalar (.string bytes)
  host : ∀ host ∈ σ.hosts, ∀ name args, RespectAll B args → AnswerRespects B (host name args)

/-- The bounds allow the scopes and cells that `t` has and `s` does not. -/
structure Bounds.Admits (B : Bounds) (s t : State) : Prop where
  scopes : ∀ e, s.scopes.size ≤ e → e < t.scopes.size → B.current e
  cells : ∀ c, s.cells.size ≤ c → c < t.cells.size → B.cell c

/-- What a scope finds is among its bindings. -/
theorem Scope.mem_of_find {scope : Scope} {name : Text} {v : Value}
    (h : scope.find? name = some v) : (name, v) ∈ scope.bindings := by
  obtain ⟨before, after, hb, -⟩ := List.lookup_eq_some_iff.1 h
  rw [hb]
  simp

namespace State.Respects

variable {B : Bounds} {s : State} {e : ScopeId} {name : Text} {v : Value}

/-- What a name means in a scope within the bounds is within them. -/
theorem lookup (hs : s.Respects B) (he : B.scope e) (h : s.scopes.lookup e name = some v) :
    v.Respects B := by
  -- along the parents, which stay within the bounds
  fun_induction Scopes.lookup s.scopes e name with
  | case1 => cases h
  | case2 e scope hscope w hfind =>
    obtain rfl := Option.some.inj h
    exact (hs.bindings e scope he hscope _ (Scope.mem_of_find hfind)).2
  | case3 e scope hscope hfind p hp hlt ih => exact ih (hs.parents e scope p he hscope hp) h
  | case4 => cases h
  | case5 => cases h

/-- The root of a scope within the bounds is within them. -/
theorem root (hs : s.Respects B) (he : B.scope e) : B.scope (s.scopes.root e) := by
  fun_induction Scopes.root s.scopes e with
  | case1 => exact he
  | case2 e scope hscope p hp hlt ih => exact ih (hs.parents e scope p he hscope hp)
  | case3 => exact he
  | case4 => exact he

/-- What a cell within the bounds holds is within them. -/
theorem contents (hs : s.Respects B) (hnil : B.scalar .nil) {c : CellId} (hc : B.cell c) :
    (s.contents c).Respects B := by
  unfold State.contents
  cases h : s.cells[c]? with
  | none => exact .scalar hnil
  | some v => exact hs.cells c v hc h

/-- What is allowed in addition does not matter for a state in which it does not exist. -/
theorem widen {C : Bounds} (hs : s.Respects B) (hBC : B.Le C)
    (hscope : ∀ e, C.scope e → e < s.scopes.size → B.scope e)
    (hcell : ∀ c, C.cell c → c < s.cells.size → B.cell c) : s.Respects C := by
  have hold : ∀ e scope, C.scope e → s.scopes[e]? = some scope → B.scope e := by
    intro e scope he h
    exact hscope e he (Array.getElem?_eq_some_iff.1 h).1
  refine ⟨fun e scope p he h hp => ?_, fun e scope he h b hb => ?_, fun c v hc h => ?_⟩
  · exact hBC.scope p (hs.parents e scope p (hold e scope he h) h hp)
  · obtain ⟨hname, hv⟩ := hs.bindings e scope (hold e scope he h) h b hb
    exact ⟨hBC.scalar _ hname, hv.mono hBC⟩
  · have hc' := hcell c hc (Array.getElem?_eq_some_iff.1 h).1
    exact (hs.cells c v hc' h).mono hBC

end State.Respects

/-! ## Edits -/

/-- What one step does to scopes and cells. -/
inductive Edit (B : Bounds) (scopes : Scopes) (cells : Array Value) : Scopes → Array Value → Prop
    where
  /-- Nothing. -/
  | same : Edit B scopes cells scopes cells
  /-- Binds a name in a scope that expressions are evaluated in. -/
  | bind (e : ScopeId) (name : Text) (v : Value) (he : B.current e)
      (hname : B.scalar (.symbol name)) (hv : v.Respects B) :
      Edit B scopes cells (scopes.put e name v) cells
  /-- Makes a scope. -/
  | scope (p : ScopeId) (bindings : List (Text × Value)) (hp : B.scope p)
      (hb : RespectBindings B bindings) :
      Edit B scopes cells (scopes.push { parent := some p, bindings }) cells
  /-- Makes a cell. -/
  | cell (v : Value) (hv : v.Respects B) : Edit B scopes cells scopes (cells.push v)
  /-- Replaces the contents of a cell. -/
  | store (c : CellId) (v : Value) (hc : B.cell c) (hv : v.Respects B) :
      Edit B scopes cells scopes (cells.setIfInBounds c v)

/-- The state `t` has the scopes and cells of `s`, edited. -/
def State.Edited (B : Bounds) (s t : State) : Prop := Edit B s.scopes s.cells t.scopes t.cells

/-- A later version of a scope: it has the same parent and binds every name that was bound. -/
structure Scope.Extends (scope scope' : Scope) : Prop where
  parent : scope'.parent = scope.parent
  names : ∀ name, (scope.find? name).isSome → (scope'.find? name).isSome

/-- Every scope and cell is still there, and only those within the bounds have changed. -/
structure State.Grows (B : Bounds) (s t : State) : Prop where
  scopes : ∀ e scope, s.scopes[e]? = some scope →
    ∃ scope', t.scopes[e]? = some scope' ∧ scope.Extends scope' ∧ (¬B.current e → scope' = scope)
  cells : ∀ c v, s.cells[c]? = some v →
    ∃ v', t.cells[c]? = some v' ∧ (¬B.cell c → v' = v)

theorem Scope.Extends.refl (scope : Scope) : scope.Extends scope := ⟨rfl, fun _ => id⟩

theorem Scope.Extends.trans {a b c : Scope} (h : a.Extends b) (h' : b.Extends c) : a.Extends c :=
  ⟨h'.parent.trans h.parent, fun name hn => h'.names name (h.names name hn)⟩

/-- Replacing a binding binds no other names. -/
theorem Scope.lookup_replace (bindings : List (Text × Value)) (name name' : Text) (v : Value) :
    ((Scope.replace name v bindings).lookup name').isSome = (bindings.lookup name').isSome := by
  induction bindings with
  | nil => rfl
  | cons b bindings ih =>
    obtain ⟨n, w⟩ := b
    simp only [replace, List.map_cons] at ih ⊢
    by_cases hn : n == name
    · simp only [hn, if_true, List.lookup_cons]
      split
      · rfl
      · exact ih
    · simp only [hn, Bool.false_eq_true, if_false, List.lookup_cons]
      split
      · rfl
      · exact ih

/-- Binding a name extends a scope. -/
theorem Scope.extends_put (scope : Scope) (name : Text) (v : Value) :
    scope.Extends (scope.put name v) := by
  unfold Scope.put
  split
  · refine ⟨rfl, fun name' h => ?_⟩
    rw [Scope.find?, Scope.lookup_replace]
    exact h
  · refine ⟨rfl, fun name' h => ?_⟩
    rw [Scope.find?, List.lookup_cons]
    split
    · rfl
    · exact h

/-- Binding a name that may be bound to a value within the bounds keeps the bindings within them. -/
theorem Scope.put_respects {B : Bounds} {scope : Scope} {name : Text} {v : Value}
    (hs : RespectBindings B scope.bindings) (hname : B.scalar (.symbol name)) (hv : v.Respects B) :
    RespectBindings B (scope.put name v).bindings := by
  unfold Scope.put
  split
  · intro b hb
    obtain ⟨b', hb', rfl⟩ := List.mem_map.1 hb
    dsimp only
    split
    · exact ⟨(hs b' hb').1, hv⟩
    · exact hs b' hb'
  · exact List.forall_mem_cons.2 ⟨⟨hname, hv⟩, hs⟩

/-- Binding a name in a scope changes that scope only. -/
theorem Scopes.getElem?_put {scopes : Scopes} {e e' : ScopeId} {name : Text} {v : Value} :
    (scopes.put e name v)[e']? =
      if e = e' then scopes[e']?.map (·.put name v) else scopes[e']? := by
  unfold Scopes.put
  exact Array.getElem?_modify

namespace State.Grows

variable {B : Bounds} {s t u : State}

theorem refl (B : Bounds) (s : State) : s.Grows B s where
  scopes _ scope h := ⟨scope, h, .refl scope, fun _ => rfl⟩
  cells _ v h := ⟨v, h, fun _ => rfl⟩

/-- Growth composes. -/
theorem trans (h : s.Grows B t) (h' : t.Grows B u) : s.Grows B u := by
  refine ⟨fun e scope hs => ?_, fun c v hs => ?_⟩
  · obtain ⟨scope', ht, hext, hkept⟩ := h.scopes e scope hs
    obtain ⟨scope'', hu, hext', hkept'⟩ := h'.scopes e scope' ht
    exact ⟨scope'', hu, hext.trans hext', fun hn => (hkept' hn).trans (hkept hn)⟩
  · obtain ⟨v', ht, hkept⟩ := h.cells c v hs
    obtain ⟨v'', hu, hkept'⟩ := h'.cells c v' ht
    exact ⟨v'', hu, fun hn => (hkept' hn).trans (hkept hn)⟩

/-- No scope is lost. -/
theorem scopes_size (h : s.Grows B t) : s.scopes.size ≤ t.scopes.size := by
  by_contra hlt
  -- otherwise the scope behind the last of `t` would be gone
  have hget : t.scopes.size < s.scopes.size := by omega
  obtain ⟨scope', ht, -⟩ := h.scopes _ _ (Array.getElem?_eq_getElem hget)
  have := (Array.getElem?_eq_some_iff.1 ht).1
  omega

/-- No cell is lost. -/
theorem cells_size (h : s.Grows B t) : s.cells.size ≤ t.cells.size := by
  by_contra hlt
  have hget : t.cells.size < s.cells.size := by omega
  obtain ⟨v', ht, -⟩ := h.cells _ _ (Array.getElem?_eq_getElem hget)
  have := (Array.getElem?_eq_some_iff.1 ht).1
  omega

end State.Grows

section Edits

variable {B : Bounds} {s t : State}

/-- **An edit keeps everything that is out of bounds.** -/
theorem State.Edited.grows (h : s.Edited B t) : s.Grows B t := by
  obtain ⟨scopes, cells⟩ := t
  unfold State.Edited at h
  dsimp only at h
  cases h with
  | same => exact ⟨(State.Grows.refl B s).scopes, (State.Grows.refl B s).cells⟩
  | bind e name v he _ _ =>
    refine ⟨fun e' scope h => ?_, (State.Grows.refl B s).cells⟩
    rw [Scopes.getElem?_put, h]
    split
    · rename_i heq
      subst heq
      exact ⟨scope.put name v, rfl, scope.extends_put name v, fun hn => absurd he hn⟩
    · exact ⟨scope, rfl, .refl scope, fun _ => rfl⟩
  | scope p bindings _ _ =>
    refine ⟨fun e' scope h => ⟨scope, ?_, .refl scope, fun _ => rfl⟩, (State.Grows.refl B s).cells⟩
    have hlt := (Array.getElem?_eq_some_iff.1 h).1
    rw [Array.getElem?_push, if_neg (by omega)]
    exact h
  | cell v _ =>
    refine ⟨(State.Grows.refl B s).scopes, fun c w h => ⟨w, ?_, fun _ => rfl⟩⟩
    have hlt := (Array.getElem?_eq_some_iff.1 h).1
    rw [Array.getElem?_push, if_neg (by omega)]
    exact h
  | store c v hc _ =>
    refine ⟨(State.Grows.refl B s).scopes, fun c' w h => ?_⟩
    have hlt := (Array.getElem?_eq_some_iff.1 h).1
    rw [Array.getElem?_setIfInBounds]
    split
    · rename_i heq
      subst heq
      exact ⟨v, if_pos hlt, fun hn => absurd hc hn⟩
    · exact ⟨w, h, fun _ => rfl⟩

/-- An edit within bounds is one within wider ones. -/
theorem State.Edited.mono {C : Bounds} (hBC : B.Le C) (h : s.Edited B t) : s.Edited C t := by
  unfold State.Edited at h ⊢
  generalize t.scopes = scopes, t.cells = cells at h ⊢
  cases h with
  | same => exact .same
  | bind e name v he hname hv =>
    exact .bind e name v (hBC.current e he) (hBC.scalar _ hname) (hv.mono hBC)
  | scope p bindings hp hb =>
    have hb' : RespectBindings C bindings :=
      fun b h => ⟨hBC.scalar _ (hb b h).1, (hb b h).2.mono hBC⟩
    exact .scope p bindings (hBC.scope p hp) hb'
  | cell v hv => exact .cell v (hv.mono hBC)
  | store c v hc hv => exact .store c v (hBC.cell c hc) (hv.mono hBC)

/-- A scope has the parent that it had, or it is new and its parent is within the bounds. -/
theorem State.Edited.parent (h : s.Edited B t) {e : ScopeId} {scope : Scope}
    (ht : t.scopes[e]? = some scope) :
    (∃ scope', s.scopes[e]? = some scope' ∧ scope.parent = scope'.parent) ∨
      e = s.scopes.size ∧ ∃ p, scope.parent = some p ∧ B.scope p := by
  unfold State.Edited at h
  generalize t.scopes = scopes, t.cells = cells at h ht
  cases h with
  | same => exact .inl ⟨scope, ht, rfl⟩
  | bind e' name v _ _ _ =>
    left
    rw [Scopes.getElem?_put] at ht
    split at ht
    · obtain ⟨scope', hs, rfl⟩ := Option.map_eq_some_iff.1 ht
      exact ⟨scope', hs, (scope'.extends_put name v).parent⟩
    · exact ⟨scope, ht, rfl⟩
  | scope p bindings hp _ =>
    rw [Array.getElem?_push] at ht
    split at ht
    · rename_i he
      obtain rfl := Option.some.inj ht
      exact .inr ⟨he, p, rfl, hp⟩
    · exact .inl ⟨scope, ht, rfl⟩
  | cell => exact .inl ⟨scope, ht, rfl⟩
  | store => exact .inl ⟨scope, ht, rfl⟩

/-- **An edit within the bounds keeps the state within them.** -/
theorem State.Edited.respects (h : s.Edited B t) (hs : s.Respects B) : t.Respects B := by
  obtain ⟨scopes, cells⟩ := t
  unfold State.Edited at h
  dsimp only at h
  cases h with
  | same => exact ⟨hs.parents, hs.bindings, hs.cells⟩
  | bind e name v _ hname hv =>
    have hput : ∀ (e' : ScopeId) scope, (s.scopes.put e name v)[e']? = some scope → ∃ scope',
        s.scopes[e']? = some scope' ∧ (scope = scope' ∨ scope = Scope.put scope' name v) := by
      intro e' scope h
      rw [Scopes.getElem?_put] at h
      split at h
      · obtain ⟨scope', h', rfl⟩ := Option.map_eq_some_iff.1 h
        exact ⟨scope', h', .inr rfl⟩
      · exact ⟨scope, h, .inl rfl⟩
    refine ⟨fun e' scope p he' h hp => ?_, fun e' scope he' h => ?_, hs.cells⟩
    · obtain ⟨scope', h', rfl | rfl⟩ := hput e' scope h
      · exact hs.parents e' scope p he' h' hp
      · exact hs.parents e' scope' p he' h' ((scope'.extends_put name v).parent ▸ hp)
    · obtain ⟨scope', h', rfl | rfl⟩ := hput e' scope h
      · exact hs.bindings e' scope he' h'
      · exact Scope.put_respects (hs.bindings e' scope' he' h') hname hv
  | scope p bindings hp hb =>
    refine ⟨fun e' scope p' he' h hp' => ?_, fun e' scope he' h => ?_, hs.cells⟩
    · rw [Array.getElem?_push] at h
      split at h
      · obtain rfl := Option.some.inj h
        obtain rfl := Option.some.inj hp'
        exact hp
      · exact hs.parents e' scope p' he' h hp'
    · rw [Array.getElem?_push] at h
      split at h
      · obtain rfl := Option.some.inj h
        exact hb
      · exact hs.bindings e' scope he' h
  | cell v hv =>
    refine ⟨hs.parents, hs.bindings, fun c w hc h => ?_⟩
    rw [Array.getElem?_push] at h
    split at h
    · obtain rfl := Option.some.inj h
      exact hv
    · exact hs.cells c w hc h
  | store c v _ hv =>
    refine ⟨hs.parents, hs.bindings, fun c' w hc h => ?_⟩
    rw [Array.getElem?_setIfInBounds] at h
    split at h
    · split at h
      · obtain rfl := Option.some.inj h
        exact hv
      · cases h
    · exact hs.cells c' w hc h

end Edits

/-! ## Built-in functions -/

/-- The values of a reply respect the bounds, and so do the contents of a cell that is to be
updated. -/
def Reply.Respects (B : Bounds) (s : State) : Reply → Prop
  | .value v => v.Respects B
  | .fault f => f.Respects B
  | .update c f => B.cell c ∧ f.Respects B ∧ (s.contents c).Respects B

/-- A built-in function made an edit within the bounds, and what it answered respects them, if they
admit what it made. -/
structure Reply.Yielded (B : Bounds) (s : State) (r : Reply × State) : Prop where
  edited : s.Edited B r.2
  respects : B.Admits s r.2 → r.1.Respects B r.2

namespace Bounds.Closed

variable {B : Bounds} {σ : Setup}

theorem int (hB : B.Closed σ) (n : Int64) : (Value.int n).Respects B :=
  .scalar (hB.readable _ trivial)

theorem bool (hB : B.Closed σ) (b : Bool) : (Value.bool b).Respects B :=
  .scalar (hB.readable _ trivial)

theorem nil (hB : B.Closed σ) : Value.nil.Respects B := .scalar (hB.readable _ trivial)

end Bounds.Closed

namespace State

variable {s : State}

@[simp] theorem scopes_debug (message : Text) (fields : List (Text × Log.Field)) :
    (s.debug message fields).scopes = s.scopes := by
  unfold debug logRecord
  split <;> rfl

@[simp] theorem cells_debug (message : Text) (fields : List (Text × Log.Field)) :
    (s.debug message fields).cells = s.cells := by
  unfold debug logRecord
  split <;> rfl

/-- Whoever changes neither scopes nor cells makes the edit that does nothing. -/
theorem Edited.of_eq {B : Bounds} {t : State} (hscopes : t.scopes = s.scopes)
    (hcells : t.cells = s.cells) : s.Edited B t := by
  unfold Edited
  rw [hscopes, hcells]
  exact .same

end State

namespace Primitive

variable {B : Bounds} {σ : Setup} {name : Text} {s : State} {a b : Value} {fault : Fault}

/-- The argument that is no integer is reported as it was given. -/
theorem integers_respects (ha : a.Respects B) (hb : b.Respects B)
    (h : integers name a b = .error fault) : fault.Respects B := by
  unfold integers at h
  split at h <;> cases h
  · exact ha
  · exact hb

/-- The argument that is no text is reported as it was given. -/
theorem stringArgument_respects (ha : a.Respects B) (h : stringArgument name a = .error fault) :
    fault.Respects B := by
  unfold stringArgument at h
  split at h <;> cases h
  exact ha

/-- The argument that is no atom is reported as it was given. -/
theorem cellArgument_respects (ha : a.Respects B) (h : cellArgument name a = .error fault) :
    fault.Respects B := by
  unfold cellArgument at h
  split at h <;> cases h
  exact ha

/-- The cell of an atom within the bounds is within them. -/
theorem cell_of_cellArgument {c : CellId} (ha : a.Respects B) (h : cellArgument name a = .ok c) :
    B.cell c := by
  unfold cellArgument at h
  split at h <;> cases h
  exact Value.respects_atom.1 ha

/-- Arithmetic makes an integer or reports one of its arguments. -/
theorem arithmetic_respects (hB : B.Closed σ) (ha : a.Respects B) (hb : b.Respects B)
    (f : Int64 → Int64 → Int64) : (arithmetic f name a b).Respects B s := by
  unfold arithmetic
  split
  · exact hB.int _
  · exact integers_respects ha hb ‹_›

/-- A division makes an integer or reports one of its arguments, unless it divides by zero. -/
theorem divide_respects (hB : B.Closed σ) (ha : a.Respects B) (hb : b.Respects B) :
    (divide name a b).Respects B s := by
  unfold divide
  split
  · split
    · trivial
    · exact hB.int _
  · exact integers_respects ha hb ‹_›

/-- A text that is put together from texts within the bounds is within them. -/
theorem concatenate_respects (hB : B.Closed σ) {vs : List Value} (hvs : RespectAll B vs)
    (position : Nat) {done : Text} (hd : B.scalar (.string done)) :
    (concatenate name position done vs).Respects B s := by
  fun_induction concatenate name position done vs with
  | case1 => exact .scalar hd
  | case2 position done source text vs ih =>
    obtain ⟨hv, hvs⟩ := respectAll_cons.1 hvs
    exact ih hvs (hB.append _ _ hd (Value.respects_scalar.1 hv))
  | case3 => exact (respectAll_cons.1 hvs).1

/-- A file that is read is a text within the bounds, and nothing else changes. -/
theorem slurpFile_yields (hB : B.Closed s.setup) (path : Text) :
    Reply.Yielded B s (slurpFile name path s) := by
  simp only [slurpFile]
  split
  · rename_i bytes hread
    exact ⟨.of_eq (State.scopes_debug _ _) (State.cells_debug _ _),
      fun _ => .scalar (hB.file path bytes hread)⟩
  · exact ⟨.same, fun _ => trivial⟩

/-- What is read is made of scalars that a source can spell. -/
theorem readForm_reply_respects (hB : B.Closed σ) (file bytes : Text) (failure : Option Text) :
    (Reply.ofExcept (s.readForm file bytes failure)).Respects B s := by
  unfold State.readForm
  split
  · split
    · rename_i v hv
      have hread : v.Readable := readable_of_readOne hv
      exact hread.respects hB.readable
    · trivial
  · trivial

/-- Printing changes neither scopes nor cells. -/
theorem print_yields (hB : B.Closed s.setup) (text : Text) :
    Reply.Yielded B s (match s.print? text with
      | some s => (.value .nil, s)
      | none => (.fault (.plain Sink.failure), s)) := by
  unfold State.print?
  cases s.stdout.write? with
  | some stdout => exact ⟨.same, fun _ => hB.nil⟩
  | none => exact ⟨.same, fun _ => trivial⟩

/-- Printing the call stack changes neither scopes nor cells. -/
theorem debugStack_yields (hB : B.Closed s.setup) :
    Reply.Yielded B s
      (if s.printStack.1 then .value .nil else .fault (.plain Sink.failure), s.printStack.2) := by
  rw [s.printStack_eq]
  refine ⟨.same, fun _ => ?_⟩
  dsimp only
  split
  · exact hB.nil
  · trivial

/-- What a function of the language makes of arguments within the bounds. -/
theorem run_yields (p : Primitive) (hB : B.Closed s.setup) (hs : s.Respects B) {args : List Value}
    (ha : RespectAll B args) : Reply.Yielded B s (p.run name args s) := by
  unfold Primitive.run
  split <;> try exact ⟨.same, fun _ => hB.bool _⟩
  · exact ⟨.same, fun _ => arithmetic_respects hB (ha _ (by simp)) (ha _ (by simp)) _⟩
  · exact ⟨.same, fun _ => arithmetic_respects hB (ha _ (by simp)) (ha _ (by simp)) _⟩
  · exact ⟨.same, fun _ => arithmetic_respects hB (ha _ (by simp)) (ha _ (by simp)) _⟩
  · exact ⟨.same, fun _ => divide_respects hB (ha _ (by simp)) (ha _ (by simp))⟩
  · exact ⟨.same, fun _ => .list ha⟩
  · exact ⟨.same, fun _ => hB.int _⟩
  · have hempty : B.scalar (.string []) := hB.readable _ ⟨[], rfl, by simp⟩
    exact ⟨.same, fun _ => concatenate_respects hB ha 1 hempty⟩
  · rename_i a
    split
    · exact slurpFile_yields hB _
    · exact ⟨.same, fun _ => stringArgument_respects (ha a (by simp)) ‹_›⟩
  · rename_i a
    split
    · exact ⟨.same, fun _ => readForm_reply_respects hB _ _ _⟩
    · exact ⟨.same, fun _ => stringArgument_respects (ha a (by simp)) ‹_›⟩
  · -- `atom`: the new cell is one that the bounds admit
    rename_i a
    refine ⟨.cell a (ha a (by simp)), fun hnew => .atom ?_⟩
    exact hnew.cells s.cells.size (Nat.le_refl _) (by simp [State.newAtom])
  · rename_i a
    split
    · rename_i c hc
      have hcell := cell_of_cellArgument (ha a (by simp)) hc
      exact ⟨.same, fun _ => hs.contents (hB.readable .nil trivial) hcell⟩
    · exact ⟨.same, fun _ => cellArgument_respects (ha a (by simp)) ‹_›⟩
  · rename_i a v
    have hv : v.Respects B := ha v (by simp)
    split
    · rename_i c hc
      exact ⟨.store c v (cell_of_cellArgument (ha a (by simp)) hc) hv, fun _ => hv⟩
    · exact ⟨.same, fun _ => cellArgument_respects (ha a (by simp)) ‹_›⟩
  · rename_i a f
    have hf : f.Respects B := ha f (by simp)
    split
    · rename_i c hc
      have hcell := cell_of_cellArgument (ha a (by simp)) hc
      split
      · exact ⟨.same, fun _ => ⟨hcell, hf, hs.contents (hB.readable .nil trivial) hcell⟩⟩
      · exact ⟨.same, fun _ => hf⟩
    · exact ⟨.same, fun _ => cellArgument_respects (ha a (by simp)) ‹_›⟩
  · exact print_yields hB _
  · exact debugStack_yields hB
  · split
    · exact ⟨.same, fun _ => trivial⟩
    · exact ⟨.same, fun _ => hB.nil⟩

end Primitive

/-- **A built-in function stays within bounds.** -/
theorem Builtin.run_yields (b : Builtin) {B : Bounds} {s : State} (hB : B.Closed s.setup)
    (hs : s.Respects B) {args : List Value} (ha : RespectAll B args) :
    Reply.Yielded B s (b.run args s) := by
  have hroutine : Reply.Yielded B s (b.runRoutine args s) := by
    unfold Builtin.runRoutine
    split
    · exact Primitive.run_yields _ hB hs ha
    · split
      · rename_i host hslot
        have hanswer := hB.host host (Array.mem_of_getElem? hslot) b.name args ha
        refine ⟨.same, fun _ => ?_⟩
        cases hr : host b.name args with
        | ok v => rw [hr] at hanswer; exact hanswer
        | error f => rw [hr] at hanswer; exact hanswer
      · exact ⟨.same, fun _ => hB.nil⟩
  unfold Builtin.run
  split
  · exact hroutine
  · split
    · exact hroutine
    · exact ⟨.same, fun _ => trivial⟩

end TinyLisp
