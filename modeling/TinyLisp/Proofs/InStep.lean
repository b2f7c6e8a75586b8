import TinyLisp.Proofs.PathPrinter
import TinyLisp.Proofs.References

/-!
# States in step

Two states agree on some references if they differ in nothing but past effects and the scopes and cells
that are not among them. Whatever reads scopes and cells follows references: looking a name up, finding
the root, reading a cell and printing a value. So it comes to the same in both states if the references
lead to no others. Whatever is made gets the same number in both, since as much has been made before.

* `State.Agree`: the states agree on the references `R`.
* `State.InStep`: in addition they have had the same effects since they were told apart.
* `Builtin.run_inStep`: a built-in function answers the same in both and leaves them in step.
-/

namespace TinyLisp

open Machine State

/-- The states agree on the references `R`, and in everything but scopes, cells and effects. As many
scopes and cells have been made in both. -/
structure State.Agree (R : Ref → Prop) (s t : State) : Prop where
  rest : t = { s with scopes := t.scopes, cells := t.cells, effects := t.effects }
  scopes_size : t.scopes.size = s.scopes.size
  cells_size : t.cells.size = s.cells.size
  scopes : ∀ e, R (.scope e) → t.scopes[e]? = s.scopes[e]?
  cells : ∀ c, R (.cell c) → t.cells[c]? = s.cells[c]?

/-- The states agree, and the same effects have come on top of `past` in one and of `past'` in the
other. -/
structure State.InStep (R : Ref → Prop) (past past' : List Effect) (s t : State) : Prop
    extends s.Agree R t where
  effects : ∃ new, s.effects = new ++ past ∧ t.effects = new ++ past'

/-- Agreement on more is agreement on less. -/
theorem State.Agree.mono {R R' : Ref → Prop} {s t : State} (h : s.Agree R t)
    (hle : ∀ r, R' r → R r) : s.Agree R' t :=
  ⟨h.rest, h.scopes_size, h.cells_size, fun e he => h.scopes e (hle _ he),
    fun c hc => h.cells c (hle _ hc)⟩

/-! ## Reading -/

section Render

variable {R : Ref → Prop} {cells cells' : Array Value}

open Value in
mutual

/-- The printed form of a value depends only on the cells that can be reached from it. -/
theorem renderOnto_local (hsize : cells'.size = cells.size)
    (hcells : ∀ c, R (.cell c) → cells'[c]? = cells[c]?)
    (hR : ∀ c v, R (.cell c) → cells[c]? = some v → ∀ r ∈ v.refs, R r) (path : List CellId)
    (v : Value) (hv : ∀ r ∈ v.refs, R r) (rest : Text) :
    v.renderOnto cells' path rest = v.renderOnto cells path rest := by
  cases v with
  | list source items =>
    rw [renderOnto, renderOnto, renderItemsOnto_local hsize hcells hR path items hv]
  | atom c =>
    rw [renderOnto, renderOnto]
    by_cases hp : path.contains c
    · rw [dif_pos hp, dif_pos hp]
    · rw [dif_neg hp, dif_neg hp]
      by_cases hc : c < cells.size
      · have hc' : c < cells'.size := hsize ▸ hc
        have hRc : R (.cell c) := hv _ (List.mem_singleton.2 rfl)
        have hget : cells'[c] = cells[c] := by
          have h := hcells c hRc
          rw [Array.getElem?_eq_getElem hc, Array.getElem?_eq_getElem hc'] at h
          exact Option.some.inj h
        have hcontents := hR c _ hRc (Array.getElem?_eq_getElem hc)
        have := unopened_cons_lt hc hp
        rw [dif_pos hc, dif_pos hc', hget,
          renderOnto_local hsize hcells hR (c :: path) cells[c] hcontents]
      · rw [dif_neg hc, dif_neg (hsize ▸ hc)]
  | _ => rw [renderOnto, renderOnto]
termination_by (unopened cells.size path, sizeOf v)

theorem renderItemsOnto_local (hsize : cells'.size = cells.size)
    (hcells : ∀ c, R (.cell c) → cells'[c]? = cells[c]?)
    (hR : ∀ c v, R (.cell c) → cells[c]? = some v → ∀ r ∈ v.refs, R r) (path : List CellId)
    (vs : List Value) (hvs : ∀ r ∈ refsAll vs, R r) (rest : Text) :
    renderItemsOnto cells' path vs rest = renderItemsOnto cells path vs rest := by
  match vs with
  | [] => rw [renderItemsOnto, renderItemsOnto]
  | [v] =>
    obtain ⟨hv, -⟩ := List.forall_mem_append.1 hvs
    rw [renderItemsOnto, renderItemsOnto, renderOnto_local hsize hcells hR path v hv]
  | v :: w :: ws =>
    obtain ⟨hv, hws⟩ := List.forall_mem_append.1 hvs
    rw [renderItemsOnto, renderItemsOnto, renderItemsOnto_local hsize hcells hR path (w :: ws) hws,
      renderOnto_local hsize hcells hR path v hv]
termination_by (unopened cells.size path, sizeOf vs)

end

end Render

namespace State.Agree

variable {R : Ref → Prop} {s t : State} {e : ScopeId}

/-- Names mean the same in scopes that are agreed on. -/
theorem lookup_eq (h : s.Agree R t) (hs : s.Respects (.refs R)) (he : R (.scope e)) (name : Text) :
    t.scopes.lookup e name = s.scopes.lookup e name := by
  fun_induction Scopes.lookup s.scopes e name with
  | case1 e hnone =>
    rw [Scopes.lookup, h.scopes e he]
    simp only [hnone]
  | case2 e scope hscope v hfind =>
    rw [Scopes.lookup, h.scopes e he]
    simp only [hscope, hfind]
  | case3 e scope hscope hfind p hp hlt ih =>
    rw [Scopes.lookup, h.scopes e he]
    simp only [hscope, hfind, hp, if_pos hlt]
    exact ih (hs.parents e scope p he hscope hp)
  | case4 e scope hscope hfind p hp hle =>
    rw [Scopes.lookup, h.scopes e he]
    simp only [hscope, hfind, hp, if_neg hle]
  | case5 e scope hscope hfind hp =>
    rw [Scopes.lookup, h.scopes e he]
    simp only [hscope, hfind, hp]

/-- Scopes that are agreed on have the same root. -/
theorem root_eq (h : s.Agree R t) (hs : s.Respects (.refs R)) (he : R (.scope e)) :
    t.scopes.root e = s.scopes.root e := by
  fun_induction Scopes.root s.scopes e with
  | case1 e hnone =>
    rw [Scopes.root, h.scopes e he]
    simp only [hnone]
  | case2 e scope hscope p hp hlt ih =>
    rw [Scopes.root, h.scopes e he]
    simp only [hscope, hp, if_pos hlt]
    exact ih (hs.parents e scope p he hscope hp)
  | case3 e scope hscope p hp hle =>
    rw [Scopes.root, h.scopes e he]
    simp only [hscope, hp, if_neg hle]
  | case4 e scope hscope hp =>
    rw [Scopes.root, h.scopes e he]
    simp only [hscope, hp]

/-- Cells that are agreed on hold the same. -/
theorem contents_eq (h : s.Agree R t) {c : CellId} (hc : R (.cell c)) :
    t.contents c = s.contents c := by
  unfold State.contents
  rw [h.cells c hc]

/-- Values that refer to what is agreed on are printed alike. -/
theorem render_eq (h : s.Agree R t) (hs : s.Respects (.refs R)) {v : Value}
    (hv : v.Respects (.refs R)) : v.render t.cells = v.render s.cells := by
  have hcells : ∀ c v, R (.cell c) → s.cells[c]? = some v → ∀ r ∈ v.refs, R r :=
    fun c v hc hget => Value.respects_refs.1 (hs.cells c v hc hget)
  rw [Value.render_eq, Value.render_eq,
    renderOnto_local h.cells_size h.cells hcells [] v (Value.respects_refs.1 hv) []]

/-- Faults that refer to what is agreed on have the same message. -/
theorem message_eq (h : s.Agree R t) (hs : s.Respects (.refs R)) {f : Fault}
    (hf : f.Respects (.refs R)) : t.message f = s.message f := by
  unfold State.message
  induction f with
  | typeMismatch function position expected got =>
    rw [Fault.message, Fault.message, h.render_eq hs hf]
  | notCallable got => rw [Fault.message, Fault.message, h.render_eq hs hf]
  | malformed form source problem =>
    cases problem with
    | notSymbol got =>
      rw [Fault.message, Fault.message, FormProblem.message, FormProblem.message, h.render_eq hs hf]
    | _ => rfl
  | within context cause ih => rw [Fault.message, Fault.message, ih hf]
  | _ => rfl

theorem stack_eq (h : s.Agree R t) : t.stack = s.stack := by rw [h.rest]

end State.Agree

/-! ## Writing -/

namespace State.InStep

variable {R : Ref → Prop} {past past' : List Effect} {s t s' t' : State} {e : ScopeId}

/-- The same is done to both states, but to no scope and no cell. -/
theorem of_rest (new : List Effect) (h : s.InStep R past past' t)
    (hrest : t' = { s' with scopes := t.scopes, cells := t.cells, effects := t'.effects })
    (hscopes : s'.scopes = s.scopes) (hcells : s'.cells = s.cells)
    (hnew : s'.effects = new ++ s.effects) (hnew' : t'.effects = new ++ t.effects) :
    s'.InStep R past past' t' := by
  have hscopes' : t'.scopes = t.scopes := by rw [hrest]
  have hcells' : t'.cells = t.cells := by rw [hrest]
  obtain ⟨old, hs, ht⟩ := h.effects
  refine ⟨⟨?_, ?_, ?_, ?_, ?_⟩, new ++ old, ?_, ?_⟩
  · rw [hscopes', hcells']
    exact hrest
  · rw [hscopes, hscopes', h.scopes_size]
  · rw [hcells, hcells', h.cells_size]
  · rw [hscopes, hscopes']
    exact h.scopes
  · rw [hcells, hcells']
    exact h.cells
  · rw [hnew, hs, List.append_assoc]
  · rw [hnew', ht, List.append_assoc]

theorem withStack (h : s.InStep R past past' t) (stack : CallStack) :
    InStep R past past' { s with stack } { t with stack } :=
  h.of_rest [] (by rw [h.rest]) rfl rfl rfl rfl

theorem note (h : s.InStep R past past' t) (effect : Effect) :
    (s.note effect).InStep R past past' (t.note effect) :=
  h.of_rest [effect] (by rw [h.rest]; rfl) rfl rfl rfl rfl

theorem debug (h : s.InStep R past past' t) (message : Text) (fields : List (Text × Log.Field)) :
    (s.debug message fields).InStep R past past' (t.debug message fields) := by
  have hlog : t.log = s.log := by rw [h.rest]
  unfold State.debug logRecord
  rw [hlog]
  split
  · exact h.note _
  · exact h

/-- Both can print a text, or neither. -/
theorem print (h : s.InStep R past past' t) (text : Text) :
    Option.Rel (InStep R past past') (s.print? text) (t.print? text) := by
  have hstdout : t.stdout = s.stdout := by rw [h.rest]
  unfold State.print?
  rw [hstdout]
  cases s.stdout.write? with
  | none => exact .none
  | some stdout => exact .some (h.of_rest [_] (by rw [h.rest]; rfl) rfl rfl rfl rfl)

/-- Both can print the call stack, or neither. -/
theorem printStack (h : s.InStep R past past' t) :
    t.printStack.1 = s.printStack.1 ∧ s.printStack.2.InStep R past past' t.printStack.2 := by
  have hstderr : t.stderr = s.stderr := by rw [h.rest]
  rw [s.printStack_eq, t.printStack_eq, h.stack_eq, hstderr]
  exact ⟨rfl, h.of_rest _ (by rw [h.rest]) rfl rfl rfl rfl⟩

/-- A new closure gets the same identity in both states. -/
theorem newClosure (h : s.InStep R past past' t) (formals : List Text) (body : Value) (e : ScopeId) :
    (t.newClosure formals body e).1 = (s.newClosure formals body e).1 ∧
      (s.newClosure formals body e).2.InStep R past past' (t.newClosure formals body e).2 := by
  have hclosures : t.closures = s.closures := by rw [h.rest]
  unfold State.newClosure
  rw [hclosures]
  exact ⟨rfl, h.of_rest [] (by rw [h.rest]) rfl rfl rfl rfl⟩

theorem withScopes (h : s.InStep R past past' t) {scopes scopes' : Scopes}
    (hsize : scopes'.size = scopes.size)
    (hscopes : ∀ e : ScopeId, R (.scope e) → scopes'[e]? = scopes[e]?) :
    InStep R past past' { s with scopes } { t with scopes := scopes' } :=
  ⟨⟨by rw [h.rest], hsize, h.cells_size, hscopes, h.cells⟩, h.effects⟩

theorem withCells (h : s.InStep R past past' t) {cells cells' : Array Value}
    (hsize : cells'.size = cells.size)
    (hcells : ∀ c : CellId, R (.cell c) → cells'[c]? = cells[c]?) :
    InStep R past past' { s with cells } { t with cells := cells' } :=
  ⟨⟨by rw [h.rest], h.scopes_size, hsize, h.scopes, hcells⟩, h.effects⟩

/-- Binding a name keeps states in step, in whatever scope. -/
theorem bind (h : s.InStep R past past' t) (e : ScopeId) (name : Text) (v : Value) :
    (s.bind e name v).InStep R past past' (t.bind e name v) := by
  refine h.withScopes ?_ fun e' he' => ?_
  · unfold Scopes.put
    rw [Array.size_modify, Array.size_modify, h.scopes_size]
  · rw [Scopes.getElem?_put, Scopes.getElem?_put, h.scopes e' he']

theorem bindAll (h : s.InStep R past past' t) (e : ScopeId) (names : List Text) (vs : List Value) :
    (s.bindAll e names vs).InStep R past past' (t.bindAll e names vs) := by
  induction names generalizing s t vs with
  | nil => exact h
  | cons name names ih =>
    cases vs with
    | nil => exact h
    | cons v vs => exact ih (h.bind e name v) vs

/-- A new scope gets the same number in both states. -/
theorem newScope (h : s.InStep R past past' t) (p : ScopeId) :
    (t.newScope p).1 = (s.newScope p).1 ∧
      (s.newScope p).2.InStep R past past' (t.newScope p).2 := by
  refine ⟨h.scopes_size, h.withScopes ?_ fun e he => ?_⟩
  · rw [Array.size_push, Array.size_push, h.scopes_size]
  · rw [Array.getElem?_push, Array.getElem?_push, h.scopes_size, h.scopes e he]

/-- Both bind the parameters of a closure in a scope with the same number. -/
theorem callScope (h : s.InStep R past past' t) (formals : List Text) (e : ScopeId)
    (args : List Value) :
    (callScope formals e args t).1 = (callScope formals e args s).1 ∧
      (callScope formals e args s).2.InStep R past past' (callScope formals e args t).2 := by
  obtain ⟨hnumber, hscope⟩ := h.newScope e
  refine ⟨hnumber, ?_⟩
  unfold Machine.callScope
  dsimp only
  rw [hnumber]
  exact hscope.bindAll _ formals args

/-- A new cell gets the same number in both states. -/
theorem newAtom (h : s.InStep R past past' t) (v : Value) :
    (t.newAtom v).1 = (s.newAtom v).1 ∧ (s.newAtom v).2.InStep R past past' (t.newAtom v).2 := by
  refine ⟨congrArg Value.atom h.cells_size, h.withCells ?_ fun c hc => ?_⟩
  · rw [Array.size_push, Array.size_push, h.cells_size]
  · rw [Array.getElem?_push, Array.getElem?_push, h.cells_size, h.cells c hc]

/-- Storing a value keeps states in step, in whatever cell. -/
theorem store (h : s.InStep R past past' t) (c : CellId) (v : Value) :
    (s.store c v).InStep R past past' (t.store c v) := by
  refine h.withCells ?_ fun c' hc' => ?_
  · rw [Array.size_setIfInBounds, Array.size_setIfInBounds, h.cells_size]
  · rw [Array.getElem?_setIfInBounds, Array.getElem?_setIfInBounds, h.cells_size, h.cells c' hc']

end State.InStep

/-! ## Built-in functions -/

/-- Both answer the same, and leave states in step. -/
structure Reply.InStep (R : Ref → Prop) (past past' : List Effect) (r r' : Reply × State) : Prop where
  reply : r'.1 = r.1
  state : r.2.InStep R past past' r'.2

section Builtins

variable {R : Ref → Prop} {past past' : List Effect} {s t : State}

/-- Both read the same file. -/
theorem slurpFile_inStep (h : s.InStep R past past' t) (name path : Text) :
    Reply.InStep R past past' (Primitive.slurpFile name path s) (Primitive.slurpFile name path t) := by
  have hfiles : t.files = s.files := by rw [h.rest]
  have hread : (t.note (.opened path)).files.read path = (s.note (.opened path)).files.read path := by
    unfold State.note
    rw [hfiles]
  unfold Primitive.slurpFile
  dsimp only
  rw [hread]
  split
  · exact ⟨rfl, (h.note _).debug _ _⟩
  · exact ⟨rfl, h.note _⟩

/-- What a function of the language answers depends only on what can be reached from its arguments. -/
theorem Primitive.run_inStep (p : Primitive) (name : Text) {args : List Value}
    (h : s.InStep R past past' t) (hs : s.Respects (.refs R)) (ha : RespectAll (.refs R) args) :
    Reply.InStep R past past' (p.run name args s) (p.run name args t) := by
  unfold Primitive.run
  split <;> try exact ⟨rfl, h⟩
  · split
    · exact slurpFile_inStep h name _
    · exact ⟨rfl, h⟩
  · split
    · have hreads : t.reads = s.reads := by rw [h.rest]
      refine ⟨?_, h⟩
      simp only [State.readForm, hreads]
    · exact ⟨rfl, h⟩
  · rename_i a
    obtain ⟨hatom, hstate⟩ := h.newAtom a
    exact ⟨congrArg Reply.value hatom, hstate⟩
  · rename_i a
    split
    · rename_i c hc
      have hcell : R (.cell c) := cell_of_cellArgument (ha a (by simp)) hc
      exact ⟨congrArg Reply.value (h.contents_eq hcell), h⟩
    · exact ⟨rfl, h⟩
  · split
    · exact ⟨rfl, h.store _ _⟩
    · exact ⟨rfl, h⟩
  · split
    · split
      · exact ⟨rfl, h⟩
      · exact ⟨rfl, h⟩
    · exact ⟨rfl, h⟩
  · rename_i a
    have hprinted : t.printed a = s.printed a := h.render_eq hs (ha a (by simp))
    rw [hprinted]
    have hprint := h.print (s.printed a ++ [10])
    generalize s.print? (s.printed a ++ [10]) = written,
      t.print? (s.printed a ++ [10]) = written' at hprint ⊢
    cases hprint with
    | none => exact ⟨rfl, h⟩
    | some hstate => exact ⟨rfl, hstate⟩
  · obtain ⟨hdone, hstate⟩ := h.printStack
    refine ⟨?_, hstate⟩
    dsimp only
    rw [hdone]
  · split
    · exact ⟨rfl, h⟩
    · exact ⟨rfl, h⟩

/-- **A built-in function keeps states in step**, if its arguments refer to what is agreed on. -/
theorem Builtin.run_inStep (b : Builtin) {args : List Value} (h : s.InStep R past past' t)
    (hs : s.Respects (.refs R)) (ha : RespectAll (.refs R) args) :
    Reply.InStep R past past' (b.run args s) (b.run args t) := by
  have hroutine : Reply.InStep R past past' (b.runRoutine args s) (b.runRoutine args t) := by
    have hhosts : t.hosts = s.hosts := by rw [h.rest]
    unfold Builtin.runRoutine
    rw [hhosts]
    split
    · exact Primitive.run_inStep _ _ h hs ha
    · split
      · exact ⟨rfl, h⟩
      · exact ⟨rfl, h⟩
  unfold Builtin.run
  split
  · exact hroutine
  · split
    · exact hroutine
    · exact ⟨rfl, h⟩

end Builtins

end TinyLisp
