import TinyLisp.Proofs.Failures
import TinyLisp.Proofs.PathPrinter
import TinyLisp.Proofs.Vocabulary

/-!
# No program sees an invalid value

A fault is proper if it mentions no invalid value and is not of the class of `invalidValue`, which is
the fault of evaluating one. In a state without invalid values, whose functions of the embedding
program make none and raise proper faults only, evaluation goes on without invalid values and fails
with proper faults only.

What a program shows for `Value.invalid` is a branch of the printer. `Value.renderWith` and
`Fault.messageWith` are the printer and the texts of faults with any other text in that branch, and
the branch is out of reach if they show the same.

* `Value.Valid.renderWith_eq`, `Fault.Proper.messageWith_eq`: what is valid shows the same.
* `Builtin.run_proper`: built-in functions answer with proper faults.
* `proper_step`: every step keeps a machine proper.
* `invalid_unseen`: so does every way into the evaluator.
-/

namespace TinyLisp

open Machine

/-! ## Printing with another fallback -/

namespace Value

mutual

/-- Like `renderOnto`, with `fallback` for invalid values. -/
def renderWithOnto (fallback : Untyped → Text) (cells : Array Value) (path : List CellId) (v : Value)
    (rest : Text) : Text :=
  match v with
  | .scalar _ s => s.render ++ rest
  | .list _ items => 40 :: renderItemsWithOnto fallback cells path items (41 :: rest)
  | .closure .. => "<function>" ++ rest
  | .builtin b => "<builtin:" ++ b.name ++ ">" ++ rest
  | .atom c =>
    if hp : path.contains c then "(atom ...)" ++ rest
    else if hc : c < cells.size then
      have := unopened_cons_lt hc hp
      "(atom " ++ renderWithOnto fallback cells (c :: path) cells[c] (41 :: rest)
    else "(atom)" ++ rest
  | .invalid u => fallback u ++ rest
termination_by (unopened cells.size path, sizeOf v)

/-- Like `renderItemsOnto`, with `fallback` for invalid values. -/
def renderItemsWithOnto (fallback : Untyped → Text) (cells : Array Value) (path : List CellId)
    (vs : List Value) (rest : Text) : Text :=
  match vs with
  | [] => rest
  | [v] => renderWithOnto fallback cells path v rest
  | v :: w :: ws =>
    renderWithOnto fallback cells path v
      (32 :: renderItemsWithOnto fallback cells path (w :: ws) rest)
termination_by (unopened cells.size path, sizeOf vs)

end

/-- The printed form of a value, with `fallback` for invalid values. -/
def renderWith (fallback : Untyped → Text) (cells : Array Value) (v : Value) : Text :=
  renderWithOnto fallback cells [] v []

theorem renderWith_invalid (fallback : Untyped → Text) (cells : Array Value) (u : Untyped) :
    (Value.invalid u).renderWith fallback cells = fallback u := by
  rw [renderWith, renderWithOnto, List.append_nil]

section Printing

variable {fallback : Untyped → Text} {cells : Array Value}

mutual

/-- The printer shows the same if it has its own fallback or does not come to it. -/
theorem renderWithOnto_eq
    (hcells : fallback = Untyped.render ∨ ∀ c (h : c < cells.size), cells[c].Valid)
    (path : List CellId) (v : Value) (hv : fallback = Untyped.render ∨ v.Valid) (rest : Text) :
    v.renderWithOnto fallback cells path rest = v.renderOnto cells path rest := by
  cases v with
  | list source items =>
    rw [valid_list] at hv
    rw [renderWithOnto, renderOnto, renderItemsWithOnto_eq hcells path items hv]
  | atom c =>
    rw [renderWithOnto, renderOnto]
    by_cases hp : path.contains c
    · rw [dif_pos hp, dif_pos hp]
    · rw [dif_neg hp, dif_neg hp]
      by_cases hc : c < cells.size
      · have := unopened_cons_lt hc hp
        have hcontents : fallback = Untyped.render ∨ cells[c].Valid := hcells.imp_right fun h => h c hc
        rw [dif_pos hc, dif_pos hc, renderWithOnto_eq hcells (c :: path) cells[c] hcontents]
      · rw [dif_neg hc, dif_neg hc]
  | invalid u =>
    rcases hv with rfl | hv
    · rw [renderWithOnto, renderOnto]
    · cases hv
  | _ => rw [renderWithOnto, renderOnto]
termination_by (unopened cells.size path, sizeOf v)

theorem renderItemsWithOnto_eq
    (hcells : fallback = Untyped.render ∨ ∀ c (h : c < cells.size), cells[c].Valid)
    (path : List CellId) (vs : List Value) (hvs : fallback = Untyped.render ∨ ValidAll vs)
    (rest : Text) :
    renderItemsWithOnto fallback cells path vs rest = renderItemsOnto cells path vs rest := by
  match vs with
  | [] => rw [renderItemsWithOnto, renderItemsOnto]
  | [v] =>
    have hv := hvs.imp_right fun h => h v List.mem_cons_self
    rw [renderItemsWithOnto, renderItemsOnto, renderWithOnto_eq hcells path v hv]
  | v :: w :: ws =>
    have hv := hvs.imp_right fun h => h v List.mem_cons_self
    have hws : fallback = Untyped.render ∨ ValidAll (w :: ws) :=
      hvs.imp_right fun h => (validAll_cons.1 h).2
    rw [renderItemsWithOnto, renderItemsOnto, renderItemsWithOnto_eq hcells path (w :: ws) hws,
      renderWithOnto_eq hcells path v hv]
termination_by (unopened cells.size path, sizeOf vs)

end

/-- Valid values in cells that hold valid values are printed without the last branch, so any text
will do there. -/
theorem renderWith_eq_render
    (hcells : fallback = Untyped.render ∨ ∀ c (h : c < cells.size), cells[c].Valid)
    {v : Value} (hv : fallback = Untyped.render ∨ v.Valid) :
    v.renderWith fallback cells = v.render cells := by
  rw [renderWith, render_eq, renderWithOnto_eq hcells [] v hv []]

/-- With its own fallback it is the printer. -/
theorem renderWith_self (cells : Array Value) (v : Value) :
    v.renderWith Untyped.render cells = v.render cells :=
  renderWith_eq_render (.inl rfl) (.inl rfl)

end Printing

end Value

/-! ## Faults -/

/-- The text of a problem, with `fallback` for invalid values. -/
def FormProblem.messageWith (fallback : Untyped → Text) (cells : Array Value) : FormProblem → Text
  | .notSymbol got => "expected a symbol but got " ++ got.renderWith fallback cells
  | problem => problem.message cells

/-- The text of a fault, with `fallback` for invalid values. -/
def Fault.messageWith (fallback : Untyped → Text) (cells : Array Value) : Fault → Text
  | .typeMismatch function position expected got =>
    "type mismatch: expected " ++ expected.name ++ " at argument position " ++ Text.ofInt position
      ++ " of " ++ function ++ " but got " ++ got.renderWith fallback cells
  | .notCallable got => "attempted to call a non-function: " ++ got.renderWith fallback cells
  | .malformed form source problem =>
    located source (form ++ ": " ++ problem.messageWith fallback cells)
  | .within context cause => context ++ ": " ++ cause.messageWith fallback cells
  | fault => fault.message cells

/-- The values that a fault mentions are valid, and it is not raised with the condition of
`invalidValue`. -/
def Fault.Proper : Fault → Prop
  | .typeMismatch _ _ _ got => got.Valid
  | .notCallable got => got.Valid
  | .malformed _ _ (.notSymbol got) => got.Valid
  | .raised condition _ => condition ≠ invalidValue.condition
  | .within _ cause => cause.Proper
  | _ => True

/-- The functions of the embedding program make no invalid values and raise proper faults only. -/
structure State.Proper (s : State) : Prop where
  valid : s.Valid
  hosts : ∀ host ∈ s.hosts, ∀ name args fault, ValidAll args → host name args = .error fault →
    fault.Proper

section Faults

variable {s : State} {v : Value} {fault : Fault}

theorem State.Valid.contents_valid (hs : s.Valid) (c : CellId) (h : c < s.cells.size) :
    s.cells[c].Valid := hs.cells c _ (Array.getElem?_eq_getElem h)

/-- **A valid value shows the same, whatever is shown for an invalid one.** -/
theorem Value.Valid.renderWith_eq (hv : v.Valid) (hs : s.Valid) (fallback : Untyped → Text) :
    v.renderWith fallback s.cells = s.printed v :=
  renderWith_eq_render (.inr hs.contents_valid) (.inr hv)

/-- **So does a proper fault.** -/
theorem Fault.Proper.messageWith_eq (hf : fault.Proper) (hs : s.Valid) (fallback : Untyped → Text) :
    fault.messageWith fallback s.cells = s.message fault := by
  induction fault with
  | typeMismatch function position expected got =>
    exact congrArg (_ ++ ·) (Value.Valid.renderWith_eq hf hs fallback)
  | notCallable got => exact congrArg (_ ++ ·) (Value.Valid.renderWith_eq hf hs fallback)
  | malformed form source problem =>
    refine congrArg (fun text => located source (form ++ ": " ++ text)) ?_
    cases problem with
    | notSymbol got => exact congrArg (_ ++ ·) (Value.Valid.renderWith_eq hf hs fallback)
    | _ => rfl
  | within context cause ih => exact congrArg (_ ++ ·) (ih hf)
  | _ => rfl

theorem Fault.messageWith_self (fault : Fault) (cells : Array Value) :
    fault.messageWith Untyped.render cells = fault.message cells := by
  induction fault with
  | typeMismatch => rw [messageWith, message, Value.renderWith_self]
  | notCallable => rw [messageWith, message, Value.renderWith_self]
  | malformed form source problem =>
    cases problem with
    | notSymbol got =>
      rw [messageWith, message, FormProblem.messageWith, FormProblem.message, Value.renderWith_self]
    | _ => rfl
  | within context cause ih => rw [messageWith, message, ih]
  | _ => rfl

/-- A proper fault is no complaint about an invalid value. -/
theorem Fault.Proper.condition_ne (hf : fault.Proper) :
    fault.condition ≠ invalidValue.condition := by
  induction fault with
  | raised condition message => exact hf
  | within context cause ih => exact ih hf
  | malformed form source problem =>
    unfold condition
    split <;> decide
  | unreadable error =>
    unfold condition
    cases error.reason <;> decide
  | _ =>
    unfold condition
    decide

end Faults

/-! ## Built-in functions -/

/-- A reply that is a fault is a proper one. -/
def Reply.Proper : Reply → Prop
  | .fault f => f.Proper
  | _ => True

namespace Primitive

variable {name : Text} {s : State}

/-- The argument that is no integer is valid. -/
theorem integers_proper {a b : Value} (ha : a.Valid) (hb : b.Valid) {fault : Fault}
    (h : integers name a b = .error fault) : fault.Proper := by
  unfold integers at h
  split at h
  · cases h
  · obtain rfl := Except.error.inj h
    exact ha
  · obtain rfl := Except.error.inj h
    exact hb

theorem arithmetic_proper (f : Int64 → Int64 → Int64) {a b : Value} (ha : a.Valid)
    (hb : b.Valid) : (arithmetic f name a b).Proper := by
  unfold arithmetic
  split
  · trivial
  · exact integers_proper ha hb ‹_›

theorem divide_proper {a b : Value} (ha : a.Valid) (hb : b.Valid) :
    (divide name a b).Proper := by
  unfold divide
  split
  · split
    · exact show ("division-by-zero" : Text) ≠ invalidValue.condition by decide
    · trivial
  · exact integers_proper ha hb ‹_›

/-- The argument that is no text is valid. -/
theorem concatenate_proper {position : Nat} {done : Text} {vs : List Value} (hvs : ValidAll vs) :
    (concatenate name position done vs).Proper := by
  fun_induction concatenate name position done vs with
  | case1 => trivial
  | case2 _ _ _ _ _ ih => exact ih (validAll_cons.1 hvs).2
  | case3 => exact (validAll_cons.1 hvs).1

/-- The argument that is no text is valid. -/
theorem stringArgument_proper {a : Value} (ha : a.Valid) {fault : Fault}
    (h : stringArgument name a = .error fault) : fault.Proper := by
  unfold stringArgument at h
  split at h
  · cases h
  · obtain rfl := Except.error.inj h
    exact ha

/-- The argument that is no atom is valid. -/
theorem cellArgument_proper {a : Value} (ha : a.Valid) {fault : Fault}
    (h : cellArgument name a = .error fault) : fault.Proper := by
  unfold cellArgument at h
  split at h
  · cases h
  · obtain rfl := Except.error.inj h
    exact ha

/-- A text that cannot be read is a proper fault. -/
theorem readForm_proper (file bytes : Text) (failure : Option Text) :
    (Reply.ofExcept (s.readForm file bytes failure)).Proper := by
  unfold State.readForm
  split
  · split <;> trivial
  · exact show ("no-reader" : Text) ≠ invalidValue.condition by decide

theorem slurpFile_proper (path : Text) : (slurpFile name path s).1.Proper := by
  simp only [slurpFile]
  split <;> trivial

/-- **A function of the language fails properly**, if its arguments are valid. -/
theorem run_proper (p : Primitive) {args : List Value} (hargs : ValidAll args) :
    (p.run name args s).1.Proper := by
  unfold Primitive.run
  split <;> try trivial
  · rw [validAll_cons, validAll_cons] at hargs
    exact arithmetic_proper _ hargs.1 hargs.2.1
  · rw [validAll_cons, validAll_cons] at hargs
    exact arithmetic_proper _ hargs.1 hargs.2.1
  · rw [validAll_cons, validAll_cons] at hargs
    exact arithmetic_proper _ hargs.1 hargs.2.1
  · rw [validAll_cons, validAll_cons] at hargs
    exact divide_proper hargs.1 hargs.2.1
  · exact concatenate_proper hargs
  · split
    · exact slurpFile_proper _
    · exact stringArgument_proper (validAll_cons.1 hargs).1 ‹_›
  · split
    · exact readForm_proper _ _ _
    · exact stringArgument_proper (validAll_cons.1 hargs).1 ‹_›
  · split
    · trivial
    · exact cellArgument_proper (validAll_cons.1 hargs).1 ‹_›
  · split
    · trivial
    · exact cellArgument_proper (validAll_cons.1 hargs).1 ‹_›
  · rw [validAll_cons, validAll_cons] at hargs
    split
    · split
      · trivial
      · exact hargs.2.1
    · exact cellArgument_proper hargs.1 ‹_›
  · split <;> trivial
  · dsimp only
    split <;> trivial
  · split <;> trivial

end Primitive

/-- **Built-in functions answer valid arguments with values or with proper faults.** -/
theorem Builtin.run_proper (b : Builtin) {args : List Value} {s : State} (hs : s.Proper)
    (hargs : ValidAll args) : (b.run args s).1.Proper := by
  have h : (b.runRoutine args s).1.Proper := by
    unfold Builtin.runRoutine
    split
    · exact Primitive.run_proper _ hargs
    · split
      · rename_i host hslot
        cases hr : host b.name args with
        | ok v => trivial
        | error fault =>
          exact hs.hosts host (Array.mem_of_getElem? hslot) b.name args fault hargs hr
      · trivial
  unfold Builtin.run
  split
  · exact h
  · split
    · exact h
    · trivial

/-! ## Machines -/

namespace Machine

section Faults

variable {ks : List Kont} {s : State} {e : ScopeId} {m m' : Machine}

/-- If the machine fails, it is with a proper fault. -/
def FailsProperly (m : Machine) : Prop := ∀ f, m.focus = .failure f → f.fault.Proper

/-- A machine that has not failed has not failed improperly. -/
theorem properly_of_running (h : m.focus.isFailure = false) : m.FailsProperly :=
  fun f hf => absurd hf (ne_failure h f)

theorem fail_proper {fault : Fault} (h : fault.Proper) : (fail fault ks s).FailsProperly := by
  intro f hf
  obtain rfl := Focus.failure.inj hf
  exact h

theorem failHere_proper {fault : Fault} (h : fault.Proper) :
    (failHere fault ks s).FailsProperly := by
  intro f hf
  obtain rfl := Focus.failure.inj hf
  exact h

theorem lookup_proper (e : ScopeId) (name : Text) :
    (settle (s.lookup e name) ks s).FailsProperly := by
  unfold State.lookup
  split
  · exact properly_of_running rfl
  · exact fail_proper trivial

/-- An overflow is a proper fault. -/
theorem enter_proper (name : Text) (expr : Value) (e : ScopeId) :
    (enter name expr e ks s).FailsProperly := by
  unfold enter
  split
  · exact properly_of_running rfl
  · exact failHere_proper trivial

theorem arityFault_proper {lenient : Bool} {name : Text} {formals : List Text}
    {args : List Value} {fault : Fault} (h : arityFault? lenient name formals args = some fault) :
    fault.Proper := by
  unfold arityFault? at h
  split at h <;> cases h
  trivial

/-- A built-in function fails properly in a proper state. -/
theorem callBuiltin_proper (hs : s.Proper) (b : Builtin) {args : List Value}
    (hargs : ValidAll args) : (callBuiltin b args ks s).FailsProperly := by
  unfold callBuiltin
  split
  · exact failHere_proper trivial
  · rename_i stack _
    have hstack : State.Proper { s with stack } := ⟨hs.valid.of_eq rfl rfl rfl, hs.hosts⟩
    have hrun := Builtin.run_proper b hstack hargs
    split <;> rename_i h <;> rw [h] at hrun
    · exact properly_of_running rfl
    · exact fail_proper hrun
    · exact properly_of_running rfl

/-- A valid function that is called in tail position fails properly. -/
theorem call_proper (hs : s.Proper) {f : Value} (hf : f.Valid) (name : Text) {args : List Value}
    (hargs : ValidAll args) : (call f name args ks s).FailsProperly := by
  unfold call
  split
  · split
    · exact fail_proper (arityFault_proper ‹_›)
    · exact properly_of_running rfl
  · exact callBuiltin_proper hs _ hargs
  · exact fail_proper hf

/-- A valid function that is applied fails properly. -/
theorem apply_proper (hs : s.Proper) {f : Value} (hf : f.Valid) {args : List Value}
    (hargs : ValidAll args) : (apply f args ks s).FailsProperly := by
  unfold apply
  split
  · split
    · exact failHere_proper (arityFault_proper ‹_›)
    · exact enter_proper _ _ _
  · exact callBuiltin_proper hs _ hargs
  · exact failHere_proper hf

theorem arguments_proper (hs : s.Proper) {f : Value} (hf : f.Valid) (name : Text)
    {done ahead : List Value} (hd : ValidAll done) (e : ScopeId) :
    (arguments f name done ahead e ks s).FailsProperly := by
  unfold arguments
  split
  · exact call_proper hs hf name (validAll_reverse hd)
  · exact properly_of_running rfl

/-- The name in a binding that is no symbol is valid. -/
theorem bindings_proper (site : FormSite) {ahead : List Value} (ha : ValidAll ahead)
    (body : Value) (e : ScopeId) : (bindings site ahead body e ks s).FailsProperly := by
  unfold bindings
  split
  · exact properly_of_running rfl
  · exact fail_proper trivial
  · split
    · exact properly_of_running rfl
    · exact fail_proper (validAll_cons.1 ha).1

theorem sequence_proper (exprs : List Value) (e : ScopeId) :
    (sequence exprs e ks s).FailsProperly := by
  unfold sequence
  split <;> exact properly_of_running rfl

/-- The value in a parameter list that is no symbol is one of the list. -/
theorem parameters_valid {items : List Value} {v : Value} (hi : ValidAll items)
    (h : parameters items = .error v) : v.Valid := by
  fun_induction parameters items with
  | case1 => cases h
  | case2 v' vs hv =>
    obtain rfl := Except.error.inj h
    exact (validAll_cons.1 hi).1
  | case3 => cases h
  | case4 v' vs name hname w hw ih =>
    obtain rfl := Except.error.inj h
    exact ih (validAll_cons.1 hi).2 hw

/-- What a special form complains about is one of its operands, or their number. -/
theorem special_proper (form : SpecialForm) (site : FormSite) {operands : List Value}
    (hx : ValidAll operands) (e : ScopeId) :
    (special form site operands e ks s).FailsProperly := by
  unfold special
  split <;> try exact fail_proper trivial
  · split
    · exact properly_of_running rfl
    · exact fail_proper (validAll_cons.1 hx).1
  · rw [validAll_cons, Value.valid_list] at hx
    split
    · exact bindings_proper site hx.1 _ _
    · exact fail_proper trivial
  · rw [validAll_cons, Value.valid_list] at hx
    split
    · exact bindings_proper site hx.1 _ _
    · exact fail_proper trivial
  · exact sequence_proper operands e
  · exact properly_of_running rfl
  · exact properly_of_running rfl
  · rw [validAll_cons, Value.valid_list] at hx
    split
    · exact properly_of_running rfl
    · exact fail_proper (parameters_valid hx.1 ‹_›)
  · exact properly_of_running rfl

/-- The only place where an invalid value is a fault. -/
theorem expression_proper {expr : Value} (hx : expr.Valid) (e : ScopeId) :
    (expression expr e ks s).FailsProperly := by
  unfold expression
  split
  · exact lookup_proper e _
  · exact fail_proper trivial
  · rw [Value.valid_list, validAll_cons] at hx
    split
    · exact special_proper _ _ hx.2 e
    · exact properly_of_running rfl
  · cases hx
  · exact properly_of_running rfl

theorem operand_proper (expr : Value) (e : ScopeId) :
    (operand expr e ks s).FailsProperly := by
  unfold operand
  split
  · exact lookup_proper e _
  · exact enter_proper _ _ e
  · exact properly_of_running rfl

/-- Going on with a valid value fails properly. -/
theorem resume_proper (hs : s.Proper) {k : Kont} (hk : k.Valid) {v : Value} (hv : v.Valid) :
    (resume k v ks s).FailsProperly := by
  cases k with
  | callee head args e => exact arguments_proper hs hv _ validAll_nil e
  | argument f name done ahead e =>
    exact arguments_proper hs hk.1 name (validAll_cons.2 ⟨hv, hk.2.1⟩) e
  | binding site name ahead body e => exact bindings_proper site hk.1 body e
  | sequence ahead e => exact sequence_proper ahead e
  | branch yes no e =>
    simp only [resume]
    split
    · exact properly_of_running rfl
    · cases no <;> exact properly_of_running rfl
  | leave => exact properly_of_running rfl
  | define => exact properly_of_running rfl
  | evaluate => exact properly_of_running rfl
  | update => exact properly_of_running rfl

/-- No value in the machine is invalid, and it fails with proper faults only. -/
structure Proper (m : Machine) : Prop where
  valid : m.Valid
  fault : m.FailsProperly
  state : m.state.Proper

/-- **Every step keeps a machine proper.** -/
theorem proper_step (hm : m.Proper) (h : m.step = .next m') : m'.Proper := by
  have hvalid := valid_step hm.valid h
  have hhosts := State.hosts_of_setup (setup_step h)
  refine ⟨hvalid, ?_, hvalid.state, hhosts ▸ hm.state.hosts⟩
  obtain ⟨focus, ks, s⟩ := m
  obtain ⟨⟨hfocus, hks, -⟩, hfault, hs⟩ := hm
  cases focus with
  | expression expr e =>
    obtain rfl := Step.next.inj h
    exact expression_proper hfocus e
  | operand expr e =>
    obtain rfl := Step.next.inj h
    exact operand_proper expr e
  | application f args =>
    obtain rfl := Step.next.inj h
    exact apply_proper hs hfocus.1 hfocus.2
  | value v =>
    cases ks with
    | nil => cases h
    | cons k ks =>
      obtain rfl := Step.next.inj h
      exact resume_proper hs (hks k List.mem_cons_self) hfocus
  | failure f =>
    cases ks with
    | nil => cases h
    | cons k ks =>
      obtain rfl := Step.next.inj h
      -- the failure keeps its fault on the way out
      have hkept : (unwind k f ks s).focus = .failure f ∨
          (unwind k f ks s).focus = .failure (f.attach s.stack) := by
        cases k with
        | leave => exact .inr rfl
        | _ => exact .inl rfl
      intro f' hf'
      rcases hkept with hkept | hkept
      · obtain rfl := Focus.failure.inj (hkept.symm.trans hf')
        exact hfault f rfl
      · obtain rfl := Focus.failure.inj (hkept.symm.trans hf')
        rw [f.attach_fault]
        exact hfault f rfl

/-- Propriety is kept along runs. -/
theorem Proper.reaches (hm : m.Proper) (h : Reaches m m') : m'.Proper :=
  h.preserves (fun _ _ => proper_step) hm

end Faults

end Machine

/-! ## Ways in -/

/-- What an evaluation starts from is valid. What a source is read to always is. -/
def Entry.Valid : Entry → Prop
  | .eval _ expr => expr.Valid
  | .apply f args => f.Valid ∧ ValidAll args
  | .load .. => True

/-- The outcome is a valid value or a proper fault, and the state that it leaves is proper. -/
def Outcome.Proper (out : Outcome) : Prop := (out.above []).Proper

section Entries

variable {s t : State} {e : ScopeId} {expr : Value} {m : Machine} {fuel : Nat} {out : Outcome}

/-- Every form that is read is valid. -/
theorem readAll_valid {file bytes : Text} {failure : Option Text} {forms : List Value}
    (h : readAll file bytes failure = .ok forms) : ValidAll forms :=
  fun _ hform => (readable_of_readAll h hform).valid

theorem State.Proper.debug (hs : s.Proper) (message : Text) (fields : List (Text × Log.Field)) :
    (s.debug message fields).Proper := by
  refine ⟨hs.valid.debug message fields, ?_⟩
  rw [State.hosts_of_setup (s.quiet_debug message fields).2]
  exact hs.hosts

theorem State.Proper.enter (hs : s.Proper) (hx : expr.Valid) (e : ScopeId) :
    (enter [] expr e [] s).Proper := by
  have hvalid : (Machine.enter [] expr e [] s).Valid :=
    enter_valid (List.forall_mem_nil _) hs.valid [] hx e
  have hhosts : (Machine.enter [] expr e [] s).state.hosts = s.hosts :=
    State.hosts_of_setup (enter_move [] expr e).setup_eq
  exact ⟨hvalid, enter_proper [] expr e, hvalid.state, hhosts ▸ hs.hosts⟩

theorem State.Proper.application (hs : s.Proper) {f : Value} {args : List Value} (hf : f.Valid)
    (hargs : ValidAll args) :
    Machine.Proper { focus := .application f args, konts := [], state := s } :=
  ⟨⟨⟨hf, hargs⟩, List.forall_mem_nil _, hs.valid⟩, properly_of_running rfl, hs⟩

theorem Machine.Proper.halts (hm : m.Proper) (h : Halts m out) : out.Proper :=
  hm.reaches (halts_iff_reaches.1 h)

theorem Outcome.Proper.reported (h : out.Proper) : out.reported.Proper := by
  obtain ⟨result, s⟩ := out
  cases result with
  | ok v => exact h
  | error f =>
    have hs : (s.debug "evaluation failed" [("condition", .text f.fault.condition),
        ("error", .text (s.message f.fault))]).Proper := h.state.debug _ _
    exact ⟨⟨trivial, List.forall_mem_nil _, hs.valid⟩, h.fault, hs⟩

/-- **What an evaluation comes to is proper.** -/
theorem State.Proper.eval (hs : s.Proper) (hx : expr.Valid) (h : s.eval fuel e expr = some out) :
    out.Proper := by
  rw [State.eval_eq] at h
  obtain ⟨o, ho, rfl⟩ := Option.map_eq_some_iff.1 h
  exact ((hs.enter hx e).halts ⟨fuel, ho⟩).reported

theorem State.Proper.fails (hs : s.Proper) {fault : Fault} (hf : fault.Proper) :
    Outcome.Proper { result := .error { fault }, state := s } :=
  ⟨⟨trivial, List.forall_mem_nil _, hs.valid⟩, fail_proper hf, hs⟩

/-- **Every way into the evaluator keeps a state proper.** -/
theorem State.Proper.entry (hs : s.Proper) {entry : Entry} (hentry : entry.Valid)
    (h : entry.run fuel s = some out) : out.Proper := by
  cases entry with
  | eval e expr => exact hs.eval hentry h
  | apply f args => exact (hs.application hentry.1 hentry.2).halts ⟨fuel, h⟩
  | load e file bytes failure =>
    simp only [Entry.run] at h
    unfold State.load at h
    split at h
    · obtain rfl := Option.some.inj h
      exact hs.fails (show ("no-reader" : Text) ≠ invalidValue.condition by decide)
    · split at h
      · obtain rfl := Option.some.inj h
        exact hs.fails trivial
      · rename_i forms hread
        refine evalAll_invariant (I := Outcome.Proper) ?_ (fun o form out ho hform => ?_) h
        · have hloaded : (s.loaded file forms).Proper := hs.debug _ _
          exact ⟨⟨Value.valid_nil, List.forall_mem_nil _, hloaded.valid⟩,
            properly_of_running rfl, hloaded⟩
        · exact ho.state.eval (readAll_valid hread form hform)

theorem BeginsForm.proper {form : Value} {forms : List Value} (hs : s.Proper)
    (hforms : ValidAll forms) (h : BeginsForm e form t s forms) : t.Proper ∧ form.Valid := by
  induction h with
  | here => exact ⟨hs, (validAll_cons.1 hforms).1⟩
  | later hfirst _ ih =>
    obtain ⟨hform, hforms⟩ := validAll_cons.1 hforms
    exact ih (hs.eval hform hfirst).state hforms

/-- Every machine that an interpreter goes through is proper. -/
theorem Entry.Visits.proper {entry : Entry} (h : entry.Visits s m) (hs : s.Proper)
    (hentry : entry.Valid) : m.Proper := by
  cases h with
  | inside hb hreach =>
    cases hb with
    | eval => exact (hs.enter hentry _).reaches hreach
    | load _ hread hb =>
      obtain ⟨ht, hform⟩ := hb.proper (hs.debug _ _) (readAll_valid hread)
      exact (ht.enter hform _).reaches hreach
  | apply hreach => exact (hs.application hentry.1 hentry.2).reaches hreach

/-- **No program sees an invalid value.** Evaluation from valid operands in a valid state passes
through machines without invalid values only, never fails because of one, and comes to a valid value
or a fault that mentions none. The texts of both are those of a printer with any other text in the
branch of the invalid value, now and in every valid state from then on. What is read is valid. -/
theorem invalid_unseen (hs : s.Valid)
    (hhosts : ∀ host ∈ s.hosts, ∀ name args fault, ValidAll args →
      host name args = .error fault → fault.Proper) :
    (∀ (entry : Entry) fuel out, entry.Valid → entry.run fuel s = some out →
      out.state.Valid ∧
      (∀ v, out.result = .ok v → v.Valid ∧ ∀ t : State, t.Valid → ∀ fallback,
        v.renderWith fallback t.cells = t.printed v) ∧
      ∀ f, out.result = .error f → f.fault.condition ≠ invalidValue.condition ∧
        ∀ t : State, t.Valid → ∀ fallback,
          f.fault.messageWith fallback t.cells = t.message f.fault) ∧
      (∀ (entry : Entry) m, entry.Valid → entry.Visits s m → m.Valid ∧
        ∀ f, m.focus = .failure f → f.fault.condition ≠ invalidValue.condition) ∧
      ∀ file bytes failure forms, readAll file bytes failure = .ok forms → ValidAll forms := by
  have hproper : s.Proper := ⟨hs, hhosts⟩
  refine ⟨fun entry fuel out hentry h => ?_, fun entry m hentry h => ?_,
    fun _ _ _ _ => readAll_valid⟩
  · have hout := hproper.entry hentry h
    refine ⟨hout.state.valid, fun v hv => ?_, fun f hf => ?_⟩
    · have hvalue : out.focus = .value v := by rw [Outcome.focus, hv]
      have hvalid : Focus.Valid (.value v) := hvalue ▸ hout.valid.focus
      exact ⟨hvalid, fun t ht fallback => Value.Valid.renderWith_eq hvalid ht fallback⟩
    · have hfailure : out.focus = .failure f := by rw [Outcome.focus, hf]
      have hfault := hout.fault f hfailure
      exact ⟨hfault.condition_ne, fun t ht fallback => hfault.messageWith_eq ht fallback⟩
  · have hm := h.proper hproper hentry
    exact ⟨hm.valid, fun f hf => (hm.fault f hf).condition_ne⟩

/-- An atom is applied to nothing: the text of the fault shows its contents. -/
theorem invalid_unseen_atom : ∃ (s : State) (out : Outcome) (f : Failure), s.Valid ∧
    (Entry.apply (.atom 0) []).run 2 s = some out ∧ out.result = .error f ∧
      f.fault.condition ≠ invalidValue.condition ∧
      f.fault.messageWith (fun _ => "?") out.state.cells = out.state.message f.fault ∧
      out.state.message f.fault = "attempted to call a non-function: (atom 1)" := by
  let s : State := { cells := #[.int 1] }
  have hs : s.Valid := by
    refine ⟨(State.valid_new s.stack).scopes, fun c v h => ?_, fun host h => ?_⟩
    · have hv : v ∈ s.cells := Array.mem_of_getElem? h
      obtain rfl : v = .int 1 := by simpa [s] using hv
      exact .scalar _ _
    · simp [s] at h
  have hentry : (Entry.apply (.atom 0) []).Valid := ⟨.atom 0, validAll_nil⟩
  have hhosts : ∀ host ∈ s.hosts, ∀ name args fault, ValidAll args →
      host name args = .error fault → fault.Proper := by
    intro host h
    simp [s] at h
  obtain ⟨hstate, -, hfault⟩ := (invalid_unseen hs hhosts).1 _ 2 _ hentry rfl
  obtain ⟨hcondition, htext⟩ := hfault _ rfl
  refine ⟨s, _, _, hs, rfl, rfl, hcondition, htext _ hstate fun _ => "?", ?_⟩
  cbv

end Entries

end TinyLisp
