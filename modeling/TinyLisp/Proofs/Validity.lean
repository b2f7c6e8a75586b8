import TinyLisp.Proofs.Balance

/-!
# Evaluation makes no invalid values

A value is valid if `Value.invalid` occurs nowhere in it, and so are a state and a machine if no
value in them is invalid. The reader and the functions of the language make valid values out of
valid ones, and functions of the embedding program are taken to do so too (`State.Valid.hosts`).

* `readForm_valid`: whatever is read is valid.
* `Builtin.run_valid`: what a built-in function makes of valid arguments in a valid state.
* `valid_step`: every step keeps a machine valid.
* `State.Valid.prepare`, `State.Valid.eval`: so every state of an interpreter is valid that
  evaluates valid expressions only.
-/

namespace TinyLisp

/-- `Value.invalid` does not occur in the value. -/
inductive Value.Valid : Value → Prop where
  | scalar (source : Option Location) (content : Scalar) : Valid (.scalar source content)
  | list {source : Option Location} {items : List Value} (h : ∀ v ∈ items, Valid v) :
      Valid (.list source items)
  | closure {identity : Nat} {formals : List Text} {body : Value} {e : ScopeId} (h : Valid body) :
      Valid (.closure identity formals body e)
  | builtin (b : Builtin) : Valid (.builtin b)
  | atom (c : CellId) : Valid (.atom c)

/-- Every one of the values is valid. -/
def ValidAll (vs : List Value) : Prop := ∀ v ∈ vs, v.Valid

@[simp] theorem validAll_nil : ValidAll [] := nofun

@[simp] theorem validAll_cons {v : Value} {vs : List Value} :
    ValidAll (v :: vs) ↔ v.Valid ∧ ValidAll vs := List.forall_mem_cons

/-- Arguments are gathered in reverse. -/
theorem validAll_reverse {vs : List Value} (h : ValidAll vs) : ValidAll vs.reverse :=
  fun v hv => h v (List.mem_reverse.1 hv)

@[simp] theorem Value.valid_list {source : Option Location} {items : List Value} :
    (Value.list source items).Valid ↔ ValidAll items :=
  ⟨fun | .list h => h, .list⟩

@[simp] theorem Value.valid_closure {identity : Nat} {formals : List Text} {body : Value}
    {e : ScopeId} : (Value.closure identity formals body e).Valid ↔ body.Valid :=
  ⟨fun | .closure h => h, .closure⟩

@[simp] theorem Value.valid_nil : Value.nil.Valid := .scalar _ _

/-! ## Reading -/

/-- A list is valid if its items are. -/
theorem OpenList.close_valid {l : OpenList} (h : ValidAll l.items) : l.close.Valid :=
  .list (validAll_reverse h)

/-- **Whatever is read is valid**, however many lists are open around it. -/
theorem readForm_valid {final : Token} {opened : List OpenList} {ts : List Token} {v : Value}
    (ho : ∀ l ∈ opened, ValidAll l.items) (h : (readForm final opened ts).result = .ok v) :
    v.Valid := by
  -- the lists that are still open hold valid items throughout
  fun_induction readForm final opened ts with
  | case1 opened => cases h
  | case2 opened t ts hk ih => exact ih (List.forall_mem_cons.2 ⟨validAll_nil, ho⟩) h
  | case3 t ts l hk =>
    cases h
    exact OpenList.close_valid (ho l List.mem_cons_self)
  | case4 t ts l outer opened hk ih =>
    -- the list that is closed becomes an item of the one around it
    rw [List.forall_mem_cons, List.forall_mem_cons] at ho
    obtain ⟨hl, houter, ho⟩ := ho
    have hadd : ValidAll (outer.add l.close).items :=
      validAll_cons.2 ⟨OpenList.close_valid hl, houter⟩
    exact ih (List.forall_mem_cons.2 ⟨hadd, ho⟩) h
  | case5 => cases h
  | case6 =>
    cases h
    exact .scalar _ _
  | case7 t ts sc l opened _ _ _ _ ih =>
    obtain ⟨hl, ho⟩ := List.forall_mem_cons.1 ho
    exact ih (List.forall_mem_cons.2 ⟨validAll_cons.2 ⟨.scalar _ _, hl⟩, ho⟩) h

/-- The first form of a text is valid. -/
theorem readOne_valid {file bytes : Text} {failure : Option Text} {v : Value}
    (h : readOne file bytes failure = .ok v) : v.Valid :=
  @readForm_valid _ [] _ _ nofun h

/-! ## States -/

/-- No value in the state is invalid, and the functions of the embedding program make none. -/
structure State.Valid (s : State) : Prop where
  scopes : ∀ (e : ScopeId) (scope : Scope), s.scopes[e]? = some scope →
    ∀ b ∈ scope.bindings, b.2.Valid
  cells : ∀ (c : CellId) (v : Value), s.cells[c]? = some v → v.Valid
  hosts : ∀ host ∈ s.hosts, ∀ name args v, ValidAll args → host name args = .ok v → v.Valid

/-- A scope finds valid values if it binds none but valid ones. -/
theorem Scope.find_valid {scope : Scope} {name : Text} {v : Value}
    (hs : ∀ b ∈ scope.bindings, b.2.Valid) (h : scope.find? name = some v) : v.Valid := by
  obtain ⟨before, after, hb, -⟩ := List.lookup_eq_some_iff.1 h
  exact hs (name, v) (by rw [hb]; simp)

/-- Binding a valid value leaves the bindings of a scope valid. -/
theorem Scope.put_valid {scope : Scope} {name : Text} {v : Value}
    (hs : ∀ b ∈ scope.bindings, b.2.Valid) (hv : v.Valid) :
    ∀ b ∈ (scope.put name v).bindings, b.2.Valid := by
  unfold Scope.put
  split
  · intro b hb
    obtain ⟨b', hb', rfl⟩ := List.mem_map.1 hb
    dsimp only
    split
    · exact hv
    · exact hs b' hb'
  · exact List.forall_mem_cons.2 ⟨hv, hs⟩

namespace State

variable {s : State} {e : ScopeId} {name : Text} {v : Value}

/-- The state of a new interpreter is valid. -/
theorem valid_new (stack : CallStack) : State.Valid { stack } where
  scopes e scope h := by
    obtain rfl : { parent := none } = scope := by
      cases e <;> simp at h
      exact h
    exact nofun
  cells _ _ h := by simp at h
  hosts _ h := by simp at h

/-- What a name is bound to is valid. -/
theorem Valid.lookup (hs : s.Valid) (h : s.scopes.lookup e name = some v) : v.Valid := by
  -- along the parents of the scope
  fun_induction Scopes.lookup s.scopes e name with
  | case1 => cases h
  | case2 e scope hscope w hfind =>
    obtain rfl := Option.some.inj h
    exact Scope.find_valid (hs.scopes e scope hscope) hfind
  | case3 e scope hscope hfind p hp hlt ih => exact ih h
  | case4 => cases h
  | case5 => cases h

/-- A valid value may be bound. -/
theorem Valid.bind (hs : s.Valid) (hv : v.Valid) (e : ScopeId) (name : Text) :
    (s.bind e name v).Valid := by
  refine ⟨fun e' scope h => ?_, hs.cells, hs.hosts⟩
  simp only [State.bind, Scopes.put, Array.getElem?_modify] at h
  split at h
  · obtain ⟨scope', hscope, rfl⟩ := Option.map_eq_some_iff.1 h
    exact Scope.put_valid (hs.scopes e' scope' hscope) hv
  · exact hs.scopes e' scope h

/-- Valid arguments may be bound to parameters. -/
theorem Valid.bindAll (hs : s.Valid) {vs : List Value} (hvs : ValidAll vs) (e : ScopeId)
    (names : List Text) : (s.bindAll e names vs).Valid := by
  induction names generalizing s vs with
  | nil => exact hs
  | cons name names ih =>
    cases vs with
    | nil => exact hs
    | cons v vs =>
      obtain ⟨hv, hvs⟩ := validAll_cons.1 hvs
      exact ih (hs.bind hv e name) hvs

theorem Valid.newScope (hs : s.Valid) (e : ScopeId) : (s.newScope e).2.Valid := by
  refine ⟨fun e' scope h => ?_, hs.cells, hs.hosts⟩
  simp only [State.newScope, Scopes.child, Array.getElem?_push] at h
  split at h
  · obtain rfl := Option.some.inj h
    exact nofun
  · exact hs.scopes e' scope h

/-- A new cell may hold a valid value. -/
theorem Valid.newAtom (hs : s.Valid) (hv : v.Valid) : (s.newAtom v).2.Valid := by
  refine ⟨hs.scopes, fun c w h => ?_, hs.hosts⟩
  simp only [State.newAtom, Array.getElem?_push] at h
  split at h
  · obtain rfl := Option.some.inj h
    exact hv
  · exact hs.cells c w h

/-- What a cell holds is valid; a cell that does not exist holds `nil`. -/
theorem Valid.contents (hs : s.Valid) (c : CellId) : (s.contents c).Valid := by
  unfold State.contents
  cases h : s.cells[c]? with
  | none => exact Value.valid_nil
  | some v => exact hs.cells c v h

/-- A valid value may be stored. -/
theorem Valid.store (hs : s.Valid) (hv : v.Valid) (c : CellId) : (s.store c v).Valid := by
  refine ⟨hs.scopes, fun c' w h => ?_, hs.hosts⟩
  simp only [State.store, Array.getElem?_setIfInBounds] at h
  split at h
  · split at h
    · obtain rfl := Option.some.inj h
      exact hv
    · cases h
  · exact hs.cells c' w h

/-- Validity concerns scopes, cells and functions of the embedding program only. -/
theorem Valid.of_eq {t : State} (hs : s.Valid) (hscopes : t.scopes = s.scopes)
    (hcells : t.cells = s.cells) (hhosts : t.hosts = s.hosts) : t.Valid :=
  ⟨hscopes ▸ hs.scopes, hcells ▸ hs.cells, hhosts ▸ hs.hosts⟩

theorem Valid.debug (hs : s.Valid) (message : Text) (fields : List (Text × Log.Field)) :
    (s.debug message fields).Valid := by
  unfold State.debug State.logRecord
  split
  · exact hs.of_eq rfl rfl rfl
  · exact hs

theorem Valid.print {t : State} {text : Text} (hs : s.Valid) (h : s.print? text = some t) :
    t.Valid := by
  unfold State.print? at h
  split at h
  · obtain rfl := Option.some.inj h
    exact hs.of_eq rfl rfl rfl
  · cases h

theorem Valid.printStack (hs : s.Valid) : s.printStack.2.Valid := by
  rw [s.printStack_eq]
  exact hs.of_eq rfl rfl rfl

end State

/-! ## Built-in functions -/

/-- The values of a reply are valid. -/
def Reply.Valid : Reply → Prop
  | .value v => v.Valid
  | .fault _ => True
  | .update _ f => f.Valid

namespace Primitive

variable {name : Text} {s : State}

/-- Arithmetic makes integers. -/
theorem arithmetic_valid (f : Int64 → Int64 → Int64) (a b : Value) :
    (arithmetic f name a b).Valid := by
  unfold arithmetic
  split
  · exact .scalar _ _
  · trivial

theorem divide_valid (a b : Value) : (divide name a b).Valid := by
  unfold divide
  split
  · split
    · trivial
    · exact .scalar _ _
  · trivial

/-- Texts put together are a text. -/
theorem concatenate_valid (position : Nat) (done : Text) (vs : List Value) :
    (concatenate name position done vs).Valid := by
  fun_induction concatenate name position done vs with
  | case1 => exact .scalar _ _
  | case2 _ _ _ _ _ ih => exact ih
  | case3 => trivial

/-- The contents of a file are a text. -/
theorem slurpFile_valid (hs : s.Valid) (path : Text) :
    (slurpFile name path s).1.Valid ∧ (slurpFile name path s).2.Valid := by
  have hnote : (s.note (.opened path)).Valid := hs.of_eq rfl rfl rfl
  simp only [slurpFile]
  split
  · exact ⟨.scalar _ _, hnote.debug _ _⟩
  · exact ⟨trivial, hnote⟩

/-- What `read-str` answers is valid. -/
theorem readForm_reply_valid (file bytes : Text) (failure : Option Text) :
    (Reply.ofExcept (s.readForm file bytes failure)).Valid := by
  unfold State.readForm
  split
  · split
    · exact readOne_valid ‹_›
    · trivial
  · trivial

/-- What a function of the language makes of valid arguments is valid. -/
theorem run_valid (p : Primitive) {args : List Value} (ha : ValidAll args) (hs : s.Valid) :
    (p.run name args s).1.Valid ∧ (p.run name args s).2.Valid := by
  unfold Primitive.run
  split <;> try exact ⟨.scalar _ _, hs⟩
  · exact ⟨arithmetic_valid _ _ _, hs⟩
  · exact ⟨arithmetic_valid _ _ _, hs⟩
  · exact ⟨arithmetic_valid _ _ _, hs⟩
  · exact ⟨divide_valid _ _, hs⟩
  · exact ⟨Value.valid_list.2 ha, hs⟩
  · exact ⟨concatenate_valid _ _ _, hs⟩
  · split
    · exact slurpFile_valid hs _
    · exact ⟨trivial, hs⟩
  · split
    · exact ⟨readForm_reply_valid _ _ _, hs⟩
    · exact ⟨trivial, hs⟩
  · exact ⟨.atom _, hs.newAtom (validAll_cons.1 ha).1⟩
  · split
    · exact ⟨hs.contents _, hs⟩
    · exact ⟨trivial, hs⟩
  · rename_i a v
    have hv : v.Valid := ha v (by simp)
    split
    · exact ⟨hv, hs.store hv _⟩
    · exact ⟨trivial, hs⟩
  · rename_i a f
    split
    · split
      · exact ⟨ha f (by simp), hs⟩
      · exact ⟨trivial, hs⟩
    · exact ⟨trivial, hs⟩
  · split
    · exact ⟨.scalar _ _, hs.print ‹_›⟩
    · exact ⟨trivial, hs⟩
  · refine ⟨?_, hs.printStack⟩
    dsimp only
    split
    · exact .scalar _ _
    · trivial
  · split
    · exact ⟨trivial, hs⟩
    · exact ⟨.scalar _ _, hs⟩

end Primitive

/-- **What a built-in function makes of valid arguments is valid**, and so is the state that it
leaves. -/
theorem Builtin.run_valid (b : Builtin) {args : List Value} {s : State} (ha : ValidAll args)
    (hs : s.Valid) : (b.run args s).1.Valid ∧ (b.run args s).2.Valid := by
  have h : (b.runRoutine args s).1.Valid ∧ (b.runRoutine args s).2.Valid := by
    unfold Builtin.runRoutine
    split
    · exact Primitive.run_valid _ ha hs
    · split
      · rename_i host hslot
        refine ⟨?_, hs⟩
        cases hr : host b.name args with
        | ok v => exact hs.hosts host (Array.mem_of_getElem? hslot) b.name args v ha hr
        | error f => trivial
      · exact ⟨.scalar _ _, hs⟩
  unfold Builtin.run
  split
  · exact h
  · split
    · exact h
    · exact ⟨trivial, hs⟩

/-! ## Machines -/

/-- The values that a continuation holds are valid. -/
def Kont.Valid : Kont → Prop
  | .callee head args _ => head.Valid ∧ ValidAll args
  | .argument f _ done ahead _ => f.Valid ∧ ValidAll done ∧ ValidAll ahead
  | .binding _ _ ahead body _ => ValidAll ahead ∧ body.Valid
  | .sequence ahead _ => ValidAll ahead
  | .branch yes no _ => yes.Valid ∧ ∀ v, no = some v → v.Valid
  | _ => True

/-- The values in focus are valid. -/
def Focus.Valid : Focus → Prop
  | .expression expr _ => expr.Valid
  | .operand expr _ => expr.Valid
  | .application f args => f.Valid ∧ ValidAll args
  | .value v => v.Valid
  | .failure _ => True

namespace Machine

/-- No value in the machine is invalid. -/
structure Valid (m : Machine) : Prop where
  focus : m.focus.Valid
  konts : ∀ k ∈ m.konts, k.Valid
  state : m.state.Valid

section Valid

variable {ks : List Kont} {s : State} {m m' : Machine}

theorem fail_valid (hks : ∀ k ∈ ks, k.Valid) (hs : s.Valid) (fault : Fault) :
    (fail fault ks s).Valid := ⟨trivial, hks, hs⟩

theorem lookup_valid (hks : ∀ k ∈ ks, k.Valid) (hs : s.Valid) (e : ScopeId) (name : Text) :
    (settle (s.lookup e name) ks s).Valid := by
  unfold State.lookup
  split
  · exact ⟨hs.lookup ‹_›, hks, hs⟩
  · exact ⟨trivial, hks, hs⟩

/-- A continuation is put in front of valid ones. -/
theorem valid_await {k : Kont} {focus : Focus} (hf : focus.Valid) (hk : k.Valid)
    (hks : ∀ k ∈ ks, k.Valid) (hs : s.Valid) :
    Valid { focus, konts := k :: ks, state := s } :=
  ⟨hf, List.forall_mem_cons.2 ⟨hk, hks⟩, hs⟩

/-- A frame is entered with a valid expression. -/
theorem enter_valid (hks : ∀ k ∈ ks, k.Valid) (hs : s.Valid) (name : Text) {expr : Value}
    (hx : expr.Valid) (e : ScopeId) : (enter name expr e ks s).Valid := by
  unfold enter
  split
  · exact valid_await hx trivial hks (hs.of_eq rfl rfl rfl)
  · exact ⟨trivial, hks, hs.debug _ _⟩

/-- Calling a built-in function with valid arguments keeps a machine valid. -/
theorem callBuiltin_valid (hks : ∀ k ∈ ks, k.Valid) (hs : s.Valid) (b : Builtin)
    {args : List Value} (ha : ValidAll args) : (callBuiltin b args ks s).Valid := by
  unfold callBuiltin
  split
  · exact ⟨trivial, hks, hs⟩
  · rename_i stack _
    have hstack : State.Valid { s with stack } := hs.of_eq rfl rfl rfl
    have hrun := Builtin.run_valid b ha hstack
    split <;> rename_i h <;> rw [h] at hrun
    · exact valid_await hrun.1 trivial hks hrun.2
    · exact valid_await trivial trivial hks hrun.2
    · -- `swap!` goes on with its function and the contents of the cell
      rename_i c f t
      have hargs : ValidAll [t.contents c] := validAll_cons.2 ⟨hrun.2.contents c, validAll_nil⟩
      exact valid_await ⟨hrun.1, hargs⟩ trivial (List.forall_mem_cons.2 ⟨trivial, hks⟩) hrun.2

theorem callScope_valid (hs : s.Valid) (formals : List Text) (e : ScopeId) {args : List Value}
    (ha : ValidAll args) : (callScope formals e args s).2.Valid :=
  (hs.newScope e).bindAll ha _ formals

/-- Calling a valid function in tail position keeps a machine valid: the body of a closure is a part
of it. -/
theorem call_valid (hks : ∀ k ∈ ks, k.Valid) (hs : s.Valid) {f : Value} (hf : f.Valid)
    (name : Text) {args : List Value} (ha : ValidAll args) : (call f name args ks s).Valid := by
  cases f with
  | closure identity formals body e =>
    simp only [call]
    split
    · exact fail_valid hks hs _
    · exact ⟨Value.valid_closure.1 hf, hks, (callScope_valid hs formals e ha).of_eq rfl rfl rfl⟩
  | builtin b => exact callBuiltin_valid hks hs b ha
  | _ => exact fail_valid hks hs _

/-- Applying a valid function keeps a machine valid. -/
theorem apply_valid (hks : ∀ k ∈ ks, k.Valid) (hs : s.Valid) {f : Value} (hf : f.Valid)
    {args : List Value} (ha : ValidAll args) : (apply f args ks s).Valid := by
  cases f with
  | closure identity formals body e =>
    simp only [apply]
    split
    · exact ⟨trivial, hks, hs⟩
    · exact enter_valid hks (callScope_valid hs formals e ha) _ (Value.valid_closure.1 hf) _
  | builtin b => exact callBuiltin_valid hks hs b ha
  | _ => exact ⟨trivial, hks, hs⟩

theorem arguments_valid (hks : ∀ k ∈ ks, k.Valid) (hs : s.Valid) {f : Value} (hf : f.Valid)
    (name : Text) {done ahead : List Value} (hd : ValidAll done) (ha : ValidAll ahead)
    (e : ScopeId) : (arguments f name done ahead e ks s).Valid := by
  cases ahead with
  | nil => exact call_valid hks hs hf name (validAll_reverse hd)
  | cons a ahead =>
    obtain ⟨ha, hahead⟩ := validAll_cons.1 ha
    exact valid_await ha ⟨hf, hd, hahead⟩ hks hs

theorem bindings_valid (hks : ∀ k ∈ ks, k.Valid) (hs : s.Valid) (site : FormSite)
    {ahead : List Value} (ha : ValidAll ahead) {body : Value} (hb : body.Valid) (e : ScopeId) :
    (bindings site ahead body e ks s).Valid := by
  unfold bindings
  split
  · exact ⟨hb, hks, hs⟩
  · exact fail_valid hks hs _
  · rw [validAll_cons, validAll_cons] at ha
    split
    · exact valid_await ha.2.1 ⟨ha.2.2, hb⟩ hks hs
    · exact fail_valid hks hs _

theorem sequence_valid (hks : ∀ k ∈ ks, k.Valid) (hs : s.Valid) {exprs : List Value}
    (hx : ValidAll exprs) (e : ScopeId) : (sequence exprs e ks s).Valid := by
  unfold sequence
  split
  · exact ⟨Value.valid_nil, hks, hs⟩
  · exact ⟨(validAll_cons.1 hx).1, hks, hs⟩
  · obtain ⟨hx, hahead⟩ := validAll_cons.1 hx
    exact valid_await hx hahead hks hs

theorem malformed_valid (hks : ∀ k ∈ ks, k.Valid) (hs : s.Valid) (site : FormSite)
    (problem : FormProblem) : (malformed site problem ks s).Valid := ⟨trivial, hks, hs⟩

/-- The operands of a special form are evaluated or kept, and valid in both cases. -/
theorem special_valid (hks : ∀ k ∈ ks, k.Valid) (hs : s.Valid) (form : SpecialForm)
    (site : FormSite) {operands : List Value} (hx : ValidAll operands) (e : ScopeId) :
    (special form site operands e ks s).Valid := by
  unfold special
  split <;> try exact malformed_valid hks hs site _
  · split
    · exact valid_await (hx _ (by simp)) trivial hks hs
    · exact malformed_valid hks hs site _
  · rw [validAll_cons, validAll_cons, Value.valid_list] at hx
    split
    · exact bindings_valid hks (hs.newScope e) site hx.1 hx.2.1 _
    · exact malformed_valid hks hs site _
  · rw [validAll_cons, validAll_cons, Value.valid_list] at hx
    split
    · exact bindings_valid hks (hs.newScope e) site hx.1 hx.2.1 _
    · exact malformed_valid hks hs site _
  · exact sequence_valid hks hs hx e
  · exact valid_await (hx _ (by simp)) ⟨hx _ (by simp), nofun⟩ hks hs
  · refine valid_await (hx _ (by simp)) ⟨hx _ (by simp), ?_⟩ hks hs
    rintro v ⟨rfl⟩
    exact hx _ (by simp)
  · split
    · exact ⟨Value.valid_closure.2 (hx _ (by simp)), hks, hs.of_eq rfl rfl rfl⟩
    · exact malformed_valid hks hs site _
  · exact valid_await (hx _ (by simp)) trivial hks hs

/-- Evaluating a valid expression keeps a machine valid. -/
theorem expression_valid (hks : ∀ k ∈ ks, k.Valid) (hs : s.Valid) {expr : Value}
    (hx : expr.Valid) (e : ScopeId) : (expression expr e ks s).Valid := by
  unfold expression
  split
  · exact lookup_valid hks hs e _
  · exact fail_valid hks hs _
  · rw [Value.valid_list, validAll_cons] at hx
    split
    · exact special_valid hks hs _ _ hx.2 e
    · exact valid_await hx.1 hx hks hs
  · exact fail_valid hks hs _
  · exact ⟨hx, hks, hs⟩

theorem operand_valid (hks : ∀ k ∈ ks, k.Valid) (hs : s.Valid) {expr : Value}
    (hx : expr.Valid) (e : ScopeId) : (operand expr e ks s).Valid := by
  unfold operand
  split
  · exact lookup_valid hks hs e _
  · exact enter_valid hks hs [] hx e
  · exact ⟨hx, hks, hs⟩

/-- Going on with a valid value keeps a machine valid. -/
theorem resume_valid (hks : ∀ k ∈ ks, k.Valid) (hs : s.Valid) {k : Kont} (hk : k.Valid)
    {v : Value} (hv : v.Valid) : (resume k v ks s).Valid := by
  cases k with
  | leave => exact ⟨hv, hks, hs.of_eq rfl rfl rfl⟩
  | callee head args e => exact arguments_valid hks hs hv _ validAll_nil hk.2 e
  | argument f name done ahead e =>
    exact arguments_valid hks hs hk.1 name (validAll_cons.2 ⟨hv, hk.2.1⟩) hk.2.2 e
  | define name e => exact ⟨hv, hks, hs.bind hv e name⟩
  | binding site name ahead body e => exact bindings_valid hks (hs.bind hv e name) site hk.1 hk.2 e
  | sequence ahead e => exact sequence_valid hks hs hk e
  | branch yes no e =>
    simp only [resume]
    split
    · exact ⟨hk.1, hks, hs⟩
    · cases no with
      | some no => exact ⟨hk.2 no rfl, hks, hs⟩
      | none => exact ⟨Value.valid_nil, hks, hs⟩
  | evaluate e => exact ⟨hv, hks, hs⟩
  | update c => exact ⟨.atom c, hks, hs.store hv c⟩

/-- **Every step keeps a machine valid.** -/
theorem valid_step (hm : m.Valid) (h : m.step = .next m') : m'.Valid := by
  obtain ⟨focus, ks, s⟩ := m
  obtain ⟨hf, hks, hs⟩ := hm
  cases focus with
  | expression expr e =>
    obtain rfl := Step.next.inj h
    exact expression_valid hks hs hf e
  | operand expr e =>
    obtain rfl := Step.next.inj h
    exact operand_valid hks hs hf e
  | application f args =>
    obtain rfl := Step.next.inj h
    exact apply_valid hks hs hf.1 hf.2
  | value v =>
    cases ks with
    | nil => cases h
    | cons k ks =>
      obtain rfl := Step.next.inj h
      obtain ⟨hk, hks⟩ := List.forall_mem_cons.1 hks
      exact resume_valid hks hs hk hf
  | failure f =>
    cases ks with
    | nil => cases h
    | cons k ks =>
      obtain rfl := Step.next.inj h
      have hks' := (List.forall_mem_cons.1 hks).2
      cases k with
      | leave => exact ⟨trivial, hks', hs.of_eq rfl rfl rfl⟩
      | _ => exact ⟨trivial, hks', hs⟩

/-- What an evaluation comes to is valid. -/
theorem Valid.halts {o : Outcome} (hm : m.Valid) (h : Halts m o) : (o.above []).Valid :=
  (halts_iff_reaches.1 h).preserves (fun _ _ => valid_step) hm

end Valid

end Machine

/-! ## Interpreters -/

namespace State

variable {s : State} {e : ScopeId}

theorem Valid.configureAll (hs : s.Valid) (settings : List Setting) :
    (s.configureAll settings).2.Valid := by
  induction settings generalizing s with
  | nil => exact hs
  | cons setting settings ih =>
    unfold State.configureAll
    split
    · rename_i s' h
      refine ih ?_
      cases setting with
      | stackLimit limit =>
        simp only [State.configure] at h
        split at h <;> cases h
        exact hs.of_eq rfl rfl rfl
      | _ => cases h; exact hs.of_eq rfl rfl rfl
    · exact hs

theorem Valid.bindBuiltins (hs : s.Valid) (bs : List Builtin) : (s.bindBuiltins e bs).2.Valid := by
  induction bs generalizing s with
  | nil => exact hs
  | cons b bs ih =>
    unfold State.bindBuiltins
    split
    · exact hs
    · exact ih (hs.bind (.builtin b) e b.name)

/-- Setting an interpreter up keeps its state valid. -/
theorem Valid.prepare (hs : s.Valid) (e : ScopeId) (settings : List Setting) :
    (s.prepare e settings).2.Valid := by
  have hconf := hs.configureAll settings
  unfold State.prepare
  split
  · exact hs
  · split <;> rename_i h <;> rw [h] at hconf
    · exact hconf
    · have hbound : (State.addBuiltins _ e []).2.Valid := hconf.bindBuiltins _
      split <;> rename_i h' <;> rw [h'] at hbound
      · exact hbound
      · exact hbound.debug _ _

/-- **Every state that evaluation leaves is valid.** -/
theorem Valid.eval (hs : s.Valid) {expr : Value} (hx : expr.Valid) {fuel : Nat} {out : Outcome}
    (h : s.eval fuel e expr = some out) : out.state.Valid := by
  rw [State.eval_eq] at h
  obtain ⟨o, ho, rfl⟩ := Option.map_eq_some_iff.1 h
  have hstart : (Machine.enter [] expr e [] s).Valid :=
    Machine.enter_valid (List.forall_mem_nil _) hs [] hx e
  have hend := hstart.halts ⟨fuel, ho⟩
  unfold Outcome.reported
  split
  · exact hend.state
  · exact hend.state.debug _ _

end State

end TinyLisp
