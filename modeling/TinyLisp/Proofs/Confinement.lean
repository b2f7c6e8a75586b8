import TinyLisp.Proofs.Balance
import TinyLisp.Proofs.Bounds

/-!
# Evaluation stays within bounds

Every function of the machine edits scopes and cells within the bounds that its operands respect, and
what it goes on with respects them too, once they admit what it has made (`Machine.Yielded`). There
is one such lemma for each function, `step_yielded` puts them together, and runs follow by induction:

* `Respects.reaches`: within bounds that admit everything new, a run stays within them, and what is
  out of bounds is left as it was.

The only scope that an expression can come to be evaluated in, other than a scope at hand and a new
one, is the root above a scope at hand, and this only through an `eval` (`Machine.Evaluates`).
-/

namespace TinyLisp

open Machine

/-! ## Machines -/

/-- What a continuation holds respects the bounds. -/
def Kont.Respects (B : Bounds) : Kont → Prop
  | .leave => True
  | .callee _ args e => RespectAll B args ∧ B.current e
  | .argument f _ done ahead e =>
    f.Respects B ∧ RespectAll B done ∧ RespectAll B ahead ∧ B.current e
  | .define name e => B.scalar (.symbol name) ∧ B.current e
  | .binding _ name ahead body e =>
    B.scalar (.symbol name) ∧ RespectAll B ahead ∧ body.Respects B ∧ B.current e
  | .sequence ahead e => RespectAll B ahead ∧ B.current e
  | .branch yes no e => yes.Respects B ∧ (∀ v, no = some v → v.Respects B) ∧ B.current e
  | .evaluate e => B.current e
  | .update c => B.cell c

/-- What is in focus respects the bounds. -/
def Focus.Respects (B : Bounds) : Focus → Prop
  | .expression expr e => expr.Respects B ∧ B.current e
  | .operand expr e => expr.Respects B ∧ B.current e
  | .application f args => f.Respects B ∧ RespectAll B args
  | .value v => v.Respects B
  | .failure f => f.fault.Respects B

/-- A continuation within bounds is within wider ones. -/
theorem Kont.Respects.mono {B C : Bounds} {k : Kont} (hBC : B.Le C) (h : k.Respects B) :
    k.Respects C := by
  cases k with
  | leave => trivial
  | callee _ args e => exact ⟨h.1.mono hBC, hBC.current e h.2⟩
  | argument f _ done ahead e =>
    obtain ⟨hf, hd, ha, he⟩ := h
    exact ⟨hf.mono hBC, hd.mono hBC, ha.mono hBC, hBC.current e he⟩
  | define name e => exact ⟨hBC.scalar _ h.1, hBC.current e h.2⟩
  | binding _ name ahead body e =>
    obtain ⟨hname, ha, hb, he⟩ := h
    exact ⟨hBC.scalar _ hname, ha.mono hBC, hb.mono hBC, hBC.current e he⟩
  | sequence ahead e => exact ⟨h.1.mono hBC, hBC.current e h.2⟩
  | branch yes no e =>
    obtain ⟨hyes, hno, he⟩ := h
    exact ⟨hyes.mono hBC, fun v hv => (hno v hv).mono hBC, hBC.current e he⟩
  | evaluate e => exact hBC.current e h
  | update c => exact hBC.cell c h

/-- A focus within bounds is within wider ones. -/
theorem Focus.Respects.mono {B C : Bounds} {focus : Focus} (hBC : B.Le C) (h : focus.Respects B) :
    focus.Respects C := by
  cases focus with
  | expression expr e => exact ⟨h.1.mono hBC, hBC.current e h.2⟩
  | operand expr e => exact ⟨h.1.mono hBC, hBC.current e h.2⟩
  | application f args => exact ⟨h.1.mono hBC, h.2.mono hBC⟩
  | value v => exact Value.Respects.mono hBC h
  | failure f => exact Fault.Respects.mono hBC h

namespace Machine

/-- The machine respects the bounds. -/
structure Respects (B : Bounds) (m : Machine) : Prop where
  focus : m.focus.Respects B
  konts : ∀ k ∈ m.konts, k.Respects B
  state : m.state.Respects B

/-- The next step evaluates a computed expression in the root above `e`. -/
def Evaluates (m : Machine) (e : ScopeId) : Prop :=
  ∃ v ks, m.focus = .value v ∧ m.konts = .evaluate e :: ks

/-- The machine has come from the state `s` by an edit within the bounds, and it respects them if
they admit what was made. -/
structure Yielded (B : Bounds) (s : State) (m : Machine) : Prop where
  edited : s.Edited B m.state
  focus : B.Admits s m.state → m.focus.Respects B
  konts : B.Admits s m.state → ∀ k ∈ m.konts, k.Respects B

section Steps

variable {B : Bounds} {ks : List Kont} {s : State} {e : ScopeId}

/-- The state is as it was. -/
theorem Yielded.same {focus : Focus} (hf : focus.Respects B) (hks : ∀ k ∈ ks, k.Respects B) :
    Yielded B s { focus, konts := ks, state := s } := ⟨.same, fun _ => hf, fun _ => hks⟩

/-- The state is as it was, and another continuation waits. -/
theorem Yielded.await {focus : Focus} {k : Kont} (hf : focus.Respects B) (hk : k.Respects B)
    (hks : ∀ k ∈ ks, k.Respects B) : Yielded B s { focus, konts := k :: ks, state := s } :=
  .same hf (List.forall_mem_cons.2 ⟨hk, hks⟩)

/-- Looking a name up edits nothing and yields a value within the bounds. -/
theorem lookup_yielded (hs : s.Respects B) (hks : ∀ k ∈ ks, k.Respects B) (he : B.current e)
    (name : Text) : Yielded B s (settle (s.lookup e name) ks s) := by
  unfold State.lookup
  split
  · exact .same (hs.lookup (B.scope_of_current e he) ‹_›) hks
  · exact .same trivial hks

/-- Entering a frame edits nothing. -/
theorem enter_yielded (hks : ∀ k ∈ ks, k.Respects B) (name : Text) {expr : Value}
    (hx : expr.Respects B) (he : B.current e) : Yielded B s (enter name expr e ks s) := by
  unfold enter
  split
  · exact ⟨.same, fun _ => ⟨hx, he⟩, fun _ => List.forall_mem_cons.2 ⟨trivial, hks⟩⟩
  · exact ⟨.of_eq (State.scopes_debug _ _) (State.cells_debug _ _), fun _ => trivial, fun _ => hks⟩

/-- A built-in function makes the one edit of its call. -/
theorem callBuiltin_yielded (hB : B.Closed s.setup) (hs : s.Respects B)
    (hks : ∀ k ∈ ks, k.Respects B) (b : Builtin) {args : List Value} (ha : RespectAll B args) :
    Yielded B s (callBuiltin b args ks s) := by
  unfold callBuiltin
  split
  · exact .same trivial hks
  · rename_i stack _
    have hrun : Reply.Yielded B { s with stack } (b.run args { s with stack }) :=
      b.run_yields (s := { s with stack }) ⟨hB.readable, hB.append, hB.file, hB.host⟩
        ⟨hs.parents, hs.bindings, hs.cells⟩ ha
    split <;> rename_i h <;> rw [h] at hrun
    · exact ⟨hrun.edited, fun hnew => hrun.respects ⟨hnew.scopes, hnew.cells⟩,
        fun _ => List.forall_mem_cons.2 ⟨trivial, hks⟩⟩
    · exact ⟨hrun.edited, fun hnew => hrun.respects ⟨hnew.scopes, hnew.cells⟩,
        fun _ => List.forall_mem_cons.2 ⟨trivial, hks⟩⟩
    · -- `swap!` goes on with its function and the contents of the cell
      refine ⟨hrun.edited, fun hnew => ?_, fun hnew => ?_⟩
      · obtain ⟨-, hf, hcontents⟩ := hrun.respects ⟨hnew.scopes, hnew.cells⟩
        exact ⟨hf, respectAll_cons.2 ⟨hcontents, respectAll_nil⟩⟩
      · obtain ⟨hc, -⟩ := hrun.respects ⟨hnew.scopes, hnew.cells⟩
        exact List.forall_mem_cons.2 ⟨hc, List.forall_mem_cons.2 ⟨trivial, hks⟩⟩

theorem modify_push (scopes : Scopes) (scope : Scope) (f : Scope → Scope) :
    (scopes.push scope).modify scopes.size f = scopes.push (f scope) := by
  apply Array.ext_getElem?
  intro i
  rw [Array.getElem?_modify, Array.getElem?_push, Array.getElem?_push]
  by_cases hi : i = scopes.size
  · subst hi
    simp
  · rw [if_neg (Ne.symm hi), if_neg hi, if_neg hi]

theorem bindAll_cells (s : State) (e : ScopeId) (names : List Text) (vs : List Value) :
    (s.bindAll e names vs).cells = s.cells := by
  induction names generalizing s vs with
  | nil => rfl
  | cons name names ih =>
    cases vs with
    | nil => rfl
    | cons v vs => exact ih (s.bind e name v) vs

/-- Bindings in the newest scope leave the others alone. -/
theorem bindAll_push {scopes : Scopes} {scope : Scope} (h : s.scopes = scopes.push scope)
    (hb : RespectBindings B scope.bindings) {names : List Text} {vs : List Value}
    (hnames : ∀ name ∈ names, B.scalar (.symbol name)) (hvs : RespectAll B vs) :
    ∃ bindings, (s.bindAll scopes.size names vs).scopes =
        scopes.push { parent := scope.parent, bindings } ∧ RespectBindings B bindings := by
  induction names generalizing s vs scope with
  | nil => exact ⟨scope.bindings, h, hb⟩
  | cons name names ih =>
    cases vs with
    | nil => exact ⟨scope.bindings, h, hb⟩
    | cons v vs =>
      rw [List.forall_mem_cons] at hnames
      rw [respectAll_cons] at hvs
      have hbind : (s.bind scopes.size name v).scopes = scopes.push (scope.put name v) := by
        rw [State.bind, Scopes.put, h, modify_push]
      have hput := Scope.put_respects hb hnames.1 hvs.1
      have hparent := (scope.extends_put name v).parent
      rw [← hparent]
      exact ih hbind hput hnames.2 hvs.2

/-- A call makes one scope, below that of the closure. -/
theorem callScope_edit {formals : List Text} {args : List Value} (he : B.scope e)
    (hf : ∀ name ∈ formals, B.scalar (.symbol name)) (ha : RespectAll B args) :
    s.Edited B (callScope formals e args s).2 ∧
      (B.Admits s (callScope formals e args s).2 → B.current (callScope formals e args s).1) := by
  have hnew : (s.newScope e).2.scopes = s.scopes.push { parent := some e } := rfl
  have hempty : RespectBindings B [] := nofun
  obtain ⟨bindings, hpush, hb⟩ := bindAll_push hnew hempty hf ha
  have hscopes : (callScope formals e args s).2.scopes =
      s.scopes.push { parent := some e, bindings } := hpush
  have hcells : (callScope formals e args s).2.cells = s.cells := bindAll_cells _ _ _ _
  constructor
  · unfold State.Edited
    rw [hscopes, hcells]
    exact .scope e bindings he hb
  · intro hnew
    refine hnew.scopes s.scopes.size (Nat.le_refl _) ?_
    rw [hscopes, Array.size_push]
    exact Nat.lt_succ_self _

/-- A wrong number of arguments refers to no value. -/
theorem arityFault_respects {lenient : Bool} {name : Text} {formals : List Text}
    {args : List Value} {fault : Fault} (h : arityFault? lenient name formals args = some fault) :
    fault.Respects B := by
  unfold arityFault? at h
  split at h <;> cases h
  trivial

/-- Calling a closure makes one scope, with the arguments bound in it. -/
theorem call_yielded (hB : B.Closed s.setup) (hs : s.Respects B) (hks : ∀ k ∈ ks, k.Respects B)
    {f : Value} (hf : f.Respects B) (name : Text) {args : List Value} (ha : RespectAll B args) :
    Yielded B s (call f name args ks s) := by
  cases hf with
  | @closure identity formals body e hformals hbody he =>
    simp only [call]
    split
    · exact .same (arityFault_respects ‹_›) hks
    · obtain ⟨hedit, hcurrent⟩ := callScope_edit (s := s) he hformals ha
      refine ⟨hedit, fun hnew => ?_, fun _ => hks⟩
      exact ⟨hbody, hcurrent ⟨hnew.scopes, hnew.cells⟩⟩
  | builtin b => exact callBuiltin_yielded hB hs hks b ha
  | scalar h => exact .same (Value.Respects.scalar h) hks
  | list h => exact .same (Value.Respects.list h) hks
  | atom h => exact .same (Value.Respects.atom h) hks
  | invalid u => exact .same (.invalid u) hks

/-- Applying a closure makes one scope, with the arguments bound in it. -/
theorem apply_yielded (hB : B.Closed s.setup) (hs : s.Respects B) (hks : ∀ k ∈ ks, k.Respects B)
    {f : Value} (hf : f.Respects B) {args : List Value} (ha : RespectAll B args) :
    Yielded B s (apply f args ks s) := by
  cases hf with
  | @closure identity formals body e hformals hbody he =>
    simp only [apply]
    split
    · exact .same (arityFault_respects ‹_›) hks
    · obtain ⟨hedit, hcurrent⟩ := callScope_edit (s := s) he hformals ha
      unfold enter
      split
      · refine ⟨hedit, fun hnew => ?_, fun _ => List.forall_mem_cons.2 ⟨trivial, hks⟩⟩
        exact ⟨hbody, hcurrent ⟨hnew.scopes, hnew.cells⟩⟩
      · refine ⟨?_, fun _ => trivial, fun _ => hks⟩
        simp only [failHere, State.Edited, State.scopes_debug, State.cells_debug]
        exact hedit
  | builtin b => exact callBuiltin_yielded hB hs hks b ha
  | scalar h => exact .same (Value.Respects.scalar h) hks
  | list h => exact .same (Value.Respects.list h) hks
  | atom h => exact .same (Value.Respects.atom h) hks
  | invalid u => exact .same (.invalid u) hks

theorem arguments_yielded (hB : B.Closed s.setup) (hs : s.Respects B)
    (hks : ∀ k ∈ ks, k.Respects B) {f : Value} (hf : f.Respects B) (name : Text)
    {done ahead : List Value} (hd : RespectAll B done) (ha : RespectAll B ahead)
    (he : B.current e) : Yielded B s (arguments f name done ahead e ks s) := by
  cases ahead with
  | nil => exact call_yielded hB hs hks hf name (respectAll_reverse hd)
  | cons a ahead =>
    obtain ⟨ha, hahead⟩ := respectAll_cons.1 ha
    exact .await ⟨ha, he⟩ ⟨hf, hd, hahead, he⟩ hks

theorem bindings_yielded (hks : ∀ k ∈ ks, k.Respects B) (site : FormSite) {ahead : List Value}
    (ha : RespectAll B ahead) {body : Value} (hb : body.Respects B) (he : B.current e) :
    Yielded B s (bindings site ahead body e ks s) := by
  unfold bindings
  split
  · exact .same ⟨hb, he⟩ hks
  · exact .same trivial hks
  · rw [respectAll_cons, respectAll_cons] at ha
    obtain ⟨hv, hx, hahead⟩ := ha
    split
    · rename_i name hname
      exact .await ⟨hx, he⟩ ⟨Value.scalar_of_symbolName hv hname, hahead, hb, he⟩ hks
    · exact .same hv hks

theorem sequence_yielded (hB : B.Closed s.setup) (hks : ∀ k ∈ ks, k.Respects B)
    {exprs : List Value} (hx : RespectAll B exprs) (he : B.current e) :
    Yielded B s (sequence exprs e ks s) := by
  unfold sequence
  split
  · exact .same hB.nil hks
  · exact .same ⟨(respectAll_cons.1 hx).1, he⟩ hks
  · obtain ⟨hx, hahead⟩ := respectAll_cons.1 hx
    exact .await ⟨hx, he⟩ ⟨hahead, he⟩ hks

theorem bindings_state (site : FormSite) (ahead : List Value) (body : Value) (e : ScopeId) :
    (bindings site ahead body e ks s).state = s := by
  unfold bindings
  split
  · rfl
  · rfl
  · split <;> rfl

/-- An edit is made and the machine goes on from there without another. -/
theorem Yielded.of_edit {s' : State} {m : Machine} (hedit : s.Edited B s') (hstate : m.state = s')
    (h : B.Admits s s' → Yielded B s' m) : Yielded B s m := by
  subst hstate
  have hsame : B.Admits m.state m.state :=
    ⟨fun e h h' => absurd h' (Nat.not_lt.2 h), fun c h h' => absurd h' (Nat.not_lt.2 h)⟩
  exact ⟨hedit, fun hnew => (h hnew).focus hsame, fun hnew => (h hnew).konts hsame⟩

/-- A `let*` or `letrec` makes one scope, below the scope at hand. -/
theorem let_yielded (hks : ∀ k ∈ ks, k.Respects B) (site : FormSite) {items : List Value}
    (hi : RespectAll B items) {body : Value} (hb : body.Respects B) (he : B.scope e) :
    Yielded B s (bindings site items body (s.newScope e).1 ks (s.newScope e).2) := by
  have hedit : s.Edited B (s.newScope e).2 := .scope e [] he nofun
  refine .of_edit hedit (bindings_state _ _ _ _) fun hnew => ?_
  have hcurrent : B.current (s.newScope e).1 :=
    hnew.scopes s.scopes.size (Nat.le_refl _) (by simp [State.newScope, Scopes.child])
  exact bindings_yielded hks site hi hb hcurrent

/-- The names of parameters within the bounds may be bound, and what is no name is within them. -/
theorem parameters_respects {items : List Value} (hi : RespectAll B items) :
    match parameters items with
    | .ok formals => ∀ name ∈ formals, B.scalar (.symbol name)
    | .error v => v.Respects B := by
  induction items with
  | nil => exact nofun
  | cons v items ih =>
    obtain ⟨hv, hi⟩ := respectAll_cons.1 hi
    have ih := ih hi
    unfold parameters
    cases hname : v.symbolName? with
    | none => exact hv
    | some name =>
      have hsymbol := Value.scalar_of_symbolName hv hname
      cases hrest : parameters items with
      | ok names =>
        rw [hrest] at ih
        exact List.forall_mem_cons.2 ⟨hsymbol, ih⟩
      | error w =>
        rw [hrest] at ih
        exact ih

/-- A special form makes at most one scope or one closure. -/
theorem special_yielded (hB : B.Closed s.setup) (hks : ∀ k ∈ ks, k.Respects B)
    (form : SpecialForm) (site : FormSite) {operands : List Value} (hx : RespectAll B operands)
    (he : B.current e) : Yielded B s (special form site operands e ks s) := by
  unfold special
  split <;> try exact .same trivial hks
  · rename_i v expr
    have hv : v.Respects B := hx v (by simp)
    split
    · rename_i name hname
      have hsymbol := Value.scalar_of_symbolName hv hname
      exact .await ⟨hx expr (by simp), he⟩ ⟨hsymbol, he⟩ hks
    · exact .same hv hks
  · rw [respectAll_cons, respectAll_cons, Value.respects_list] at hx
    split
    · exact let_yielded hks site hx.1 hx.2.1 (B.scope_of_current e he)
    · exact .same trivial hks
  · rw [respectAll_cons, respectAll_cons, Value.respects_list] at hx
    split
    · exact let_yielded hks site hx.1 hx.2.1 (B.scope_of_current e he)
    · exact .same trivial hks
  · exact sequence_yielded hB hks hx he
  · rename_i condition yes
    exact .await ⟨hx condition (by simp), he⟩ ⟨hx yes (by simp), nofun, he⟩ hks
  · rename_i condition yes no
    refine .await ⟨hx condition (by simp), he⟩ ⟨hx yes (by simp), ?_, he⟩ hks
    rintro v ⟨rfl⟩
    exact hx no (by simp)
  · rw [respectAll_cons, respectAll_cons, Value.respects_list] at hx
    have hparameters := parameters_respects hx.1
    split <;> rename_i h <;> rw [h] at hparameters
    · have hscope := B.scope_of_current e he
      exact ⟨.same, fun _ => .closure hparameters hx.2.1 hscope, fun _ => hks⟩
    · exact .same hparameters hks
  · rename_i expr
    exact .await ⟨hx expr (by simp), he⟩ he hks

/-- Evaluating an expression within the bounds makes at most one edit. -/
theorem expression_yielded (hB : B.Closed s.setup) (hs : s.Respects B)
    (hks : ∀ k ∈ ks, k.Respects B) {expr : Value} (hx : expr.Respects B) (he : B.current e) :
    Yielded B s (expression expr e ks s) := by
  unfold expression
  split
  · exact lookup_yielded hs hks he _
  · exact .same trivial hks
  · rw [Value.respects_list, respectAll_cons] at hx
    obtain ⟨hhead, hoperands⟩ := hx
    split
    · exact special_yielded hB hks _ _ hoperands he
    · exact .await ⟨hhead, he⟩ ⟨hoperands, he⟩ hks
  · exact .same trivial hks
  · exact .same hx hks

theorem operand_yielded (hs : s.Respects B) (hks : ∀ k ∈ ks, k.Respects B) {expr : Value}
    (hx : expr.Respects B) (he : B.current e) : Yielded B s (operand expr e ks s) := by
  unfold operand
  split
  · exact lookup_yielded hs hks he _
  · exact enter_yielded hks [] hx he
  · exact .same hx hks

/-- Going on with a value makes at most one edit, in a scope that expressions are evaluated in. -/
theorem resume_yielded (hB : B.Closed s.setup) (hs : s.Respects B) (hks : ∀ k ∈ ks, k.Respects B)
    {k : Kont} (hk : k.Respects B) {v : Value} (hv : v.Respects B)
    (hroot : ∀ e, k = .evaluate e → B.current (s.scopes.root e)) :
    Yielded B s (resume k v ks s) := by
  cases k with
  | leave => exact ⟨.same, fun _ => hv, fun _ => hks⟩
  | callee head args e => exact arguments_yielded hB hs hks hv _ respectAll_nil hk.1 hk.2
  | argument f name done ahead e =>
    obtain ⟨hf, hd, ha, he⟩ := hk
    exact arguments_yielded hB hs hks hf name (respectAll_cons.2 ⟨hv, hd⟩) ha he
  | define name e => exact ⟨.bind e name v hk.2 hk.1 hv, fun _ => hv, fun _ => hks⟩
  | binding site name ahead body e =>
    obtain ⟨hname, ha, hb, he⟩ := hk
    have hedit : s.Edited B (s.bind e name v) := .bind e name v he hname hv
    exact .of_edit hedit (bindings_state _ _ _ _) fun _ => bindings_yielded hks site ha hb he
  | sequence ahead e => exact sequence_yielded hB hks hk.1 hk.2
  | branch yes no e =>
    obtain ⟨hyes, hno, he⟩ := hk
    simp only [resume]
    split
    · exact .same ⟨hyes, he⟩ hks
    · cases no with
      | some no => exact .same ⟨hno no rfl, he⟩ hks
      | none => exact .same hB.nil hks
  | evaluate e => exact .same ⟨hv, hroot e rfl⟩ hks
  | update c => exact ⟨.store c v hk hv, fun _ => .atom hk, fun _ => hks⟩

/-- **A step edits within bounds, and goes on within bounds that admit what it makes.** -/
theorem step_yielded {m m' : Machine} (hB : B.Closed m.state.setup) (hm : m.Respects B)
    (hroot : ∀ e, m.Evaluates e → B.current (m.state.scopes.root e)) (h : m.step = .next m') :
    Yielded B m.state m' := by
  obtain ⟨focus, ks, s⟩ := m
  obtain ⟨hf, hks, hs⟩ := hm
  cases focus with
  | expression expr e =>
    obtain rfl := Step.next.inj h
    exact expression_yielded hB hs hks hf.1 hf.2
  | operand expr e =>
    obtain rfl := Step.next.inj h
    exact operand_yielded hs hks hf.1 hf.2
  | application f args =>
    obtain rfl := Step.next.inj h
    exact apply_yielded hB hs hks hf.1 hf.2
  | value v =>
    cases ks with
    | nil => cases h
    | cons k ks =>
      obtain rfl := Step.next.inj h
      obtain ⟨hk, hks⟩ := List.forall_mem_cons.1 hks
      refine resume_yielded hB hs hks hk hf fun e he => ?_
      subst he
      exact hroot e ⟨v, ks, rfl, rfl⟩
  | failure f =>
    cases ks with
    | nil => cases h
    | cons k ks =>
      obtain rfl := Step.next.inj h
      have hks' := (List.forall_mem_cons.1 hks).2
      cases k with
      | leave =>
        have hattach : (f.attach s.stack).fault.Respects B := by
          rw [f.attach_fault]
          exact hf
        exact ⟨.same, fun _ => hattach, fun _ => hks'⟩
      | _ => exact .same hf hks'

/-- A machine that was yielded respects the bounds, if they admit what was made. -/
theorem Yielded.respects {m : Machine} (h : Yielded B s m) (hs : s.Respects B)
    (hnew : B.Admits s m.state) : m.Respects B :=
  ⟨h.focus hnew, h.konts hnew, h.edited.respects hs⟩

end Steps

/-! ## Runs -/

section Runs

variable {B : Bounds} {m m' : Machine}

/-- The bounds allow every scope and cell that is not in the state. -/
structure AdmitsNew (B : Bounds) (s : State) : Prop where
  scopes : ∀ e, s.scopes.size ≤ e → B.current e
  cells : ∀ c, s.cells.size ≤ c → B.cell c

/-- Bounds that admit all that is new admit it later too. -/
theorem AdmitsNew.later {s t : State} (hB : AdmitsNew B s) (h : s.Grows B t) : AdmitsNew B t where
  scopes e he := hB.scopes e (Nat.le_trans h.scopes_size he)
  cells c hc := hB.cells c (Nat.le_trans h.cells_size hc)

theorem AdmitsNew.admits {s : State} (hB : AdmitsNew B s) (t : State) : B.Admits s t where
  scopes e he _ := hB.scopes e he
  cells c hc _ := hB.cells c hc

/-- The setup is kept along runs. -/
theorem setup_reaches (h : Reaches m m') : m'.state.setup = m.state.setup := by
  induction h with
  | refl => rfl
  | tail _ hstep ih => exact (setup_step hstep).trans ih

/-- **A run stays within bounds that admit everything new**, and leaves what is out of bounds as it
was. -/
theorem Respects.reaches (hm : m.Respects B) (hB : B.Closed m.state.setup)
    (hnew : AdmitsNew B m.state)
    (hroot : ∀ m', Reaches m m' → m'.Respects B → m.state.Grows B m'.state →
      ∀ e, m'.Evaluates e → B.current (m'.state.scopes.root e))
    (h : Reaches m m') : m'.Respects B ∧ m.state.Grows B m'.state := by
  induction h with
  | refl => exact ⟨hm, .refl B m.state⟩
  | @tail m₁ m₂ h hstep ih =>
    obtain ⟨hm₁, hgrows⟩ := ih
    have hB₁ : B.Closed m₁.state.setup := setup_reaches h ▸ hB
    have hyield := step_yielded hB₁ hm₁ (hroot m₁ h hm₁ hgrows) hstep
    have hm₂ := hyield.respects hm₁.state ((hnew.later hgrows).admits _)
    exact ⟨hm₂, hgrows.trans hyield.edited.grows⟩

end Runs

end Machine

end TinyLisp
