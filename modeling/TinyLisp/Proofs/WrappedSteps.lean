import TinyLisp.Proofs.PlacelessRuns
import TinyLisp.Proofs.Wrapping

/-!
# Steps of wrapped programs

A machine that evaluates a wrapped program does what the machine of the program does, with some
steps in between: where an expression is wrapped, it first steps into the `do`, and where that is an
operand and no list, it also enters a frame and leaves it again. What both hold is the same, wrapped
here and there.

* `Builtin.run_wrapped`: what a built-in function answers, if the functions of the embedding program
  do not look into the bodies of closures (`Host.IgnoresBodies`).
* `special_wrapped`, `list_wrapped`: special forms and calls.
* `operand_wrapped`: operands, which need room for a frame.
* `step_wrapped`, `done_wrapped`: steps and ends.

The steps in between come with the machine of the wrapped program only, so each step of the program
is matched by one or more (`Machine.Advances`).
-/

namespace TinyLisp

open Machine

/-! ## Built-in functions -/

/-- The content of a scalar. -/
def Value.content? : Value → Option Scalar
  | .scalar _ content => some content
  | _ => none

/-- A scalar is wrapped nowhere. -/
theorem Wrapped.content {v w : Value} (h : Wrapped .datum v w) : w.content? = v.content? := by
  cases h with
  | wrap _ _ hmay _ => exact hmay.elim
  | _ => rfl

/-- Both checks let the same pass, or both fail. -/
inductive Checked {α : Type} : Except Fault α → Except Fault α → Prop
  | ok (a : α) : Checked (.ok a) (.ok a)
  | error {f g : Fault} : f.Wrapped g → Checked (.error f) (.error g)

/-- The second reply is the first with wrapped values. -/
inductive Reply.Wrapped : Reply → Reply → Prop
  | value {v w : Value} : TinyLisp.Wrapped .datum v w → Wrapped (.value v) (.value w)
  | fault {f g : Fault} : f.Wrapped g → Wrapped (.fault f) (.fault g)
  | update {c : CellId} {v w : Value} : TinyLisp.Wrapped .datum v w →
      Wrapped (.update c v) (.update c w)

/-- The second reply is the first with wrapped values, and so is the state that it leaves. -/
structure Reply.WrappedIn (r r' : Reply × State) : Prop where
  reply : r.1.Wrapped r'.1
  state : r.2.Wrapped r'.2

/-- The function of the embedding program does not look into the bodies of closures: it answers the
same, wrapped here and there, for wrapped arguments. -/
def Host.IgnoresBodies (host : Host) : Prop :=
  ∀ name args args', List.Forall₂ (Wrapped .datum) args args' →
    (Reply.ofExcept (host name args)).Wrapped (Reply.ofExcept (host name args'))

theorem Reply.Wrapped.refl (r : Reply) : r.Wrapped r := by
  cases r with
  | value v => exact .value (.refl _ v)
  | fault f => exact .fault (.refl f)
  | update c f => exact .update (.refl _ f)

/-- The same reply, which holds no closure of a program. -/
theorem Reply.WrappedIn.same {s t : State} (r : Reply) (h : s.Wrapped t) :
    WrappedIn (r, s) (r, t) := ⟨.refl r, h⟩

namespace Primitive

variable {name : Text} {a a' b b' : Value} {s t : State} {args args' : List Value}

/-- The second argument is looked at first. -/
theorem integers_eq (name : Text) (a b : Value) : integers name a b =
    match b.content? with
    | some (.int n) =>
      match a.content? with
      | some (.int m) => .ok (m, n)
      | _ => .error (.typeMismatch name 1 .integer a)
    | _ => .error (.typeMismatch name 2 .integer b) := by
  cases a with
  | scalar _ m =>
    cases b with
    | scalar _ n => cases m <;> cases n <;> rfl
    | _ => cases m <;> rfl
  | _ =>
    cases b with
    | scalar _ n => cases n <;> rfl
    | _ => rfl

/-- Arguments are the same integers, or the first that is none is the same one. -/
theorem integers_wrapped (name : Text) (ha : Wrapped .datum a a') (hb : Wrapped .datum b b') :
    Checked (integers name a b) (integers name a' b') := by
  rw [integers_eq, integers_eq, ha.content, hb.content]
  split
  · split
    · exact .ok _
    · exact .error (.typeMismatch ha)
  · exact .error (.typeMismatch hb)

theorem arithmetic_wrapped (f : Int64 → Int64 → Int64) (name : Text) (ha : Wrapped .datum a a')
    (hb : Wrapped .datum b b') : (arithmetic f name a b).Wrapped (arithmetic f name a' b') := by
  have h := integers_wrapped name ha hb
  unfold arithmetic
  generalize integers name a b = r, integers name a' b' = r' at h ⊢
  cases h with
  | ok numbers => exact .value (.refl _ _)
  | error h => exact .fault h

theorem divide_wrapped (name : Text) (ha : Wrapped .datum a a') (hb : Wrapped .datum b b') :
    (divide name a b).Wrapped (divide name a' b') := by
  have h := integers_wrapped name ha hb
  unfold divide
  generalize integers name a b = r, integers name a' b' = r' at h ⊢
  cases h with
  | ok numbers =>
    dsimp only
    split
    · exact .fault (.refl _)
    · exact .value (.refl _ _)
  | error h => exact .fault h

theorem isLess_eq (a b : Value) : isLess a b =
    match a.content?, b.content? with
    | some (.int m), some (.int n) => m < n
    | _, _ => false := by
  cases a with
  | scalar _ m =>
    cases b with
    | scalar _ n => cases m <;> cases n <;> rfl
    | _ => cases m <;> rfl
  | _ => rfl

/-- Order does not look at code. -/
theorem isLess_wrapped (ha : Wrapped .datum a a') (hb : Wrapped .datum b b') :
    isLess a' b' = isLess a b := by
  rw [isLess_eq, isLess_eq, ha.content, hb.content]

theorem stringArgument_eq (name : Text) (v : Value) : stringArgument name v =
    match v.content? with
    | some (.string t) => .ok t
    | _ => .error (.typeMismatch name 1 .string v) := by
  cases v with
  | scalar _ content => cases content <;> rfl
  | _ => rfl

theorem stringArgument_wrapped (name : Text) (ha : Wrapped .datum a a') :
    Checked (stringArgument name a) (stringArgument name a') := by
  rw [stringArgument_eq, stringArgument_eq, ha.content]
  split
  · exact .ok _
  · exact .error (.typeMismatch ha)

theorem cellArgument_wrapped (name : Text) (ha : Wrapped .datum a a') :
    Checked (cellArgument name a) (cellArgument name a') := by
  cases ha with
  | wrap _ _ hmay _ => exact hmay.elim
  | atom => exact .ok _
  | list h => exact .error (.typeMismatch (.list h))
  | closure h => exact .error (.typeMismatch (.closure h))
  | _ => exact .error (.refl _)

theorem concatenate_cons (name : Text) (position : Nat) (done : Text) (v : Value)
    (vs : List Value) : concatenate name position done (v :: vs) =
    match v.content? with
    | some (.string t) => concatenate name (position + 1) (done ++ t) vs
    | _ => .fault (.typeMismatch name position .string v) := by
  cases v with
  | scalar _ content => cases content <;> rfl
  | _ => rfl

/-- Texts are put together the same way, or the first argument that is no text is the same one. -/
theorem concatenate_wrapped (name : Text) (position : Nat) (done : Text)
    (hargs : List.Forall₂ (Wrapped .datum) args args') :
    (concatenate name position done args).Wrapped (concatenate name position done args') := by
  induction hargs generalizing position done with
  | nil => exact .value (.refl _ _)
  | cons h _ ih =>
    rw [concatenate_cons, concatenate_cons, h.content]
    split
    · exact ih (position + 1) _
    · exact .fault (.typeMismatch h)

/-- The same file is read. -/
theorem slurpFile_wrapped (name path : Text) (h : s.Wrapped t) :
    Reply.WrappedIn (slurpFile name path s) (slurpFile name path t) := by
  have hfiles : (t.note (.opened path)).files = (s.note (.opened path)).files := by
    rw [h.rest]
    rfl
  unfold slurpFile
  dsimp only
  rw [hfiles]
  split
  · exact .same _ ((h.note _).debug _ _)
  · exact .same _ (h.note _)

/-- A function that is called with one argument. -/
theorem run_one_wrapped (p : Primitive) (name : Text) (ha : Wrapped .datum a a')
    (h : s.Wrapped t) : Reply.WrappedIn (p.run name [a] s) (p.run name [a'] t) := by
  have hlist : WrappedAll (.each .datum) [a] [a'] := .cons ha .nil
  cases p with
  | list => exact ⟨.value (.list hlist), h⟩
  | isList =>
    simp only [run, ha.kind not_false]
    exact .same _ h
  | isEmpty =>
    simp only [run, ha.kind not_false, ha.length]
    exact .same _ h
  | count =>
    simp only [run, ha.length]
    exact .same _ h
  | str => exact ⟨concatenate_wrapped name 1 [] (.cons ha .nil), h⟩
  | slurp =>
    have hpath := stringArgument_wrapped name ha
    simp only [run]
    generalize stringArgument name a = r, stringArgument name a' = r' at hpath ⊢
    cases hpath with
    | ok path => exact slurpFile_wrapped name path h
    | error hfault => exact ⟨.fault hfault, h⟩
  | readStr =>
    have htext := stringArgument_wrapped name ha
    simp only [run]
    generalize stringArgument name a = r, stringArgument name a' = r' at htext ⊢
    cases htext with
    | ok text =>
      have hreads : t.reads = s.reads := by rw [h.rest]
      simp only [State.readForm, hreads]
      exact .same _ h
    | error hfault => exact ⟨.fault hfault, h⟩
  | atom =>
    obtain ⟨hatom, hstate⟩ := h.newAtom ha
    refine ⟨?_, hstate⟩
    simp only [run]
    rw [hatom]
    exact .refl _
  | isAtom =>
    simp only [run, ha.kind not_false]
    exact .same _ h
  | deref =>
    have hcell := cellArgument_wrapped name ha
    simp only [run]
    generalize cellArgument name a = r, cellArgument name a' = r' at hcell ⊢
    cases hcell with
    | ok c => exact ⟨.value (h.contents c), h⟩
    | error hfault => exact ⟨.fault hfault, h⟩
  | prn =>
    have hprint := h.print (s.printed a ++ [10])
    have hprinted : t.printed a' = s.printed a := Wrapped.render_eq h.cells ha
    simp only [run, hprinted]
    generalize s.print? (s.printed a ++ [10]) = r, t.print? (s.printed a ++ [10]) = r' at hprint ⊢
    cases hprint with
    | none => exact .same _ h
    | some hstate => exact .same _ hstate
  | _ => exact .same _ h

/-- A function that is called with two arguments. -/
theorem run_two_wrapped (p : Primitive) (name : Text) (ha : Wrapped .datum a a')
    (hb : Wrapped .datum b b') (h : s.Wrapped t) :
    Reply.WrappedIn (p.run name [a, b] s) (p.run name [a', b'] t) := by
  have hlist : WrappedAll (.each .datum) [a, b] [a', b'] := .cons ha (.cons hb .nil)
  cases p with
  | add => exact ⟨arithmetic_wrapped _ name ha hb, h⟩
  | sub => exact ⟨arithmetic_wrapped _ name ha hb, h⟩
  | mul => exact ⟨arithmetic_wrapped _ name ha hb, h⟩
  | div => exact ⟨divide_wrapped name ha hb, h⟩
  | equal =>
    simp only [run, ha.equal hb]
    exact .same _ h
  | less =>
    simp only [run, isLess_wrapped ha hb]
    exact .same _ h
  | list => exact ⟨.value (.list hlist), h⟩
  | str => exact ⟨concatenate_wrapped name 1 [] (.cons ha (.cons hb .nil)), h⟩
  | reset =>
    have hcell := cellArgument_wrapped name ha
    simp only [run]
    generalize cellArgument name a = r, cellArgument name a' = r' at hcell ⊢
    cases hcell with
    | ok c => exact ⟨.value hb, h.store c hb⟩
    | error hfault => exact ⟨.fault hfault, h⟩
  | swap =>
    have hcell := cellArgument_wrapped name ha
    simp only [run, hb.isCallable]
    generalize cellArgument name a = r, cellArgument name a' = r' at hcell ⊢
    cases hcell with
    | ok c =>
      dsimp only
      split
      · exact ⟨.update hb, h⟩
      · exact ⟨.fault (.typeMismatch hb), h⟩
    | error hfault => exact ⟨.fault hfault, h⟩
  | _ => exact .same _ h

/-- **What a function of the language answers** to wrapped arguments is what it answers, wrapped. -/
theorem run_wrapped (p : Primitive) (name : Text) (hargs : List.Forall₂ (Wrapped .datum) args args')
    (h : s.Wrapped t) : Reply.WrappedIn (p.run name args s) (p.run name args' t) := by
  match args, args', hargs with
  | _, _, .nil =>
    cases p with
    | debugStack =>
      obtain ⟨hdone, hstate⟩ := h.printStack
      simp only [run, hdone]
      exact .same _ hstate
    | _ => exact .same _ h
  | _, _, .cons ha .nil => exact run_one_wrapped p name ha h
  | _, _, .cons ha (.cons hb .nil) => exact run_two_wrapped p name ha hb h
  | _, _, .cons ha (.cons hb (.cons hc hs)) =>
    -- only two functions take more than two arguments
    cases p with
    | list => exact ⟨.value (.list (wrappedAll_each.2 (.cons ha (.cons hb (.cons hc hs))))), h⟩
    | str => exact ⟨concatenate_wrapped name 1 [] (.cons ha (.cons hb (.cons hc hs))), h⟩
    | _ =>
      simp only [run, List.length_cons, hs.length_eq]
      exact .same _ h

end Primitive

section Builtins

variable {s t : State}

/-- **What a built-in function answers** to wrapped arguments is what it answers, wrapped, if the
functions of the embedding program do not look into the bodies of closures. -/
theorem Builtin.run_wrapped (hhosts : ∀ host ∈ s.hosts, Host.IgnoresBodies host) (b : Builtin)
    {args args' : List Value} (hargs : List.Forall₂ (Wrapped .datum) args args')
    (h : s.Wrapped t) : Reply.WrappedIn (b.run args s) (b.run args' t) := by
  have hroutine : Reply.WrappedIn (b.runRoutine args s) (b.runRoutine args' t) := by
    have hsame : t.hosts = s.hosts := by rw [h.rest]
    unfold Builtin.runRoutine
    rw [hsame]
    split
    · exact Primitive.run_wrapped _ b.name hargs h
    · split
      · rename_i host hget
        exact ⟨hhosts host (Array.mem_of_getElem? hget) b.name _ _ hargs, h⟩
      · exact .same _ h
  unfold Builtin.run
  rw [← hargs.length_eq]
  split
  · exact hroutine
  · split
    · exact hroutine
    · exact .same _ h

end Builtins

/-! ## Machines -/

/-- The second continuation is the first with wrapped expressions and values. Of the head of a call
only its name is used. -/
inductive Kont.Wrapped : Kont → Kont → Prop
  | leave : Wrapped .leave .leave
  | callee {head head' : Value} {args args' : List Value} {e : ScopeId} :
      head'.symbolName? = head.symbolName? → WrappedAll (.each .operand) args args' →
      Wrapped (.callee head args e) (.callee head' args' e)
  | argument {f f' : Value} {name : Text} {done done' ahead ahead' : List Value} {e : ScopeId} :
      TinyLisp.Wrapped .datum f f' → List.Forall₂ (TinyLisp.Wrapped .datum) done done' →
      WrappedAll (.each .operand) ahead ahead' →
      Wrapped (.argument f name done ahead e) (.argument f' name done' ahead' e)
  | define {name : Text} {e : ScopeId} : Wrapped (.define name e) (.define name e)
  | binding {site : FormSite} {name : Text} {ahead ahead' : List Value} {body body' : Value}
      {e : ScopeId} : WrappedAll .pairs ahead ahead' → TinyLisp.Wrapped .expression body body' →
      Wrapped (.binding site name ahead body e) (.binding site name ahead' body' e)
  | sequence {ahead ahead' : List Value} {e : ScopeId} : WrappedAll (.each .operand) ahead ahead' →
      Wrapped (.sequence ahead e) (.sequence ahead' e)
  | branch {yes yes' : Value} {no no' : Option Value} {e : ScopeId} :
      TinyLisp.Wrapped .expression yes yes' → Option.Rel (TinyLisp.Wrapped .expression) no no' →
      Wrapped (.branch yes no e) (.branch yes' no' e)
  | evaluate {e : ScopeId} : Wrapped (.evaluate e) (.evaluate e)
  | update {c : CellId} : Wrapped (.update c) (.update c)

/-- The second focus is the first with wrapped expressions and values. The traces of failures may
differ. -/
inductive Focus.Wrapped : Focus → Focus → Prop
  | expression {v w : Value} {e : ScopeId} : TinyLisp.Wrapped .expression v w →
      Wrapped (.expression v e) (.expression w e)
  | operand {v w : Value} {e : ScopeId} : TinyLisp.Wrapped .operand v w →
      Wrapped (.operand v e) (.operand w e)
  | application {f f' : Value} {args args' : List Value} : TinyLisp.Wrapped .datum f f' →
      List.Forall₂ (TinyLisp.Wrapped .datum) args args' →
      Wrapped (.application f args) (.application f' args')
  | value {v w : Value} : TinyLisp.Wrapped .datum v w → Wrapped (.value v) (.value w)
  | failure {f g : Failure} : f.fault.Wrapped g.fault → Wrapped (.failure f) (.failure g)

/-- The second machine is the first with wrapped expressions and values. -/
structure Machine.Wrapped (m m' : Machine) : Prop where
  focus : m.focus.Wrapped m'.focus
  konts : List.Forall₂ Kont.Wrapped m.konts m'.konts
  state : m.state.Wrapped m'.state

/-- Both evaluations came to a value, or both failed with the same fault; the values, also those in
the state, are wrapped here and there. -/
inductive Outcome.Wrapped : Outcome → Outcome → Prop
  | value {v w : Value} {s t : State} : TinyLisp.Wrapped .datum v w → s.Wrapped t →
      Wrapped { result := .ok v, state := s } { result := .ok w, state := t }
  | failure {f g : Failure} {s t : State} : f.fault.Wrapped g.fault → s.Wrapped t →
      Wrapped { result := .error f, state := s } { result := .error g, state := t }

namespace Machine

/-- At least one step leads from one machine to another. -/
def Advances : Machine → Machine → Prop :=
  Relation.TransGen fun m m' => m.step = .next m'

section Steps

variable {s t : State} {ks ks' : List Kont} {e : ScopeId} {v w : Value} {vs ws : List Value}
  {f g : Fault} {args args' : List Value}

/-- Values up to wrapped code are handed on. -/
theorem wrapped_value (hv : TinyLisp.Wrapped .datum v w) (hks : List.Forall₂ Kont.Wrapped ks ks')
    (h : s.Wrapped t) :
    Machine.Wrapped { focus := .value v, konts := ks, state := s }
      { focus := .value w, konts := ks', state := t } := ⟨.value hv, hks, h⟩

theorem fail_wrapped (hf : f.Wrapped g) (hks : List.Forall₂ Kont.Wrapped ks ks')
    (h : s.Wrapped t) : (fail f ks s).Wrapped (fail g ks' t) := ⟨.failure hf, hks, h⟩

theorem failHere_wrapped (hf : f.Wrapped g) (hks : List.Forall₂ Kont.Wrapped ks ks')
    (h : s.Wrapped t) : (failHere f ks s).Wrapped (failHere g ks' t) := ⟨.failure hf, hks, h⟩

/-- A name means the same, up to wrapped code. -/
theorem settle_wrapped (e : ScopeId) (name : Text) (hks : List.Forall₂ Kont.Wrapped ks ks')
    (h : s.Wrapped t) : (settle (s.lookup e name) ks s).Wrapped (settle (t.lookup e name) ks' t) := by
  have hlookup := h.lookup e name
  unfold State.lookup
  generalize s.scopes.lookup e name = found, t.scopes.lookup e name = found' at hlookup ⊢
  cases hlookup with
  | none => exact fail_wrapped (.refl _) hks h
  | some hv => exact wrapped_value hv hks h

/-- A frame is entered with an expression up to wrapped code. -/
theorem enter_wrapped (name : Text) (hv : TinyLisp.Wrapped .expression v w) (e : ScopeId)
    (hks : List.Forall₂ Kont.Wrapped ks ks') (h : s.Wrapped t) :
    (enter name v e ks s).Wrapped (enter name w e ks' t) := by
  unfold enter
  rw [h.stack_eq]
  split
  · exact ⟨.expression hv, .cons .leave hks, h.withStack _⟩
  · have hdebug := h.debug "stack limit reached" [("height", .number s.stack.height)]
    refine failHere_wrapped ?_ hks hdebug
    rw [overflow, overflow, hdebug.stack_eq]
    exact .refl _

/-- The arguments are bound in a scope with the same number. -/
theorem callScope_wrapped (formals : List Text) (e : ScopeId)
    (hargs : List.Forall₂ (TinyLisp.Wrapped .datum) args args') (h : s.Wrapped t) :
    (callScope formals e args' t).1 = (callScope formals e args s).1 ∧
      (callScope formals e args s).2.Wrapped (callScope formals e args' t).2 := by
  obtain ⟨hnumber, hstate⟩ := h.newScope e
  unfold callScope
  dsimp only
  rw [hnumber]
  exact ⟨rfl, hstate.bindAll _ formals hargs⟩

/-- Both go on with the same answer, up to wrapped code. -/
theorem answered_wrapped {r r' : Reply × State} (hr : Reply.WrappedIn r r')
    (hks : List.Forall₂ Kont.Wrapped ks ks') : (answered ks r).Wrapped (answered ks' r') := by
  obtain ⟨r, s⟩ := r
  obtain ⟨r', t⟩ := r'
  obtain ⟨hreply, hstate⟩ := hr
  cases hreply with
  | value hv => exact wrapped_value hv (.cons .leave hks) hstate
  | fault hf => exact fail_wrapped hf (.cons .leave hks) hstate
  | update hf =>
    exact ⟨.application hf (.cons (hstate.contents _) .nil), .cons .update (.cons .leave hks), hstate⟩

/-- A built-in function answers the same, up to wrapped code. -/
theorem callBuiltin_wrapped (hhosts : ∀ host ∈ s.hosts, Host.IgnoresBodies host) (b : Builtin)
    (hargs : List.Forall₂ (TinyLisp.Wrapped .datum) args args')
    (hks : List.Forall₂ Kont.Wrapped ks ks') (h : s.Wrapped t) :
    (callBuiltin b args ks s).Wrapped (callBuiltin b args' ks' t) := by
  cases hpush : s.stack.push b.name true with
  | none =>
    have hoverflow : overflow t = overflow s := by rw [overflow, overflow, h.stack_eq]
    rw [callBuiltin, callBuiltin, h.stack_eq, hpush, hoverflow]
    exact failHere_wrapped (.refl _) hks h
  | some stack =>
    rw [callBuiltin_eq b args hpush, callBuiltin_eq b args' (h.stack_eq ▸ hpush)]
    exact answered_wrapped (Builtin.run_wrapped (s := { s with stack }) hhosts b hargs
      (h.withStack stack)) hks

theorem arityFault_wrapped (lenient : Bool) (name : Text) (formals : List Text)
    (hargs : List.Forall₂ (TinyLisp.Wrapped .datum) args args') :
    arityFault? lenient name formals args' = arityFault? lenient name formals args := by
  unfold arityFault?
  rw [hargs.length_eq]

/-- A closure goes on with its body, which may be wrapped. -/
theorem call_wrapped (hhosts : ∀ host ∈ s.hosts, Host.IgnoresBodies host)
    (hv : TinyLisp.Wrapped .datum v w) (name : Text)
    (hargs : List.Forall₂ (TinyLisp.Wrapped .datum) args args')
    (hks : List.Forall₂ Kont.Wrapped ks ks') (h : s.Wrapped t) :
    (call v name args ks s).Wrapped (call w name args' ks' t) := by
  cases hv with
  | wrap _ _ hmay _ => exact hmay.elim
  | builtin => exact callBuiltin_wrapped hhosts _ hargs hks h
  | @closure _ identity formals body body' e hbody =>
    have hlenient : t.lenient = s.lenient := by rw [h.rest]
    simp only [call, hlenient, arityFault_wrapped s.lenient name formals hargs]
    cases arityFault? s.lenient name formals args with
    | some fault => exact fail_wrapped (.refl _) hks h
    | none =>
      obtain ⟨hnumber, hstate⟩ := callScope_wrapped formals e hargs h
      simp only [hnumber, hstate.stack_eq]
      exact ⟨.expression hbody, hks, hstate.withStack _⟩
  | list hitems => exact fail_wrapped (.notCallable (.list hitems)) hks h
  | _ => exact fail_wrapped (.refl _) hks h

/-- A closure goes on with its body in a frame of its own. -/
theorem apply_wrapped (hhosts : ∀ host ∈ s.hosts, Host.IgnoresBodies host)
    (hv : TinyLisp.Wrapped .datum v w) (hargs : List.Forall₂ (TinyLisp.Wrapped .datum) args args')
    (hks : List.Forall₂ Kont.Wrapped ks ks') (h : s.Wrapped t) :
    (apply v args ks s).Wrapped (apply w args' ks' t) := by
  cases hv with
  | wrap _ _ hmay _ => exact hmay.elim
  | builtin => exact callBuiltin_wrapped hhosts _ hargs hks h
  | @closure _ identity formals body body' e hbody =>
    have hlenient : t.lenient = s.lenient := by rw [h.rest]
    simp only [apply, hlenient, arityFault_wrapped s.lenient anonymous formals hargs]
    cases arityFault? s.lenient anonymous formals args with
    | some fault => exact failHere_wrapped (.refl _) hks h
    | none =>
      obtain ⟨hnumber, hstate⟩ := callScope_wrapped formals e hargs h
      simp only [hnumber]
      exact enter_wrapped anonymous hbody _ hks hstate
  | list hitems => exact failHere_wrapped (.notCallable (.list hitems)) hks h
  | _ => exact failHere_wrapped (.refl _) hks h

theorem arguments_wrapped (hhosts : ∀ host ∈ s.hosts, Host.IgnoresBodies host)
    (hv : TinyLisp.Wrapped .datum v w) (name : Text) {done done' ahead ahead' : List Value}
    (hdone : List.Forall₂ (TinyLisp.Wrapped .datum) done done')
    (hahead : WrappedAll (.each .operand) ahead ahead') (e : ScopeId)
    (hks : List.Forall₂ Kont.Wrapped ks ks') (h : s.Wrapped t) :
    (arguments v name done ahead e ks s).Wrapped (arguments w name done' ahead' e ks' t) := by
  cases hahead with
  | nil => exact call_wrapped hhosts hv name (List.rel_reverse hdone) hks h
  | cons ha hahead => exact ⟨.operand ha, .cons (.argument hv hdone hahead) hks, h⟩

/-! ### Special forms -/

/-- The names of bindings are not wrapped, their values may be. -/
theorem bindings_wrapped (site : FormSite) (hahead : WrappedAll .pairs vs ws)
    (hbody : TinyLisp.Wrapped .expression v w) (e : ScopeId)
    (hks : List.Forall₂ Kont.Wrapped ks ks') (h : s.Wrapped t) :
    (bindings site vs v e ks s).Wrapped (bindings site ws w e ks' t) := by
  match vs, ws, hahead with
  | _, _, .nil => exact ⟨.expression hbody, hks, h⟩
  | _, _, .cons _ .nil => exact fail_wrapped (.refl _) hks h
  | _, _, .cons (v := v) (w := w) hname (.cons hexpr hahead) =>
    have hname : TinyLisp.Wrapped .datum v w := hname
    simp only [bindings, hname.symbolName False.elim]
    cases v.symbolName? with
    | some name => exact ⟨.operand hexpr, .cons (.binding hahead hbody) hks, h⟩
    | none => exact fail_wrapped (.notSymbol hname) hks h

theorem sequence_wrapped (hexprs : WrappedAll (.each .operand) vs ws) (e : ScopeId)
    (hks : List.Forall₂ Kont.Wrapped ks ks') (h : s.Wrapped t) :
    (sequence vs e ks s).Wrapped (sequence ws e ks' t) := by
  match vs, ws, hexprs with
  | _, _, .nil => exact wrapped_value (.refl _ _) hks h
  | _, _, .cons hexpr .nil => exact ⟨.expression (Wrapped.expression hexpr), hks, h⟩
  | _, _, .cons hexpr (.cons hexpr' hahead) =>
    exact ⟨.operand hexpr, .cons (.sequence (.cons hexpr' hahead)) hks, h⟩

/-- The names of the parameters are the same, or the same value is none. -/
theorem parameters_wrapped (h : WrappedAll (.each .datum) vs ws) :
    (∃ formals, parameters vs = .ok formals ∧ parameters ws = .ok formals) ∨
      ∃ v w, parameters vs = .error v ∧ parameters ws = .error w ∧
        TinyLisp.Wrapped .datum v w := by
  induction vs generalizing ws with
  | nil =>
    cases h with
    | nil => exact .inl ⟨[], rfl, rfl⟩
  | cons v vs ih =>
    cases h with
    | @cons _ _ w _ ws hv hvs =>
      have hv : TinyLisp.Wrapped .datum v w := hv
      have hname : w.symbolName? = v.symbolName? := hv.symbolName False.elim
      simp only [parameters, hname]
      cases v.symbolName? with
      | none => exact .inr ⟨v, w, rfl, rfl, hv⟩
      | some name =>
        obtain ⟨formals, hok, hok'⟩ | ⟨v', w', herror, herror', hrel⟩ := ih hvs
        · exact .inl ⟨name :: formals, by rw [hok], by rw [hok']⟩
        · exact .inr ⟨v', w', by rw [herror], by rw [herror'], hrel⟩

/-- The list of bindings is not wrapped. -/
theorem let_wrapped (site : FormSite) {body body' : Value} (hv : TinyLisp.Wrapped .bindings v w)
    (hbody : TinyLisp.Wrapped .expression body body') (e : ScopeId)
    (hks : List.Forall₂ Kont.Wrapped ks ks') (h : s.Wrapped t) :
    (special .letSeq site [v, body] e ks s).Wrapped (special .letSeq site [w, body'] e ks' t) := by
  cases hv with
  | wrap _ _ hmay _ => exact hmay.elim
  | @list _ source items items' hitems =>
    have hitems : WrappedAll .pairs items items' := hitems
    simp only [special, hitems.length_eq]
    split
    · obtain ⟨hnumber, hstate⟩ := h.newScope e
      rw [hnumber]
      exact bindings_wrapped site hitems hbody _ hks hstate
    · exact fail_wrapped (.refl _) hks h
  | @scalar _ _ content => cases content <;> exact fail_wrapped (.refl _) hks h
  | _ => exact fail_wrapped (.refl _) hks h

/-- The list of parameters is not wrapped, the body may be. -/
theorem function_wrapped (site : FormSite) {body body' : Value} (hv : TinyLisp.Wrapped .datum v w)
    (hbody : TinyLisp.Wrapped .expression body body') (e : ScopeId)
    (hks : List.Forall₂ Kont.Wrapped ks ks') (h : s.Wrapped t) :
    (special .function site [v, body] e ks s).Wrapped
      (special .function site [w, body'] e ks' t) := by
  cases hv with
  | wrap _ _ hmay _ => exact hmay.elim
  | @list _ source items items' hitems =>
    obtain ⟨formals, hok, hok'⟩ | ⟨v', w', herror, herror', hrel⟩ := parameters_wrapped hitems
    · obtain ⟨hclosure, hstate⟩ := h.newClosure formals hbody e
      simp only [special, hok, hok']
      exact wrapped_value hclosure hks hstate
    · simp only [special, herror, herror']
      exact fail_wrapped (.notSymbol hrel) hks h
  | @scalar _ _ content => cases content <;> exact fail_wrapped (.refl _) hks h
  | _ => exact fail_wrapped (.refl _) hks h

theorem define_wrapped (site : FormSite) {expr expr' : Value} (hv : TinyLisp.Wrapped .datum v w)
    (hexpr : TinyLisp.Wrapped .operand expr expr') (e : ScopeId)
    (hks : List.Forall₂ Kont.Wrapped ks ks') (h : s.Wrapped t) :
    (special .define site [v, expr] e ks s).Wrapped (special .define site [w, expr'] e ks' t) := by
  have hname : w.symbolName? = v.symbolName? := hv.symbolName False.elim
  simp only [special, hname]
  cases v.symbolName? with
  | some name => exact ⟨.operand hexpr, .cons .define hks, h⟩
  | none => exact fail_wrapped (.notSymbol hv) hks h

/-- Both branches are in tail position and may be wrapped. -/
theorem branch_wrapped (site : FormSite) (hvs : WrappedAll SpecialForm.branch.roles vs ws)
    (e : ScopeId) (hks : List.Forall₂ Kont.Wrapped ks ks') (h : s.Wrapped t) :
    (special .branch site vs e ks s).Wrapped (special .branch site ws e ks' t) := by
  match vs, ws, hvs with
  | _, _, .nil => exact fail_wrapped (.refl _) hks h
  | _, _, .cons _ .nil => exact fail_wrapped (.refl _) hks h
  | _, _, .cons hcondition (.cons hyes .nil) =>
    exact ⟨.operand hcondition, .cons (.branch hyes .none) hks, h⟩
  | _, _, .cons hcondition (.cons hyes (.cons hno .nil)) =>
    exact ⟨.operand hcondition, .cons (.branch hyes (.some hno)) hks, h⟩
  | _, _, .cons _ (.cons _ (.cons _ (.cons _ hvs))) =>
    simp only [special, List.length_cons, hvs.length_eq]
    exact fail_wrapped (.refl _) hks h

theorem evaluate_wrapped (site : FormSite) (hvs : WrappedAll SpecialForm.evaluate.roles vs ws)
    (e : ScopeId) (hks : List.Forall₂ Kont.Wrapped ks ks') (h : s.Wrapped t) :
    (special .evaluate site vs e ks s).Wrapped (special .evaluate site ws e ks' t) := by
  match vs, ws, hvs with
  | _, _, .nil => exact fail_wrapped (.refl _) hks h
  | _, _, .cons hexpr .nil => exact ⟨.operand hexpr, .cons .evaluate hks, h⟩
  | _, _, .cons _ (.cons _ hvs) =>
    simp only [special, List.length_cons, hvs.length_eq]
    exact fail_wrapped (.refl _) hks h

/-- **A special form** with wrapped operands does what it does with the operands, wrapped. -/
theorem special_wrapped (form : SpecialForm) (site : FormSite) (hvs : WrappedAll form.roles vs ws)
    (e : ScopeId) (hks : List.Forall₂ Kont.Wrapped ks ks') (h : s.Wrapped t) :
    (special form site vs e ks s).Wrapped (special form site ws e ks' t) := by
  by_cases hform : form ∈ [.sequence, .branch, .evaluate]
  · cases form with
    | sequence => exact sequence_wrapped hvs e hks h
    | branch => exact branch_wrapped site hvs e hks h
    | evaluate => exact evaluate_wrapped site hvs e hks h
    | _ => exact absurd hform (by decide)
  · by_cases hlength : vs.length = 2
    · match vs, ws, hvs, hlength with
      | _, _, .cons hv (.cons hbody .nil), _ =>
        cases form with
        | define => exact define_wrapped site hv hbody e hks h
        | letSeq => exact let_wrapped site hv hbody e hks h
        | letRec =>
          rw [special_letRec, special_letRec]
          exact let_wrapped site hv hbody e hks h
        | function => exact function_wrapped site hv hbody e hks h
        | _ => exact absurd (by decide) hform
    · have hlength' : ws.length ≠ 2 := by rwa [hvs.length_eq]
      rw [special_of_length_ne hform site hlength, special_of_length_ne hform site hlength',
        hvs.length_eq]
      exact fail_wrapped (.refl _) hks h

/-! ### Expressions -/

/-- A list that is evaluated is a special form or a call in both. -/
theorem list_wrapped (source : Option Location) (hvs : WrappedAll (Roles.evaluated vs) vs ws)
    (e : ScopeId) (hks : List.Forall₂ Kont.Wrapped ks ks') (h : s.Wrapped t) :
    (expression (.list source vs) e ks s).Wrapped (expression (.list source ws) e ks' t) := by
  match vs, ws, hvs with
  | _, _, .nil => exact fail_wrapped (.refl _) hks h
  | head :: operands, head' :: operands', .cons hhead hoperands =>
    cases hform : SpecialForm.ofHead? head with
    | some form =>
      have hroles : Roles.evaluated (head :: operands) = .first .datum form.roles := by
        simp only [Roles.evaluated, hform]
      rw [hroles] at hhead hoperands
      have hhead : TinyLisp.Wrapped .head head head' := Wrapped.of_datum _ hhead
      simp only [expression, hhead.ofHead, hform]
      exact special_wrapped form _ hoperands e hks h
    | none =>
      have hroles : Roles.evaluated (head :: operands) = .first .head (.each .operand) := by
        simp only [Roles.evaluated, hform]
      rw [hroles] at hhead hoperands
      have hhead : TinyLisp.Wrapped .head head head' := hhead
      simp only [expression, hhead.ofHead, hform]
      exact ⟨.operand hhead.operand, .cons (.callee (hhead.symbolName And.right) hoperands) hks, h⟩

/-- A wrapped expression is evaluated in more steps, and comes to what the expression comes to. -/
theorem expression_wrapped {v w : Value} (hv : TinyLisp.Wrapped .expression v w) (e : ScopeId)
    (hks : List.Forall₂ Kont.Wrapped ks ks') (h : s.Wrapped t) :
    ∃ m', Advances { focus := .expression w e, konts := ks', state := t } m' ∧
      (expression v e ks s).Wrapped m' := by
  cases hv with
  | @scalar _ _ content =>
    refine ⟨_, .single rfl, ?_⟩
    cases content with
    | symbol name => exact settle_wrapped e name hks h
    | _ => exact wrapped_value (.refl _ _) hks h
  | list hitems => exact ⟨_, .single rfl, list_wrapped _ hitems e hks h⟩
  | closure hbody => exact ⟨_, .single rfl, wrapped_value (.closure hbody) hks h⟩
  | invalid => exact ⟨_, .single rfl, fail_wrapped (.refl _) hks h⟩
  | wrap source source' _ hv =>
    -- the sequence has one expression, which is next
    obtain ⟨m', hadv, hrel⟩ := expression_wrapped hv e hks h
    exact ⟨m', .head rfl hadv, hrel⟩
  | _ => exact ⟨_, .single rfl, wrapped_value (.refl _ _) hks h⟩
termination_by w

/-- What is no list and no invalid value is had at once, in the frame at hand or another. -/
theorem exists_settle (hlist : v.kind ≠ .list) (hinvalid : v.kind ≠ .invalid) (e : ScopeId)
    (s : State) :
    ∃ r, ∀ stack ks, operand v e ks { s with stack } = settle r ks { s with stack } ∧
      expression v e ks { s with stack } = settle r ks { s with stack } := by
  cases v with
  | scalar source content =>
    cases content with
    | symbol name => exact ⟨s.lookup e name, fun _ _ => ⟨rfl, rfl⟩⟩
    | _ => exact ⟨.ok _, fun _ _ => ⟨rfl, rfl⟩⟩
  | list source items => exact absurd rfl hlist
  | invalid => exact absurd rfl hinvalid
  | _ => exact ⟨.ok _, fun _ _ => ⟨rfl, rfl⟩⟩

/-- Once the frame of the wrapping is left, the stacks are the same again. -/
theorem wrapped_left {stack : CallStack} (hdrop : stack.drop = s.stack)
    (h : State.Wrapped { s with stack } t) : s.Wrapped { t with stack := t.stack.drop } := by
  have hleft := h.withStack stack.drop
  rw [hdrop] at hleft
  rw [h.stack_eq, hdrop]
  exact hleft

/-- What is had in a frame is handed out of it in one step. -/
theorem leave_settled {stack : CallStack} (hdrop : stack.drop = s.stack) (r : Except Fault Value)
    {m : Machine} (h : (settle r (.leave :: ks) { s with stack }).Wrapped m) :
    ∃ m', m.step = .next m' ∧ (settle r ks s).Wrapped m' := by
  obtain ⟨focus, konts, t⟩ := m
  cases r with
  | ok v =>
    obtain ⟨hfocus, hkonts, hstate⟩ := h
    cases hfocus with
    | value hv =>
      cases hkonts with
      | cons hk hks =>
        cases hk with
        | leave => exact ⟨_, rfl, wrapped_value hv hks (wrapped_left hdrop hstate)⟩
  | error f =>
    obtain ⟨hfocus, hkonts, hstate⟩ := h
    cases hfocus with
    | failure hf =>
      cases hkonts with
      | cons hk hks =>
        cases hk with
        | leave =>
          refine ⟨_, rfl, .failure ?_, hks, wrapped_left hdrop hstate⟩
          rw [Failure.attach_fault]
          exact hf

/-- **A wrapped operand** is evaluated in a frame of its own. A list is so too without being wrapped,
and everything else is had at once and the frame left again. -/
theorem operand_wrapped (hroom : s.stack.isFull = false) (hv : TinyLisp.Wrapped .operand v w)
    (e : ScopeId) (hks : List.Forall₂ Kont.Wrapped ks ks') (h : s.Wrapped t) :
    ∃ m', Advances { focus := .operand w e, konts := ks', state := t } m' ∧
      (operand v e ks s).Wrapped m' := by
  cases hv with
  | @scalar _ _ content =>
    refine ⟨_, .single rfl, ?_⟩
    cases content with
    | symbol name => exact settle_wrapped e name hks h
    | _ => exact wrapped_value (.refl _ _) hks h
  | list hitems => exact ⟨_, .single rfl, enter_wrapped [] (.list hitems) e hks h⟩
  | closure hbody => exact ⟨_, .single rfl, wrapped_value (.closure hbody) hks h⟩
  | @wrap _ _ w source source' hmay hv =>
    have hwrap : TinyLisp.Wrapped .expression v
        (.list source [.scalar source' (.symbol "do"), w]) := .wrap source source' trivial hv
    by_cases hlist : v.kind = .list
    · cases v with
      | list source items => exact ⟨_, .single rfl, enter_wrapped [] hwrap e hks h⟩
      | scalar source content => cases content <;> cases hlist
      | _ => cases hlist
    · obtain ⟨stack, hpush⟩ := CallStack.push_of_room hroom [] false
      obtain ⟨r, hr⟩ := exists_settle hlist hmay e s
      -- the frame is entered, the value had in it, and the frame left
      obtain ⟨m₁, hadv, hrel⟩ :=
        expression_wrapped hwrap e (.cons .leave hks) (h.withStack stack)
      rw [(hr stack _).2] at hrel
      obtain ⟨m₂, hstep, hrel⟩ := leave_settled (CallStack.drop_of_push hpush) r hrel
      refine ⟨m₂, .tail (.head ?_ hadv) hstep, ?_⟩
      · have hpush' : t.stack.push [] false = some stack := h.stack_eq ▸ hpush
        simp only [step, operand, enter, hpush']
      · rw [(hr s.stack ks).1]
        exact hrel
  | _ => exact ⟨_, .single rfl, wrapped_value (.refl _ _) hks h⟩

/-! ### Continuations -/

/-- **Going on with a value keeps the relation**, whichever continuation waits for it. -/
theorem resume_wrapped {k k' : Kont} (hhosts : ∀ host ∈ s.hosts, Host.IgnoresBodies host)
    (hk : k.Wrapped k') (hv : TinyLisp.Wrapped .datum v w) (hks : List.Forall₂ Kont.Wrapped ks ks')
    (h : s.Wrapped t) : (resume k v ks s).Wrapped (resume k' w ks' t) := by
  cases hk with
  | leave =>
    simp only [resume, h.stack_eq]
    exact wrapped_value hv hks (h.withStack _)
  | callee hname hargs =>
    simp only [resume, hname]
    exact arguments_wrapped hhosts hv _ .nil hargs _ hks h
  | argument hf hdone hahead =>
    exact arguments_wrapped hhosts hf _ (.cons hv hdone) hahead _ hks h
  | define => exact wrapped_value hv hks (h.bind _ _ hv)
  | binding hahead hbody => exact bindings_wrapped _ hahead hbody _ hks (h.bind _ _ hv)
  | sequence hahead => exact sequence_wrapped hahead _ hks h
  | branch hyes hno =>
    simp only [resume, hv.isTrue]
    split
    · exact ⟨.expression hyes, hks, h⟩
    · cases hno with
      | none => exact wrapped_value (.refl _ _) hks h
      | some hno => exact ⟨.expression hno, hks, h⟩
  | evaluate =>
    simp only [resume, h.root_eq]
    exact ⟨.expression (hv.of_datum _), hks, h⟩
  | update => exact wrapped_value (.refl _ _) hks (h.store _ hv)

theorem unwind_wrapped {k k' : Kont} {f g : Failure} (hk : k.Wrapped k')
    (hf : f.fault.Wrapped g.fault) (hks : List.Forall₂ Kont.Wrapped ks ks') (h : s.Wrapped t) :
    (unwind k f ks s).Wrapped (unwind k' g ks' t) := by
  cases hk with
  | leave =>
    simp only [unwind, h.stack_eq]
    refine ⟨.failure ?_, hks, h.withStack _⟩
    rwa [Failure.attach_fault, Failure.attach_fault]
  | _ => exact ⟨.failure hf, hks, h⟩

end Steps

/-! ## Steps -/

/-- **A step of a program** is matched by at least one step of the wrapped program, while there is
room for a frame. -/
theorem step_wrapped {m m' n : Machine} (hhosts : ∀ host ∈ m.state.hosts, Host.IgnoresBodies host)
    (hroom : m.state.stack.isFull = false) (h : m.Wrapped m') (hstep : m.step = .next n) :
    ∃ n', Advances m' n' ∧ n.Wrapped n' := by
  obtain ⟨focus, ks, s⟩ := m
  obtain ⟨focus', ks', t⟩ := m'
  obtain ⟨hfocus, hks, hstate⟩ := h
  cases hfocus with
  | expression hv =>
    obtain rfl := Step.next.inj hstep
    exact expression_wrapped hv _ hks hstate
  | operand hv =>
    obtain rfl := Step.next.inj hstep
    exact operand_wrapped hroom hv _ hks hstate
  | application hf hargs =>
    obtain rfl := Step.next.inj hstep
    exact ⟨_, .single rfl, apply_wrapped hhosts hf hargs hks hstate⟩
  | value hv =>
    cases hks with
    | nil => cases hstep
    | cons hk hks =>
      obtain rfl := Step.next.inj hstep
      exact ⟨_, .single rfl, resume_wrapped hhosts hk hv hks hstate⟩
  | failure hf =>
    cases hks with
    | nil => cases hstep
    | cons hk hks =>
      obtain rfl := Step.next.inj hstep
      exact ⟨_, .single rfl, unwind_wrapped hk hf hks hstate⟩

/-- Both come to an end at the same time. -/
theorem done_wrapped {m m' : Machine} {o : Outcome} (h : m.Wrapped m') (hstep : m.step = .done o) :
    ∃ o', m'.step = .done o' ∧ o.Wrapped o' := by
  obtain ⟨focus, ks, s⟩ := m
  obtain ⟨focus', ks', t⟩ := m'
  obtain ⟨hfocus, hks, hstate⟩ := h
  cases hfocus with
  | value hv =>
    cases hks with
    | nil =>
      obtain rfl := Step.done.inj hstep
      exact ⟨_, rfl, .value hv hstate⟩
    | cons => cases hstep
  | failure hf =>
    cases hks with
    | nil =>
      obtain rfl := Step.done.inj hstep
      exact ⟨_, rfl, .failure hf hstate⟩
    | cons => cases hstep
  | _ => cases hstep

end Machine

end TinyLisp
