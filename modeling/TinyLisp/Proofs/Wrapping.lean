import Mathlib.Data.List.Forall2
import TinyLisp.Proofs.Bounds
import TinyLisp.Proofs.PathPrinter

/-!
# Wrapped expressions

`(do e)` is another way to write `e`. A program may be rewritten so in any number of places, but not
everywhere: a name that a special form binds must stay a symbol, and the head of a call says by its
symbol which function or form is meant. What may be wrapped is a matter of the `Role` that a value
has in the program, and the roles of the items of a list follow from its head.

`Wrapped role v w` says that `w` is `v`, wrapped here and there, where the role of `v` is `role`. As
data, the two differ in the bodies of closures only, and nothing can look into those:

* `Wrapped.kind`, `Wrapped.symbolName`, `Wrapped.equal`, `Wrapped.render`: what can be read off a
  value.
* `Fault.Wrapped.condition`, `Fault.Wrapped.message`: what can be read off a fault.
* `State.Wrapped.lookup`, `State.Wrapped.bind` and others: what a state returns and how it changes.
-/

namespace TinyLisp

/-! ## Related options -/

section Options

variable {α β : Type} {R : α → β → Prop} {a : α} {x : Option β}

theorem eq_none_of_rel (h : Option.Rel R none x) : x = none := by
  cases h with
  | none => rfl

theorem exists_of_rel (h : Option.Rel R (some a) x) : ∃ b, x = some b ∧ R a b := by
  cases h with
  | some h => exact ⟨_, rfl, h⟩

end Options

/-! ## Roles -/

/-- What becomes of a value in a program. -/
inductive Role where
  /-- It is not evaluated, but looked at. -/
  | datum
  /-- It is a list of names and operands by turns. -/
  | bindings
  /-- It heads a list: its symbol names the special form or the function that is called. -/
  | head
  /-- It is evaluated, a list in a frame of its own. -/
  | operand
  /-- It is evaluated in the frame at hand. -/
  | expression

/-- The roles of the items of a list, by position. -/
abbrev Roles := Nat → Role

namespace Roles

/-- All items have the same role. -/
def each (role : Role) : Roles := fun _ => role

/-- The first item has a role of its own. -/
def first (role : Role) (rest : Roles) : Roles
  | 0 => role
  | n + 1 => rest n

/-- Names and operands by turns. -/
def pairs : Roles
  | 0 => .datum
  | 1 => .operand
  | n + 2 => pairs n

end Roles

/-- The roles of the operands of a special form. -/
def SpecialForm.roles : SpecialForm → Roles
  | .define => .first .datum (.each .operand)
  | .letSeq | .letRec => .first .bindings (.each .expression)
  | .sequence | .evaluate => .each .operand
  | .branch => .first .operand (.each .expression)
  | .function => .first .datum (.each .expression)

/-- The roles of the items of a list that is evaluated. -/
def Roles.evaluated : List Value → Roles
  | [] => .each .datum
  | head :: _ =>
    match SpecialForm.ofHead? head with
    | some form => .first .datum form.roles
    | none => .first .head (.each .operand)

namespace Role

/-- The roles of the items of a list that has a role itself. -/
def items : Role → List Value → Roles
  | .datum, _ => .each .datum
  | .bindings, _ => .pairs
  | .head, items | .operand, items | .expression, items => .evaluated items

/-- Whether `(do v)` can stand for `v`. As an operand an invalid value stands for itself, but
evaluating it in the frame at hand fails. -/
def MayWrap : Role → Value → Prop
  | .datum, _ | .bindings, _ => False
  | .head, v => v.kind ≠ .invalid ∧ v.symbolName? = none
  | .operand, v => v.kind ≠ .invalid
  | .expression, _ => True

end Role

/-! ## Wrapped values -/

mutual

/-- The second value is the first, which has the role `role` in a program, with some of the
expressions in it wrapped. -/
inductive Wrapped : Role → Value → Value → Prop
  | scalar {role : Role} {source : Option Location} {content : Scalar} :
      Wrapped role (.scalar source content) (.scalar source content)
  | builtin {role : Role} {b : Builtin} : Wrapped role (.builtin b) (.builtin b)
  | atom {role : Role} {c : CellId} : Wrapped role (.atom c) (.atom c)
  | invalid {role : Role} {u : Untyped} : Wrapped role (.invalid u) (.invalid u)
  | closure {role : Role} {identity : Nat} {formals : List Text} {body body' : Value}
      {e : ScopeId} : Wrapped .expression body body' →
      Wrapped role (.closure identity formals body e) (.closure identity formals body' e)
  | list {role : Role} {source : Option Location} {items items' : List Value} :
      WrappedAll (role.items items) items items' →
      Wrapped role (.list source items) (.list source items')
  | wrap {role : Role} {v w : Value} (source source' : Option Location) : role.MayWrap v →
      Wrapped .expression v w →
      Wrapped role v (.list source [.scalar source' (.symbol "do"), w])

/-- The second values are the first ones, which have the roles `roles`, with some of the expressions
in them wrapped. -/
inductive WrappedAll : Roles → List Value → List Value → Prop
  | nil {roles : Roles} : WrappedAll roles [] []
  | cons {roles : Roles} {v w : Value} {vs ws : List Value} : Wrapped (roles 0) v w →
      WrappedAll (fun n => roles (n + 1)) vs ws → WrappedAll roles (v :: vs) (w :: ws)

end

section Roles

variable {role : Role} {roles : Roles} {v w : Value} {vs ws : List Value}

mutual

/-- Data that differ in the bodies of closures only can take any role. -/
theorem Wrapped.of_datum {v w : Value} (role : Role) : Wrapped .datum v w → Wrapped role v w
  | .scalar => .scalar
  | .builtin => .builtin
  | .atom => .atom
  | .invalid => .invalid
  | .closure h => .closure h
  | .list h => .list (h.of_datum _)
  | .wrap _ _ hmay _ => hmay.elim

/-- What is the same as data is the same in whatever roles. -/
theorem WrappedAll.of_datum {vs ws : List Value} (roles : Roles) :
    WrappedAll (.each .datum) vs ws → WrappedAll roles vs ws
  | .nil => .nil
  | .cons h hs => .cons (h.of_datum _) (hs.of_datum _)

end

mutual

/-- A value is a wrapped form of itself, nothing being wrapped. -/
theorem Wrapped.refl_datum : (v : Value) → Wrapped .datum v v
  | .scalar .. => .scalar
  | .builtin _ => .builtin
  | .atom _ => .atom
  | .invalid _ => .invalid
  | .closure _ _ body _ => .closure ((Wrapped.refl_datum body).of_datum _)
  | .list _ items => .list (WrappedAll.refl_datum items)

theorem WrappedAll.refl_datum : (vs : List Value) → WrappedAll (.each .datum) vs vs
  | [] => .nil
  | v :: vs => .cons (Wrapped.refl_datum v) (WrappedAll.refl_datum vs)

end

/-- Nothing needs to be wrapped. -/
theorem Wrapped.refl (role : Role) (v : Value) : Wrapped role v v := (refl_datum v).of_datum role

theorem WrappedAll.refl (roles : Roles) (vs : List Value) : WrappedAll roles vs vs :=
  (refl_datum vs).of_datum roles

/-- What may be wrapped as an operand may be wrapped in the frame at hand. -/
theorem Wrapped.expression (h : Wrapped .operand v w) : Wrapped .expression v w := by
  cases h with
  | scalar => exact .scalar
  | builtin => exact .builtin
  | atom => exact .atom
  | invalid => exact .invalid
  | closure h => exact .closure h
  | list h => exact .list h
  | wrap source source' _ h => exact .wrap source source' trivial h

/-- The head of a list is also an operand. -/
theorem Wrapped.operand (h : Wrapped .head v w) : Wrapped .operand v w := by
  cases h with
  | scalar => exact .scalar
  | builtin => exact .builtin
  | atom => exact .atom
  | invalid => exact .invalid
  | closure h => exact .closure h
  | list h => exact .list h
  | wrap source source' hmay h => exact .wrap source source' hmay.1 h

/-- The expression that does nothing but evaluate `v`. -/
def Value.wrapped (v : Value) : Value := .list none [.symbol "do", v]

/-- One item may be wrapped, if its role allows it. -/
theorem WrappedAll.item (before after : List Value) (hmay : (roles before.length).MayWrap v) :
    WrappedAll roles (before ++ v :: after) (before ++ v.wrapped :: after) := by
  induction before generalizing roles with
  | nil => exact .cons (.wrap none none hmay (.refl _ v)) (.refl _ after)
  | cons u before ih => exact .cons (.refl _ u) (ih hmay)

/-- One item of a list is wrapped: an operand of a call or a special form, or one in a binding
list. -/
theorem Wrapped.item (role : Role) (source : Option Location) (before after : List Value)
    (hmay : (role.items (before ++ v :: after) before.length).MayWrap v) :
    Wrapped role (.list source (before ++ v :: after)) (.list source (before ++ v.wrapped :: after)) :=
  .list (.item before after hmay)

/-- If all items have one role, the lists are wrapped item by item. -/
theorem wrappedAll_each : WrappedAll (.each role) vs ws ↔ List.Forall₂ (Wrapped role) vs ws := by
  constructor
  · intro h
    induction vs generalizing ws with
    | nil => cases h with | nil => exact .nil
    | cons v vs ih => cases h with | cons h hs => exact .cons h (ih hs)
  · intro h
    induction h with
    | nil => exact .nil
    | cons h _ ih => exact .cons h ih

theorem WrappedAll.length_eq (h : WrappedAll roles vs ws) : ws.length = vs.length := by
  induction vs generalizing roles ws with
  | nil => cases h with | nil => rfl
  | cons v vs ih => cases h with | cons _ hs => exact congrArg (· + 1) (ih hs)

end Roles

/-! ## What can be read off a value -/

namespace Wrapped

section Reading

variable {role : Role} {v w v' w' : Value}

/-- Wrapping keeps the type where it is not allowed on the outside. -/
theorem kind (h : Wrapped role v w) (hrole : ¬role.MayWrap v) : w.kind = v.kind := by
  cases h with
  | wrap _ _ hmay _ => exact absurd hmay hrole
  | _ => rfl

/-- A symbol is wrapped only where nobody asks for its name. -/
theorem symbolName (h : Wrapped role v w) (hrole : role.MayWrap v → v.symbolName? = none) :
    w.symbolName? = v.symbolName? := by
  cases h with
  | wrap _ _ hmay _ => exact (hrole hmay).symm
  | _ => rfl

/-- Wrapping keeps the head of a special form. -/
theorem ofHead (h : Wrapped .head v w) : SpecialForm.ofHead? w = SpecialForm.ofHead? v :=
  congrArg (·.bind SpecialForm.ofName?) (h.symbolName And.right)

/-- Data with wrapped code in them are as true. -/
theorem isTrue (h : Wrapped .datum v w) : w.isTrue = v.isTrue := by
  cases h with
  | wrap _ _ hmay _ => exact hmay.elim
  | _ => rfl

theorem isCallable (h : Wrapped .datum v w) : w.isCallable = v.isCallable := by
  cases h with
  | wrap _ _ hmay _ => exact hmay.elim
  | _ => rfl

/-- Data with wrapped code in them are as long. -/
theorem length (h : Wrapped .datum v w) : w.length = v.length := by
  cases h with
  | list h => exact h.length_eq
  | wrap _ _ hmay _ => exact hmay.elim
  | _ => rfl

end Reading

mutual

/-- Closures are compared by their identity. -/
theorem equal {v w v' w' : Value} (h : Wrapped .datum v w) (h' : Wrapped .datum v' w') :
    w.equal w' = v.equal v' := by
  cases h with
  | wrap _ _ hmay _ => exact hmay.elim
  | list h =>
    cases h' with
    | wrap _ _ hmay _ => exact hmay.elim
    | list h' => exact equalItems h h'
    | _ => rfl
  | _ =>
    cases h' with
    | wrap _ _ hmay _ => exact hmay.elim
    | _ => rfl

theorem equalItems {vs ws vs' ws' : List Value} (h : WrappedAll (.each .datum) vs ws)
    (h' : WrappedAll (.each .datum) vs' ws') :
    Value.equalItems ws ws' = Value.equalItems vs vs' := by
  cases h with
  | nil => cases h' <;> rfl
  | cons h hs =>
    cases h' with
    | nil => rfl
    | cons h' hs' => rw [Value.equalItems, Value.equalItems, equal h h', equalItems hs hs']

end

/-- The cells hold the same, wrapped here and there. -/
structure Cells (cells cells' : Array Value) : Prop where
  size_eq : cells'.size = cells.size
  contents : ∀ c : CellId, Option.Rel (Wrapped .datum) cells[c]? cells'[c]?

section Render

open Value

variable {cells cells' : Array Value}

/-- Cells hold the same data, up to wrapped code. -/
theorem Cells.getElem (hcells : Cells cells cells') {c : CellId} (hc : c < cells.size)
    (hc' : c < cells'.size) : Wrapped .datum cells[c] cells'[c] := by
  have h := hcells.contents c
  rw [Array.getElem?_eq_getElem hc, Array.getElem?_eq_getElem hc'] at h
  cases h with
  | some h => exact h

mutual

/-- The bodies of closures are not printed, so wrapped code is not seen. -/
theorem renderOnto_eq (hcells : Cells cells cells') (path : List CellId) {v w : Value}
    (h : Wrapped .datum v w) (rest : Text) :
    w.renderOnto cells' path rest = v.renderOnto cells path rest := by
  cases h with
  | wrap _ _ hmay _ => exact hmay.elim
  | list h => rw [renderOnto, renderOnto, renderItemsOnto_eq hcells path h]
  | @atom _ c =>
    rw [renderOnto, renderOnto]
    by_cases hp : path.contains c
    · rw [dif_pos hp, dif_pos hp]
    · rw [dif_neg hp, dif_neg hp]
      by_cases hc : c < cells.size
      · have hc' : c < cells'.size := hcells.size_eq ▸ hc
        have := unopened_cons_lt hc hp
        rw [dif_pos hc, dif_pos hc', renderOnto_eq hcells (c :: path) (hcells.getElem hc hc')]
      · rw [dif_neg hc, dif_neg (hcells.size_eq ▸ hc)]
  | _ => rw [renderOnto, renderOnto]
termination_by (unopened cells.size path, sizeOf v)

theorem renderItemsOnto_eq (hcells : Cells cells cells') (path : List CellId) {vs ws : List Value}
    (h : WrappedAll (.each .datum) vs ws) (rest : Text) :
    renderItemsOnto cells' path ws rest = renderItemsOnto cells path vs rest := by
  match vs, ws, h with
  | _, _, .nil => rw [renderItemsOnto, renderItemsOnto]
  | [v], _, .cons h .nil =>
    rw [renderItemsOnto, renderItemsOnto, renderOnto_eq hcells path h]
  | v :: v' :: vs, _, .cons h (.cons h' hs) =>
    rw [renderItemsOnto, renderItemsOnto, renderItemsOnto_eq hcells path (.cons h' hs),
      renderOnto_eq hcells path h]
termination_by (unopened cells.size path, sizeOf vs)

end

/-- The bodies of closures are not printed. -/
theorem render_eq (hcells : Cells cells cells') {v w : Value} (h : Wrapped .datum v w) :
    w.render cells' = v.render cells := by
  rw [Value.render_eq, Value.render_eq, renderOnto_eq hcells [] h []]

end Render

end Wrapped

/-! ## Faults -/

/-- The second fault is the first with wrapped values. -/
inductive Fault.Wrapped : Fault → Fault → Prop
  | refl (f : Fault) : Wrapped f f
  | typeMismatch {function : Text} {position : Int} {expected : Value.Kind} {v w : Value} :
      TinyLisp.Wrapped .datum v w → Wrapped (.typeMismatch function position expected v)
        (.typeMismatch function position expected w)
  | notCallable {v w : Value} : TinyLisp.Wrapped .datum v w →
      Wrapped (.notCallable v) (.notCallable w)
  | notSymbol {form : Text} {source : Option Location} {v w : Value} :
      TinyLisp.Wrapped .datum v w →
      Wrapped (.malformed form source (.notSymbol v)) (.malformed form source (.notSymbol w))
  | within {context : Text} {f g : Fault} : Wrapped f g →
      Wrapped (.within context f) (.within context g)

namespace Fault.Wrapped

variable {f g : Fault} {cells cells' : Array Value}

/-- Wrapping keeps the condition of a fault. -/
theorem condition (h : f.Wrapped g) : g.condition = f.condition := by
  induction h with
  | within _ ih => exact ih
  | _ => rfl

theorem message_refl (hcells : Wrapped.Cells cells cells') (f : Fault) :
    f.message cells' = f.message cells := by
  induction f with
  | typeMismatch function position expected got =>
    rw [Fault.message, Fault.message, Wrapped.render_eq hcells (.refl _ got)]
  | notCallable got => rw [Fault.message, Fault.message, Wrapped.render_eq hcells (.refl _ got)]
  | malformed form source problem =>
    cases problem with
    | notSymbol got =>
      rw [Fault.message, Fault.message, FormProblem.message, FormProblem.message,
        Wrapped.render_eq hcells (.refl _ got)]
    | _ => rfl
  | within context cause ih => rw [Fault.message, Fault.message, ih]
  | _ => rfl

/-- The values in it are printed. -/
theorem message (hcells : Wrapped.Cells cells cells') (h : f.Wrapped g) :
    g.message cells' = f.message cells := by
  induction h with
  | refl f => exact message_refl hcells f
  | typeMismatch h => rw [Fault.message, Fault.message, Wrapped.render_eq hcells h]
  | notCallable h => rw [Fault.message, Fault.message, Wrapped.render_eq hcells h]
  | notSymbol h =>
    rw [Fault.message, Fault.message, FormProblem.message, FormProblem.message,
      Wrapped.render_eq hcells h]
  | within _ ih => rw [Fault.message, Fault.message, ih]

end Fault.Wrapped

/-! ## Scopes -/

/-- The second scope binds the same names to wrapped values. -/
structure Scope.Wrapped (s t : Scope) : Prop where
  parent : t.parent = s.parent
  bindings : List.Forall₂ (fun b b' => b'.1 = b.1 ∧ TinyLisp.Wrapped .datum b.2 b'.2)
    s.bindings t.bindings

namespace Scope.Wrapped

variable {s t : Scope} {v w : Value}

/-- Scopes find the same data, up to wrapped code. -/
theorem find (h : s.Wrapped t) (name : Text) :
    Option.Rel (TinyLisp.Wrapped .datum) (s.find? name) (t.find? name) := by
  obtain ⟨parent, bindings⟩ := s
  obtain ⟨parent', bindings'⟩ := t
  obtain ⟨-, h⟩ := h
  unfold Scope.find?
  dsimp only at h ⊢
  induction h with
  | nil => exact .none
  | @cons b b' _ _ hb _ ih =>
    rw [List.lookup_cons, List.lookup_cons, hb.1]
    cases name == b.1 with
    | true => exact .some hb.2
    | false => exact ih

/-- The same data may be bound, up to wrapped code. -/
theorem put (h : s.Wrapped t) (name : Text) (hv : TinyLisp.Wrapped .datum v w) :
    (s.put name v).Wrapped (t.put name w) := by
  have hfind := h.find name
  have hfound : (t.find? name).isSome = (s.find? name).isSome := by
    generalize s.find? name = found, t.find? name = found' at hfind ⊢
    cases hfind <;> rfl
  unfold Scope.put
  rw [hfound]
  split
  · refine ⟨h.parent, List.forall₂_map_left_iff.2 (List.forall₂_map_right_iff.2 ?_)⟩
    refine h.bindings.imp fun b b' hb => ?_
    obtain ⟨n, v'⟩ := b
    obtain ⟨n', w'⟩ := b'
    obtain ⟨rfl, hb⟩ := hb
    dsimp only
    split
    · exact ⟨rfl, hv⟩
    · exact ⟨rfl, hb⟩
  · exact ⟨h.parent, .cons ⟨rfl, hv⟩ h.bindings⟩

end Scope.Wrapped

/-! ## States -/

/-- The second state is the first with wrapped values in its scopes and cells. -/
structure State.Wrapped (s t : State) : Prop where
  rest : t = { s with scopes := t.scopes, cells := t.cells }
  scopes_size : t.scopes.size = s.scopes.size
  scopes : ∀ e : ScopeId, Option.Rel Scope.Wrapped s.scopes[e]? t.scopes[e]?
  cells : Wrapped.Cells s.cells t.cells

namespace State.Wrapped

variable {s t s' t' : State} {v w : Value}

/-- A state is a wrapped form of itself. -/
theorem refl (s : State) : s.Wrapped s where
  rest := rfl
  scopes_size := rfl
  scopes e := by
    cases s.scopes[e]? with
    | none => exact .none
    | some scope => exact .some ⟨rfl, List.forall₂_same.2 fun b _ => ⟨rfl, .refl _ b.2⟩⟩
  cells := ⟨rfl, fun c => by
    cases s.cells[c]? with
    | none => exact .none
    | some v => exact .some (.refl _ v)⟩

/-! ### Reading -/

theorem scope_none (h : s.Wrapped t) {e : ScopeId} (hnone : s.scopes[e]? = none) :
    t.scopes[e]? = none :=
  eq_none_of_rel (hnone ▸ h.scopes e)

theorem scope_some (h : s.Wrapped t) {e : ScopeId} {scope : Scope}
    (hsome : s.scopes[e]? = some scope) :
    ∃ scope', t.scopes[e]? = some scope' ∧ scope.Wrapped scope' :=
  exists_of_rel (hsome ▸ h.scopes e)

/-- A name is bound in both states or in none. -/
theorem lookup (h : s.Wrapped t) (e : ScopeId) (name : Text) :
    Option.Rel (TinyLisp.Wrapped .datum) (s.scopes.lookup e name) (t.scopes.lookup e name) := by
  -- the scopes above `e` are the same in both, so both walks end at the same one
  fun_induction Scopes.lookup s.scopes e name with
  | case1 e hnone =>
    rw [Scopes.lookup, h.scope_none hnone]
    exact .none
  | case2 e scope hscope v hfind =>
    obtain ⟨scope', hscope', hrel⟩ := h.scope_some hscope
    obtain ⟨w, hfind', hvalue⟩ := exists_of_rel (hfind ▸ hrel.find name)
    rw [Scopes.lookup, hscope']
    simp only [hfind']
    exact .some hvalue
  | case3 e scope hscope hfind p hp hlt ih =>
    obtain ⟨scope', hscope', hrel⟩ := h.scope_some hscope
    have hfind' := eq_none_of_rel (hfind ▸ hrel.find name)
    rw [Scopes.lookup.eq_def t.scopes, hscope']
    simp only [hfind', hrel.parent, hp, if_pos hlt]
    exact ih
  | case4 e scope hscope hfind p hp hle =>
    obtain ⟨scope', hscope', hrel⟩ := h.scope_some hscope
    have hfind' := eq_none_of_rel (hfind ▸ hrel.find name)
    rw [Scopes.lookup, hscope']
    simp only [hfind', hrel.parent, hp, if_neg hle]
    exact .none
  | case5 e scope hscope hfind hp =>
    obtain ⟨scope', hscope', hrel⟩ := h.scope_some hscope
    have hfind' := eq_none_of_rel (hfind ▸ hrel.find name)
    rw [Scopes.lookup, hscope']
    simp only [hfind', hrel.parent, hp]
    exact .none

/-- Scopes have the same roots. -/
theorem root_eq (h : s.Wrapped t) (e : ScopeId) : t.scopes.root e = s.scopes.root e := by
  fun_induction Scopes.root s.scopes e with
  | case1 e hnone =>
    rw [Scopes.root, h.scope_none hnone]
  | case2 e scope hscope p hp hlt ih =>
    obtain ⟨scope', hscope', hrel⟩ := h.scope_some hscope
    rw [Scopes.root, hscope']
    simp only [hrel.parent, hp, if_pos hlt, ih]
  | case3 e scope hscope p hp hle =>
    obtain ⟨scope', hscope', hrel⟩ := h.scope_some hscope
    rw [Scopes.root, hscope']
    simp only [hrel.parent, hp, if_neg hle]
  | case4 e scope hscope hp =>
    obtain ⟨scope', hscope', hrel⟩ := h.scope_some hscope
    rw [Scopes.root, hscope']
    simp only [hrel.parent, hp]

/-- Cells hold the same data, up to wrapped code. -/
theorem contents (h : s.Wrapped t) (c : CellId) :
    TinyLisp.Wrapped .datum (s.contents c) (t.contents c) := by
  have hcell := h.cells.contents c
  unfold State.contents
  generalize s.cells[c]? = found, t.cells[c]? = found' at hcell ⊢
  cases hcell with
  | none => exact .scalar
  | some hcell => exact hcell

theorem stack_eq (h : s.Wrapped t) : t.stack = s.stack := by rw [h.rest]

/-! ### Writing -/

/-- The same is done to both states, but to no scope and no cell. -/
theorem of_rest (h : s.Wrapped t) (hrest : t' = { s' with scopes := t.scopes, cells := t.cells })
    (hscopes : s'.scopes = s.scopes) (hcells : s'.cells = s.cells) : s'.Wrapped t' := by
  have hscopes' : t'.scopes = t.scopes := by rw [hrest]
  have hcells' : t'.cells = t.cells := by rw [hrest]
  refine ⟨by rw [hscopes', hcells', ← hrest], ?_, ?_, ?_⟩
  · rw [hscopes, hscopes', h.scopes_size]
  · rw [hscopes, hscopes']
    exact h.scopes
  · rw [hcells, hcells']
    exact h.cells

theorem withStack (h : s.Wrapped t) (stack : CallStack) :
    State.Wrapped { s with stack } { t with stack } :=
  h.of_rest (by rw [h.rest]) rfl rfl

theorem note (h : s.Wrapped t) (effect : Effect) : (s.note effect).Wrapped (t.note effect) :=
  h.of_rest (by rw [h.rest]; rfl) rfl rfl

theorem debug (h : s.Wrapped t) (message : Text) (fields : List (Text × Log.Field)) :
    (s.debug message fields).Wrapped (t.debug message fields) := by
  have hlog : t.log = s.log := by rw [h.rest]
  unfold State.debug logRecord
  rw [hlog]
  split
  · exact h.note _
  · exact h

/-- Both can print a text, or neither. -/
theorem print (h : s.Wrapped t) (text : Text) :
    Option.Rel State.Wrapped (s.print? text) (t.print? text) := by
  have hstdout : t.stdout = s.stdout := by rw [h.rest]
  unfold State.print?
  rw [hstdout]
  cases s.stdout.write? with
  | none => exact .none
  | some stdout => exact .some (h.of_rest (by rw [h.rest]; rfl) rfl rfl)

/-- Both can print the call stack, or neither. -/
theorem printStack (h : s.Wrapped t) :
    t.printStack.1 = s.printStack.1 ∧ s.printStack.2.Wrapped t.printStack.2 := by
  have hstderr : t.stderr = s.stderr := by rw [h.rest]
  have heffects : t.effects = s.effects := by rw [h.rest]
  rw [s.printStack_eq, t.printStack_eq, h.stack_eq, hstderr, heffects]
  exact ⟨rfl, h.of_rest (by rw [h.rest]) rfl rfl⟩

/-- A new closure gets the same identity in both states. -/
theorem newClosure (h : s.Wrapped t) (formals : List Text) {body body' : Value}
    (hbody : TinyLisp.Wrapped .expression body body') (e : ScopeId) :
    TinyLisp.Wrapped .datum (s.newClosure formals body e).1 (t.newClosure formals body' e).1 ∧
      (s.newClosure formals body e).2.Wrapped (t.newClosure formals body' e).2 := by
  have hclosures : t.closures = s.closures := by rw [h.rest]
  unfold State.newClosure
  rw [hclosures]
  exact ⟨.closure hbody, h.of_rest (by rw [h.rest]) rfl rfl⟩

theorem bind (h : s.Wrapped t) (e : ScopeId) (name : Text) (hv : TinyLisp.Wrapped .datum v w) :
    (s.bind e name v).Wrapped (t.bind e name w) where
  rest := by
    unfold State.bind
    rw [h.rest]
  scopes_size := by
    simp only [State.bind, Scopes.put, Array.size_modify, h.scopes_size]
  scopes e' := by
    have hscope := h.scopes e'
    simp only [State.bind, Scopes.getElem?_put]
    generalize s.scopes[e']? = found, t.scopes[e']? = found' at hscope ⊢
    split
    · cases hscope with
      | none => exact .none
      | some hscope => exact .some (hscope.put name hv)
    · exact hscope
  cells := h.cells

/-- The same arguments may be bound, up to wrapped code. -/
theorem bindAll (h : s.Wrapped t) (e : ScopeId) (names : List Text) {vs ws : List Value}
    (hvs : List.Forall₂ (TinyLisp.Wrapped .datum) vs ws) :
    (s.bindAll e names vs).Wrapped (t.bindAll e names ws) := by
  induction names generalizing s t vs ws with
  | nil => exact h
  | cons name names ih =>
    cases hvs with
    | nil => exact h
    | cons hv hvs => exact ih (h.bind e name hv) hvs

/-- A new scope gets the same number in both states. -/
theorem newScope (h : s.Wrapped t) (p : ScopeId) :
    (t.newScope p).1 = (s.newScope p).1 ∧ (s.newScope p).2.Wrapped (t.newScope p).2 := by
  refine ⟨h.scopes_size, ⟨?_, ?_, fun e => ?_, h.cells⟩⟩
  · unfold State.newScope Scopes.child
    rw [h.rest]
  · simp only [State.newScope, Scopes.child, Array.size_push, h.scopes_size]
  · simp only [State.newScope, Scopes.child, Array.getElem?_push, h.scopes_size]
    split
    · exact .some ⟨rfl, .nil⟩
    · exact h.scopes e

/-- A new cell gets the same number in both states. -/
theorem newAtom (h : s.Wrapped t) (hv : TinyLisp.Wrapped .datum v w) :
    (t.newAtom w).1 = (s.newAtom v).1 ∧ (s.newAtom v).2.Wrapped (t.newAtom w).2 := by
  refine ⟨congrArg Value.atom h.cells.size_eq, ⟨?_, h.scopes_size, h.scopes, ?_, fun c => ?_⟩⟩
  · unfold State.newAtom
    rw [h.rest]
  · simp only [State.newAtom, Array.size_push, h.cells.size_eq]
  · simp only [State.newAtom, Array.getElem?_push, h.cells.size_eq]
    split
    · exact .some hv
    · exact h.cells.contents c

theorem store (h : s.Wrapped t) (c : CellId) (hv : TinyLisp.Wrapped .datum v w) :
    (s.store c v).Wrapped (t.store c w) := by
  refine ⟨?_, h.scopes_size, h.scopes, ?_, fun c' => ?_⟩
  · unfold State.store
    rw [h.rest]
  · simp only [State.store, Array.size_setIfInBounds, h.cells.size_eq]
  · simp only [State.store, Array.getElem?_setIfInBounds, h.cells.size_eq]
    split
    · split
      · exact .some hv
      · exact .none
    · exact h.cells.contents c'

end State.Wrapped

end TinyLisp
