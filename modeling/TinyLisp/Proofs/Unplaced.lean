import TinyLisp.Proofs.Bounds
import TinyLisp.Proofs.PathPrinter

/-!
# Forgetting places

A value that was read remembers where. `Value.unplaced` forgets it, also inside lists and in the
bodies of closures, and so do the functions of that name for faults, states and whatever else
holds values. Two things are the same up to places if they become equal so.

A place gets into a text in two ways: through the message of an empty call or a malformed form, and
through a field of a log record that holds such a message or the name of a source. An invalid value is
shown with its place and therefore keeps it. Whatever else is read off a value does not depend on its
place:

* `Value.equal_unplaced`, `Value.render_unplaced`: equality and the printed form.
* `State.lookup_unplaced`, `State.bind_unplaced` and others: what the state returns and how it
  changes.
* `Builtin.run_unplaced`: what a built-in function answers, if the functions of the embedding
  program do not look at places either (`Host.IgnoresPlaces`).
* `Fault.message_eq`: the message of a fault, except for the location in it.
-/

namespace TinyLisp

/-! ## Values -/

namespace Value

mutual

/-- The value without places. An invalid value keeps its own, which it shows. -/
def unplaced : Value → Value
  | .scalar _ content => .scalar none content
  | .list _ items => .list none (unplacedAll items)
  | .closure identity formals body e => .closure identity formals (unplaced body) e
  | .builtin b => .builtin b
  | .atom c => .atom c
  | .invalid u => .invalid u

/-- The values without places. -/
def unplacedAll : List Value → List Value
  | [] => []
  | v :: vs => unplaced v :: unplacedAll vs

end

@[simp] theorem unplacedAll_eq (vs : List Value) : unplacedAll vs = vs.map unplaced := by
  induction vs with
  | nil => rfl
  | cons v vs ih => rw [unplacedAll, ih, List.map_cons]

section

variable (source : Option Location) (content : Scalar) (items : List Value)

@[simp] theorem unplaced_scalar : (Value.scalar source content).unplaced = .scalar none content :=
  rfl

@[simp] theorem unplaced_list :
    (Value.list source items).unplaced = .list none (items.map unplaced) :=
  congrArg (Value.list none) (unplacedAll_eq items)

@[simp] theorem unplaced_closure (identity : Nat) (formals : List Text) (body : Value)
    (e : ScopeId) : (Value.closure identity formals body e).unplaced =
      .closure identity formals body.unplaced e := rfl

@[simp] theorem unplaced_builtin (b : Builtin) : (Value.builtin b).unplaced = .builtin b := rfl

@[simp] theorem unplaced_atom (c : CellId) : (Value.atom c).unplaced = .atom c := rfl

@[simp] theorem unplaced_invalid (u : Untyped) : (Value.invalid u).unplaced = .invalid u := rfl

end

mutual

/-- There is nothing more to forget. -/
theorem unplaced_unplaced : (v : Value) → v.unplaced.unplaced = v.unplaced
  | .scalar _ _ => rfl
  | .list _ items => by
    rw [unplaced_list, unplaced_list, unplaced_items items]
  | .closure identity formals body e => by
    rw [unplaced_closure, unplaced_closure, unplaced_unplaced body]
  | .builtin _ => rfl
  | .atom _ => rfl
  | .invalid _ => rfl

theorem unplaced_items : (vs : List Value) → (vs.map unplaced).map unplaced = vs.map unplaced
  | [] => rfl
  | v :: vs => by
    simp only [List.map_cons, unplaced_unplaced v, unplaced_items vs]

end

attribute [simp] unplaced_unplaced

variable (v : Value)

/-- The type of a value does not depend on its place. -/
@[simp] theorem kind_unplaced : v.unplaced.kind = v.kind := by
  cases v with
  | scalar _ content => cases content <;> rfl
  | list source items => rw [unplaced_list]; rfl
  | _ => rfl

/-- The name of a symbol does not depend on its place. -/
@[simp] theorem symbolName_unplaced : v.unplaced.symbolName? = v.symbolName? := by
  cases v with
  | scalar _ content => cases content <;> rfl
  | list source items => rw [unplaced_list]; rfl
  | _ => rfl

/-- Truth does not depend on places. -/
@[simp] theorem isTrue_unplaced : v.unplaced.isTrue = v.isTrue := by
  cases v with
  | scalar _ content => cases content <;> rfl
  | list source items => rw [unplaced_list]; rfl
  | _ => rfl

@[simp] theorem isCallable_unplaced : v.unplaced.isCallable = v.isCallable := by
  cases v with
  | list source items => rw [unplaced_list]; rfl
  | _ => rfl

/-- Lists keep their length. -/
@[simp] theorem length_unplaced : v.unplaced.length = v.length := by
  cases v with
  | list source items =>
    rw [unplaced_list]
    exact List.length_map unplaced
  | _ => rfl

/-- Which special form a list is does not depend on the place of its head. -/
@[simp] theorem ofHead_unplaced : SpecialForm.ofHead? v.unplaced = SpecialForm.ofHead? v := by
  rw [SpecialForm.ofHead?, SpecialForm.ofHead?, symbolName_unplaced]

mutual

/-- Equality does not look at places. -/
theorem equal_unplaced : (v w : Value) → v.unplaced.equal w.unplaced = v.equal w
  | .list _ items, w => by
    cases w with
    | list _ items' =>
      rw [unplaced_list, unplaced_list, equal, equal, equalItems_unplaced items items']
    | _ => simp [equal]
  | .scalar _ content, w => by cases w <;> simp [equal]
  | .closure .., w => by cases w <;> simp [equal]
  | .builtin _, w => by cases w <;> simp [equal]
  | .atom _, w => by cases w <;> simp [equal]
  | .invalid _, w => by cases w <;> simp [equal]

theorem equalItems_unplaced : (vs ws : List Value) →
    equalItems (vs.map unplaced) (ws.map unplaced) = equalItems vs ws
  | [], [] => rfl
  | [], _ :: _ => rfl
  | _ :: _, [] => rfl
  | v :: vs, w :: ws => by
    simp only [List.map_cons, equalItems, equal_unplaced v w, equalItems_unplaced vs ws]

end

mutual

/-- What is printed in front of a text does not show places. An atom shows its contents, so the
cells are printed without places as well. -/
theorem renderOnto_unplaced (cells : Array Value) (path : List CellId) (v : Value) (rest : Text) :
    v.unplaced.renderOnto (cells.map unplaced) path rest = v.renderOnto cells path rest := by
  cases v with
  | scalar source content => rw [unplaced_scalar, renderOnto, renderOnto]
  | list source items =>
    rw [unplaced_list, renderOnto, renderOnto, renderItemsOnto_unplaced cells path items]
  | closure identity formals body e => rw [unplaced_closure, renderOnto, renderOnto]
  | builtin b => rw [unplaced_builtin, renderOnto, renderOnto]
  | atom c =>
    rw [unplaced_atom, renderOnto, renderOnto]
    by_cases hp : path.contains c
    · rw [dif_pos hp, dif_pos hp]
    · rw [dif_neg hp, dif_neg hp]
      by_cases hc : c < cells.size
      · have hc' : c < (cells.map unplaced).size := by rwa [Array.size_map]
        have := unopened_cons_lt hc hp
        rw [dif_pos hc, dif_pos hc', Array.getElem_map,
          renderOnto_unplaced cells (c :: path) cells[c]]
      · have hc' : ¬c < (cells.map unplaced).size := by rwa [Array.size_map]
        rw [dif_neg hc, dif_neg hc']
  | invalid => rw [unplaced_invalid, renderOnto, renderOnto]
termination_by (unopened cells.size path, sizeOf v)

theorem renderItemsOnto_unplaced (cells : Array Value) (path : List CellId) (vs : List Value)
    (rest : Text) :
    renderItemsOnto (cells.map unplaced) path (vs.map unplaced) rest =
      renderItemsOnto cells path vs rest := by
  match vs with
  | [] => rw [List.map_nil, renderItemsOnto, renderItemsOnto]
  | [v] =>
    rw [List.map_cons, List.map_nil, renderItemsOnto, renderItemsOnto,
      renderOnto_unplaced cells path v]
  | v :: w :: ws =>
    have hws := renderItemsOnto_unplaced cells path (w :: ws) rest
    rw [List.map_cons] at hws
    rw [List.map_cons, List.map_cons, renderItemsOnto, renderItemsOnto, hws,
      renderOnto_unplaced cells path v]
termination_by (unopened cells.size path, sizeOf vs)

end

/-- The printed form does not show places. -/
theorem render_unplaced (cells : Array Value) (v : Value) :
    v.unplaced.render (cells.map unplaced) = v.render cells := by
  rw [render_eq, render_eq, renderOnto_unplaced cells [] v []]

end Value

/-! ## Faults -/

/-- The problem without places. -/
def FormProblem.unplaced : FormProblem → FormProblem
  | .notSymbol got => .notSymbol got.unplaced
  | problem => problem

/-- The fault without the places of values and without its own. What is wrong with a text that
does not read depends on that text alone and is kept. -/
def Fault.unplaced : Fault → Fault
  | .typeMismatch function position expected got =>
    .typeMismatch function position expected got.unplaced
  | .notCallable got => .notCallable got.unplaced
  | .emptyCall _ => .emptyCall none
  | .malformed form _ problem => .malformed form none problem.unplaced
  | .within context cause => .within context cause.unplaced
  | fault => fault

/-- Where the empty call or the malformed form was read. -/
def Fault.place : Fault → Option Location
  | .emptyCall source => source
  | .malformed _ source _ => source
  | .within _ cause => cause.place
  | _ => none

/-- The same fault of an empty call or a malformed form that was read elsewhere. Every other fault
is as it was. -/
def Fault.placedAt (place : Option Location) : Fault → Fault
  | .emptyCall _ => .emptyCall place
  | .malformed form _ problem => .malformed form place problem
  | .within context cause => .within context (cause.placedAt place)
  | fault => fault

/-- The failure without places. -/
def Failure.unplaced (f : Failure) : Failure := { f with fault := f.fault.unplaced }

namespace Fault

@[simp] theorem unplaced_unplaced (f : Fault) : f.unplaced.unplaced = f.unplaced := by
  induction f with
  | typeMismatch function position expected got => simp only [unplaced, Value.unplaced_unplaced]
  | notCallable got => simp only [unplaced, Value.unplaced_unplaced]
  | malformed form source problem =>
    cases problem with
    | notSymbol got => simp only [unplaced, FormProblem.unplaced, Value.unplaced_unplaced]
    | _ => rfl
  | within context cause ih => simp only [unplaced, ih]
  | _ => rfl

/-- A fault has the same condition without places. -/
@[simp] theorem condition_unplaced (f : Fault) : f.unplaced.condition = f.condition := by
  induction f with
  | malformed form source problem => cases problem <;> rfl
  | within context cause ih => exact ih
  | _ => rfl

/-- Faults that are the same up to places have the same condition. -/
theorem condition_eq {f g : Fault} (h : f.unplaced = g.unplaced) : f.condition = g.condition := by
  rw [← f.condition_unplaced, h, g.condition_unplaced]

/-- A fault is what is left without places, put in its place. -/
theorem message_placedAt (cells : Array Value) (f : Fault) :
    (f.unplaced.placedAt f.place).message (cells.map Value.unplaced) = f.message cells := by
  induction f with
  | typeMismatch function position expected got =>
    simp only [unplaced, placedAt, message, Value.render_unplaced]
  | notCallable got => simp only [unplaced, placedAt, message, Value.render_unplaced]
  | malformed form source problem =>
    cases problem with
    | notSymbol got =>
      simp only [unplaced, FormProblem.unplaced, place, placedAt, message, FormProblem.message,
        Value.render_unplaced]
    | _ => rfl
  | within context cause ih =>
    rw [message, ← ih]
    rfl
  | _ => rfl

/-- A fault that was put elsewhere is there. -/
theorem placedAt_unplaced (place : Option Location) (f : Fault) :
    (f.placedAt place).unplaced.placedAt (f.placedAt place).place = f.unplaced.placedAt place := by
  induction f with
  | within context cause ih => exact congrArg (Fault.within context) ih
  | _ => rfl

/-- **Faults that are the same up to places have the same message**, once they are put in the same
place. -/
theorem message_eq {f g : Fault} {cells cells' : Array Value} (h : f.unplaced = g.unplaced)
    (hcells : cells.map Value.unplaced = cells'.map Value.unplaced) :
    g.message cells' = (f.placedAt g.place).message cells := by
  rw [← g.message_placedAt cells', ← (f.placedAt g.place).message_placedAt cells,
    placedAt_unplaced, h, hcells]

end Fault

/-! ## States -/

/-- The scope without the places of its values. -/
def Scope.unplaced (scope : Scope) : Scope :=
  { scope with bindings := scope.bindings.map fun (name, v) => (name, v.unplaced) }

/-- Whether a field of a log record can hold a place: the text of a fault, or the name of a
source. -/
def Log.holdsPlace (field : Text × Log.Field) : Bool :=
  field.1 = ("error" : Text) || field.1 = ("source" : Text)

/-- The effect without the fields of a log record that can hold places. -/
def Effect.unplaced : Effect → Effect
  | .logged record => .logged { record with fields := record.fields.filter (!Log.holdsPlace ·) }
  | effect => effect

/-- The state without the places of its values. -/
def State.unplaced (s : State) : State :=
  { s with
    scopes := s.scopes.map Scope.unplaced
    cells := s.cells.map Value.unplaced
    effects := s.effects.map Effect.unplaced }

namespace Scope

variable (scope : Scope) (name : Text) (v : Value)

@[simp] theorem unplaced_unplaced : scope.unplaced.unplaced = scope.unplaced := by
  simp [unplaced]

/-- A scope finds the same value, places aside. -/
theorem find_unplaced : scope.unplaced.find? name = (scope.find? name).map Value.unplaced := by
  obtain ⟨parent, bindings⟩ := scope
  unfold find? unplaced
  dsimp only
  induction bindings with
  | nil => rfl
  | cons b bindings ih =>
    rw [List.map_cons, List.lookup_cons, List.lookup_cons]
    cases name == b.1 with
    | true => rfl
    | false => exact ih

/-- A value may be bound before its places are forgotten. -/
theorem put_unplaced : (scope.put name v).unplaced = scope.unplaced.put name v.unplaced := by
  unfold put
  rw [find_unplaced, Option.isSome_map]
  split
  · simp only [unplaced, replace, List.map_map]
    congr 1
    refine List.map_congr_left fun b _ => ?_
    dsimp only [Function.comp_apply]
    split <;> rfl
  · rfl

end Scope

@[simp] theorem Effect.unplaced_unplaced (effect : Effect) :
    effect.unplaced.unplaced = effect.unplaced := by
  cases effect with
  | logged record => simp [Effect.unplaced]
  | _ => rfl

namespace Scopes

variable (scopes : Scopes) (e : ScopeId) (name : Text)

theorem lookup_unplaced :
    Scopes.lookup (scopes.map Scope.unplaced) e name =
      (scopes.lookup e name).map Value.unplaced := by
  fun_induction Scopes.lookup scopes e name with
  | case1 e hnone =>
    rw [Scopes.lookup, Array.getElem?_map, hnone]
    rfl
  | case2 e scope hscope v hfind =>
    rw [Scopes.lookup, Array.getElem?_map, hscope]
    simp only [Option.map_some, Scope.find_unplaced, hfind]
  | case3 e scope hscope hfind p hp hlt ih =>
    rw [Scopes.lookup, Array.getElem?_map, hscope]
    have hp' : scope.unplaced.parent = some p := hp
    simp only [Option.map_some, Option.map_none, Scope.find_unplaced, hfind, hp', if_pos hlt, ih]
  | case4 e scope hscope hfind p hp hle =>
    rw [Scopes.lookup, Array.getElem?_map, hscope]
    have hp' : scope.unplaced.parent = some p := hp
    simp only [Option.map_some, Option.map_none, Scope.find_unplaced, hfind, hp', if_neg hle]
  | case5 e scope hscope hfind hp =>
    rw [Scopes.lookup, Array.getElem?_map, hscope]
    have hp' : scope.unplaced.parent = none := hp
    simp only [Option.map_some, Option.map_none, Scope.find_unplaced, hfind, hp']

/-- Without places the scopes have the same parents, and so the same roots. -/
theorem root_unplaced : Scopes.root (scopes.map Scope.unplaced) e = scopes.root e := by
  fun_induction Scopes.root scopes e with
  | case1 e hnone =>
    rw [Scopes.root, Array.getElem?_map, hnone]
    rfl
  | case2 e scope hscope p hp hlt ih =>
    rw [Scopes.root, Array.getElem?_map, hscope]
    have hp' : scope.unplaced.parent = some p := hp
    simp only [Option.map_some, hp', if_pos hlt, ih]
  | case3 e scope hscope p hp hle =>
    rw [Scopes.root, Array.getElem?_map, hscope]
    have hp' : scope.unplaced.parent = some p := hp
    simp only [Option.map_some, hp', if_neg hle]
  | case4 e scope hscope hp =>
    rw [Scopes.root, Array.getElem?_map, hscope]
    have hp' : scope.unplaced.parent = none := hp
    simp only [Option.map_some, hp']

theorem put_unplaced (v : Value) :
    Scopes.put (scopes.map Scope.unplaced) e name v.unplaced =
      (scopes.put e name v).map Scope.unplaced := by
  refine Array.ext_getElem? fun e' => ?_
  rw [Scopes.getElem?_put, Array.getElem?_map, Array.getElem?_map, Scopes.getElem?_put]
  split
  · cases scopes[e']? with
    | none => rfl
    | some scope => exact congrArg some (scope.put_unplaced name v).symm
  · rfl

end Scopes

namespace State

variable (s : State)

@[simp] theorem unplaced_unplaced : s.unplaced.unplaced = s.unplaced := by
  simp [unplaced, Function.comp_def]

theorem lookup_unplaced (e : ScopeId) (name : Text) :
    s.unplaced.lookup e name = (s.lookup e name).map Value.unplaced := by
  have h : s.unplaced.scopes.lookup e name = (s.scopes.lookup e name).map Value.unplaced :=
    Scopes.lookup_unplaced s.scopes e name
  unfold State.lookup
  rw [h]
  cases s.scopes.lookup e name <;> rfl

/-- A value may be bound before its places are forgotten. -/
theorem bind_unplaced (e : ScopeId) (name : Text) (v : Value) :
    s.unplaced.bind e name v.unplaced = (s.bind e name v).unplaced :=
  congrArg (fun scopes => { s.unplaced with scopes }) (Scopes.put_unplaced s.scopes e name v)

theorem bindAll_unplaced (e : ScopeId) (names : List Text) (vs : List Value) :
    s.unplaced.bindAll e names (vs.map Value.unplaced) = (s.bindAll e names vs).unplaced := by
  induction names generalizing s vs with
  | nil => rfl
  | cons name names ih =>
    cases vs with
    | nil => rfl
    | cons v vs =>
      have h := ih (s.bind e name v) vs
      rw [← bind_unplaced] at h
      exact h

/-- A new scope gets the same number. -/
theorem newScope_unplaced (e : ScopeId) :
    s.unplaced.newScope e = ((s.newScope e).1, (s.newScope e).2.unplaced) := by
  have hpush : (s.scopes.map Scope.unplaced).push { parent := some e } =
      (s.scopes.push { parent := some e }).map Scope.unplaced := by
    rw [Array.map_push]
    rfl
  refine Prod.ext ?_ (congrArg (fun scopes => { s.unplaced with scopes }) hpush)
  exact Array.size_map

/-- A new cell gets the same number. -/
theorem newAtom_unplaced (v : Value) :
    s.unplaced.newAtom v.unplaced = ((s.newAtom v).1, (s.newAtom v).2.unplaced) := by
  have hpush : (s.cells.map Value.unplaced).push v.unplaced = (s.cells.push v).map Value.unplaced :=
    Array.map_push.symm
  refine Prod.ext ?_ (congrArg (fun cells => { s.unplaced with cells }) hpush)
  exact congrArg Value.atom Array.size_map

/-- A cell holds the same value, places aside. -/
theorem contents_unplaced (c : CellId) : s.unplaced.contents c = (s.contents c).unplaced := by
  have h : s.unplaced.cells[c]? = s.cells[c]?.map Value.unplaced := Array.getElem?_map
  unfold State.contents
  rw [h]
  cases s.cells[c]? <;> rfl

/-- A value may be stored before its places are forgotten. -/
theorem store_unplaced (c : CellId) (v : Value) :
    s.unplaced.store c v.unplaced = (s.store c v).unplaced := by
  have hset : (s.cells.map Value.unplaced).setIfInBounds c v.unplaced =
      (s.cells.setIfInBounds c v).map Value.unplaced := by
    refine Array.ext_getElem? fun c' => ?_
    rw [Array.getElem?_setIfInBounds, Array.getElem?_map, Array.getElem?_map,
      Array.getElem?_setIfInBounds, Array.size_map]
    split
    · split <;> rfl
    · rfl
  exact congrArg (fun cells => { s.unplaced with cells }) hset

/-- A log record keeps the fields that cannot hold a place. -/
theorem debug_unplaced (message : Text) (fields : List (Text × Log.Field)) :
    (s.debug message fields).unplaced =
      s.unplaced.debug message (fields.filter (!Log.holdsPlace ·)) := by
  have hlog : s.unplaced.log = s.log := rfl
  simp only [State.debug, logRecord, hlog]
  split <;> rfl

/-- A text is printed the same way, whatever places there are. -/
theorem print_unplaced (text : Text) : s.unplaced.print? text = (s.print? text).map unplaced := by
  have h : s.unplaced.stdout = s.stdout := rfl
  simp only [print?, h]
  split <;> rfl

/-- The printed call stack has no places in it. -/
theorem printStack_unplaced :
    s.unplaced.printStack = (s.printStack.1, s.printStack.2.unplaced) := by
  have hmap : ∀ lines : List Text,
      (lines.map (Effect.wrote .program .stderr)).map Effect.unplaced =
        lines.map (Effect.wrote .program .stderr) := by
    intro lines
    rw [List.map_map]
    rfl
  rw [printStack_eq, printStack_eq]
  refine Prod.ext rfl ?_
  simp only [State.unplaced, List.map_append, hmap]

/-- Values are printed the same way. -/
theorem printed_unplaced (v : Value) : s.unplaced.printed v.unplaced = s.printed v :=
  Value.render_unplaced s.cells v

end State

/-! ## Built-in functions -/

/-- The reply without places. -/
def Reply.unplaced : Reply → Reply
  | .value v => .value v.unplaced
  | .fault f => .fault f.unplaced
  | .update c function => .update c function.unplaced

/-- The function of the embedding program does not look at places: for arguments that are the same
up to places it gives answers that are. -/
def Host.IgnoresPlaces (host : Host) : Prop :=
  ∀ name args args', args.map Value.unplaced = args'.map Value.unplaced →
    (Reply.ofExcept (host name args)).unplaced = (Reply.ofExcept (host name args')).unplaced

@[simp] theorem Reply.unplaced_unplaced (reply : Reply) :
    reply.unplaced.unplaced = reply.unplaced := by
  cases reply <;> simp [Reply.unplaced]

namespace Primitive

variable (name : Text) (a b : Value)

/-- Arguments are the same integers, or the first that is none is the same one. -/
theorem integers_unplaced :
    integers name a.unplaced b.unplaced = (integers name a b).mapError Fault.unplaced := by
  cases a with
  | scalar _ m =>
    cases b with
    | scalar _ n => cases m <;> cases n <;> rfl
    | _ => cases m <;> rfl
  | _ =>
    cases b with
    | scalar _ n => cases n <;> rfl
    | _ => rfl

/-- Arithmetic does not look at places. -/
theorem arithmetic_unplaced (f : Int64 → Int64 → Int64) :
    arithmetic f name a.unplaced b.unplaced = (arithmetic f name a b).unplaced := by
  unfold arithmetic
  rw [integers_unplaced]
  cases integers name a b <;> rfl

theorem divide_unplaced : divide name a.unplaced b.unplaced = (divide name a b).unplaced := by
  unfold divide
  rw [integers_unplaced]
  cases integers name a b with
  | ok numbers =>
    simp only [Except.mapError]
    split <;> rfl
  | error fault => rfl

/-- Order does not look at places. -/
theorem isLess_unplaced : isLess a.unplaced b.unplaced = isLess a b := by
  cases a with
  | scalar _ m =>
    cases b with
    | scalar _ n => cases m <;> cases n <;> rfl
    | _ => cases m <;> rfl
  | _ => rfl

/-- An argument is the same text, or the same value that is none. -/
theorem stringArgument_unplaced :
    stringArgument name a.unplaced = (stringArgument name a).mapError Fault.unplaced := by
  cases a with
  | scalar _ content => cases content <;> rfl
  | _ => rfl

/-- An argument is the same atom, or the same value that is none. -/
theorem cellArgument_unplaced :
    cellArgument name a.unplaced = (cellArgument name a).mapError Fault.unplaced := by
  cases a <;> rfl

/-- Texts are put together the same way, or the first argument that is no text is the same one. -/
theorem concatenate_unplaced (position : Nat) (done : Text) (vs : List Value) :
    concatenate name position done (vs.map Value.unplaced) =
      (concatenate name position done vs).unplaced := by
  induction vs generalizing position done with
  | nil => rfl
  | cons v vs ih =>
    cases v with
    | scalar _ content =>
      cases content with
      | string text => exact ih (position + 1) (done ++ text)
      | _ => rfl
    | _ => rfl

/-- A file that is read in full is the same text. The log record names it in a field without places.
-/
theorem slurpFile_unplaced (path : Text) (s : State) :
    slurpFile name path s.unplaced =
      ((slurpFile name path s).1.unplaced, (slurpFile name path s).2.unplaced) := by
  have hfiles : (s.unplaced.note (.opened path)).files = (s.note (.opened path)).files := rfl
  have hnote : s.unplaced.note (.opened path) = (s.note (.opened path)).unplaced := rfl
  unfold slurpFile
  dsimp only
  rw [hfiles]
  cases (s.note (.opened path)).files.read path with
  | ok bytes =>
    rw [hnote]
    refine Prod.ext rfl (Eq.trans ?_ (State.debug_unplaced _ _ _).symm)
    with_unfolding_all rfl
  | error e => rfl

/-- What a function of the language does without places is what it does with them, places aside.
Only what `read-str` reads has places of its own. -/
theorem run_unplaced_of_ne {p : Primitive} (hp : p ≠ .readStr) (args : List Value) (s : State) :
    p.run name (args.map Value.unplaced) s.unplaced =
      Prod.map Reply.unplaced State.unplaced (p.run name args s) := by
  -- a function that is called with another number of arguments than its own does not look at them
  rcases args with _ | ⟨a, _ | ⟨b, _ | ⟨c, args⟩⟩⟩
  · cases p with
    | debugStack =>
      simp only [List.map_nil, run, State.printStack_unplaced]
      cases s.printStack.1 <;> rfl
    | _ => rfl
  · cases p with
    | readStr => exact absurd rfl hp
    | str => exact Prod.ext (concatenate_unplaced name 1 [] [a]) rfl
    | isList => simp only [List.map_cons, List.map_nil, run, Value.kind_unplaced]; rfl
    | isAtom => simp only [List.map_cons, List.map_nil, run, Value.kind_unplaced]; rfl
    | isEmpty =>
      simp only [List.map_cons, List.map_nil, run, Value.kind_unplaced, Value.length_unplaced]; rfl
    | count => simp only [List.map_cons, List.map_nil, run, Value.length_unplaced]; rfl
    | slurp =>
      simp only [List.map_cons, List.map_nil, run, stringArgument_unplaced]
      cases stringArgument name a with
      | ok path => exact slurpFile_unplaced name path s
      | error fault => rfl
    | atom =>
      simp only [List.map_cons, List.map_nil, run, State.newAtom_unplaced]; rfl
    | deref =>
      simp only [List.map_cons, List.map_nil, run, cellArgument_unplaced]
      cases cellArgument name a with
      | ok c => exact Prod.ext (congrArg Reply.value (s.contents_unplaced c)) rfl
      | error fault => rfl
    | prn =>
      simp only [List.map_cons, List.map_nil, run, State.printed_unplaced, State.print_unplaced]
      cases s.print? (s.printed a ++ [10]) <;> rfl
    | _ => rfl
  · cases p with
    | add => exact Prod.ext (arithmetic_unplaced name a b _) rfl
    | sub => exact Prod.ext (arithmetic_unplaced name a b _) rfl
    | mul => exact Prod.ext (arithmetic_unplaced name a b _) rfl
    | div => exact Prod.ext (divide_unplaced name a b) rfl
    | equal => simp only [List.map_cons, List.map_nil, run, Value.equal_unplaced]; rfl
    | less => simp only [List.map_cons, List.map_nil, run, isLess_unplaced]; rfl
    | str => exact Prod.ext (concatenate_unplaced name 1 [] [a, b]) rfl
    | reset =>
      simp only [List.map_cons, List.map_nil, run, cellArgument_unplaced]
      cases cellArgument name a with
      | ok c => exact Prod.ext rfl (s.store_unplaced c b)
      | error fault => rfl
    | swap =>
      simp only [List.map_cons, List.map_nil, run, cellArgument_unplaced, Value.isCallable_unplaced]
      cases cellArgument name a with
      | ok c => cases b.isCallable <;> rfl
      | error fault => rfl
    | _ => rfl
  · cases p with
    | list =>
      have hlist := Value.unplaced_list none (a :: b :: c :: args)
      exact Prod.ext (congrArg Reply.value hlist.symm) rfl
    | str => exact Prod.ext (concatenate_unplaced name 1 [] (a :: b :: c :: args)) rfl
    | _ => simp only [List.map_cons, run, List.length_cons, List.length_map]; rfl

/-- **A function of the language does not look at places.** -/
theorem run_unplaced (p : Primitive) (args : List Value) (s : State) :
    Prod.map Reply.unplaced State.unplaced (p.run name (args.map Value.unplaced) s.unplaced) =
      Prod.map Reply.unplaced State.unplaced (p.run name args s) := by
  by_cases hp : p = .readStr
  · subst hp
    rcases args with _ | ⟨a, _ | ⟨b, args⟩⟩
    · exact Prod.ext rfl s.unplaced_unplaced
    · simp only [List.map_cons, List.map_nil, run, stringArgument_unplaced]
      cases stringArgument name a with
      | ok text => exact Prod.ext rfl s.unplaced_unplaced
      | error fault =>
        exact Prod.ext (congrArg Reply.fault fault.unplaced_unplaced) s.unplaced_unplaced
    · simp only [List.map_cons, run, List.length_cons, List.length_map]
      exact Prod.ext rfl s.unplaced_unplaced
  · rw [run_unplaced_of_ne name hp]
    exact Prod.ext (Reply.unplaced_unplaced _) (State.unplaced_unplaced _)

end Primitive

/-- **A built-in function does not look at places**, if the functions of the embedding program do
not. -/
theorem Builtin.run_unplaced {s : State} (hhosts : ∀ host ∈ s.hosts, Host.IgnoresPlaces host)
    (b : Builtin) (args : List Value) :
    Prod.map Reply.unplaced State.unplaced (b.run (args.map Value.unplaced) s.unplaced) =
      Prod.map Reply.unplaced State.unplaced (b.run args s) := by
  have hroutine : Prod.map Reply.unplaced State.unplaced
      (b.runRoutine (args.map Value.unplaced) s.unplaced) =
        Prod.map Reply.unplaced State.unplaced (b.runRoutine args s) := by
    have hsame : s.unplaced.hosts = s.hosts := rfl
    unfold Builtin.runRoutine
    rw [hsame]
    split
    · exact Primitive.run_unplaced b.name _ args s
    · split
      · rename_i host hget
        refine Prod.ext ?_ s.unplaced_unplaced
        exact hhosts host (Array.mem_of_getElem? hget) b.name _ _ (Value.unplaced_items args)
      · exact Prod.ext rfl s.unplaced_unplaced
  unfold Builtin.run
  rw [List.length_map]
  split
  · exact hroutine
  · split
    · exact hroutine
    · exact Prod.ext rfl s.unplaced_unplaced

end TinyLisp
