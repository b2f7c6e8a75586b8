import TinyLisp.Proofs.References

/-!
# The store stays well formed

A state is well formed if its scopes form one tree, in which every scope was made after its parent,
and every reference in it leads to a scope or a cell that exists. A session is whatever an embedding
program does with an interpreter (`Use`), beginning with a new one.

* `wellFormed_step`: a step keeps a machine well formed. What it makes exists from then on, so the
  bounds of what exists (`State.bounds`) widen along a run.
* `Scopes.Climbs`, `Scopes.Resolves`: the walk along the parents, with nothing that would stop it.
* `Use.kept`, `Session.kept`: every state of a session is well formed, and later states have all
  scopes, names and cells of earlier ones.
-/

namespace TinyLisp

open Machine State

/-! ## Well-formed states -/

/-- The scopes form one tree, and every reference leads to something that exists. -/
structure State.WellFormed (s : State) : Prop where
  root : ∃ scope, s.scopes[rootScope]? = some scope ∧ scope.parent = none
  /-- Every other scope was made after its parent. -/
  parents : ∀ e scope, s.scopes[e]? = some scope → e ≠ rootScope →
    ∃ p, scope.parent = some p ∧ p < e
  bindings : ∀ (e : ScopeId) scope, s.scopes[e]? = some scope →
    ∀ b ∈ scope.bindings, ∀ r ∈ b.2.refs, s.Exists r
  cells : ∀ (c : CellId) v, s.cells[c]? = some v → ∀ r ∈ v.refs, s.Exists r
  hosts : ∀ host ∈ s.hosts, Host.Within s.Exists host

/-- The bounds of what exists. -/
def State.bounds (s : State) : Bounds := .refs s.Exists

/-- Every scope and cell is still there. -/
abbrev State.Extends (s t : State) : Prop := s.Grows (.within fun _ => True) t

section WellFormed

variable {B : Bounds} {s t : State} {e : ScopeId}

theorem State.exists_of_getElem? {scope : Scope} (h : s.scopes[e]? = some scope) :
    s.Exists (.scope e) := (Array.getElem?_eq_some_iff.1 h).1

/-- What exists does not vanish. -/
theorem State.Grows.exists (h : s.Grows B t) : ∀ r, s.Exists r → t.Exists r
  | .scope _, hr => Nat.lt_of_lt_of_le hr h.scopes_size
  | .cell _, hr => Nat.lt_of_lt_of_le hr h.cells_size

/-- An edit extends a state. -/
theorem State.Edited.extends (h : s.Edited B t) : s.Extends t := by
  have hle : B.Le (.within fun _ => True) :=
    ⟨fun _ _ => trivial, fun _ _ => trivial, fun _ _ => trivial, fun _ _ => trivial⟩
  exact (h.mono hle).grows

/-- Parents are made before their children. -/
theorem State.WellFormed.parent_lt (hs : s.WellFormed) {scope : Scope} {p : ScopeId}
    (h : s.scopes[e]? = some scope) (hp : scope.parent = some p) : p < e := by
  by_cases he : e = rootScope
  · subst he
    obtain ⟨scope', h', hnone⟩ := hs.root
    obtain rfl := Option.some.inj (h.symm.trans h')
    rw [hp] at hnone
    cases hnone
  · obtain ⟨p', hp', hlt⟩ := hs.parents e scope h he
    obtain rfl := Option.some.inj (hp.symm.trans hp')
    exact hlt

/-- What exists does not lead to what does not. -/
theorem State.WellFormed.respects (hs : s.WellFormed) : s.Respects s.bounds where
  parents _ _ _ he h hp := Nat.lt_trans (hs.parent_lt h hp) he
  bindings e scope _ h b hb := ⟨trivial, Value.respects_refs.2 (hs.bindings e scope h b hb)⟩
  cells c v _ h := Value.respects_refs.2 (hs.cells c v h)

/-- In a well-formed state nothing leads out of what exists. -/
theorem State.WellFormed.closed (hs : s.WellFormed) {R : Ref → Prop} (hR : ∀ r, s.Exists r → R r) :
    (Bounds.refs R).Closed s.setup := Bounds.refs_closed hs.hosts hR

/-- More bounds do no harm, if no more of what exists is within them. -/
theorem State.WellFormed.respects_later (hs : s.WellFormed) (h : s.Grows B t) :
    s.Respects t.bounds :=
  hs.respects.widen (Bounds.refs_le h.exists) (fun _ _ => id) (fun _ _ => id)

/-- **An edit with what exists keeps a state well formed.** -/
theorem State.WellFormed.edited (hs : s.WellFormed) (h : s.Edited s.bounds t)
    (hhosts : t.hosts = s.hosts) : t.WellFormed := by
  have hgrows := h.grows
  have hle : s.bounds.Le t.bounds := Bounds.refs_le hgrows.exists
  have ht : t.Respects t.bounds := (h.mono hle).respects (hs.respects_later hgrows)
  constructor
  · obtain ⟨scope, hroot, hnone⟩ := hs.root
    obtain ⟨scope', hroot', hext, -⟩ := hgrows.scopes _ scope hroot
    exact ⟨scope', hroot', hext.parent.trans hnone⟩
  · intro e scope hscope he
    rcases h.parent hscope with ⟨scope', hscope', hparent⟩ | ⟨hsize, p, hp, hlt⟩
    · obtain ⟨p, hp, hlt⟩ := hs.parents e scope' hscope' he
      exact ⟨p, hparent.trans hp, hlt⟩
    · -- a new scope has a parent that was there before
      exact ⟨p, hp, hsize ▸ hlt⟩
  · intro e scope hscope b hb
    exact Value.respects_refs.1 (ht.bindings e scope (State.exists_of_getElem? hscope) hscope b hb).2
  · intro c v hv
    exact Value.respects_refs.1 (ht.cells c v (Array.getElem?_eq_some_iff.1 hv).1 hv)
  · intro host hmem
    rw [hhosts] at hmem
    exact (hs.hosts host hmem).mono hgrows.exists

theorem State.WellFormed.of_eq (hs : s.WellFormed) (hscopes : t.scopes = s.scopes)
    (hcells : t.cells = s.cells) (hhosts : t.hosts = s.hosts) : t.WellFormed :=
  hs.edited (.of_eq hscopes hcells) hhosts

end WellFormed

/-! ## Evaluation -/

namespace Machine

variable {m m' : Machine} {s : State}

/-- The state is well formed, and everything the machine refers to exists. -/
structure WellFormed (m : Machine) : Prop where
  state : m.state.WellFormed
  respects : m.Respects m.state.bounds

theorem Respects.mono {B C : Bounds} (hm : m.Respects B) (hBC : B.Le C) (hs : m.state.Respects C) :
    m.Respects C :=
  ⟨hm.focus.mono hBC, fun k hk => (hm.konts k hk).mono hBC, hs⟩

/-- The root above a scope within bounds on references is within them. -/
theorem Respects.evaluates {R : Ref → Prop} (hm : m.Respects (.refs R)) {e : ScopeId}
    (h : m.Evaluates e) : (Bounds.refs R).current (m.state.scopes.root e) := by
  obtain ⟨v, ks, -, hks⟩ := h
  have he := hm.konts (.evaluate e) (by rw [hks]; exact List.mem_cons_self)
  exact hm.state.root he

/-- A machine that comes from a well-formed state, within whatever bounds allow what exists, is well
formed. -/
theorem wellFormed_of_yielded (hs : s.WellFormed) (hhosts : m.state.hosts = s.hosts)
    (h : ∀ R : Ref → Prop, (∀ r, s.Exists r → R r) → s.Respects (.refs R) →
      Yielded (.refs R) s m) : m.WellFormed ∧ s.Extends m.state := by
  have hbefore := h s.Exists (fun _ => id) hs.respects
  have hgrows := hbefore.edited.grows
  refine ⟨⟨hs.edited hbefore.edited hhosts, ?_⟩, hbefore.edited.extends⟩
  -- once more, with the bounds of what exists afterwards
  have hafter := h m.state.Exists hgrows.exists (hs.respects_later hgrows)
  exact hafter.respects (hs.respects_later hgrows) ⟨fun _ _ => id, fun _ _ => id⟩

/-- **A step keeps a machine well formed**, and everything that there was. -/
theorem wellFormed_step (hm : m.WellFormed) (h : m.step = .next m') :
    m'.WellFormed ∧ m.state.Extends m'.state := by
  refine wellFormed_of_yielded hm.state (hosts_of_setup (setup_step h)) fun R hR hs => ?_
  have hmR : m.Respects (.refs R) := hm.respects.mono (Bounds.refs_le hR) hs
  exact step_yielded (hm.state.closed hR) hmR (fun e => hmR.evaluates) h

/-- **Runs keep machines well formed**, and extend their states. -/
theorem WellFormed.reaches (hm : m.WellFormed) (h : Reaches m m') :
    m'.WellFormed ∧ m.state.Extends m'.state := by
  induction h with
  | refl => exact ⟨hm, .refl _ _⟩
  | tail _ hstep ih =>
    obtain ⟨hm₁, hext⟩ := ih
    obtain ⟨hm₂, hext'⟩ := wellFormed_step hm₁ hstep
    exact ⟨hm₂, hext.trans hext'⟩

end Machine

/-- The state is well formed, and what the evaluation came to refers to what exists. -/
structure Outcome.WellFormed (o : Outcome) : Prop where
  state : o.state.WellFormed
  refs : ∀ r ∈ o.refs, o.state.Exists r

section Evaluation

variable {s : State} {e : ScopeId} {fuel : Nat} {out : Outcome}

/-- What a well-formed machine comes to is well formed. -/
theorem Machine.WellFormed.halts {m : Machine} {o : Outcome} (hm : m.WellFormed)
    (h : Halts m o) : o.WellFormed ∧ m.state.Extends o.state := by
  obtain ⟨hend, hext⟩ := hm.reaches (halts_iff_reaches.1 h)
  exact ⟨⟨hend.state, Outcome.refs_of_respects hend.respects⟩, hext⟩

theorem Outcome.reported_scopes (o : Outcome) : o.reported.state.scopes = o.state.scopes := by
  unfold Outcome.reported
  split
  · rfl
  · exact State.scopes_debug _ _

theorem Outcome.reported_cells (o : Outcome) : o.reported.state.cells = o.state.cells := by
  unfold Outcome.reported
  split
  · rfl
  · exact State.cells_debug _ _

theorem Outcome.reported_setup (o : Outcome) : o.reported.state.setup = o.state.setup := by
  unfold Outcome.reported
  split
  · rfl
  · exact (State.quiet_debug _ _ _).2

theorem Outcome.reported_refs (o : Outcome) : o.reported.refs = o.refs := by
  unfold Outcome.refs
  rw [o.reported_result]

theorem State.Exists.of_eq {t : State} (hscopes : t.scopes = s.scopes) (hcells : t.cells = s.cells)
    {r : Ref} (h : s.Exists r) : t.Exists r := by
  cases r with
  | scope e => exact (hscopes ▸ h : e < t.scopes.size)
  | cell c => exact (hcells ▸ h : c < t.cells.size)

theorem Outcome.WellFormed.reported {o : Outcome} (h : o.WellFormed) : o.reported.WellFormed where
  state := h.state.of_eq o.reported_scopes o.reported_cells (hosts_of_setup o.reported_setup)
  refs r hr := by
    rw [o.reported_refs] at hr
    exact (h.refs r hr).of_eq o.reported_scopes o.reported_cells

theorem State.WellFormed.enter (hs : s.WellFormed) {expr : Value} (he : s.Exists (.scope e))
    (hx : ∀ r ∈ expr.refs, s.Exists r) :
    (enter [] expr e [] s).WellFormed ∧ s.Extends (enter [] expr e [] s).state := by
  have hhosts : (Machine.enter [] expr e [] s).state.hosts = s.hosts :=
    hosts_of_setup (enter_move [] expr e).setup_eq
  refine wellFormed_of_yielded hs hhosts fun R hR _ => ?_
  have hexpr : expr.Respects (.refs R) := Value.respects_refs.2 fun r hr => hR r (hx r hr)
  exact enter_yielded (List.forall_mem_nil _) [] hexpr (hR _ he)

/-- **Evaluation keeps a state well formed**, if the scope and the expression refer to what exists.
-/
theorem State.WellFormed.eval (hs : s.WellFormed) {expr : Value} (he : s.Exists (.scope e))
    (hx : ∀ r ∈ expr.refs, s.Exists r) (h : s.eval fuel e expr = some out) :
    out.WellFormed ∧ s.Extends out.state := by
  rw [State.eval_eq] at h
  obtain ⟨o, ho, rfl⟩ := Option.map_eq_some_iff.1 h
  obtain ⟨hstart, hext⟩ := hs.enter he hx
  obtain ⟨hend, hext'⟩ := hstart.halts ⟨fuel, ho⟩
  have hreported : o.state.Extends o.reported.state :=
    (State.Edited.of_eq (B := o.state.bounds) o.reported_scopes o.reported_cells).extends
  exact ⟨hend.reported, (hext.trans hext').trans hreported⟩

theorem State.WellFormed.application (hs : s.WellFormed) {f : Value} {args : List Value}
    (hx : ∀ r ∈ Value.refsAll (f :: args), s.Exists r) :
    Machine.WellFormed { focus := .application f args, konts := [], state := s } := by
  have hargs : RespectAll s.bounds (f :: args) := respectAll_refs.2 hx
  exact ⟨hs, respectAll_cons.1 hargs, List.forall_mem_nil _, hs.respects⟩

/-- So does the application of a function, if the function and its arguments refer to what exists.
-/
theorem State.WellFormed.apply (hs : s.WellFormed) {f : Value} {args : List Value}
    (hx : ∀ r ∈ Value.refsAll (f :: args), s.Exists r) (h : s.apply fuel f args = some out) :
    out.WellFormed ∧ s.Extends out.state := (hs.application hx).halts ⟨fuel, h⟩

/-- What can be read refers to nothing. -/
theorem Value.Readable.refs_eq {v : Value} (h : v.Readable) : v.refs = [] := by
  have hnone : v.Respects (.refs fun _ => False) := h.respects fun _ _ => trivial
  exact List.eq_nil_iff_forall_not_mem.2 (Value.respects_refs.1 hnone)

/-- **Every way into the evaluator keeps a state well formed.** -/
theorem State.WellFormed.entry (hs : s.WellFormed) {entry : Entry}
    (hroots : ∀ r, entry.roots r → s.Exists r) (h : entry.run fuel s = some out) :
    out.WellFormed ∧ s.Extends out.state := by
  cases entry with
  | eval e expr => exact hs.eval (hroots _ (.inl rfl)) (fun r hr => hroots r (.inr hr)) h
  | apply f args => exact hs.apply hroots h
  | load e file bytes failure =>
    -- the forms of a source refer to nothing but the scope they are evaluated in
    refine load_invariant (I := fun o => o.WellFormed ∧ s.Extends o.state) ?_ ?_ h
    · intro o hrefs hscopes hcells hsetup
      refine ⟨⟨hs.of_eq hscopes hcells (hosts_of_setup hsetup), ?_⟩, ?_⟩
      · rw [hrefs]
        exact nofun
      · exact (State.Edited.of_eq (B := s.bounds) hscopes hcells).extends
    · rintro o form out ⟨ho, hext⟩ hform hout
      have he : o.state.Exists (.scope e) := hext.exists _ (hroots _ rfl)
      have hrefs : ∀ r ∈ form.refs, o.state.Exists r := by
        rw [hform.refs_eq]
        exact nofun
      obtain ⟨hout', hext'⟩ := ho.state.eval he hrefs hout
      exact ⟨hout', hext.trans hext'⟩

theorem BeginsForm.wellFormed {t : State} {form : Value} {forms : List Value}
    (h : BeginsForm e form t s forms) (hs : s.WellFormed) (he : s.Exists (.scope e))
    (hforms : ∀ form ∈ forms, form.Readable) :
    t.WellFormed ∧ t.Exists (.scope e) ∧ form.Readable := by
  induction h with
  | here => exact ⟨hs, he, hforms form List.mem_cons_self⟩
  | @later s s' first v forms fuel hev _ ih =>
    obtain ⟨hfirst, hforms⟩ := List.forall_mem_cons.1 hforms
    obtain ⟨hout, hext⟩ := hs.eval he (by rw [hfirst.refs_eq]; exact nofun) hev
    exact ih hout.state (hext.exists _ he) hforms

/-- **Evaluation is well formed wherever it gets to**, whether it comes to an end or not. -/
theorem Entry.Visits.wellFormed {entry : Entry} {m : Machine} (h : entry.Visits s m)
    (hs : s.WellFormed) (hroots : ∀ r, entry.roots r → s.Exists r) : m.WellFormed := by
  cases h with
  | @inside _ e _ _ hb h =>
    cases hb with
    | eval =>
      obtain ⟨hstart, -⟩ := hs.enter (hroots _ (.inl rfl)) fun r hr => hroots r (.inr hr)
      exact (hstart.reaches h).1
    | @load _ file _ _ forms _ _ _ hf hb =>
      have hloaded : (s.loaded file forms).WellFormed :=
        hs.of_eq (State.scopes_debug _ _) (State.cells_debug _ _)
          (hosts_of_setup (s.quiet_debug _ _).2)
      have he : (s.loaded file forms).Exists (.scope e) :=
        (hroots _ rfl).of_eq (State.scopes_debug _ _) (State.cells_debug _ _)
      obtain ⟨ht, het, hform⟩ := hb.wellFormed hloaded he fun _ => readable_of_readAll hf
      obtain ⟨hstart, -⟩ := ht.enter het (by rw [hform.refs_eq]; exact nofun)
      exact (hstart.reaches h).1
  | apply h => exact ((hs.application hroots).reaches h).1

end Evaluation

/-! ## Looking up -/

namespace Scopes

/-- Following parents from a scope comes to an end at the scope `r`. -/
inductive Climbs (scopes : Scopes) (r : ScopeId) : ScopeId → Prop where
  | root {scope : Scope} (hscope : scopes[r]? = some scope) (hp : scope.parent = none) :
      Climbs scopes r r
  | parent {e p : ScopeId} {scope : Scope} (hscope : scopes[e]? = some scope)
      (hp : scope.parent = some p) (h : Climbs scopes r p) : Climbs scopes r e

/-- Looking for a name from a scope along parents comes to an end, with a value or with none. -/
inductive Resolves (scopes : Scopes) (name : Text) : ScopeId → Option Value → Prop where
  | here {e : ScopeId} {scope : Scope} {v : Value} (hscope : scopes[e]? = some scope)
      (hfind : scope.find? name = some v) : Resolves scopes name e (some v)
  | above {e p : ScopeId} {scope : Scope} {result : Option Value} (hscope : scopes[e]? = some scope)
      (hfind : scope.find? name = none) (hp : scope.parent = some p)
      (h : Resolves scopes name p result) : Resolves scopes name e result
  | unbound {e : ScopeId} {scope : Scope} (hscope : scopes[e]? = some scope)
      (hfind : scope.find? name = none) (hp : scope.parent = none) : Resolves scopes name e none

/-- Whoever climbs along the parents to a scope without one arrives at the root. -/
theorem Climbs.root_eq {scopes : Scopes} {r e : ScopeId} (h : scopes.Climbs r e)
    (hlt : ∀ (e : ScopeId) scope p, scopes[e]? = some scope → scope.parent = some p → p < e) :
    scopes.root e = r := by
  induction h with
  | root hscope hp =>
    rw [Scopes.root]
    simp only [hscope, hp]
  | parent hscope hp _ ih =>
    rw [Scopes.root]
    simp only [hscope, hp, if_pos (hlt _ _ _ hscope hp)]
    exact ih

end Scopes

namespace State.WellFormed

variable {s t : State} {e : ScopeId} {name : Text}

/-- **Every chain of parents ends at the root.** -/
theorem climbs (hs : s.WellFormed) (he : s.Exists (.scope e)) : s.scopes.Climbs rootScope e := by
  induction e using Nat.strong_induction_on with
  | _ e ih =>
    obtain ⟨scope, hget⟩ : ∃ scope, s.scopes[e]? = some scope := ⟨_, Array.getElem?_eq_getElem he⟩
    by_cases hroot : e = rootScope
    · subst hroot
      obtain ⟨scope, hscope, hnone⟩ := hs.root
      exact .root hscope hnone
    · obtain ⟨p, hp, hlt⟩ := hs.parents e _ hget hroot
      exact .parent hget hp (ih p hlt (Nat.lt_trans hlt he))

/-- All scopes have the root scope as their root. -/
theorem root_eq (hs : s.WellFormed) (he : s.Exists (.scope e)) : s.scopes.root e = rootScope :=
  (hs.climbs he).root_eq fun _ _ _ => hs.parent_lt

/-- **Looking a name up comes to an end**, with what `Scopes.lookup` returns. -/
theorem resolves (hs : s.WellFormed) (he : s.Exists (.scope e)) (name : Text) :
    s.scopes.Resolves name e (s.scopes.lookup e name) := by
  fun_induction Scopes.lookup s.scopes e name with
  | case1 e hnone =>
    rw [Array.getElem?_eq_getElem he] at hnone
    cases hnone
  | case2 e scope hscope v hfind => exact .here hscope hfind
  | case3 e scope hscope hfind p hp hlt ih =>
    exact .above hscope hfind hp (ih (Nat.lt_trans hlt he))
  | case4 e scope hscope hfind p hp hle => exact absurd (hs.parent_lt hscope hp) hle
  | case5 e scope hscope hfind hp => exact .unbound hscope hfind hp

end State.WellFormed

/-- A name that was found from a scope is found from it later. -/
theorem State.Extends.lookup {s t : State} {e : ScopeId} {name : Text} (h : s.Extends t)
    (hfound : (s.scopes.lookup e name).isSome) : (t.scopes.lookup e name).isSome := by
  fun_induction Scopes.lookup s.scopes e name with
  | case1 => cases hfound
  | case2 e scope hscope v hfind =>
    obtain ⟨scope', hscope', hext, -⟩ := h.scopes e scope hscope
    have hnames := hext.names name (by rw [hfind]; rfl)
    obtain ⟨w, hw⟩ := Option.isSome_iff_exists.1 hnames
    rw [Scopes.lookup]
    simp only [hscope', hw, Option.isSome_some]
  | case3 e scope hscope hfind p hp hlt ih =>
    obtain ⟨scope', hscope', hext, -⟩ := h.scopes e scope hscope
    rw [Scopes.lookup]
    simp only [hscope', hext.parent, hp, if_pos hlt]
    -- the scope itself may bind the name by now
    cases scope'.find? name with
    | some w => rfl
    | none => exact ih hfound
  | case4 => cases hfound
  | case5 => cases hfound

/-! ## Sessions -/

/-- One thing that an embedding program does with an interpreter. Whatever it hands over exists: it
has nothing else to hand over. -/
inductive Use (s : State) : State → Prop where
  /-- Applies settings and binds the library. -/
  | prepare (e : ScopeId) (settings : List Setting) (he : s.Exists (.scope e)) :
      Use s (s.prepare e settings).2
  /-- Binds built-in functions. -/
  | addBuiltins (e : ScopeId) (bs : List Builtin) (he : s.Exists (.scope e)) :
      Use s (s.addBuiltins e bs).2
  /-- Adds a function of its own. -/
  | addHost (host : Host) (h : Host.Within s.Exists host) : Use s (s.addHost host).2
  /-- Makes a scope below another. -/
  | child (e : ScopeId) (he : s.Exists (.scope e)) : Use s (s.newScope e).2
  /-- Binds a name. -/
  | put (e : ScopeId) (name : Text) (v : Value) (he : s.Exists (.scope e))
      (hv : ∀ r ∈ v.refs, s.Exists r) : Use s (s.bind e name v)
  /-- Makes an atom. -/
  | atom (v : Value) (hv : ∀ r ∈ v.refs, s.Exists r) : Use s (s.newAtom v).2
  /-- Makes a closure. -/
  | closure (formals : List Text) (body : Value) (e : ScopeId) :
      Use s (s.newClosure formals body e).2
  /-- Evaluates an expression or the forms of a source, or applies a function, whatever comes of
  it. -/
  | run (entry : Entry) (fuel : Nat) (out : Outcome) (hroots : ∀ r, entry.roots r → s.Exists r)
      (h : entry.run fuel s = some out) : Use s out.state

/-- One state comes after another in a session. -/
def Session : State → State → Prop := Relation.ReflTransGen Use

/-- The state of a new interpreter, however it is configured: one scope, which binds nothing. -/
structure State.IsNew (s : State) : Prop where
  scopes : s.scopes = #[{ parent := none }]
  cells : s.cells = #[]
  hosts : ∀ host ∈ s.hosts, Host.Within s.Exists host

/-- A new interpreter is well formed. -/
theorem State.IsNew.wellFormed {s : State} (hs : s.IsNew) : s.WellFormed := by
  have hget : ∀ (e : ScopeId) scope, s.scopes[e]? = some scope →
      e = rootScope ∧ scope = { parent := none } := by
    intro e scope h
    rw [hs.scopes] at h
    cases e with
    | zero => exact ⟨rfl, (Option.some.inj h).symm⟩
    | succ e => simp at h
  constructor
  · exact ⟨{ parent := none }, by rw [hs.scopes]; rfl, rfl⟩
  · intro e scope h he
    exact absurd (hget e scope h).1 he
  · intro e scope h b hb
    obtain ⟨-, rfl⟩ := hget e scope h
    cases hb
  · intro c v h
    rw [hs.cells] at h
    simp at h
  · exact hs.hosts

section Sessions

variable {s t : State} {e : ScopeId}

theorem State.configure_store {setting : Setting} (h : s.configure setting = .ok t) :
    t.scopes = s.scopes ∧ t.cells = s.cells ∧ t.hosts = s.hosts := by
  cases setting with
  | stackLimit limit =>
    simp only [State.configure] at h
    split at h <;> cases h
    exact ⟨rfl, rfl, rfl⟩
  | _ => cases h; exact ⟨rfl, rfl, rfl⟩

/-- Settings change no scope, cell or function of the embedding program. -/
theorem State.configureAll_store (settings : List Setting) :
    (s.configureAll settings).2.scopes = s.scopes ∧ (s.configureAll settings).2.cells = s.cells ∧
      (s.configureAll settings).2.hosts = s.hosts := by
  induction settings generalizing s with
  | nil => exact ⟨rfl, rfl, rfl⟩
  | cons setting settings ih =>
    unfold State.configureAll
    split
    · rename_i s' h
      obtain ⟨hscopes, hcells, hhosts⟩ := State.configure_store h
      obtain ⟨hscopes', hcells', hhosts'⟩ := @ih s'
      exact ⟨hscopes'.trans hscopes, hcells'.trans hcells, hhosts'.trans hhosts⟩
    · exact ⟨rfl, rfl, rfl⟩

/-- What a use of the interpreter keeps. -/
def Kept (s t : State) : Prop := t.WellFormed ∧ s.Extends t

/-- An edit within what exists keeps a session well formed. -/
theorem kept_of_edited (hs : s.WellFormed) (h : s.Edited s.bounds t) (hhosts : t.hosts = s.hosts) :
    Kept s t := ⟨hs.edited h hhosts, h.extends⟩

theorem kept_of_eq (hs : s.WellFormed) (hscopes : t.scopes = s.scopes) (hcells : t.cells = s.cells)
    (hhosts : t.hosts = s.hosts) : Kept s t := kept_of_edited hs (.of_eq hscopes hcells) hhosts

theorem Kept.trans {u : State} (h : Kept s t) (h' : Kept t u) : Kept s u :=
  ⟨h'.1, h.2.trans h'.2⟩

/-- Binding built-in functions keeps a session well formed. -/
theorem kept_bindBuiltins (hs : s.WellFormed) (he : s.Exists (.scope e)) (bs : List Builtin) :
    Kept s (s.bindBuiltins e bs).2 := by
  induction bs generalizing s with
  | nil => exact kept_of_eq hs rfl rfl rfl
  | cons b bs ih =>
    unfold State.bindBuiltins
    split
    · exact kept_of_eq hs rfl rfl rfl
    · have hbind : Kept s (s.bind e b.name (.builtin b)) :=
        kept_of_edited hs (.bind e b.name _ he trivial (.builtin b)) rfl
      exact hbind.trans (ih hbind.1 (hbind.2.exists _ he))

/-- Setting an interpreter up keeps a session well formed. -/
theorem kept_prepare (hs : s.WellFormed) (he : s.Exists (.scope e)) (settings : List Setting) :
    Kept s (s.prepare e settings).2 := by
  obtain ⟨hscopes, hcells, hhosts⟩ := State.configureAll_store (s := s) settings
  have hconf : Kept s (s.configureAll settings).2 := kept_of_eq hs hscopes hcells hhosts
  unfold State.prepare
  split
  · exact kept_of_eq hs rfl rfl rfl
  · split <;> rename_i h <;> rw [h] at hconf
    · exact hconf
    · have hbound : Kept s (State.addBuiltins _ e []).2 :=
        hconf.trans (kept_bindBuiltins hconf.1 (hconf.2.exists _ he) _)
      split <;> rename_i h' <;> rw [h'] at hbound
      · exact hbound
      · refine hbound.trans (kept_of_eq hbound.1 (State.scopes_debug _ _) (State.cells_debug _ _) ?_)
        exact hosts_of_setup (State.quiet_debug _ _ _).2

theorem kept_addHost (hs : s.WellFormed) {host : Host} (h : Host.Within s.Exists host) :
    Kept s (s.addHost host).2 := by
  have hedit : s.Edited s.bounds (s.addHost host).2 := .same
  refine ⟨⟨hs.root, hs.parents, hs.bindings, hs.cells, fun host' hmem => ?_⟩, hedit.extends⟩
  rcases Array.mem_push.1 hmem with hmem | rfl
  · exact hs.hosts host' hmem
  · exact h

/-- **Every use of the interpreter keeps its state well formed.** -/
theorem Use.kept (hs : s.WellFormed) (h : Use s t) : Kept s t := by
  cases h with
  | prepare e settings he => exact kept_prepare hs he settings
  | addBuiltins e bs he => exact kept_bindBuiltins hs he _
  | addHost host h => exact kept_addHost hs h
  | child e he => exact kept_of_edited hs (.scope e [] he nofun) rfl
  | put e name v he hv =>
    exact kept_of_edited hs (.bind e name v he trivial (Value.respects_refs.2 hv)) rfl
  | atom v hv => exact kept_of_edited hs (.cell v (Value.respects_refs.2 hv)) rfl
  | closure formals body e => exact kept_of_eq hs rfl rfl rfl
  | run entry fuel out hroots h =>
    obtain ⟨hout, hext⟩ := hs.entry hroots h
    exact ⟨hout.state, hext⟩

/-- **A session keeps its state well formed** and extends it. -/
theorem Session.kept (hs : s.WellFormed) (h : Session s t) : Kept s t := by
  induction h with
  | refl => exact kept_of_eq hs rfl rfl rfl
  | tail _ huse ih => exact ih.trans (huse.kept ih.1)

end Sessions

/-- **The store stays well formed over whole sessions.** Every scope was made after its parent, every
chain of parents ends at the root, every reference leads to something that exists, also those in what
an evaluation comes to, and no scope loses a name. So following parents comes to an end, and a name
that was found from a scope is found from it ever after. -/
theorem session_well_formed {s₀ s : State} (hnew : s₀.IsNew) (h : Session s₀ s) :
    s.WellFormed ∧
      (∀ e, s.Exists (.scope e) → s.scopes.Climbs rootScope e ∧ s.scopes.root e = rootScope ∧
        ∀ name, s.scopes.Resolves name e (s.scopes.lookup e name)) ∧
      (∀ (entry : Entry) fuel out, (∀ r, entry.roots r → s.Exists r) →
        entry.run fuel s = some out → ∀ r ∈ out.refs, out.state.Exists r) ∧
      ∀ t, Session s t → ∀ e scope, s.scopes[e]? = some scope →
        (∃ scope', t.scopes[e]? = some scope' ∧ scope.Extends scope') ∧
          ∀ name, (s.scopes.lookup e name).isSome → (t.scopes.lookup e name).isSome := by
  have hs : s.WellFormed := (h.kept hnew.wellFormed).1
  refine ⟨hs, fun e he => ⟨hs.climbs he, hs.root_eq he, hs.resolves he⟩, ?_, ?_⟩
  · intro entry fuel out hroots hrun
    exact (hs.entry hroots hrun).1.refs
  · intro t ht e scope hscope
    obtain ⟨-, hext⟩ := Session.kept hs ht
    obtain ⟨scope', hscope', hscopes, -⟩ := hext.scopes e scope hscope
    exact ⟨⟨scope', hscope', hscopes⟩, fun name => hext.lookup⟩

/-- A cell that holds a closure, whose scope binds the atom of the cell. -/
theorem session_well_formed_cycle :
    ∃ s : State, Session {} s ∧ s.cells = #[.closure 0 [] (.symbol "a") 1] ∧ s.WellFormed ∧
      s.scopes.Climbs rootScope 1 ∧ (s.scopes.lookup 1 "a").isSome ∧
      ∀ t, Session s t → (t.scopes.lookup 1 "a").isSome := by
  have hnew : State.IsNew {} := ⟨rfl, rfl, nofun⟩
  have hchild : Session {} (State.newScope {} 0).2 := .single (.child 0 (by decide))
  have hatom := hchild.tail (.atom .nil nofun)
  have hput := hatom.tail (.put 1 "a" (.atom 0) (by decide) (by decide))
  obtain ⟨s, hs, hcells, hscope⟩ : ∃ s : State, Session {} s ∧
      s.cells = #[.closure 0 [] (.symbol "a") 1] ∧
      s.scopes[1]? = some { parent := some 0, bindings := [("a", .atom 0)] } := by
    refine ⟨_, hput.tail (.run (.eval 1 (.list none [.builtin Primitive.reset.builtin, .atom 0,
      .list none [.symbol "fun*", .list none [], .symbol "a"]])) 20 _ ?_ rfl), rfl, rfl⟩
    rintro r (rfl | hr)
    · decide
    · revert r
      decide
  obtain ⟨hwf, hclimb, -, hlater⟩ := session_well_formed hnew hs
  have hexists : s.Exists (.scope 1) := State.exists_of_getElem? hscope
  have hlookup : (s.scopes.lookup 1 "a").isSome := by
    rw [Scopes.lookup]
    simp only [hscope]
    rfl
  exact ⟨s, hs, hcells, hwf, (hclimb 1 hexists).1, hlookup,
    fun t ht => (hlater t ht 1 _ hscope).2 "a" hlookup⟩

end TinyLisp
