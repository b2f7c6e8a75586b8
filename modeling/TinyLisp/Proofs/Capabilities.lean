import TinyLisp.Proofs.Sessions

/-!
# Evaluation keeps to what it can reach

A reference cannot be guessed: an expression comes by one only if it is given it, finds it in a scope or
a cell that it has already, or makes what it refers to. So an evaluation changes nothing and returns
nothing of what was there before, except what it could reach.

* `Permitted`: what is reachable, and what does not exist yet.
* `Reachable.of_respects`: a set of references that leads to nothing else contains what is reachable
  from it, so reachability afterwards does not exceed what was permitted before.
* `Entry.confined`: every way into the evaluator keeps to a set of references that it begins with and
  that admits everything new.
-/

namespace TinyLisp

open Machine State

/-! ## Keeping to references -/

/-- Evaluation in the state keeps to the references `R`: they lead to no others, functions of the
embedding program make no others of them, and whatever is made is among them. -/
structure State.Confines (R : Ref → Prop) (s : State) : Prop where
  respects : s.Respects (.refs R)
  closed : (Bounds.refs R).Closed s.setup
  admits : AdmitsNew (.refs R) s

/-- The evaluation came to something within the references `R`, and everything else is as it was in
the state `s`. -/
structure Outcome.Confined (R : Ref → Prop) (s : State) (o : Outcome) : Prop where
  state : o.state.Confines R
  refs : ∀ r ∈ o.refs, R r
  grows : s.Grows (.refs R) o.state

section Confined

variable {R : Ref → Prop} {s t : State} {e : ScopeId} {fuel : Nat} {out : Outcome}

theorem State.Confines.edited (hs : s.Confines R) (h : s.Edited (.refs R) t)
    (hsetup : t.setup = s.setup) : t.Confines R :=
  ⟨h.respects hs.respects, hsetup ▸ hs.closed, hs.admits.later h.grows⟩

theorem Outcome.Confined.trans {o : Outcome} (h : s.Grows (.refs R) t) (ho : o.Confined R t) :
    o.Confined R s := ⟨ho.state, ho.refs, h.trans ho.grows⟩

theorem Outcome.Confined.reported {o : Outcome} (h : o.Confined R s) : o.reported.Confined R s := by
  have hedit : o.state.Edited (.refs R) o.reported.state :=
    .of_eq o.reported_scopes o.reported_cells
  refine ⟨h.state.edited hedit o.reported_setup, ?_, h.grows.trans hedit.grows⟩
  rw [o.reported_refs]
  exact h.refs

/-- A machine that keeps to the references does so wherever it gets to. -/
theorem Machine.Respects.confined {m m' : Machine} (hm : m.Respects (.refs R))
    (hs : m.state.Confines R) (h : Reaches m m') :
    m'.Respects (.refs R) ∧ m'.state.Confines R ∧ m.state.Grows (.refs R) m'.state := by
  obtain ⟨hend, hgrows⟩ :=
    hm.reaches hs.closed hs.admits (fun m' _ hm' _ e he => hm'.evaluates he) h
  exact ⟨hend, ⟨hend.state, setup_reaches h ▸ hs.closed, hs.admits.later hgrows⟩, hgrows⟩

theorem Machine.Respects.halts {m : Machine} {o : Outcome} (hm : m.Respects (.refs R))
    (hs : m.state.Confines R) (h : Halts m o) : o.Confined R m.state := by
  obtain ⟨hend, hconf, hgrows⟩ := hm.confined hs (halts_iff_reaches.1 h)
  exact ⟨hconf, Outcome.refs_of_respects hend, hgrows⟩

theorem State.Confines.enter (hs : s.Confines R) (he : R (.scope e)) {expr : Value}
    (hx : ∀ r ∈ expr.refs, R r) :
    (enter [] expr e [] s).Respects (.refs R) ∧ (enter [] expr e [] s).state.Confines R ∧
      s.Grows (.refs R) (enter [] expr e [] s).state := by
  have hstart : Yielded (.refs R) s (Machine.enter [] expr e [] s) :=
    enter_yielded (List.forall_mem_nil _) [] (Value.respects_refs.2 hx) he
  exact ⟨hstart.respects hs.respects (hs.admits.admits _),
    hs.edited hstart.edited (enter_move [] expr e).setup_eq, hstart.edited.grows⟩

theorem State.Confines.eval (hs : s.Confines R) (he : R (.scope e)) {expr : Value}
    (hx : ∀ r ∈ expr.refs, R r) (h : s.eval fuel e expr = some out) : out.Confined R s := by
  rw [State.eval_eq] at h
  obtain ⟨o, ho, rfl⟩ := Option.map_eq_some_iff.1 h
  obtain ⟨hm, hstart, hgrows⟩ := hs.enter he hx
  have hend := hm.halts hstart ⟨fuel, ho⟩
  exact (hend.trans hgrows).reported

theorem State.Confines.application (hs : s.Confines R) {f : Value} {args : List Value}
    (hx : ∀ r ∈ Value.refsAll (f :: args), R r) :
    Machine.Respects (.refs R) { focus := .application f args, konts := [], state := s } := by
  have hargs : RespectAll (.refs R) (f :: args) := respectAll_refs.2 hx
  exact ⟨respectAll_cons.1 hargs, List.forall_mem_nil _, hs.respects⟩

/-- **Every way into the evaluator keeps to the references that it begins with.** -/
theorem Entry.confined {entry : Entry} (hs : s.Confines R) (hroots : ∀ r, entry.roots r → R r)
    (h : entry.run fuel s = some out) : out.Confined R s := by
  cases entry with
  | eval e expr => exact hs.eval (hroots _ (.inl rfl)) (fun r hr => hroots r (.inr hr)) h
  | apply f args => exact (hs.application hroots).halts hs ⟨fuel, h⟩
  | load e file bytes failure =>
    refine load_invariant (I := fun o => o.Confined R s) ?_ ?_ h
    · intro o hrefs hscopes hcells hsetup
      have hedit : s.Edited (.refs R) o.state := .of_eq hscopes hcells
      refine ⟨hs.edited hedit hsetup, ?_, hedit.grows⟩
      rw [hrefs]
      exact nofun
    · intro o form out ho hform hout
      have hrefs : ∀ r ∈ form.refs, R r := by
        rw [hform.refs_eq]
        exact nofun
      exact (ho.state.eval (hroots _ rfl) hrefs hout).trans ho.grows

end Confined

/-! ## What is reachable -/

/-- What is reachable, and what does not exist. -/
def Permitted (s : State) (roots : Ref → Prop) (r : Ref) : Prop := Reachable s roots r ∨ ¬s.Exists r

section Reachable

variable {R roots : Ref → Prop} {s : State} {r : Ref}

/-- References that lead to nothing else contain what is reachable from them. -/
theorem Reachable.of_respects (h : Reachable s roots r) (hs : s.Respects (.refs R))
    (hroots : ∀ r, roots r → R r) : R r := by
  induction h with
  | root h => exact hroots _ h
  | parent _ hscope hp ih => exact hs.parents _ _ _ ih hscope hp
  | binding _ hscope hb hr ih =>
    exact Value.respects_refs.1 (hs.bindings _ _ ih hscope _ hb).2 _ hr
  | contents _ hcell hr ih => exact Value.respects_refs.1 (hs.cells _ _ ih hcell) _ hr

theorem Permitted.reachable (h : Permitted s roots r) (hr : s.Exists r) : Reachable s roots r :=
  h.resolve_right fun hn => hn hr

theorem respects_permitted (s : State) (roots : Ref → Prop) :
    s.Respects (.refs (Permitted s roots)) := by
  -- whatever has a parent, bindings or contents exists, so it is permitted only if it is reachable
  have hscope : ∀ {e : ScopeId} {scope : Scope}, Permitted s roots (.scope e) →
      s.scopes[e]? = some scope → Reachable s roots (.scope e) :=
    fun he h => he.reachable (Array.getElem?_eq_some_iff.1 h).1
  refine ⟨fun e scope p he h hp => ?_, fun e scope he h b hb => ?_, fun c v hc h => ?_⟩
  · exact .inl (.parent (hscope he h) h hp)
  · exact ⟨trivial, Value.respects_refs.2 fun r hr => .inl (.binding (hscope he h) h hb hr)⟩
  · have hcell : Reachable s roots (.cell c) :=
      Permitted.reachable hc (Array.getElem?_eq_some_iff.1 h).1
    exact Value.respects_refs.2 fun r hr => .inl (.contents hcell h hr)

/-- Evaluation that begins with some references keeps to what is permitted. -/
theorem confines_permitted (hhosts : ∀ host ∈ s.hosts, Host.Within (Reachable s roots) host) :
    s.Confines (Permitted s roots) where
  respects := respects_permitted s roots
  closed := Bounds.refs_closed hhosts fun _ => .inl
  admits := ⟨fun _ he => .inr (Nat.not_lt.2 he), fun _ hc => .inr (Nat.not_lt.2 hc)⟩

end Reachable

/-- **Evaluation is confined to what it can reach.** Whatever way it begins and whatever it comes to, a
cell whose contents it changed and a scope that it changed were reachable before, and so was everything
that existed and is reachable from its value or its failure. Functions of the embedding program, if
there are any, may hold only what is reachable. -/
theorem evaluation_confined (s : State) (entry : Entry)
    (hhosts : ∀ host ∈ s.hosts, Host.Within (Reachable s entry.roots) host) {fuel : Nat}
    {out : Outcome} (h : entry.run fuel s = some out) :
    (∀ c v, s.cells[c]? = some v → out.state.cells[c]? ≠ some v →
      Reachable s entry.roots (.cell c)) ∧
    (∀ e scope, s.scopes[e]? = some scope → out.state.scopes[e]? ≠ some scope →
      Reachable s entry.roots (.scope e)) ∧
    ∀ r, s.Exists r → Reachable out.state (· ∈ out.refs) r → Reachable s entry.roots r := by
  have hroots : ∀ r, entry.roots r → Permitted s entry.roots r := fun _ hr => .inl (.root hr)
  have hout := Entry.confined (confines_permitted hhosts) hroots h
  refine ⟨?_, ?_, ?_⟩
  · intro c v hc hne
    obtain ⟨v', hc', hkept⟩ := hout.grows.cells c v hc
    -- a cell that is not permitted would have kept its contents
    by_contra hn
    have hout : ¬(Bounds.refs (Permitted s entry.roots)).cell c :=
      fun hp => hn (Permitted.reachable hp (Array.getElem?_eq_some_iff.1 hc).1)
    rw [hkept hout] at hc'
    exact hne hc'
  · intro e scope he hne
    obtain ⟨scope', he', -, hkept⟩ := hout.grows.scopes e scope he
    by_contra hn
    have hout : ¬(Bounds.refs (Permitted s entry.roots)).current e :=
      fun hp => hn (Permitted.reachable hp (Array.getElem?_eq_some_iff.1 he).1)
    rw [hkept hout] at he'
    exact hne he'
  · intro r hr hreach
    have hp := hreach.of_respects hout.state.respects hout.refs
    exact Permitted.reachable hp hr

/-- A cell that is changed through the atom in another cell was reachable by way of that one. -/
theorem evaluation_confined_nested : ∃ (s : State) (entry : Entry) (out : Outcome),
    s.cells = #[.atom 1, .int 3, .int 4] ∧
    entry = .eval 0 (.list none [.builtin Primitive.reset.builtin,
      .list none [.builtin Primitive.deref.builtin, .atom 0], .int 9]) ∧
    entry.run 30 s = some out ∧ out.state.cells = #[.atom 1, .int 9, .int 4] ∧
    Reachable s entry.roots (.cell 1) := by
  obtain ⟨s, entry, out, hcells, hhosts, hentry, hrun, hout⟩ :
      ∃ (s : State) (entry : Entry) (out : Outcome),
        s.cells = #[.atom 1, .int 3, .int 4] ∧ s.hosts = #[] ∧
        entry = .eval 0 (.list none [.builtin Primitive.reset.builtin,
          .list none [.builtin Primitive.deref.builtin, .atom 0], .int 9]) ∧
        entry.run 30 s = some out ∧ out.state.cells = #[.atom 1, .int 9, .int 4] :=
    ⟨{ cells := #[.atom 1, .int 3, .int 4] }, _, _, rfl, rfl, rfl, rfl, rfl⟩
  have hnone : ∀ host ∈ s.hosts, Host.Within (Reachable s entry.roots) host := by
    rw [hhosts]
    exact nofun
  refine ⟨s, entry, out, hcells, hentry, hrun, hout, ?_⟩
  refine (evaluation_confined s entry hnone hrun).1 1 (.int 3) ?_ ?_
  · rw [hcells]
    rfl
  · rw [hout]
    simp [Value.int]

end TinyLisp
