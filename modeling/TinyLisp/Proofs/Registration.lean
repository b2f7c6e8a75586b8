import TinyLisp.Proofs.Sessions
import TinyLisp.Proofs.Shadowing

/-!
# Binding built-in functions

Built-in functions are bound one after the other, up to the first that cannot be bound: its name can
be looked up already, an earlier function of the list has it, or it is the name of a special form.

* `State.Gains`: the scope has some built-in functions in addition, and nothing else has changed.
* `bindingFault_of_gains`: what stands against the next function, in terms of the state before the
  first.
* `bindBuiltins_gains`: functions of which none is blocked are all bound.
* `addBuiltins_prefix`: exactly those before the first that is blocked are bound, and an interpreter
  cannot be set up twice.
-/

namespace TinyLisp

open State

/-! ## What a list of built-in functions adds -/

/-- Whether a function takes this number of arguments. -/
def Arity.Admits : Arity → Nat → Prop
  | .any, _ => True
  | .exactly n, k => n = k

/-- The function runs on as many arguments as it takes. Called with any other number it fails, and
does nothing. -/
structure Builtin.ChecksArity (b : Builtin) : Prop where
  runs : ∀ args s, b.arity.Admits args.length → b.run args s = b.runRoutine args s
  refuses : ∀ n args s, b.arity = .exactly n → n ≠ (args.length : Int) →
    b.run args s = (.fault (.arityMismatch b.name n args.length), s)

theorem Builtin.checksArity (b : Builtin) : b.ChecksArity := by
  constructor
  · intro args s h
    unfold Builtin.run
    cases harity : b.arity with
    | any => rfl
    | exactly n =>
      rw [harity] at h
      exact if_pos h
  · intro n args s harity hn
    unfold Builtin.run
    rw [harity]
    exact if_neg hn

/-- The state `t` is `s` with the built-in functions `bs` in the scope `e`, each under its name, which
the scope did not bind before. -/
structure State.Gains (s : State) (e : ScopeId) (bs : List Builtin) (t : State) : Prop where
  rest : t = { s with scopes := t.scopes }
  others : ∀ d : ScopeId, d ≠ e → t.scopes[d]? = s.scopes[d]?
  parent : t.scopes[e]?.map Scope.parent = s.scopes[e]?.map Scope.parent
  gained : ∀ b ∈ bs, s.scopes.bound? e b.name = none ∧
    t.scopes.bound? e b.name = some (.builtin b) ∧ b.ChecksArity
  kept : ∀ name, (∀ b ∈ bs, b.name ≠ name) →
    t.scopes.bound? e name = s.scopes.bound? e name
  size : t.scopes.sizeAt e = s.scopes.sizeAt e + bs.length

/-- The name can be looked up from the scope `e`, or a function of `before` has it. -/
def State.Taken (s : State) (e : ScopeId) (before : List Builtin) (name : Text) : Prop :=
  (∃ chain, s.scopes.Chain e chain ∧ ∃ d ∈ chain, (s.scopes.bound? d name).isSome) ∨
    ∃ b ∈ before, b.name = name

/-- A function of this name cannot be bound in the scope `e` behind the functions `before`. -/
def State.Blocked (s : State) (e : ScopeId) (before : List Builtin) (name : Text) : Prop :=
  s.Taken e before name ∨ ∃ form : SpecialForm, form.name = name

section Gains

variable {s t u : State} {e : ScopeId} {before bs : List Builtin} {b : Builtin}

theorem State.Gains.refl (s : State) (e : ScopeId) : s.Gains e [] s :=
  ⟨rfl, fun _ _ => rfl, rfl, nofun, fun _ _ => rfl, rfl⟩

/-- What another scope binds is as it was, and so is every binding that there was. -/
theorem State.Gains.bound_kept (h : s.Gains e bs t) {d : ScopeId} {name : Text} {v : Value}
    (hv : s.scopes.bound? d name = some v) : t.scopes.bound? d name = some v := by
  by_cases hd : d = e
  · subst hd
    rw [h.kept name fun b hb hname => ?_, hv]
    have hnone := (h.gained b hb).1
    rw [hname, hv] at hnone
    cases hnone
  · rw [Scopes.bound?, h.others d hd]
    exact hv

theorem State.Gains.parents (h : s.Gains e bs t) (d : ScopeId) :
    t.scopes[d]?.map Scope.parent = s.scopes[d]?.map Scope.parent := by
  by_cases hd : d = e
  · rw [hd]
    exact h.parent
  · rw [h.others d hd]

theorem Scope.size_put {scope : Scope} {name : Text} {v : Value} (h : scope.find? name = none) :
    (scope.put name v).size = scope.size + 1 := by
  unfold Scope.put
  rw [h]
  rfl

/-- One more function, under a name that the scope does not bind. -/
theorem State.Gains.bind (h : s.Gains e before t) (he : e < t.scopes.size)
    (hb : t.scopes.bound? e b.name = none) :
    s.Gains e (before ++ [b]) (t.bind e b.name (.builtin b)) := by
  have hbound : ∀ name, (t.bind e b.name (.builtin b)).scopes.bound? e name =
      if name = b.name then some (.builtin b) else t.scopes.bound? e name := by
    intro name
    rw [State.bind, Scopes.bound_put he]
    simp only [true_and]
  -- no function before has this name
  have hnew : ∀ c ∈ before, c.name ≠ b.name := by
    intro c hc hname
    have hsome := (h.gained c hc).2.1
    rw [hname, hb] at hsome
    cases hsome
  refine ⟨?_, fun d hd => ?_, ?_, fun c hc => ?_, fun name hname => ?_, ?_⟩
  · rw [State.bind, h.rest]
  · rw [State.bind, Scopes.getElem?_put, if_neg (Ne.symm hd), h.others d hd]
  · rw [State.bind, Scopes.parents_put, h.parent]
  · rcases List.mem_append.1 hc with hc | hc
    · obtain ⟨hnone, hsome, hchecks⟩ := h.gained c hc
      rw [hbound, if_neg (hnew c hc)]
      exact ⟨hnone, hsome, hchecks⟩
    · obtain rfl := List.mem_singleton.1 hc
      rw [hbound, if_pos rfl, ← h.kept _ hnew]
      exact ⟨hb, rfl, c.checksArity⟩
  · have hne : name ≠ b.name := fun heq => hname b (by simp) heq.symm
    rw [hbound, if_neg hne]
    exact h.kept name fun c hc => hname c (List.mem_append_left _ hc)
  · have hget := Array.getElem?_eq_getElem he
    rw [Scopes.bound?, hget] at hb
    have hsize : (t.bind e b.name (.builtin b)).scopes.sizeAt e = t.scopes.sizeAt e + 1 := by
      rw [State.bind, Scopes.sizeAt, Scopes.sizeAt, Scopes.getElem?_put, if_pos rfl, hget]
      exact Scope.size_put hb
    rw [hsize, h.size, List.length_append, List.length_singleton, Nat.add_assoc]

/-- **What can be looked up behind some functions**: their names, and what could be looked up
before. -/
theorem State.Gains.isSome_lookup_iff (h : s.Gains e before t) (hfirst : s.scopes.ParentsFirst)
    (he : e < s.scopes.size) (name : Text) :
    (t.scopes.lookup e name).isSome ↔ s.Taken e before name := by
  obtain ⟨chain, hchain⟩ := hfirst.exists_chain he
  have hchain' : t.scopes.Chain e chain := hchain.of_parents h.parents
  rw [hchain'.isSome_lookup_iff (hfirst.of_parents h.parents)]
  constructor
  · rintro ⟨d, hd, hbound⟩
    by_cases hnew : ∃ b ∈ before, b.name = name
    · exact .inr hnew
    · refine .inl ⟨chain, hchain, d, hd, ?_⟩
      by_cases hde : d = e
      · subst hde
        rwa [h.kept name fun b hb hname => hnew ⟨b, hb, hname⟩] at hbound
      · rwa [Scopes.bound?, h.others d hde] at hbound
  · rintro (⟨chain', hchain₀, d, hd, hbound⟩ | ⟨b, hb, rfl⟩)
    · obtain rfl := hchain.unique hchain₀
      obtain ⟨v, hv⟩ := Option.isSome_iff_exists.1 hbound
      exact ⟨d, hd, by rw [h.bound_kept hv]; rfl⟩
    · exact ⟨e, hchain.mem_self, by rw [(h.gained b hb).2.1]; rfl⟩

theorem SpecialForm.isSome_ofName_iff (name : Text) :
    (SpecialForm.ofName? name).isSome ↔ ∃ form : SpecialForm, form.name = name := by
  unfold SpecialForm.ofName?
  rw [List.find?_isSome]
  constructor
  · rintro ⟨form, -, hform⟩
    exact ⟨form, by simpa using hform⟩
  · rintro ⟨form, rfl⟩
    exact ⟨form, by cases form <;> decide, by simp⟩

/-- **What stands against the next function**, in terms of the state before the first. -/
theorem bindingFault_of_gains (h : s.Gains e before t) (hfirst : s.scopes.ParentsFirst)
    (he : e < s.scopes.size) (b : Builtin) :
    (¬s.Blocked e before b.name → t.bindingFault? e b = none) ∧
    (s.Taken e before b.name →
      t.bindingFault? e b = some (.plain ("symbol already defined: " ++ b.name))) ∧
    (s.Blocked e before b.name → ¬s.Taken e before b.name →
      t.bindingFault? e b = some (.plain ("builtin name is a special operator: " ++ b.name))) := by
  have htaken := h.isSome_lookup_iff hfirst he b.name
  have hform := SpecialForm.isSome_ofName_iff b.name
  unfold State.bindingFault?
  refine ⟨fun hfree => ?_, fun hname => if_pos (htaken.2 hname), fun hblocked hnot => ?_⟩
  · rw [if_neg fun hname => hfree (.inl (htaken.1 hname)),
      if_neg fun hname => hfree (.inr (hform.1 hname))]
  · rw [if_neg fun hname => hnot (htaken.1 hname), if_pos (hform.2 (hblocked.resolve_left hnot))]

/-- **Functions of which none is blocked are all bound.** -/
theorem bindBuiltins_gains (hfirst : s.scopes.ParentsFirst) (he : e < s.scopes.size)
    (h : s.Gains e before t)
    (hfree : ∀ k b, bs[k]? = some b → ¬s.Blocked e (before ++ bs.take k) b.name) :
    ∃ u, t.bindBuiltins e bs = (none, u) ∧ s.Gains e (before ++ bs) u := by
  induction bs generalizing before t with
  | nil => exact ⟨t, rfl, by rwa [List.append_nil]⟩
  | cons b bs ih =>
    have hb : ¬s.Blocked e before b.name := by simpa using hfree 0 b rfl
    have hsize : e < t.scopes.size := by
      have hparent := h.parent
      rw [Array.getElem?_eq_getElem he] at hparent
      obtain ⟨scope, hscope, -⟩ := Option.map_eq_some_iff.1 hparent
      exact (Array.getElem?_eq_some_iff.1 hscope).1
    -- what cannot be looked up from the scope is not bound in it
    have hnone : t.scopes.bound? e b.name = none := by
      obtain ⟨chain, hchain⟩ := (hfirst.of_parents h.parents).exists_chain hsize
      by_contra hne
      have hlookup := (hchain.isSome_lookup_iff (hfirst.of_parents h.parents)).2
        ⟨e, hchain.mem_self, Option.isSome_iff_ne_none.2 hne⟩
      exact hb (.inl ((h.isSome_lookup_iff hfirst he b.name).1 hlookup))
    have hfree' : ∀ k c, bs[k]? = some c →
        ¬s.Blocked e (before ++ [b] ++ bs.take k) c.name := by
      intro k c hc
      simpa using hfree (k + 1) c hc
    obtain ⟨u, hu, hgains⟩ := ih (h.bind hsize hnone) hfree'
    refine ⟨u, ?_, by simpa using hgains⟩
    rw [State.bindBuiltins, (bindingFault_of_gains h hfirst he b).1 hb]
    exact hu

theorem bindBuiltins_append {done rest : List Builtin}
    (h : t.bindBuiltins e done = (none, u)) :
    t.bindBuiltins e (done ++ rest) = u.bindBuiltins e rest := by
  induction done generalizing t with
  | nil =>
    obtain rfl := (Prod.mk.inj h).2
    rfl
  | cons b done ih =>
    rw [List.cons_append, State.bindBuiltins]
    rw [State.bindBuiltins] at h
    cases hfault : t.bindingFault? e b with
    | some fault =>
      rw [hfault] at h
      cases h
    | none =>
      rw [hfault] at h
      exact ih h

/-- **Up to the first function that is blocked, all are bound**; then binding fails. -/
theorem bindBuiltins_blocked (hfirst : s.scopes.ParentsFirst) (he : e < s.scopes.size) {k : Nat}
    (hb : bs[k]? = some b) (hblocked : s.Blocked e (bs.take k) b.name)
    (hfree : ∀ j c, j < k → bs[j]? = some c → ¬s.Blocked e (bs.take j) c.name) :
    ∃ u fault, s.bindBuiltins e bs = (some fault, u) ∧ u.bindingFault? e b = some fault ∧
      s.Gains e (bs.take k) u := by
  have hk : k < bs.length := (List.getElem?_eq_some_iff.1 hb).1
  have hfree' : ∀ j c, (bs.take k)[j]? = some c →
      ¬s.Blocked e ([] ++ (bs.take k).take j) c.name := by
    intro j c hc
    have hj : j < k := by
      have hlt := (List.getElem?_eq_some_iff.1 hc).1
      rw [List.length_take] at hlt
      omega
    rw [List.getElem?_take_of_lt hj] at hc
    rw [List.nil_append, List.take_take, Nat.min_eq_left (Nat.le_of_lt hj)]
    exact hfree j c hj hc
  obtain ⟨u, hu, hgains⟩ := bindBuiltins_gains hfirst he (.refl s e) hfree'
  rw [List.nil_append] at hgains
  have hsplit : bs = bs.take k ++ b :: bs.drop (k + 1) := by
    rw [← (List.getElem?_eq_some_iff.1 hb).2, ← List.drop_eq_getElem_cons hk,
      List.take_append_drop]
  obtain ⟨-, htaken, hspecial⟩ := bindingFault_of_gains hgains hfirst he b
  obtain ⟨fault, hfault⟩ : ∃ fault, u.bindingFault? e b = some fault := by
    by_cases h : s.Taken e (bs.take k) b.name
    · exact ⟨_, htaken h⟩
    · exact ⟨_, hspecial hblocked h⟩
  refine ⟨u, fault, ?_, hfault, hgains⟩
  rw [hsplit, bindBuiltins_append hu, State.bindBuiltins, hfault]

/-- If some function is blocked, there is a first one. -/
theorem exists_first_blocked (h : ¬∀ k b, bs[k]? = some b → ¬s.Blocked e (bs.take k) b.name) :
    ∃ k b, bs[k]? = some b ∧ s.Blocked e (bs.take k) b.name ∧
      ∀ j c, j < k → bs[j]? = some c → ¬s.Blocked e (bs.take j) c.name := by
  classical
  have hsome : ∃ k, ∃ b, bs[k]? = some b ∧ s.Blocked e (bs.take k) b.name := by
    push Not at h
    exact h
  obtain ⟨b, hb, hblocked⟩ := Nat.find_spec hsome
  refine ⟨Nat.find hsome, b, hb, hblocked, fun j c hj hc hblocked => ?_⟩
  exact Nat.find_min hsome hj ⟨c, hc, hblocked⟩

end Gains

/-! ## Setting up twice -/

section Twice

variable {s t : State} {e : ScopeId} {settings : List Setting}

theorem State.WellFormed.parentsFirst (hs : s.WellFormed) : s.scopes.ParentsFirst :=
  fun _ _ _ => hs.parent_lt

/-- The first of some functions that have been bound can be looked up. -/
theorem isSome_lookup_of_bindBuiltins (hs : s.WellFormed) (he : s.Exists (.scope e)) (b : Builtin)
    (bs : List Builtin) (h : (s.bindBuiltins e (b :: bs)).1 = none) :
    ((s.bindBuiltins e (b :: bs)).2.scopes.lookup e b.name).isSome := by
  rw [State.bindBuiltins] at h ⊢
  cases hfault : s.bindingFault? e b with
  | some fault =>
    rw [hfault] at h
    cases h
  | none =>
    have hbind : Kept s (s.bind e b.name (.builtin b)) :=
      kept_of_edited hs (.bind e b.name _ he trivial (.builtin b)) rfl
    obtain ⟨chain, hchain⟩ := hs.parentsFirst.exists_chain he
    have hsees : s.scopes.Sees e e b.name := by
      cases hchain with
      | root hscope hp => exact ⟨[], [], .root hscope hp, nofun⟩
      | parent hscope hp habove => exact ⟨[], _, .parent hscope hp habove, nofun⟩
    have hlookup : ((s.bind e b.name (.builtin b)).scopes.lookup e b.name).isSome :=
      Option.isSome_of_eq_some (Scopes.lookup_put_of_sees hs.parentsFirst hsees _)
    exact (kept_bindBuiltins hbind.1 (hbind.2.exists _ he) bs).2.lookup hlookup

/-- The library begins with addition. -/
theorem library_eq (s : State) : ∃ bs, s.library = Primitive.add.builtin :: bs := ⟨_, rfl⟩

theorem isSome_lookup_of_prepare (hs : s.WellFormed) (he : s.Exists (.scope e))
    (h : (s.prepare e settings).1 = none) :
    ((s.prepare e settings).2.scopes.lookup e Primitive.add.name).isSome := by
  obtain ⟨hscopes, hcells, hhosts⟩ := State.configureAll_store (s := s) settings
  have hconf : Kept s (s.configureAll settings).2 := kept_of_eq hs hscopes hcells hhosts
  unfold State.prepare at h ⊢
  split at h
  · cases h
  · rename_i hroot
    rw [if_neg hroot]
    cases hc : s.configureAll settings with
    | mk fault u =>
      rw [hc] at h hconf
      cases fault with
      | some fault => cases h
      | none =>
        obtain ⟨bs, hbs⟩ := library_eq u
        have hadd : u.addBuiltins e [] = u.bindBuiltins e (Primitive.add.builtin :: bs) := by
          rw [← hbs]
          rfl
        have hlookup := isSome_lookup_of_bindBuiltins hconf.1 (hconf.2.exists _ he)
          Primitive.add.builtin bs
        simp only [hadd] at h ⊢
        cases hb : u.bindBuiltins e (Primitive.add.builtin :: bs) with
        | mk fault v =>
          rw [hb] at h hlookup
          cases fault with
          | some fault => cases h
          | none =>
            simp only [State.scopes_debug]
            exact hlookup rfl

/-- **An interpreter whose addition can be looked up cannot be set up**, and no binding is altered. -/
theorem prepare_fails (h : (t.scopes.lookup e Primitive.add.name).isSome)
    (settings : List Setting) :
    ∃ fault, (t.prepare e settings).1 = some fault ∧
      (t.prepare e settings).2.scopes = t.scopes := by
  obtain ⟨hscopes, -, -⟩ := State.configureAll_store (s := t) settings
  unfold State.prepare
  split
  · exact ⟨_, rfl, rfl⟩
  · cases hc : t.configureAll settings with
    | mk fault u =>
      rw [hc] at hscopes
      cases fault with
      | some fault => exact ⟨fault, rfl, hscopes⟩
      | none =>
        obtain ⟨bs, hbs⟩ := library_eq u
        have hfault : u.bindingFault? e Primitive.add.builtin =
            some (.plain ("symbol already defined: " ++ Primitive.add.name)) := by
          refine if_pos ?_
          rw [hscopes]
          exact h
        have hadd : u.addBuiltins e [] =
            (some (.plain ("symbol already defined: " ++ Primitive.add.name)), u) := by
          rw [State.addBuiltins, List.isEmpty_nil, if_pos rfl, hbs, State.bindBuiltins, hfault]
        simp only [hadd]
        exact ⟨_, rfl, hscopes⟩

end Twice

/-- **Built-in functions are bound up to the first that is blocked.** A function is blocked if its name
can be looked up already, if an earlier function of the list has it, or if it is the name of a special
form. If none is, all of them are bound and nothing else changes; otherwise binding fails with the
name of the first that is, the functions before it are bound, and nothing else changes. No binding
that there was is altered. So an interpreter that has been set up cannot be set up again, however
much later, and trying to alters no binding. -/
theorem addBuiltins_prefix {s : State} (hs : s.WellFormed) {e : ScopeId} (he : s.Exists (.scope e))
    {bs : List Builtin} (hbs : bs ≠ []) :
    ((∀ k b, bs[k]? = some b → ¬s.Blocked e (bs.take k) b.name) →
      (s.addBuiltins e bs).1 = none ∧ s.Gains e bs (s.addBuiltins e bs).2) ∧
    (∀ k b, bs[k]? = some b → s.Blocked e (bs.take k) b.name →
      (∀ j c, j < k → bs[j]? = some c → ¬s.Blocked e (bs.take j) c.name) →
      (s.Taken e (bs.take k) b.name → (s.addBuiltins e bs).1 =
        some (.plain ("symbol already defined: " ++ b.name))) ∧
      (¬s.Taken e (bs.take k) b.name → (s.addBuiltins e bs).1 =
        some (.plain ("builtin name is a special operator: " ++ b.name))) ∧
      s.Gains e (bs.take k) (s.addBuiltins e bs).2) ∧
    (∀ d name v, s.scopes.bound? d name = some v →
      (s.addBuiltins e bs).2.scopes.bound? d name = some v) ∧
    ∀ settings t, (s.prepare e settings).1 = none → Session (s.prepare e settings).2 t →
      ∀ settings', ∃ fault, (t.prepare e settings').1 = some fault ∧
        (t.prepare e settings').2.scopes = t.scopes := by
  have hfirst := hs.parentsFirst
  have hadd : s.addBuiltins e bs = s.bindBuiltins e bs := by
    cases bs with
    | nil => exact absurd rfl hbs
    | cons b bs => rfl
  rw [hadd]
  have hall : (∀ k b, bs[k]? = some b → ¬s.Blocked e (bs.take k) b.name) →
      (s.bindBuiltins e bs).1 = none ∧ s.Gains e bs (s.bindBuiltins e bs).2 := by
    intro hfree
    obtain ⟨u, hu, hgains⟩ := bindBuiltins_gains hfirst he (.refl s e) hfree
    rw [hu]
    exact ⟨rfl, hgains⟩
  refine ⟨hall, fun k b hb hblocked hfree => ?_, fun d name v hv => ?_, ?_⟩
  · obtain ⟨u, fault, hu, hfault, hgains⟩ := bindBuiltins_blocked hfirst he hb hblocked hfree
    obtain ⟨-, htaken, hspecial⟩ := bindingFault_of_gains hgains hfirst he b
    rw [hu, ← hfault]
    exact ⟨htaken, hspecial hblocked, hgains⟩
  · -- in either case the functions that were bound are a part of the list in front
    by_cases hfree : ∀ k b, bs[k]? = some b → ¬s.Blocked e (bs.take k) b.name
    · exact (hall hfree).2.bound_kept hv
    · obtain ⟨k, b, hb, hblocked, hfree⟩ := exists_first_blocked hfree
      obtain ⟨u, fault, hu, -, hgains⟩ := bindBuiltins_blocked hfirst he hb hblocked hfree
      rw [hu]
      exact hgains.bound_kept hv
  · intro settings t hprepared hsession settings'
    have hkept := kept_prepare hs he settings
    obtain ⟨-, hext⟩ := Session.kept hkept.1 hsession
    exact prepare_fails (hext.lookup (isSome_lookup_of_prepare hs he hprepared)) settings'

/-- Below the root, the third of three functions has the name of the first. -/
theorem addBuiltins_prefix_repeated : ∃ (s : State) (f g : Builtin), s.WellFormed ∧
    s.Exists (.scope 1) ∧ f.name = "f" ∧ g.name = "g" ∧
    (s.addBuiltins 1 [f, g, f]).1 = some (.plain ("symbol already defined: " ++ "f")) ∧
    s.Gains 1 [f, g] (s.addBuiltins 1 [f, g, f]).2 := by
  let s : State := (State.newScope {} 0).2
  let f : Builtin := { name := "f", arity := .exactly 1, routine := .host 0 }
  let g : Builtin := { name := "g", arity := .any, routine := .host 1 }
  have hnew : State.IsNew {} := ⟨rfl, rfl, nofun⟩
  have hs : s.WellFormed := (Session.kept hnew.wellFormed (.single (.child 0 (by decide)))).1
  have hempty : ∀ d name, s.scopes.bound? d name = none
    | 0, _ => rfl
    | 1, _ => rfl
    | _ + 2, _ => rfl
  have hfree : ∀ before (b : Builtin), (∀ c ∈ before, c.name ≠ b.name) →
      (∀ form : SpecialForm, form.name ≠ b.name) → ¬s.Blocked 1 before b.name := by
    rintro before b hne hform ((⟨chain, -, d, -, hd⟩ | ⟨c, hc, hname⟩) | ⟨form, hname⟩)
    · rw [hempty] at hd
      cases hd
    · exact hne c hc hname
    · exact hform form hname
  obtain ⟨-, hblocked, -, -⟩ := addBuiltins_prefix hs (e := 1) (by decide)
    (List.cons_ne_nil f [g, f])
  have htaken : s.Taken 1 [f, g] f.name := .inr ⟨f, List.mem_cons_self, rfl⟩
  obtain ⟨hfault, -, hgains⟩ := hblocked 2 f rfl (.inl htaken) fun j c hj hc => by
    interval_cases j
    · obtain rfl : f = c := Option.some.inj hc
      exact hfree [] f nofun fun form => by cases form <;> decide
    · obtain rfl : g = c := Option.some.inj hc
      exact hfree [f] g (by decide) fun form => by cases form <;> decide
  exact ⟨s, f, g, hs, by decide, rfl, rfl, hfault htaken, hgains⟩

end TinyLisp
