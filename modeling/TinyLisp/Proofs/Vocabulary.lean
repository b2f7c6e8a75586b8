import TinyLisp.Proofs.Surroundings
import TinyLisp.Proofs.Validity

/-!
# What programs can make of the scalars they are given

A program makes scalars in few ways: it spells them, computes integers and truth values, joins
strings, and reads files. A `Vocabulary` is a set of scalars that is closed under these. If all
values of an interpreter are made of such scalars, they stay so, as long as the files that are
read hold nothing else.

* `State.OpensOnly`: the files that were read on the way from one state to another.
* `Files.sifted`: files without the contents that are not wanted. What a step does in them is what
  it does in all files, unless it reads one of those contents.
* `speaks_step`, `speaks_reaches`: a machine keeps to a vocabulary along every run.
* `Entry.Visits.speaks`, `speaks_entry`: so does whatever is read from text and evaluated.
-/

namespace TinyLisp

open Machine State

/-! ## Later states -/

/-- The state `t` comes after `s`: the interpreter is set up as it was, and further effects may have
been had. -/
structure State.Later (s t : State) : Prop where
  effects : ∃ new, t.effects = new ++ s.effects
  setup : t.setup = s.setup

/-- Every file that was read on the way from `s` to `t` holds a text of `F`. -/
def State.OpensOnly (F : Text → Prop) (s t : State) : Prop :=
  ∀ path bytes, s.Opens t path → s.files.read path = .ok bytes → F bytes

section Later

variable {s t u : State} {m m' : Machine} {e : ScopeId} {fuel : Nat} {out : Outcome}

theorem State.Later.refl (s : State) : s.Later s := ⟨⟨[], rfl⟩, rfl⟩

/-- Later states of later states are later states. -/
theorem State.Later.trans (h : s.Later t) (h' : t.Later u) : s.Later u := by
  obtain ⟨new, hnew⟩ := h.effects
  obtain ⟨new', hnew'⟩ := h'.effects
  refine ⟨⟨new' ++ new, ?_⟩, h'.setup.trans h.setup⟩
  rw [hnew', hnew, List.append_assoc]

/-- The files stay. -/
theorem State.Later.files (h : s.Later t) : t.files = s.files := congrArg Setup.files h.setup

/-- What was read in the first part of the way. -/
theorem State.OpensOnly.before {F : Text → Prop} (h : s.OpensOnly F u) (ht : t.Later u) :
    s.OpensOnly F t := by
  rintro path bytes ⟨new, hnew, hopened⟩
  obtain ⟨new', hnew'⟩ := ht.effects
  refine h path bytes ⟨new' ++ new, ?_, List.mem_append_right new' hopened⟩
  rw [hnew', hnew, List.append_assoc]

/-- What was read in the last part of the way. -/
theorem State.OpensOnly.after {F : Text → Prop} (h : s.OpensOnly F u) (ht : s.Later t) :
    t.OpensOnly F u := by
  rintro path bytes ⟨new', hnew', hopened⟩ hread
  obtain ⟨new, hnew⟩ := ht.effects
  refine h path bytes ⟨new' ++ new, ?_, List.mem_append_left new hopened⟩ (ht.files ▸ hread)
  rw [hnew', hnew, List.append_assoc]

theorem later_debug (s : State) (message : Text) (fields : List (Text × Log.Field)) :
    s.Later (s.debug message fields) := by
  refine ⟨?_, (s.quiet_debug message fields).2⟩
  unfold State.debug logRecord
  split
  · exact ⟨[_], rfl⟩
  · exact ⟨[], rfl⟩

/-- Entering a frame leads to a later state. -/
theorem later_enter (expr : Value) (e : ScopeId) (s : State) :
    s.Later (enter [] expr e [] s).state := by
  refine ⟨?_, (enter_move [] expr e).setup_eq⟩
  unfold enter
  split
  · exact ⟨[], rfl⟩
  · exact (later_debug s _ _).effects

theorem Value.respects_all (v : Value) : v.Respects (.refs fun _ => True) :=
  Value.respects_refs.2 fun _ _ => trivial

theorem respectAll_all (vs : List Value) : RespectAll (.refs fun _ => True) vs :=
  fun v _ => v.respects_all

/-- Where every reference is allowed, nothing leads to one that is not. -/
theorem State.confines_all (s : State) : s.Confines fun _ => True where
  respects := ⟨fun _ _ _ _ _ _ => trivial, fun _ _ _ _ b _ => ⟨trivial, b.2.respects_all⟩,
    fun _ v _ _ => v.respects_all⟩
  closed := @Bounds.refs_closed _ _ (fun _ => True) (fun _ _ _ _ _ _ => .inr trivial) fun _ => id
  admits := ⟨fun _ _ => trivial, fun _ _ => trivial⟩

/-- Every machine respects the bounds that allow everything. -/
theorem Machine.respects_all (m : Machine) : m.Respects (.refs fun _ => True) := by
  refine ⟨?_, fun k _ => ?_, m.state.confines_all.respects⟩
  · cases m.focus with
    | expression expr e => exact ⟨expr.respects_all, trivial⟩
    | operand expr e => exact ⟨expr.respects_all, trivial⟩
    | application f args => exact ⟨f.respects_all, respectAll_all args⟩
    | value v => exact v.respects_all
    | failure f => exact Fault.respects_refs.2 fun _ _ => trivial
  · cases k with
    | leave => trivial
    | callee head args e => exact ⟨respectAll_all args, trivial⟩
    | argument f name done ahead e =>
      exact ⟨f.respects_all, respectAll_all done, respectAll_all ahead, trivial⟩
    | define name e => exact ⟨trivial, trivial⟩
    | binding site name ahead body e =>
      exact ⟨trivial, respectAll_all ahead, body.respects_all, trivial⟩
    | sequence ahead e => exact ⟨respectAll_all ahead, trivial⟩
    | branch yes no e => exact ⟨yes.respects_all, fun v _ => v.respects_all, trivial⟩
    | evaluate e => trivial
    | update c => trivial

/-- A step only adds effects: the machine is in step with itself. -/
theorem later_step (h : m.step = .next m') : m.state.Later m'.state := by
  refine ⟨?_, setup_step h⟩
  have hself : m.InStep (fun _ => True) m.state.effects m.state.effects m :=
    ⟨rfl, rfl, ⟨⟨rfl, rfl, rfl, fun _ _ => rfl, fun _ _ => rfl⟩, [], rfl, rfl⟩⟩
  have hstep := step_inStep hself m.respects_all m.state.confines_all
  rw [h] at hstep
  cases hstep with
  | next hm' =>
    obtain ⟨new, hnew, -⟩ := hm'.state.effects
    exact ⟨new, hnew⟩

/-- Runs lead to later states. -/
theorem later_reaches (h : Reaches m m') : m.state.Later m'.state := by
  induction h with
  | refl => exact .refl _
  | tail _ hstep ih => exact ih.trans (later_step hstep)

theorem later_reported (o : Outcome) : o.state.Later o.reported.state := by
  unfold Outcome.reported
  split
  · exact .refl _
  · exact later_debug _ _ _

/-- Evaluation leads to a later state. -/
theorem later_eval {expr : Value} (h : s.eval fuel e expr = some out) : s.Later out.state := by
  rw [State.eval_eq] at h
  obtain ⟨o, ho, rfl⟩ := Option.map_eq_some_iff.1 h
  have hrun : (enter [] expr e [] s).state.Later o.state := later_reaches (reaches_of_run ho)
  exact ((later_enter expr e s).trans hrun).trans (later_reported o)

theorem later_evalAll {last : Value} {forms : List Value}
    (h : s.evalAll fuel e last forms = some out) : s.Later out.state := by
  induction forms generalizing s last with
  | nil =>
    obtain rfl := Option.some.inj h
    exact .refl s
  | cons form forms ih =>
    unfold State.evalAll at h
    split at h
    · rename_i hv
      exact (later_eval hv).trans (ih h)
    · exact later_eval h

/-- Loading a source leads to a later state. -/
theorem later_load {file bytes : Text} {failure : Option Text}
    (h : s.load fuel e file bytes failure = some out) : s.Later out.state := by
  unfold State.load at h
  split at h
  · obtain rfl := Option.some.inj h
    exact .refl s
  · split at h
    · obtain rfl := Option.some.inj h
      exact .refl s
    · exact (later_debug s _ _).trans (later_evalAll h)

theorem later_begins {form : Value} {forms : List Value} (h : BeginsForm e form t s forms) :
    s.Later t := by
  induction h with
  | here => exact .refl _
  | later h _ ih => exact (later_eval h).trans ih

end Later

/-! ## Sifted files -/

/-- The contents, or nothing in place of contents that are not wanted. -/
def Text.sifted (keep : Text → Bool) (bytes : Text) : Text := if keep bytes then bytes else []

/-- The node without contents that are not wanted. -/
def FileNode.sifted (keep : Text → Bool) : FileNode → FileNode
  | .file bytes => .file (bytes.sifted keep)
  | .directory => .directory

namespace Files

/-- The same files, without contents that are not wanted. -/
def sifted (keep : Text → Bool) (files : Files) : Files :=
  { entries := files.entries.map fun (place, node) => (place, node.sifted keep) }

variable (keep : Text → Bool) (files : Files)

/-- Sifting keeps what is at a place, or takes its contents away. -/
theorem node_sifted (place : Place) :
    (files.sifted keep).node? place = (files.node? place).map (·.sifted keep) := by
  unfold node?
  split
  · rfl
  · obtain ⟨entries⟩ := files
    induction entries with
    | nil => rfl
    | cons entry entries ih =>
      obtain ⟨place', node⟩ := entry
      simp only [sifted, List.map_cons, List.lookup_cons] at ih ⊢
      split
      · rfl
      · exact ih

/-- Sifting takes away no file or directory, so paths lead to the same places. -/
theorem descend_sifted : (files.sifted keep).descend = files.descend := by
  funext place name
  unfold descend
  rw [node_sifted]
  cases files.node? place with
  | none => rfl
  | some node => cases node <;> rfl

/-- Places are the same, and contents are sifted. -/
theorem read_sifted (path : Text) :
    (files.sifted keep).read path = (files.read path).map (·.sifted keep) := by
  have hresolve : (files.sifted keep).resolve path = files.resolve path := by
    unfold resolve
    rw [descend_sifted]
  unfold read find
  rw [hresolve]
  cases files.resolve path with
  | error problem => rfl
  | ok place =>
    simp only [node_sifted]
    cases files.node? place with
    | none => rfl
    | some node => cases node <;> rfl

end Files

/-! ## Vocabularies -/

/-- Scalars that are closed under what a program can do with them, in an interpreter that reads
texts of `F` from files. -/
structure Vocabulary (F : Text → Prop) where
  scalar : Scalar → Prop
  readable : ∀ s : Scalar, s.IsReadable → scalar s
  append : ∀ a b, scalar (.string a) → scalar (.string b) → scalar (.string (a ++ b))
  file : ∀ bytes, F bytes → scalar (.string bytes)

/-- Bounds that allow the scalars of a vocabulary, and all references. -/
def Vocabulary.bounds {F : Text → Prop} (V : Vocabulary F) : Bounds where
  scalar := V.scalar
  scope _ := True
  cell _ := True
  current _ := True
  scope_of_current _ _ := trivial

/-- The state holds valid values of the vocabulary, and there are no functions of an embedding
program. -/
structure State.Speaks {F : Text → Prop} (V : Vocabulary F) (s : State) : Prop where
  respects : s.Respects V.bounds
  valid : s.Valid
  hosts : s.hosts = #[]

/-- The machine holds valid values of the vocabulary, and there are no functions of an embedding
program. -/
structure Machine.Speaks {F : Text → Prop} (V : Vocabulary F) (m : Machine) : Prop where
  respects : m.Respects V.bounds
  valid : m.Valid
  hosts : m.state.hosts = #[]

/-- What can be read is valid. -/
theorem Value.Readable.valid {v : Value} (h : v.Readable) : v.Valid := by
  induction h with
  | scalar => exact .scalar _ _
  | list _ ih => exact .list ih

section Speaks

variable {F : Text → Prop} {V : Vocabulary F} {s t : State} {m m' : Machine} {e : ScopeId}
  {fuel : Nat} {out : Outcome}

theorem Machine.Speaks.state (hm : m.Speaks V) : m.state.Speaks V :=
  ⟨hm.respects.state, hm.valid.state, hm.hosts⟩

theorem State.Speaks.of_eq (hs : s.Speaks V) (hscopes : t.scopes = s.scopes)
    (hcells : t.cells = s.cells) (hhosts : t.hosts = s.hosts) : t.Speaks V :=
  ⟨(State.Edited.of_eq hscopes hcells).respects hs.respects, hs.valid.of_eq hscopes hcells hhosts,
    hhosts.trans hs.hosts⟩

theorem State.Speaks.debug (hs : s.Speaks V) (message : Text) (fields : List (Text × Log.Field)) :
    (s.debug message fields).Speaks V :=
  hs.of_eq (State.scopes_debug _ _) (State.cells_debug _ _)
    (hosts_of_setup (s.quiet_debug _ _).2)

/-- A machine with nothing but a value or a failure at hand. -/
theorem State.Speaks.above (hs : s.Speaks V) {result : Except Failure Value}
    (hfault : ∀ f, result = .error f → f.fault.Respects V.bounds)
    (hvalue : ∀ v, result = .ok v → v.Respects V.bounds ∧ v.Valid) :
    (Outcome.above { result, state := s } []).Speaks V := by
  cases result with
  | ok v =>
    obtain ⟨hv, hvalid⟩ := hvalue v rfl
    exact ⟨⟨hv, List.forall_mem_nil _, hs.respects⟩, ⟨hvalid, List.forall_mem_nil _, hs.valid⟩,
      hs.hosts⟩
  | error f =>
    exact ⟨⟨hfault f rfl, List.forall_mem_nil _, hs.respects⟩,
      ⟨trivial, List.forall_mem_nil _, hs.valid⟩, hs.hosts⟩

/-- In files without other contents than those of `F`, nothing leads out of the vocabulary. -/
theorem Vocabulary.closed (V : Vocabulary F) {keep : Text → Bool} (hkeep : ∀ t, keep t = true → F t)
    {σ : Setup} (hhosts : σ.hosts = #[]) {files : Files} (hfiles : σ.files = files.sifted keep) :
    V.bounds.Closed σ where
  readable := V.readable
  append := V.append
  file path bytes h := by
    rw [hfiles, Files.read_sifted] at h
    cases hread : files.read path with
    | error problem =>
      rw [hread] at h
      cases h
    | ok bytes' =>
      rw [hread] at h
      obtain rfl : bytes'.sifted keep = bytes := Except.ok.inj h
      unfold Text.sifted
      split
      · exact V.file bytes' (hkeep bytes' ‹_›)
      · exact V.readable _ ⟨[], rfl, by simp⟩
  host host hmem := by
    rw [hhosts] at hmem
    simp at hmem

/-- **A step keeps to the vocabulary**, if the file that it reads, if any, holds a text of `F`. -/
theorem speaks_step (hm : m.Speaks V) (h : m.step = .next m') (hF : m.state.OpensOnly F m'.state) :
    m'.Speaks V := by
  classical
  refine ⟨?_, valid_step hm.valid h, (hosts_of_setup (setup_step h)).trans hm.hosts⟩
  -- the step is the same in files that hold nothing but texts of `F`
  set keep : Text → Bool := fun bytes => decide (F bytes) with hkeep
  set w : Surroundings :=
    { lenient := m.state.lenient, files := m.state.files.sifted keep } with hw
  have hserves : ∀ m₁, m.step = .next m₁ → w.Serves m.state m₁.state := by
    intro m₁ hm₁ path hopens
    obtain rfl := Step.next.inj (h.symm.trans hm₁)
    rw [hw, Files.read_sifted]
    cases hread : m.state.files.read path with
    | error problem => rfl
    | ok bytes =>
      have hbytes : keep bytes = true := decide_eq_true (hF path bytes hopens hread)
      simp only [Except.map, Text.sifted, hbytes, if_true]
  have hstep : (m.amid w).step = .next (m'.amid w) := by
    rw [step_amid (.inl rfl) hserves, h]
    rfl
  have hclosed : V.bounds.Closed (m.amid w).state.setup :=
    V.closed (fun _ => of_decide_eq_true) hm.hosts rfl
  have hstart : (m.amid w).Respects V.bounds :=
    ⟨hm.respects.focus, hm.respects.konts,
      ⟨hm.respects.state.parents, hm.respects.state.bindings, hm.respects.state.cells⟩⟩
  have hend := (step_yielded hclosed hstart (fun _ _ => trivial) hstep).respects hstart.state
    ⟨fun _ _ _ => trivial, fun _ _ _ => trivial⟩
  exact ⟨hend.focus, hend.konts, ⟨hend.state.parents, hend.state.bindings, hend.state.cells⟩⟩

/-- **A run keeps to the vocabulary**, if the files that it reads hold texts of `F`. -/
theorem speaks_reaches (hm : m.Speaks V) (h : Reaches m m') (hF : m.state.OpensOnly F m'.state) :
    m'.Speaks V := by
  induction h with
  | refl => exact hm
  | tail hreach hstep ih =>
    have hlater := later_step hstep
    exact speaks_step (ih (hF.before hlater)) hstep (hF.after (later_reaches hreach))

/-! ## Text -/

theorem State.Speaks.enter (hs : s.Speaks V) {form : Value} (hform : form.Readable) (e : ScopeId) :
    (enter [] form e [] s).Speaks V := by
  have hyield : Yielded V.bounds s (Machine.enter [] form e [] s) :=
    enter_yielded (List.forall_mem_nil _) [] (hform.respects V.readable) trivial
  exact ⟨hyield.respects hs.respects ⟨fun _ _ _ => trivial, fun _ _ _ => trivial⟩,
    enter_valid (List.forall_mem_nil _) hs.valid [] hform.valid e,
    (hosts_of_setup (enter_move [] form e).setup_eq).trans hs.hosts⟩

theorem Machine.Speaks.reported {o : Outcome} (h : (o.above []).Speaks V) :
    (o.reported.above []).Speaks V := by
  obtain ⟨result, s⟩ := o
  cases result with
  | ok v => exact h
  | error f => exact (h.state.debug _ _).above (fun _ hf => Except.error.inj hf ▸ h.respects.focus) nofun

/-- **What an evaluation comes to is in the vocabulary**, if the files that it asked for are. -/
theorem speaks_eval (hs : s.Speaks V) {form : Value} (hform : form.Readable)
    (h : s.eval fuel e form = some out) (hF : s.OpensOnly F out.state) : (out.above []).Speaks V := by
  rw [State.eval_eq] at h
  obtain ⟨o, ho, rfl⟩ := Option.map_eq_some_iff.1 h
  have hrun := (hF.before (later_reported o)).after (later_enter form e s)
  exact (speaks_reaches (hs.enter hform e) (reaches_of_run ho) hrun).reported

/-- Evaluating forms in turn stays in the vocabulary. -/
theorem speaks_evalAll {last : Value} {forms : List Value}
    (hlast : (Outcome.above { result := .ok last, state := s } []).Speaks V)
    (hforms : ∀ form ∈ forms, form.Readable) (h : s.evalAll fuel e last forms = some out)
    (hF : s.OpensOnly F out.state) : (out.above []).Speaks V := by
  induction forms generalizing s last with
  | nil =>
    obtain rfl := Option.some.inj h
    exact hlast
  | cons form forms ih =>
    obtain ⟨hform, hforms⟩ := List.forall_mem_cons.1 hforms
    unfold State.evalAll at h
    split at h
    · rename_i hv
      have hfirst := speaks_eval hlast.state hform hv (hF.before (later_evalAll h))
      exact ih hfirst hforms h (hF.after (later_eval hv))
    · exact speaks_eval hlast.state hform h hF

theorem State.Speaks.nil (hs : s.Speaks V) :
    (Outcome.above { result := .ok .nil, state := s } []).Speaks V :=
  hs.above nofun fun _ hv => Except.ok.inj hv ▸ ⟨.scalar (V.readable _ trivial), .scalar _ _⟩

/-- Loading a source stays in the vocabulary. -/
theorem speaks_load (hs : s.Speaks V) {file bytes : Text} {failure : Option Text}
    (h : s.load fuel e file bytes failure = some out) (hF : s.OpensOnly F out.state) :
    (out.above []).Speaks V := by
  unfold State.load at h
  split at h
  · obtain rfl := Option.some.inj h
    exact hs.above (fun _ hf => Except.error.inj hf ▸ trivial) nofun
  · split at h
    · obtain rfl := Option.some.inj h
      exact hs.above (fun _ hf => Except.error.inj hf ▸ trivial) nofun
    · rename_i forms hread
      exact speaks_evalAll (hs.debug _ _).nil (fun _ => readable_of_readAll hread) h
        (hF.after (later_debug _ _ _))

/-- What is evaluated was read from a text. -/
inductive Entry.FromText : Entry → Prop where
  | load (e : ScopeId) (file bytes : Text) (failure : Option Text) :
      FromText (.load e file bytes failure)
  | form {file bytes : Text} {failure : Option Text} {form : Value} (e : ScopeId)
      (h : readOne file bytes failure = .ok form) : FromText (.eval e form)

/-- **What evaluating a text comes to keeps to the vocabulary.** -/
theorem speaks_entry (hs : s.Speaks V) {entry : Entry} (ht : entry.FromText)
    (h : entry.run fuel s = some out) (hF : s.OpensOnly F out.state) : (out.above []).Speaks V := by
  cases ht with
  | load e file bytes failure => exact speaks_load hs h hF
  | form e hread => exact speaks_eval hs (readable_of_readOne hread) h hF

/-- When a form of a source begins, the forms before it have stayed in the vocabulary. -/
theorem BeginsForm.speaks (hs : s.Speaks V) {form : Value} {forms : List Value}
    (hforms : ∀ form ∈ forms, form.Readable) (h : BeginsForm e form t s forms)
    (hF : s.OpensOnly F t) : t.Speaks V ∧ form.Readable := by
  induction h with
  | here => exact ⟨hs, hforms _ List.mem_cons_self⟩
  | later hfirst h' ih =>
    obtain ⟨hform, hforms⟩ := List.forall_mem_cons.1 hforms
    have hstate := (speaks_eval hs hform hfirst (hF.before (later_begins h'))).state
    exact ih hstate hforms (hF.after (later_eval hfirst))

/-- **Evaluating a text keeps to the vocabulary wherever it gets to**, whether it comes to an end or
not. -/
theorem Entry.Visits.speaks {entry : Entry} (h : entry.Visits s m) (ht : entry.FromText)
    (hs : s.Speaks V) (hF : s.OpensOnly F m.state) : m.Speaks V := by
  cases h with
  | @inside _ e expr t hb hreach =>
    have hlater : t.Later m.state := (later_enter expr e t).trans (later_reaches hreach)
    have hstart : s.Later t ∧ t.Speaks V ∧ expr.Readable := by
      have hF' := hF.before hlater
      cases hb with
      | eval =>
        cases ht with
        | form e hread => exact ⟨.refl s, hs, readable_of_readOne hread⟩
      | @load _ file bytes failure forms _ _ _ hread hb =>
        have hloaded := later_debug s "source loaded"
          [("source", .text file), ("forms", .number forms.length)]
        exact ⟨hloaded.trans (later_begins hb), hb.speaks (hs.debug _ _)
          (fun _ => readable_of_readAll hread) (hF'.after hloaded)⟩
    obtain ⟨hlater', ht', hexpr⟩ := hstart
    have hF' := (hF.after hlater').after (later_enter expr e t)
    exact speaks_reaches (ht'.enter hexpr e) hreach hF'
  | apply => cases ht

end Speaks

end TinyLisp
