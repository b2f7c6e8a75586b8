import TinyLisp.Proofs.Vocabulary
import TinyLisp.Console

/-!
# Dialogues

A dialogue is a session in which everything that an interpreter is given is text: sources are
loaded, forms are read and evaluated, and the console answers lines. It begins with an interpreter
that has just been set up with the functions of the language. Files may change in between.

Whatever the texts are, every scalar that comes up was spelled in one of them, computed, joined from
other strings or read from a file (`Dialogue.speaks`). Two vocabularies follow:

* `Vocabulary.names`: every symbol has a name that a source can spell, so every name that is bound
  and every parameter of a closure is such a name (`names_spelled`).
* `Vocabulary.spelled`: where files hold text that can stand between quotes, every scalar is one
  that a source can spell, so every value that is data reads back from its printed form
  (`data_restored`).
-/

namespace TinyLisp

open Machine State

/-! ## Dialogues -/

/-- An interpreter without anything of its own: one scope, which binds nothing, no cell, and nothing
from an embedding program. -/
structure State.IsBare (s : State) : Prop where
  scopes : s.scopes = #[{ parent := none }]
  cells : s.cells = #[]
  hosts : s.hosts = #[]
  registered : s.registered = []

/-- One turn of a dialogue. The files that are read in it hold texts of `F`. -/
inductive Turn (F : Text → Prop) (s : State) : State → Prop where
  /-- A source is loaded, or a form is read and evaluated. -/
  | run (entry : Entry) (fuel : Nat) (out : Outcome) (ht : entry.FromText)
      (h : entry.run fuel s = some out) (hF : s.OpensOnly F out.state) : Turn F s out.state
  /-- The console answers a line. -/
  | respond (e : ScopeId) (line : Text) (fuel : Nat) (t : State)
      (h : Console.respond fuel s e line = some t) (hF : s.OpensOnly F t) : Turn F s t
  /-- The files in reach change. -/
  | files (files : Files) : Turn F s { s with files }

/-- One state comes after another in a dialogue. -/
def Dialogue (F : Text → Prop) : State → State → Prop := Relation.ReflTransGen (Turn F)

section Dialogues

variable {F : Text → Prop} {V : Vocabulary F} {s t : State}

theorem later_say (s : State) (stream : Stream) (text : Text) : s.Later (s.say stream text) :=
  ⟨⟨[_], rfl⟩, rfl⟩

theorem speaks_respond (hs : s.Speaks V) {e : ScopeId} {line : Text} {fuel : Nat}
    (h : Console.respond fuel s e line = some t) (hF : s.OpensOnly F t) : t.Speaks V := by
  unfold Console.respond at h
  split at h
  · obtain rfl := Option.some.inj h
    exact hs
  · split at h
    · obtain rfl := Option.some.inj h
      exact hs.of_eq rfl rfl rfl
    · rename_i form hread
      have hform : form.Readable := readable_of_readOne hread
      split at h
      · cases h
      · rename_i v u heval
        obtain rfl := Option.some.inj h
        exact (speaks_eval hs hform heval (hF.before (later_say u _ _))).state.of_eq rfl rfl rfl
      · rename_i f u heval
        obtain rfl := Option.some.inj h
        exact (speaks_eval hs hform heval (hF.before (later_say u _ _))).state.of_eq rfl rfl rfl

/-- **Every turn keeps to the vocabulary.** -/
theorem Turn.speaks (hs : s.Speaks V) (h : Turn F s t) : t.Speaks V := by
  cases h with
  | run entry fuel out ht h hF => exact (speaks_entry hs ht h hF).state
  | respond e line fuel t h hF => exact speaks_respond hs h hF
  | files files => exact hs.of_eq rfl rfl rfl

theorem Dialogue.speaks_of (hs : s.Speaks V) (h : Dialogue F s t) : t.Speaks V := by
  induction h with
  | refl => exact hs
  | tail _ hturn ih => exact hturn.speaks ih

/-! ## The beginning -/

/-- The names of the functions of the language can be spelled. -/
theorem Primitive.isReadable_name (p : Primitive) : (Scalar.symbol p.name).IsReadable := by
  cases p <;> exact ⟨⟨_, rfl, by decide⟩, by decide, by decide, by decide, by decide⟩

theorem State.IsBare.speaks (hs : s.IsBare) (V : Vocabulary F) : s.Speaks V := by
  have hscopes : ∀ (e : ScopeId) scope, s.scopes[e]? = some scope → scope = { parent := none } := by
    intro e scope h
    have hmem := Array.mem_of_getElem? h
    rw [hs.scopes] at hmem
    exact Array.mem_singleton.1 hmem
  have hcells : ∀ (c : CellId) v, s.cells[c]? ≠ some v := by
    intro c v h
    rw [hs.cells] at h
    simp at h
  refine ⟨⟨fun _ _ _ _ _ _ => trivial, ?_, fun c v _ h => absurd h (hcells c v)⟩,
    ⟨?_, fun c v h => absurd h (hcells c v), ?_⟩, hs.hosts⟩
  · intro e scope _ h
    rw [hscopes e scope h]
    exact nofun
  · intro e scope h
    rw [hscopes e scope h]
    exact nofun
  · rw [hs.hosts]
    exact nofun

theorem State.configureAll_registered (settings : List Setting) :
    (s.configureAll settings).2.registered = s.registered := by
  induction settings generalizing s with
  | nil => rfl
  | cons setting settings ih =>
    unfold State.configureAll
    split
    · rename_i s' h
      refine ih.trans ?_
      cases setting with
      | stackLimit limit =>
        simp only [State.configure] at h
        split at h <;> cases h
        rfl
      | _ => cases h; rfl
    · rfl

theorem speaks_bindBuiltins (hs : s.Speaks V) (e : ScopeId) {bs : List Builtin}
    (hbs : ∀ b ∈ bs, (Scalar.symbol b.name).IsReadable) : (s.bindBuiltins e bs).2.Speaks V := by
  induction bs generalizing s with
  | nil => exact hs
  | cons b bs ih =>
    obtain ⟨hb, hbs⟩ := List.forall_mem_cons.1 hbs
    unfold State.bindBuiltins
    split
    · exact hs
    · have hedit : s.Edited V.bounds (s.bind e b.name (.builtin b)) :=
        .bind e b.name _ trivial (V.readable _ hb) (.builtin b)
      refine ih ⟨hedit.respects hs.respects, hs.valid.bind (.builtin b) e b.name, hs.hosts⟩ hbs

/-- An interpreter that has been set up with the functions of the language. -/
theorem speaks_prepare (hs : s.IsBare) (V : Vocabulary F) (settings : List Setting)
    (h : s.prepare rootScope settings = (none, t)) : t.Speaks V := by
  have hbare : (s.configureAll settings).2.IsBare := by
    obtain ⟨hscopes, hcells, hhosts⟩ := State.configureAll_store (s := s) settings
    exact ⟨hscopes.trans hs.scopes, hcells.trans hs.cells, hhosts.trans hs.hosts,
      (State.configureAll_registered settings).trans hs.registered⟩
  unfold State.prepare at h
  split at h
  · cases h
  · split at h <;> rename_i hconf <;> rw [hconf] at hbare
    · cases h
    · rename_i u
      have hlibrary : ∀ b ∈ u.library, (Scalar.symbol b.name).IsReadable := by
        intro b hb
        rw [State.library, hbare.registered, List.append_nil] at hb
        obtain ⟨p, -, rfl⟩ := List.mem_map.1 hb
        exact p.isReadable_name
      have hbound : (u.addBuiltins rootScope []).2.Speaks V :=
        speaks_bindBuiltins (hbare.speaks V) rootScope hlibrary
      split at h <;> rename_i hadd <;> rw [hadd] at hbound
      · cases h
      · obtain rfl := (Prod.mk.inj h).2
        exact hbound.debug _ _

/-- **A dialogue keeps to every vocabulary.** -/
theorem Dialogue.speaks {s₀ s₁ : State} {settings : List Setting} (hbare : s₀.IsBare)
    (hstart : s₀.prepare rootScope settings = (none, s₁)) (h : Dialogue F s₁ s) (V : Vocabulary F) :
    s.Speaks V := h.speaks_of (speaks_prepare hbare V settings hstart)

end Dialogues

/-- A value that the state holds. -/
inductive State.Holds (s : State) : Value → Prop where
  /-- A name is bound to it. -/
  | bound {e : ScopeId} {scope : Scope} {b : Text × Value} (hscope : s.scopes[e]? = some scope)
      (hb : b ∈ scope.bindings) : Holds s b.2
  /-- It is the contents of a cell. -/
  | stored {c : CellId} {v : Value} (hcell : s.cells[c]? = some v) : Holds s v

theorem State.Speaks.holds {F : Text → Prop} {V : Vocabulary F} {s : State} (hs : s.Speaks V)
    {v : Value} (h : s.Holds v) : v.Respects V.bounds ∧ v.Valid := by
  cases h with
  | @bound e scope b hscope hb =>
    exact ⟨(hs.respects.bindings e scope trivial hscope b hb).2, hs.valid.scopes e scope hscope b hb⟩
  | @stored c v hcell => exact ⟨hs.respects.cells c v trivial hcell, hs.valid.cells c v hcell⟩

/-! ## Names -/

/-- The text is a name: a word without blanks, parentheses and quotes that is no integer and no
constant. -/
structure Text.IsName (name : Text) : Prop where
  word : ∃ cs : List Char, name = .ofChars cs ∧ cs ≠ [] ∧
    ∀ c ∈ cs, TinyLisp.isBlank c = false ∧ c ≠ '(' ∧ c ≠ ')' ∧ c ≠ quoteMark
  not_int : name.toInt64? = none
  not_true : name ≠ ("true" : Text)
  not_false : name ≠ ("false" : Text)
  not_nil : name ≠ ("nil" : Text)

theorem Text.isName_of_isReadable {name : Text} (h : (Scalar.symbol name).IsReadable) :
    name.IsName := by
  obtain ⟨⟨cs, hcs, hne, hword⟩, hint, htrue, hfalse, hnil⟩ := h
  refine ⟨⟨cs, hcs, hne, fun c hc => ?_⟩, hint, htrue, hfalse, hnil⟩
  have hdelimiter := hword c hc
  simp only [isDelimiter, Bool.or_eq_false_iff, decide_eq_false_iff_not] at hdelimiter
  obtain ⟨⟨⟨hleft, hright⟩, hquote⟩, hblank⟩ := hdelimiter
  exact ⟨hblank, hleft, hright, hquote⟩

/-- Symbols have names that a source can spell; strings are arbitrary. -/
def Vocabulary.names : Vocabulary fun _ => True where
  scalar
    | .symbol name => (Scalar.symbol name).IsReadable
    | _ => True
  readable s hs := by
    cases s with
    | symbol name => exact hs
    | _ => trivial
  append _ _ _ _ := trivial
  file _ _ := trivial

/-- The name is a parameter of a closure that occurs in the value. -/
inductive Value.HasParameter (name : Text) : Value → Prop where
  | formal {identity : Nat} {formals : List Text} {body : Value} {e : ScopeId}
      (h : name ∈ formals) : HasParameter name (.closure identity formals body e)
  | body {identity : Nat} {formals : List Text} {body : Value} {e : ScopeId}
      (h : HasParameter name body) : HasParameter name (.closure identity formals body e)
  | item {source : Option Location} {items : List Value} {v : Value} (hv : v ∈ items)
      (h : HasParameter name v) : HasParameter name (.list source items)

theorem Value.Respects.parameter {B : Bounds} {v : Value} (hv : v.Respects B) {name : Text}
    (h : v.HasParameter name) : B.scalar (.symbol name) := by
  induction h with
  | formal h =>
    cases hv with
    | closure hf => exact hf name h
  | body _ ih =>
    cases hv with
    | closure _ hb => exact ih hb
  | item hmem _ ih => exact ih (respects_list.1 hv _ hmem)

/-- Every name that is bound in the state is a name, and so is every parameter of a closure in it.
-/
structure State.WellNamed (s : State) : Prop where
  bound : ∀ (e : ScopeId) (scope : Scope), s.scopes[e]? = some scope →
    ∀ b ∈ scope.bindings, b.1.IsName
  parameters : ∀ v, s.Holds v → ∀ name, v.HasParameter name → name.IsName

theorem Value.Respects.isName {v : Value} (hv : v.Respects Vocabulary.names.bounds) {name : Text}
    (h : v.HasParameter name) : name.IsName := Text.isName_of_isReadable (hv.parameter h)

theorem State.Speaks.wellNamed {s : State} (hs : s.Speaks Vocabulary.names) : s.WellNamed where
  bound e scope hscope b hb :=
    Text.isName_of_isReadable (hs.respects.bindings e scope trivial hscope b hb).1
  parameters _ hv _ hname := (hs.holds hv).1.isName hname

/-- **Names are words of the language over whole dialogues.** Whatever texts are loaded, evaluated
and answered, and whatever files are read, every name that is bound and every parameter of a
closure is a word that is no integer and no constant: in every state of the dialogue, in what a
further text comes to, and wherever its evaluation gets to. -/
theorem names_spelled {s₀ s₁ s : State} {settings : List Setting} (hbare : s₀.IsBare)
    (hstart : s₀.prepare rootScope settings = (none, s₁)) (h : Dialogue (fun _ => True) s₁ s) :
    s.WellNamed ∧
      (∀ (entry : Entry) fuel out, entry.FromText → entry.run fuel s = some out →
        out.state.WellNamed ∧
          ∀ v, out.result = .ok v → ∀ name, v.HasParameter name → name.IsName) ∧
      ∀ (entry : Entry) m, entry.FromText → entry.Visits s m →
        m.state.WellNamed ∧ ∀ v, m.focus = .value v → ∀ name, v.HasParameter name → name.IsName := by
  have hs := h.speaks hbare hstart Vocabulary.names
  have hF : ∀ t, s.OpensOnly (fun _ => True) t := fun _ _ _ _ _ => trivial
  have hfocus : ∀ m : Machine, m.Speaks Vocabulary.names → ∀ v, m.focus = .value v →
      ∀ name, v.HasParameter name → name.IsName := by
    intro m hm v hv name hname
    have hrespects := hm.respects.focus
    rw [hv] at hrespects
    exact Value.Respects.isName hrespects hname
  refine ⟨hs.wellNamed, ?_, ?_⟩
  · intro entry fuel out ht hrun
    have hout := speaks_entry hs ht hrun (hF out.state)
    refine ⟨hout.state.wellNamed, fun v hv => hfocus _ hout v ?_⟩
    simp only [Outcome.above, Outcome.focus, hv]
  · intro entry m ht hvisits
    have hm := hvisits.speaks ht hs (hF m.state)
    exact ⟨hm.state.wellNamed, hfocus m hm⟩

/-- A closure that is defined under a name. -/
theorem names_spelled_closure : ∃ (s₁ s : State) (v : Value),
    State.prepare {} rootScope [.reader] = (none, s₁) ∧ Dialogue (fun _ => True) s₁ s ∧
    s.scopes.lookup rootScope "f" = some v ∧ v.HasParameter "x" ∧ s.WellNamed := by
  obtain ⟨s₁, out, v, hstart, hload, hlookup, hname⟩ : ∃ (s₁ : State) (out : Outcome) (v : Value),
      State.prepare {} rootScope [.reader] = (none, s₁) ∧
      s₁.load 20 rootScope "in" "(def! f (fun* (x) x))" none = some out ∧
      out.state.scopes.lookup rootScope "f" = some v ∧ v.HasParameter "x" :=
    ⟨_, _, _, by with_unfolding_all rfl, by with_unfolding_all rfl, by with_unfolding_all rfl,
      .formal List.mem_cons_self⟩
  have h : Dialogue (fun _ => True) s₁ out.state :=
    .single (.run (.load rootScope "in" "(def! f (fun* (x) x))" none) 20 out (.load _ _ _ _) hload
      fun _ _ _ _ => trivial)
  have hbare : State.IsBare {} := ⟨rfl, rfl, rfl, rfl⟩
  exact ⟨s₁, out.state, v, hstart, h, hlookup, hname, (names_spelled hbare hstart h).1⟩

/-! ## Data -/

/-- The text is UTF-8 and holds no quote, so that it can stand between quotes. -/
def Text.IsPlain (t : Text) : Prop := ∃ cs, t = .ofChars cs ∧ quoteMark ∉ cs

/-- The scalars that a source can spell. -/
def Vocabulary.spelled : Vocabulary Text.IsPlain where
  scalar := Scalar.IsReadable
  readable _ := id
  append a b ha hb := by
    obtain ⟨cs, rfl, hcs⟩ := ha
    obtain ⟨ds, rfl, hds⟩ := hb
    exact ⟨cs ++ ds, (Text.ofChars_append cs ds).symm, by simp [hcs, hds]⟩
  file _ := id

/-- The value holds no closure, no built-in function and no atom. -/
inductive Value.IsData : Value → Prop where
  | scalar (source : Option Location) (content : Scalar) : IsData (.scalar source content)
  | list {source : Option Location} {items : List Value} (h : ∀ v ∈ items, IsData v) :
      IsData (.list source items)
  | invalid (u : Untyped) : IsData (.invalid u)

/-- The printed form of a value reads as a value equal to it, under whatever name it is read. -/
def State.Restores (s : State) (v : Value) : Prop :=
  ∀ file, ∃ w, readOne file (s.printed v) none = .ok w ∧ v.equal w = true

theorem Value.IsData.readable {v : Value} (h : v.IsData) (hv : v.Respects Vocabulary.spelled.bounds)
    (hvalid : v.Valid) : v.Readable := by
  induction h with
  | scalar source content => exact .scalar (respects_scalar.1 hv)
  | list _ ih =>
    have hitems := respects_list.1 hv
    have hvalids := valid_list.1 hvalid
    exact .list fun v hmem => ih v hmem (hitems v hmem) (hvalids v hmem)
  | invalid => cases hvalid

theorem Value.Readable.restored {v : Value} (h : v.Readable) (s : State) : s.Restores v := by
  intro file
  obtain ⟨cs, hprinted⟩ := h.printed
  obtain ⟨w, hread, -, hequal⟩ := hprinted.read file
  exact ⟨w, by rw [State.printed, hprinted.render_eq, hread], hequal⟩

/-- **Data reads back over whole dialogues.** Whatever texts are loaded, evaluated and answered,
if the files that are read hold text without quotes, then every value that is bound, stored or
returned and that holds no closure, no built-in function and no atom reads back from its printed
form: in every state of the dialogue, in what a further text comes to, and wherever its evaluation
gets to. -/
theorem data_restored {s₀ s₁ s : State} {settings : List Setting} (hbare : s₀.IsBare)
    (hstart : s₀.prepare rootScope settings = (none, s₁)) (h : Dialogue Text.IsPlain s₁ s) :
    (∀ v, s.Holds v → v.IsData → s.Restores v) ∧
      (∀ (entry : Entry) fuel out, entry.FromText → entry.run fuel s = some out →
        s.OpensOnly Text.IsPlain out.state →
        ∀ v, out.state.Holds v ∨ out.result = .ok v → v.IsData → out.state.Restores v) ∧
      ∀ (entry : Entry) m, entry.FromText → entry.Visits s m → s.OpensOnly Text.IsPlain m.state →
        ∀ v, m.state.Holds v ∨ m.focus = .value v → v.IsData → m.state.Restores v := by
  have hs := h.speaks hbare hstart Vocabulary.spelled
  have hmachine : ∀ m : Machine, m.Speaks Vocabulary.spelled → ∀ v,
      m.state.Holds v ∨ m.focus = .value v → v.IsData → m.state.Restores v := by
    rintro m hm v (hv | hv) hdata
    · obtain ⟨hrespects, hvalid⟩ := hm.state.holds hv
      exact (hdata.readable hrespects hvalid).restored m.state
    · have hrespects := hm.respects.focus
      have hvalid := hm.valid.focus
      rw [hv] at hrespects hvalid
      exact (hdata.readable hrespects hvalid).restored m.state
  refine ⟨?_, ?_, ?_⟩
  · intro v hv hdata
    obtain ⟨hrespects, hvalid⟩ := hs.holds hv
    exact (hdata.readable hrespects hvalid).restored s
  · intro entry fuel out ht hrun hF v hv hdata
    have hout := speaks_entry hs ht hrun hF
    refine hmachine _ hout v (hv.imp_right fun hresult => ?_) hdata
    simp only [Outcome.above, Outcome.focus, hresult]
  · intro entry m ht hvisits hF
    exact hmachine m (hvisits.speaks ht hs hF)

/-- The contents of a file that look like the beginning of a list. -/
theorem data_restored_slurp : ∃ (s₀ s₁ : State) (out : Outcome) (v : Value),
    s₀.files.read "a" = .ok "b (c" ∧ s₀.prepare rootScope [.reader] = (none, s₁) ∧
    s₁.load 30 rootScope "in" "(slurp 'a')" none = some out ∧ out.result = .ok v ∧
    out.state.printed v = ("'b (c'" : Text) ∧ out.state.Restores v := by
  set s₀ : State := { files := .insert {} "a" "b (c" } with hs₀
  set s₁ : State := (s₀.prepare rootScope [.reader]).2 with hs₁
  have hstart : s₀.prepare rootScope [.reader] = (none, s₁) :=
    Prod.ext (Option.isNone_iff_eq_none.1 (by decide +kernel)) rfl
  have hread : s₁.files.read "a" = .ok "b (c" := by decide +kernel
  have hnone : s₁.effects = [] := List.isEmpty_iff.1 (by decide +kernel)
  -- the file is the only one that is asked for, and its contents are the value
  have htest : (s₁.load 30 rootScope "in" "(slurp 'a')" none).any (fun out =>
      out.state.effects.all
          (Effect.rec (fun _ _ _ => true) (fun _ => true) fun path => path == ("a" : Text)) &&
        out.result.toOption.any (·.equal (.string "b (c"))) = true := by decide +kernel
  obtain ⟨out, hload, hout⟩ := (Option.any_eq_true _ _).1 htest
  obtain ⟨hopened, hvalue⟩ := Bool.and_eq_true_iff.1 hout
  have hplain : s₁.OpensOnly Text.IsPlain out.state := by
    rintro path bytes ⟨new, hnew, hmem⟩ hbytes
    rw [hnone, List.append_nil] at hnew
    obtain rfl : path = ("a" : Text) :=
      beq_iff_eq.1 (List.all_eq_true.1 hopened (.opened path) (hnew ▸ hmem))
    obtain rfl := Except.ok.inj (hbytes.symm.trans hread)
    exact ⟨"b (c".toList, rfl, by decide⟩
  have hbare : s₀.IsBare := ⟨rfl, rfl, rfl, rfl⟩
  obtain ⟨-, hentry, -⟩ := data_restored hbare hstart .refl
  cases hresult : out.result with
  | error f =>
    rw [hresult] at hvalue
    cases hvalue
  | ok v =>
    rw [hresult] at hvalue
    cases v with
    | scalar source content =>
      obtain rfl : content = .string "b (c" := beq_iff_eq.1 hvalue
      exact ⟨s₀, s₁, out, _, by decide +kernel, hstart, hload, hresult, by cbv,
        hentry _ 30 out (.load _ _ _ _) hload hplain _ (.inr hresult) (.scalar _ _)⟩
    | _ => cases hvalue

end TinyLisp
