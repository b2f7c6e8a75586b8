import TinyLisp.Proofs.Resemblance

/-!
# Preloaded sources run like sources of the command line

Sources come to be evaluated in two ways. Those that the settings name are loaded one by one while
the interpreter is set up, each of them read when its turn comes; those that the command line names
are all read beforehand. With nothing logged and no values printed, what a command comes to is the
same whichever of its sources are preloaded.

* `InTurn`: things are done in turn, up to the first that does not succeed. `SourceRuns` is what it
  means to run a source, all of it or nothing.
* `Oblivious.inTurn`: if each thing comes to the same in states that resemble each other, so do all
  of them in turn.
* `preload_inTurn`, `runSources_inTurn`: both ways run their sources in turn.
* `preload_eq_run`: so it does not matter where the sources are named.
-/

namespace TinyLisp.CommandLine

open State

/-! ## Sources in turn -/

/-- Things are done in turn, up to the first that does not succeed. `does s a r` says that doing `a`
in the state `s` comes to `r`. -/
inductive InTurn {α : Type} (does : State → α → Stage → Prop) : State → List α → Stage → Prop where
  /-- Everything has been done. -/
  | done (s : State) : InTurn does s [] (some (none, s))
  /-- This one does not succeed, and those after it are not done. -/
  | stops {s : State} {a : α} {as : List α} {r : Stage} (h : does s a r)
      (hr : ∀ t, r ≠ some (none, t)) : InTurn does s (a :: as) r
  /-- This one succeeds, and those after it are done in the state that it leaves. -/
  | next {s t : State} {a : α} {as : List α} {r : Stage} (h : does s a (some (none, t)))
      (hrest : InTurn does t as r) : InTurn does s (a :: as) r

/-- What an evaluation comes to as a stage of a command. -/
def ended (out : Outcome) : Option Problem × State :=
  match out.result with
  | .ok _ => (none, out.state)
  | .error f => (some (.program f), out.state)

/-- A form is evaluated in the root scope. -/
def FormRuns (fuel : Nat) (s : State) (form : Value) (r : Stage) : Prop :=
  (s.eval fuel rootScope form).map ended = r

/-- A source is run in the state `s`, perhaps after asking for the file that it is read from. If it
does not read, nothing of it is evaluated; otherwise its forms are evaluated in turn. -/
inductive SourceRuns (fuel : Nat) (s : State) (source : Source) : Stage → Prop where
  | unread {t : State} {e : ReadError} (ht : t = s ∨ t = s.note (.opened source.name))
      (hread : readAll source.name source.bytes none = .error e) :
      SourceRuns fuel s source (some (some (.program { fault := .unreadable e }), t))
  | read {t : State} {forms : List Value} {r : Stage}
      (ht : t = s ∨ t = s.note (.opened source.name))
      (hread : readAll source.name source.bytes none = .ok forms)
      (hforms : InTurn (FormRuns fuel) t forms r) : SourceRuns fuel s source r

/-- The course of a command: the interpreter is set up, and if that succeeds, sources are run in
turn. -/
inductive Course (fuel : Nat) (settings : List Setting) (s : State) (sources : List Source) :
    Stage → Prop where
  | refused {t : State} {fault : Fault} (h : s.prepare rootScope settings = (some fault, t)) :
      Course fuel settings s sources (some (some (.program { fault }), t))
  | runs {t : State} {r : Stage} (h : s.prepare rootScope settings = (none, t))
      (hruns : InTurn (SourceRuns fuel) t sources r) : Course fuel settings s sources r

/-- What is done in a state comes to the same in every state that resembles it. -/
def Oblivious {α : Type} (does : State → α → Stage → Prop) : Prop :=
  ∀ ⦃s t : State⦄ ⦃a : α⦄ ⦃r r' : Stage⦄, s.Resembles t → does s a r → does t a r' →
    Option.Rel SameEnd r r'

section Turns

variable {α : Type} {does : State → α → Stage → Prop} {s t : State} {as : List α} {r : Stage}

/-- If the first part succeeds, the rest comes after it. -/
theorem InTurn.append (h : InTurn does s as (some (none, t))) {bs : List α}
    (h' : InTurn does t bs r) : InTurn does s (as ++ bs) r := by
  generalize hend : (some (none, t) : Stage) = r₀ at h
  induction h with
  | done s =>
    obtain ⟨-, rfl⟩ := Prod.mk.inj (Option.some.inj hend)
    exact h'
  | stops _ hr => exact absurd hend.symm (hr t)
  | next h _ ih => exact .next h (ih hend)

/-- If the first part does not succeed, the rest is not done. -/
theorem InTurn.append_of_stops (h : InTurn does s as r) (hr : ∀ t, r ≠ some (none, t)) (bs : List α) :
    InTurn does s (as ++ bs) r := by
  induction h with
  | done s => exact absurd rfl (hr s)
  | stops h hr => exact .stops h hr
  | next h _ ih => exact .next h (ih hr)

/-- Both succeed or neither does. -/
theorem stops_of_sameEnd {r r' : Stage} (h : Option.Rel SameEnd r r')
    (hr : ∀ t, r ≠ some (none, t)) (t : State) : r' ≠ some (none, t) := by
  rintro rfl
  cases h with
  | @some ended _ h =>
    obtain ⟨problem, u⟩ := ended
    obtain rfl : none = problem := h.result
    exact hr u rfl

theorem succeeds_of_sameEnd {r : Stage} (h : Option.Rel SameEnd (some (none, s)) r) :
    ∃ t, r = some (none, t) ∧ s.Resembles t := by
  cases h with
  | @some _ ended h =>
    obtain ⟨problem, t⟩ := ended
    obtain rfl : problem = none := h.result
    exact ⟨t, rfl, h.state⟩

/-- **If each thing comes to the same in states that resemble each other, so do all of them in
turn.** -/
theorem Oblivious.inTurn (hdoes : Oblivious does) : Oblivious (InTurn does) := by
  intro s t as r r' h hs ht
  induction hs generalizing t r' with
  | done s =>
    cases ht with
    | done => exact .some ⟨rfl, h⟩
  | stops ha hr =>
    cases ht with
    | stops ha' => exact hdoes h ha ha'
    -- one of them cannot stop where the other goes on
    | next ha' => exact absurd rfl (stops_of_sameEnd (hdoes h ha ha') hr _)
  | next ha _ ih =>
    cases ht with
    | stops ha' hr =>
      obtain ⟨u, hu, -⟩ := succeeds_of_sameEnd (hdoes h ha ha')
      exact absurd hu (hr u)
    | next ha' hrest =>
      obtain ⟨u, hu, hresembles⟩ := succeeds_of_sameEnd (hdoes h ha ha')
      obtain ⟨-, rfl⟩ := Prod.mk.inj (Option.some.inj hu)
      exact ih hresembles hrest

end Turns

section Oblivious

variable (fuel : Nat)

theorem formRuns_oblivious : Oblivious (FormRuns fuel) := by
  intro s t form r r' h hs ht
  subst hs ht
  have heval := eval_resembles fuel h rootScope form
  generalize s.eval fuel rootScope form = o, t.eval fuel rootScope form = o' at heval
  cases heval with
  | none => exact .none
  | @some o o' ho =>
    obtain ⟨result, u⟩ := o
    obtain ⟨result', u'⟩ := o'
    obtain rfl : result' = result := ho.result
    cases result' with
    | ok v => exact .some ⟨rfl, ho.state⟩
    | error f => exact .some ⟨rfl, ho.state⟩

theorem resembles_of_asked {s t : State} {path : Text} (h : t = s ∨ t = s.note (.opened path)) :
    s.Resembles t := by
  rcases h with rfl | rfl
  · exact .refl _
  · exact resembles_opened _ _

theorem sourceRuns_oblivious : Oblivious (SourceRuns fuel) := by
  intro s t source r r' h hs ht
  cases hs with
  | unread hs hread =>
    have h := (resembles_of_asked hs).symm.trans h
    cases ht with
    | unread ht hread' =>
      obtain rfl := Except.error.inj (hread.symm.trans hread')
      exact .some ⟨rfl, h.trans (resembles_of_asked ht)⟩
    | read _ hread' => cases hread.symm.trans hread'
  | read hs hread hforms =>
    have h := (resembles_of_asked hs).symm.trans h
    cases ht with
    | unread _ hread' => cases hread.symm.trans hread'
    | read ht hread' hforms' =>
      obtain rfl := Except.ok.inj (hread.symm.trans hread')
      exact (formRuns_oblivious fuel).inTurn (h.trans (resembles_of_asked ht)) hforms hforms'

/-- **A command comes to the same whatever files were asked for before it.** -/
theorem course_oblivious (settings : List Setting) : Oblivious (Course fuel settings) := by
  intro s t sources r r' h hs ht
  have hprepare := prepare_resembles h rootScope settings
  cases hs with
  | refused hs =>
    cases ht with
    | refused ht =>
      rw [hs, ht] at hprepare
      obtain rfl := Option.some.inj hprepare.result
      exact .some ⟨rfl, hprepare.state⟩
    | runs ht =>
      rw [hs, ht] at hprepare
      cases hprepare.result
  | runs hs hruns =>
    cases ht with
    | refused ht =>
      rw [hs, ht] at hprepare
      cases hprepare.result
    | runs ht hruns' =>
      rw [hs, ht] at hprepare
      exact (sourceRuns_oblivious fuel).inTurn hprepare.state hruns hruns'

end Oblivious

/-! ## Two ways to run sources -/

section Prepared

variable {s t : State} {settings : Settings} {log : LogTarget}

theorem setup_bindBuiltins (s : State) (e : ScopeId) (bs : List Builtin) :
    (s.bindBuiltins e bs).2.setup = s.setup := by
  induction bs generalizing s with
  | nil => rfl
  | cons b bs ih =>
    unfold State.bindBuiltins
    split
    · rfl
    · exact ih _

/-- An interpreter that is set up for a command can read sources. It finds the same files, and logs
what the command asks for. -/
structure Prepared (log : LogTarget) (s t : State) : Prop where
  reads : t.reads = true
  log : t.log = log.threshold
  files : t.files = s.files

theorem Prepared.of_setup {u : State} (h : Prepared log s t) (hu : u.setup = t.setup) :
    Prepared log s u where
  reads := (congrArg Setup.reads hu).trans h.reads
  log := (congrArg Setup.log hu).trans h.log
  files := (congrArg Setup.files hu).trans h.files

theorem prepared_configureAll
    (h : s.configureAll (interpreterSettings settings log) = (none, t)) : Prepared log s t := by
  unfold interpreterSettings at h
  simp only [List.cons_append, List.nil_append, State.configureAll, State.configure] at h
  by_cases hlimit : settings.maxStackHeight < 0
  · rw [if_pos hlimit] at h
    cases h
  · rw [if_neg hlimit] at h
    dsimp only at h
    cases hlenient : settings.lenientArity with
    | true =>
      rw [hlenient] at h
      obtain rfl := (Prod.mk.inj h).2
      exact ⟨rfl, rfl, rfl⟩
    | false =>
      rw [hlenient] at h
      obtain rfl := (Prod.mk.inj h).2
      exact ⟨rfl, rfl, rfl⟩

theorem prepared_prepare
    (h : s.prepare rootScope (interpreterSettings settings log) = (none, t)) : Prepared log s t := by
  unfold State.prepare at h
  split at h
  · cases h
  · split at h
    · cases h
    · rename_i u hconf
      have hsetup : (u.addBuiltins rootScope []).2.setup = u.setup := setup_bindBuiltins u _ _
      split at h <;> rename_i hadd <;> rw [hadd] at hsetup
      · cases h
      · obtain rfl := (Prod.mk.inj h).2
        exact (prepared_configureAll hconf).of_setup ((State.quiet_debug _ _ _).2.trans hsetup)

end Prepared

section Ways

variable {s t : State} {fuel : Nat}

/-- Without printing, the forms of a source are evaluated in turn. -/
theorem runForms_inTurn (fuel : Nat) (s : State) (forms : List Value) :
    InTurn (FormRuns fuel) s forms (runForms fuel false s forms) := by
  induction forms generalizing s with
  | nil => exact .done s
  | cons form forms ih =>
    have hform : FormRuns fuel s form ((s.eval fuel rootScope form).map ended) := rfl
    unfold runForms
    split <;> rename_i heval <;> rw [heval] at hform
    · exact .stops hform nofun
    · exact .stops hform nofun
    · exact .next hform (ih _)

theorem of_ended_succeeds {o : Option Outcome} (h : o.map ended = some (none, t)) :
    ∃ v, o = some { result := .ok v, state := t } := by
  obtain ⟨⟨result, u⟩, rfl, hended⟩ := Option.map_eq_some_iff.1 h
  cases result with
  | ok v =>
    obtain rfl : u = t := (Prod.mk.inj hended).2
    exact ⟨v, rfl⟩
  | error f => cases hended

/-- Loading evaluates forms in turn, too. -/
theorem evalAll_inTurn (fuel : Nat) (s : State) (last : Value) (forms : List Value) :
    InTurn (FormRuns fuel) s forms ((s.evalAll fuel rootScope last forms).map ended) := by
  induction forms generalizing s last with
  | nil => exact .done s
  | cons form forms ih =>
    have hform : FormRuns fuel s form ((s.eval fuel rootScope form).map ended) := rfl
    unfold State.evalAll
    split
    · rename_i heval
      rw [heval] at hform
      exact .next hform (ih _ _)
    · rename_i hfails
      refine .stops hform fun t hsucceeds => ?_
      obtain ⟨v, heval⟩ := of_ended_succeeds hsucceeds
      exact hfails v t heval

/-- Sources that have been read beforehand are run in turn. -/
theorem runSources_inTurn (fuel : Nat) (s : State) (sources : List Source) :
    InTurn (SourceRuns fuel) s sources (runSources fuel false s sources) := by
  induction sources generalizing s with
  | nil => exact .done s
  | cons source sources ih =>
    unfold runSources
    split
    · rename_i hread
      exact .stops (.unread (.inl rfl) hread) nofun
    · rename_i forms hread
      have hsource : SourceRuns fuel s source (runForms fuel false s forms) :=
        .read (.inl rfl) hread (runForms_inTurn fuel s forms)
      split
      · rename_i hforms
        rw [hforms] at hsource
        exact .next hsource (ih _)
      · rename_i hfails
        exact .stops hsource hfails

/-- Loading a file, after asking for it, runs it as a source, if nothing is logged. -/
theorem load_runs (fuel : Nat) (source : Source) (hreads : s.reads = true) (hlog : s.log = none) :
    SourceRuns fuel s source
      (((s.note (.opened source.name)).load fuel rootScope source.name source.bytes none).map
        ended) := by
  set t := s.note (.opened source.name) with ht
  have hquiet (message : Text) (fields : List (Text × Log.Field)) : t.debug message fields = t := by
    unfold State.debug logRecord
    rw [show t.log = none from hlog]
    rfl
  unfold State.load
  rw [show t.reads = true from hreads]
  cases hread : readAll source.name source.bytes none with
  | error e => exact .unread (.inr ht) hread
  | ok forms =>
    dsimp only
    rw [hquiet]
    exact .read (.inr ht) hread (evalAll_inTurn fuel t .nil forms)

/-- Preload sources that can be read are run in turn, if nothing is logged. -/
theorem preload_inTurn (fuel : Nat) {paths : List Text} {sources : List Source}
    (hreads : s.reads = true) (hlog : s.log = none)
    (h : fileSources s.files paths = .ok sources) :
    InTurn (SourceRuns fuel) s sources (preload fuel s paths) := by
  induction paths generalizing s sources with
  | nil =>
    obtain rfl := Except.ok.inj h
    exact .done s
  | cons path paths ih =>
    unfold fileSources at h
    cases hread : s.files.read path with
    | error e =>
      rw [hread] at h
      cases h
    | ok bytes =>
      rw [hread] at h
      dsimp only at h
      split at h
      · cases h
      · rename_i rest hrest
        obtain rfl := Except.ok.inj h
        have hsource := load_runs fuel { name := path, bytes } hreads hlog
        have hfile : (s.note (.opened path)).files.read path = .ok bytes := hread
        unfold preload
        dsimp only
        rw [hfile]
        dsimp only at hsource ⊢
        split <;> rename_i hload <;> rw [hload] at hsource
        · exact .stops hsource nofun
        · exact .stops hsource nofun
        · rename_i t
          have hsetup : t.setup = s.setup := (later_load hload).setup
          -- the program changed no file, so the other paths still name the same sources
          refine .next hsource (ih ?_ ?_ ?_)
          · exact (congrArg Setup.reads hsetup).trans hreads
          · exact (congrArg Setup.log hsetup).trans hlog
          · rw [show t.files = s.files from congrArg Setup.files hsetup]
            exact hrest

end Ways

/-! ## Commands -/

section Commands

variable {fuel : Nat} {s : State} {settings : Settings} {log : LogTarget} {options : Options}

theorem fileSources_append {files : Files} {paths paths' : List Text}
    {sources sources' : List Source} (h : fileSources files paths = .ok sources)
    (h' : fileSources files paths' = .ok sources') :
    fileSources files (paths ++ paths') = .ok (sources ++ sources') := by
  induction paths generalizing sources with
  | nil =>
    obtain rfl := Except.ok.inj h
    exact h'
  | cons path paths ih =>
    rw [List.cons_append]
    unfold fileSources at h ⊢
    split at h
    · cases h
    · split at h
      · cases h
      · rename_i hrest
        obtain rfl := Except.ok.inj h
        simp only [ih hrest, List.cons_append]

theorem fileSources_of_readable {files : Files} {paths : List Text}
    (h : ∀ path ∈ paths, ∃ bytes, files.read path = .ok bytes) :
    ∃ sources, fileSources files paths = .ok sources := by
  induction paths with
  | nil => exact ⟨[], rfl⟩
  | cons path paths ih =>
    obtain ⟨⟨bytes, hread⟩, hrest⟩ := List.forall_mem_cons.1 h
    obtain ⟨sources, hsources⟩ := ih hrest
    refine ⟨{ name := path, bytes } :: sources, ?_⟩
    unfold fileSources
    simp only [hread, hsources]

/-- The state when files have been asked for. -/
def asking (s : State) (paths : List Text) : State :=
  paths.foldl (fun s path => s.note (.opened path)) s

theorem resembles_asking (s : State) (paths : List Text) : s.Resembles (asking s paths) := by
  induction paths generalizing s with
  | nil => exact .refl s
  | cons path paths ih => exact (resembles_opened s path).trans (ih _)

theorem Course.append {choices : List Setting} {t : State} {first last : List Source} {r : Stage}
    (h : Course fuel choices s first (some (none, t))) (h' : InTurn (SourceRuns fuel) t last r) :
    Course fuel choices s (first ++ last) r := by
  cases h with
  | runs hprepare hfirst => exact .runs hprepare (hfirst.append h')

theorem Course.append_of_stops {choices : List Setting} {first : List Source} {r : Stage}
    (h : Course fuel choices s first r) (hr : ∀ t, r ≠ some (none, t)) (last : List Source) :
    Course fuel choices s (first ++ last) r := by
  cases h with
  | refused hprepare => exact .refused hprepare
  | runs hprepare hfirst => exact .runs hprepare (hfirst.append_of_stops hr last)

/-- Setting the interpreter up runs the preload sources. -/
theorem setUp_course {first : List Source} (hlog : log.threshold = none)
    (hfirst : fileSources s.files settings.preload = .ok first) :
    Course fuel (interpreterSettings settings log) s first (setUp fuel settings log s) := by
  unfold setUp
  split
  · rename_i hprepare
    exact .refused hprepare
  · rename_i t hprepare
    have hprepared := prepared_prepare hprepare
    refine .runs hprepare (preload_inTurn fuel hprepared.reads (hprepared.log.trans hlog) ?_)
    rw [hprepared.files]
    exact hfirst

/-- **A command runs its preload sources, and then those that the arguments name**, if it neither
prints values nor logs. -/
theorem runArguments_course (settings : Settings) {args : List Text} {first last : List Source}
    (hlog : log.threshold = none) (hprint : options.print = false)
    (hexpression : options.expression = false)
    (hfirst : fileSources s.files settings.preload = .ok first)
    (hlast : fileSources s.files args = .ok last) :
    Course fuel (interpreterSettings settings log) (asking s args) (first ++ last)
      (runArguments fuel settings log options args s) := by
  have hfiles : (asking s args).files = s.files := by rw [(resembles_asking s args).rest]
  have hsetUp : Course fuel (interpreterSettings settings log) (asking s args) first
      (setUp fuel settings log (asking s args)) := setUp_course hlog (hfiles ▸ hfirst)
  unfold runArguments
  simp only [hexpression, hprint, Bool.false_eq_true, if_false]
  rw [show args.foldl (fun s path => s.note (.opened path)) s = asking s args from rfl]
  rw [hfiles, hlast]
  dsimp only
  split
  · rename_i t hdone
    rw [hdone] at hsetUp
    exact hsetUp.append (runSources_inTurn fuel t last)
  · rename_i hfails
    exact hsetUp.append_of_stops hfails last

/-- Two commands came to the same: both succeeded, or both had the same problem; the interpreters that
they leave differ in nothing but the files that were asked for on the way; and they wrote the same. -/
structure Indistinct (log : LogTarget) (r r' : Option Problem × State) : Prop extends SameEnd r r' where
  written : (Result.ofState r.1 log r.2).Same (Result.ofState r'.1 log r'.2)

/-- **It does not matter which sources are preloaded.** If nothing is logged and no values are printed,
a command that preloads the files `F` and then runs the files `G` comes to the same as one that preloads
nothing and runs the files `F` and then `G`; and if one does not come to an end, nor does the other. Both
set the interpreter up and run the same sources in turn, each all or nothing, up to the first form that
fails. -/
theorem preload_eq_run (fuel : Nat) (settings : Settings) (log : LogTarget) (options : Options)
    (F G : List Text) (s : State) (hlog : log.threshold = none) (hprint : options.print = false)
    (hexpression : options.expression = false)
    (hreadable : ∀ path ∈ F ++ G, ∃ bytes, s.files.read path = .ok bytes) :
    Option.Rel (Indistinct log)
      (runArguments fuel { settings with preload := F } log options G s)
      (runArguments fuel { settings with preload := [] } log options (F ++ G) s) ∧
    ∃ sources, fileSources s.files (F ++ G) = .ok sources ∧
      Course fuel (interpreterSettings settings log) (asking s G) sources
        (runArguments fuel { settings with preload := F } log options G s) ∧
      Course fuel (interpreterSettings settings log) (asking s (F ++ G)) sources
        (runArguments fuel { settings with preload := [] } log options (F ++ G) s) := by
  obtain ⟨hF, hG⟩ := List.forall_mem_append.1 hreadable
  obtain ⟨first, hfirst⟩ := fileSources_of_readable hF
  obtain ⟨last, hlast⟩ := fileSources_of_readable hG
  have hall := fileSources_append hfirst hlast
  have hnone : fileSources s.files [] = .ok [] := rfl
  have hpreloaded : Course fuel (interpreterSettings settings log) (asking s G) (first ++ last)
      (runArguments fuel { settings with preload := F } log options G s) :=
    runArguments_course { settings with preload := F } hlog hprint hexpression hfirst hlast
  have hrun : Course fuel (interpreterSettings settings log) (asking s (F ++ G)) ([] ++ (first ++ last))
      (runArguments fuel { settings with preload := [] } log options (F ++ G) s) :=
    runArguments_course { settings with preload := [] } hlog hprint hexpression hnone hall
  refine ⟨?_, first ++ last, hall, hpreloaded, hrun⟩
  have hresembles : (asking s G).Resembles (asking s (F ++ G)) :=
    (resembles_asking s G).symm.trans (resembles_asking s (F ++ G))
  have hsame := course_oblivious fuel _ hresembles hpreloaded hrun
  generalize runArguments fuel { settings with preload := F } log options G s = r,
    runArguments fuel { settings with preload := [] } log options (F ++ G) s = r' at hsame
  cases hsame with
  | none => exact .none
  | @some ended ended' h =>
    refine .some ⟨h, ?_⟩
    rw [h.result]
    exact ofState_same h.state _ log

/-- A file that makes an atom, and one that does not read although it begins with a form that would
make another. -/
theorem preload_eq_run_unread : ∃ (s : State) (r r' : Option Problem × State),
    s.files.read "f" = .ok "(atom 1)" ∧ s.files.read "g" = .ok "(atom 2) (" ∧
    runArguments 30 { preload := ["f"] } {} {} ["g"] s = some r ∧
    runArguments 30 {} {} {} ["f", "g"] s = some r' ∧
    r.2.cells.size = 1 ∧ (Result.ofState r.1 {} r.2).status = 1 ∧ Indistinct {} r r' := by
  set s : State := { files := (Files.insert {} "f" "(atom 1)").insert "g" "(atom 2) (" } with hs
  have hf : s.files.read "f" = .ok "(atom 1)" := by decide +kernel
  have hg : s.files.read "g" = .ok "(atom 2) (" := by decide +kernel
  have htest : (runArguments 30 { preload := ["f"] } {} {} ["g"] s).any (fun r =>
      r.2.cells.size = 1 && (Result.ofState r.1 {} r.2).status = 1) = true := by decide +kernel
  obtain ⟨r, hr, hresult⟩ := (Option.any_eq_true _ _).1 htest
  obtain ⟨hsize, hstatus⟩ := Bool.and_eq_true_iff.1 hresult
  set F : List Text := ["f"] with hF
  set G : List Text := ["g"] with hG
  have hreadable : ∀ path ∈ F ++ G, ∃ bytes, s.files.read path = .ok bytes := by
    intro path hpath
    rcases List.mem_cons.1 hpath with rfl | hpath
    · exact ⟨_, hf⟩
    · obtain rfl := List.mem_singleton.1 hpath
      exact ⟨_, hg⟩
  obtain ⟨hrel, -⟩ := preload_eq_run 30 {} {} {} F G s rfl rfl rfl hreadable
  rw [hr] at hrel
  generalize hr' : runArguments 30 { preload := [] } {} {} (F ++ G) s = ended at hrel
  cases hrel with
  | @some _ r' h =>
    exact ⟨s, r, r', hf, hg, hr, hr', of_decide_eq_true hsize, of_decide_eq_true hstatus, h⟩

end Commands

end TinyLisp.CommandLine
