import TinyLisp.Proofs.Failures
import TinyLisp.Proofs.Vocabulary

/-!
# Swapping the contents of an atom

`swap!` reads a cell, applies a function to the contents and stores the result. The function is any
program: it may store into the same cell, swap it, or fail. The three parts have one meaning all the
same: the contents are read before the application, the application is one of its own, and what it
returns is stored in the state that it left, or nothing is stored if it fails.

* `apply_recorded`: an application that fails has recorded the call stack, so nothing is added to its
  failure outside.
* `Swaps`: what `swap!` comes to.
* `halts_swap_iff`: the machine comes to that.
* `swap_exact`: the result for applications and for calls in a program.
-/

namespace TinyLisp

open Machine

/-! ## Applications that fail -/

section Applications

variable {base : CallStack} {m m' : Machine} {s : State} {f : Value} {args : List Value}

/-- A machine that has something to go on with, or has failed with a trace, runs or is on its way
out. -/
theorem running_or_failing_of_balanced (hm : Balanced base m)
    (h : m.konts ≠ [] ∨ ∃ fault stack, m.focus = .failure { fault, trace := some stack }) :
    Running base m ∨ ∃ fault stack, Failing fault stack m := by
  obtain ⟨focus, ks, s⟩ := m
  by_cases hfails : ∃ f, focus = .failure f
  · obtain ⟨⟨fault, trace⟩, rfl⟩ := hfails
    cases trace with
    | some stack => exact .inr ⟨fault, stack, .recorded ks s⟩
    | none =>
      rcases h with hne | ⟨fault', stack, hfocus⟩
      · exact .inr ⟨fault, s.stack, .unrecorded rfl (hm.frames.leave_mem hne)⟩
      · cases hfocus
  · rw [not_exists] at hfails
    rcases h with hne | ⟨fault, stack, hfocus⟩
    · exact .inl ⟨hm, hfails, fun hnil => absurd hnil hne⟩
    · exact absurd hfocus (hfails _)

/-- An application begins with something to go on with, or fails and records the call stack. -/
theorem apply_begins (f : Value) (args : List Value) (s : State) :
    (apply f args [] s).konts ≠ [] ∨
      ∃ fault stack, (apply f args [] s).focus = .failure { fault, trace := some stack } := by
  have hbuiltin : ∀ b : Builtin, (callBuiltin b args [] s).konts ≠ [] ∨
      ∃ fault stack, (callBuiltin b args [] s).focus = .failure { fault, trace := some stack } := by
    intro b
    unfold callBuiltin
    split
    · exact .inr ⟨_, _, rfl⟩
    · split <;> exact .inl (List.cons_ne_nil _ _)
  have henter : ∀ (body : Value) (e : ScopeId) (t : State),
      (enter anonymous body e [] t).konts ≠ [] ∨ ∃ fault stack,
        (enter anonymous body e [] t).focus = .failure { fault, trace := some stack } := by
    intro body e t
    unfold enter
    split
    · exact .inl (List.cons_ne_nil _ _)
    · exact .inr ⟨_, _, rfl⟩
  unfold apply
  split
  · split
    · exact .inr ⟨_, _, rfl⟩
    · exact henter _ _ _
  · exact hbuiltin _
  · exact .inr ⟨_, _, rfl⟩

theorem running_or_failing_reaches (hm : Running base m ∨ ∃ fault stack, Failing fault stack m)
    (h : Reaches m m') : Running base m' ∨ ∃ fault stack, Failing fault stack m' := by
  induction h with
  | refl => exact hm
  | tail _ hstep ih =>
    rcases ih with hrunning | ⟨fault, stack, hfailing⟩
    · rcases running_step hrunning hstep with hrunning' | ⟨fault, -, hfailing, -⟩
      · exact .inl hrunning'
      · exact .inr ⟨fault, _, hfailing⟩
    · exact .inr ⟨fault, stack, failing_step hfailing hstep⟩

/-- **An application that fails has recorded the call stack.** -/
theorem apply_recorded {o : Outcome} {g : Failure}
    (h : Halts { focus := .application f args, konts := [], state := s } o)
    (ho : o.result = .error g) : ∃ stack, g.trace = some stack := by
  have hbalanced := balanced_step (balanced_application f args s) rfl
  have hbegin := running_or_failing_of_balanced hbalanced (apply_begins f args s)
  have hend := running_or_failing_reaches hbegin (halts_iff_reaches.1 ((halts_next rfl).1 h))
  rcases hend with hrunning | ⟨fault, stack, hfailing⟩
  · exact absurd (by simp only [Outcome.above, Outcome.focus, ho]) (hrunning.running g)
  · obtain rfl := Except.error.inj (ho.symm.trans hfailing.eq_of_above)
    exact ⟨stack, rfl⟩

end Applications

/-! ## What `swap!` comes to -/

/-- What `swap!` comes to in the state `s` when it is given `a` and `f`. -/
inductive Swaps (s : State) : Value → Value → Outcome → Prop where
  /-- Its own frame does not fit on the call stack. -/
  | full {a f : Value} (h : s.stack.isFull = true) :
      Swaps s a f { result := .error { fault := overflow s, trace := some s.stack }, state := s }
  /-- The first argument is no atom, whatever the second one is. -/
  | notAtom {a f : Value} {stack : CallStack}
      (hpush : s.stack.push Primitive.swap.name true = some stack) (ha : a.kind ≠ .atom) :
      Swaps s a f
        { result := .error
            { fault := .typeMismatch Primitive.swap.name 1 .atom a, trace := some stack }
          state := s }
  /-- The second argument is no function. -/
  | notCallable {c : CellId} {f : Value} {stack : CallStack}
      (hpush : s.stack.push Primitive.swap.name true = some stack) (hf : f.isCallable = false) :
      Swaps s (.atom c) f
        { result := .error
            { fault := .typeMismatch Primitive.swap.name 2 .function f, trace := some stack }
          state := s }
  /-- The function, applied to the contents in the frame of `swap!`, fails: nothing is stored. -/
  | failed {c : CellId} {f : Value} {stack : CallStack} {fuel : Nat} {g : Failure} {t : State}
      (hpush : s.stack.push Primitive.swap.name true = some stack) (hf : f.isCallable = true)
      (h : State.apply fuel { s with stack } f [s.contents c] =
        some { result := .error g, state := t }) :
      Swaps s (.atom c) f { result := .error g, state := { t with stack := s.stack } }
  /-- It returns `r`, which is stored in the state that it left. -/
  | stored {c : CellId} {f r : Value} {stack : CallStack} {fuel : Nat} {t : State}
      (hpush : s.stack.push Primitive.swap.name true = some stack) (hf : f.isCallable = true)
      (h : State.apply fuel { s with stack } f [s.contents c] =
        some { result := .ok r, state := t }) :
      Swaps s (.atom c) f
        { result := .ok (.atom c), state := State.store { t with stack := s.stack } c r }

section Swaps

variable {s t : State} {a f : Value} {c : CellId} {o : Outcome} {stack : CallStack}

/-- What `swap!` replies: the first argument is checked before the second. -/
theorem run_swap (a f : Value) (t : State) :
    Primitive.swap.builtin.run [a, f] t =
      (match a with
        | .atom c =>
          if f.isCallable then .update c f
          else .fault (.typeMismatch Primitive.swap.name 2 .function f)
        | a => .fault (.typeMismatch Primitive.swap.name 1 .atom a), t) := by
  have hrun : Primitive.swap.builtin.run [a, f] t = Primitive.swap.run Primitive.swap.name [a, f] t :=
    rfl
  rw [hrun, Primitive.run]
  cases a with
  | atom c =>
    simp only [Primitive.cellArgument]
    split <;> rfl
  | _ => rfl

/-- A fault of `swap!` itself leaves the state as it was. -/
theorem halts_fault (hpush : s.stack.push Primitive.swap.name true = some stack) (fault : Fault) :
    Halts (fail fault [.leave] { s with stack })
      { result := .error { fault, trace := some stack }, state := s } := by
  refine ⟨2, ?_⟩
  have hdrop := CallStack.drop_of_push hpush
  simp only [run, step, fail, unwind, Failure.attach, hdrop]

/-- A failure that has a trace passes what `swap!` waits with. -/
theorem halts_failure_past_update {g : Failure} {trace : CallStack} (hg : g.trace = some trace)
    (c : CellId) (t : State) :
    Halts (Outcome.above { result := .error g, state := t } [.update c, .leave])
      { result := .error g, state := { t with stack := t.stack.drop } } := by
  have hattach := g.attach_of_trace (Option.isSome_iff_exists.2 ⟨trace, hg⟩) t.stack
  refine ⟨3, ?_⟩
  simp only [run, step, Outcome.above, Outcome.focus, unwind, hattach]

/-- A value is stored by what `swap!` waits with. -/
theorem halts_value_past_update (r : Value) (c : CellId) (t : State) :
    Halts (Outcome.above { result := .ok r, state := t } [.update c, .leave])
      { result := .ok (.atom c), state := State.store { t with stack := t.stack.drop } c r } :=
  ⟨3, rfl⟩

/-- **What the application comes to decides**: its failure is that of `swap!`, and its value is
stored. -/
theorem halts_update_iff (hpush : s.stack.push Primitive.swap.name true = some stack)
    (hf : f.isCallable = true) :
    Halts
        { focus := .application f [s.contents c], konts := [.update c, .leave]
          state := { s with stack } } o ↔ Swaps s (.atom c) f o := by
  have hdrop := CallStack.drop_of_push hpush
  -- the application alone, and then what waits for it
  have hsplit := @halts_atop
    { focus := .application f [s.contents c], konts := [], state := { s with stack } } o
    [.update c, .leave]
  refine Iff.trans hsplit ⟨?_, fun h => ?_⟩
  · rintro ⟨⟨result, t⟩, ⟨fuel, happly⟩, hrest⟩
    have hstack : t.stack.drop = s.stack := by rw [apply_stack happly, hdrop]
    cases result with
    | error g =>
      obtain ⟨trace, htrace⟩ := apply_recorded ⟨fuel, happly⟩ rfl
      rw [hrest.unique (halts_failure_past_update htrace c t), hstack]
      exact .failed hpush hf happly
    | ok r =>
      rw [hrest.unique (halts_value_past_update r c t), hstack]
      exact .stored hpush hf happly
  · cases h with
    | full hfull =>
      rw [(CallStack.push_eq_some hpush).2.2] at hfull
      cases hfull
    | notAtom _ ha => exact absurd rfl ha
    | notCallable _ hf' =>
      rw [hf] at hf'
      cases hf'
    | @failed _ _ _ fuel g t hpush' _ happly =>
      obtain rfl := Option.some.inj (hpush'.symm.trans hpush)
      obtain ⟨trace, htrace⟩ := apply_recorded ⟨fuel, happly⟩ rfl
      have hrest := halts_failure_past_update htrace c t
      rw [apply_stack happly, hdrop] at hrest
      exact ⟨_, ⟨fuel, happly⟩, hrest⟩
    | @stored _ _ r _ fuel t hpush' _ happly =>
      obtain rfl := Option.some.inj (hpush'.symm.trans hpush)
      have hrest := halts_value_past_update r c t
      rw [apply_stack happly, hdrop] at hrest
      exact ⟨_, ⟨fuel, happly⟩, hrest⟩

/-- **The machine of `swap!` comes to what `swap!` comes to.** -/
theorem halts_swap_iff :
    Halts (callBuiltin Primitive.swap.builtin [a, f] [] s) o ↔ Swaps s a f o := by
  have hname : Primitive.swap.builtin.name = Primitive.swap.name := rfl
  unfold callBuiltin
  rw [hname]
  cases hpush : s.stack.push Primitive.swap.name true with
  | none =>
    have hfull := isFull_of_push_eq_none hpush
    have hhalts : Halts (failHere (overflow s) [] s)
        { result := .error { fault := overflow s, trace := some s.stack }, state := s } := ⟨1, rfl⟩
    refine ⟨fun h => h.unique hhalts ▸ .full hfull, fun h => ?_⟩
    cases h with
    | full => exact hhalts
    | notAtom hpush' | notCallable hpush' | failed hpush' | stored hpush' =>
      rw [hpush] at hpush'
      cases hpush'
  | some stack =>
    have hroom := (CallStack.push_eq_some hpush).2.2
    simp only [run_swap]
    by_cases ha : a.kind = .atom
    · obtain ⟨c, rfl⟩ : ∃ c, a = .atom c := by
        cases a with
        | atom c => exact ⟨c, rfl⟩
        | scalar source content => cases content <;> cases ha
        | _ => cases ha
      cases hf : f.isCallable with
      | true => exact halts_update_iff hpush hf
      | false =>
        have hhalts := halts_fault hpush (.typeMismatch Primitive.swap.name 2 .function f)
        refine ⟨fun h => h.unique hhalts ▸ .notCallable hpush hf, fun h => ?_⟩
        cases h with
        | full hfull => rw [hroom] at hfull; cases hfull
        | notAtom _ ha' => exact absurd ha ha'
        | notCallable hpush' =>
          obtain rfl := Option.some.inj (hpush'.symm.trans hpush)
          exact hhalts
        | failed _ hf' | stored _ hf' =>
          rw [hf] at hf'
          cases hf'
    · have hreply : (match a with
          | .atom c =>
            if f.isCallable then Reply.update c f
            else .fault (.typeMismatch Primitive.swap.name 2 .function f)
          | a => .fault (.typeMismatch Primitive.swap.name 1 .atom a)) =
          .fault (.typeMismatch Primitive.swap.name 1 .atom a) := by
        cases a with
        | atom c => exact absurd rfl ha
        | _ => rfl
      have hhalts := halts_fault hpush (.typeMismatch Primitive.swap.name 1 .atom a)
      rw [hreply]
      refine ⟨fun h => h.unique hhalts ▸ .notAtom hpush ha, fun h => ?_⟩
      cases h with
      | full hfull => rw [hroom] at hfull; cases hfull
      | notAtom hpush' =>
        obtain rfl := Option.some.inj (hpush'.symm.trans hpush)
        exact hhalts
      | notCallable | failed | stored => exact absurd rfl ha

/-- A run only adds cells. -/
theorem cells_size_reaches {m m' : Machine} (h : Reaches m m') :
    m.state.cells.size ≤ m'.state.cells.size :=
  (m.respects_all.reaches m.state.confines_all.closed ⟨fun _ _ => trivial, fun _ _ => trivial⟩
    (fun _ _ _ _ _ _ => trivial) h).2.cells_size

/-- After a `swap!` that succeeded the cell holds what the function returned, whatever the function
stored there, and all other cells hold what the function left in them. -/
theorem Swaps.cells {v : Value} (h : Swaps s (.atom c) f o) (hc : c < s.cells.size)
    (ho : o.result = .ok v) :
    v = .atom c ∧ ∃ stack fuel r t, s.stack.push Primitive.swap.name true = some stack ∧
      State.apply fuel { s with stack } f [s.contents c] = some { result := .ok r, state := t } ∧
      o.state.cells[c]? = some r ∧ ∀ d ≠ c, o.state.cells[d]? = t.cells[d]? := by
  cases h with
  | full | notAtom | notCallable | failed => cases ho
  | @stored _ _ r stack fuel t hpush _ happly =>
    have hsize : s.cells.size ≤ t.cells.size := cells_size_reaches (reaches_of_run happly)
    refine ⟨(Except.ok.inj ho).symm, stack, fuel, r, t, hpush, happly, ?_, fun d hd => ?_⟩
    · exact Array.getElem?_setIfInBounds_self_of_lt (Nat.lt_of_lt_of_le hc hsize)
    · exact Array.getElem?_setIfInBounds_ne (Ne.symm hd)

/-- **`swap!` is exact.** Applied, or called anywhere in a program, it comes to what `Swaps` says: the
type errors of its arguments, the failure of the function with the state that this left, or the atom
with the value of the function in its cell. -/
theorem swap_exact (s : State) (a f : Value) :
    (∀ o, (∃ fuel, s.apply fuel (.builtin Primitive.swap.builtin) [a, f] = some o) ↔
      Swaps s a f o) ∧
    (∀ ks o, Halts (callBuiltin Primitive.swap.builtin [a, f] ks s) o ↔
      ∃ o₁, Swaps s a f o₁ ∧ Halts (o₁.above ks) o) ∧
    ∀ c o v, a = .atom c → c < s.cells.size → Swaps s a f o → o.result = .ok v →
      v = .atom c ∧ ∃ stack fuel r t, s.stack.push Primitive.swap.name true = some stack ∧
        State.apply fuel { s with stack } f [s.contents c] = some { result := .ok r, state := t } ∧
        o.state.cells[c]? = some r ∧ ∀ d ≠ c, o.state.cells[d]? = t.cells[d]? := by
  refine ⟨fun o => ?_, fun ks o => ?_, ?_⟩
  · exact (halts_next rfl).trans halts_swap_iff
  · have hatop : callBuiltin Primitive.swap.builtin [a, f] ([] ++ ks) s =
        (callBuiltin Primitive.swap.builtin [a, f] [] s).atop ks := callBuiltin_atop ks _ _
    rw [List.nil_append] at hatop
    rw [hatop, halts_atop]
    simp only [halts_swap_iff]
  · rintro c o v rfl hc h ho
    exact h.cells hc ho

/-- The function stores 5 into the very cell that is swapped, and returns 7. -/
theorem swap_exact_reset : ∃ o,
    Swaps { cells := #[.int 1] } (.atom 0)
      (.closure 0 ["x"] (.list none [.symbol "do",
        .list none [.builtin Primitive.reset.builtin, .atom 0, .int 5], .int 7]) 0) o ∧
    o.result = .ok (.atom 0) ∧ o.state.cells[0]? = some (.int 7) := by
  obtain ⟨o, h, hresult, hcell⟩ : ∃ o, State.apply 25 { cells := #[.int 1] }
      (.builtin Primitive.swap.builtin) [.atom 0, .closure 0 ["x"] (.list none [.symbol "do",
        .list none [.builtin Primitive.reset.builtin, .atom 0, .int 5], .int 7]) 0] = some o ∧
      o.result = .ok (.atom 0) ∧ o.state.cells[0]? = some (.int 7) := ⟨_, rfl, rfl, rfl⟩
  exact ⟨o, ((swap_exact { cells := #[.int 1] } (.atom 0) _).1 o).1 ⟨25, h⟩, hresult, hcell⟩

end Swaps

end TinyLisp
