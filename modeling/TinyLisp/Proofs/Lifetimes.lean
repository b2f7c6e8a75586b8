import TinyLisp.Proofs.Overflow
import TinyLisp.Proofs.TailCalls

/-!
# The life of a frame

Whatever is called on a call stack, and in whatever order, a frame is there from the push that adds
it to the pop that removes it. Until then it is on top whenever the stack has the height that the
push gave it, so it is handed on by the tail calls at that height, and nothing else changes it.

* `CallStack.perform`: one call on a stack, with its answer; `CallStack.Ran`: calls in order.
* `CallStack.Does`: what a call does to the frames.
* `Ran.height_add`: the height counts the frames pushed and popped.
* `Ran.exists_push`: the push that a frame on the stack goes back to.
* `Does.handed_on`: what a call makes of a frame and of those below it, `Ran.handed_on`: what any
  calls do.
* `Ran.pop_eq`: the frame that is popped, and the stack that is left.
* `last_in_first_out`: what any calls on an empty stack come to.
-/

namespace TinyLisp

namespace CallStack

/-! ## Calls -/

/-- What can be called on a call stack. -/
inductive Call where
  /-- Adds a frame. -/
  | push (name : Text) (builtin : Bool)
  /-- Hands the innermost frame to a function. -/
  | tailCall (name : Text)
  /-- Removes the innermost frame. -/
  | pop

/-- What a call comes to. -/
inductive Answer where
  | pushed
  /-- The push was refused, since the stack is full. -/
  | refused
  | handedOn
  | popped (f : CallFrame)

/-- Whether a frame was pushed. -/
def Answer.isPushed : Answer → Bool
  | .pushed => true
  | _ => false

/-- Whether a frame was popped. -/
def Answer.isPopped : Answer → Bool
  | .popped _ => true
  | _ => false

/-- Performs one call. There is no stack behind a pop of an empty stack. -/
def perform (s : CallStack) : Call → Option (Answer × CallStack)
  | .push name builtin =>
    match s.push name builtin with
    | some t => some (.pushed, t)
    | none => some (.refused, s)
  | .tailCall name => some (.handedOn, s.tailCall name)
  | .pop =>
    match s.pop with
    | some (f, t) => some (.popped f, t)
    | none => none

/-- A call that was performed. -/
structure Event where
  /-- The stack that it was performed on. -/
  before : CallStack
  call : Call
  answer : Answer

/-- The calls `past`, the last one first, led from the stack `base` to the stack that is there
now. -/
inductive Ran (base : CallStack) : List Event → CallStack → Prop where
  | start : Ran base [] base
  | call {past : List Event} {s t : CallStack} {a : Answer} (h : Ran base past s) (c : Call)
      (hc : s.perform c = some (a, t)) : Ran base (⟨s, c, a⟩ :: past) t

/-- The function that a tail call at the given height names. -/
def Event.callee? (height : Nat) (e : Event) : Option Text :=
  match e.call with
  | .tailCall name => if e.before.height = height then some name else none
  | _ => none

/-- The functions that were called in tail position while the stack had the given height, the last
one first. -/
def callees (height : Nat) (past : List Event) : List Text := past.filterMap (Event.callee? height)

/-! ## What a call does -/

variable {base s t : CallStack} {c : Call} {a : Answer} {past : List Event}

/-- What a call does to the frames: a push adds one if there is room, a tail call changes the one on
top, and a pop removes it. -/
inductive Does (s : CallStack) : Call → Answer → CallStack → Prop where
  | pushed {t : CallStack} (name : Text) (builtin : Bool) (hroom : s.isFull = false)
      (ht : t.frames = { name, builtin } :: s.frames) : Does s (.push name builtin) .pushed t
  | refused (name : Text) (builtin : Bool) (hfull : s.isFull = true) :
      Does s (.push name builtin) .refused s
  | handedOn {t : CallStack} {f : CallFrame} {fs : List CallFrame} (name : Text)
      (hs : s.frames = f :: fs) (ht : t.frames = f.handOn name :: fs) :
      Does s (.tailCall name) .handedOn t
  | empty (name : Text) (hs : s.frames = []) : Does s (.tailCall name) .handedOn s
  | popped {t : CallStack} {f : CallFrame} (hs : s.frames = f :: t.frames) :
      Does s .pop (.popped f) t

theorem tailCall_of_empty (h : s.frames = []) (name : Text) : s.tailCall name = s := by
  unfold tailCall
  split
  · rfl
  · rename_i hs
    rw [h] at hs
    cases hs

theorem does_of_perform (h : s.perform c = some (a, t)) : Does s c a t ∧ t.limit = s.limit := by
  cases c with
  | push name builtin =>
    cases hpush : s.push name builtin with
    | some t' =>
      simp only [perform, hpush] at h
      cases h
      obtain ⟨hframes, hlimit, hroom⟩ := push_eq_some hpush
      exact ⟨.pushed name builtin hroom hframes, hlimit⟩
    | none =>
      simp only [perform, hpush] at h
      cases h
      exact ⟨.refused name builtin (Machine.isFull_of_push_eq_none hpush), rfl⟩
  | tailCall name =>
    cases h
    refine ⟨?_, tailCall_limit⟩
    cases hs : s.frames with
    | nil => rw [tailCall_of_empty hs]; exact .empty name hs
    | cons f fs => exact .handedOn name hs (tailCall_frames hs)
  | pop =>
    cases hs : s.frames with
    | nil => simp only [perform, pop, hs, reduceCtorEq] at h
    | cons f fs =>
      simp only [perform, pop, hs] at h
      cases h
      have htail : s.drop.frames = fs := congrArg List.tail hs
      exact ⟨.popped (htail ▸ hs), rfl⟩

/-- Only a pop of an empty stack cannot be performed. -/
theorem perform_eq_none_iff : s.perform c = none ↔ c = .pop ∧ s.height = 0 := by
  rw [s.height_eq, List.length_eq_zero_iff]
  cases c with
  | push name builtin => cases hpush : s.push name builtin <;> simp [perform, hpush]
  | tailCall name => simp [perform]
  | pop => cases hs : s.frames <;> simp [perform, pop, hs]

/-- The frames below the one on top stay as they are. -/
theorem Does.tail_suffix (h : Does s c a t) : s.frames.tail <:+ t.frames := by
  cases h with
  | pushed _ _ _ ht => exact ht ▸ (List.tail_suffix _).trans (List.suffix_cons _ _)
  | refused => exact List.tail_suffix _
  | handedOn _ hs ht => rw [hs, ht]; exact List.suffix_cons _ _
  | empty => exact List.tail_suffix _
  | popped hs => rw [hs]; exact List.suffix_rfl

theorem top_of_pop {f : CallFrame} (h : s.pop = some (f, t)) : s.top = some f := by
  cases hs : s.frames with
  | nil => simp only [pop, hs, reduceCtorEq] at h
  | cons g gs =>
    simp only [pop, hs] at h
    cases h
    exact congrArg List.head? hs

/-! ## The height -/

theorem Does.height_add (h : Does s c a t) :
    t.height + (if a.isPopped then 1 else 0) = s.height + if a.isPushed then 1 else 0 := by
  rw [t.height_eq, s.height_eq]
  cases h with
  | pushed _ _ _ ht => rw [ht]; rfl
  | refused => rfl
  | handedOn _ hs ht => rw [hs, ht]; rfl
  | empty => rfl
  | popped hs => rw [hs]; rfl

/-- A stack grows by pushes only. -/
theorem Does.of_height_lt (h : Does s c a t) (hlt : s.height < t.height) :
    ∃ name builtin, c = .push name builtin ∧ a = .pushed ∧ s.isFull = false ∧
      t.frames = { name, builtin } :: s.frames ∧ t.height = s.height + 1 := by
  have hstep := h.height_add
  cases h with
  | pushed name builtin hroom ht => exact ⟨name, builtin, rfl, rfl, hroom, ht, hstep⟩
  | refused => exact absurd hlt (Nat.lt_irrefl _)
  | handedOn => exact absurd hlt (Nat.not_lt.2 (Nat.le_of_eq hstep))
  | empty => exact absurd hlt (Nat.lt_irrefl _)
  | popped => exact absurd hlt (Nat.not_lt.2 (Nat.le.intro hstep))

/-- **The height counts the frames** that were pushed and not popped. -/
theorem Ran.height_add (h : Ran base past s) :
    s.height + past.countP (·.answer.isPopped) =
      base.height + past.countP (·.answer.isPushed) := by
  induction h with
  | start => rfl
  | @call past s t a _ c hc ih =>
    have hstep := (does_of_perform hc).1.height_add
    rw [List.countP_cons, List.countP_cons]
    dsimp only
    omega

theorem Ran.limit_eq (h : Ran base past s) : s.limit = base.limit := by
  induction h with
  | start => rfl
  | call _ _ hc ih => exact (does_of_perform hc).2.trans ih

/-- A stack does not grow beyond its limit. -/
theorem Ran.height_le (h : Ran base past s) (hpos : 0 < base.limit)
    (hbase : (base.height : Int) ≤ base.limit) : (s.height : Int) ≤ base.limit := by
  induction h with
  | start => exact hbase
  | @call past s t a h c hc ih =>
    rcases Nat.lt_or_ge s.height t.height with hlt | hge
    · obtain ⟨-, -, -, -, hroom, -, hheight⟩ := (does_of_perform hc).1.of_height_lt hlt
      have hlimit := h.limit_eq
      have hbelow : ¬s.limit ≤ s.height := by
        rw [← isFull_iff (hlimit ▸ hpos), hroom]
        exact Bool.false_ne_true
      omega
    · omega

/-! ## From a push to a pop -/

/-- A stack that is higher than at first goes back to a push at every height in between: the last
one at that height, since when the stack has been higher. -/
theorem Ran.exists_push (h : Ran base past s) {n : Nat} (hbase : base.height ≤ n)
    (hs : n < s.height) :
    ∃ life earlier b t name builtin,
      past = life ++ ⟨b, .push name builtin, .pushed⟩ :: earlier ∧ b.height = n ∧
      (∀ e ∈ life, n < e.before.height) ∧ t.frames = { name, builtin } :: b.frames ∧
      t.limit = b.limit ∧ Ran t life s := by
  induction h with
  | start => omega
  | @call past s t a h c hc ih =>
    rcases Nat.lt_or_ge n s.height with hn | hn
    · obtain ⟨life, earlier, b, t', name, builtin, rfl, hb, hlife, hframes, hlimit, hran⟩ := ih hn
      refine ⟨⟨s, c, a⟩ :: life, earlier, b, t', name, builtin, rfl, hb, ?_, hframes, hlimit,
        hran.call c hc⟩
      exact List.forall_mem_cons.2 ⟨hn, hlife⟩
    · -- the height passes `n` in this call, which is the push
      obtain ⟨hdoes, hlimit⟩ := does_of_perform hc
      obtain ⟨name, builtin, rfl, rfl, -, hframes, hheight⟩ := hdoes.of_height_lt (by omega)
      exact ⟨[], past, s, t, name, builtin, rfl, by omega, by simp, hframes, hlimit, .start⟩

theorem callees_tailCall (height : Nat) (name : Text) (a : Answer) :
    callees height [⟨s, .tailCall name, a⟩] = if s.height = height then [name] else [] := by
  by_cases h : s.height = height <;> simp [callees, Event.callee?, h]

/-- **A call hands a frame on if it is a tail call at the height of the frame.** No other call
changes a frame that stays, and none changes those below it. -/
theorem Does.handed_on {f : CallFrame} {above below : List CallFrame} (h : Does s c a t)
    (hs : s.frames = above ++ f :: below) (ht : below.length < t.height) :
    ∃ above', t.frames =
      above' ++ f.handOnAll (callees (below.length + 1) [⟨s, c, a⟩]) :: below := by
  have hlength := s.height_eq
  rw [hs, List.length_append, List.length_cons] at hlength
  cases h with
  | pushed name builtin _ hpush => exact ⟨{ name, builtin } :: above, by rw [hpush, hs]; rfl⟩
  | refused => exact ⟨above, hs⟩
  | empty _ hf => rw [hf] at hs; simp at hs
  | handedOn name hf hhand =>
    rw [hs] at hf
    rw [callees_tailCall]
    cases above with
    | nil =>
      obtain ⟨rfl, rfl⟩ := List.cons.inj hf
      rw [if_pos (by simpa using hlength)]
      exact ⟨[], hhand⟩
    | cons g above =>
      obtain ⟨rfl, rfl⟩ := List.cons.inj hf
      rw [List.length_cons] at hlength
      rw [if_neg (by omega)]
      exact ⟨g.handOn name :: above, hhand⟩
  | popped hf =>
    rw [hs] at hf
    cases above with
    | nil =>
      -- the frame itself would be popped, and the stack not be higher than below it
      obtain ⟨-, htail⟩ := List.cons.inj hf
      rw [t.height_eq, ← htail] at ht
      exact absurd ht (Nat.lt_irrefl _)
    | cons g above => exact ⟨above, (List.cons.inj hf).2.symm⟩

/-- **While a frame is there, only the tail calls at its height change it**, and what is below it
does not change. -/
theorem Ran.handed_on {f : CallFrame} {below : List CallFrame} {life : List Event}
    (h : Ran base life s) (hbase : base.frames = f :: below)
    (hlife : ∀ e ∈ life, below.length < e.before.height) (hs : below.length < s.height) :
    ∃ above, s.frames =
      above ++ f.handOnAll (callees (below.length + 1) life) :: below := by
  induction h with
  | start => exact ⟨[], hbase⟩
  | @call life s t a h c hc ih =>
    obtain ⟨hheight, hlife⟩ := List.forall_mem_cons.1 hlife
    obtain ⟨above, hframes⟩ := ih hlife hheight
    have hcallees : callees (below.length + 1) (⟨s, c, a⟩ :: life) =
        callees (below.length + 1) [⟨s, c, a⟩] ++ callees (below.length + 1) life :=
      List.filterMap_append (l := [_]) ..
    rw [hcallees, CallFrame.handOnAll, List.foldr_append]
    exact (does_of_perform hc).1.handed_on hframes hs

/-- **A pop undoes the last push that was not undone**: what it leaves is the stack of that push,
and the frame is the one pushed, handed on to the functions called while it was on top. -/
theorem Ran.pop_eq {f : CallFrame} {r : CallStack} (h : Ran base past s) (hbase : base.height = 0)
    (hpop : s.pop = some (f, r)) :
    ∃ life earlier name builtin,
      past = life ++ ⟨r, .push name builtin, .pushed⟩ :: earlier ∧
      (∀ e ∈ life, r.height < e.before.height) ∧
      life.countP (·.answer.isPopped) = life.countP (·.answer.isPushed) ∧
      f = ({ name, builtin } : CallFrame).handOnAll (callees s.height life) := by
  obtain ⟨hdoes, hlimit⟩ := does_of_perform (show s.perform .pop = some (.popped f, r) by
    simp only [perform, hpop])
  have hheight : r.height + 1 = s.height := hdoes.height_add
  obtain ⟨life, earlier, b, t, name, builtin, rfl, hb, hlife, hframes, hblimit, hran⟩ :=
    h.exists_push (n := r.height) (by omega) (by omega)
  have hbelow : b.frames.length = r.height := b.height_eq.symm.trans hb
  rw [← hbelow] at hlife
  obtain ⟨above, habove⟩ := hran.handed_on hframes hlife (by omega)
  rw [hbelow, hheight] at habove
  cases hdoes with
  | popped hs =>
    have hsame := hs.symm.trans habove
    -- there are as many frames below `f` as below the one that was pushed
    have hlength := congrArg List.length hsame
    rw [List.length_append, List.length_cons, List.length_cons, ← r.height_eq, hbelow] at hlength
    obtain rfl : above = [] := List.eq_nil_of_length_eq_zero (by omega)
    obtain ⟨hf, hrest⟩ := List.cons.inj hsame
    obtain rfl : r = b :=
      eq_of_frames hrest (hlimit.symm ▸ hran.limit_eq.trans hblimit)
    have hcount := hran.height_add
    rw [t.height_eq, hframes, List.length_cons, hbelow, hheight] at hcount
    exact ⟨life, earlier, name, builtin, rfl, hbelow ▸ hlife, Nat.add_left_cancel hcount, hf⟩

end CallStack

open CallStack in
/-- **A call stack is last in, first out.** After any calls on an empty stack, whatever its limit,
every call but a pop of an empty stack can be performed. A push is refused if and only if the stack
is as high as its limit, and then it leaves the stack alone. The height counts the frames that were
pushed and not popped, and no call changes a frame below the one on top. The frame that is popped is
that of the last push that was not undone, and what is left is the stack of that push. The frame is
that of a built-in function if it was pushed so; it bears the name of the last function that was
called in tail position while it was on top; and if these functions have names, it counts them all
but the first that came into a frame without a name. -/
theorem last_in_first_out (m : Int) {past : List Event} {s : CallStack}
    (h : Ran { limit := m } past s) :
    (∀ c, s.perform c = none ↔ c = .pop ∧ s.height = 0) ∧
    (∀ name builtin, s.push name builtin = none ↔ 0 < m ∧ (s.height : Int) = m) ∧
    (∀ name builtin, s.push name builtin = none →
      s.perform (.push name builtin) = some (.refused, s)) ∧
    s.height + past.countP (·.answer.isPopped) = past.countP (·.answer.isPushed) ∧
    (∀ c a t, s.perform c = some (a, t) → s.frames.tail <:+ t.frames) ∧
    ∀ f r, s.pop = some (f, r) → s.top = some f ∧
      ∃ life earlier name builtin,
        past = life ++ ⟨r, .push name builtin, .pushed⟩ :: earlier ∧
        (∀ e ∈ life, r.height < e.before.height) ∧
        life.countP (·.answer.isPopped) = life.countP (·.answer.isPushed) ∧
        f.builtin = builtin ∧ f.name = (callees s.height life).headD name ∧
        ((∀ callee ∈ callees s.height life, callee ≠ []) →
          f.tailCalls = if name = [] then (callees s.height life).length - 1
            else (callees s.height life).length) := by
  have hlimit : s.limit = m := h.limit_eq
  refine ⟨fun c => perform_eq_none_iff, fun name builtin => ⟨fun hnone => ?_, ?_⟩, ?_, ?_, ?_, ?_⟩
  · have hfull := Machine.isFull_of_push_eq_none hnone
    rw [isFull_eq_true_iff, hlimit] at hfull
    exact ⟨hfull.1, Int.le_antisymm (h.height_le hfull.1 (Int.le_of_lt hfull.1)) hfull.2⟩
  · rintro ⟨hpos, hheight⟩
    have hfull : s.isFull = true := isFull_eq_true_iff.2 (by omega)
    simp only [push, hfull, if_true]
  · intro name builtin hnone
    simp only [perform, hnone]
  · exact h.height_add.trans (Nat.zero_add _)
  · exact fun c a t hc => (does_of_perform hc).1.tail_suffix
  · intro f r hpop
    have htop := top_of_pop hpop
    obtain ⟨life, earlier, name, builtin, hpast, hlife, hcount, rfl⟩ := h.pop_eq rfl hpop
    refine ⟨htop, life, earlier, name, builtin, hpast, hlife, hcount, by simp, by simp, ?_⟩
    intro hcallees
    simp [CallFrame.handOnAll_tailCalls hcallees]

open CallStack in
/-- A frame without a name is handed on twice, a push is refused, and the frame is popped. -/
theorem last_in_first_out_refused : ∃ past s f,
    Ran { limit := 1 } past s ∧ s.push "h" false = none ∧
      s.pop = some (f, { limit := 1 }) ∧ f.name = "g" ∧ f.tailCalls = 1 := by
  have handed : Ran { limit := 1 } _ _ :=
    ((Ran.start.call (.push [] false) rfl).call (.tailCall "f") rfl).call (.tailCall "g") rfl
  have run := handed.call (.push "h" false) rfl
  obtain ⟨-, hfull, -, -, -, hpop⟩ := last_in_first_out 1 run
  obtain ⟨-, life, earlier, name, builtin, hpast, -, -, -, hname, hcalls⟩ := hpop _ _ rfl
  refine ⟨_, _, _, run, (hfull _ _).2 ⟨by decide, rfl⟩, rfl, ?_⟩
  -- the push that the frame goes back to is the first call
  rcases life with _ | ⟨e₁, _ | ⟨e₂, _ | ⟨e₃, _ | ⟨e₄, life⟩⟩⟩⟩
  · simp at hpast
  · simp at hpast
  · simp at hpast
  · simp only [List.cons_append, List.nil_append, List.cons.injEq, Event.mk.injEq,
      Call.push.injEq] at hpast
    obtain ⟨rfl, rfl, rfl, ⟨-, ⟨rfl, rfl⟩, -⟩, rfl⟩ := hpast
    exact ⟨hname, hcalls (by decide)⟩
  · simp at hpast

end TinyLisp
