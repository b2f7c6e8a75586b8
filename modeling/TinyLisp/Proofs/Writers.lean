import TinyLisp.Eval.State

/-!
# Writing a trace to a writer that fails

The trace of a call stack is written line by line, and writing it stops at the first write that
fails. So what a writer gets to see of a trace is a number of its first lines, however the writer
goes on after a failure.

* `CallStack.writeTo_eq`: writing a trace is writing its lines in order (`Writer.writeAll`).
* `Writer.Accepts`, `Writer.Takes`: the writes that a writer takes whole.
* `Writer.writeAll_of_accepts`: what becomes of pieces when the writer takes some of them.
* `State.writeAll_debugOutput`: what the program's debugging output takes of pieces.
* `CallStack.rendering`: the lines of a trace, spelled out.
* `writeTo_cut_off`: what is written of a trace, and what writing it comes to.
-/

namespace TinyLisp

variable {σ ε : Type}

namespace Writer

variable {w : Writer σ ε} {x y : σ} {piece : Text} {pieces : List Text} {k : Nat}

/-- Writes pieces in order, after `count` bytes have been written, up to the first write that
fails. -/
def writeAll (w : Writer σ ε) : List Text → Nat → σ → Receipt ε × σ
  | [], count, x => ({ count, error := none }, x)
  | piece :: pieces, count, x =>
    let (receipt, x) := w.write piece x
    match receipt.error with
    | some e => ({ count := count + receipt.count, error := some e }, x)
    | none => w.writeAll pieces (count + receipt.count) x

/-- The writer takes the next `k` writes whole. The one after them fails, and nothing of it is
taken. -/
def Accepts (w : Writer σ ε) : Nat → σ → Prop
  | 0, x => ∀ piece, ∃ e, (w.write piece x).1 = { count := 0, error := some e }
  | k + 1, x => ∀ piece, (w.write piece x).1 = { count := piece.length, error := none } ∧
      w.Accepts k (w.write piece x).2

/-- The writer takes the pieces whole, one after the other, which leads from the state `x` to the
state `y`. -/
inductive Takes (w : Writer σ ε) : List Text → σ → σ → Prop where
  | nil (x : σ) : Takes w [] x x
  | cons {piece : Text} {pieces : List Text} {x y z : σ}
      (h : w.write piece x = ({ count := piece.length, error := none }, y))
      (hs : Takes w pieces y z) : Takes w (piece :: pieces) x z

/-- A writer that accepts nothing more fails and takes nothing. -/
theorem Accepts.write_zero (hw : w.Accepts 0 x) (piece : Text) :
    ∃ e y, w.write piece x = ({ count := 0, error := some e }, y) := by
  obtain ⟨e, he⟩ := hw piece
  exact ⟨e, _, Prod.ext he rfl⟩

theorem Accepts.write_succ (hw : w.Accepts (k + 1) x) (piece : Text) :
    ∃ y, w.write piece x = ({ count := piece.length, error := none }, y) ∧ w.Accepts k y :=
  ⟨_, Prod.ext (hw piece).1 rfl, (hw piece).2⟩

theorem writeAll_cons_of_error {n : Nat} {e : ε}
    (h : w.write piece x = ({ count := n, error := some e }, y)) (pieces : List Text)
    (count : Nat) :
    w.writeAll (piece :: pieces) count x = ({ count := count + n, error := some e }, y) := by
  simp only [writeAll, h]

theorem writeAll_cons_of_ok {n : Nat}
    (h : w.write piece x = ({ count := n, error := none }, y)) (pieces : List Text) (count : Nat) :
    w.writeAll (piece :: pieces) count x = w.writeAll pieces (count + n) y := by
  simp only [writeAll, h]

/-- **The writer takes the first `k` of the pieces.** If there are more, the next one is tried as
well, and writing stops with the error of that write. -/
theorem writeAll_of_accepts (hw : w.Accepts k x) (pieces : List Text) (count : Nat) :
    ∃ y, w.Takes (pieces.take k) x y ∧
      (pieces.length ≤ k → w.writeAll pieces count x =
        ({ count := count + (pieces.take k).flatten.length, error := none }, y)) ∧
      (k < pieces.length → ∃ piece e z, pieces[k]? = some piece ∧
        w.write piece y = ({ count := 0, error := some e }, z) ∧
        w.writeAll pieces count x =
          ({ count := count + (pieces.take k).flatten.length, error := some e }, z)) := by
  induction pieces generalizing k count x with
  | nil =>
    rw [List.take_nil]
    exact ⟨x, .nil x, fun _ => rfl, fun h => absurd h (Nat.not_lt_zero k)⟩
  | cons piece pieces ih =>
    cases k with
    | zero =>
      obtain ⟨e, z, hwrite⟩ := hw.write_zero piece
      exact ⟨x, .nil x, fun h => absurd h (Nat.not_succ_le_zero _), fun _ =>
        ⟨piece, e, z, rfl, hwrite, writeAll_cons_of_error hwrite pieces count⟩⟩
    | succ k =>
      obtain ⟨x', hwrite, hw'⟩ := hw.write_succ piece
      obtain ⟨y, htakes, hall, hcut⟩ := ih hw' (count + piece.length)
      rw [List.take_succ_cons, List.flatten_cons, List.length_append, ← Nat.add_assoc,
        writeAll_cons_of_ok hwrite, List.length_cons, List.getElem?_cons_succ]
      exact ⟨y, .cons hwrite htakes, fun h => hall (Nat.le_of_succ_le_succ h),
        fun h => hcut (Nat.lt_of_succ_lt_succ h)⟩

/-! ## Counting the writes -/

/-- The writer, with a count of all writes that are tried. -/
def counted (w : Writer σ ε) : Writer (σ × Nat) ε where
  write piece x :=
    let (receipt, y) := w.write piece x.1
    (receipt, y, x.2 + 1)

/-- Counting the writes does not change what is accepted. -/
theorem Accepts.counted (hw : w.Accepts k x) (tried : Nat) : w.counted.Accepts k (x, tried) := by
  induction k generalizing x tried with
  | zero => exact hw
  | succ k ih => exact fun piece => ⟨(hw piece).1, ih (hw piece).2 (tried + 1)⟩

/-- What was taken was tried once for each piece. -/
theorem Takes.tried_eq {a b : σ × Nat} (h : w.counted.Takes pieces a b) :
    b.2 = a.2 + pieces.length := by
  induction h with
  | nil => rfl
  | @cons piece pieces a b _ hwrite _ ih =>
    have hb : a.2 + 1 = b.2 := congrArg (fun r => r.2.2) hwrite
    rw [ih, ← hb, List.length_cons]
    omega

/-- No write is tried behind the first that fails. -/
theorem tried_writeAll (hw : w.Accepts k x) (pieces : List Text) (count : Nat) :
    (w.counted.writeAll pieces count (x, 0)).2.2 = min (k + 1) pieces.length := by
  obtain ⟨y, htakes, hall, hcut⟩ := writeAll_of_accepts (hw.counted 0) pieces count
  have htried := htakes.tried_eq
  rw [List.length_take, Nat.zero_add] at htried
  rcases Nat.lt_or_ge k pieces.length with hk | hk
  · obtain ⟨piece, e, z, -, hwrite, hprint⟩ := hcut hk
    have hz : y.2 + 1 = z.2 := congrArg (fun r => r.2.2) hwrite
    rw [hprint, ← hz, htried]
    omega
  · rw [hall hk, htried]
    omega

end Writer

/-! ## Sinks -/

/-- A sink accepts as many writes as it says. -/
theorem Sink.accepts_writer (k : Nat) : writer.Accepts k { accepts := some k } := by
  induction k with
  | zero => exact fun _ => ⟨failure, rfl⟩
  | succ k ih => exact fun _ => ⟨rfl, ih⟩

namespace State

variable {s : State} {stderr : Sink}

theorem write_debugOutput_of_none (h : s.stderr.write? = none) (piece : Text) :
    debugOutput.write piece s = ({ count := 0, error := some Sink.failure }, s) := by
  simp only [debugOutput, Sink.writer, h]

theorem write_debugOutput_of_some (h : s.stderr.write? = some stderr) (piece : Text) :
    debugOutput.write piece s =
      ({ count := piece.length, error := none },
        { s with stderr }.note (.wrote .program .stderr piece)) := by
  simp only [debugOutput, Sink.writer, h]

/-- What the debugging output takes of pieces is added to the effects. -/
theorem writeAll_debugOutput (pieces : List Text) (count : Nat) (s : State) :
    (debugOutput.writeAll pieces count s).1.error.isNone =
        decide ((s.stderr.writeAll pieces).1.length = pieces.length) ∧
      (debugOutput.writeAll pieces count s).2 =
        { s with
          stderr := (s.stderr.writeAll pieces).2
          effects := (s.stderr.writeAll pieces).1.reverse.map (.wrote .program .stderr) ++
            s.effects } := by
  induction pieces generalizing count s with
  | nil => exact ⟨rfl, rfl⟩
  | cons piece pieces ih =>
    cases h : s.stderr.write? with
    | none =>
      rw [Writer.writeAll_cons_of_error (write_debugOutput_of_none h piece)]
      simp [Sink.writeAll, h]
    | some stderr =>
      rw [Writer.writeAll_cons_of_ok (write_debugOutput_of_some h piece), (ih _ _).1, (ih _ _).2]
      refine ⟨decide_eq_decide.2 ?_, ?_⟩
      · simp [Sink.writeAll, h, note]
      · simp [Sink.writeAll, h, note]

end State

/-! ## The trace -/

namespace CallStack

open Writer

variable (s : CallStack) (w : Writer σ ε) (x : σ)

/-- The loop over the frames writes their lines as pieces. -/
theorem writeFrames_eq (height : Nat) (fs : List CallFrame) (count : Nat) :
    writeFrames w height fs count x =
      w.writeAll ((frameLines height fs).map (· ++ [10])) count x := by
  induction fs generalizing height count x with
  | nil => rfl
  | cons f fs ih =>
    rw [frameLines, List.map_cons]
    rcases hwrite : w.write (f.line (height - 1) ++ [10]) x with ⟨⟨n, _ | e⟩, y⟩
    · rw [writeAll_cons_of_ok hwrite, ← ih]
      simp only [writeFrames, hwrite]
    · rw [writeAll_cons_of_error hwrite]
      simp only [writeFrames, hwrite]

/-- Writing a trace is writing its lines in order. -/
theorem writeTo_eq : s.writeTo w x = w.writeAll (s.lines.map (· ++ [10])) 0 x := by
  rw [lines, List.map_cons]
  rcases hwrite : w.write (s.header ++ [10]) x with ⟨⟨n, _ | e⟩, y⟩
  · rw [writeAll_cons_of_ok hwrite, Nat.zero_add, ← writeFrames_eq]
    simp only [writeTo, hwrite]
  · rw [writeAll_cons_of_error hwrite, Nat.zero_add]
    simp only [writeTo, hwrite]

/-- The line of a frame with `height` frames below it: its name, whether it is that of a built-in
function, and how many functions handed it on, if any did. -/
def renderedFrame (f : CallFrame) (height : Nat) : Text :=
  let title : Text := if f.name = [] then "<top-level>" else f.name
  let builtin : Text := if f.builtin then " [builtin]" else []
  let tailCalls : Text :=
    if 0 < f.tailCalls then (" [" : Text) ++ Text.ofNat f.tailCalls ++ " tail calls]" else []
  "  height " ++ Text.ofNat height ++ ": " ++ title ++ builtin ++ tailCalls ++ "\n"

/-- The first line of a trace of `n` frames. -/
def renderedHeader (n : Nat) : Text :=
  "Stack Trace [" ++ Text.ofNat n ++ " frames -- entrypoint last]:\n"

/-- The lines of a trace: the number of frames, and then the frames, innermost first. -/
def rendering : List Text :=
  renderedHeader s.frames.length ::
    s.frames.mapIdx fun i f => renderedFrame f (s.frames.length - 1 - i)

theorem line_eq (f : CallFrame) (height : Nat) :
    f.line height ++ [10] = renderedFrame f height := by
  have htitle : f.title = if f.name = [] then ("<top-level>" : Text) else f.name := by
    simp only [CallFrame.title, List.isEmpty_iff]
  have hremarks : f.remarks = (if f.builtin then (" [builtin]" : Text) else []) ++
      if 0 < f.tailCalls then (" [" : Text) ++ Text.ofNat f.tailCalls ++ " tail calls]"
      else [] := by
    rcases Nat.eq_zero_or_pos f.tailCalls with h | h
    · simp only [CallFrame.remarks, h, if_true, Nat.lt_irrefl, if_false]
    · simp only [CallFrame.remarks, Nat.ne_of_gt h, if_false, h, if_true]
  rw [CallFrame.line, htitle, hremarks, ← List.append_assoc]
  rfl

/-- The line of each frame shows the height it was pushed at. -/
theorem frameLines_eq (height : Nat) (fs : List CallFrame) :
    (frameLines height fs).map (· ++ [10]) =
      fs.mapIdx fun i f => renderedFrame f (height - 1 - i) := by
  induction fs generalizing height with
  | nil => rfl
  | cons f fs ih =>
    have hbelow (i : Nat) : height - 1 - 1 - i = height - 1 - (i + 1) := by omega
    simp only [frameLines, List.map_cons, line_eq, ih, List.mapIdx_cons, hbelow, Nat.sub_zero]

/-- The lines of a stack are its rendering. -/
theorem lines_eq : s.lines.map (· ++ [10]) = s.rendering := by
  have hheader : s.header ++ [10] = renderedHeader s.frames.length := by
    rw [header, s.height_eq, List.append_assoc]
    rfl
  rw [lines, List.map_cons, frameLines_eq, hheader, s.height_eq, rendering]

theorem length_rendering : s.rendering.length = s.frames.length + 1 := by
  rw [rendering, List.length_cons, List.length_mapIdx]

/-- A stack has one line more than it has frames. -/
theorem length_lines : s.lines.length = s.height + 1 := by
  rw [s.height_eq, ← s.length_rendering, ← s.lines_eq, List.length_map]

end CallStack

open CallStack Writer in
/-- **What is written of a trace when the writer gives up.** Of the lines of the trace the writer
takes as many as it can, the first ones first, and what is returned counts their bytes. If there are
more, the next one is tried, and nothing behind it; the error is the one of that write. -/
theorem writeTo_cut_off (s : CallStack) (w : Writer σ ε) {k : Nat} {x : σ} (hw : w.Accepts k x) :
    let n := s.frames.length
    let written := s.rendering.take (min k (n + 1))
    (s.writeTo w.counted (x, 0)).2.2 = min (k + 1) (n + 1) ∧
    ∃ y, w.Takes written x y ∧
      (n + 1 ≤ k → s.writeTo w x = ({ count := written.flatten.length, error := none }, y)) ∧
      (k < n + 1 → ∃ line e z, s.rendering[k]? = some line ∧
        w.write line y = ({ count := 0, error := some e }, z) ∧
        s.writeTo w x = ({ count := written.flatten.length, error := some e }, z)) := by
  intro n written
  have hwritten : written = s.rendering.take k := by
    rw [List.take_eq_take_min, s.length_rendering]
  obtain ⟨y, htakes, hall, hcut⟩ := writeAll_of_accepts hw s.rendering 0
  rw [s.length_rendering, ← hwritten, Nat.zero_add] at hall hcut
  rw [s.writeTo_eq, s.writeTo_eq, s.lines_eq]
  refine ⟨?_, y, hwritten ▸ htakes, hall, hcut⟩
  rw [tried_writeAll hw, s.length_rendering]

/-- A sink that takes one more write is left with the header of the trace. -/
theorem writeTo_cut_off_header :
    let s : CallStack :=
      { frames := [{ name := "+", builtin := true },
          { name := "f", tailCalls := 1, builtin := false }]
        limit := 3, height := 2 }
    Sink.writer.Accepts 1 { accepts := some 1 } ∧
      s.writeTo Sink.writer { accepts := some 1 } =
        ({ count := ("Stack Trace [2 frames -- entrypoint last]:\n" : Text).length
           error := some Sink.failure }, { accepts := some 0 }) := by
  intro s
  have hk := Sink.accepts_writer 1
  have hheader :
      s.rendering.take 1 = [("Stack Trace [2 frames -- entrypoint last]:\n" : Text)] := by
    decide +kernel
  obtain ⟨-, y, htakes, -, hcut⟩ := writeTo_cut_off s Sink.writer hk
  obtain ⟨line, e, z, -, hwrite, hprint⟩ := hcut (by decide)
  rw [show min 1 (s.frames.length + 1) = 1 from rfl, hheader] at htakes hprint
  cases htakes with
  | cons h hs =>
    cases hs
    cases h
    cases hwrite
    exact ⟨hk, hprint⟩

end TinyLisp
