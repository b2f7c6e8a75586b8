import TinyLisp.Sink

/-!
# Call stacks

A call stack holds one frame for every evaluation that has not come to an end: one for each nested
expression and one for each built-in function that is running. A function called in tail position
takes over the frame on top instead of adding one, and the frame counts such calls.

* `CallStack.push`: adds a frame unless the stack is as high as its limit allows.
* `CallStack.tailCall`: hands the frame on top to another function.
* `CallStack.lines`: the stack as a trace, innermost frame first.
* `CallStack.writeTo`: writes the trace, line by line up to the first write that fails.
-/

namespace TinyLisp

/-- An evaluation that has not come to an end. -/
structure CallFrame where
  /-- The function that runs in the frame; empty for an expression outside functions. -/
  name : Text
  /-- How many functions handed the frame on. -/
  tailCalls : Nat := 0
  /-- Whether the function is built in. -/
  builtin : Bool
  deriving DecidableEq, Repr, Inhabited

namespace CallFrame

/-- The frame when the function `name` takes it over. A frame outside functions is not handed on
by any function. -/
def handOn (f : CallFrame) (name : Text) : CallFrame :=
  { f with name, tailCalls := if f.name.isEmpty then f.tailCalls else f.tailCalls + 1 }

/-- The function of a frame in a trace. -/
def title (f : CallFrame) : Text := if f.name.isEmpty then "<top-level>" else f.name

/-- What a trace adds about a frame. -/
def remarks (f : CallFrame) : Text :=
  let builtin : Text := if f.builtin then " [builtin]" else []
  let tailCalls : Text :=
    if f.tailCalls = 0 then [] else (" [" : Text) ++ Text.ofNat f.tailCalls ++ " tail calls]"
  builtin ++ tailCalls

/-- The line of a frame that has `height` frames below it. -/
def line (f : CallFrame) (height : Nat) : Text :=
  "  height " ++ Text.ofNat height ++ ": " ++ f.title ++ f.remarks

end CallFrame

/-- The evaluations that have not come to an end. -/
structure CallStack where
  /-- The frames, innermost first. -/
  frames : List CallFrame := []
  /-- The greatest height; there is no limit if it is not positive. -/
  limit : Int
  /-- The number of frames. -/
  height : Nat := 0
  height_eq : height = frames.length := by rfl

namespace CallStack

/-- The greatest height of a stack when nothing else is asked for. -/
def defaultLimit : Int := 100000

/-- Whether another frame would exceed the limit. -/
def isFull (s : CallStack) : Bool := 0 < s.limit && s.limit ≤ s.height

/-- Adds a frame, unless the stack is full. -/
def push (s : CallStack) (name : Text) (builtin : Bool) : Option CallStack :=
  if s.isFull then none
  else some
    { frames := { name, builtin } :: s.frames
      limit := s.limit
      height := s.height + 1
      height_eq := by simp [s.height_eq] }

/-- The innermost frame. -/
def top (s : CallStack) : Option CallFrame := s.frames.head?

/-- Lets the function `name` take over the innermost frame. -/
def tailCall (s : CallStack) (name : Text) : CallStack :=
  match h : s.frames with
  | [] => s
  | f :: fs =>
    { frames := f.handOn name :: fs
      limit := s.limit
      height := s.height
      height_eq := by simp [s.height_eq, h] }

/-- The stack without its innermost frame; an empty stack stays empty. -/
def drop (s : CallStack) : CallStack :=
  { frames := s.frames.tail
    limit := s.limit
    height := s.height - 1
    height_eq := by simp [s.height_eq] }

/-- Removes the innermost frame. -/
def pop (s : CallStack) : Option (CallFrame × CallStack) :=
  match s.frames with
  | [] => none
  | f :: _ => some (f, s.drop)

/-- The same frames under another limit. -/
def withLimit (s : CallStack) (limit : Int) : CallStack := { s with limit }

/-! ## Traces -/

/-- The lines of some frames, innermost first; the frames below them number `height` less their
own number. -/
def frameLines : Nat → List CallFrame → List Text
  | _, [] => []
  | height, f :: fs => f.line (height - 1) :: frameLines (height - 1) fs

/-- The first line of a trace. -/
def header (s : CallStack) : Text :=
  "Stack Trace [" ++ Text.ofNat s.height ++ " frames -- entrypoint last]:"

/-- The lines of a trace. -/
def lines (s : CallStack) : List Text := s.header :: frameLines s.height s.frames

variable {σ ε : Type}

/-- Writes the lines of some frames after `count` bytes have been written, innermost first and up to
the first write that fails; `height` is that of the first of them. -/
def writeFrames (w : Writer σ ε) : Nat → List CallFrame → Nat → σ → Receipt ε × σ
  | _, [], count, x => ({ count, error := none }, x)
  | height, f :: fs, count, x =>
    let (receipt, x) := w.write (f.line (height - 1) ++ [10]) x
    let count := count + receipt.count
    match receipt.error with
    | some e => ({ count, error := some e }, x)
    | none => writeFrames w (height - 1) fs count x

/-- Writes the trace, one write for each line, up to the first write that fails. The receipt counts
the bytes of all writes. -/
def writeTo (s : CallStack) (w : Writer σ ε) (x : σ) : Receipt ε × σ :=
  let (receipt, x) := w.write (s.header ++ [10]) x
  match receipt.error with
  | some e => ({ count := receipt.count, error := some e }, x)
  | none => writeFrames w s.height s.frames receipt.count x

/-- What a sink takes of the trace, line by line, and the sink behind it. -/
def printTo (s : CallStack) (sink : Sink) : List Text × Sink :=
  sink.writeAll (s.lines.map (· ++ [10]))

/-- The whole trace. -/
def trace (s : CallStack) : Text := s.lines.flatMap (· ++ [10])

end CallStack

end TinyLisp
