import TinyLisp.Text.Basic

/-!
# Writers and sinks

A writer takes output one write at a time. A write may fail, and what was taken of its text until
then is reported with the error. A sink is a writer that may accept only a number of writes; every
further write fails and takes nothing.

* `Writer`: a writer is what a write comes to in each of its states.
* `Sink.writer`: writing to a sink.
* `Sink.writeAll`: what a sink takes of pieces that are written in order.
-/

namespace TinyLisp

/-- What a write comes to. -/
structure Receipt (ε : Type) where
  /-- How many bytes were taken. -/
  count : Nat
  /-- The error, if the write failed. -/
  error : Option ε
  deriving DecidableEq, Repr

/-- Something with states `σ` that can be written to and fails with errors `ε`. -/
structure Writer (σ ε : Type) where
  /-- What the write of a text comes to, and the state behind it. -/
  write : Text → σ → Receipt ε × σ

/-- Where output goes. -/
structure Sink where
  /-- How many more writes the sink accepts; `none` when there is no limit. -/
  accepts : Option Nat := none
  deriving DecidableEq, Repr, Inhabited

namespace Sink

/-- The text that reports a failed write. -/
def failure : Text := "write failed"

/-- The sink behind one write, or `none` if the write fails. -/
def write? (s : Sink) : Option Sink :=
  match s.accepts with
  | none => some s
  | some 0 => none
  | some (n + 1) => some { accepts := some n }

/-- Writing to a sink. -/
def writer : Writer Sink Text where
  write text s :=
    match s.write? with
    | none => ({ count := 0, error := some failure }, s)
    | some s => ({ count := text.length, error := none }, s)

/-- The pieces that a sink takes when they are written in order up to the first failure, and the
sink behind them. -/
def writeAll (s : Sink) : List Text → List Text × Sink
  | [] => ([], s)
  | piece :: pieces =>
    match s.write? with
    | none => ([], s)
    | some s =>
      let (written, s) := writeAll s pieces
      (piece :: written, s)

end Sink

end TinyLisp
