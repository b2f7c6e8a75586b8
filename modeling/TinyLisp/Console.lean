import TinyLisp.Interpreter
import TinyLisp.Text.Blank

/-!
# The console

The console answers one line at a time: it reads the first form of the line, evaluates it and prints
its value, or reports what went wrong and goes on with the next line. Blank lines have no answer.

* `Console.respond`: answers one line.
* `Console.run`: answers every line of an input.
-/

namespace TinyLisp.Console

/-- How a line that went wrong is reported. -/
def report (message : Text) : Text := ("error: " : Text) ++ message ++ [10]

/-- Answers one line. -/
def respond (fuel : Nat) (s : State) (e : ScopeId) (line : Text) : Option State :=
  if line.isBlank then some s
  else
    match readText line with
    | .error error => some (s.say .stderr (report error.message))
    | .ok form =>
      match s.eval fuel e form with
      | none => none
      | some { result := .ok v, state } => some (state.say .stdout (state.printed v ++ [10]))
      | some { result := .error f, state } =>
        some (state.say .stderr (report (state.message f.fault)))

/-- Answers lines in order. -/
def respondAll (fuel : Nat) (s : State) (e : ScopeId) : List Text → Option State
  | [] => some s
  | line :: lines =>
    match respond fuel s e line with
    | some s => respondAll fuel s e lines
    | none => none

/-- An input as it is read line by line. -/
structure Input where
  /-- The lines. One that the user gave up is not among them. -/
  lines : List Text := []
  /-- Why no more could be read, unless that was all. -/
  failure : Option Text := none

/-- Answers every line of an input, and hands back why no more could be read. The history file is
only named in the log. -/
def run (fuel : Nat) (s : State) (e : ScopeId) (history : Text) (input : Input) :
    Option (Option Text × State) :=
  let s := s.logRecord
    { level := .info, message := "repl started", fields := [("history", .text history)] }
  (respondAll fuel s e input.lines).map fun s =>
    match input.failure with
    | some message => (some message, s)
    | none =>
      (none, s.logRecord
        { level := .info, message := "repl finished"
          fields := [("lines", .number input.lines.length)] })

end TinyLisp.Console
