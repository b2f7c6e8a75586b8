import TinyLisp.Settings

/-!
# Commands and flags

A command line names a command and gives flags and arguments. Telling them apart is left to a
package, which also tells which flags were given: each of the others holds its default.

* `Invocation`: a command line once that is done.
* `Options.override`: flags that were given win over a settings file.
-/

namespace TinyLisp.CommandLine

/-- The commands. -/
inductive Command where
  /-- No command is named: the console starts. -/
  | main
  /-- Answer lines at the console. -/
  | console
  /-- Run sources. -/
  | run
  deriving DecidableEq, Repr, Inhabited

/-- The flags. -/
inductive Flag where
  | config
  | logLevel
  | logFile
  | logFormat
  | maxStackHeight
  | lenientArity
  | preload
  | prompt
  | historyFile
  | expression
  | print
  deriving DecidableEq, Repr, Inhabited

namespace Command

/-- The flags of every command. -/
def commonFlags : List Flag :=
  [.config, .logLevel, .logFile, .logFormat, .maxStackHeight, .lenientArity, .preload]

/-- The flags of a command. -/
def flags : Command → List Flag
  | .main => commonFlags
  | .console => commonFlags ++ [.prompt, .historyFile]
  | .run => commonFlags ++ [.expression, .print]

end Command

/-- The flags of a command line. -/
structure Options where
  /-- The path of the settings file. -/
  config : Text := []
  /-- Whether the arguments are expressions. -/
  expression : Bool := false
  /-- Whether values are printed. -/
  print : Bool := false
  /-- What the flags hold that stand for settings. -/
  settings : Settings := {}
  /-- The flags that were given. -/
  changed : List Flag := []
  deriving DecidableEq, Repr

/-- The settings of a file, with those copied over them that flags were given for. Not every command
has the flags of the console. -/
def Options.override (c : Command) (o : Options) (s : Settings) : Settings :=
  let given (f : Flag) : Bool := o.changed.contains f
  let known (f : Flag) : Bool := c.flags.contains f
  { logLevel := if given .logLevel then o.settings.logLevel else s.logLevel
    logFile := if given .logFile then o.settings.logFile else s.logFile
    logFormat := if given .logFormat then o.settings.logFormat else s.logFormat
    maxStackHeight :=
      if given .maxStackHeight then o.settings.maxStackHeight else s.maxStackHeight
    lenientArity := if given .lenientArity then o.settings.lenientArity else s.lenientArity
    preload := if given .preload then o.settings.preload else s.preload
    prompt := if known .prompt && given .prompt then o.settings.prompt else s.prompt
    historyFile :=
      if known .historyFile && given .historyFile then o.settings.historyFile
      else s.historyFile }

/-- A command line. -/
structure Invocation where
  command : Command
  options : Options
  /-- The arguments that are not flags. -/
  args : List Text
  deriving DecidableEq, Repr

/-- What a command line asks for. -/
inductive Request where
  /-- Nothing that can be done. -/
  | refused (message : Text)
  /-- Help, which is this text. -/
  | help (text : Text)
  /-- To carry a command out. -/
  | command (invocation : Invocation)

/-- The packages that work is left to. -/
structure Packages where
  /-- Decodes settings files. -/
  decode : Settings.Decoder
  /-- Tells what a command line asks for. -/
  parse : List Text → Request

end TinyLisp.CommandLine
