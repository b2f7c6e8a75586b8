import TinyLisp.CommandLine.Flags
import TinyLisp.Console
import TinyLisp.Log.Format

/-!
# Running a command

A command line is carried out in stages: the settings are found, the log is opened, the sources are
read, the interpreter is set up and its preload sources are loaded, and then the sources are run or
the console answers. The first stage that fails ends the command, and the failure is reported on
the error output, with a trace if it arose in an evaluation.

`CommandLine.execute` carries out a whole command line and returns what it wrote.
-/

namespace TinyLisp.CommandLine

/-- Why a command failed. -/
inductive Problem where
  /-- The command line or a file cannot be used. -/
  | plain (message : Text)
  /-- The settings file cannot be used. -/
  | settings (error : SettingsError)
  /-- A program failed. -/
  | program (failure : Failure)

/-- The text of a problem. -/
def Problem.message (cells : Array Value) : Problem → Text
  | .plain message => message
  | .settings error => error.message
  | .program failure => failure.fault.message cells

/-- The trace of a problem. -/
def Problem.trace : Problem → Text
  | .program { trace := some stack, .. } => stack.trace
  | _ => []

/-- How a problem is reported. -/
def Problem.report (cells : Array Value) (p : Problem) : Text :=
  Console.report (p.message cells) ++ p.trace

/-! ## Stages -/

/-- Where log records go. -/
structure LogTarget where
  threshold : Log.Threshold := none
  format : Log.Format := .text
  /-- The file; `none` for the error output. -/
  file : Option Text := none

/-- Opens the log file that settings name; it is made if it does not exist. -/
def openLog (files : Files) (path : Text) : Except Problem Files :=
  if path.isEmpty then .ok files
  else
    match files.makeDirectories (Path.parent path) with
    | .error e =>
      .error (.plain
        (("failed to create log directory for " : Text) ++ path.quoted ++ ": " ++ e.message))
    | .ok files =>
      match files.create path with
      | .error e =>
        .error (.plain (("failed to open log file " : Text) ++ path.quoted ++ ": " ++ e.message))
      | .ok files => .ok files

/-- The log file that settings name. -/
def logFile? (s : Settings) : Option Text := if s.logFile.isEmpty then none else some s.logFile

/-- The log that settings ask for. -/
def logTarget (s : Settings) : Except Problem LogTarget :=
  match Log.choose s.logLevel s.logFormat with
  | .error message => .error (.plain message)
  | .ok (threshold, format) => .ok { threshold, format, file := logFile? s }

/-- A source: its name and its bytes. -/
structure Source where
  name : Text
  bytes : Text

/-- The arguments as sources: each argument is an expression. -/
def expressions (n : Nat) : List Text → List Source
  | [] => []
  | arg :: args => { name := ("expr" : Text) ++ Text.ofNat n, bytes := arg } :: expressions (n + 1) args

/-- The arguments as sources: each argument is the path of a file. -/
def fileSources (files : Files) : List Text → Except Problem (List Source)
  | [] => .ok []
  | path :: paths =>
    match files.read path with
    | .error e => .error (.plain e.message)
    | .ok bytes =>
      match fileSources files paths with
      | .error problem => .error problem
      | .ok sources => .ok ({ name := path, bytes } :: sources)

/-- How the interpreter is set up. -/
def interpreterSettings (s : Settings) (log : LogTarget) : List Setting :=
  [.reader, .stackLimit s.maxStackHeight, .log log.threshold] ++
    if s.lenientArity then [.lenient] else []

/-- The outcome of a stage: a problem unless it succeeded, and the state it left. `none` if a
program did not come to an end. -/
abbrev Stage := Option (Option Problem × State)

/-- Loads the sources at paths in order. A directory can be opened but not read. -/
def preload (fuel : Nat) (s : State) : List Text → Stage
  | [] => some (none, s)
  | path :: paths =>
    let s := s.note (.opened path)
    let source : Except FileError (Text × Option Text) :=
      match s.files.read path with
      | .ok bytes => .ok (bytes, none)
      | .error e => if e.problem = .isDirectory then .ok ([], some e.message) else .error e
    match source with
    | .error e => some (some (.plain e.message), s)
    | .ok (bytes, failure) =>
      match s.load fuel State.rootScope path bytes failure with
      | none => none
      | some { result := .error f, state } => some (some (.program f), state)
      | some { result := .ok _, state } => preload fuel state paths

/-- Sets the interpreter up and loads the preload sources. -/
def setUp (fuel : Nat) (settings : Settings) (log : LogTarget) (s : State) : Stage :=
  match s.prepare State.rootScope (interpreterSettings settings log) with
  | (some fault, s) => some (some (.program { fault }), s)
  | (none, s) => preload fuel s settings.preload

/-- Evaluates forms in order up to the first that fails, and prints each value if asked to. -/
def runForms (fuel : Nat) (print : Bool) (s : State) : List Value → Stage
  | [] => some (none, s)
  | form :: forms =>
    match s.eval fuel State.rootScope form with
    | none => none
    | some { result := .error f, state } => some (some (.program f), state)
    | some { result := .ok v, state } =>
      let s := if print then state.say .stdout (state.printed v ++ [10]) else state
      runForms fuel print s forms

/-- Runs sources in order up to the first that fails. Nothing of a source is evaluated if it does
not read. -/
def runSources (fuel : Nat) (print : Bool) (s : State) : List Source → Stage
  | [] => some (none, s)
  | source :: sources =>
    match readAll source.name source.bytes none with
    | .error e => some (some (.program { fault := .unreadable e }), s)
    | .ok forms =>
      match runForms fuel print s forms with
      | some (none, s) => runSources fuel print s sources
      | outcome => outcome

/-- Runs the console on an input. -/
def runConsole (fuel : Nat) (settings : Settings) (log : LogTarget) (input : Console.Input)
    (s : State) : Stage :=
  match setUp fuel settings log s with
  | some (none, s) =>
    (Console.run fuel s State.rootScope settings.historyFile input).map fun (failure, s) =>
      (failure.map .plain, s)
  | outcome => outcome

/-- Runs the sources that the arguments name. -/
def runArguments (fuel : Nat) (settings : Settings) (log : LogTarget) (options : Options)
    (args : List Text) (s : State) : Stage :=
  let s := if options.expression then s else args.foldl (fun s path => s.note (.opened path)) s
  let sources := if options.expression then .ok (expressions 1 args) else fileSources s.files args
  match sources with
  | .error problem => some (some problem, s)
  | .ok sources =>
    match setUp fuel settings log s with
    | some (none, s) => runSources fuel options.print s sources
    | outcome => outcome

/-! ## Commands -/

/-- What a command came to. -/
structure Result where
  /-- Why it failed, if it did. -/
  problem : Option Problem
  stdout : Text
  stderr : Text
  /-- The log file and what was added to it. -/
  log : Option (Text × Text)
  /-- The files as the command left them. -/
  files : Files
  /-- The files that were asked for. -/
  opened : List Text

/-- The exit status of a command. -/
def Result.status (r : Result) : Nat := if r.problem.isSome then 1 else 0

/-- What was written to a stream, where `log` gives the lines of records that go there. -/
def streamText (stream : Stream) (log : Log.Record → Text) (effects : List Effect) : Text :=
  effects.flatMap fun
    | .wrote _ st text => if st = stream then text else []
    | .logged record => log record
    | .opened _ => []

/-- The lines of the records that were logged. -/
def logText (log : Log.Record → Text) (effects : List Effect) : Text :=
  effects.flatMap fun
    | .logged record => log record
    | _ => []

/-- The paths of the files that were asked for. -/
def openedPaths (effects : List Effect) : List Text :=
  effects.filterMap fun
    | .opened path => some path
    | _ => none

/-- The result of a command that left a state. -/
def Result.ofState (problem : Option Problem) (log : LogTarget) (s : State) : Result :=
  let s := match problem with
    | some p => s.say .stderr (p.report s.cells)
    | none => s
  let effects := s.effects.reverse
  let line (record : Log.Record) : Text := record.line log.format ++ [10]
  let silent (_ : Log.Record) : Text := []
  { problem
    stdout := streamText .stdout silent effects
    stderr := streamText .stderr (if log.file.isSome then silent else line) effects
    log := log.file.map fun path => (path, logText line effects)
    files :=
      match log.file with
      | some path => s.files.append path (logText line effects)
      | none => s.files
    opened := openedPaths effects }

/-- The result of a command that failed before any program ran. -/
def Result.failed (problem : Problem) (log : LogTarget) (files : Files) (opened : List Text) :
    Result :=
  .ofState (some problem) log
    { files, effects := opened.reverse.map Effect.opened }

/-- Carries out a command line on an input, where `home` is the directory of the user if that is known;
`none` if a program does not come to an end within `fuel` steps. -/
def execute (packages : Packages) (home : Option Text) (fuel : Nat) (args : List Text)
    (input : Console.Input) (files : Files) : Option Result :=
  match packages.parse args with
  | .refused message => some (.failed (.plain message) {} files [])
  | .help text => some (.ofState none {} (State.say { files } .stdout text))
  | .command { command, options, args } =>
    let sought := (Settings.sourcePath home options.config).toList
    match Settings.load packages.decode home files options.config with
    | .error e => some (.failed (.settings e) {} files sought)
    | .ok settings =>
      let settings := options.override command settings
      let asked := sought ++ (logFile? settings).toList
      match openLog files settings.logFile with
      | .error problem => some (.failed problem {} files asked)
      | .ok files =>
        match logTarget settings with
        | .error problem => some (.failed problem { file := logFile? settings } files asked)
        | .ok log =>
          let s : State := { files, effects := asked.reverse.map Effect.opened }
          let stage :=
            match command with
            | .run => runArguments fuel settings log options args s
            | .main | .console => runConsole fuel settings log input s
          stage.map fun (problem, s) => .ofState problem log s

end TinyLisp.CommandLine
