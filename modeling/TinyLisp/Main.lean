import TinyLisp.CommandLine.Run

/-!
# The program

Carries out a command line on the real files. The command is a function of the files it asks for;
they are not known beforehand, so it is carried out with the files known so far, and again whenever
it asked for a file that has not been looked at. Nothing is written before it asks for no more.

`Main.program` is the program, for packages that do what is left to them.
-/

namespace TinyLisp.Main

open CommandLine

/-- Steps allowed for one evaluation. -/
def fuel : Nat := UInt64.size

/-- A path or argument as the bytes of a text. -/
def toText (s : String) : Text := Text.ofString s

/-- A text as a string; bytes that are not UTF-8 are replaced. -/
def ofText (t : Text) : String := String.ofList t.toCharsLossy

/-- The bytes of a text. -/
def toBytes (t : Text) : ByteArray := ⟨t.toArray⟩

/-- What is on disk at a path. -/
def look (path : Text) : IO (Option FileNode) := do
  try
    let bytes ← IO.FS.readBinFile (ofText path)
    return some (.file bytes.data.toList)
  catch
    | .inappropriateType .. => return some .directory
    | .resourceBusy .. => return some .directory
    | _ => return none

/-- Adds what is on disk at a path and on the way to it. -/
def learn (files : Files) (path : Text) : IO Files := do
  let mut files := files
  for part in Path.prefixes path do
    match files.resolve part with
    | .error _ => pure ()
    | .ok place =>
      if !place.names.isEmpty then
        match ← look part with
        | some node => files := files.put place node
        | none => pure ()
  return files

/-- Reads a stream to its end. -/
partial def readAllFrom (stream : IO.FS.Stream) (seen : ByteArray) : IO ByteArray := do
  let chunk ← stream.read 65536
  if chunk.isEmpty then return seen else readAllFrom stream (seen ++ chunk)

/-- The directory of the user, if it is known. -/
def homeDirectory : IO (Option Text) := do
  match ← IO.getEnv "HOME" with
  | some home => return if home.isEmpty then none else some (toText home)
  | none => return none

/-- Carries out a command with the files known so far, and again as long as it asks for others. -/
partial def attempt (packages : Packages) (home : Option Text) (args : List Text)
    (input : Console.Input) (files : Files) (seen : List Text) : IO (Option Result) := do
  match execute packages home fuel args input files with
  | none => return none
  | some result =>
    match result.opened.filter fun path => !seen.contains path with
    | [] => return some result
    | path :: _ => attempt packages home args input (← learn files path) (path :: seen)

/-- Adds text to the end of a file on disk. -/
def appendTo (path text : Text) : IO Unit := do
  IO.FS.createDirAll (ofText (Path.parent path))
  let handle ← IO.FS.Handle.mk (ofText path) .append
  handle.write (toBytes text)

/-- Whether a command line starts the console, which reads the standard input. -/
def needsInput (packages : Packages) (args : List Text) : Bool :=
  match packages.parse args with
  | .command { command := .run, .. } => false
  | .command _ => true
  | _ => false

/-- The program. How the standard input is read line by line is left to `read`. -/
def program (packages : Packages) (read : Text → Console.Input) (args : List String) :
    IO UInt32 := do
  let args := args.map toText
  let home ← homeDirectory
  let input : Console.Input ←
    if needsInput packages args then
      pure (read (← readAllFrom (← IO.getStdin) .empty).data.toList)
    else pure {}
  match ← attempt packages home args input {} [] with
  | none => return 2
  | some result =>
    match result.log with
    | some (path, text) => appendTo path text
    | none => pure ()
    let stdout ← IO.getStdout
    let stderr ← IO.getStderr
    stdout.write (toBytes result.stdout)
    stdout.flush
    stderr.write (toBytes result.stderr)
    stderr.flush
    return UInt32.ofNat result.status

end TinyLisp.Main
