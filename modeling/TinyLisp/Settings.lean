import TinyLisp.CallStack
import TinyLisp.Files
import TinyLisp.Text.Quoted

/-!
# Settings

What a settings file or the command line can choose. Decoding a file is left to a package: it is
given settings, changes those that the file names, and tells which keys of the file it had no use
for. What a file does not name keeps its default, and a key that is of no use is an error.

* `Settings.Decoder`: how the contents of a file are decoded.
* `Settings.load`: the settings of a file.
-/

namespace TinyLisp

/-- The choices of a user. -/
structure Settings where
  /-- What the console shows in front of a line. -/
  prompt : Text := "user> "
  /-- Where the console keeps its history. -/
  historyFile : Text := []
  /-- The greatest height of the call stack; zero for no limit. -/
  maxStackHeight : Int := CallStack.defaultLimit
  /-- Whether closures may be called with any number of arguments. -/
  lenientArity : Bool := false
  /-- The least important level that is logged. -/
  logLevel : Text := "none"
  /-- How log records are written. -/
  logFormat : Text := "json"
  /-- Where log records are written; empty for the error output. -/
  logFile : Text := []
  /-- The sources that are loaded first. -/
  preload : List Text := []
  deriving DecidableEq, Repr, Inhabited

/-- What is wrong with a settings file. -/
inductive SettingsProblem where
  /-- It cannot be read. -/
  | unreadable (error : FileError)
  /-- It cannot be decoded. -/
  | undecodable (message : Text)
  /-- It has a key that is of no use. -/
  | unknownKey (key : Text)
  /-- It asks for a negative height of the call stack. -/
  | negativeHeight (height : Int)

/-- A settings file that cannot be used. -/
structure SettingsError where
  path : Text
  problem : SettingsProblem

/-- The text that reports an unusable settings file. -/
def SettingsError.message (e : SettingsError) : Text :=
  "config " ++ e.path ++ ": " ++
    match e.problem with
    | .unreadable error => error.message
    | .undecodable message => message
    | .unknownKey key => "unknown key " ++ key.quoted
    | .negativeHeight height => "negative max_stack_height: " ++ Text.ofInt height

namespace Settings

/-- How the contents of a file are decoded over settings: what the settings become, and the keys that
were of no use, in the order of the file; or why the contents cannot be decoded. -/
abbrev Decoder := Text → Settings → Except Text (Settings × List Text)

/-- The name of the settings file that is looked for unless another file is named. -/
def defaultName : Text := ".tlisp.toml"

/-- The settings file that is read. With an empty path it is looked for in the directory `home` of the
user, if that is known. -/
def sourcePath (home : Option Text) (path : Text) : Option Text :=
  if path.isEmpty then home.map fun home => Path.join home defaultName else some path

/-- The settings of a file's contents. -/
def ofText (decode : Decoder) (bytes : Text) : Except SettingsProblem Settings :=
  match decode bytes {} with
  | .error message => .error (.undecodable message)
  | .ok (_, key :: _) => .error (.unknownKey key)
  | .ok (s, []) =>
    if s.maxStackHeight < 0 then .error (.negativeHeight s.maxStackHeight) else .ok s

/-- The settings of a file. With an empty path, the default file is read if there is one. -/
def load (decode : Decoder) (home : Option Text) (files : Files) (path : Text) :
    Except SettingsError Settings :=
  match sourcePath home path with
  | none => .ok {}
  | some chosen =>
    match files.read chosen with
    | .error e =>
      if path.isEmpty && e.problem = .notFound then .ok {}
      else .error { path := chosen, problem := .unreadable e }
    | .ok bytes =>
      match ofText decode bytes with
      | .ok s => .ok s
      | .error problem => .error { path := chosen, problem }

end Settings

end TinyLisp
