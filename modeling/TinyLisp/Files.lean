import TinyLisp.Text.Basic

/-!
# Files

The files and directories that are known, by place. A path is walked component by component: `.`
and empty components stay where they are, `..` goes up, and every component but the last has to be a
directory. What is not known does not exist.

* `Files.read`: the contents of a file.
* `Files.makeDirectories`: makes a directory and those above it.
* `Files.create`: makes an empty file unless it exists.
-/

namespace TinyLisp

/-- What a name stands for. -/
inductive FileNode where
  | file (bytes : Text)
  | directory
  deriving DecidableEq, Repr, Inhabited

/-- Why a path cannot be used. -/
inductive FileProblem where
  | notFound
  | notDirectory
  | isDirectory
  | nameTooLong
  | invalidPath
  deriving DecidableEq, Repr, Inhabited

/-- The text of a problem. -/
def FileProblem.message : FileProblem → Text
  | .notFound => "no such file or directory"
  | .notDirectory => "not a directory"
  | .isDirectory => "is a directory"
  | .nameTooLong => "file name too long"
  | .invalidPath => "invalid argument"

/-- An operation on a path that failed. -/
structure FileError where
  /-- What was tried. -/
  operation : Text
  /-- The path as it was given. -/
  path : Text
  /-- Why it failed. -/
  problem : FileProblem
  deriving DecidableEq, Repr

/-- The text of a failed operation. -/
def FileError.message (e : FileError) : Text :=
  e.operation ++ " " ++ e.path ++ ": " ++ e.problem.message

/-- Where a path starts. -/
inductive Base where
  /-- The working directory. -/
  | working
  /-- The directory a number of levels above the working directory, counted from zero for the one
  directly above. -/
  | above (level : Nat)
  /-- The root directory. -/
  | root
  deriving DecidableEq, Repr, Inhabited

/-- The directory above a base. -/
def Base.up : Base → Base
  | .working => .above 0
  | .above level => .above (level + 1)
  | .root => .root

/-- The base as a path, in front of the names below it. -/
def Base.text : Base → Text
  | .working => []
  | .above 0 => "../"
  | .above (level + 1) => ("../" : Text) ++ (Base.above level).text
  | .root => "/"

/-- A place in the directory tree. -/
structure Place where
  base : Base
  /-- The names from the base down. -/
  names : List Text
  deriving DecidableEq, Repr

namespace Place

/-- The place as a path. -/
def text (p : Place) : Text := p.base.text ++ Text.join "/" p.names

/-- The directory that holds a place; a base is held by the directory above it. -/
def up (p : Place) : Place :=
  if p.names.isEmpty then { base := p.base.up, names := [] }
  else { p with names := p.names.dropLast }

/-- The place with a name below this one. -/
def down (p : Place) (name : Text) : Place := { p with names := p.names ++ [name] }

end Place

/-! ## Paths as text -/

namespace Path

/-- Resolves `.`, `..` and empty components as far as the path itself allows, on components in
reverse order; a relative path keeps the `..` it starts with. -/
def reduce (rooted : Bool) (done : List Text) : List Text → List Text
  | [] => done.reverse
  | name :: names =>
    if name.isEmpty || name = ("." : Text) then reduce rooted done names
    else if name = (".." : Text) then
      match done with
      | [] => if rooted then reduce rooted [] names else reduce rooted [name] names
      | top :: below =>
        if top = (".." : Text) then reduce rooted (name :: done) names
        else reduce rooted below names
    else reduce rooted (name :: done) names

/-- The shortest path that names the same place, as far as the text tells. -/
def clean (path : Text) : Text :=
  let rooted := path.head? = some 47
  let names := Text.join "/" (reduce rooted [] (Text.splitOn 47 path))
  if rooted then 47 :: names else if names.isEmpty then "." else names

/-- The path of the directory that holds `path`. -/
def parent (path : Text) : Text := clean ((path.reverse.dropWhile (· ≠ 47)).reverse)

/-- The path of a name below a directory. Without one of them it is the other. -/
def join (directory name : Text) : Text :=
  if directory.isEmpty then if name.isEmpty then [] else clean name
  else clean (directory ++ 47 :: name)

/-- Where a path starts: at the root if its first character is a slash. -/
def start (path : Text) : Place :=
  { base := if path.head? = some 47 then .root else .working, names := [] }

/-- The parts of a path up to each slash and the whole path, shortest first. -/
def prefixes (path : Text) : List Text :=
  let pieces := Text.splitOn 47 path
  (List.range pieces.length).map fun n => Text.join "/" (pieces.take (n + 1))

end Path

/-! ## The directory tree -/

/-- The files and directories that are known. -/
structure Files where
  /-- Each known place and what it stands for. -/
  entries : List (Place × FileNode) := []
  deriving Repr, Inhabited

namespace Files

/-- What is found at a place; a base is always a directory. -/
def node? (files : Files) (place : Place) : Option FileNode :=
  if place.names.isEmpty then some .directory else files.entries.lookup place

/-- The longest name of a file or directory. -/
def longestName : Nat := 255

/-- The longest path. -/
def longestPath : Nat := 4095

/-- One component further from a place that exists. -/
def descend (files : Files) (place : Place) (name : Text) : Except FileProblem Place :=
  match files.node? place with
  | some .directory =>
    if name.isEmpty || name = ("." : Text) then .ok place
    else if name = (".." : Text) then .ok place.up
    else if longestName < name.length then .error .nameTooLong
    else .ok (place.down name)
  | some (.file _) => .error .notDirectory
  | none => .error .notFound

/-- The place that a path leads to; its last component need not exist. -/
def resolve (files : Files) (path : Text) : Except FileProblem Place :=
  if path.contains 0 then .error .invalidPath
  else if path.isEmpty then .error .notFound
  else if longestPath < path.length then .error .nameTooLong
  else (Text.splitOn 47 path).foldlM files.descend (Path.start path)

/-- What a path names. -/
def find (files : Files) (path : Text) : Except FileProblem FileNode :=
  match files.resolve path with
  | .error problem => .error problem
  | .ok place =>
    match files.node? place with
    | some node => .ok node
    | none => .error .notFound

/-- The contents of a file. Opening a directory succeeds; reading it does not. -/
def read (files : Files) (path : Text) : Except FileError Text :=
  match files.find path with
  | .ok (.file bytes) => .ok bytes
  | .ok .directory => .error { operation := "read", path, problem := .isDirectory }
  | .error problem => .error { operation := "open", path, problem }

/-- Lets a place stand for a node, instead of what was there. -/
def put (files : Files) (place : Place) (node : FileNode) : Files :=
  { entries := (place, node) :: files.entries.filter (·.1 ≠ place) }

/-- Makes every missing directory on the way down from `place`, which is a directory. -/
def makeBelow (files : Files) (place : Place) : List Text → Except FileError Files
  | [] => .ok files
  | name :: names =>
    if name.isEmpty || name = ("." : Text) then makeBelow files place names
    else if name = (".." : Text) then makeBelow files place.up names
    else
      let here := place.down name
      match files.node? here with
      | some .directory => makeBelow files here names
      | some (.file _) =>
        .error { operation := "mkdir", path := here.text, problem := .notDirectory }
      | none =>
        if longestName < name.length then
          .error { operation := "mkdir", path := here.text, problem := .nameTooLong }
        else makeBelow (files.put here .directory) here names

/-- Makes the directory `path`, a cleaned path, and those above it that are missing. -/
def makeDirectories (files : Files) (path : Text) : Except FileError Files :=
  if path.contains 0 then .error { operation := "mkdir", path, problem := .invalidPath }
  else makeBelow files (Path.start path) (Text.splitOn 47 path)

/-- Makes the empty file `path` unless the file exists. -/
def create (files : Files) (path : Text) : Except FileError Files :=
  match files.resolve path with
  | .error problem => .error { operation := "open", path, problem }
  | .ok place =>
    match files.node? place with
    | some (.file _) => .ok files
    | some .directory => .error { operation := "open", path, problem := .isDirectory }
    | none => .ok (files.put place (.file []))

/-- Adds bytes to the end of a file; a path that names no file changes nothing. -/
def append (files : Files) (path bytes : Text) : Files :=
  match files.resolve path with
  | .ok place =>
    match files.node? place with
    | some (.file old) => files.put place (.file (old ++ bytes))
    | _ => files
  | .error _ => files

/-- Adds a file or directory below the working directory, with the directories above it; a name
that ends in a slash is a directory. -/
def insert (files : Files) (name bytes : Text) : Files :=
  let names := Path.reduce false [] (Text.splitOn 47 name)
  let node : FileNode := if name.getLast? = some 47 then .directory else .file bytes
  let above := ((List.range names.length).drop 1).map fun n => names.take n
  let directory (files : Files) (names : List Text) : Files :=
    files.put { base := .working, names } .directory
  (above.foldl directory files).put { base := .working, names } node

end Files

end TinyLisp
