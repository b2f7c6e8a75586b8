import TinyLisp.Text.Basic

/-!
# Locations

A location names a place in a source text by file, byte offset, line and column. Line and column
count from one; a zero says that the number is not tracked, and the rendering then leaves it out.
-/

namespace TinyLisp

/-- A place in a source text. -/
structure Location where
  /-- The name of the source. -/
  file : Text
  /-- Bytes in front of the place. -/
  pos : Int
  /-- The line, counted from one; zero when lines are not tracked. -/
  line : Int
  /-- The column in characters, counted from one; zero when columns are not tracked. -/
  col : Int
  deriving DecidableEq, Repr, Inhabited

namespace Location

/-- `file:line:col`, or `file:line` without a column, or `file[pos]` without a line. -/
def render (loc : Location) : Text :=
  if loc.line = 0 then loc.file ++ "[" ++ Text.ofInt loc.pos ++ "]"
  else if loc.col = 0 then loc.file ++ ":" ++ Text.ofInt loc.line
  else loc.file ++ ":" ++ Text.ofInt loc.line ++ ":" ++ Text.ofInt loc.col

/-- A location that may be missing; a missing one is shown as a question mark. -/
def render? : Option Location → Text
  | some loc => loc.render
  | none => "?"

end Location

end TinyLisp
