import TinyLisp.Value.Basic

/-!
# Printing values

A value is printed the way it is written in a source. Functions have no such form and print as
`<function>` and `<builtin:name>`. An atom prints its contents, so printing needs the cells; an atom
met again inside its own contents prints as `(atom ...)`, which keeps the printed form finite. An
invalid value prints all that it consists of.

A draft goes along: it holds the text written so far and the cells whose contents are being written.
Every value is written onto the draft that the value before it has left. A cell is opened before its
contents are written and closed behind them, so each value leaves the cells that were open when its
turn came. The type of `Value.write` says so, and printing comes to an end because of it.

* `Value.write`: writes a value onto a draft.
* `Value.render`: the printed form of a value.
-/

namespace TinyLisp

/-- The printed form of a scalar. -/
def Scalar.render : Scalar → Text
  | .symbol name => name
  | .int n => Text.ofInt n.toInt
  | .bool true => "true"
  | .bool false => "false"
  | .string text => "'" ++ text ++ "'"
  | .nil => "nil"

/-- The printed form of an invalid value: its fields, and the address of the place where it was read
instead of the place itself. -/
def Untyped.render (u : Untyped) : Text :=
  let place : Text :=
    match u.source with
    | none => "nil"
    | some (address, _) => ("0x" : Text) ++ .ofChars (Nat.toDigits 16 address.toNat)
  ("&lisp.LVal\x7bType:0x0, Source:(*token.Location)(" : Text) ++ place ++ "), " ++ u.fields ++ "\x7d"

/-- A printed form in the making. -/
structure Draft where
  /-- What has been written, last byte first. -/
  written : Text := []
  /-- The cells whose contents are being written, the one opened last first. -/
  opened : List CellId := []
  deriving Repr

namespace Draft

/-- The text written so far. -/
def text (d : Draft) : Text := d.written.reverse

/-- Writes a text. -/
def put (d : Draft) (t : Text) : Draft := { d with written := t.reverse ++ d.written }

/-- Whether the contents of a cell are being written. -/
def isOpen (d : Draft) (c : CellId) : Bool := d.opened.contains c

/-- Opens a cell. -/
def openCell (d : Draft) (c : CellId) : Draft := { d with opened := c :: d.opened }

/-- Closes a cell. -/
def closeCell (d : Draft) (c : CellId) : Draft := { d with opened := d.opened.erase c }

@[simp] theorem opened_put (d : Draft) (t : Text) : (d.put t).opened = d.opened := rfl

@[simp] theorem opened_openCell (d : Draft) (c : CellId) :
    (d.openCell c).opened = c :: d.opened := rfl

@[simp] theorem opened_closeCell (d : Draft) (c : CellId) :
    (d.closeCell c).opened = d.opened.erase c := rfl

end Draft

namespace Value

/-- The number of cells that are not being printed. -/
def unopened (size : Nat) (path : List CellId) : Nat :=
  ((List.range size).filter fun c => !path.contains c).length

/-- Opening a cell leaves fewer cells unopened. -/
theorem unopened_cons_lt {size : Nat} {path : List CellId} {c : CellId}
    (hc : c < size) (hp : ¬path.contains c = true) : unopened size (c :: path) < unopened size path := by
  unfold unopened
  have hsub : (List.range size).filter (fun x => !(c :: path).contains x) =
      ((List.range size).filter fun x => !path.contains x).filter (fun x => x != c) := by
    rw [List.filter_filter]
    congr 1
    funext x
    simp only [List.contains_cons, Bool.not_or]
    cases h : (x == c) <;> simp [h, bne]
  rw [hsub]
  apply List.length_filter_lt_length_iff_exists.2
  exact ⟨c, by simp [List.mem_filter, hc]; simpa using hp, by simp⟩

mutual

/-- Writes a value. The cells that are open are the same before and behind it. -/
def write (cells : Array Value) (v : Value) (d : Draft) : { d' : Draft // d'.opened = d.opened } :=
  match v with
  | .scalar _ s => ⟨d.put s.render, rfl⟩
  | .list _ items =>
    let d' := writeItems cells items (d.put "(")
    ⟨d'.1.put ")", d'.2⟩
  | .closure .. => ⟨d.put "<function>", rfl⟩
  | .builtin b => ⟨d.put ("<builtin:" ++ b.name ++ ">"), rfl⟩
  | .atom c =>
    if ho : d.isOpen c then ⟨d.put "(atom ...)", rfl⟩
    else if hc : c < cells.size then
      have := unopened_cons_lt hc ho
      let d' := write cells cells[c] ((d.openCell c).put "(atom ")
      ⟨(d'.1.put ")").closeCell c, by simp [d'.2]⟩
    else ⟨d.put "(atom)", rfl⟩
  | .invalid u => ⟨d.put u.render, rfl⟩
termination_by (unopened cells.size d.opened, sizeOf v)

/-- Writes values with spaces between them. -/
def writeItems (cells : Array Value) (vs : List Value) (d : Draft) :
    { d' : Draft // d'.opened = d.opened } :=
  match vs with
  | [] => ⟨d, rfl⟩
  | [v] => write cells v d
  | v :: w :: ws =>
    let d' := write cells v d
    let d'' := writeItems cells (w :: ws) (d'.1.put " ")
    ⟨d''.1, d''.2.trans d'.2⟩
termination_by (unopened cells.size d.opened, sizeOf vs)
decreasing_by
  · decreasing_tactic
  · decreasing_tactic
  · -- the first value has left the same cells open
    rw [Draft.opened_put, d'.2]
    decreasing_tactic

end

/-- The printed form of a value, with the contents of atoms taken from `cells`. -/
def render (cells : Array Value) (v : Value) : Text := (write cells v {}).1.text

end Value

end TinyLisp
