import TinyLisp.Source.Location
import TinyLisp.Text.Quoted

/-!
# Cursors

A cursor walks through a source text one character at a time and keeps count of bytes, lines and
columns. The characters passed since the last `ignore` form the pending text of the next token.

The source is read in full when the cursor is made, so a cursor holds the characters still ahead,
and behind them the bytes that are not UTF-8, if there are any: the walk ends there. If reading the
source failed, no character can be passed at all.

* `Cursor.scan`: passes one character, or says why it cannot (`ScanFault`).
* `Cursor.advanceWhile`: passes every character of a class.
-/

namespace TinyLisp

/-- A byte that starts no character. -/
structure InvalidByte where
  /-- The name of the source. -/
  file : Text
  /-- Bytes in front of it. -/
  pos : Int
  /-- The line it is on. -/
  line : Int
  /-- The byte. -/
  byte : UInt8
  deriving DecidableEq, Repr

/-- The text that reports an invalid byte. -/
def InvalidByte.message (b : InvalidByte) : Text :=
  b.file ++ ":" ++ Text.ofInt b.line ++ ": invalid utf-8 sequence starting with byte "
    ++ Text.quotedByte b.byte ++ " at offset " ++ Text.ofInt b.pos

/-- Why no further character can be scanned. -/
inductive ScanFault where
  /-- Every byte has been scanned. -/
  | endOfInput
  /-- The source could not be read; the message is the reader's. -/
  | unreadable (message : Text)
  /-- The next byte starts no character. -/
  | invalidByte (at_ : InvalidByte)
  deriving DecidableEq, Repr

/-- The text that reports why scanning stopped. -/
def ScanFault.message : ScanFault → Text
  | .endOfInput => "EOF"
  | .unreadable message => message
  | .invalidByte b => b.message

/-- How far into the source a place is. -/
structure Mark where
  /-- Bytes in front of the place. -/
  pos : Nat := 0
  /-- One more than the line feeds in front of it. -/
  line : Nat := 1
  /-- One more than the characters between the last line feed and the place. -/
  col : Nat := 1
  deriving DecidableEq, Repr, Inhabited

/-- The place behind a character. -/
def Mark.after (m : Mark) (c : Char) : Mark :=
  if c = '\n' then { pos := m.pos + c.utf8Size, line := m.line + 1, col := 1 }
  else { pos := m.pos + c.utf8Size, line := m.line, col := m.col + 1 }

/-- A position in a source text, with the pending text of the next token. -/
structure Cursor where
  /-- The name of the source. -/
  file : Text
  /-- The characters ahead. -/
  unread : List Char
  /-- The bytes behind `unread` that are not UTF-8. -/
  undecodable : Text
  /-- The message of a failed read. -/
  failure : Option Text
  /-- Where the pending text starts. -/
  start : Mark := {}
  /-- Where the next character is. -/
  here : Mark := {}
  /-- The characters passed since `start`, newest first. -/
  pending : List Char := []
  /-- The character passed last. -/
  current : Option Char := none
  deriving Repr

namespace Cursor

/-- A cursor at the start of a source. With a `failure`, reading the source ended with that
message instead of the end of input. -/
def ofText (file bytes : Text) (failure : Option Text) : Cursor :=
  let (unread, undecodable) := bytes.decode
  { file, unread, undecodable, failure }

/-- The location of a mark in this cursor's source. -/
def locate (c : Cursor) (m : Mark) : Location :=
  { file := c.file, pos := m.pos, line := m.line, col := m.col }

/-- Where the pending text starts. -/
def startLocation (c : Cursor) : Location := c.locate c.start

/-- Where the next character is. -/
def location (c : Cursor) : Location := c.locate c.here

/-- The characters passed since the last `ignore`. -/
def text (c : Cursor) : Text := Text.ofChars c.pending.reverse

/-- Drops the pending text: the next token starts here. -/
def ignore (c : Cursor) : Cursor := { c with start := c.here, pending := [] }

/-- Whether every byte of the source has been passed. -/
def atEnd (c : Cursor) : Bool := c.unread.isEmpty && c.undecodable.isEmpty

/-- The next character, or why there is none. -/
def peek (c : Cursor) : Except ScanFault Char :=
  match c.failure, c.unread, c.undecodable with
  | some message, _, _ => .error (.unreadable message)
  | none, x :: _, _ => .ok x
  | none, [], byte :: _ =>
    .error (.invalidByte { file := c.file, pos := c.here.pos, line := c.here.line, byte })
  | none, [], [] => .error .endOfInput

/-- Passes the characters `xs`, which leaves `rest` ahead. -/
def pass (c : Cursor) (xs rest : List Char) : Cursor :=
  { c with
    unread := rest
    here := xs.foldl Mark.after c.here
    pending := xs.reverse ++ c.pending
    current := xs.getLast?.or c.current }

/-- Passes the next character and returns it. -/
def scan (c : Cursor) : Except ScanFault (Char × Cursor) :=
  match c.peek with
  | .ok x => .ok (x, c.pass [x] c.unread.tail)
  | .error why => .error why

/-- Passes characters as long as they are in the class `p`. -/
def advanceWhile (p : Char → Bool) (c : Cursor) : Cursor :=
  if c.failure.isSome then c else c.pass (c.unread.takeWhile p) (c.unread.dropWhile p)

theorem unread_of_scan {c c' : Cursor} {x : Char} (h : c.scan = .ok (x, c')) :
    c.unread = x :: c'.unread := by
  unfold scan at h
  split at h
  · rename_i y hy
    simp only [Except.ok.injEq, Prod.mk.injEq] at h
    obtain ⟨rfl, rfl⟩ := h
    unfold peek at hy
    split at hy <;> simp_all [pass]
  · simp at h

@[simp] theorem unread_ignore (c : Cursor) : c.ignore.unread = c.unread := rfl

theorem length_advanceWhile_le (p : Char → Bool) (c : Cursor) :
    (c.advanceWhile p).unread.length ≤ c.unread.length := by
  unfold advanceWhile
  split
  · exact Nat.le_refl _
  · exact (List.dropWhile_sublist p).length_le

end Cursor

end TinyLisp
