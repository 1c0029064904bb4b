/-
# TagTable.Cursor -- finding lines of a source file in order

A tag table names a symbol's place by the text of its line.  Tables list the
symbols of a file in source order, so a file is read forward, line by line, and
each search goes on where the one before it stopped.  A search that runs off the
end goes back to the start of the file once, and reads up to the line where it
began.
-/
import SymbolHistory.Text.Bytes

set_option autoImplicit false

namespace SymbolHistory

/-- A source file that is being read. -/
structure Cursor where
  path : Bytes
  /-- All lines of the file. -/
  lines : List Bytes
  /-- The lines that are still to be read. -/
  ahead : List Bytes
  /-- How many lines have been read. -/
  passed : Nat
  deriving Repr, DecidableEq

namespace Cursor

/-- A cursor before the first line.  A file that cannot be read has no lines. -/
def start (path : Bytes) (content : Option Bytes) : Cursor :=
  let lines := (Bytes.lines (content.getD [])).map Bytes.Line.text
  { path, lines, ahead := lines, passed := 0 }

/-- A line has the text searched for, with or without one carriage return at its end. -/
def isMatch (text line : Bytes) : Bool := line == text || Bytes.withoutReturn line == text

/-- Read the lines given until one matches or the number of lines read comes to the limit, if
there is one: the number of the line that matches, or 0. -/
def scanLines (text : Bytes) (limit : Option Nat) (c : Cursor) : List Bytes → Nat × Cursor
  | [] => (0, { c with ahead := [] })
  | line :: rest =>
    if limit.any (· ≤ c.passed) then (0, { c with ahead := line :: rest })
    else
      let c := { c with ahead := rest, passed := c.passed + 1 }
      if isMatch text line then (c.passed, c) else scanLines text limit c rest

/-- Read on until a line matches. -/
def scan (c : Cursor) (text : Bytes) (limit : Option Nat) : Nat × Cursor :=
  scanLines text limit c c.ahead

def rewind (c : Cursor) : Cursor := { c with ahead := c.lines, passed := 0 }

/-- The number of the next line that matches, 0 if there is none.  At the end of the file the search
goes on from its start, up to the line where it began. -/
def find (c : Cursor) (text : Bytes) : Nat × Cursor :=
  match c.scan text none with
  | (0, d) => if c.passed = 0 then (0, d) else d.rewind.scan text (some c.passed)
  | found => found

end Cursor

end SymbolHistory
