/-
# TagTable -- what a symbol generator writes

A tag table has one line per symbol: name, file, and an address followed by
`;"` and the symbol's kind.  The address is the text of the line between `/^`
and `$/`, with slashes and backslashes escaped, or a line number.  Lines that
start with `!` describe the table.

`Entry.decode` reads one line, `escape` and `unescape` are the two directions
of a line's text in an address, and a `Reader` delivers the entries one by one.
A malformed line ends the table without being an error.
-/
import SymbolHistory.Symbol
import SymbolHistory.Path
import SymbolHistory.TagTable.Cursor

set_option autoImplicit false

namespace SymbolHistory

namespace TagTable

/-- What starts a line that describes the table. -/
def headerMark : UInt8 := 33

/-- Slashes and backslashes get a backslash before them. -/
def escape (s : Bytes) : Bytes := s.flatMap (fun b => if b == 47 || b == 92 then [92, b] else [b])

/-- `unescape` after the bytes already produced, which stand last first. -/
def unescapeOnto (out : Bytes) : Bytes → Bytes
  | 92 :: 47 :: rest => unescapeOnto (47 :: out) rest
  | 92 :: 92 :: rest => unescapeOnto (92 :: out) rest
  | b :: rest => unescapeOnto (b :: out) rest
  | [] => out.reverse

/-- A backslash before a slash or backslash goes away. -/
def unescape (s : Bytes) : Bytes := unescapeOnto [] s

/-- How a table says where a symbol is. -/
inductive Address where
  | text (line : Bytes)
  | number (n : Int)
  | other
  deriving Repr, DecidableEq

/-- The address written as `s`. -/
def Address.ofExpression (s : Bytes) : Address :=
  if 4 ≤ s.length && Bytes.startsWith [47, 94] s && Bytes.endsWith [36, 47] s then
    .text (unescape ((s.drop 2).take (s.length - 4)))
  else if !s.isEmpty && s.all Bytes.isDigit then
    match Decimal.signed s with
    | .ok n => .number n
    | .error _ => .other
  else .other

/-- One line of a tag table.  The line number is 0 when the place was not found. -/
structure Entry where
  name : Bytes
  file : Bytes
  expression : Bytes
  line : Int
  kind : SymbolKind
  extra : List Bytes
  deriving Repr, DecidableEq

namespace Entry

/-- Read one line; the place is not yet looked up. -/
def decode (line : Bytes) : Option Entry :=
  match Bytes.splitAtMost Symbol.tab 2 line with
  | [name, file, rest] =>
    match Bytes.cut (lit ";\"") rest with
    | none => none
    | some (expression, fields) =>
      match Bytes.splitOn Symbol.tab (Bytes.trimBytes (· == Symbol.tab) fields) with
      | [] => some ⟨name, file, expression, 0, .unknown, []⟩
      | kind :: extra => some ⟨name, file, expression, 0, SymbolKind.ofField kind, extra⟩
  | _ => none

end Entry

/-- Where the source files are that addresses refer to. -/
structure Sources where
  base : Bytes
  content : Bytes → Option Bytes

def Sources.path (s : Sources) (file : Bytes) : Bytes :=
  if Path.isAbsolute file then file else Path.join [s.base, file]

/-- Why no more entries come. -/
inductive Stop where
  | finished
  | malformed (line : Nat)
  | failed (fault : Fault)
  deriving Repr, DecidableEq

/-- A table being read: the lines ahead, what waits at their end, the number of lines read, the
source file searched last, and why reading stopped. -/
structure Reader where
  ahead : List Bytes.Line
  failure : Option Fault
  sources : Option Sources
  passed : Nat := 0
  cursor : Option Cursor := none
  stop : Option Stop := none

namespace Reader

/-- A table about to be read.  Without sources no line texts are looked up. -/
def ofInput (input : Input) (sources : Option Sources) : Reader :=
  { ahead := Bytes.lines input.data, failure := input.failure, sources }

/-- The cursor for a path: the current one if it is for that path. -/
def cursorFor (r : Reader) (s : Sources) (path : Bytes) : Cursor :=
  match r.cursor with
  | some c => if c.path == path then c else .start path (s.content path)
  | none => .start path (s.content path)

/-- The entry with its line number filled in. -/
def resolve (r : Reader) (e : Entry) : Entry × Reader :=
  match Address.ofExpression e.expression, r.sources with
  | .text text, some s =>
    let (n, c) := (r.cursorFor s (s.path e.file)).find text
    ({ e with line := Int.ofNat n }, { r with cursor := some c })
  | .number n, _ => ({ e with line := n }, r)
  | _, _ => (e, r)

/-- A line's text as the reader judges it: without its newline and one carriage return. -/
def lineText (l : Bytes.Line) : Bytes := Bytes.withoutReturn l.text

/-- The reading ends where the text does: in its failure if one waits there. -/
def finish (r : Reader) : Reader :=
  match r.failure with
  | some f => { r with ahead := [], stop := some (.failed (.during (lit "tagfile read") f)) }
  | none => { r with ahead := [], stop := some .finished }

/-- Read on until an entry or the end.  A line cut short by a failure is not read. -/
def advance (r : Reader) : List Bytes.Line → Option Entry × Reader
  | [] => (none, r.finish)
  | l :: rest =>
    if !l.ended && r.failure.isSome then (none, r.finish)
    else
      let r := { r with ahead := rest, passed := r.passed + 1 }
      if (lineText l).head? == some headerMark then advance r rest
      else
        match Entry.decode (lineText l) with
        | none => (none, { r with ahead := [], stop := some (.malformed r.passed) })
        | some e =>
          let (e, r) := r.resolve e
          (some e, r)

/-- The next entry.  Once there is none there is never one again. -/
def next (r : Reader) : Option Entry × Reader :=
  match r.stop with
  | some _ => (none, r)
  | none => advance r r.ahead

/-- The number of the malformed line that ended the table, 0 if none did. -/
def badLine (r : Reader) : Nat :=
  match r.stop with
  | some (.malformed n) => n
  | _ => 0

def fault (r : Reader) : Option Fault :=
  match r.stop with
  | some (.failed f) => some f
  | _ => none

/-- `readAll` with the entries read so far, last first, and a bound on those to come. -/
def readAllFrom : Nat → List Entry → Reader → List Entry × Reader
  | 0, done, r => (done.reverse, r)
  | fuel + 1, done, r =>
    match r.next with
    | (none, r) => (done.reverse, r)
    | (some e, r) => readAllFrom fuel (e :: done) r

/-- All entries, and the reader after the last. -/
def readAll (r : Reader) : List Entry × Reader := readAllFrom (r.ahead.length + 1) [] r

end Reader

end TagTable

end SymbolHistory
