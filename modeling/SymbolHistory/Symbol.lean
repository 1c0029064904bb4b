/-
# Symbol -- named things in a C file, and the files that list them

A symbol file has one line per symbol: name, kind, line number and extra text,
separated by tabs.  `Symbol.format` writes a line, `Symbol.parse` reads one,
`Symbol.readAll` reads a whole file.  The line number is 0 when the place of
the symbol is not known.
-/
import SymbolHistory.Fault

set_option autoImplicit false

namespace SymbolHistory

/-- What a symbol is. -/
inductive SymbolKind where
  | unknown
  | function
  | define
  | variable
  deriving Repr, DecidableEq

namespace SymbolKind

def name : SymbolKind → Bytes
  | unknown => lit "Unknown"
  | function => lit "Function"
  | define => lit "Define"
  | «variable» => lit "Variable"

/-- The kind's letter in tag tables. -/
def code : SymbolKind → Bytes
  | unknown => lit "?"
  | function => lit "f"
  | define => lit "d"
  | «variable» => lit "v"

def number : SymbolKind → Nat
  | unknown => 0
  | function => 1
  | define => 2
  | «variable» => 3

/-- The kind with a number; numbers that stand for none are unknown. -/
def ofNumber (n : Nat) : SymbolKind :=
  if n == 1 then function else if n == 2 then define else if n == 3 then «variable» else unknown

/-- The kind with a name; any other name is unknown. -/
def ofName (s : Bytes) : SymbolKind :=
  if s == lit "Function" then function
  else if s == lit "Define" then define
  else if s == lit "Variable" then «variable»
  else unknown

/-- The kind that a tag table's kind field stands for, in its short or long form. -/
def ofField (field : Bytes) : SymbolKind :=
  let word := Bytes.withoutHead (lit "kind:") field
  if word == lit "f" || word == lit "function" then function
  else if word == lit "d" || word == lit "macro" || word == lit "define" then define
  else if word == lit "v" || word == lit "variable" then «variable»
  else unknown

end SymbolKind

/-- A symbol with its place in the file and what is known about it. -/
structure Symbol where
  name : Bytes
  kind : SymbolKind
  line : Int
  extra : Bytes
  deriving Repr, DecidableEq

namespace Symbol

/-- A tab, which separates fields. -/
def tab : UInt8 := 9

/-- The symbol's line in a symbol file, without the newline. -/
def format (s : Symbol) : Bytes :=
  Bytes.join [tab] [s.name, s.kind.name, Decimal.ofInt s.line, s.extra]

def writeAll (symbols : List Symbol) : Bytes := symbols.flatMap (fun s => s.format ++ [10])

/-- Read one line of a symbol file.  The extra text may be missing. -/
def parse (line : Bytes) : Except Fault Symbol := do
  match Bytes.splitAtMost tab 3 line with
  | name :: kind :: number :: rest =>
    let n ← (Fault.ofNumber .small number (Decimal.signed number)).mapError
      (.during (lit "parse symbol " ++ Quoted.quote name ++ lit ": line"))
    pure ⟨name, SymbolKind.ofName kind, n, rest.headD []⟩
  | fields =>
    throw (.other (lit "parse symbol: want at least 3 fields, got " ++
      Decimal.ofNat fields.length ++ lit " in " ++ Quoted.quote line))

/-- Read lines up to the first malformed one, with the symbols read so far, last first. -/
def readLines (done : List Symbol) : List Bytes → Delivery Symbol
  | [] => ⟨done.reverse, none⟩
  | line :: rest =>
    if line.isEmpty then readLines done rest
    else
      match parse line with
      | .ok s => readLines (s :: done) rest
      | .error f => ⟨done.reverse, some f⟩

/-- Read a symbol file.  Blank lines are passed over, a malformed one ends the reading. -/
def readAll (input : Input) : Delivery Symbol :=
  let read := readLines [] ((Bytes.lines input.data).map Bytes.Line.text)
  match read.failure, input.failure with
  | none, some f => { read with failure := some (.during (lit "read symbols") f) }
  | _, _ => read

end Symbol

end SymbolHistory
