/-
# History.Record -- what changed from one version to the next

A diff file has one line per change: `a` or `r`, then name, kind, file, line
number and extra text, separated by tabs.
-/
import SymbolHistory.History.Table

set_option autoImplicit false

namespace SymbolHistory

/-- A symbol appears or disappears. -/
inductive Action where
  | add
  | remove
  deriving Repr, DecidableEq

namespace Action

def letter : Action → UInt8
  | add => 97
  | remove => 114

def name : Action → Bytes
  | add => lit "add"
  | remove => lit "remove"

def ofLetter? (b : UInt8) : Option Action :=
  if b == 97 then some add else if b == 114 then some remove else none

end Action

structure Record where
  action : Action
  id : SymbolId
  place : Occurrence
  deriving Repr, DecidableEq

namespace Record

/-- A line of a diff file for an action shown as `mark`, without the newline. -/
def formatMarked (mark : Bytes) (id : SymbolId) (place : Occurrence) : Bytes :=
  Bytes.join [Symbol.tab]
    [mark, id.name, id.kind.name, place.file, Decimal.ofInt place.line, place.extra]

/-- The record's line in a diff file, without the newline. -/
def format (r : Record) : Bytes := formatMarked [r.action.letter] r.id r.place

def writeAll (records : List Record) : Bytes := records.flatMap (fun r => r.format ++ [10])

def parse (line : Bytes) : Except Fault Record := do
  match Bytes.splitAtMost Symbol.tab 5 line with
  | [mark, name, kind, file, number, extra] =>
    let action ←
      match mark with
      | [b] => (Action.ofLetter? b).elim (.error (unknownAction mark)) .ok
      | _ => .error (unknownAction mark)
    let n ← (Fault.ofNumber .small number (Decimal.signed number)).mapError
      (.during (lit "parse diff record " ++ Quoted.quote name ++ lit ": line"))
    pure ⟨action, ⟨name, SymbolKind.ofName kind⟩, ⟨file, n, extra⟩⟩
  | fields =>
    throw (.other (lit "parse diff record: want 6 fields, got " ++
      Decimal.ofNat fields.length ++ lit " in " ++ Quoted.quote line))
where
  unknownAction (mark : Bytes) : Fault :=
    .other (lit "parse diff record: unknown action " ++ Quoted.quote mark)

/-- The longest line, its newline included, that a diff file may have. -/
def lineLimit : Nat := 0x100000

/-- A line is too long to be read.  One without a newline still needs the room for it. -/
def tooLong (l : Bytes.Line) : Bool := lineLimit < l.text.length + 1

/-- Read lines up to the first malformed one, with the records read so far, last first. -/
def readLines (done : List Record) : List Bytes.Line → Delivery Record
  | [] => ⟨done.reverse, none⟩
  | l :: rest =>
    if tooLong l then
      ⟨done.reverse,
        some (.during (lit "read diff records") (.other (lit "bufio.Scanner: token too long")))⟩
    else
      let text := Bytes.withoutReturn l.text
      if text.isEmpty then readLines done rest
      else
        match parse text with
        | .ok r => readLines (r :: done) rest
        | .error f => ⟨done.reverse, some f⟩

/-- Read a diff file.  Blank lines are passed over, a malformed one ends the reading. -/
def readAll (input : Input) : Delivery Record :=
  let read := readLines [] (Bytes.lines input.data)
  match read.failure, input.failure with
  | none, some f => { read with failure := some (.during (lit "read diff records") f) }
  | _, _ => read

end Record

end SymbolHistory
