/-
# Journal -- what the indexer reports while it works

An entry has a level, a message and attributes in the order in which they were
given.  It is written as a line of `key=value` pairs, in which a value is quoted
if it would be misread otherwise, or as a line that is a JSON object.
-/
import SymbolHistory.Duration
import SymbolHistory.Text.JsonString
import SymbolHistory.Text.LetterCase

set_option autoImplicit false

namespace SymbolHistory

namespace Journal

inductive Level where
  | debug
  | info
  | warn
  | error
  deriving Repr, DecidableEq

namespace Level

def name : Level → Bytes
  | debug => lit "DEBUG"
  | info => lit "INFO"
  | warn => lit "WARN"
  | error => lit "ERROR"

def number : Level → Nat
  | debug => 0
  | info => 1
  | warn => 2
  | error => 3

/-- The level with a name in any case; anything else is information. -/
def ofName (s : Bytes) : Level :=
  let small := LetterCase.lowerText (Utf8.trim s)
  if small == lit "debug" then debug
  else if small == lit "warn" || small == lit "warning" then warn
  else if small == lit "error" then error
  else info

end Level

inductive Value where
  | text (s : Bytes)
  | number (n : Int)
  | time (d : Duration)
  deriving Repr, DecidableEq

instance : Coe Bytes Value := ⟨.text⟩

namespace Value

def plain : Value → Bytes
  | text s => s
  | number n => Decimal.ofInt n
  | time d => d.format

/-- The value as JSON; a time is its nanoseconds. -/
def json : Value → Bytes
  | text s => JsonString.quote s
  | number n => Decimal.ofInt n
  | time d => Decimal.ofInt d.nanoseconds

end Value

/-- An attribute: its name and value. -/
abbrev Attribute := Bytes × Value

structure Entry where
  level : Level
  message : Bytes
  attributes : List Attribute
  deriving Repr, DecidableEq

inductive Format where
  | text
  | json
  deriving Repr, DecidableEq

/-- The format with a name; anything but the name of JSON in any case is text. -/
def Format.ofName (s : Bytes) : Format :=
  if LetterCase.sameText s (lit "json") then json else text

/-- A piece of a value that is misread unless it is quoted: a blank, an equals sign, a quote, and
whatever does not print. -/
def isMisread : Piece → Bool
  | .broken _ => true
  | .char c _ =>
    if c < 0x80 then c == 32 || c == 61 || c == 34 || c < 32
    else c == 0xFFFD || Utf8.isSpace c || !Category.isPrintable c

/-- A value that is quoted only if it must be. -/
def bare (s : Bytes) : Bytes :=
  if s.isEmpty || (Utf8.pieces s).any isMisread then Quoted.quote s else s

/-- The line of an entry.  What comes in front of the level, such as the time, is given. -/
def Entry.line (format : Format) (front : List Attribute) (e : Entry) : Bytes :=
  let fields := front ++ [(lit "level", .text e.level.name), (lit "msg", .text e.message)] ++
    e.attributes
  match format with
  | .text => Bytes.join [32] (fields.map fun a => bare a.1 ++ [61] ++ bare a.2.plain) ++ [10]
  | .json =>
    [123] ++ Bytes.join [44] (fields.map fun a => JsonString.quote a.1 ++ [58] ++ a.2.json) ++
      [125, 10]

end Journal

end SymbolHistory
