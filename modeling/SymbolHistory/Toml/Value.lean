/-
# Toml.Value -- settings as values, and how they are written

A settings document is a table of values.  `Value` is what a document says;
the functions at the end write the lines of a document: one line per value,
and a headed block per table below the top one.
-/
import SymbolHistory.Text.LetterCase
import SymbolHistory.Text.Decimal
import SymbolHistory.Timestamp

set_option autoImplicit false

namespace SymbolHistory

namespace Toml

inductive Value where
  | string (s : Bytes)
  | integer (n : Int)
  | float (text : Bytes)
  | boolean (b : Bool)
  | moment (t : Timestamp)
  | array (items : List Value)
  | table (entries : List (Bytes × Value))
  deriving Repr, Inhabited

/-- The value under a name: the name as written, else the first that differs only in case. -/
def lookup (entries : List (Bytes × Value)) (name : Bytes) : Option Value :=
  let exact := (entries.find? (fun e => e.1 == name)).map Prod.snd
  exact <|> (entries.find? (fun e => LetterCase.sameText e.1 name)).map Prod.snd

/-! ## Writing -/

def escapeByte (b : UInt8) : Bytes :=
  if b == 34 || b == 92 then [92, b]
  else if b == 8 then lit "\\b"
  else if b == 9 then lit "\\t"
  else if b == 10 then lit "\\n"
  else if b == 12 then lit "\\f"
  else if b == 13 then lit "\\r"
  else if b < 32 || b == 127 then lit "\\u00" ++ Bytes.hexByte b
  else [b]

def quoted (s : Bytes) : Bytes := [34] ++ s.flatMap escapeByte ++ [34]

def line (indent : Nat) (name : String) (value : Bytes) : Bytes :=
  List.replicate indent 32 ++ lit name ++ lit " = " ++ value ++ [10]

def stringLine (indent : Nat) (name : String) (s : Bytes) : Bytes := line indent name (quoted s)

def stringLine? (indent : Nat) (name : String) (s : Bytes) : Bytes :=
  if s.isEmpty then [] else stringLine indent name s

def integerLine (indent : Nat) (name : String) (n : Int) : Bytes :=
  line indent name (Decimal.ofInt n)

/-- A line for a list of texts, left out when it is empty. -/
def listLine? (indent : Nat) (name : String) (items : List Bytes) : Bytes :=
  if items.isEmpty then []
  else line indent name (lit "[" ++ Bytes.join (lit ", ") (items.map quoted) ++ lit "]")

def heading (name : String) : Bytes := lit "\n[" ++ lit name ++ lit "]\n"

end Toml

end SymbolHistory
