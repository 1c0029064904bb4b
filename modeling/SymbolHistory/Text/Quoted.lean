/-
# Text.Quoted -- texts in double quotes

Messages show a text in double quotes with everything that would not print
escaped, so that the reader sees which bytes it holds.  Two styles: `quote`
keeps printable characters of any script, `quoteBytes` keeps ASCII only.
-/
import SymbolHistory.Text.Utf8
import SymbolHistory.Text.Category

set_option autoImplicit false

namespace SymbolHistory

namespace Quoted

/-- The escape letter of a control character that has one. -/
def letter? (code : Nat) : Option UInt8 :=
  match code with
  | 7 => some 97
  | 8 => some 98
  | 9 => some 116
  | 10 => some 110
  | 11 => some 118
  | 12 => some 102
  | 13 => some 114
  | _ => none

def backslash : UInt8 := 92

def escape : Piece → Bytes
  | .broken b => [backslash, 120] ++ Bytes.hexByte b
  | .char c bs =>
    if c == 34 || c == 92 then backslash :: bs
    else if Category.isPrintable c then bs
    else
      match letter? c with
      | some l => [backslash, l]
      | none =>
        if c < 0x20 || c == 0x7F then [backslash, 120] ++ Bytes.hexNat 2 c
        else if c < 0x10000 then [backslash, 117] ++ Bytes.hexNat 4 c
        else [backslash, 85] ++ Bytes.hexNat 8 c

def quote (s : Bytes) : Bytes := [34] ++ (Utf8.pieces s).flatMap escape ++ [34]

/-- One byte inside the quotes of the ASCII style. -/
def escapeByte (b : UInt8) : Bytes :=
  if b < 0x20 || b ≥ 0x80 then [backslash, 120] ++ Bytes.hexByte b
  else if b == 34 || b == 92 then [backslash, b]
  else [b]

/-- A text in double quotes, every byte outside ASCII escaped. -/
def quoteBytes (s : Bytes) : Bytes := [34] ++ s.flatMap escapeByte ++ [34]

end Quoted

end SymbolHistory
