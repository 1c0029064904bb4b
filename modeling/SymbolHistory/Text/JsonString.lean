/-
# Text.JsonString -- texts as JSON strings

Quotes, backslashes and control characters are escaped, and so are the two line
separators that some readers take for line ends.  A byte that belongs to no
character becomes the replacement character.
-/
import SymbolHistory.Text.Utf8

set_option autoImplicit false

namespace SymbolHistory

namespace JsonString

/-- The escape letter of a control character that has one. -/
def letter? (code : Nat) : Option UInt8 :=
  match code with
  | 8 => some 98
  | 9 => some 116
  | 10 => some 110
  | 12 => some 102
  | 13 => some 114
  | _ => none

def numbered (c : Nat) : Bytes := [92, 117] ++ Bytes.hexNat 4 c

def escape : Piece → Bytes
  | .broken _ => numbered 0xFFFD
  | .char c bs =>
    if c == 34 || c == 92 then 92 :: bs
    else if c < 32 then
      match letter? c with
      | some l => [92, l]
      | none => numbered c
    else if c == 0x2028 || c == 0x2029 then numbered c
    else bs

def quote (s : Bytes) : Bytes := [34] ++ (Utf8.pieces s).flatMap escape ++ [34]

end JsonString

end SymbolHistory
