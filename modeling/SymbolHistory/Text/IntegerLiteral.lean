/-
# Text.IntegerLiteral -- whole numbers in any of four bases

A literal is decimal unless it starts with a zero: `0x`, `0o` and `0b` announce
bases sixteen, eight and two, and a bare leading zero base eight.  Underscores
may stand between digits and after an announced base.  As with decimal numbers,
digits are judged from the left.
-/
import SymbolHistory.Text.Decimal

set_option autoImplicit false

namespace SymbolHistory

namespace IntegerLiteral

def small (b : UInt8) : UInt8 := b ||| 32

/-- The base of an announcing letter. -/
def baseOf? (b : UInt8) : Option Nat :=
  if small b == 98 then some 2
  else if small b == 111 then some 8
  else if small b == 120 then some 16
  else none

/-- The base of a literal without its sign, and its digits. -/
def split : Bytes → Nat × Bytes
  | 48 :: b :: c :: rest =>
    match baseOf? b with
    | some base => (base, c :: rest)
    | none => (8, b :: c :: rest)
  | 48 :: rest => (8, rest)
  | s => (10, s)

/-- The value of a digit in the largest base that letters reach. -/
def digit? (b : UInt8) : Option Nat :=
  if Bytes.isDigit b then some (b.toNat - 48)
  else if 97 ≤ small b && small b ≤ 122 then some ((small b).toNat - 87)
  else none

/-- Digits read onto the value so far, within 64 unsigned bits; underscores are passed over. -/
def digitsFrom (base value : Nat) : Bytes → Except Decimal.Reason Nat
  | [] => .ok value
  | b :: rest =>
    if b == 95 then digitsFrom base value rest
    else
      match digit? b with
      | none => .error .invalid
      | some d =>
        if base ≤ d then .error .invalid
        else if value * base + d < Decimal.unsignedLimit then digitsFrom base (value * base + d) rest
        else .error .outOfRange

/-- Every underscore follows a digit and is followed by one; `afterDigit` says what came before. -/
def separatorsFit (afterDigit : Bool) : Bytes → Bool
  | [] => true
  | [b] => b != 95
  | b :: rest => if b == 95 then afterDigit && separatorsFit false rest else separatorsFit true rest

/-- A literal without a sign, within 64 unsigned bits. -/
def unsigned (s : Bytes) : Except Decimal.Reason Nat :=
  if s.isEmpty then .error .invalid
  else
    let (base, digits) := split s
    let announced := digits.length + 2 == s.length && base != 10
    let body := if announced then digits else s
    match digitsFrom base 0 digits with
    | .error r => .error r
    | .ok n => if separatorsFit announced body then .ok n else .error .invalid

/-- A literal with or without a sign, within 64 signed bits. -/
def signed (s : Bytes) : Except Decimal.Reason Int :=
  let (negative, body) := match s with
    | 45 :: rest => (true, rest)
    | 43 :: rest => (false, rest)
    | _ => (false, s)
  match unsigned body with
  | .error r => .error r
  | .ok n =>
    if negative then if n ≤ Decimal.signedLimit then .ok (-(Int.ofNat n)) else .error .outOfRange
    else if n < Decimal.signedLimit then .ok (Int.ofNat n) else .error .outOfRange

end IntegerLiteral

end SymbolHistory
