/-
# Text.Decimal -- whole numbers in decimal

Printing and reading of 64-bit integers.  A reader fails for one of two
reasons, and digits are judged from the left: a number that already exceeds 64
unsigned bits is out of range whatever follows it.
-/
import SymbolHistory.Text.Quoted

set_option autoImplicit false

namespace SymbolHistory

namespace Decimal

/-- Digits of a natural number, most significant first, before those already produced. -/
def digitsFrom : Nat → Nat → Bytes → Bytes
  | 0, _, done => done
  | fuel + 1, n, done =>
    let done := (48 + n % 10).toUInt8 :: done
    if n < 10 then done else digitsFrom fuel (n / 10) done

def ofNat (n : Nat) : Bytes := digitsFrom (n + 1) n []

def ofInt : Int → Bytes
  | .ofNat n => ofNat n
  | .negSucc n => 45 :: ofNat (n + 1)

/-- Why a text is not a number of the wanted kind. -/
inductive Reason where
  | invalid
  | outOfRange
  deriving Repr, DecidableEq

namespace Reason

def message : Reason → Bytes
  | invalid => lit "invalid syntax"
  | outOfRange => lit "value out of range"

end Reason

/-- Numbers of 64 unsigned bits are below this one. -/
def unsignedLimit : Nat := 0x10000000000000000

/-- Numbers of 64 signed bits are below this one, and not below its negative. -/
def signedLimit : Nat := 0x8000000000000000

/-- Digits read onto the value so far, within 64 unsigned bits. -/
def unsignedFrom (value : Nat) : Bytes → Except Reason Nat
  | [] => .ok value
  | b :: rest =>
    if Bytes.isDigit b then
      let next := value * 10 + (b.toNat - 48)
      if next < unsignedLimit then unsignedFrom next rest else .error .outOfRange
    else .error .invalid

/-- A nonempty run of digits whose value fits 64 unsigned bits. -/
def unsigned (s : Bytes) : Except Reason Nat :=
  if s.isEmpty then .error .invalid else unsignedFrom 0 s

/-- An optional sign and digits, within 64 signed bits. -/
def signed (s : Bytes) : Except Reason Int :=
  match s with
  | [] => .error .invalid
  | 45 :: rest => do
    let n ← unsigned rest
    if n ≤ signedLimit then pure (-(Int.ofNat n)) else throw .outOfRange
  | 43 :: rest => do
    let n ← unsigned rest
    if n < signedLimit then pure (Int.ofNat n) else throw .outOfRange
  | _ => do
    let n ← unsigned s
    if n < signedLimit then pure (Int.ofNat n) else throw .outOfRange

/-- The value of a run of digits, `none` when it does not fit 64 unsigned bits or is no number. -/
def unsigned? (s : Bytes) : Option Nat := (unsigned s).toOption

end Decimal

end SymbolHistory
