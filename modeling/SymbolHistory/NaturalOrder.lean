/-
# NaturalOrder -- names in the order people expect

Names compare without regard to case and with embedded numbers by value, so
`v2.10` follows `v2.9`.  `less` is the relation on small-letter texts, `order`
the comparison of names.  Numbers are read with 64 unsigned bits; a longer run
of digits makes the rest of the comparison bytewise, which is why `order` is
not transitive on such names.
-/
import SymbolHistory.Text.LetterCase
import SymbolHistory.Text.Decimal

set_option autoImplicit false

namespace SymbolHistory

namespace NaturalOrder

/-- Both texts without the equal bytes they start with, up to the first digit. -/
def skipCommon : Bytes → Bytes → Bytes × Bytes
  | a :: as, b :: bs =>
    if Bytes.isDigit a || Bytes.isDigit b || a != b then (a :: as, b :: bs) else skipCommon as bs
  | as, bs => (as, bs)

def leadingDigits (s : Bytes) : Bytes × Bytes := s.span Bytes.isDigit

/-- `less` with a bound on the number runs still to be compared. -/
def lessFrom : Nat → Bytes → Bytes → Bool
  | 0, a, b => Bytes.before a b
  | fuel + 1, a, b =>
    let (a, b) := skipCommon a b
    if a.isEmpty then !b.isEmpty
    else
      let (da, ra) := leadingDigits a
      let (db, rb) := leadingDigits b
      match Decimal.unsigned? da, Decimal.unsigned? db with
      | some m, some n =>
        if m != n then decide (m < n)
        else if ra.isEmpty || rb.isEmpty then Bytes.before a b
        else lessFrom fuel ra rb
      | _, _ => Bytes.before a b

/-- Numbers by value, all other text bytewise.  Runs of digits with equal values but different
spellings are passed over when both texts go on after them. -/
def less (a b : Bytes) : Bool := lessFrom (a.length + b.length + 1) a b

/-- Natural order of two names; equal when they differ only in case. -/
def order (a b : Bytes) : Ordering :=
  let x := LetterCase.lowerText a
  let y := LetterCase.lowerText b
  if x == y then .eq
  else if less x y then .lt
  else if less y x then .gt
  else Bytes.order x y

/-- Natural order with ties broken bytewise. -/
def orderStrict (a b : Bytes) : Ordering :=
  match order a b with
  | .eq => Bytes.order a b
  | o => o

end NaturalOrder

end SymbolHistory
