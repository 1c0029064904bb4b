/-
# Binary64.Shortest -- the fewest decimal digits that read back

A number is written with the fewest significant digits that lie nearer to it
than to its neighbours, and of those with the digits nearest to it.  A decimal
is a pair `(digits, power)` for `digits * 10 ^ power`.  All comparisons are
between whole numbers.
-/
import SymbolHistory.Binary64
import SymbolHistory.Text.Decimal

set_option autoImplicit false

namespace SymbolHistory

namespace Binary64

/-- `b ^ e` as a quotient. -/
def powRatio (b : Nat) : Int → Nat × Nat
  | .ofNat k => (Nat.pow b k, 1)
  | .negSucc k => (1, Nat.pow b (k + 1))

/-- The mantissa lies between `2 ^ 52` and `2 ^ 53`, except that of zero. -/
def normal (a : Binary64) : Binary64 := ofRatio a.mantissa 1 a.exponent

/-- Whether `d * 10 ^ p` is nearer to the normal number `a` than to its neighbours.  The points
half way belong to it when its mantissa is even. -/
def owns (a : Binary64) (d : Nat) (p : Int) : Bool :=
  let (tn, td) := powRatio 10 p
  let (bn, bd) := powRatio 2 (a.exponent - 2)
  let here := d * tn * bd
  let below := (4 * a.mantissa - (if a.mantissa == 0x10000000000000 then 1 else 2)) * bn * td
  let above := (4 * a.mantissa + 2) * bn * td
  if a.mantissa % 2 == 0 then below ≤ here && here ≤ above else below < here && here < above

/-- The distance of `d * 10 ^ p` to `a`, in a unit that depends on `a` and `p` alone. -/
def distance (a : Binary64) (d : Nat) (p : Int) : Nat :=
  let (tn, td) := powRatio 10 p
  let (bn, bd) := powRatio 2 a.exponent
  let x := d * tn * bd
  let y := a.mantissa * bn * td
  (x - y) + (y - x)

/-- The greatest `d` with `d * 10 ^ p` not above `a`. -/
def floorAt (a : Binary64) (p : Int) : Nat :=
  let (tn, td) := powRatio 10 p
  let (bn, bd) := powRatio 2 a.exponent
  (a.mantissa * bn * td) / (bd * tn)

/-- The power of ten of the leading digit: searched downwards from `top`. -/
def leadingFrom (a : Binary64) : Nat → Int → Int
  | 0, top => top
  | fuel + 1, top => if floorAt a top == 0 then leadingFrom a fuel (top - 1) else top

def leading (a : Binary64) : Int :=
  -- 2 ^ 10 exceeds 10 ^ 3, so three tenths of the binary exponent are near enough
  let guess := (a.exponent + 53) * 31 / 100 + 1
  leadingFrom a (guess.natAbs + 400) guess

/-- The nearer of the neighbours of `a` among the multiples of `10 ^ p` that `a` owns. -/
def onGrid (a : Binary64) (p : Int) : Option Nat :=
  let d := floorAt a p
  match owns a d p, owns a (d + 1) p with
  | true, true => if distance a d p ≤ distance a (d + 1) p then some d else some (d + 1)
  | true, false => some d
  | false, true => some (d + 1)
  | false, false => none

/-- The first grid with a decimal that `a` owns. -/
def shortestFrom (a : Binary64) : Nat → Int → Nat × Int
  | 0, p => (floorAt a p, p)
  | fuel + 1, p =>
    match onGrid a p with
    | some d => (d, p)
    | none => shortestFrom a fuel (p - 1)

/-- Trailing zeros moved into the power. -/
def stripZeros : Nat → Nat → Int → Nat × Int
  | 0, d, p => (d, p)
  | fuel + 1, d, p => if d % 10 == 0 then stripZeros fuel (d / 10) (p + 1) else (d, p)

def shortest (a : Binary64) : Nat × Int :=
  let a := a.normal
  let (d, p) := shortestFrom a 17 a.leading
  stripZeros 20 d p

/-- At least two digits of an exponent, after its sign. -/
def exponentText (e : Int) : Bytes :=
  let digits := Decimal.ofNat e.natAbs
  (if e < 0 then [45] else [43]) ++ (if digits.length < 2 then 48 :: digits else digits)

/-- A number as text: positional when its leading digit stands for `10 ^ -4` to `10 ^ 5`, with an
exponent otherwise. -/
def text (a : Binary64) : Bytes :=
  if a.mantissa == 0 then [48]
  else
    let (d, p) := a.shortest
    let digits := Decimal.ofNat d
    let lead := p + digits.length - 1
    if lead < -4 || 6 ≤ lead then
      let rest := digits.drop 1
      digits.take 1 ++ (if rest.isEmpty then [] else 46 :: rest) ++ [101] ++ exponentText lead
    else if 0 ≤ p then digits ++ List.replicate p.toNat 48
    else if 0 ≤ lead then
      digits.take (lead.toNat + 1) ++ [46] ++ digits.drop (lead.toNat + 1)
    else [48, 46] ++ List.replicate ((-lead).toNat - 1) 48 ++ digits

/-- `a ≤ b`. -/
def le (a b : Binary64) : Bool :=
  let (an, ad) := powRatio 2 a.exponent
  let (bn, bd) := powRatio 2 b.exponent
  a.mantissa * an * bd ≤ b.mantissa * bn * ad

end Binary64

/-- A number of either sign with 53 significant bits. -/
structure SignedBinary64 where
  negative : Bool
  size : Binary64
  deriving Repr, DecidableEq

namespace SignedBinary64

def zero : SignedBinary64 := ⟨false, ⟨0, 0⟩⟩

def signed (a : SignedBinary64) : Int :=
  if a.negative then - (a.size.mantissa : Int) else a.size.mantissa

def add (a b : SignedBinary64) : SignedBinary64 :=
  let e := min a.size.exponent b.size.exponent
  let x := a.signed * Int.ofNat (Nat.pow 2 (a.size.exponent - e).toNat)
  let y := b.signed * Int.ofNat (Nat.pow 2 (b.size.exponent - e).toNat)
  ⟨x + y < 0, Binary64.ofRatio (x + y).natAbs 1 e⟩

def text (a : SignedBinary64) : Bytes :=
  if a.negative && a.size.mantissa != 0 then 45 :: a.size.text else a.size.text

/-- Not above a number that is not negative. -/
def atMost (a : SignedBinary64) (bound : Binary64) : Bool := a.negative || a.size.le bound

end SignedBinary64

end SymbolHistory
