/-
# Binary64 -- numbers with 53 significant bits

Nonnegative binary floating point numbers as exact pairs `mantissa * 2 ^ exponent`
with a mantissa below `2 ^ 53`.  Every operation gives the number of this form
that is nearest to the exact result, a half going to the even mantissa.  The
exponent is not bounded.
-/

set_option autoImplicit false

namespace SymbolHistory

/-- A nonnegative number with 53 significant bits. -/
structure Binary64 where
  mantissa : Nat
  exponent : Int
  deriving Repr, DecidableEq

namespace Binary64

/-- A quotient rounded to the nearest whole number, a half to the even one. -/
def roundDiv (num den : Nat) : Nat :=
  let q := num / den
  let r := num % den
  if den < 2 * r || (2 * r == den && q % 2 == 1) then q + 1 else q

/-- `num / den * 2 ^ (- e)` as a quotient. -/
def scale (num den : Nat) : Int → Nat × Nat
  | .ofNat k => (num, den * Nat.pow 2 k)
  | .negSucc k => (num * Nat.pow 2 (k + 1), den)

/-- The number nearest to `num / den * 2 ^ shift`. -/
def ofRatio (num den : Nat) (shift : Int) : Binary64 :=
  if num == 0 then ⟨0, 0⟩
  else
    -- with this exponent the quotient lies between 2 ^ 52 and 2 ^ 54
    let near : Int := Int.ofNat (Nat.log2 num) - Int.ofNat (Nat.log2 den) - 53
    let whole := (scale num den near).1 / (scale num den near).2
    let e := if whole < 0x20000000000000 then near else near + 1
    let m := roundDiv (scale num den e).1 (scale num den e).2
    if m == 0x20000000000000 then ⟨0x10000000000000, e + 1 + shift⟩ else ⟨m, e + shift⟩

def ofNat (n : Nat) : Binary64 := ofRatio n 1 0

def div (n d : Nat) : Binary64 := ofRatio n d 0

def mul (a b : Binary64) : Binary64 := ofRatio (a.mantissa * b.mantissa) 1 (a.exponent + b.exponent)

def floor (a : Binary64) : Nat :=
  match a.exponent with
  | .ofNat k => a.mantissa * Nat.pow 2 k
  | .negSucc k => a.mantissa / Nat.pow 2 (k + 1)

end Binary64

end SymbolHistory
