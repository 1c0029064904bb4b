/-
# Shell.Arithmetic -- the value of an expression

Expressions are read by levels of binding strength, from `||` up to the signs
in front of a number.  A name stands for the number that is its value.
-/
import SymbolHistory.Shell.Expansion
import SymbolHistory.Shell.Parse
import SymbolHistory.Text.IntegerLiteral

set_option autoImplicit false

namespace SymbolHistory

namespace Shell

/-- The value of a number as scripts write it: a zero in front means base eight, `0x` sixteen. -/
def numberValue (s : Bytes) : Int :=
  match IntegerLiteral.signed s with
  | .ok n => n
  | .error _ => Utility.leadingInteger s

/-- A number or the value of a variable at the start of an expression. -/
def operand (s : State) (e : Bytes) : Option (Int × Bytes) :=
  let e := e.dropWhile isSeparator
  let (word, rest) := e.span isNameByte
  if word.isEmpty then none
  else if word.head?.any Bytes.isDigit then some (numberValue word, rest)
  else some (numberValue ((s.value? word).getD []), rest)

/-- An operator between two numbers, if there is one of this level here. -/
def operator? (level : Nat) (e : Bytes) : Option ((Int → Int → Option Int) × Bytes) :=
  let truth := fun (b : Bool) => some (if b then (1 : Int) else 0)
  let table : List (String × (Int → Int → Option Int)) :=
    match level with
    | 0 => [("||", fun a b => truth (a != 0 || b != 0))]
    | 1 => [("&&", fun a b => truth (a != 0 && b != 0))]
    | 2 => [("==", fun a b => truth (a == b)), ("!=", fun a b => truth (a != b))]
    | 3 =>
      [("<=", fun a b => truth (a ≤ b)), (">=", fun a b => truth (b ≤ a)),
       ("<", fun a b => truth (a < b)), (">", fun a b => truth (b < a))]
    | 4 => [("+", fun a b => some (a + b)), ("-", fun a b => some (a - b))]
    | _ =>
      [("*", fun a b => some (a * b)),
       ("/", fun a b => if b == 0 then none else some (Int.tdiv a b)),
       ("%", fun a b => if b == 0 then none else some (Int.tmod a b))]
  table.findSome? fun o =>
    (Bytes.after? (lit o.1) (e.dropWhile isSeparator)).map fun rest => (o.2, rest)

/-- The level of the operators that bind closest. -/
def lastLevel : Nat := 5

mutual

/-- A number, a variable, something in parentheses, or one of these with a sign or negated. -/
def factor (s : State) : Nat → Bytes → Option (Int × Bytes)
  | 0, _ => none
  | fuel + 1, e =>
    match e.dropWhile isSeparator with
    | 45 :: rest => (factor s fuel rest).map fun p => (-p.1, p.2)
    | 43 :: rest => factor s fuel rest
    | 33 :: rest => (factor s fuel rest).map fun p => (if p.1 == 0 then 1 else 0, p.2)
    | 40 :: rest =>
      match choice s fuel rest with
      | some (a, rest) =>
        match rest.dropWhile isSeparator with
        | 41 :: rest => some (a, rest)
        | _ => none
      | none => none
    | e => operand s e

/-- Operands joined by the operators of a level. -/
def joined (s : State) : Nat → Nat → Bytes → Option (Int × Bytes)
  | 0, _, _ => none
  | fuel + 1, level, e =>
    let first := if lastLevel < level then factor s fuel e else joined s fuel (level + 1) e
    match first with
    | none => none
    | some (a, rest) => if lastLevel < level then some (a, rest) else joinedMore s fuel level a rest

def joinedMore (s : State) : Nat → Nat → Int → Bytes → Option (Int × Bytes)
  | 0, _, _, _ => none
  | fuel + 1, level, a, e =>
    match operator? level e with
    | none => some (a, e)
    | some (f, rest) =>
      match joined s fuel (level + 1) rest with
      | none => none
      | some (b, rest) =>
        match f a b with
        | none => none
        | some c => joinedMore s fuel level c rest

/-- A condition with two outcomes, or just a value. -/
def choice (s : State) : Nat → Bytes → Option (Int × Bytes)
  | 0, _ => none
  | fuel + 1, e =>
    match joined s fuel 0 e with
    | none => none
    | some (a, rest) =>
      match rest.dropWhile isSeparator with
      | 63 :: rest =>
        match choice s fuel rest with
        | some (yes, rest) =>
          match rest.dropWhile isSeparator with
          | 58 :: rest =>
            match choice s fuel rest with
            | some (no, rest) => some (if a == 0 then no else yes, rest)
            | none => none
          | _ => none
        | none => none
      | rest => some (a, rest)

end

def arithmetic (s : State) (e : Bytes) : Bytes :=
  match choice s (16 * e.length + 32) e with
  | some (n, _) => Decimal.ofInt n
  | none => [48]

end Shell

end SymbolHistory
