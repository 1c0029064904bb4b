/-
# Shell.Expansion -- from pieces of a word to fields

A word comes to fragments.  Blanks divide only what came from a value outside
quotes, so quoted text stays one field even when it is empty.
-/
import SymbolHistory.Shell.State
import SymbolHistory.Shell.Utility
import SymbolHistory.Shell.Wildcard

set_option autoImplicit false

namespace SymbolHistory

namespace Shell

/-- What the pieces of a word come to. -/
inductive Fragment where
  /-- Text that is kept together. -/
  | whole (s : Bytes) (quoted : Bool)
  /-- Text that blanks divide. -/
  | divisible (s : Bytes)
  /-- The end of a field. -/
  | divide
  deriving Repr, DecidableEq

def isSeparator (b : UInt8) : Bool := b == 32 || b == 9 || b == 10

/-- Fields with the one under way, if there is one; finished ones stand last first. -/
structure Fields where
  done : List Bytes := []
  current : Option Bytes := none

def Fields.finish (f : Fields) : Fields :=
  match f.current with
  | some s => ⟨s :: f.done, none⟩
  | none => f

def Fields.add (f : Fields) (s : Bytes) : Fields := { f with current := some ((f.current.getD []) ++ s) }

def Fields.take (f : Fields) : Fragment → Fields
  | .whole s quoted => if s.isEmpty && !quoted then f else f.add s
  | .divisible s =>
    s.foldl (fun f b => if isSeparator b then f.finish else f.add [b]) f
  | .divide => f.finish

def fieldsOf (fragments : List Fragment) : List Bytes :=
  (fragments.foldl Fields.take {}).finish.done.reverse

/-- The text of a word that is not divided. -/
def textOf (fragments : List Fragment) : Bytes :=
  fragments.flatMap fun f =>
    match f with
    | .whole s _ => s
    | .divisible s => s
    | .divide => [32]

def patternOf (fragments : List Fragment) : List Wildcard :=
  let bytes := fragments.flatMap fun f =>
    match f with
    | .whole s quoted => s.map fun b => (b, quoted)
    | .divisible s => s.map fun b => (b, false)
    | .divide => [(32, true)]
  Wildcard.ofBytes (bytes.length + 1) bytes

def parameter? (s : State) (name : Bytes) : Option Bytes :=
  if name == [35] then some (Decimal.ofNat s.arguments.length)
  else if name == [63] then some (Decimal.ofNat s.status)
  else if name == [36] then some (Decimal.ofNat processNumber)
  else if name == [48] then some s.zero
  else if name == [64] || name == [42] then
    if s.arguments.isEmpty then none else some (Bytes.join [32] s.arguments)
  else if name.all Bytes.isDigit then s.arguments[Utility.digitsValue name - 1]?
  else s.value? name

def treat (treatment : Treatment) (value : Option Bytes) (operand : List Fragment) : Bytes :=
  let text := value.getD []
  match treatment with
  | .plain => text
  | .length => Decimal.ofNat text.length
  | .default orEmpty =>
    if value.isNone || (orEmpty && text.isEmpty) then textOf operand else text
  | .instead orEmpty =>
    if value.isNone || (orEmpty && text.isEmpty) then [] else textOf operand
  | .dropStart longest => Wildcard.dropStart (patternOf operand) longest text
  | .dropEnd longest => Wildcard.dropEnd (patternOf operand) longest text

end Shell

end SymbolHistory
