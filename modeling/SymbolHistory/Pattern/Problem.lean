/-
# Pattern.Problem -- why a regular expression is refused

A refused expression names what is wrong and shows the part of it that is.
-/
import SymbolHistory.Text.Bytes

set_option autoImplicit false

namespace SymbolHistory

namespace Pattern

inductive Flaw where
  | charRange
  | escapeSequence
  | groupName
  | groupOption
  | nestedRepeat
  | repeatCount
  | invalidUtf8
  | unclosedClass
  | unclosedGroup
  | nothingToRepeat
  | trailingBackslash
  | strayClose
  | tooDeep
  deriving Repr, DecidableEq

namespace Flaw

def message : Flaw → Bytes
  | charRange => lit "invalid character class range"
  | escapeSequence => lit "invalid escape sequence"
  | groupName => lit "invalid named capture"
  | groupOption => lit "invalid or unsupported Perl syntax"
  | nestedRepeat => lit "invalid nested repetition operator"
  | repeatCount => lit "invalid repeat count"
  | invalidUtf8 => lit "invalid UTF-8"
  | unclosedClass => lit "missing closing ]"
  | unclosedGroup => lit "missing closing )"
  | nothingToRepeat => lit "missing argument to repetition operator"
  | trailingBackslash => lit "trailing backslash at end of expression"
  | strayClose => lit "unexpected )"
  | tooDeep => lit "expression nests too deeply"

end Flaw

/-- A flaw and the part of the expression that shows it. -/
structure Problem where
  flaw : Flaw
  shown : Bytes
  deriving Repr, DecidableEq

def Problem.message (p : Problem) : Bytes :=
  lit "error parsing regexp: " ++ p.flaw.message ++ lit ": `" ++ p.shown ++ lit "`"

end Pattern

end SymbolHistory
