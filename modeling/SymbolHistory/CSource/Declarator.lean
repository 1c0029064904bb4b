/-
# CSource.Declarator -- what a declaration declares

A declarator builds a type around a name: pointers in front, functions and
arrays behind, parentheses to group.  `Declarator.node` is its tree, and
`declarator` reads one from tokens.
-/
import SymbolHistory.CSource.Token
import SymbolHistory.CSource.Tree

set_option autoImplicit false

namespace SymbolHistory

namespace CSource

inductive Declarator where
  | name (text : Bytes) (line : Nat)
  | pointer (inner : Declarator)
  | function (inner : Declarator)
  | array (inner : Declarator)
  | parens (inner : Declarator)
  /-- A declarator with an initial value. -/
  | init (inner : Declarator)
  deriving Repr, DecidableEq

namespace Declarator

/-- The plain tree of a declarator: a node for each constructor, and nothing beside them. -/
def node : Declarator → Node
  | name text line => ⟨NodeType.identifier, text, UInt32.ofNat (line - 1), []⟩
  | pointer d => around NodeType.pointer d.node
  | function d => around NodeType.function d.node
  | array d => around NodeType.array d.node
  | parens d => around NodeType.parens d.node
  | init d => around NodeType.init d.node
where
  around (type : Bytes) (inner : Node) : Node := ⟨type, [], inner.row, [inner]⟩

end Declarator

/-! ## Reading -/

/-- Marks that open and close. -/
def opens (b : UInt8) : Bool := b == 40 || b == 91 || b == 123

def closes (b : UInt8) : Bool := b == 41 || b == 93 || b == 125

/-- What follows the bracket that closes `depth + 1` open ones. -/
def skipGroup : Nat → List Token → List Token
  | _, [] => []
  | depth, ⟨.mark b, _⟩ :: rest =>
    if opens b then skipGroup (depth + 1) rest
    else if closes b then
      match depth with
      | 0 => rest
      | d + 1 => skipGroup d rest
    else skipGroup depth rest
  | depth, _ :: rest => skipGroup depth rest

/-- Words that say something about what stands around them and take a group in parentheses. -/
def isAnnotated (w : Bytes) : Bool :=
  [lit "__attribute__", lit "__attribute", lit "__declspec", lit "_Alignas", lit "alignas",
    lit "__asm__", lit "__asm", lit "asm"].contains w

def isQualifier (w : Bytes) : Bool :=
  [lit "const", lit "volatile", lit "restrict", lit "__restrict", lit "__restrict__",
    lit "_Atomic", lit "__const", lit "__volatile__", lit "__extension__", lit "constexpr",
    lit "_Nonnull", lit "__unaligned"].contains w

/-- What follows a group in parentheses, if one comes next. -/
def skipParens (ts : List Token) : List Token :=
  match ts with
  | ⟨.mark 40, _⟩ :: rest => skipGroup 0 rest
  | _ => ts

/-- The parameter lists and array bounds after a name. -/
def suffixes : Nat → Declarator → List Token → Declarator × List Token
  | 0, d, ts => (d, ts)
  | fuel + 1, d, ts =>
    match ts with
    | ⟨.mark 40, _⟩ :: rest => suffixes fuel (.function d) (skipGroup 0 rest)
    | ⟨.mark 91, _⟩ :: rest => suffixes fuel (.array d) (skipGroup 0 rest)
    | ⟨.word w, _⟩ :: rest =>
      if isAnnotated w then suffixes fuel d (skipParens rest) else (d, ts)
    | _ => (d, ts)

def declarator : Nat → List Token → Option (Declarator × List Token)
  | 0, _ => none
  | fuel + 1, ts =>
    match ts with
    | ⟨.mark 42, _⟩ :: rest => do
      let (d, rest) ← declarator fuel rest
      pure (.pointer d, rest)
    | ⟨.mark 40, _⟩ :: rest => do
      let (d, rest) ← declarator fuel rest
      match rest with
      | ⟨.mark 41, _⟩ :: rest => pure (suffixes (rest.length + 1) (.parens d) rest)
      | _ => none
    | ⟨.word w, line⟩ :: rest =>
      if isQualifier w then declarator fuel rest
      else if isAnnotated w then declarator fuel (skipParens rest)
      else if w.head?.any Bytes.isDigit then none
      else pure (suffixes (rest.length + 1) (.name w line) rest)
    | _ => none

end CSource

end SymbolHistory
