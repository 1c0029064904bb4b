/-
# History.SymbolId -- symbols across versions

A symbol keeps its identity from version to version through its name and kind.
Ids are listed in natural order of names, then by kind, then bytewise.
-/
import SymbolHistory.NaturalOrder
import SymbolHistory.Symbol

set_option autoImplicit false

namespace SymbolHistory

/-- What identifies a symbol across versions. -/
structure SymbolId where
  name : Bytes
  kind : SymbolKind
  deriving Repr, DecidableEq

def SymbolId.order (a b : SymbolId) : Ordering :=
  match NaturalOrder.order a.name b.name with
  | .eq =>
    match compare a.kind.number b.kind.number with
    | .eq => Bytes.order a.name b.name
    | o => o
  | o => o

end SymbolHistory
