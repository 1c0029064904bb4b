/-
# Host.Tally -- what the parts of the index remember between calls

Each part counts its work.  The comparison also remembers the symbols of the
contents it read last: `SymbolCache` keeps at most `capacity` of them and
forgets the one that was not asked for the longest.
-/
import SymbolHistory.Symbol

set_option autoImplicit false

namespace SymbolHistory

/-- Contents stored, and contents found to be there. -/
structure ExtractTally where
  written : Nat := 0
  present : Nat := 0
  deriving Repr, DecidableEq

/-- Symbols and symbol files written, and contents passed over because they had one. -/
structure OrganizeTally where
  symbols : Nat := 0
  files : Nat := 0
  skipped : Nat := 0
  deriving Repr, DecidableEq

/-- Files loaded, diffs and records written, and diffs found to be there. -/
structure CompareTally where
  files : Nat := 0
  diffs : Nat := 0
  records : Nat := 0
  skipped : Nat := 0
  deriving Repr, DecidableEq

/-- The symbols of the contents asked for last, latest first. -/
structure SymbolCache where
  capacity : Nat := 4096
  entries : List (Bytes × List Symbol) := []
  deriving Repr, DecidableEq

namespace SymbolCache

/-- The usual capacity. -/
def usual : Nat := 4096

/-- An empty cache; no capacity means the usual one. -/
def ofCapacity (n : Int) : SymbolCache := ⟨if n ≤ 0 then usual else n.toNat, []⟩

/-- What is remembered under an id, which is then the latest. -/
def get? (c : SymbolCache) (id : Bytes) : Option (List Symbol × SymbolCache) :=
  match c.entries.find? (fun e => e.1 == id) with
  | none => none
  | some e => some (e.2, { c with entries := e :: c.entries.filter (fun e => e.1 != id) })

/-- Remember something under an id, and forget what no longer fits. -/
def add (c : SymbolCache) (id : Bytes) (symbols : List Symbol) : SymbolCache :=
  { c with entries := ((id, symbols) :: c.entries.filter (fun e => e.1 != id)).take c.capacity }

end SymbolCache

/-- What the parts remember. -/
structure Tally where
  extracting : ExtractTally := {}
  organizing : OrganizeTally := {}
  comparing : CompareTally := {}
  cache : SymbolCache := {}
  deriving Repr, DecidableEq

end SymbolHistory
