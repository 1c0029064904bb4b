/-
# History.Table -- the symbols of one version

A table holds each symbol of a version with the places where it was found, in
the order in which they were found.
-/
import SymbolHistory.History.SymbolId

set_option autoImplicit false

namespace SymbolHistory

structure Occurrence where
  file : Bytes
  line : Int
  extra : Bytes
  deriving Repr, DecidableEq

/-- The symbols of a version.  No id stands twice. -/
structure Table where
  rows : List (SymbolId × List Occurrence) := []
  deriving Repr, DecidableEq

namespace Table

/-- The places of a symbol, if the version has it. -/
def get? (t : Table) (id : SymbolId) : Option (List Occurrence) :=
  (t.rows.find? (fun r => r.1 == id)).map Prod.snd

def contains (t : Table) (id : SymbolId) : Bool := t.rows.any (fun r => r.1 == id)

def size (t : Table) : Nat := t.rows.length

/-- `rows` with one more place for `id`. -/
def addRow (id : SymbolId) (at_ : Occurrence) :
    List (SymbolId × List Occurrence) → List (SymbolId × List Occurrence)
  | [] => [(id, [at_])]
  | r :: rest => if r.1 == id then (id, r.2 ++ [at_]) :: rest else r :: addRow id at_ rest

def add (t : Table) (id : SymbolId) (at_ : Occurrence) : Table := ⟨addRow id at_ t.rows⟩

/-- The table of a list of finds, in order. -/
def ofLoads (loads : List (SymbolId × Occurrence)) : Table :=
  loads.foldl (fun t l => t.add l.1 l.2) {}

def ids (t : Table) : List SymbolId :=
  (t.rows.map Prod.fst).mergeSort (fun a b => SymbolId.order a b != .gt)

end Table

/-- The orders in which the symbols of tables are met.  A table promises none, so any order of its
rows may be the one. -/
structure Enumeration where
  met : Table → Table
  perm : ∀ t, (met t).rows.Perm t.rows

def Enumeration.asFound : Enumeration := ⟨id, fun _ => .refl _⟩

end SymbolHistory
