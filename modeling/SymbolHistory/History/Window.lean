/-
# History.Window -- two versions side by side

`Table.diff` lists what the next version lost and what it gained.  A `Window`
holds the previous version and the one being loaded, and slides along a
sequence of versions.
-/
import SymbolHistory.History.Record

set_option autoImplicit false

namespace SymbolHistory

/-- What turned one version into the next. -/
structure Change where
  records : List Record
  /-- The number of symbols in both versions. -/
  common : Nat
  deriving Repr, DecidableEq

namespace Table

/-- One record per place of every symbol that `t` has and `other` has not. -/
def exclusive (action : Action) (t other : Table) : List Record :=
  (t.ids.filter (fun id => !other.contains id)).flatMap fun id =>
    ((t.get? id).getD []).map (Record.mk action id)

/-- The symbols that went and those that came, each group in listing order.  A symbol in both
versions is not compared further. -/
def diff (before after : Table) : Change where
  records := exclusive .remove before after ++ exclusive .add after before
  common := ((before.rows.map Prod.fst).filter after.contains).length

end Table

/-- The previous version and the one being loaded. -/
structure Window where
  before : Table := {}
  after : Table := {}
  deriving Repr, DecidableEq

namespace Window

def load (w : Window) (id : SymbolId) (at_ : Occurrence) : Window :=
  { w with after := w.after.add id at_ }

def diff (w : Window) : Change := w.before.diff w.after

/-- The same versions with their symbols in the order in which they are met. -/
def met (order : Enumeration) (w : Window) : Window := ⟨order.met w.before, order.met w.after⟩

def slide (w : Window) : Window := ⟨w.after, {}⟩

end Window

end SymbolHistory
