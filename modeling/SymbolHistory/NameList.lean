/-
# NameList -- all symbol names of a project

The names of all symbol files, each once, in natural order.
-/
import SymbolHistory.Project

set_option autoImplicit false

namespace SymbolHistory

namespace NameList

def distinct : List Bytes → List Bytes
  | [] => []
  | [x] => [x]
  | x :: y :: rest => if x == y then distinct (y :: rest) else x :: distinct (y :: rest)

/-- Names, each once, in natural order. -/
def arrange (names : List Bytes) : List Bytes :=
  (distinct (Bytes.sort names)).mergeSort (fun a b => NaturalOrder.orderStrict a b != .gt)

def ofTagFile (store : ObjectStore) (id : Bytes) : Run (List Bytes) := do
  let d := Symbol.readAll ⟨← store.read id, none⟩
  match d.failure with
  | some f => throw (f.within (lit "tag file " ++ ObjectId.brief id))
  | none => pure (d.items.map (·.name))

/-- The names in some symbol files.  The work can be called off before every file. -/
def gather (store : ObjectStore) (found : List Bytes) : List Bytes → Run (List Bytes)
  | [] => pure found
  | id :: rest => do
    Run.checkpoint
    let names ← ofTagFile store id
    gather store (names.reverse ++ found) rest

def names (l : Layout) : Run (List Bytes) := do
  let ids ← l.tagStore.list
  arrange <$> Run.during (lit "autocomplete") (gather l.tagStore [] ids)

def text (names : List Bytes) : Bytes := names.flatMap (· ++ [10])

/-- Write the list of a project's names; how many there are. -/
def build (l : Layout) : Run Nat := do
  let found ← names l
  Run.during (lit "autocomplete") (AtomicFile.writing l.names fun f => f.write (text found))
  pure found.length

end NameList

end SymbolHistory
