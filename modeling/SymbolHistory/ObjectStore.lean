/-
# ObjectStore -- a folder of files named by ids

A store keeps at most one file per id and never changes it: writing under an id
that is there does nothing.  Files appear through `AtomicFile`, so a store that
is read at any moment holds complete files only; `list` passes over everything
that has no valid id for a name, temporary files among it.
-/
import SymbolHistory.AtomicFile
import SymbolHistory.ObjectId

set_option autoImplicit false

namespace SymbolHistory

structure ObjectStore where
  folder : Bytes
  deriving Repr, DecidableEq

namespace ObjectStore

def path (s : ObjectStore) (id : Bytes) : Bytes := Path.join [s.folder, id]

def has (s : ObjectStore) (id : Bytes) : Run Bool := Host.isThere (s.path id)

/-- What was going on with an id. -/
def activity (verb : String) (id : Bytes) : Bytes :=
  lit "object " ++ lit verb ++ lit " " ++ ObjectId.brief id

/-- Refuse a name that is no id. -/
def checkId (verb : String) (id : Bytes) : Run Unit :=
  Run.during (lit "object " ++ lit verb) (Run.ofExcept (ObjectId.validate id))

/-- Store a content unless the id is there; whether it was stored. -/
def write (s : ObjectStore) (id data : Bytes) : Run Bool := do
  checkId "write" id
  if ← s.has id then pure false
  else
    Run.during (activity "write" id) (AtomicFile.writeAll (s.path id) data)
    pure true

/-- Begin a file that will be stored under an id. -/
def create (s : ObjectStore) (id : Bytes) : Run AtomicFile := do
  checkId "create" id
  AtomicFile.create (s.path id)

def read (s : ObjectStore) (id : Bytes) : Run Bytes := do
  checkId "read" id
  Run.during (activity "read" id) (Host.readFile (s.path id))

/-- The ids in the store, in order.  A store that is not there is empty. -/
def list (s : ObjectStore) : Run (List Bytes) := do
  match ← Run.attempt (Host.readFolder s.folder) with
  | .error f =>
    if f.isMissingFile then pure [] else throw (.during (lit "object list") f)
  | .ok entries =>
    let files := (entries.filter fun e => !e.2).map (·.1)
    pure (Bytes.sort (files.filter ObjectId.isValid))

end ObjectStore

end SymbolHistory
