/-
# Source.Memory -- versions kept in memory

A source of versions that holds its trees itself.  Ids are the hashes of the
contents; commits are made up from the tags' names.  Adding a tag again replaces
its tree; a tag that was once added as broken stays broken.
-/
import SymbolHistory.ObjectId
import SymbolHistory.Tag

set_option autoImplicit false

namespace SymbolHistory

structure FileEntry where
  path : Bytes
  id : Bytes
  deriving Repr, DecidableEq

/-- Versions kept in memory.  Trees and contents stand latest first. -/
structure MemorySource where
  tags : List Tag := []
  trees : List (Bytes × List FileEntry) := []
  broken : List Bytes := []
  blobs : List (Bytes × Bytes) := []
  deriving Repr, DecidableEq

namespace MemorySource

def addTag (m : MemorySource) (name : Bytes) (time : Int) (files : List (Bytes × Bytes)) :
    MemorySource × Tag :=
  let sorted := files.mergeSort (fun a b => Bytes.order a.1 b.1 != .gt)
  let named := sorted.map fun f => (f.1, ObjectId.ofContent .short f.2, f.2)
  let tag : Tag := { name, commit := ObjectId.ofContent .short (lit "commit " ++ name), time }
  ({ m with
     tags := m.tags ++ [tag]
     trees := (name, named.map fun f => ⟨f.1, f.2.1⟩) :: m.trees
     blobs := (named.map fun f => (f.2.1, f.2.2)).reverse ++ m.blobs }, tag)

def addBroken (m : MemorySource) (name : Bytes) (time : Int) : MemorySource × Tag :=
  let tag : Tag := { name, time }
  ({ m with tags := m.tags ++ [tag], broken := name :: m.broken }, tag)

def putBlob (m : MemorySource) (id data : Bytes) : MemorySource :=
  { m with blobs := (id, data) :: m.blobs }

def entries (m : MemorySource) (tag : Tag) : Except Fault (List FileEntry) :=
  if m.broken.contains tag.name then
    .error (.unresolvable (tag.name ++ lit " has no tree"))
  else
    match m.trees.find? (fun t => t.1 == tag.name) with
    | none => .error (.unknownTag tag.name)
    | some t => .ok t.2

def blob (m : MemorySource) (id : Bytes) : Except Fault Bytes :=
  match m.blobs.find? (fun b => b.1 == id) with
  | none => .error (.blobNotFound id)
  | some b => .ok b.2

end MemorySource

end SymbolHistory
