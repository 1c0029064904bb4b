/-
# Git.Object -- contents, trees, commits and tags

A repository keeps objects of four kinds, each under the hash of its kind and
content.  A tree lists names with modes and ids; a commit names a tree, its
parents and when it was made; a tag names another object.
-/
import SymbolHistory.ObjectId

set_option autoImplicit false

namespace SymbolHistory

namespace Git

inductive Kind where
  | blob
  | tree
  | commit
  | tag
  deriving Repr, DecidableEq

namespace Kind

def name : Kind → Bytes
  | blob => lit "blob"
  | tree => lit "tree"
  | commit => lit "commit"
  | tag => lit "tag"

def ofName? (s : Bytes) : Option Kind := [blob, tree, commit, tag].find? (fun k => k.name == s)

end Kind

structure Object where
  kind : Kind
  content : Bytes
  deriving Repr, DecidableEq

namespace Object

def id (o : Object) : Bytes := ObjectId.ofObject .short o.kind.name o.content

/-- The value of a line of the head of a commit or tag. -/
def field? (o : Object) (name : String) : Option Bytes :=
  let head := ((Bytes.splitOn 10 o.content).takeWhile (fun l => !l.isEmpty))
  head.findSome? (Bytes.after? (lit name ++ [32]))

def fields (o : Object) (name : String) : List Bytes :=
  let head := ((Bytes.splitOn 10 o.content).takeWhile (fun l => !l.isEmpty))
  head.filterMap (Bytes.after? (lit name ++ [32]))

/-- When a commit was made: the last word but one of its committer. -/
def commitTime (o : Object) : Bytes :=
  match (Bytes.splitOn 32 ((o.field? "committer").getD [])).reverse with
  | _ :: time :: _ => time
  | _ => []

end Object

structure Entry where
  mode : Bytes
  name : Bytes
  id : Bytes
  deriving Repr, DecidableEq

namespace Entry

def treeMode : Bytes := lit "40000"

def linkMode : Bytes := lit "160000"

def kind (e : Entry) : Kind :=
  if e.mode == treeMode then .tree else if e.mode == linkMode then .commit else .blob

/-- What names are ordered by: the name of a tree ends in a slash. -/
def key (e : Entry) : Bytes := if e.mode == treeMode then e.name ++ [47] else e.name

def idBytes : Bytes → Bytes
  | a :: b :: rest =>
    (((Bytes.hexValue? a).getD 0 * 16 + (Bytes.hexValue? b).getD 0) % 256).toUInt8 :: idBytes rest
  | _ => []

def encode (e : Entry) : Bytes := e.mode ++ [32] ++ e.name ++ [0] ++ idBytes e.id

def idLength : Nat := 20

/-- The entries of a tree; `fuel` bounds their number. -/
def decodeAll : Nat → Bytes → List Entry
  | 0, _ => []
  | fuel + 1, s =>
    match Bytes.cutByte 32 s with
    | none => []
    | some (mode, s) =>
      match Bytes.cutByte 0 s with
      | none => []
      | some (name, s) =>
        ⟨mode, name, Bytes.hex (s.take idLength)⟩ :: decodeAll fuel (s.drop idLength)

end Entry

def Object.ofEntries (es : List Entry) : Object :=
  let sorted := es.mergeSort fun a b => Bytes.order a.key b.key != .gt
  ⟨.tree, sorted.flatMap Entry.encode⟩

def Object.entries (o : Object) : List Entry := Entry.decodeAll o.content.length o.content

end Git

end SymbolHistory
