/-
# Git.Repository -- objects and the names that lead to them

A reference is a full name such as `refs/tags/v1` with the id it stands for.  A
revision is what can be said for an object: a full id, the unique beginning of
one, a reference with or without its usual beginnings, and any of these followed
by steps to a parent or to the object behind a tag.
-/
import SymbolHistory.Git.Object

set_option autoImplicit false

namespace SymbolHistory

namespace Git

structure Repository where
  objects : List (Bytes × Object) := []
  references : List (Bytes × Bytes) := []
  deriving Repr, DecidableEq

namespace Repository

def get? (r : Repository) (id : Bytes) : Option Object :=
  (r.objects.find? (fun o => o.1 == id)).map (·.2)

def add (r : Repository) (o : Object) : Repository × Bytes :=
  let id := o.id
  if (r.get? id).isSome then (r, id) else ({ r with objects := (id, o) :: r.objects }, id)

def reference? (r : Repository) (name : Bytes) : Option Bytes :=
  (r.references.find? (fun p => p.1 == name)).map (·.2)

def refer (r : Repository) (name id : Bytes) : Repository :=
  { r with references := (name, id) :: r.references.filter (fun p => p.1 != name) }

def forget (r : Repository) (name : Bytes) : Repository :=
  { r with references := r.references.filter (fun p => p.1 != name) }

/-- The object behind tags, at most `fuel` of them. -/
def behindTags (r : Repository) : Nat → Bytes → Option (Bytes × Object)
  | 0, _ => none
  | fuel + 1, id =>
    match r.get? id with
    | none => none
    | some o =>
      if o.kind == .tag then (o.field? "object").bind (r.behindTags fuel) else some (id, o)

def peel (r : Repository) (id : Bytes) : Option (Bytes × Object) :=
  r.behindTags (r.objects.length + 1) id

def treeOf (r : Repository) (id : Bytes) : Option Object :=
  match r.peel id with
  | none => none
  | some (_, o) =>
    match o.kind with
    | .tree => some o
    | .commit => (o.field? "tree").bind r.get?
    | _ => none

/-! ## Revisions -/

def beginnings : List Bytes :=
  [[], lit "refs/", lit "refs/tags/", lit "refs/heads/", lit "refs/remotes/"]

/-- The shortest beginning of an id that can stand for it. -/
def minBrief : Nat := 4

def resolveName (r : Repository) (name : Bytes) : Option Bytes :=
  let named := beginnings.findSome? fun b => r.reference? (b ++ name)
  if name.length == 40 && name.all ObjectId.isHexDigit then some name
  else
    match named with
    | some id => some id
    | none =>
      if minBrief ≤ name.length && name.all ObjectId.isHexDigit then
        match r.objects.filter (fun o => Bytes.startsWith name o.1) with
        | [o] => some o.1
        | _ => none
      else none

/-- The kind that is asked for behind an object. -/
inductive Wanted where
  | any
  | kind (k : Kind)
  deriving Repr, DecidableEq

/-- A step from an object to another. -/
inductive Move where
  | parent (number : Nat)
  | back (generations : Nat)
  | behind (wanted : Wanted)
  deriving Repr, DecidableEq

/-- The steps at the end of a revision; `fuel` bounds their number. -/
def moves : Nat → Bytes → Option (List Move)
  | 0, _ => none
  | _ + 1, [] => some []
  | fuel + 1, b :: rest =>
    if b == 94 && rest.head? == some 123 then
      match Bytes.cutByte 125 (rest.drop 1) with
      | none => none
      | some (word, rest) =>
        let wanted := if word.isEmpty then some Wanted.any else (Kind.ofName? word).map .kind
        match wanted, moves fuel rest with
        | some w, some ms => some (.behind w :: ms)
        | _, _ => none
    else if b == 94 || b == 126 then
      let (digits, rest) := rest.span Bytes.isDigit
      let n := if digits.isEmpty then 1 else digits.foldl (fun n d => n * 10 + (d.toNat - 48)) 0
      (moves fuel rest).map ((if b == 94 then .parent n else .back n) :: ·)
    else none

inductive Unresolved where
  | unknown
  /-- Another kind of object than was asked for. -/
  | otherKind (wanted found : Kind)
  deriving Repr, DecidableEq

def commitOf (r : Repository) (id : Bytes) : Option (Bytes × Object) :=
  (r.peel id).bind fun p => if p.2.kind == .commit then some p else none

/-- A parent of a commit; number 0 is the commit itself. -/
def parentOf (r : Repository) (id : Bytes) (n : Nat) : Except Unresolved Bytes :=
  match r.commitOf id with
  | none => .error .unknown
  | some (id, o) =>
    match n with
    | 0 => .ok id
    | n + 1 => ((o.fields "parent")[n]?).elim (.error .unknown) .ok

/-- First parents, one after the other. -/
def goBack (r : Repository) : Nat → Bytes → Except Unresolved Bytes
  | 0, id => r.parentOf id 0
  | n + 1, id =>
    match r.parentOf id 1 with
    | .ok id => r.goBack n id
    | .error e => .error e

def move (r : Repository) (id : Bytes) : Move → Except Unresolved Bytes
  | .parent n => r.parentOf id n
  | .back n => r.goBack n id
  | .behind wanted =>
    match wanted with
    | .kind .tag =>
      match r.get? id with
      | some o => if o.kind == .tag then .ok id else .error (.otherKind .tag o.kind)
      | none => .error .unknown
    | .any => (r.peel id).elim (.error .unknown) (fun p => .ok p.1)
    | .kind k =>
      match r.peel id with
      | none => .error .unknown
      | some (id, o) =>
        if o.kind == k then .ok id
        else if k == .tree && o.kind == .commit then
          (o.field? "tree").elim (.error .unknown) .ok
        else .error (.otherKind k o.kind)

/-- What a revision stands for.  A full id stands for itself, whether or not it is there. -/
def resolve (r : Repository) (revision : Bytes) : Except Unresolved Bytes :=
  let (name, steps) := revision.span (fun b => b != 94 && b != 126)
  match r.resolveName name, moves (steps.length + 1) steps with
  | some id, some ms => ms.foldlM r.move id
  | _, _ => .error .unknown

/-! ## Files -/

structure File where
  mode : Bytes
  path : Bytes
  id : Bytes
  deriving Repr, DecidableEq

def File.kind (f : File) : Kind := (Entry.mk f.mode [] []).kind

/-- The files of a tree and of the trees in it, in order; `fuel` bounds the depth. -/
def filesBelow (r : Repository) : Nat → Bytes → Object → List File
  | 0, _, _ => []
  | fuel + 1, folder, o =>
    o.entries.flatMap fun e =>
      let path := if folder.isEmpty then e.name else folder ++ [47] ++ e.name
      if e.mode == Entry.treeMode then
        match r.get? e.id with
        | some inner => r.filesBelow fuel path inner
        | none => []
      else [⟨e.mode, path, e.id⟩]

/-- The files of a tree, in order. -/
def files (r : Repository) (tree : Object) : List File :=
  r.filesBelow (r.objects.length + 1) [] tree

/-- Keep the tree of some files, each with the steps to it; `fuel` bounds the depth. -/
def addTree : Nat → Repository → List (List Bytes × Bytes × Bytes) → Repository × Bytes
  | 0, r, _ => (r, [])
  | fuel + 1, r, files =>
    let names := (files.filterMap (·.1.head?)).eraseDups
    let (r, entries) := names.foldl
      (fun (p : Repository × List Entry) name =>
        let here := files.filter (fun f => f.1.head? == some name)
        match here.find? (fun f => f.1.length == 1) with
        | some f => (p.1, ⟨f.2.1, name, f.2.2⟩ :: p.2)
        | none =>
          let (r, id) := addTree fuel p.1 (here.map fun f => (f.1.drop 1, f.2))
          (r, ⟨Entry.treeMode, name, id⟩ :: p.2))
      (r, [])
    r.add (Object.ofEntries entries)

def addFiles (r : Repository) (files : List File) : Repository × Bytes :=
  let steps := files.map fun f => (Bytes.splitOn 47 f.path, f.mode, f.id)
  addTree ((steps.map (·.1.length)).foldl max 0 + 1) r steps

end Repository

end Git

end SymbolHistory
