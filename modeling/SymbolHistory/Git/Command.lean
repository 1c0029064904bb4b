/-
# Git.Command -- questions to a repository

The program that answers questions about a repository: where it is, which
references it has, what a commit is, which files a tree has, what an object
holds.  An answer is what the program prints, what it complains about and the
status it ends with.
-/
import SymbolHistory.Git.Repository
import SymbolHistory.Text.Decimal

set_option autoImplicit false

namespace SymbolHistory

namespace Git

/-- What the program does with a question. -/
structure Answer where
  printed : Bytes := []
  complaint : Bytes := []
  status : Nat := 0
  deriving Repr, DecidableEq

namespace Answer

/-- The status of a question that cannot be answered. -/
def fatalStatus : Nat := 128

/-- A question that cannot be answered, with the reason. -/
def fatal (reason : Bytes) : Answer :=
  { complaint := lit "fatal: " ++ reason ++ [10], status := fatalStatus }

end Answer

namespace Repository

/-! ## References -/

def kindName (r : Repository) (id : Bytes) : Bytes := ((r.get? id).map (·.kind.name)).getD []

/-- When the commit with an id was made; nothing for other objects. -/
def timeOf (r : Repository) (id : Bytes) : Bytes :=
  match r.get? id with
  | some o => if o.kind == .commit then o.commitTime else []
  | none => []

/-- A field of a reference; one with a star is about the object behind a tag. -/
def field (r : Repository) (name id : Bytes) (word : Bytes) : Bytes :=
  match word with
  | 42 :: inner =>
    match r.get? id with
    | some o =>
      if o.kind == .tag then
        let target := (r.peel id).map (·.1)
        if inner == lit "objecttype" then (target.map r.kindName).getD []
        else if inner == lit "objectname" then target.getD []
        else if inner == lit "committerdate:unix" then (target.map r.timeOf).getD []
        else []
      else []
    | none => []
  | _ =>
    if word == lit "refname" then name
    else if word == lit "objecttype" then r.kindName id
    else if word == lit "objectname" then id
    else if word == lit "committerdate:unix" then r.timeOf id
    else []

/-- A format with its fields filled in; `fuel` bounds its length. -/
def fill (field : Bytes → Bytes) : Nat → Bytes → Bytes
  | 0, _ => []
  | _ + 1, [] => []
  | fuel + 1, 37 :: 40 :: rest =>
    match Bytes.cutByte 41 rest with
    | some (word, rest) => field word ++ fill field fuel rest
    | none => 37 :: 40 :: fill field fuel rest
  | fuel + 1, 37 :: 37 :: rest => 37 :: fill field fuel rest
  | fuel + 1, 37 :: a :: b :: rest =>
    match Bytes.hexValue? a, Bytes.hexValue? b with
    | some x, some y => (x * 16 + y).toUInt8 :: fill field fuel rest
    | _, _ => 37 :: fill field fuel (a :: b :: rest)
  | fuel + 1, b :: rest => b :: fill field fuel rest

/-- The references below some names, in order, each in a format. -/
def listReferences (r : Repository) (format : Bytes) (patterns : List Bytes) : Answer :=
  let wanted := r.references.filter fun p =>
    patterns.isEmpty || patterns.any fun t =>
      p.1 == t || Bytes.startsWith (t ++ [47]) p.1
  let sorted := wanted.mergeSort fun a b => Bytes.order a.1 b.1 != .gt
  { printed := sorted.flatMap fun p =>
      fill (r.field p.1 p.2) (format.length + 1) format ++ [10] }

/-! ## Commits, trees and contents -/

/-- The id and time of the commit that a revision stands for. -/
def showCommit (r : Repository) (revision : Bytes) : Answer :=
  let bad := lit "bad revision '" ++ revision ++ lit "'"
  match r.resolve revision with
  | .error (.otherKind wanted found) =>
    let error := lit "error: " ++ revision ++ lit ": expected " ++ wanted.name ++
      lit " type, but the object dereferences to " ++ found.name ++ lit " type\n"
    let f := Answer.fatal bad
    { f with complaint := error ++ f.complaint }
  | .error .unknown => .fatal bad
  | .ok id =>
    match r.commitOf id with
    | none => .fatal (lit "bad object " ++ revision)
    | some (id, o) => { printed := id ++ [0] ++ o.commitTime ++ [10] }

def fileRecord (f : File) : Bytes :=
  f.mode ++ [32] ++ f.kind.name ++ [32] ++ f.id ++ [9] ++ f.path ++ [0]

/-- The files of the tree that a revision leads to. -/
def listFiles (r : Repository) (revision : Bytes) : Answer :=
  match r.resolve revision with
  | .error _ => .fatal (lit "Not a valid object name " ++ revision)
  | .ok id =>
    match r.treeOf id with
    | none => .fatal (lit "not a tree object")
    | some tree => { printed := (r.files tree).flatMap fileRecord }

def showObject (r : Repository) (name : Bytes) : Bytes :=
  match (r.resolve name).toOption.bind fun id => (r.get? id).map fun o => (id, o) with
  | none => name ++ lit " missing\n"
  | some (id, o) =>
    id ++ [32] ++ o.kind.name ++ [32] ++ Decimal.ofNat o.content.length ++ [10] ++ o.content ++ [10]

/-- Every object that a line of the input asks for. -/
def showObjects (r : Repository) (input : Bytes) : Answer :=
  { printed := (Bytes.lines input).flatMap fun l => r.showObject l.text }

/-! ## The program -/

def answer (r : Repository) (args : List Bytes) (input : Bytes) : Answer :=
  match args with
  | [] => { status := 1 }
  | word :: args =>
    let options := args.filter fun a => a.head? == some 45
    let operands := args.filter fun a => a.head? != some 45
    if word == lit "rev-parse" then { printed := lit ".\n" }
    else if word == lit "for-each-ref" then
      let format := (options.findSome? (Bytes.after? (lit "--format="))).getD []
      r.listReferences format operands
    else if word == lit "log" then r.showCommit (operands.headD [])
    else if word == lit "ls-tree" then r.listFiles (operands.headD [])
    else if word == lit "cat-file" then r.showObjects input
    else
      { complaint := lit "git: '" ++ word ++ lit "' is not a git command. See 'git --help'.\n"
        status := 1 }

end Repository

end Git

end SymbolHistory
