/-
# Git.Stream -- repositories written as a stream of commands

A stream makes a repository step by step: contents, commits with the changes
they make to their parent's files, tags, and references that are set outright.
Objects can be given marks by which later commands refer to them.  Each command
is read from the front of the stream and leaves the rest; a command that cannot
be read ends the stream with nothing.
-/
import SymbolHistory.Git.Repository
import SymbolHistory.Path

set_option autoImplicit false

namespace SymbolHistory

namespace Git

structure Importer where
  repository : Repository := {}
  marks : List (Bytes × Bytes) := []
  deriving Repr, DecidableEq

abbrev Reads (α : Type) := Bytes → Option (α × Bytes)

namespace Stream

def line : Reads Bytes := fun s =>
  if s.isEmpty then none
  else
    let (l, rest) := s.span (· != 10)
    some (l, rest.drop 1)

/-- The first line if it starts with a word, without the word. -/
def lineOf (word : String) : Reads Bytes := fun s =>
  match line s with
  | some (l, rest) => (Bytes.after? (lit word ++ [32]) l).map fun value => (value, rest)
  | none => none

/-- The first line if it starts with a word; otherwise nothing is read. -/
def maybeLineOf (word : String) (s : Bytes) : Option Bytes × Bytes :=
  match lineOf word s with
  | some (value, rest) => (some value, rest)
  | none => (none, s)

/-- All lines that start with a word; `fuel` bounds their number. -/
def linesOf (word : String) : Nat → Bytes → List Bytes × Bytes
  | 0, s => ([], s)
  | fuel + 1, s =>
    match lineOf word s with
    | none => ([], s)
    | some (value, rest) =>
      let (more, rest) := linesOf word fuel rest
      (value :: more, rest)

def skipNewline (s : Bytes) : Bytes := if s.head? == some 10 then s.drop 1 else s

/-- Lines up to a delimiter; `fuel` bounds their number. -/
def linesUpTo (delimiter : Bytes) : Nat → Reads (List Bytes)
  | 0, _ => none
  | fuel + 1, s =>
    match line s with
    | none => none
    | some (l, rest) =>
      if l == delimiter then some ([], rest)
      else (linesUpTo delimiter fuel rest).map fun p => ((l ++ [10]) :: p.1, p.2)

/-- A content, counted or up to a delimiter. -/
def content : Reads Bytes := fun s =>
  match lineOf "data" s with
  | none => none
  | some (word, rest) =>
    match Bytes.after? (lit "<<") word with
    | some delimiter =>
      (linesUpTo delimiter (rest.length + 1) rest).map fun p => (p.1.flatten, skipNewline p.2)
    | none =>
      if word.isEmpty || !word.all Bytes.isDigit then none
      else
        let n := word.foldl (fun n d => n * 10 + (d.toNat - 48)) 0
        if rest.length < n then none else some (rest.take n, skipNewline (rest.drop n))

/-! ## Paths -/

/-- The byte of an escape, and the rest. -/
def escape : Bytes → Option (UInt8 × Bytes)
  | [] => none
  | b :: rest =>
    if b == 110 then some (10, rest)
    else if b == 116 then some (9, rest)
    else if 48 ≤ b && b ≤ 51 then
      let octal := (b :: rest.take 2).foldl (fun n d => n * 8 + (d.toNat - 48)) 0
      some (octal.toUInt8, rest.drop 2)
    else some (b, rest)

/-- A quoted path and the rest; `fuel` bounds its length. -/
def quoted : Nat → Reads Bytes
  | 0, _ => none
  | _ + 1, [] => none
  | fuel + 1, b :: rest =>
    if b == 34 then some ([], rest)
    else if b == 92 then
      match escape rest with
      | none => none
      | some (e, rest) => (quoted fuel rest).map fun p => (e :: p.1, p.2)
    else (quoted fuel rest).map fun p => (b :: p.1, p.2)

/-- A path that takes the rest of its line unless it is quoted. -/
def lastPath (s : Bytes) : Option Bytes :=
  if s.head? == some 34 then (quoted s.length (s.drop 1)).map (·.1) else some s

/-- A path that ends at a blank unless it is quoted, and what comes after. -/
def firstPath : Reads Bytes := fun s =>
  if s.head? == some 34 then
    (quoted s.length (s.drop 1)).map fun p => (p.1, p.2.drop 1)
  else Bytes.cutByte 32 s

/-! ## Changes to files -/

def isAtOrBelow (top p : Bytes) : Bool := top.isEmpty || p == top || Bytes.startsWith (top ++ [47]) p

def without (path : Bytes) (files : List Repository.File) : List Repository.File :=
  files.filter fun f => !isAtOrBelow path f.path

/-- The files with one more; what it would be above or below is gone. -/
def placed (f : Repository.File) (files : List Repository.File) : List Repository.File :=
  ((without f.path files).filter fun g => !isAtOrBelow g.path f.path) ++ [f]

/-- The files with those at or below a path put elsewhere too. -/
def copied (source target : Bytes) (files : List Repository.File) : List Repository.File :=
  let moved := (files.filter fun f => isAtOrBelow source f.path).map fun f =>
    { f with path := target ++ f.path.drop source.length }
  moved.foldl (fun fs f => placed f fs) files

def mode (word : Bytes) : Bytes :=
  if word == lit "644" then lit "100644" else if word == lit "755" then lit "100755" else word

end Stream

namespace Importer

open SymbolHistory.Git.Stream

def object? (m : Importer) (word : Bytes) : Option Bytes :=
  if word.head? == some 58 then (m.marks.find? (fun p => p.1 == word)).map (·.2)
  else (m.repository.resolve word).toOption

/-- Keep an object, under a mark if one is given. -/
def keep (m : Importer) (mark : Option Bytes) (o : Object) : Importer × Bytes :=
  let (repository, id) := m.repository.add o
  let marks := match mark with | some k => (k, id) :: m.marks | none => m.marks
  ({ m with repository, marks }, id)

def change (m : Importer) (files : List Repository.File) :
    Reads (Importer × List Repository.File) := fun s =>
  match line s with
  | none => none
  | some (l, rest) =>
    if l == lit "deleteall" then some ((m, []), rest)
    else
      match Bytes.cutByte 32 l with
      | none => none
      | some (word, operands) =>
        if word == lit "D" then (lastPath operands).map fun p => ((m, without p files), rest)
        else if word == lit "C" || word == lit "R" then
          match firstPath operands with
          | none => none
          | some (source, target) =>
            (lastPath target).map fun target =>
              let both := copied source target files
              ((m, if word == lit "R" then without source both else both), rest)
        else if word == lit "M" then
          match Bytes.cutByte 32 operands with
          | none => none
          | some (modeWord, operands) =>
            match Bytes.cutByte 32 operands with
            | none => none
            | some (name, path) =>
              match lastPath path with
              | none => none
              | some path =>
                if name == lit "inline" then
                  (content rest).map fun p =>
                    let (m, id) := m.keep none ⟨.blob, p.1⟩
                    ((m, placed ⟨mode modeWord, path, id⟩ files), p.2)
                else
                  let id := if name.head? == some 58 then m.object? name else some name
                  id.map fun id => ((m, placed ⟨mode modeWord, path, id⟩ files), rest)
        else none

/-- All changes of a commit; `fuel` bounds their number. -/
def changes : Nat → Importer → List Repository.File → Bytes →
    (Importer × List Repository.File) × Bytes
  | 0, m, files, s => ((m, files), s)
  | fuel + 1, m, files, s =>
    match m.change files s with
    | none => ((m, files), s)
    | some ((m, files), rest) => changes fuel m files rest

def filesOf (m : Importer) (id : Bytes) : List Repository.File :=
  ((m.repository.treeOf id).map m.repository.files).getD []

def commit (m : Importer) (branch : Bytes) : Reads Importer := fun s =>
  let (mark, s) := maybeLineOf "mark" s
  let (_, s) := maybeLineOf "original-oid" s
  let (author, s) := maybeLineOf "author" s
  match lineOf "committer" s with
  | none => none
  | some (committer, s) =>
    let (encoding, s) := maybeLineOf "encoding" s
    match content s with
    | none => none
    | some (message, s) =>
      let (start, s) := maybeLineOf "from" s
      let (merged, s) := linesOf "merge" (s.length + 1) s
      let first := match start with
        | some word => m.object? word
        | none => m.repository.reference? branch
      let parents := first.toList ++ merged.filterMap m.object?
      let ((m, files), s) := changes (s.length + 1) m ((first.map m.filesOf).getD []) s
      let (repository, tree) := m.repository.addFiles files
      let text := lit "tree " ++ tree ++ [10] ++
        (parents.flatMap fun p => lit "parent " ++ p ++ [10]) ++
        lit "author " ++ author.getD committer ++ [10] ++
        lit "committer " ++ committer ++ [10] ++
        (match encoding with | some e => lit "encoding " ++ e ++ [10] | none => []) ++
        [10] ++ message
      let (m, id) := ({ m with repository } : Importer).keep mark ⟨.commit, text⟩
      some ({ m with repository := m.repository.refer branch id }, s)

def tag (m : Importer) (name : Bytes) : Reads Importer := fun s =>
  let (mark, s) := maybeLineOf "mark" s
  match lineOf "from" s with
  | none => none
  | some (word, s) =>
    let (_, s) := maybeLineOf "original-oid" s
    let (tagger, s) := maybeLineOf "tagger" s
    match m.object? word, content s with
    | some target, some (message, s) =>
      let kind := ((m.repository.get? target).map (·.kind)).getD .commit
      let text := lit "object " ++ target ++ [10] ++ lit "type " ++ kind.name ++ [10] ++
        lit "tag " ++ name ++ [10] ++
        (match tagger with | some t => lit "tagger " ++ t ++ [10] | none => []) ++
        [10] ++ message
      let (m, id) := m.keep mark ⟨.tag, text⟩
      some ({ m with repository := m.repository.refer (lit "refs/tags/" ++ name) id }, s)
    | _, _ => none

/-- A reference that is set outright, or forgotten. -/
def reset (m : Importer) (name : Bytes) : Reads Importer := fun s =>
  match maybeLineOf "from" s with
  | (none, s) => some ({ m with repository := m.repository.forget name }, s)
  | (some word, s) =>
    (m.object? word).map fun id => ({ m with repository := m.repository.refer name id }, s)

def blob (m : Importer) : Reads Importer := fun s =>
  let (mark, s) := maybeLineOf "mark" s
  let (_, s) := maybeLineOf "original-oid" s
  (content s).map fun p => ((m.keep mark ⟨.blob, p.1⟩).1, p.2)

/-- Words that start commands without an effect here. -/
def idle : List String := ["#", "progress ", "checkpoint", "feature ", "option ", "done"]

/-- All commands of a stream; `fuel` bounds their number. -/
def commands : Nat → Importer → Bytes → Option Importer
  | 0, _, _ => none
  | fuel + 1, m, s =>
    match line s with
    | none => some m
    | some (l, rest) =>
      if l.isEmpty || idle.any (fun word => Bytes.startsWith (lit word) l) then commands fuel m rest
      else
        let next :=
          if l == lit "blob" then m.blob rest
          else
            match Bytes.cutByte 32 l with
            | none => none
            | some (word, name) =>
              if word == lit "commit" then m.commit name rest
              else if word == lit "tag" then m.tag name rest
              else if word == lit "reset" then m.reset name rest
              else none
        match next with
        | some (m, rest) => commands fuel m rest
        | none => none

end Importer

def Repository.ofStream (s : Bytes) : Option Repository :=
  (Importer.commands (s.length + 1) {} s).map (·.repository)

end Git

end SymbolHistory
