/-
# Source.Git -- versions kept in a repository

A repository is read through the program that keeps it.  Each of the program's
answers is a text with a format of its own, and each format has its reader here:
one record per reference, one record per file of a tree, and a header with a
counted body per content.
-/
import SymbolHistory.Host.Process
import SymbolHistory.Source.Memory

set_option autoImplicit false

namespace SymbolHistory

/-- A repository and how to ask for its versions. -/
structure GitSource where
  /-- Where the repository is. -/
  folder : Bytes
  /-- The program; its usual name unless another one is given. -/
  program : Bytes := []
  /-- What every report about the repository carries. -/
  context : List Journal.Attribute := []
  deriving Repr, DecidableEq

namespace GitSource

def ask (g : GitSource) (args : List Bytes) : Process :=
  { program := if g.program.isEmpty then lit "git" else g.program
    arguments := [lit "-C", g.folder] ++ args }

/-- The whole answer to a question.  A failure is a text, whatever made it fail. -/
def capture (g : GitSource) (args : List Bytes) : Run Bytes := do
  let said := fun (text : Bytes) => Fault.other (lit "git " ++ Bytes.join [32] args ++ lit ": " ++ text)
  match ← Run.attempt (g.ask args).run with
  | .error f => throw (said f.message)
  | .ok o =>
    match o.ended with
    | none => pure o.printed
    | some e =>
      let text := Utf8.trim o.complaint
      throw (said (if text.isEmpty then e.message else text))

/-- A repository whose reports carry what the current work's carry. -/
def «open» (folder : Bytes) : Run GitSource := do
  let g : GitSource := { folder, context := (← get).context }
  let _ ← Run.during (lit "open git repository " ++ folder) <|
    g.capture [lit "rev-parse", lit "--git-dir"]
  pure g

/-! ## Tags -/

/-- What is asked about each reference: its name, and the kind, id and time of the object it names
and of the object behind that. -/
def tagFormat : Bytes :=
  lit "%(refname)%00%(objecttype)%00%(objectname)%00%(committerdate:unix)%00%(*objecttype)%00%(*objectname)%00%(*committerdate:unix)"

def tagFolder : Bytes := lit "refs/tags"

def parseTime (s : Bytes) : Except Fault Int :=
  (Fault.ofNumber .wide (Utf8.trim s) (Decimal.signed (Utf8.trim s))).mapError
    (Fault.during (lit "parse commit time " ++ Quoted.quote s))

/-- The commit behind any number of tags. -/
def peel (g : GitSource) (name : Bytes) : Run Tag := do
  let revision := tagFolder ++ [47] ++ name ++ lit "^\x7bcommit\x7d"
  match ← Run.attempt (g.capture [lit "log", lit "-1", lit "--format=%H%x00%ct", revision, lit "--"]) with
  | .error f => throw (.unresolvable f.message)
  | .ok out =>
    match Bytes.cutByte 0 (Utf8.trim out) with
    | none =>
      throw (.unresolvable
        (lit "peel " ++ name ++ lit ": unexpected output " ++ Quoted.quote out))
    | some (commit, time) => pure { name, commit, time := ← Run.ofExcept (parseTime time) }

structure Reference where
  name : Bytes
  kind : Bytes
  id : Bytes
  time : Bytes
  innerKind : Bytes
  innerId : Bytes
  innerTime : Bytes
  deriving Repr, DecidableEq

def Reference.parse (line : Bytes) : Except Fault Reference :=
  match Bytes.splitOn 0 line with
  | [name, kind, id, time, innerKind, innerId, innerTime] =>
    .ok ⟨Bytes.withoutHead (tagFolder ++ [47]) name, kind, id, time, innerKind, innerId, innerTime⟩
  | _ => .error (.other (lit "unexpected for-each-ref record " ++ Quoted.quote line))

/-- The tag of a reference: of the commit it names, or that the tag it names leads to. -/
def resolve (g : GitSource) (r : Reference) : Run Tag := do
  if r.kind == lit "commit" then
    pure { name := r.name, commit := r.id, time := ← Run.ofExcept (parseTime r.time) }
  else if r.kind == lit "tag" && r.innerKind == lit "commit" then
    pure { name := r.name, commit := r.innerId, time := ← Run.ofExcept (parseTime r.innerTime) }
  else if r.kind == lit "tag" then g.peel r.name
  else throw (.unresolvable (lit "tag points at a " ++ r.kind))

/-- The tags of some records.  Those that lead to no commit are reported and left out. -/
def resolveAll (g : GitSource) : List Bytes → Run (List Tag)
  | [] => pure []
  | line :: rest => do
    let r ← Run.ofExcept (Reference.parse line)
    match ← Run.attempt (g.resolve r) with
    | .ok tag => pure (tag :: (← g.resolveAll rest))
    | .error f =>
      Host.reportIn g.context .warn "skipping tag" [("tag", r.name), ("error", f.message)]
      g.resolveAll rest

def tags (g : GitSource) : Run (List Tag) :=
  Run.during (lit "list tags") do
    let out ← g.capture [lit "for-each-ref", lit "--format=" ++ tagFormat, tagFolder]
    g.resolveAll ((Bytes.splitOn 10 out).filter fun l => !l.isEmpty)

/-! ## Files -/

def linkMode : Bytes := lit "120000"

/-- The file in a record, unless it is a link or no file. -/
def parseFile (record : Bytes) : Except Fault (Option FileEntry) :=
  let malformed := Fault.other (lit "malformed ls-tree record " ++ Quoted.quote record)
  match Bytes.cutByte 9 record with
  | none => .error malformed
  | some (head, path) =>
    match Utf8.fields head with
    | [mode, kind, id] =>
      if kind != lit "blob" || mode == linkMode then .ok none else .ok (some ⟨path, id⟩)
    | _ => .error malformed

/-- The files in records, up to the first that cannot be read. -/
def parseFiles : List Bytes → List FileEntry × Option Fault
  | [] => ([], none)
  | record :: rest =>
    match parseFile record with
    | .error f => ([], some f)
    | .ok entry =>
      let (more, failure) := parseFiles rest
      (entry.toList ++ more, failure)

/-- What a tag is asked for by: its commit, or its name if the commit is not known. -/
def revision (tag : Tag) : Bytes :=
  if tag.commit.isEmpty then tagFolder ++ [47] ++ tag.name else tag.commit

/-- The files of a tag in the order of its tree, and what went wrong after them. -/
def files (g : GitSource) (tag : Tag) : Run (List FileEntry × Option Fault) := do
  let walking := lit "walk " ++ tag.name
  let o ← Run.during walking
    (g.ask [lit "ls-tree", lit "-r", lit "-z", lit "--full-tree", revision tag]).run
  match parseFiles ((Bytes.splitOn 0 o.printed).filter fun r => !r.isEmpty) with
  | (entries, some f) => pure (entries, some (f.within walking))
  | (entries, none) =>
    let failure := o.ended.map fun _ =>
      Fault.unresolvable (lit "ls-tree " ++ tag.name ++ lit ": " ++ Utf8.trim o.complaint)
    pure (entries, failure)

/-! ## Contents -/

def openBlobs (g : GitSource) : Run Process.Live :=
  Run.during (lit "cat-file") (Process.begin (g.ask [lit "cat-file", lit "--batch"]))

/-- The answer has ended. -/
def ended : Fault := .other (lit "EOF")

/-- The answer has ended in the middle of something. -/
def cutShort : Fault := .other (lit "unexpected EOF")

def maxBody : Int := 0x1000000000000

/-- The body of a counted length, and the newline after it. -/
def readBody (l : Process.Live) (kind : Bytes) (size : Int) :
    Run (Process.Live × Except Fault Bytes) := do
  if size < -1 || maxBody ≤ size then throw (.defect (lit "runtime error: makeslice: len out of range"))
  let n := (size + 1).toNat
  let rest := l.unread
  if rest.length < n then
    let failure := if rest.isEmpty then ended else cutShort
    pure (l.take rest.length, .error (.during (lit "read body") failure))
  else if kind != lit "blob" then
    pure (l.take n, .error (.other (lit "object is a " ++ kind ++ lit ", not a blob")))
  else if size < 0 then throw (.defect (lit "runtime error: slice bounds out of range [:-1]"))
  else pure (l.take n, .ok (rest.take (n - 1)))

def readAnswer (l : Process.Live) (id : Bytes) : Run (Process.Live × Except Fault Bytes) := do
  let (header, rest) := l.unread.span (· != 10)
  if rest.isEmpty then
    pure (l.take header.length, .error (.during (lit "read header") ended))
  else
    let l := l.take (header.length + 1)
    match Utf8.fields header with
    | [_, kind, size] =>
      match Fault.ofNumber .small size (Decimal.signed size) with
      | .error f => pure (l, .error (.during (lit "size") f))
      | .ok size => readBody l kind size
    | fields =>
      if fields.length == 2 && fields[1]? == some (lit "missing") then
        pure (l, .error (.blobNotFound id))
      else
        pure (l, .error (.other (lit "malformed header " ++ Quoted.quote (header ++ [10]))))

def readBlob (l : Process.Live) (id : Bytes) : Run (Process.Live × Except Fault Bytes) := do
  let reading := lit "cat-file " ++ ObjectId.brief id
  match ObjectId.validate id with
  | .error f => pure (l, .error f)
  | .ok _ =>
    if l.isOver then
      pure (l, .error (.during reading (.system (lit "write") (lit "|1") .brokenPipe)))
    else
      let (l, outcome) ← readAnswer (l.feed (id ++ [10])) id
      let outcome := outcome.mapError fun f =>
        match f with
        | .blobNotFound _ => f
        | _ => .during reading f
      pure (l, outcome)

def close (l : Process.Live) : Run Unit :=
  match l.outcome.ended with
  | none => pure ()
  | some e => throw (.during (lit "cat-file") (.process e))

end GitSource

end SymbolHistory
