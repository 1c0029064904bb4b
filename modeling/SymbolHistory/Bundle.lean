/-
# Bundle -- a project's index in one file

A bundle holds what is needed to answer questions about a project: its settings,
what is known about the last run, the list of names, the symbol files and the
diffs.  Members are named below the project's folder, and a member that would
land outside the database is refused.

How members become bytes is the business of a `Codec`.
-/
import SymbolHistory.Project
import SymbolHistory.Bundle.Archive
import SymbolHistory.Bundle.Frame

set_option autoImplicit false

namespace SymbolHistory

namespace Bundle

/-- Makes bundles of members, and reads the members of bundles. -/
structure Codec where
  encode : List Member → Bytes
  /-- The members that are met, and what ends the bundle early. -/
  decode : Input → Delivery Arrival

/-- The codec of archives in frames that are not compressed. -/
def Codec.plain : Codec where
  encode members := Frame.wrap (Archive.write members)
  decode bundle := Archive.read (Frame.unwrap bundle)

def encode (members : List Member) : Bytes := Codec.plain.encode members

def decode (bundle : Input) : Delivery Arrival := Codec.plain.decode bundle

def files (d : Delivery Arrival) : Delivery Arrival where
  items := d.items.filter fun a => a.type == .file
  failure := d.failure.map (.during (lit "bundle"))

def openFile (path : Bytes) : Run Input := do
  match ← Host.system "open" path ((← get).look path) with
  | .file content _ => pure ⟨content, none⟩
  | .folder => pure ⟨[], some (.system (lit "read") path .isDirectory)⟩

/-! ## Writing -/

/-- What a bundle holds of one folder: its files, in order, but for hidden ones. -/
def folderMembers (l : Layout) (folder : Bytes) : Run (List Bytes) := do
  match ← Run.attempt (Host.readFolder (l.file folder)) with
  | .error f => if f.isMissingFile then pure [] else throw (.during (lit "bundle") f)
  | .ok entries =>
    let shown := entries.filter fun e => !e.2 && e.1.head? != some 46
    pure ((Bytes.sort (shown.map (·.1))).map fun n => folder ++ [Path.slash] ++ n)

/-- What a bundle of a project holds, as paths below the project. -/
def memberPaths (l : Layout) : Run (List Bytes) := do
  if !(← Host.isThere l.config) then
    throw (.during (lit "bundle " ++ l.root) .noProject)
  let optional ← [Layout.metaName, Layout.namesName].filterM fun n => Host.isThere (l.file n)
  let tags ← folderMembers l Layout.tagsName
  let diffs ← folderMembers l Layout.diffsName
  pure ([Layout.configName] ++ optional ++ tags ++ diffs)

def readMember (l : Layout) (path : Bytes) : Run Member := do
  let source := l.file path
  let name := Path.join [Path.base l.root, path]
  match ← Run.during (lit "bundle") (Host.system "open" source ((← get).look source)) with
  | .file content _ => pure { name, content }
  | .folder =>
    throw (.during (lit "bundle " ++ name) (.system (lit "read") source .isDirectory))

/-- Read members.  The work can be called off before each. -/
def readMembers (l : Layout) : List Bytes → Run (List Member)
  | [] => pure []
  | path :: rest => do
    Run.checkpoint
    let m ← readMember l path
    pure (m :: (← readMembers l rest))

/-- What a bundle was made of. -/
structure Summary where
  files : Nat
  bytes : Nat
  deriving Repr, DecidableEq

def Codec.exportFile (c : Codec) (l : Layout) (dest : Bytes) : Run Summary :=
  AtomicFile.writing dest fun f => do
    let members ← readMembers l (← memberPaths l)
    f.write (c.encode members)
    pure { files := members.length, bytes := (members.map fun m => m.content.length).foldl (· + ·) 0 }

def exportFile (l : Layout) (dest : Bytes) : Run Summary := Codec.plain.exportFile l dest

/-! ## Reading -/

/-- Where a member goes below a database, if it stays below it. -/
def destination? (db name : Bytes) : Option Bytes :=
  let cleaned := Path.clean name
  if Path.isAbsolute cleaned || cleaned == Path.parent ||
      Bytes.startsWith (Path.parent ++ [Path.slash]) cleaned then none
  else some (Path.join [db, cleaned])

/-- Write the content of a member, as far as it can be read. -/
def copyContent (f : AtomicFile) (m : Arrival) : Run Unit := do
  f.write m.content
  if let some flaw := m.flaw then throw flaw

def extractMember (db : Bytes) (m : Arrival) : Run Unit :=
  match destination? db m.name with
  | none =>
    throw (.other (lit "bundle member " ++ Quoted.quote m.name ++ lit " escapes the database"))
  | some dest =>
    AtomicFile.writing dest fun f => Run.during (lit "extract " ++ m.name) (copyContent f m)

/-- Unpack members: how many were, and the failure that ended it early. -/
def extractMembers (db : Bytes) (done : Nat) : List Arrival → Run (Nat × Option Fault)
  | [] => pure (done, none)
  | m :: rest => do
    match ← Run.attempt (extractMember db m) with
    | .error f => pure (done, some f)
    | .ok _ => extractMembers db (done + 1) rest

def Codec.extract (c : Codec) (db : Bytes) (bundle : Input) : Run (Nat × Option Fault) := do
  let d := files (c.decode bundle)
  match ← extractMembers db 0 d.items with
  | (n, some f) => pure (n, some f)
  | (n, none) => pure (n, d.failure)

def extract (db : Bytes) (bundle : Input) : Run (Nat × Option Fault) :=
  Codec.plain.extract db bundle

end Bundle

end SymbolHistory
