/-
# Organizer -- from stored contents to symbol files

The organizer has a tag table made for some contents, adds it to the project's
combined table, and splits it: the entries of one content that stand together
become its symbol file.  A content that has a symbol file keeps it.  Once a
table was read to its end, contents without entries get an empty symbol file, so
that they can be told from contents that were never organized.
-/
import SymbolHistory.Project
import SymbolHistory.Generator
import SymbolHistory.TagTable
import SymbolHistory.Signature

set_option autoImplicit false

namespace SymbolHistory

/-- A project and what makes its tag tables. -/
structure Organizer where
  layout : Layout
  generator : Generator

namespace Organizer

/-! ## Splitting a table -/

/-- Entries that stand together and name one file. -/
structure Group where
  file : Bytes
  entries : List TagTable.Entry
  deriving Repr, DecidableEq

/-- Entries of known kinds in groups; entries of unknown kinds do not separate groups. -/
def groups (entries : List TagTable.Entry) : List Group :=
  let known := entries.filter (fun e => e.kind != .unknown)
  known.foldr
    (fun e gs =>
      match gs with
      | g :: rest => if g.file == e.file then ⟨e.file, e :: g.entries⟩ :: rest else ⟨e.file, [e]⟩ :: gs
      | [] => [⟨e.file, [e]⟩])
    []

/-- The symbol of an entry: what its content says about it is added. -/
def symbolOf (src : SourceText) (e : TagTable.Entry) : Except Fault Symbol := do
  let extra ← Signature.extraText e.kind e.name src e.line
  pure { name := e.name, kind := e.kind, line := e.line, extra }

def kindCounts (symbols : List Symbol) : List (Bytes × Nat) :=
  let kinds : List SymbolKind := [.function, .define, .variable]
  (kinds.map fun k => (k.name, symbols.countP (fun s => s.kind == k))).filter (fun c => c.2 != 0)

def writeTagFile (o : Organizer) (id : Bytes) (entries : List TagTable.Entry) : Run Unit := do
  let data ← o.layout.objectStore.read id
  let symbols ← Run.ofExcept (entries.mapM (symbolOf (SourceText.ofContent data)))
  discard <| o.layout.tagStore.write id (Symbol.writeAll symbols)
  Host.remember fun t =>
    { t with
      organizing :=
        { t.organizing with
          symbols := t.organizing.symbols + symbols.length
          files := t.organizing.files + 1 } }
  Host.count (Metrics.tagFileWritten (kindCounts symbols))

/-- The id whose symbol file a group becomes, if it is to be written: the group must name a
content, for the first time, and the content must have no symbol file.  Entries at the start of a
table that name no file at all are passed over without a word. -/
def start (o : Organizer) (seen : List Bytes) (file : Bytes) : Run (Option Bytes) := do
  let id := Path.base file
  if seen.isEmpty && file.isEmpty then pure none
  else if !ObjectId.isValid id then
    Host.report .warn "tag table names a file outside the object store" [("file", file)]
    pure none
  else if seen.contains file then pure none
  else if ← o.layout.tagStore.has id then
    Host.remember fun t =>
      { t with organizing := { t.organizing with skipped := t.organizing.skipped + 1 } }
    pure none
  else pure (some id)

/-- Write the symbol files of groups.  The work can be called off in every group: a group that was
begun then fails, and without one the rest is left alone and the answer is `false`. -/
def writeGroups (o : Organizer) (seen : List Bytes) : List Group → Run Bool
  | [] => pure true
  | g :: rest => do
    match ← o.start seen g.file with
    | some id =>
      Run.checkpoint
      o.writeTagFile id g.entries
      Host.advanceStage
      o.writeGroups (g.file :: seen) rest
    | none =>
      match ← Run.attempt Run.checkpoint with
      | .error _ => pure false
      | .ok _ => o.writeGroups (g.file :: seen) rest

/-- The files that a table's line texts are looked up in. -/
def sources (o : Organizer) (h : Host) : TagTable.Sources where
  base := o.layout.root
  content p :=
    match h.look p with
    | .ok (.file content _) => some content
    | _ => none

/-- Split a table; whether it was read to its end. -/
def splitTable (o : Organizer) (table : Input) : Run Bool := do
  let reader := TagTable.Reader.ofInput table (some (o.sources (← get)))
  let (entries, reader) := reader.readAll
  Host.stage "Organizing symbols" (-1) do
    if !(← Run.during (lit "split tag table") (o.writeGroups [] (groups entries))) then
      throw .canceled
    match reader.fault with
    | some f => throw (f.within (lit "split tag table"))
    | none => pure ()
    Run.checkpoint
    if reader.badLine != 0 then
      Host.report .warn "malformed tag table line; ignoring the rest"
        [("line", .number reader.badLine)]
    let t := (← get).tally.organizing
    Host.report .info "organized symbols"
      [("symbols", .number t.symbols), ("objects", .number t.files),
       ("skipped", .number t.skipped)]
    pure (reader.badLine == 0)

def split (o : Organizer) (table : Input) : Run Unit := discard (o.splitTable table)

/-- Split the combined table again, if there is one. -/
def splitCombined (o : Organizer) : Run Unit := do
  match (← get).look o.layout.combined with
  | .error .noEntry => pure ()
  | .error e => throw (.during (lit "split") (.system (lit "open") o.layout.combined e))
  | .ok (.file content _) => o.split ⟨content, none⟩
  | .ok .folder =>
    o.split ⟨[], some (.system (lit "read") o.layout.combined .isDirectory)⟩

/-! ## Making a table -/

/-- How the names of tables begin that are not part of the combined table yet. -/
def batchStem : Bytes := lit ".ctags-"

/-- Have a table made for some contents; the file it is in. -/
def generate (o : Organizer) (ids : List Bytes) : Run Bytes := do
  let batch ← Run.during (lit "generate") do
    Host.makeFolders o.layout.root
    Host.createTemporary o.layout.root batchStem
  Host.report .info "generating tag table" [("objects", .number ids.length)]
  let made ← Run.attempt do
    let out ← o.generator o.layout.root (ids.map Layout.objectRef)
    match out.failure with
    | some f => throw f
    | none => Host.append batch out.text
  match made with
  | .ok _ => pure batch
  | .error f =>
    Host.removeFile batch
    throw (f.within (lit "generate tag table"))

def appendCombined (o : Organizer) (batch : Bytes) : Run Unit :=
  Run.during (lit "append tag table") do
    let data ← Host.readFile batch
    Host.openAtEnd o.layout.combined
    Host.append o.layout.combined data

/-- The ids of contents that are stored and have no symbol file. -/
def pending (o : Organizer) (ids : List Bytes) : Run (List Bytes) :=
  ids.filterM fun id => do
    if ← o.layout.objectStore.has id then
      pure !(← o.layout.tagStore.has id)
    else pure false

/-- Give every content that has no symbol file an empty one. -/
def markEmpty (o : Organizer) : List Bytes → Run Unit
  | [] => pure ()
  | id :: rest => do
    if !(← o.layout.tagStore.has id) then
      discard <| Run.during (lit "organize") (o.layout.tagStore.write id [])
      Host.remember fun t =>
        { t with organizing := { t.organizing with files := t.organizing.files + 1 } }
    o.markEmpty rest

def run (o : Organizer) (ids : List Bytes) : Run Unit := do
  if ids.isEmpty then return
  let batch ← o.generate ids
  Run.ensuring
    (do
      o.appendCombined batch
      let table ← Run.during (lit "organize") (Host.readFile batch)
      if ← o.splitTable ⟨table, none⟩ then o.markEmpty ids
      else
        let waiting ← o.pending ids
        Host.report .warn "tag table truncated; objects without a tag file stay pending"
          [("pending", .number waiting.length)])
    (Host.removeFile batch)

end Organizer

end SymbolHistory
