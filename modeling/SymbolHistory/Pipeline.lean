/-
# Pipeline -- one pass over a project

A pass selects the tags, stores their contents, organizes the symbols, lists the
names and compares the versions.  Every stage leaves alone what an earlier pass
has done, so a pass that was cut short is resumed by another one.  What the pass
came to is written last.
-/
import SymbolHistory.Organizer
import SymbolHistory.NameList
import SymbolHistory.Comparison

set_option autoImplicit false

namespace SymbolHistory

namespace Pipeline

/-- What a pass works with, apart from the project. -/
structure Tools where
  /-- Where the versions come from, if not from the project's repository. -/
  source : Option Source := none
  /-- What makes the tag tables, if not the project's generator. -/
  generator : Option Generator := none
  /-- How the built-in scanner reads C. -/
  grammar : CSource.Grammar := .plain
  /-- How many things are done at a time; no number means what the project says. -/
  workers : Int := 0
  /-- The order in which symbols are met when the diff of a tag is made. -/
  order : Tag → Enumeration := fun _ => .asFound
  /-- The time of the pass. -/
  now : Timestamp

/-- What a pass came to. -/
structure Outcome where
  runId : Bytes
  tags : List Tag := []
  skipped : List Tag := []
  collided : List Tag := []
  objects : Nat := 0
  created : Nat := 0
  symbols : Nat := 0
  names : Nat := 0
  diffs : Nat := 0
  existing : Nat := 0
  deriving Repr, DecidableEq

/-- The tags of a source that a project selects, in order, and those left out because their diffs
would share a file with another's. -/
def selectTags (source : Source) (c : Config) : Run (List Tag × List Tag) := do
  let pattern ← Run.ofExcept c.tagKey
  let all ← Run.during (lit "list tags") source.tags
  pure (Tag.dropCollisions (Tag.select (pattern.map Tag.key) c.order all))

def openSource (c : Config) : Run Source := do pure (.git (← GitSource.open c.index.repo))

def chooseGenerator (grammar : CSource.Grammar) (c : Config) : Except Fault Generator :=
  let g := c.generator
  (Generator.Choice.ofKind g.kind g.command g.args g.timeout).map (Generator.ofChoice grammar)

/-- Work that is a stage of the pass: it is timed, and its end is reported. -/
def stage {α : Type} (name : String) (work : Run α) : Run α := do
  let outcome ← Run.attempt work
  let elapsed : Duration := ⟨0⟩
  Host.count (Metrics.observeStage (lit name) .zero)
  match outcome with
  | .ok a =>
    Host.report .debug "stage done" [("stage", lit name), ("elapsed", .time elapsed)]
    pure a
  | .error f =>
    Host.report .error "stage failed"
      [("stage", lit name), ("elapsed", .time elapsed), ("error", f.message)]
    throw (f.within (lit name))

/-- Organize what has no symbol file yet; those ids. -/
def organize (o : Organizer) (ids : List Bytes) (created : Nat) : Run (List Bytes) := do
  let pending ← o.pending ids
  if created < pending.length then
    Host.report .info "organizing objects left by an earlier run"
      [("count", .number (pending.length - created))]
  o.run pending
  pure pending

/-- List the names anew if there may be new ones; how many there are, 0 if the list was kept. -/
def listNames (l : Layout) (pending : List Bytes) : Run Nat := do
  if pending.isEmpty && (← Host.isThere l.names) then
    Host.report .debug "autocomplete list up to date" []
    pure 0
  else
    let n ← NameList.build l
    Host.report .info "wrote autocomplete list" [("names", .number n)]
    pure n

def writeMeta (p : Project) (o : Outcome) (now : Timestamp) : Run Unit := do
  let last ← p.lastRun
  IndexMeta.saveFile p.layout.metaFile
    { initialVersion := (o.tags.head?.map (·.name)).getD []
      latestVersion := (o.tags.getLast?.map (·.name)).getD []
      tags := o.tags.length
      objects := o.objects
      symbols := IndexMeta.plus last.symbols o.symbols
      diffs := o.tags.length
      runId := o.runId
      updatedAt := now.utc }

def workerCount (c : Config) (workers : Int) (h : Host) : Nat :=
  if 0 < workers then workers.toNat else Extractor.workerCount c.index.workers h

def stages (p : Project) (source : Source) (generator : Generator) (tools : Tools)
    (filter : FileFilter) (runId : Bytes) : Run Outcome := do
  let workers := workerCount p.config tools.workers (← get)
  Host.report .info "indexing started" [("workers", .number workers)]
  let (selected, collided) ← stage "select" (selectTags source p.config)
  collided.forM fun tag =>
    Host.report .warn "tag skipped: diff file name already taken"
      [("tag", tag.name), ("file", Tag.fileName tag.name)]
  Host.report .info "selected tags" [("count", .number selected.length)]
  let x : Extractor :=
    { source, store := p.layout.objectStore, filter, workers }
  let found ← stage "collect" (x.collect selected)
  let created ← stage "extract" (x.writeObjects found.ids)
  let pending ← stage "organize" <|
    organize { layout := p.layout, generator } found.ids created.length
  let names ← stage "autocomplete" (listNames p.layout pending)
  stage "diff" <|
    { layout := p.layout, walker := .filtered x, order := tools.order : Comparison }.run found.tags
  let t := (← get).tally
  let outcome : Outcome :=
    { runId
      tags := found.tags
      skipped := found.skipped
      collided
      objects := found.ids.length
      created := created.length
      symbols := t.organizing.symbols
      names
      diffs := t.comparing.diffs
      existing := t.comparing.skipped }
  writeMeta p outcome tools.now
  Host.report .info "indexing finished"
    [("tags", .number outcome.tags.length), ("objects", .number outcome.objects),
     ("created", .number outcome.created), ("symbols", .number outcome.symbols),
     ("diffs", .number outcome.diffs)]
  pure outcome

/-- Work that counts from zero; the counts before it come back afterwards. -/
def counting {α : Type} (cacheSize : Int) (work : Run α) : Run α := do
  let before := (← get).tally
  Host.remember fun _ => { cache := .ofCapacity cacheSize }
  Run.ensuring work (Host.remember fun _ => before)

def run (p : Project) (tools : Tools) : Run Outcome := do
  let runId ← Host.nextRunId
  Host.withContext [(lit "run", .text runId), (lit "project", .text p.config.name)] do
    let source ← tools.source.elim (openSource p.config) pure
    let generator ← tools.generator.elim (Run.ofExcept (chooseGenerator tools.grammar p.config)) pure
    let filter ← Run.ofExcept p.config.filter
    counting p.config.index.cacheSize (stages p source generator tools filter runId)

end Pipeline

end SymbolHistory
