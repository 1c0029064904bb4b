/-
# Comparison -- diffs between neighbouring versions

For every tag of a sequence there is a diff file that says how its symbols
differ from those of the tag before it; the first is compared with nothing.  A
diff that is there is never changed.  Only the tags that a missing diff needs
are read: those without a diff and those right before one.
-/
import SymbolHistory.Extractor
import SymbolHistory.History.Window

set_option autoImplicit false

namespace SymbolHistory

/-- Where versions are walked: with a filter, or all of a source. -/
inductive Walker where
  | filtered (x : Extractor)
  | whole (s : Source)

def Walker.walk {σ : Type} (w : Walker) (tag : Tag) (s : σ) (visit : σ → FileEntry → Run σ) :
    Run (σ × Option Fault) :=
  match w with
  | .filtered x => x.walk tag s visit
  | .whole source => source.walk tag s visit

structure Comparison where
  layout : Layout
  walker : Walker
  /-- The order in which symbols are met when the diff of a tag is made. -/
  order : Tag → Enumeration := fun _ => .asFound

namespace Comparison

/-- The symbols of a content.  One without a symbol file has none. -/
def symbols (c : Comparison) (id : Bytes) : Run (List Symbol) := do
  match (← get).tally.cache.get? id with
  | some (symbols, cache) =>
    Host.remember fun t => { t with cache }
    pure symbols
  | none =>
    match ← Run.attempt (c.layout.tagStore.read id) with
    | .error f => if f.isMissingFile then pure [] else throw f
    | .ok data =>
      let d := Symbol.readAll ⟨data, none⟩
      match d.failure with
      | some f => throw (f.within (lit "tag file " ++ ObjectId.brief id))
      | none =>
        Host.remember fun t => { t with cache := t.cache.add id d.items }
        pure d.items

/-- The symbols of one file of the version being loaded. -/
def loadFile (c : Comparison) (w : Window) (e : FileEntry) : Run Window := do
  let found ← c.symbols e.id
  Host.remember fun t => { t with comparing := { t.comparing with files := t.comparing.files + 1 } }
  pure (found.foldl (fun w s => w.load ⟨s.name, s.kind⟩ ⟨e.path, s.line, s.extra⟩) w)

/-- The version of a tag becomes the newer one of a window. -/
def load (c : Comparison) (w : Window) (tag : Tag) : Run Window := do
  let (w, ended) ← c.walker.walk tag w c.loadFile
  match ended with
  | some f => throw (f.within (lit "load " ++ tag.name))
  | none =>
    Host.report .debug "loaded tag"
      [("tag", tag.name), ("symbols", .number w.after.size),
       ("previous", .number w.before.size)]
    pure w

/-- Write the diff of a tag unless it is there. -/
def persist (c : Comparison) (w : Window) (tag : Tag) : Run Unit := do
  let path := c.layout.diff tag.name
  if ← Host.isThere path then
    Host.remember fun t =>
      { t with comparing := { t.comparing with skipped := t.comparing.skipped + 1 } }
    Host.report .debug "comparison exists" [("tag", tag.name)]
  else
    let d := (w.met (c.order tag)).diff
    if d.common != 0 then
      Host.report .debug "symbols present in both versions not compared"
        [("tag", tag.name), ("count", .number d.common)]
    Run.during (lit "write diff " ++ tag.name)
      (AtomicFile.writeAll path (Record.writeAll d.records))
    let added := d.records.countP (fun r => r.action == .add)
    let removed := d.records.length - added
    Host.remember fun t =>
      { t with
        comparing :=
          { t.comparing with
            diffs := t.comparing.diffs + 1
            records := t.comparing.records + d.records.length } }
    Host.count (Metrics.diffWritten added removed)
    Host.report .debug "wrote comparison"
      [("tag", tag.name), ("added", .number added), ("removed", .number removed)]

/-- The tags with, for each, whether its diff is missing. -/
def withMissing (c : Comparison) (tags : List Tag) : Run (List (Tag × Bool)) :=
  tags.mapM fun tag => do pure (tag, !(← Host.isThere (c.layout.diff tag.name)))

/-- The tags whose diff is missing and those right before one. -/
def needed : List (Tag × Bool) → List Tag
  | [] => []
  | (tag, missing) :: rest =>
    let nextMissing := (rest.head?.map (·.2)).getD false
    if missing || nextMissing then tag :: needed rest else needed rest

/-- The tags that must be read to make every missing diff. -/
def toCompute (c : Comparison) (tags : List Tag) : Run (List Tag) :=
  needed <$> c.withMissing tags

/-- Compare tags in turn.  The work can be called off before every tag. -/
def compareEach (c : Comparison) (w : Window) : List Tag → Run Unit
  | [] => pure ()
  | tag :: rest => do
    Run.checkpoint
    let w ← c.load w tag
    c.persist w tag
    Host.advanceStage
    c.compareEach w.slide rest

/-- Make every missing diff of a sequence of tags. -/
def run (c : Comparison) (tags : List Tag) : Run Unit := do
  match (Tag.dropCollisions tags).2 with
  | tag :: _ => throw (.nameCollision tag.name)
  | [] => pure ()
  let todo ← c.toCompute tags
  if todo.isEmpty then
    Host.report .info "all comparisons present" [("tags", .number tags.length)]
  else
    Host.stage "Comparing tags" todo.length do
      c.compareEach {} todo
      let t := (← get).tally.comparing
      Host.report .info "created comparisons"
        [("diffs", .number t.diffs), ("records", .number t.records),
         ("files", .number t.files), ("skipped", .number t.skipped)]

end Comparison

end SymbolHistory
