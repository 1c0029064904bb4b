/-
# Extractor -- from versions to stored contents

The extractor visits the files of each tag that pass a filter, collects the ids
of their contents, and stores each content once.  A content is stored only if it
has the id it was asked for.
-/
import SymbolHistory.Source
import SymbolHistory.Project

set_option autoImplicit false

namespace SymbolHistory

/-- What is read from, what is stored to, and which files count. -/
structure Extractor where
  source : Source
  store : ObjectStore
  filter : FileFilter := {}
  workers : Int := 0

/-- What a sequence of tags refers to. -/
structure Collection where
  /-- The tags that could be read. -/
  tags : List Tag := []
  /-- Those that could not. -/
  skipped : List Tag := []
  /-- The distinct ids, in order. -/
  ids : List Bytes := []
  /-- How many files were visited. -/
  files : Nat := 0
  deriving Repr, DecidableEq

namespace Extractor

/-- How many things are done at a time; no number means as many as the machine does. -/
def workerCount (workers : Int) (h : Host) : Nat :=
  if 0 < workers then workers.toNat else h.processors

/-- Visit the files of a tag that pass the filter. -/
def walk {σ : Type} (x : Extractor) (tag : Tag) (s : σ) (visit : σ → FileEntry → Run σ) :
    Run (σ × Option Fault) :=
  x.source.walk tag s fun s e => if x.filter.keeps e.path then visit s e else pure s

def note (c : Collection) (e : FileEntry) : Run Collection :=
  pure { c with files := c.files + 1, ids := Bytes.insertSorted e.id c.ids }

/-- One more tag of a collection.  A tag that leads nowhere is passed over. -/
def collectTag (x : Extractor) (c : Collection) (tag : Tag) : Run Collection := do
  Run.checkpoint
  let (c, ended) ← x.walk tag c note
  Host.advanceStage
  match ended with
  | none => pure { c with tags := c.tags ++ [tag] }
  | some f =>
    if f.isUnresolvable then
      Host.report .warn "skipping unresolvable tag" [("tag", tag.name), ("error", f.message)]
      Host.count Metrics.tagSkipped
      pure { c with skipped := c.skipped ++ [tag] }
    else throw (f.within (lit "collect " ++ tag.name))

/-- Visit all files of some tags. -/
def collect (x : Extractor) (tags : List Tag) : Run Collection := do
  let c ← Host.stage "Scanning tags" tags.length (tags.foldlM x.collectTag {})
  Host.report .info "collected objects"
    [("tags", .number c.tags.length), ("skipped", .number c.skipped.length),
     ("objects", .number c.ids.length),
     ("duplicates", .number ((c.files : Int) - c.ids.length))]
  pure c

/-- A content was stored, or was there. -/
def counted (created : Bool) : Run Bool := do
  Host.remember fun t =>
    { t with
      extracting :=
        if created then { t.extracting with written := t.extracting.written + 1 }
        else { t.extracting with present := t.extracting.present + 1 } }
  Host.count (Metrics.objectWritten created)
  pure created

/-- Store one content unless it is there; whether it was stored.  The reader can be used again. -/
def writeObject (x : Extractor) (blobs : BlobReader) (id : Bytes) : Run (BlobReader × Bool) := do
  if ← x.store.has id then
    pure (blobs, ← counted false)
  else
    let (blobs, outcome) ← blobs.read id
    let data ← Run.ofExcept outcome
    Run.ofExcept (ObjectId.verify id data)
    pure (blobs, ← counted (← x.store.write id data))

/-- Store contents one by one: the ids stored, last first. -/
def writeEach (x : Extractor) (blobs : BlobReader) (created : List Bytes) :
    List Bytes → Run (List Bytes)
  | [] => pure created
  | id :: rest => do
    Run.checkpoint
    let (blobs, new) ← x.writeObject blobs id
    Host.advanceStage
    x.writeEach blobs (if new then id :: created else created) rest

/-- Open a reader for each worker.  They are alike, so it does not matter which serves an id. -/
def openReaders (x : Extractor) : Nat → Run (List BlobReader)
  | 0 => pure []
  | n + 1 => do
    let r ← x.source.openBlobs
    pure (r :: (← x.openReaders n))

/-- Store every content that is not there.  The ids of those stored, in order. -/
def writeObjects (x : Extractor) (ids : List Bytes) : Run (List Bytes) := do
  Run.checkpoint
  let created ← Host.stage "Writing objects" ids.length <|
    Run.during (lit "write objects") do
      let readers ← x.openReaders (min (workerCount x.workers (← get)) ids.length)
      match readers with
      | [] => pure []
      | blobs :: _ =>
        Run.ensuring (x.writeEach blobs [] ids)
          (readers.forM fun r => do let _ ← Run.attempt r.close)
  Host.report .info "wrote objects"
    [("new", .number created.length),
     ("present", .number ((ids.length : Int) - created.length))]
  pure (Bytes.sort created)

end Extractor

end SymbolHistory
