/-
# Source -- where versions come from

A source lists its tags, visits the files of a tag in the order of its tree, and
opens readers for contents.  A visit may fail and ends the walk; what the visits
before it came to is kept.
-/
import SymbolHistory.Source.Git
import SymbolHistory.Source.Memory

set_option autoImplicit false

namespace SymbolHistory

/-- Where versions come from. -/
inductive Source where
  | memory (m : MemorySource)
  | git (g : GitSource)

inductive BlobReader where
  | memory (m : MemorySource)
  | git (l : Process.Live)

/-- Visit files in order: what the visits came to, and the failure that ended them early.  The
work can be called off before every file. -/
def visitEntries {σ : Type} (visit : σ → FileEntry → Run σ) (s : σ) :
    List FileEntry → Run (σ × Option Fault)
  | [] => pure (s, none)
  | e :: rest => do
    match ← Run.attempt (do Run.checkpoint; visit s e) with
    | .error f => pure (s, some f)
    | .ok s => visitEntries visit s rest

namespace Source

/-- All tags that lead to a commit. -/
def tags : Source → Run (List Tag)
  | memory m => pure m.tags
  | git g => g.tags

def walk {σ : Type} (source : Source) (tag : Tag) (s : σ) (visit : σ → FileEntry → Run σ) :
    Run (σ × Option Fault) :=
  match source with
  | memory m =>
    match m.entries tag with
    | .error f => pure (s, some f)
    | .ok entries => visitEntries visit s entries
  | git g => do
    match ← Run.attempt (g.files tag) with
    | .error f => pure (s, some f)
    | .ok (entries, failure) =>
      let (s, stopped) ← visitEntries visit s entries
      pure (s, stopped.or failure)

def openBlobs : Source → Run BlobReader
  | memory m => pure (.memory m)
  | git g => do pure (.git (← g.openBlobs))

end Source

namespace BlobReader

/-- Read a content.  The reader can be used again whether or not it was found. -/
def read (r : BlobReader) (id : Bytes) : Run (BlobReader × Except Fault Bytes) :=
  match r with
  | memory m => pure (r, m.blob id)
  | git l => do
    let (l, outcome) ← GitSource.readBlob l id
    pure (.git l, outcome)

def close : BlobReader → Run Unit
  | memory _ => pure ()
  | git l => GitSource.close l

end BlobReader

end SymbolHistory
