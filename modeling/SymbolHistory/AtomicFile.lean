/-
# AtomicFile -- files that appear complete or not at all

Content is written to a temporary file next to its destination; finishing the
file either moves it there in one step or removes it.  Only the first finish
counts: a later commit is refused and a later abort does nothing.

A handle is a value, so writers can be interleaved step by step: `create`, any
number of `write`s, `finish`.
-/
import SymbolHistory.Host

set_option autoImplicit false

namespace SymbolHistory

/-- A file on its way to `dest`. -/
structure AtomicFile where
  temp : Bytes
  dest : Bytes
  done : Bool := false
  deriving Repr, DecidableEq

inductive Finish where
  | commit
  | abort
  deriving Repr, DecidableEq

namespace AtomicFile

/-- How the names of temporary files start. -/
def stem : Bytes := lit ".tmp-"

/-- Begin a file; the folders on the way are made. -/
def create (dest : Bytes) : Run AtomicFile := do
  let inside := Path.dir dest
  Run.during (lit "atomic create mkdir") (Host.makeFolders inside)
  let temp ← Run.during (lit "atomic create tmpfile") (Host.createTemporary inside stem)
  pure { temp, dest }

/-- Write at the end of a file that is not finished. -/
def write (f : AtomicFile) (data : Bytes) : Run Unit := Host.append f.temp data

/-- Move the file to its destination; failing that, remove it. -/
def place (f : AtomicFile) : Run (Except Fault Unit) := do
  match ← Run.attempt (Host.rename f.temp f.dest) with
  | .ok _ => pure (.ok ())
  | .error e =>
    Host.removeFile f.temp
    pure (.error (.during (lit "atomic commit rename") e))

/-- Finish a file.  The handle that comes back is finished. -/
def finish (f : AtomicFile) (how : Finish) : Run (AtomicFile × Except Fault Unit) := do
  match how, f.done with
  | .commit, true =>
    pure (f, .error (.other (lit "atomic commit " ++ f.dest ++ lit ": already finished")))
  | .abort, true => pure (f, .ok ())
  | .commit, false => pure ({ f with done := true }, ← f.place)
  | .abort, false =>
    Host.removeFile f.temp
    pure ({ f with done := true }, .ok ())

/-- Commit a file, or fail. -/
def commit (f : AtomicFile) : Run Unit := do
  let (_, outcome) ← f.finish .commit
  Run.ofExcept outcome

/-- Work that writes a file: it is committed when the work succeeds and aborted when it fails. -/
def writing {α : Type} (dest : Bytes) (work : AtomicFile → Run α) : Run α := do
  let f ← create dest
  match ← Run.attempt (work f) with
  | .ok a =>
    f.commit
    pure a
  | .error e =>
    discard <| f.finish .abort
    throw e

def writeAll (dest data : Bytes) : Run Unit :=
  writing dest fun f => Run.during (lit "atomic write") (f.write data)

end AtomicFile

end SymbolHistory
