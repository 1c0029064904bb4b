/-
# Generator -- what makes tag tables

A generator writes a tag table for files below a folder.  It may fail at any
point of its output.  The built-in scanner reads the files as C, with a grammar of
C that it is given.  A command is another program that gets the paths as its input
and prints the table.
-/
import SymbolHistory.CSource.Outline
import SymbolHistory.Generator.Choice
import SymbolHistory.Host.Process

set_option autoImplicit false

namespace SymbolHistory

/-- What a generator wrote, and the failure that ended it. -/
structure Generator.Output where
  text : Bytes
  failure : Option Fault := none
  deriving Repr, DecidableEq

/-- Writes a tag table for the files at some paths below a folder. -/
abbrev Generator := Bytes → List Bytes → Run Generator.Output

namespace Generator

/-- A file is not scanned in less time. -/
def shortestScan : Duration := ⟨1000⟩

/-- The time is up before a file has been scanned. -/
def isTooShort (timeout : Duration) : Bool :=
  0 < timeout.nanoseconds && timeout.nanoseconds < shortestScan.nanoseconds

/-- How much a buffer holds back. -/
def bufferSize : Nat := 65536

/-- What a buffer has passed on, and what it holds back. -/
structure Buffer where
  passed : Bytes := []
  held : Bytes := []
  deriving Repr, DecidableEq

namespace Buffer

/-- A text that does not fit fills the buffer, which is passed on.  What does not fit into an empty
buffer is passed on as it is. -/
def write (b : Buffer) (text : Bytes) : Buffer :=
  let room := bufferSize - b.held.length
  if text.length ≤ room then { b with held := b.held ++ text }
  else if b.held.isEmpty then { b with passed := b.passed ++ text }
  else
    let full := b.passed ++ (b.held ++ text.take room)
    let rest := text.drop room
    if rest.length ≤ bufferSize then ⟨full, rest⟩ else ⟨full ++ rest, []⟩

def text (b : Buffer) : Bytes := b.passed ++ b.held

end Buffer

/-- The lines for the symbols of a file.  The work can be called off before every file. -/
def scanFile (g : CSource.Grammar) (timeout : Duration) (folder path : Bytes) : Run (List Bytes) := do
  Run.during (lit "treesitter") do
    Run.checkpoint
    if isTooShort timeout then throw .deadline
  let source ← Run.during (lit "treesitter") (Host.readFile (Path.join [folder, path]))
  let tags ← Run.during (lit "treesitter " ++ path) (Run.ofExcept (g.scan source))
  pure (tags.map fun t => t.tableLine path ++ [10])

/-- The lines of each file in turn, up to one that fails. -/
def scanFiles (g : CSource.Grammar) (timeout : Duration) (folder : Bytes) :
    Buffer → List Bytes → Run (Buffer × Option Fault)
  | b, [] => pure (b, none)
  | b, path :: rest => do
    match ← Run.attempt (scanFile g timeout folder path) with
    | .ok lines => scanFiles g timeout folder (lines.foldl Buffer.write b) rest
    | .error f => pure (b, some f)

/-- The built-in scanner, limited in time unless the timeout is zero.  Of what it holds back nothing is
written if it fails. -/
def ofGrammar (g : CSource.Grammar) (timeout : Duration) : Generator := fun folder paths => do
  match ← scanFiles g timeout folder {} paths with
  | (b, none) => pure { text := b.text }
  | (b, some f) => pure { text := b.passed, failure := some f }

def scanner (timeout : Duration) : Generator := ofGrammar .plain timeout

/-! ## Commands -/

def defaultCommand : Bytes := lit "ctags"

/-- What a command is always told: names as given, the rules of C for every file, no sorting, the
table to its output and the paths from its input. -/
def tableArguments : List Bytes :=
  ["--tag-relative=yes", "--language-force=C", "--sort=no", "-f", "-", "-L", "-"].map lit

/-- How much of its complaints a message shows. -/
def complaintLimit : Nat := 512

def complaintTail (s : Bytes) : Bytes :=
  let s := Utf8.trim s
  if complaintLimit < s.length then lit "..." ++ s.drop (s.length - complaintLimit) else s

def milliseconds? (timeout : Duration) : Option Nat :=
  if 0 < timeout.nanoseconds then some (timeout.nanoseconds / 1000000).toNat else none

/-- A command, limited in time unless the timeout is zero. -/
def command (name : Bytes) (args : List Bytes) (timeout : Duration) : Generator :=
  fun folder paths => do
    let program := if name.isEmpty then defaultCommand else name
    let limit := milliseconds? timeout
    let p : Process :=
      { program, arguments := args ++ tableArguments, folder
        input := Bytes.join [10] paths ++ [10], limit }
    let failed := fun (o : Process.Outcome) (cause : Fault) =>
      { text := o.printed
        failure := some (.during (lit "ctags " ++ program)
          (.processSaid cause (complaintTail o.complaint))) : Output }
    let late := Fault.during (lit "ctags: timed out after " ++ timeout.format) .deadline
    if (← get).interrupt == some 0 then
      pure { text := [], failure := some (.during (lit "ctags") .canceled) }
    else if limit == some 0 then pure { text := [], failure := some late }
    else
      match ← Run.attempt p.run with
      | .error f => pure (failed {} f)
      | .ok o =>
        if o.late then pure { text := o.printed, failure := some late }
        else
          match o.ended with
          | none => pure { text := o.printed }
          | some e => pure (failed o (.process e))

def ofChoice (g : CSource.Grammar) : Choice → Generator
  | .command name args timeout => command name args timeout
  | .scanner timeout => ofGrammar g timeout

end Generator

end SymbolHistory
