/-
# Fault -- why an operation failed

One type holds every cause, from a malformed line to a missing file.  A cause
keeps its data; `Fault.message` is the only place that puts it into words, and
`Fault.kind` the only place that classifies it.  Callers add where they were
with `Fault.during`, which leaves the kind alone.
-/
import SymbolHistory.Text.Decimal
import SymbolHistory.Pattern.Problem

set_option autoImplicit false

namespace SymbolHistory

/-- What the operating system can object to. -/
inductive SystemError where
  | noEntry
  | notDirectory
  | isDirectory
  | exists
  | notEmpty
  | nameTooLong
  | invalidArgument
  | permission
  | brokenPipe
  | execFormat
  | noSpace
  deriving Repr, DecidableEq

def SystemError.message : SystemError → Bytes
  | noEntry => lit "no such file or directory"
  | notDirectory => lit "not a directory"
  | isDirectory => lit "is a directory"
  | «exists» => lit "file exists"
  | notEmpty => lit "directory not empty"
  | nameTooLong => lit "file name too long"
  | invalidArgument => lit "invalid argument"
  | permission => lit "permission denied"
  | brokenPipe => lit "broken pipe"
  | execFormat => lit "exec format error"
  | noSpace => lit "no space left on device"

inductive ProcessEnd where
  | exit (code : Nat)
  | signal (number : Nat)
  deriving Repr, DecidableEq

def ProcessEnd.signalNames : List (Nat × String) :=
  [(1, "hangup"), (2, "interrupt"), (3, "quit"), (4, "illegal instruction"),
   (5, "trace/breakpoint trap"), (6, "aborted"), (7, "bus error"), (8, "floating point exception"),
   (9, "killed"), (10, "user defined signal 1"), (11, "segmentation fault"),
   (12, "user defined signal 2"), (13, "broken pipe"), (14, "alarm clock"), (15, "terminated")]

def ProcessEnd.message : ProcessEnd → Bytes
  | exit code => lit "exit status " ++ Decimal.ofNat code
  | signal number =>
    lit "signal: " ++
      match signalNames.find? (fun n => n.1 == number) with
      | some n => lit n.2
      | none => lit "signal " ++ Decimal.ofNat number

/-- Which reader of numbers objects. -/
inductive NumberReader where
  | small
  | wide
  | truth
  deriving Repr, DecidableEq

def NumberReader.label : NumberReader → Bytes
  | small => lit "strconv.Atoi"
  | wide => lit "strconv.ParseInt"
  | truth => lit "strconv.ParseBool"

inductive Fault where
  /-- The work was called off. -/
  | canceled
  /-- The work took too long. -/
  | deadline
  /-- A failure that only has a text, such as a generator's own. -/
  | other (text : Bytes)
  /-- A defect of the caller's input that no operation recovers from. -/
  | defect (text : Bytes)
  /-- A text that is not the number it should be. -/
  | number (reader : NumberReader) (text : Bytes) (reason : Decimal.Reason)
  /-- A regular expression that cannot be read. -/
  | pattern (problem : Pattern.Problem)
  /-- A name that is no content hash. -/
  | invalidId (id : Bytes)
  /-- Content that does not have the hash it is filed under. -/
  | hashMismatch (want got : Bytes)
  /-- A tag that the source does not have. -/
  | unknownTag (name : Bytes)
  /-- A tag whose tree cannot be found. -/
  | unresolvable (detail : Bytes)
  /-- Content that the source does not have. -/
  | blobNotFound (id : Bytes)
  /-- A directory that holds no project. -/
  | noProject
  /-- A settings file that is not there. -/
  | projectNotFound (path : Bytes)
  /-- A project that is already there. -/
  | projectExists (name : Bytes)
  /-- Two tags whose diffs would share a file. -/
  | nameCollision (name : Bytes)
  /-- Settings that are no well-formed document, or hold a value of the wrong type. -/
  | settings (text : Bytes)
  /-- The operating system refused an operation on a path. -/
  | system (operation path : Bytes) (error : SystemError)
  /-- A process did not succeed. -/
  | process (ended : ProcessEnd)
  /-- A process did not succeed and said why. -/
  | processSaid (cause : Fault) (text : Bytes)
  /-- The metrics file could not be written. -/
  | metricsFile (path : Bytes) (cause : Fault)
  /-- What was going on when the cause arose. -/
  | during (activity : Bytes) (cause : Fault)
  deriving Repr, DecidableEq

namespace Fault

/-- A settings value or argument that is refused, in the words of the refusal. -/
def message : Fault → Bytes
  | canceled => lit "context canceled"
  | deadline => lit "context deadline exceeded"
  | other text => text
  | defect text => text
  | number reader text reason =>
    reader.label ++ lit ": parsing " ++ Quoted.quote text ++ lit ": " ++ reason.message
  | pattern problem => problem.message
  | invalidId id => lit "invalid object id: " ++ Quoted.quote id
  | hashMismatch want got =>
    lit "object content does not match id: want " ++ want ++ lit ", got " ++ got
  | unknownTag name => lit "revision cannot be resolved: tag not found: " ++ name
  | unresolvable detail => lit "revision cannot be resolved: " ++ detail
  | blobNotFound id => lit "blob not found: " ++ id
  | noProject => lit "project not found"
  | projectNotFound path => lit "project not found: " ++ path
  | projectExists name => lit "project already exists: " ++ name
  | nameCollision name => lit "symdiff: tags share a diff file name: " ++ name
  | settings text => text
  | system operation path error => operation ++ lit " " ++ path ++ lit ": " ++ error.message
  | process ended => ended.message
  | processSaid cause text => cause.message ++ lit ": " ++ text
  | metricsFile path cause => lit "write metrics " ++ path ++ lit ": " ++ cause.message
  | during activity cause => activity ++ lit ": " ++ cause.message

/-- The classes of causes that callers tell apart. -/
inductive Kind where
  | metrics
  | invalidId
  | hashMismatch
  | tagNotFound
  | unresolvable
  | blobNotFound
  | projectNotFound
  | projectExists
  | nameCollision
  | canceled
  | deadline
  | missingFile
  | settings
  | pattern
  | number
  | defect
  | other
  deriving Repr, DecidableEq

def cause : Fault → Kind
  | Fault.canceled => .canceled
  | Fault.deadline => .deadline
  | Fault.other _ => .other
  | Fault.defect _ => .defect
  | Fault.number .. => .number
  | Fault.pattern _ => .pattern
  | Fault.invalidId _ => .invalidId
  | Fault.hashMismatch .. => .hashMismatch
  | unknownTag _ => .tagNotFound
  | Fault.unresolvable _ => .unresolvable
  | Fault.blobNotFound _ => .blobNotFound
  | noProject => .projectNotFound
  | Fault.projectNotFound _ => .projectNotFound
  | Fault.projectExists _ => .projectExists
  | Fault.nameCollision _ => .nameCollision
  | Fault.settings _ => .settings
  | system _ _ .noEntry => .missingFile
  | system _ _ _ => .other
  | process _ => .other
  | processSaid c _ => c.cause
  | metricsFile _ c => c.cause
  | during _ c => c.cause

/-- The class of a failure: a failed metrics file counts as such whatever made it fail. -/
def kind : Fault → Kind
  | metricsFile .. => .metrics
  | f => f.cause

/-- Some file or directory on the way was missing. -/
def isMissingFile (f : Fault) : Bool := f.cause == .missingFile

/-- A tag leads nowhere. -/
def isUnresolvable (f : Fault) : Bool := f.cause == .unresolvable || f.cause == .tagNotFound

/-- The failure with what was going on; a defect is not caught on the way. -/
def within (activity : Bytes) : Fault → Fault
  | defect text => defect text
  | f => during activity f

def ofNumber {α : Type} (reader : NumberReader) (text : Bytes) :
    Except Decimal.Reason α → Except Fault α
  | .ok a => .ok a
  | .error reason => .error (.number reader text reason)

end Fault

/-- What a reader delivers: the items read before it stopped, and what stopped it early. -/
structure Delivery (α : Type) where
  items : List α
  failure : Option Fault
  deriving Repr, DecidableEq

namespace Delivery

/-- What a consumer gets that refuses the item after the first `n` of them. -/
def refusing {α : Type} (n : Nat) (refusal : Fault) (d : Delivery α) : Delivery α :=
  if n < d.items.length then ⟨d.items.take n, some refusal⟩ else d

end Delivery

/-- A text to be read, and the failure that waits at its end. -/
structure Input where
  data : Bytes
  failure : Option Fault := none
  deriving Repr, DecidableEq

/-- Only the first `n` bytes can be read, then reading fails. -/
def Input.failingAfter (n : Nat) (failure : Fault) (data : Bytes) : Input :=
  ⟨data.take n, some failure⟩

end SymbolHistory
