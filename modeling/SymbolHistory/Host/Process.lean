/-
# Host.Process -- running other programs

A program is found by its path, or by its name in the folders that the
environment lists.  It runs in a folder on an input and leaves behind what it
printed, what it complained about, the files it changed, and how it ended.

Starting a program is a checkpoint.  A program that is started and fed piece by
piece (`Process.Live`) does at any time what it would do on the input so far, so
its output is a function of what it has been given.
-/
import SymbolHistory.Duration
import SymbolHistory.Git.Command
import SymbolHistory.Git.Stream
import SymbolHistory.Host
import SymbolHistory.Shell.Run

set_option autoImplicit false

namespace SymbolHistory

structure Process where
  program : Bytes
  arguments : List Bytes
  /-- Where it runs; the working folder if there is no path. -/
  folder : Bytes := []
  input : Bytes := []
  /-- How many milliseconds it may take. -/
  limit : Option Nat := none
  deriving Repr, DecidableEq

namespace Process

structure Outcome where
  printed : Bytes := []
  complaint : Bytes := []
  /-- How it ended, if it did not succeed. -/
  ended : Option ProcessEnd := none
  /-- It was stopped because its time was up. -/
  late : Bool := false
  /-- It ended before it had seen the end of its input. -/
  early : Bool := false
  deriving Repr, DecidableEq

/-! ## Finding -/

def start (h : Host) (p : Process) : Shell.State :=
  let folder := if p.folder.isEmpty then h.folder else Path.ofSteps true (h.locate p.folder)
  { tree := h.tree, folder, bindings := h.environment, arguments := p.arguments,
    zero := p.program, input := p.input, limit := p.limit }

/-- The interpreter that the first line of a script names. -/
def interpreter? (text : Bytes) : Option Bytes :=
  (Bytes.after? (lit "#!") (text.takeWhile (· != 10))).map fun l =>
    (l.dropWhile (· == 32)).takeWhile (fun b => b != 32)

inductive Program where
  | utility (name : Bytes)
  | script (path text : Bytes)
  | archive
  deriving Repr, DecidableEq

/-- The program at a path that has been found, or why it cannot be started. -/
def ofFound (s : Shell.State) (path : Bytes) : Shell.Found → Except Fault Program
  | .program name => .ok (if name == lit "git" then .archive else .utility name)
  | .script path text =>
    match interpreter? text with
    | none => .error (.system (lit "fork/exec") path .execFormat)
    | some i =>
      match Shell.findPath s i with
      | .program _ | .script .. => .ok (.script path text)
      | .unusable _ e => .error (.system (lit "fork/exec") path e)
      | .missing => .error (.system (lit "fork/exec") path .noEntry)
  | .unusable path e => .error (.system (lit "fork/exec") path e)
  | .missing =>
    .error (.other (lit "exec: " ++ Quoted.quote path ++ lit ": executable file not found in $PATH"))

/-- The program with a name or path, or why it cannot be started. -/
def find (s : Shell.State) (name : Bytes) : Except Fault Program :=
  if name.isEmpty || name == Path.here || name == Path.parent then ofFound s name .missing
  else ofFound s name (Shell.find s name)

/-! ## Running -/

def endOf (s : Shell.State) : Except Shell.Stop Unit → Option ProcessEnd
  | .error (.signal n) => some (.signal n)
  | .error (.exit 0) => none
  | .error (.exit code) => some (.exit code)
  | _ => if s.status == 0 then none else some (.exit s.status)

def perform (s : Shell.State) (work : Shell.Step Unit) : Outcome × FileTree :=
  let (r, s) := work.run s
  ({ printed := s.printed.reverse.flatten
     complaint := s.complained.reverse.flatten
     ended := endOf s r
     late := s.limit.any fun limit => limit ≤ s.clock
     early := !s.drained }, s.tree)

/-- The repository that a folder belongs to: the nearest one on the way up that is at the folder
or in its hidden folder. -/
def repository? (h : Host) : Nat → Location → Option Git.Repository
  | 0, _ => none
  | fuel + 1, l =>
    let at? : Location → Option Git.Repository := fun l =>
      match h.tree.get? (l ++ [lit "HEAD"]) with
      | some (.file ..) => (h.repositories.find? (fun r => r.1 == l)).map (·.2)
      | _ => none
    ((at? (l ++ [lit ".git"])).orElse fun _ => at? l).orElse fun _ =>
      if l.isEmpty then none else repository? h fuel l.dropLast

/-- What the program of the version archives does. -/
def askArchive (h : Host) (folder : Bytes) (args : List Bytes) (input : Bytes) : Git.Answer :=
  match args with
  | flag :: there :: args =>
    if flag == lit "-C" then
      let place := if there.isEmpty then folder else
        if Path.isAbsolute there then there else Path.join [folder, there]
      match h.tree.find (h.locate place) with
      | .error .notDirectory | .ok (.file ..) =>
        .fatal (lit "cannot change to '" ++ there ++ lit "': Not a directory")
      | .error _ => .fatal (lit "cannot change to '" ++ there ++ lit "': No such file or directory")
      | .ok .folder =>
        let l := h.locate place
        match repository? h (l.length + 1) l with
        | some r => r.answer args input
        | none => .fatal (lit "not a git repository (or any of the parent directories): .git")
    else .fatal (lit "not a git repository (or any of the parent directories): .git")
  | _ => { status := 1 }

/-- What a program that has been found does, and the files afterwards. -/
def carryOut (h : Host) (p : Process) (found : Program) : Outcome × FileTree :=
  let s := start h p
  match found with
  | .archive =>
    let a := askArchive h s.folder p.arguments p.input
    ({ printed := a.printed, complaint := a.complaint,
       ended := if a.status == 0 then none else some (.exit a.status) }, h.tree)
  | .utility name =>
    if name == lit "sh" || name == lit "dash" || name == lit "bash" then
      perform s (Shell.runShell Shell.stepLimit p.program p.arguments)
    else
      match (Shell.objection? name p.arguments).or (Shell.program? name p.arguments) with
      | some work => perform s do Shell.setStatus (← work)
      | none => ({ ended := some (.exit 127) }, h.tree)
  | .script path text => perform { s with zero := path } (Shell.runScript Shell.stepLimit text)

/-- Find a program and the folder it runs in; the work can be called off before it starts. -/
def launch (p : Process) : Run Program := do
  let h ← get
  let found ← Run.ofExcept (find (start h p) p.program)
  Run.checkpoint
  if !p.folder.isEmpty then
    match h.look p.folder with
    | .error e => throw (.system (lit "chdir") p.folder e)
    | .ok (.file ..) => throw (.system (lit "fork/exec") p.program .notDirectory)
    | .ok .folder => pure ()
  pure found

def run (p : Process) : Run Outcome := do
  let found ← p.launch
  let h ← get
  let (o, tree) := carryOut h p found
  set { h with tree }
  pure o

/-! ## Programs that are fed piece by piece -/

/-- A program that is running. -/
structure Live where
  process : Process
  found : Program
  /-- The machine as it was when the program started. -/
  machine : Host
  /-- What it has done so far. -/
  outcome : Outcome
  /-- How much of what it printed has been read. -/
  taken : Nat := 0

/-- Start a program that has been given nothing yet. -/
def begin (p : Process) : Run Live := do
  let found ← p.launch
  let machine ← get
  let (outcome, tree) := carryOut machine p found
  set { machine with tree }
  pure { process := p, found, machine, outcome }

namespace Live

/-- The program has ended although its input has not. -/
def isOver (l : Live) : Bool := l.outcome.early

def feed (l : Live) (data : Bytes) : Live :=
  let process := { l.process with input := l.process.input ++ data }
  { l with process, outcome := (carryOut l.machine process l.found).1 }

/-- What it has printed and nobody has read. -/
def unread (l : Live) : Bytes := l.outcome.printed.drop l.taken

def take (l : Live) (n : Nat) : Live := { l with taken := l.taken + n }

end Live

end Process

def Host.importRepository (path stream : Bytes) : Run Unit := do
  Host.makeFolders path
  let inside := fun (name : String) => Path.join [path, lit name]
  Host.makeFolders (inside "objects")
  Host.makeFolders (inside "refs")
  Host.writeFile (inside "HEAD") (lit "ref: refs/heads/master\n") false
  let h ← get
  let at_ := h.locate path
  match Git.Repository.ofStream stream with
  | none => throw (.process (.exit Git.Answer.fatalStatus))
  | some r => set { h with repositories := (at_, r) :: h.repositories.filter (fun p => p.1 != at_) }

end SymbolHistory
