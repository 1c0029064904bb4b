/-
# Host -- the machine an index is made on

The host holds the files, the environment, what has been reported so far, and
the two ways in which work can be cut short: being called off, and running out
of room.  A `Run` is work on a host.  It changes the host step by step, and a run
that fails leaves behind what its steps did before the failure.

Work is called off at checkpoints: `interrupt = some n` lets `n` of them pass
and stops the work at the next and at every later one.
-/
import SymbolHistory.Git.Repository
import SymbolHistory.Host.FileTree
import SymbolHistory.Host.Tally
import SymbolHistory.Journal
import SymbolHistory.Metrics
import SymbolHistory.Timestamp

set_option autoImplicit false

namespace SymbolHistory

/-- How far a stage has come. -/
structure Progress where
  stage : Bytes
  total : Int
  added : Nat := 0
  finished : Bool := false
  deriving Repr, DecidableEq

structure Host where
  tree : FileTree := {}
  /-- The version archives and where they are. -/
  repositories : List (Location × Git.Repository) := []
  /-- The working folder. -/
  folder : Bytes := [Path.slash]
  environment : List (Bytes × Bytes) := []
  /-- How many checkpoints pass before work is called off. -/
  interrupt : Option Nat := none
  /-- How many more bytes can be written. -/
  room : Option Nat := none
  /-- The number of the next temporary file. -/
  temporary : Nat := 1
  /-- The number of the next run. -/
  runs : Nat := 1
  /-- How many things the machine does at a time. -/
  processors : Nat := 4
  /-- The time of day. -/
  clock : Timestamp := .zero
  /-- What was printed, latest first. -/
  printed : List Bytes := []
  /-- What was complained about, latest first. -/
  complaints : List Bytes := []
  /-- Reports, latest first. -/
  journal : List Journal.Entry := []
  /-- What every report of the current work carries. -/
  context : List Journal.Attribute := []
  /-- Stages, latest first. -/
  progress : List Progress := []
  metrics : Option Metrics := none
  /-- What the parts of the index remember. -/
  tally : Tally := {}
  deriving Repr, DecidableEq

/-- Work on a host that may fail. -/
abbrev Run := ExceptT Fault (StateM Host)

namespace Run

def during {α : Type} (activity : Bytes) (work : Run α) : Run α :=
  ExceptT.mk do
    match ← work.run with
    | .ok a => pure (.ok a)
    | .error f => pure (.error (f.within activity))

/-- What work comes to, failure included. -/
def attempt {α : Type} (work : Run α) : Run (Except Fault α) := ExceptT.lift work.run

/-- Do `cleanup` after `work`, whether it failed or not. -/
def ensuring {α : Type} (work : Run α) (cleanup : Run Unit) : Run α := do
  let outcome ← attempt work
  cleanup
  match outcome with
  | .ok a => pure a
  | .error f => throw f

def ofExcept {α : Type} : Except Fault α → Run α
  | .ok a => pure a
  | .error f => throw f

/-- Stop here if the work has been called off. -/
def checkpoint : Run Unit := do
  let h ← get
  match h.interrupt with
  | none => pure ()
  | some 0 => throw .canceled
  | some (n + 1) => set { h with interrupt := some n }

end Run

namespace Host

/-! ## Reports -/

/-- Report something with some attributes in front of its own. -/
def reportIn (context : List Journal.Attribute) (level : Journal.Level) (message : String)
    (attributes : List (String × Journal.Value)) : Run Unit :=
  modify fun h =>
    let own := attributes.map fun a => (lit a.1, a.2)
    { h with journal := ⟨level, lit message, context ++ own⟩ :: h.journal }

def report (level : Journal.Level) (message : String)
    (attributes : List (String × Journal.Value)) : Run Unit := do
  reportIn (← get).context level message attributes

/-- Work whose reports all carry some more attributes. -/
def withContext {α : Type} (attributes : List Journal.Attribute) (work : Run α) : Run α := do
  let before := (← get).context
  modify fun h => { h with context := before ++ attributes }
  Run.ensuring work (modify fun h => { h with context := before })

def print (text : Bytes) : Run Unit := modify fun h => { h with printed := text :: h.printed }

def complain (text : Bytes) : Run Unit :=
  modify fun h => { h with complaints := text :: h.complaints }

/-- A stage begins.  Its size may be unknown, which is shown as `-1`. -/
def startStage (stage : String) (total : Int) : Run Unit :=
  modify fun h => { h with progress := { stage := lit stage, total } :: h.progress }

def changeStage (f : Progress → Progress) : Run Unit :=
  modify fun h =>
    { h with
      progress :=
        match h.progress with
        | [] => []
        | p :: rest => f p :: rest }

def advanceStage : Run Unit := changeStage fun p => { p with added := p.added + 1 }

/-- Work that is a stage: it ends when the work does. -/
def stage {α : Type} (name : String) (total : Int) (work : Run α) : Run α := do
  startStage name total
  Run.ensuring work (changeStage fun p => { p with finished := true })

/-- Change what the parts remember. -/
def remember (f : Tally → Tally) : Run Unit := modify fun h => { h with tally := f h.tally }

/-- Count something, if anything is counted. -/
def count (f : Metrics → Metrics) : Run Unit :=
  modify fun h => { h with metrics := h.metrics.map f }

/-- A name for a run that no other run has. -/
def nextRunId : Run Bytes := do
  let h ← get
  set { h with runs := h.runs + 1 }
  pure (lit "00000000-0000-4000-8000-" ++ Bytes.hexNat 12 h.runs)

/-! ## Places -/

def locate (h : Host) (p : Bytes) : Location :=
  let steps := if Path.isAbsolute p then Path.steps p else Path.steps h.folder ++ Path.steps p
  Path.shortest true steps

def maxPath : Nat := 4095

/-- Why a path cannot even be looked for. -/
def pathFlaw (p : Bytes) : Option SystemError :=
  if p.isEmpty then some .noEntry
  else if p.elem 0 then some .invalidArgument
  else if maxPath < p.length then some .nameTooLong
  else none

def look (h : Host) (p : Bytes) : Except SystemError Node :=
  match pathFlaw p with
  | some e => .error e
  | none => h.tree.find (h.locate p)

/-- Whether something new can be made under a path. -/
def admits (h : Host) (p : Bytes) : Except SystemError Unit :=
  match pathFlaw p with
  | some e => .error e
  | none => h.tree.admits (h.locate p)

def valueOf (h : Host) (name : Bytes) : Option Bytes :=
  (h.environment.find? (fun v => v.1 == name)).map (·.2)

def setVariable (h : Host) (name value : Bytes) : Host :=
  { h with environment := (name, value) :: h.environment.filter (fun v => v.1 != name) }

/-! ## Files -/

/-- What the system says about `operation` on `p`. -/
def system {α : Type} (operation : String) (p : Bytes) : Except SystemError α → Run α
  | .ok a => pure a
  | .error e => throw (.system (lit operation) p e)

def isThere (p : Bytes) : Run Bool := do
  pure ((← get).look p).isOk

def readFile (p : Bytes) : Run Bytes := do
  match ← system "open" p ((← get).look p) with
  | .file content _ => pure content
  | .folder => throw (.system (lit "read") p .isDirectory)

/-- The names in a folder, in order, and whether each is a folder. -/
def readFolder (p : Bytes) : Run (List (Bytes × Bool)) := do
  let h ← get
  match ← system "open" p (h.look p) with
  | .file .. => throw (.system (lit "open") p .notDirectory)
  | .folder => pure ((h.tree.children (h.locate p)).map fun c => (c.1, c.2.isFolder))

def place (p : Bytes) (n : Node) : Run Unit :=
  modify fun h => { h with tree := h.tree.set (h.locate p) n }

def makeFolder (p : Bytes) : Run Unit := do
  let h ← get
  match h.look p with
  | .ok .folder => pure ()
  | .ok (.file ..) => throw (.system (lit "mkdir") p .notDirectory)
  | .error _ =>
    system "mkdir" p (h.admits p)
    place p .folder

def makeFolders (p : Bytes) : Run Unit := (Path.ancestors p).forM makeFolder

/-- Take room for some bytes that go to `p`. -/
def takeRoom (p : Bytes) (n : Nat) : Run Unit := do
  let h ← get
  match h.room with
  | none => pure ()
  | some free =>
    if free < n then throw (.system (lit "write") p .noSpace)
    else set { h with room := some (free - n) }

def append (p data : Bytes) : Run Unit := do
  takeRoom p data.length
  match (← get).look p with
  | .ok (.file content executable) => place p (.file (content ++ data) executable)
  | _ => pure ()

/-- Open a file to write at its end; it is made if it is not there. -/
def openAtEnd (p : Bytes) : Run Unit := do
  let h ← get
  match h.look p with
  | .ok (.file ..) => pure ()
  | .ok .folder => throw (.system (lit "open") p .isDirectory)
  | .error .noEntry =>
    system "open" p (h.admits p)
    place p (.file [] false)
  | .error e => throw (.system (lit "open") p e)

/-- Give a file new content; it is made if it is not there. -/
def writeFile (p data : Bytes) (executable : Bool) : Run Unit := do
  openAtEnd p
  takeRoom p data.length
  place p (.file data executable)

/-- A number under which no file of this kind is there yet, not below `start`. -/
def freshNumber (t : FileTree) (inside : Location) (stem : Bytes) (start : Nat) : Nat :=
  let free := fun (i : Nat) => (t.get? (inside ++ [stem ++ Decimal.ofNat (start + i)])).isNone
  start + ((List.range (t.nodes.length + 1)).find? free).getD 0

/-- Make an empty file in a folder, under a name that starts with `stem` and is new. -/
def createTemporary (inside stem : Bytes) : Run Bytes := do
  let h ← get
  let n := freshNumber h.tree (h.locate inside) stem h.temporary
  let p := (if Bytes.endsWith [Path.slash] inside then inside else inside ++ [Path.slash]) ++
    stem ++ Decimal.ofNat n
  set { h with temporary := n + 1 }
  system "open" p (h.admits p)
  place p (.file [] false)
  pure p

/-- Remove a file; nothing happens if it is not there. -/
def removeFile (p : Bytes) : Run Unit :=
  modify fun h =>
    match h.look p with
    | .ok (.file ..) => { h with tree := h.tree.erase (h.locate p) }
    | _ => h

def removeAll (p : Bytes) : Run Unit :=
  modify fun h => { h with tree := h.tree.eraseAll (h.locate p) }

/-- Move a file to another name, in place of a file that has it.  A folder keeps its name. -/
def rename (old new : Bytes) : Run Unit := do
  let h ← get
  let refuse := fun (e : SystemError) => throw (.system (lit "rename") (old ++ [32] ++ new) e)
  match h.look old with
  | .error e => refuse e
  | .ok node =>
    match h.look new with
    | .ok .folder => refuse .«exists»
    | _ =>
      match h.admits new with
      | .error e => refuse e
      | .ok _ =>
        set { h with tree := (h.tree.erase (h.locate old)).set (h.locate new) node }

end Host

end SymbolHistory
