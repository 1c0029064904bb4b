/-
# CommandLine -- the commands of the program

A setting is taken from its flag, else from a variable of the environment, else
it has its usual value.  A command prints what it did; reports of the level that
is asked for go to a log.  `run` is the program: it turns words and a machine
into what was printed, what was logged, the failure that ended it, and the
machine afterwards.
-/
import SymbolHistory.Bundle
import SymbolHistory.CommandLine.Command
import SymbolHistory.Pipeline

set_option autoImplicit false

namespace SymbolHistory

namespace CommandLine

def programVersion : Bytes := lit "0.1.0-dev"

/-- How the names of the program's variables begin. -/
def variableHead : Bytes := lit "SOURCEDIGGER_"

def defaultDatabase : Bytes := lit "sourcedigger-db"

/-- How long a generator may take unless something else is said: half an hour. -/
def defaultTimeout : Duration := ⟨30 * 60 * 1000000000⟩

namespace Invocation

/-! ## Settings -/

def last? (i : Invocation) (name : String) : Option Bytes :=
  ((i.given.filter fun g => g.1 == lit name).getLast?).map (·.2)

def values (i : Invocation) (name : String) : List Bytes :=
  (i.given.filter fun g => g.1 == lit name).map (·.2)

/-- The value given last, or a usual one. -/
def value (i : Invocation) (name : String) (usual : String) : Bytes := (i.last? name).getD (lit usual)

/-- The variable of a setting: capitals, and underscores for dashes. -/
def variableName (name : String) : Bytes :=
  variableHead ++ (lit name).map fun b =>
    if b == 45 then 95 else if 97 ≤ b && b ≤ 122 then b - 32 else b

/-- A setting from the environment; an empty one does not count. -/
def environment? (h : Host) (name : String) : Option Bytes :=
  (h.valueOf (variableName name)).filter fun v => !v.isEmpty

/-- A setting: given, from the environment, or the usual one. -/
def setting (i : Invocation) (h : Host) (name : String) (usual : Bytes) : Bytes :=
  ((i.last? name).or (environment? h name)).getD usual

def database (i : Invocation) (h : Host) : Bytes := i.setting h "db" defaultDatabase

/-- The whole part of a decimal fraction. -/
def wholePart (s : Bytes) : Bytes :=
  let (sign, body) := s.span fun b => b == 43 || b == 45
  match Bytes.cutByte 46 body with
  | some (whole, fraction) =>
    if sign.length ≤ 1 && whole.all Bytes.isDigit && fraction.all Bytes.isDigit then
      sign ++ (if whole.isEmpty then [48] else whole)
    else s
  | none => s

/-- A number that was given, or one from the environment; anything else counts as zero. -/
def workers (i : Invocation) (h : Host) : Int :=
  match i.last? "workers", environment? h "workers" with
  | some v, _ => ((IntegerLiteral.signed v).toOption).getD 0
  | none, some v => ((IntegerLiteral.signed (wholePart v)).toOption).getD 0
  | none, none => 0

/-- The least level of reports that are logged. -/
def level (i : Invocation) (h : Host) : Journal.Level :=
  .ofName (i.setting h "log-level" (lit "info"))

def format (i : Invocation) (h : Host) : Journal.Format :=
  .ofName (i.setting h "log-format" (lit "text"))

def operand (i : Invocation) : Bytes := i.operands.headD []

def openProject (i : Invocation) : Run Project := do
  Project.open (i.database (← get)) i.operand

/-! ## Commands -/

def showVersion : Run Unit := Host.print (programName ++ [32] ++ programVersion ++ [10])

def absolute (h : Host) (p : Bytes) : Bytes :=
  if Path.isAbsolute p then Path.clean p else Path.join [h.folder, p]

def newConfig (i : Invocation) (h : Host) : Config :=
  let timeout := (i.last? "timeout").bind fun t => (Duration.read t).toOption
  let workers := (i.last? "index-workers").bind fun n => (IntegerLiteral.signed n).toOption
  { name := i.operand
    origin := i.value "origin" ""
    sourceViewer := i.value "source-viewer" ""
    index :=
      { repo := absolute h (i.value "repo" "")
        tagPattern := i.value "tag-pattern" ""
        filePattern := i.value "file-pattern" ""
        fileGlobs := i.values "file-glob"
        sort := i.value "sort" ""
        workers := workers.getD 0 }
    generator :=
      { kind := i.value "generator" "ctags"
        command := i.value "ctags" ""
        args := i.values "ctags-arg"
        timeout := timeout.getD defaultTimeout } }

def register (i : Invocation) : Run Unit := do
  if (i.value "repo" "").isEmpty then throw (.other (lit "init: --repo is required"))
  let h ← get
  let p ← Project.create (i.database h) (i.newConfig h)
  Host.print (lit "Registered " ++ p.config.name ++ lit " at " ++ p.layout.root ++ [10])

def listProjects (i : Invocation) : Run Unit := do
  let db := i.database (← get)
  (← Project.list db).forM fun name => do
    let p ← Project.open db name
    let m ← p.lastRun
    if m.latestVersion.isEmpty then Host.print (name ++ lit "\tnot indexed\n")
    else
      Host.print (name ++ [9] ++ m.initialVersion ++ lit ".." ++ m.latestVersion ++ [9] ++
        Decimal.ofInt m.tags ++ lit " tags\n")

/-- Print a line about each tag that would be indexed, and complain about those left out. -/
def listTags (i : Invocation) : Run Unit := do
  let p ← i.openProject
  let source ← Pipeline.openSource p.config
  let (tags, collided) ← Pipeline.selectTags source p.config
  tags.forM fun t =>
    let time : Timestamp := { seconds := t.time, nanoseconds := 0, offset := 0 }
    Host.print (t.name ++ [9] ++ ObjectId.brief t.commit ++ [9] ++ time.format ++ [10])
  collided.forM fun t =>
    Host.complain (lit "skipping " ++ t.name ++ lit ": diff file name already taken\n")

/-- Write what was counted to a file, in one step. -/
def writeMetrics (path : Bytes) : Run Unit := do
  let text := ((← get).metrics.map Metrics.text).getD []
  let work : Run Unit := do
    let temporary ← Host.createTemporary (Path.dir path) (Path.base path)
    Run.ensuring (do Host.append temporary text; Host.rename temporary path)
      (Host.removeFile temporary)
  match ← Run.attempt work with
  | .ok _ => pure ()
  | .error f => throw (.metricsFile path f)

def index (i : Invocation) : Run Unit := do
  let p ← i.openProject
  modify fun h => { h with metrics := some { project := p.config.name } }
  let h ← get
  let outcome ← Run.attempt (Pipeline.run p { workers := i.workers h, now := h.clock })
  let path := i.setting h "metrics-file" []
  let written ← if path.isEmpty then pure (.ok ()) else Run.attempt (writeMetrics path)
  let o ← Run.ofExcept outcome
  Run.ofExcept written
  let elapsed : Duration := ⟨0⟩
  let n := Decimal.ofNat
  Host.print (lit "Indexed " ++ n o.tags.length ++ lit " tags (" ++ n o.skipped.length ++
    lit " skipped) in " ++ elapsed.format ++ [10])
  Host.print (lit "  objects: " ++ n o.objects ++ lit " (" ++ n o.created ++ lit " new)\n")
  Host.print (lit "  symbols: " ++ n o.symbols ++ lit " new\n")
  Host.print (lit "  diffs:   " ++ n o.diffs ++ lit " new, " ++ n o.existing ++ lit " existing\n")

/-- Make the symbol files that are missing from the tag table. -/
def resplit (i : Invocation) : Run Unit := do
  let p ← i.openProject
  let o : Organizer := { layout := p.layout, generator := Generator.scanner ⟨0⟩ }
  o.splitCombined
  let t := (← get).tally.organizing
  if 0 < t.files then
    let _ ← NameList.build p.layout
  let n := Decimal.ofNat
  Host.print (lit "Wrote " ++ n t.files ++ lit " tag files (" ++ n t.symbols ++ lit " symbols), " ++
    n t.skipped ++ lit " already present\n")

/-- A number that takes at least some columns. -/
def column (width : Nat) (n : Nat) : Bytes :=
  let digits := Decimal.ofNat n
  List.replicate (width - digits.length) 32 ++ digits

def listBundle (path : Bytes) : Run Unit := do
  let d := Bundle.files (Bundle.decode (← Bundle.openFile path))
  match d.failure with
  | some f => throw f
  | none => d.items.forM fun m => Host.print (column 8 m.size ++ [32, 32] ++ m.name ++ [10])

def exportBundle (i : Invocation) : Run Unit := do
  let p ← i.openProject
  let output := i.value "output" ""
  let output := if output.isEmpty then p.config.name ++ lit ".tar.zst" else output
  let s ← Bundle.exportFile p.layout output
  Host.print (lit "Wrote " ++ output ++ lit ": " ++ Decimal.ofNat s.files ++ lit " files, " ++
    Decimal.ofNat s.bytes ++ lit " bytes before compression\n")
  if (i.last? "list").any fun v => Flag.truth? v == some true then listBundle output

def importBundle (i : Invocation) : Run Unit := do
  let db := i.database (← get)
  let b ← Bundle.openFile i.operand
  match ← Bundle.extract db b with
  | (_, some f) => throw (f.within (lit "import " ++ i.operand))
  | (n, none) =>
    Host.print (lit "Imported " ++ Decimal.ofNat n ++ lit " files into " ++ db ++ [10])

def perform (i : Invocation) : Run Unit :=
  match i.command with
  | some .version => showVersion
  | some .init => i.register
  | some .projects => i.listProjects
  | some .tags => i.listTags
  | some .index => i.index
  | some .resplit => i.resplit
  | some .«export» => i.exportBundle
  | some .«import» => i.importBundle
  | some .help | some .completion | none => pure ()

end Invocation

/-! ## The program -/

/-- What the program did. -/
structure Report where
  printed : Bytes := []
  complaint : Bytes := []
  log : List Journal.Entry := []
  format : Journal.Format := .text
  failure : Option Fault := none
  deriving Repr, DecidableEq

/-- A machine on which nothing has been said or counted yet. -/
def fresh (h : Host) : Host :=
  { h with
    journal := []
    printed := []
    complaints := []
    context := []
    progress := []
    metrics := none
    tally := {} }

/-- The machine `after` some work, with what had been said and counted `before`. -/
def restored (before after : Host) : Host :=
  { after with
    journal := before.journal
    printed := before.printed
    complaints := before.complaints
    context := before.context
    progress := before.progress
    metrics := before.metrics
    tally := before.tally }

def run (words : List Bytes) (h : Host) : Report × Host :=
  match Invocation.ofWords words with
  | .error f => ({ failure := some f }, h)
  | .ok i =>
    let (outcome, after) := i.perform.run (fresh h)
    let least := (i.level h).number
    ({ printed := after.printed.reverse.flatten
       complaint := after.complaints.reverse.flatten
       log := after.journal.reverse.filter fun e => least ≤ e.level.number
       format := i.format h
       failure := match outcome with | .ok _ => none | .error f => some f },
     restored h after)

end CommandLine

end SymbolHistory
