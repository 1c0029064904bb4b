/-
# CommandLine.Command -- which command is meant

The first word that is neither a flag nor a flag's value names the command.
Flags that every command takes may stand before or after it, a command's own
flags after it.  A name that no command has is an error that lists the commands
with similar names.
-/
import SymbolHistory.CommandLine.Flag
import SymbolHistory.Text.LetterCase

set_option autoImplicit false

namespace SymbolHistory

namespace CommandLine

def programName : Bytes := lit "sourcedigger"

inductive Command where
  | version
  | init
  | projects
  | tags
  | index
  | resplit
  | «export»
  | «import»
  | help
  | completion
  deriving Repr, DecidableEq

inductive Operands where
  | any
  | none
  | one
  deriving Repr, DecidableEq

def commonFlags : List Flag :=
  [{ name := lit "db" }, { name := lit "log-level" }, { name := lit "log-format" },
   { name := lit "workers", kind := .whole }, { name := lit "quiet", kind := .switch },
   { name := lit "metrics-file" }]

def helpFlag : Flag := { name := lit "help", letter := some 104, kind := .switch }

namespace Command

/-- All commands, in the order in which similar names are listed. -/
def all : List Command :=
  [version, init, projects, tags, index, resplit, «export», «import», help, completion]

def name : Command → Bytes
  | version => lit "version"
  | init => lit "init"
  | projects => lit "projects"
  | tags => lit "tags"
  | index => lit "index"
  | resplit => lit "resplit"
  | «export» => lit "export"
  | «import» => lit "import"
  | help => lit "help"
  | completion => lit "completion"

def ofName? (s : Bytes) : Option Command := all.find? (fun c => c.name == s)

def ownFlags : Command → List Flag
  | init =>
    [{ name := lit "repo" }, { name := lit "origin" }, { name := lit "source-viewer" },
     { name := lit "tag-pattern" }, { name := lit "file-pattern" }, { name := lit "file-glob" },
     { name := lit "sort" }, { name := lit "index-workers", kind := .whole },
     { name := lit "generator" }, { name := lit "ctags" }, { name := lit "ctags-arg" },
     { name := lit "timeout", kind := .duration }]
  | «export» =>
    [{ name := lit "output", letter := some 111 }, { name := lit "list", kind := .switch }]
  | _ => []

def flags (c : Command) : List Flag := c.ownFlags ++ commonFlags ++ [helpFlag]

def operands : Command → Operands
  | init | tags | index | resplit | «export» | «import» => .one
  | projects => .none
  | version | help | completion => .any

/-! ## Similar names -/

/-- The next row of the table of distances: `left` is its first entry, `above` the row before. -/
def nextRow (a : UInt8) : Nat → List Nat → Bytes → List Nat
  | left, diagonal :: above :: row, b :: rest =>
    let here := if a == b then diagonal else 1 + min (min left above) diagonal
    left :: nextRow a here (above :: row) rest
  | left, _, _ => [left]

/-- How many insertions, removals and replacements turn one text into another. -/
def distance (s t : Bytes) : Nat :=
  let start := List.range (t.length + 1)
  let (row, _) := s.foldl (fun p a => (nextRow a (p.2 + 1) p.1 t, p.2 + 1)) (start, 0)
  row.getLast?.getD 0

/-- How far apart similar names are at most. -/
def maxDistance : Nat := 2

/-- Commands whose names are near a word or start with it. -/
def similar (word : Bytes) : List Command :=
  let small := LetterCase.lowerText word
  all.filter fun c =>
    c != help && (distance small c.name ≤ maxDistance || Bytes.startsWith small c.name)

def unknown (word within : Bytes) : Fault :=
  .other (lit "unknown command " ++ Quoted.quote word ++ lit " for " ++ Quoted.quote within)

/-- No command of the program has this name; those with similar names are listed. -/
def unknownHere (word : Bytes) : Fault :=
  let near := similar word
  let hint := if near.isEmpty then [] else
    lit "\n\nDid you mean this?\n" ++ near.flatMap fun c => [9] ++ c.name ++ [10]
  .other ((unknown word programName).message ++ hint)

end Command

structure Invocation where
  command : Option Command
  given : Given
  operands : List Bytes
  deriving Repr, DecidableEq

def checkOperands (c : Command) (operands : List Bytes) : Except Fault Unit :=
  match c.operands, operands with
  | .any, _ => .ok ()
  | .none, [] => .ok ()
  | .none, word :: _ => .error (Command.unknown word (programName ++ [32] ++ c.name))
  | .one, [_] => .ok ()
  | .one, _ =>
    .error (.other (lit "accepts 1 arg(s), received " ++ Decimal.ofNat operands.length))

def asksForHelp (given : Given) : Bool :=
  ((given.filter fun g => g.1 == helpFlag.name).getLast?).any fun g => Flag.truth? g.2 == some true

/-- What some words mean.  Without a command there is nothing to do. -/
def Invocation.ofWords (words : List Bytes) : Except Fault Invocation := do
  let read := fun (flags : List Flag) (words : List Bytes) =>
    Flag.readAll flags (words.length + 1) words
  match Flag.otherWords commonFlags words with
  | [] =>
    let (given, operands) ← read (commonFlags ++ [helpFlag]) words
    pure ⟨none, given, operands⟩
  | word :: _ =>
    match Command.ofName? word with
    | none => throw (Command.unknownHere word)
    | some c =>
      let (given, operands) ← read c.flags (Flag.withoutFirst commonFlags word words)
      if asksForHelp given || c == .completion then pure ⟨none, given, operands⟩
      else
        checkOperands c operands
        pure ⟨some c, given, operands⟩

end CommandLine

end SymbolHistory
