/-
# Main -- the program

The program on a real machine: the files that a command can reach are read into
a tree, the command runs on the tree, and what it changed is written back.  No
other program is started from here, so a command that needs one is told that it
is not there.
-/
import SymbolHistory.CommandLine

set_option autoImplicit false

namespace SymbolHistory

namespace Main

def bytesOf (s : String) : Bytes := s.toUTF8.toList

def nameOf (b : Bytes) : String := (String.fromUTF8? ⟨b.toArray⟩).getD ""

/-- Add what is at a place and below it to a tree. -/
partial def load (tree : FileTree) (place : Bytes) : IO FileTree := do
  let here := (← IO.currentDir) / nameOf place
  if ← here.isDir then
    let tree := tree.set (Path.steps place) .folder
    (← here.readDir).foldlM (fun tree e => load tree (Path.join [place, bytesOf e.fileName])) tree
  else if ← here.pathExists then
    pure (tree.set (Path.steps place) (.file (← IO.FS.readBinFile here).toList false))
  else pure tree

/-- Add the folders on the way to a place to a tree. -/
def loadWay (tree : FileTree) (place : Bytes) : IO FileTree :=
  (Path.ancestors place).foldlM
    (fun tree p => do
      let here := (← IO.currentDir) / nameOf p
      if ← here.isDir then pure (tree.set (Path.steps p) .folder) else pure tree)
    tree

/-- Write back one place if it changed. -/
def store (before : FileTree) (l : Location) (n : Node) : IO Unit := do
  if before.get? l != some n then
    let here := (← IO.currentDir) / nameOf (Path.ofSteps true l)
    match n with
    | .folder => IO.FS.createDirAll here
    | .file content _ => IO.FS.writeBinFile here ⟨content.toArray⟩

def discard (after : FileTree) (l : Location) (n : Node) : IO Unit := do
  if !n.isFolder && (after.get? l).isNone then
    IO.FS.removeFile ((← IO.currentDir) / nameOf (Path.ofSteps true l))

def settingVariables : List String :=
  ["db", "log-level", "log-format", "workers", "quiet", "metrics-file"].map fun name =>
    nameOf (CommandLine.Invocation.variableName name)

/-- The places that a command can reach: the database, its operand and the files it writes. -/
def places (h : Host) (i : CommandLine.Invocation) : List Bytes :=
  let named := [i.database h, i.operand, i.value "output" "", i.setting h "metrics-file" []]
  (named.filter fun p => !p.isEmpty).map (CommandLine.Invocation.absolute h)

/-- The machine, as far as a command can reach it. -/
def machine (words : List Bytes) : IO Host := do
  let folder := bytesOf (← IO.currentDir).toString
  let values ← settingVariables.filterMapM fun name => do
    pure ((← IO.getEnv name).map fun v => (bytesOf name, bytesOf v))
  let h : Host := { folder, environment := values }
  match CommandLine.Invocation.ofWords words with
  | .error _ => pure h
  | .ok i =>
    let tree ← (places h i).foldlM (fun t p => do load (← loadWay t p) p) h.tree
    pure { h with tree := ← loadWay tree folder }

end Main

end SymbolHistory

open SymbolHistory in
def main (args : List String) : IO UInt32 := do
  let words := args.map Main.bytesOf
  let before ← Main.machine words
  let (report, after) := CommandLine.run words before
  after.tree.nodes.reverse.forM fun (l, n) => Main.store before.tree l n
  before.tree.nodes.forM fun (l, n) => Main.discard after.tree l n
  IO.print (Main.nameOf report.printed)
  IO.eprint (Main.nameOf (report.log.flatMap fun e => e.line report.format []))
  IO.eprint (Main.nameOf report.complaint)
  match report.failure with
  | none => pure 0
  | some f =>
    IO.eprintln (Main.nameOf f.message)
    pure 1
