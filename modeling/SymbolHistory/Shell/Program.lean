/-
# Shell.Program -- the programs that scripts call

A program reads its arguments and its input, prints, and ends with a status.
A name is looked for in the folders of the search path; a name with a slash in
it is a path.
-/
import SymbolHistory.Shell.Condition
import SymbolHistory.Shell.Filter

set_option autoImplicit false

namespace SymbolHistory

namespace Shell

def signalNumber (s : Bytes) : Nat :=
  let name := Bytes.withoutHead (lit "SIG") (Bytes.withoutHead [45] s)
  let known : List (String × Nat) :=
    [("HUP", 1), ("INT", 2), ("QUIT", 3), ("ABRT", 6), ("KILL", 9), ("ALRM", 14), ("TERM", 15)]
  match known.find? (fun k => lit k.1 == name) with
  | some k => k.2
  | none => Utility.digitsValue (name.takeWhile Bytes.isDigit)

/-- What a filter reads: its files one after the other, or its input. -/
def filterInput (files : List Bytes) : Step (Bytes × Nat) := do
  if files.isEmpty then pure (← takeInput, 0)
  else
    files.foldlM
      (fun (p : Bytes × Nat) file => do
        if file == [45] then pure (p.1 ++ (← takeInput), p.2)
        else
          match (← get).get? file with
          | some (.file content _) => pure (p.1 ++ content, p.2)
          | some .folder =>
            send (← get).second (lit "cat: " ++ file ++ lit ": Is a directory\n")
            pure (p.1, 1)
          | none =>
            send (← get).second (lit "cat: " ++ file ++ lit ": No such file or directory\n")
            pure (p.1, 1))
      ([], 0)

/-- A program that objects to its arguments. -/
def misused (name flaw : Bytes) (status : Nat) : Step Nat := do
  send (← get).second (name ++ lit ": " ++ flaw ++ lit "\nTry '" ++ name ++
    lit " --help' for more information.\n")
  pure status

/-- Programs that read options, with the status they end with if there is one they do not know. -/
def optionReaders : List (String × Nat) :=
  [("cat", 1), ("cut", 1), ("head", 1), ("tail", 1), ("wc", 1), ("sort", 2), ("basename", 1),
   ("dirname", 1), ("sleep", 1), ("env", 125), ("mkdir", 1), ("rm", 1), ("touch", 1), ("uniq", 1),
   ("tee", 1), ("ls", 2), ("pwd", 1)]

/-- What a program objects to in its arguments: the first long option, and for some programs
arguments they have no use for. -/
def objection? (name : Bytes) (args : List Bytes) : Option (Step Nat) :=
  let long := args.find? fun a => Bytes.startsWith (lit "--") a && a != lit "--"
  let quoted := fun (what a : Bytes) => what ++ lit " '" ++ a ++ lit "'"
  if name == lit "tr" then
    let operands := args.dropWhile fun a => a.head? == some 45 && 1 < a.length
    match operands with
    | _ :: _ :: extra :: _ => some (misused name (quoted (lit "extra operand") extra) 1)
    | _ => none
  else
    match optionReaders.find? (fun r => lit r.1 == name), long with
    | some (_, status), some a =>
      some (misused name (quoted (lit "unrecognized option") a) status)
    | _, _ => none

/-- The names in a folder of the tree that are not hidden, or all of them. -/
def listFolder (s : State) (args : List Bytes) : Bytes :=
  let place := (args.find? fun a => a.head? != some 45).getD Path.here
  let names := (s.tree.children (s.locate place)).map (·.1)
  let every := args.any fun a => a.head? == some 45 && a.elem 97
  let shown := if every then [Path.here, Path.parent] ++ names
    else names.filter fun n => n.head? != some 46
  Utility.unlines shown

def copyInput (files : List Bytes) : Step Unit := do
  let text ← takeInput
  modify fun s => files.foldl (fun s p => { s with tree := s.tree.set (s.locate p) (.file text false) }) s
  print text

/-- The programs that are always there.  The answer is the status, or `none` for another name. -/
def program? (name : Bytes) (args : List Bytes) : Option (Step Nat) :=
  let filter := fun (f : List Bytes → Bytes → Bytes) => some do
    print (f args (← takeInput))
    pure 0
  let shown := fun (text : Bytes) => some do
    print text
    pure 0
  if name == lit "cat" then
    some do
      let (text, status) ← filterInput args
      print text
      pure status
  else if name == lit "tr" then filter Utility.tr
  else if name == lit "cut" then filter Utility.cut
  else if name == lit "head" then filter Utility.head
  else if name == lit "tail" then filter Utility.tail
  else if name == lit "wc" then filter Utility.wc
  else if name == lit "sort" then filter Utility.sort
  else if name == lit "uniq" then filter Utility.uniq
  else if name == lit "rev" then filter fun _ text => Utility.unlines ((Utility.linesOf text).map List.reverse)
  else if name == lit "sed" then filter Utility.sed
  else if name == lit "grep" then
    some do
      let (text, status) := Utility.grep args (← takeInput)
      print text
      pure status
  else if name == lit "tee" then
    some do
      copyInput (args.filter fun a => a.head? != some 45 && !Bytes.startsWith (lit "/dev/") a)
      pure 0
  else if name == lit "ls" then
    some do
      print (listFolder (← get) args)
      pure 0
  else if name == lit "echo" then shown (Utility.echo args)
  else if name == lit "printf" then shown (Utility.printf args)
  else if name == lit "seq" then shown (Utility.seq args)
  else if name == lit "basename" then shown (Utility.basename args ++ [10])
  else if name == lit "dirname" then shown (Path.dir (args.headD []) ++ [10])
  else if name == lit "true" then some (pure 0)
  else if name == lit "false" then some (pure 1)
  else if name == lit "sleep" then
    some do
      pass ((args.map Utility.milliseconds).foldl (· + ·) 0)
      pure 0
  else if name == lit "pwd" then
    some do
      print ((← get).folder ++ [10])
      pure 0
  else if name == lit "env" then
    some do
      print ((← get).bindings.flatMap fun v => v.1 ++ [61] ++ v.2 ++ [10])
      pure 0
  else if name == lit "test" then some do pure (test (← get) (args.length + 1) args)
  else if name == lit "[" then
    some do pure (test (← get) (args.length + 1) args.dropLast)
  else if name == lit "mkdir" then
    some do
      let made := args.filter (fun a => a.head? != some 45)
      modify fun s => made.foldl (fun s p => { s with tree := s.tree.set (s.locate p) .folder }) s
      pure 0
  else if name == lit "rm" then
    some do
      let gone := args.filter (fun a => a.head? != some 45)
      modify fun s => gone.foldl (fun s p => { s with tree := s.tree.eraseAll (s.locate p) }) s
      pure 0
  else if name == lit "touch" then
    some do
      modify fun s => args.foldl (fun s p =>
        if (s.get? p).isSome then s
        else { s with tree := s.tree.set (s.locate p) (.file [] false) }) s
      pure 0
  else none

/-- The names of those programs, of the shell itself and of the version archive's program. -/
def programNames : List String :=
  ["cat", "tr", "cut", "head", "tail", "wc", "sort", "echo", "printf", "seq", "basename", "dirname",
   "true", "false", "sleep", "pwd", "env", "test", "[", "mkdir", "rm", "touch", "sh", "dash", "bash",
   "uniq", "rev", "sed", "grep", "tee", "ls", "git"]

def programFolders : List Bytes := [lit "/usr/bin", lit "/bin"]

/-- What a command's name leads to. -/
inductive Found where
  | program (name : Bytes)
  | script (path text : Bytes)
  | unusable (path : Bytes) (why : SystemError)
  | missing

def findPath (s : State) (path : Bytes) : Found :=
  match s.tree.find (s.locate path) with
  | .ok (.file text true) => .script path text
  | .ok _ => .unusable path .permission
  | .error e =>
    if programFolders.contains (Path.dir path) && (programNames.map lit).contains (Path.base path) then
      .program (Path.base path)
    else .unusable path e

/-- What a name leads to in the folders that are searched. -/
def findName (s : State) (name : Bytes) : Found :=
  let folders := Bytes.splitOn 58 ((s.value? (lit "PATH")).getD [])
  let usable := folders.filterMap fun folder =>
    match findPath s (Path.join [if folder.isEmpty then Path.here else folder, name]) with
    | .program p => some (Found.program p)
    | .script p t => some (Found.script p t)
    | _ => none
  usable.headD .missing

def find (s : State) (name : Bytes) : Found :=
  if name.elem Path.slash then findPath s name else findName s name

end Shell

end SymbolHistory
