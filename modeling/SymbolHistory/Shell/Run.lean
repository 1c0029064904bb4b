/-
# Shell.Run -- running shell scripts

A script runs on a file tree with an input, and leaves behind what it printed,
the files it wrote, and how it ended.  Time passes only while it sleeps; a
script that runs past its time limit is stopped there.  Every function takes a
bound on the steps still allowed, and a script that uses them up is stopped as
if its time were up.
-/
import SymbolHistory.Shell.Arithmetic
import SymbolHistory.Shell.Program
import SymbolHistory.Shell.Redirection

set_option autoImplicit false

namespace SymbolHistory

namespace Shell

/-- A line of the input and whether it was ended; blanks at both ends are dropped. -/
def readLine : Step (Bytes × Bool) := do
  let s ← get
  let (line, rest) := s.input.span (· != 10)
  set { s with input := rest.drop 1, drained := s.drained || rest.isEmpty }
  pure (line, !rest.isEmpty)

/-- A line without its backslashes. -/
def unquote : Bytes → Bytes
  | 92 :: b :: rest => b :: unquote rest
  | b :: rest => b :: unquote rest
  | [] => []

/-- The fields of a line for some names; the last takes the rest. -/
def shareOut : List Bytes → Bytes → List (Bytes × Bytes)
  | [], _ => []
  | [name], line => [(name, Bytes.trimBytes isSeparator line)]
  | name :: names, line =>
    let line := line.dropWhile isSeparator
    let (field, rest) := line.span (fun b => !isSeparator b)
    (name, field) :: shareOut names rest

/-- The built-in `read`. -/
def readInto (args : List Bytes) : Step Nat := do
  let raw := args.head? == some (lit "-r")
  let names := if raw then args.drop 1 else args
  let names := if names.isEmpty then [lit "REPLY"] else names
  let (line, ended) ← readLine
  let line := if raw then line else unquote line
  modify fun s => (shareOut names line).foldl (fun s p => s.assign p.1 p.2) s
  pure (if ended then 0 else 1)

def withoutNewlines (s : Bytes) : Bytes := (s.reverse.dropWhile (· == 10)).reverse

/-- The letters of the shell's options and the arguments after them. -/
def shellOptions : List Bytes → Option (Bytes × List Bytes)
  | [] => some ([], [])
  | word :: rest =>
    if word == lit "-" || word == lit "--" then some ([], rest)
    else if Bytes.startsWith (lit "--") word then none
    else if word.head? == some 45 then
      (shellOptions rest).map fun p => (word.drop 1 ++ p.1, p.2)
    else some ([], word :: rest)

mutual

def expand : Nat → List Piece → Step (List Fragment)
  | 0, _ => exhausted
  | _ + 1, [] => pure []
  | fuel + 1, piece :: rest => do
    let here ← expandPiece fuel piece
    pure (here ++ (← expand fuel rest))

def expandPiece : Nat → Piece → Step (List Fragment)
  | 0, _ => exhausted
  | _ + 1, .text s quoted => pure [.whole s quoted]
  | fuel + 1, .parameter name treatment operand quoted => do
    let s ← get
    if quoted && name == [64] && treatment == .plain then
      pure ((s.arguments.map fun a => Fragment.whole a true).intersperse .divide)
    else
      let operand ← expand fuel operand
      let value := treat treatment (parameter? s name) operand
      pure [if quoted then .whole value true else .divisible value]
  | fuel + 1, .output script quoted => do
    let text ← captured (isolated (runScript fuel script))
    let text := withoutNewlines text
    pure [if quoted then .whole text true else .divisible text]
  | fuel + 1, .arithmetic expression quoted => do
    let e := textOf (← expand fuel expression)
    let value := arithmetic (← get) e
    pure [if quoted then .whole value true else .divisible value]

def expandAll : Nat → List Word → Step (List Bytes)
  | 0, _ => exhausted
  | _ + 1, [] => pure []
  | fuel + 1, w :: rest => do
    let here := fieldsOf (← expand fuel w)
    pure (here ++ (← expandAll fuel rest))

def assignAll : Nat → List (Bytes × Word) → Step Unit
  | 0, _ => exhausted
  | _ + 1, [] => pure ()
  | fuel + 1, (name, w) :: rest => do
    let value := textOf (← expand fuel w)
    modify fun s => s.assign name value
    assignAll fuel rest

/-- Carry out redirections; whether all could be. -/
def redirectAll : Nat → List Redirect → Step Bool
  | 0, _ => exhausted
  | _ + 1, [] => pure true
  | fuel + 1, r :: rest => do
    let target := textOf (← expand fuel r.target)
    if ← redirectTo r.stream r.direction target then redirectAll fuel rest else pure false

def runScript : Nat → Bytes → Step Unit
  | 0, _ => exhausted
  | fuel + 1, script =>
    match parse script with
    | some c => run fuel c
    | none => do
      complain (lit "Syntax error")
      throw (.exit 2)

/-- Call a program, a function or something built in. -/
def call : Nat → Bytes → List Bytes → Step Unit
  | 0, _, _ => exhausted
  | fuel + 1, name, args => do
    let s ← get
    let number := Utility.digitsValue ((args.headD []).takeWhile Bytes.isDigit)
    match s.functions.find? (fun f => f.1 == name) with
    | some (_, body) =>
      set { s with arguments := args }
      let outcome ← ExceptT.lift (run fuel body).run
      modify fun t => { t with arguments := s.arguments }
      match outcome with
      | .ok _ => pure ()
      | .error .back => pure ()
      | .error stop => throw stop
    | none =>
      if name == lit ":" then setStatus 0
      else if name == lit "exit" then throw (.exit (if args.isEmpty then s.status else number % 256))
      else if name == lit "return" then
        setStatus (if args.isEmpty then s.status else number % 256)
        throw .back
      else if name == lit "break" then throw (.leave (max number 1))
      else if name == lit "continue" then throw (.again (max number 1))
      else if name == lit "shift" then
        set { s with arguments := s.arguments.drop (if args.isEmpty then 1 else number), status := 0 }
      else if name == lit "read" then setStatus (← readInto args)
      else if name == lit "cd" then
        let target := args.headD [Path.slash]
        match s.get? target with
        | some .folder => set { s with folder := Path.ofSteps true (s.locate target), status := 0 }
        | _ =>
          complain (lit "cd: can't cd to " ++ target)
          setStatus 2
      else if name == lit "export" || name == lit "local" || name == lit "readonly" then
        modify fun s => args.foldl (fun s a =>
          match Bytes.cutByte 61 a with
          | some (n, v) => s.assign n v
          | none => s) { s with status := 0 }
      else if name == lit "unset" then
        set { s with bindings := s.bindings.filter (fun v => !args.contains v.1), status := 0 }
      else if name == lit "set" then
        let given := if args.head? == some (lit "--") then args.drop 1 else args
        if args.head?.any (fun a => (a.head? == some 45 || a.head? == some 43) && a != lit "--") then
          let strict := (args.headD []).elem 101
          set { s with strict := if strict then (args.headD []).head? == some 45 else s.strict,
                       status := 0 }
        else set { s with arguments := given, status := 0 }
      else if name == lit "trap" || name == lit "wait" || name == lit "umask" then setStatus 0
      else if name == lit "eval" then runScript fuel (Bytes.join [32] args)
      else if name == lit "kill" then
        let (n, targets) : Nat × List Bytes :=
          match args with
          | a :: b :: rest =>
            if a == lit "-s" then (signalNumber b, rest)
            else if a.head? == some 45 then (signalNumber a, b :: rest)
            else (15, args)
          | _ => (15, args)
        if targets.contains (Decimal.ofNat processNumber) then throw (.signal n) else setStatus 0
      else if name == lit "exec" then
        match args with
        | [] => setStatus 0
        | program :: args =>
          call fuel program args
          throw (.exit (← get).status)
      else if name == lit "command" then
        match args with
        | [] => setStatus 0
        | program :: args =>
          if program == lit "-v" then
            match find s (args.headD []) with
            | .missing | .unusable .. => setStatus 127
            | .script path _ =>
              print (path ++ [10])
              setStatus 0
            | .program p =>
              print (lit "/usr/bin/" ++ p ++ [10])
              setStatus 0
          else call fuel program args
      else
        let builtIn := [lit "echo", lit "printf", lit "test", lit "[", lit "true", lit "false", lit "pwd"]
        if builtIn.contains name then
          match program? name args with
          | some work => setStatus (← work)
          | none => setStatus 127
        else
          match find s name with
          | .program p =>
            if p == lit "sh" || p == lit "dash" || p == lit "bash" then isolated (runShell fuel name args)
            else
              match (objection? p args).or (program? p args) with
              | some work => setStatus (← work)
              | none => setStatus 127
          | .script path text =>
            if Bytes.startsWith (lit "#!") text then
              isolated do
                modify fun s => { s with zero := path, arguments := args, functions := [] }
                runScript fuel text
            else setStatus 126
          | .unusable _ .permission =>
            complain (name ++ lit ": Permission denied")
            setStatus 126
          | _ =>
            complain (name ++ lit ": not found")
            setStatus 127

/-- The shell called as a program: a script as an argument, in a file, or as its input. -/
def runShell : Nat → Bytes → List Bytes → Step Unit
  | 0, _, _ => exhausted
  | fuel + 1, name, args => do
    match shellOptions args with
    | none =>
      send (← get).second (name ++ lit ": 0: Illegal option --\n")
      throw (.exit 2)
    | some (letters, operands) =>
      modify fun s => { s with zero := name, functions := [], strict := letters.elem 101 }
      match letters.elem 99, operands with
      | true, script :: rest =>
        modify fun s => { s with zero := rest.headD name, arguments := rest.drop 1 }
        runScript fuel script
      | true, [] =>
        send (← get).second (name ++ lit ": 0: -c requires an argument\n")
        throw (.exit 2)
      | false, file :: rest => runFile fuel name file rest
      | false, [] => runScript fuel (← takeInput)

def runFile : Nat → Bytes → Bytes → List Bytes → Step Unit
  | 0, _, _, _ => exhausted
  | fuel + 1, name, file, args => do
    match (← get).get? file with
    | some (.file text _) =>
      modify fun s => { s with zero := file, arguments := args, functions := [] }
      runScript fuel text
    | _ =>
      send (← get).second (name ++ lit ": 0: cannot open " ++ file ++ lit ": No such file\n")
      throw (.exit 2)

def run : Nat → Command → Step Unit
  | 0, _ => exhausted
  | fuel + 1, .simple assignments words => do
    match ← expandAll fuel words with
    | [] =>
      setStatus 0
      assignAll fuel assignments
    | name :: args =>
      let before := (← get).bindings
      assignAll fuel assignments
      call fuel name args
      if !assignments.isEmpty then modify fun s => { s with bindings := before }
      heed
  | fuel + 1, .redirected body redirects => do
    let before ← get
    if ← redirectAll fuel redirects then
      let outcome ← if isForGood body then return else ExceptT.lift (run fuel body).run
      let takesInput := redirects.any (fun r => r.direction == .read || r.direction == .inline)
      modify fun s =>
        { s with
          first := before.first
          second := before.second
          input := if takesInput then before.input else s.input
          drained := if takesInput then before.drained else s.drained }
      match outcome with
      | .ok _ => pure ()
      | .error stop => throw stop
    else
      modify fun s => { s with first := before.first, second := before.second, input := before.input }
      setStatus 2
  | fuel + 1, .pipe stages => do
    runStages fuel stages
    heed
  | fuel + 1, .not body => do
    guardedly (run fuel body)
    modify fun s => { s with status := if s.status == 0 then 1 else 0 }
  | fuel + 1, .and a b => do
    guardedly (run fuel a)
    if (← get).status == 0 then run fuel b
  | fuel + 1, .or a b => do
    guardedly (run fuel a)
    if (← get).status != 0 then run fuel b
  | fuel + 1, .sequence commands => runAll fuel commands
  | fuel + 1, .conditional condition yes no => do
    guardedly (run fuel condition)
    if (← get).status == 0 then
      setStatus 0
      run fuel yes
    else
      setStatus 0
      run fuel no
  | fuel + 1, .loop wanted condition body => runLoop fuel wanted condition body 0
  | fuel + 1, .each name items body => do
    let values ←
      match items with
      | some words => expandAll fuel words
      | none => pure (← get).arguments
    setStatus 0
    runEach fuel name body values
  | fuel + 1, .select subject clauses => do
    let text := textOf (← expand fuel subject)
    setStatus 0
    runClauses fuel text clauses
  | fuel + 1, .nested body => do
    isolated (run fuel body)
    heed
  | _ + 1, .define name body =>
    modify fun s => { s with functions := (name, body) :: s.functions, status := 0 }

def runAll : Nat → List Command → Step Unit
  | 0, _ => exhausted
  | _ + 1, [] => pure ()
  | fuel + 1, c :: rest => do
    run fuel c
    runAll fuel rest

/-- Run the stages of a pipeline, each on what the one before it printed. -/
def runStages : Nat → List Command → Step Unit
  | 0, _ => exhausted
  | _ + 1, [] => pure ()
  | fuel + 1, [c] => isolated (run fuel c)
  | fuel + 1, c :: rest => do
    let text ← captured (isolated (run fuel c))
    fed text (runStages fuel rest)

/-- Run the body while the condition comes out as wanted; the status is the body's last. -/
def runLoop : Nat → Bool → Command → Command → Nat → Step Unit
  | 0, _, _, _, _ => exhausted
  | fuel + 1, wanted, condition, body, last => do
    guardedly (run fuel condition)
    if ((← get).status == 0) != wanted then setStatus last
    else
      match ← ExceptT.lift (run fuel body).run with
      | .ok _ => runLoop fuel wanted condition body (← get).status
      | .error (.leave n) => if n ≤ 1 then setStatus 0 else throw (.leave (n - 1))
      | .error (.again n) =>
        if n ≤ 1 then runLoop fuel wanted condition body 0 else throw (.again (n - 1))
      | .error stop => throw stop

def runEach : Nat → Bytes → Command → List Bytes → Step Unit
  | 0, _, _, _ => exhausted
  | _ + 1, _, _, [] => pure ()
  | fuel + 1, name, body, v :: rest => do
    modify fun s => s.assign name v
    match ← ExceptT.lift (run fuel body).run with
    | .ok _ => runEach fuel name body rest
    | .error (.leave n) => if n ≤ 1 then setStatus 0 else throw (.leave (n - 1))
    | .error (.again n) => if n ≤ 1 then runEach fuel name body rest else throw (.again (n - 1))
    | .error stop => throw stop

def runClauses : Nat → Bytes → List (List Word × Command) → Step Unit
  | 0, _, _ => exhausted
  | _ + 1, _, [] => pure ()
  | fuel + 1, text, (patterns, body) :: rest => do
    if ← anyMatches fuel text patterns then run fuel body else runClauses fuel text rest

def anyMatches : Nat → Bytes → List Word → Step Bool
  | 0, _, _ => exhausted
  | _ + 1, _, [] => pure false
  | fuel + 1, text, p :: rest => do
    if Wildcard.matches? (patternOf (← expand fuel p)) text then pure true
    else anyMatches fuel text rest

end

def stepLimit : Nat := 1000000

end Shell

end SymbolHistory
