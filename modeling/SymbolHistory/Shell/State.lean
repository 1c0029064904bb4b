/-
# Shell.State -- a script under way

What a script has at hand while it runs: the file tree, its variables, its
input, where its two streams go, and the clock.  A step changes the state or
stops; the sections below say what a stop means to the work around it.
-/
import SymbolHistory.Host.FileTree
import SymbolHistory.Path
import SymbolHistory.Shell.Script

set_option autoImplicit false

namespace SymbolHistory

namespace Shell

/-- Where a stream goes. -/
inductive Sink where
  | out
  | err
  | file (l : Location)
  | nowhere
  deriving Repr, DecidableEq

/-- Why a script stops what it is doing. -/
inductive Stop where
  | exit (code : Nat)
  | signal (number : Nat)
  | leave (loops : Nat)
  | again (loops : Nat)
  | back
  deriving Repr, DecidableEq

/-- A script being run.  What was printed stands last first. -/
structure State where
  tree : FileTree
  folder : Bytes
  /-- The variables and their values. -/
  bindings : List (Bytes × Bytes)
  arguments : List Bytes
  zero : Bytes
  input : Bytes
  /-- The end of the input has been seen. -/
  drained : Bool := false
  printed : List Bytes := []
  complained : List Bytes := []
  first : Sink := .out
  second : Sink := .err
  status : Nat := 0
  clock : Nat := 0
  limit : Option Nat := none
  functions : List (Bytes × Command) := []
  /-- A command that fails ends the script. -/
  strict : Bool := false
  /-- A failure here is an answer and ends nothing. -/
  guarded : Bool := false

abbrev Step := ExceptT Stop (StateM State)

namespace State

def locate (s : State) (p : Bytes) : Location :=
  Path.shortest true (if Path.isAbsolute p then Path.steps p else Path.steps s.folder ++ Path.steps p)

def get? (s : State) (p : Bytes) : Option Node :=
  if p.isEmpty then none else (s.tree.find (s.locate p)).toOption

def value? (s : State) (name : Bytes) : Option Bytes :=
  (s.bindings.find? (fun v => v.1 == name)).map (·.2)

def assign (s : State) (name value : Bytes) : State :=
  { s with bindings := (name, value) :: s.bindings.filter (fun v => v.1 != name) }

end State

/-! ## Streams -/

def processNumber : Nat := 4242

def send (sink : Sink) (text : Bytes) : Step Unit :=
  modify fun s =>
    match sink with
    | .out => { s with printed := text :: s.printed }
    | .err => { s with complained := text :: s.complained }
    | .nowhere => s
    | .file l =>
      match s.tree.get? l with
      | some (.file content x) => { s with tree := s.tree.set l (.file (content ++ text) x) }
      | _ => s

def print (text : Bytes) : Step Unit := do send (← get).first text

def complain (text : Bytes) : Step Unit := do
  let s ← get
  send s.second (s.zero ++ lit ": 1: " ++ text ++ [10])

def takeInput : Step Bytes := do
  let s ← get
  set { s with input := [], drained := true }
  pure s.input

/-- Let time pass; a script whose time is up is stopped. -/
def pass (milliseconds : Nat) : Step Unit := do
  let s ← get
  let now := s.clock + milliseconds
  match s.limit with
  | none => set { s with clock := now }
  | some limit =>
    if limit ≤ now then
      set { s with clock := limit }
      throw (.signal 9)
    else set { s with clock := now }

/-- The bound on steps is used up: the time is up too. -/
def exhausted {α : Type} : Step α := do
  let s ← get
  set { s with clock := s.limit.getD s.clock }
  throw (.signal 9)

/-! ## Work within work -/

/-- Work in a shell of its own: what it does to variables is forgotten, and leaving it is no more
than its status. -/
def isolated (work : Step Unit) : Step Unit := do
  let before ← get
  let outcome ← ExceptT.lift work.run
  modify fun s =>
    { s with
      bindings := before.bindings
      arguments := before.arguments
      folder := before.folder
      functions := before.functions
      zero := before.zero
      first := before.first
      second := before.second }
  match outcome with
  | .ok _ => pure ()
  | .error (.exit code) => modify fun s => { s with status := code }
  | .error (.signal n) => throw (.signal n)
  | .error _ => pure ()

/-- What some work prints. -/
def captured (work : Step Unit) : Step Bytes := do
  let before ← get
  set { before with printed := [], first := .out }
  let outcome ← ExceptT.lift work.run
  let after ← get
  set { after with printed := before.printed, first := before.first }
  match outcome with
  | .ok _ => pure after.printed.reverse.flatten
  | .error stop => throw stop

/-- Work with a given input; the input before it comes back afterwards. -/
def fed (input : Bytes) (work : Step Unit) : Step Unit := do
  let before ← get
  set { before with input }
  let outcome ← ExceptT.lift work.run
  modify fun s => { s with input := before.input, drained := before.drained }
  match outcome with
  | .ok _ => pure ()
  | .error stop => throw stop

def setStatus (n : Nat) : Step Unit := modify fun s => { s with status := n }

/-- Work whose failures are answers. -/
def guardedly (work : Step Unit) : Step Unit := do
  let before := (← get).guarded
  modify fun s => { s with guarded := true }
  let outcome ← ExceptT.lift work.run
  modify fun s => { s with guarded := before }
  match outcome with
  | .ok _ => pure ()
  | .error stop => throw stop

/-- End a strict script whose last command failed. -/
def heed : Step Unit := do
  let s ← get
  if s.strict && !s.guarded && s.status != 0 then throw (.exit s.status)

end Shell

end SymbolHistory
