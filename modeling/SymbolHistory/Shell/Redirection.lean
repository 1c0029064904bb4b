/-
# Shell.Redirection -- pointing a stream somewhere else

A stream goes to the same place as another, to a file that is emptied or
extended, or comes from a file or from text within the script.
-/
import SymbolHistory.Shell.State

set_option autoImplicit false

namespace SymbolHistory

namespace Shell

def openSink (append : Bool) (path : Bytes) : Step (Option Sink) := do
  let s ← get
  if path == lit "/dev/null" then pure (some .nowhere)
  else if path == lit "/dev/stderr" then pure (some s.second)
  else if path == lit "/dev/stdout" then pure (some s.first)
  else
    let l := s.locate path
    match s.get? path with
    | some (.file content x) =>
      if !append then set { s with tree := s.tree.set l (.file [] x) }
      else set { s with tree := s.tree.set l (.file content x) }
      pure (some (.file l))
    | some .folder =>
      complain (lit "cannot create " ++ path ++ lit ": Is a directory")
      pure none
    | none =>
      match s.tree.admits l with
      | .ok _ =>
        set { s with tree := s.tree.set l (.file [] false) }
        pure (some (.file l))
      | .error _ =>
        complain (lit "cannot create " ++ path ++ lit ": Directory nonexistent")
        pure none

def setSink (stream : Nat) (sink : Sink) : Step Unit :=
  modify fun s => if stream == 2 then { s with second := sink } else { s with first := sink }

/-- Redirect one stream; whether it could be. -/
def redirectTo (stream : Nat) (direction : Direction) (target : Bytes) : Step Bool := do
  match direction with
  | .read =>
    match (← get).get? target with
    | some (.file content _) =>
      modify fun s => { s with input := content }
      pure true
    | _ =>
      if target == lit "/dev/null" then
        modify fun s => { s with input := [] }
        pure true
      else
        complain (lit "cannot open " ++ target ++ lit ": No such file")
        pure false
  | .inline =>
    modify fun s => { s with input := target }
    pure true
  | .duplicate =>
    let s ← get
    setSink stream
      (if target == [49] then s.first else if target == [50] then s.second else .nowhere)
    pure true
  | .write | .append =>
    match ← openSink (direction == .append) target with
    | some sink =>
      setSink stream sink
      pure true
    | none => pure false

/-- Redirections of the script itself: those of a bare `exec`. -/
def isForGood : Command → Bool
  | .simple [] [[.text word _]] => word == lit "exec"
  | _ => false

end Shell

end SymbolHistory
