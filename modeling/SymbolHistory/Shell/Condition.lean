/-
# Shell.Condition -- questions about texts, numbers and files

The status of a question is 0 for yes, 1 for no and 2 for one that is not well
formed.
-/
import SymbolHistory.Shell.State
import SymbolHistory.Shell.Utility

set_option autoImplicit false

namespace SymbolHistory

namespace Shell

def compareNumbers (op : Bytes) (a b : Int) : Option Bool :=
  if op == lit "-eq" then some (a == b)
  else if op == lit "-ne" then some (a != b)
  else if op == lit "-lt" then some (a < b)
  else if op == lit "-le" then some (a ≤ b)
  else if op == lit "-gt" then some (b < a)
  else if op == lit "-ge" then some (b ≤ a)
  else none

def askOne (s : State) (op a : Bytes) : Option Bool :=
  if op == lit "-n" then some !a.isEmpty
  else if op == lit "-z" then some a.isEmpty
  else if op == lit "-e" then some (s.get? a).isSome
  else if op == lit "-d" then some ((s.get? a).any Node.isFolder)
  else if op == lit "-f" then some ((s.get? a).any (fun n => !n.isFolder))
  else if op == lit "-r" || op == lit "-w" then some (s.get? a).isSome
  else if op == lit "-x" then
    some ((s.get? a).any fun n => match n with | .folder => true | .file _ x => x)
  else if op == lit "-s" then
    some ((s.get? a).any fun n => match n with | .folder => true | .file c _ => !c.isEmpty)
  else none

/-- The answer to a condition: 0 for yes, 1 for no, 2 for a malformed one. -/
def test (s : State) : Nat → List Bytes → Nat
  | 0, _ => 2
  | fuel + 1, args =>
    let answer := fun (b : Bool) => if b then 0 else 1
    match args with
    | [] => 1
    | [a] => answer !a.isEmpty
    | [op, a] =>
      if op == lit "!" then answer a.isEmpty else ((askOne s op a).map answer).getD 2
    | [a, op, b] =>
      if op == lit "=" then answer (a == b)
      else if op == lit "!=" then answer (a != b)
      else if op == lit "-a" then answer (!a.isEmpty && !b.isEmpty)
      else if op == lit "-o" then answer (!a.isEmpty || !b.isEmpty)
      else
        match compareNumbers op (Utility.leadingInteger a) (Utility.leadingInteger b) with
        | some r => answer r
        | none =>
          if a == lit "!" then
            let r := test s fuel [op, b]
            if r == 2 then 2 else 1 - r
          else 2
    | a :: rest =>
      if a == lit "!" then
        let r := test s fuel rest
        if r == 2 then 2 else 1 - r
      else 2

end Shell

end SymbolHistory
