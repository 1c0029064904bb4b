/-
# Generator.Choice -- what makes tag tables

A project's tag tables come from an external command or from the built-in
scanner for C.  Both may be limited in time; no limit is a timeout of zero.
-/
import SymbolHistory.Duration

set_option autoImplicit false

namespace SymbolHistory

namespace Generator

inductive Choice where
  | command (name : Bytes) (args : List Bytes) (timeout : Duration)
  | scanner (timeout : Duration)
  deriving Repr, DecidableEq

namespace Choice

def commandKind : Bytes := lit "ctags"

def scannerKind : Bytes := lit "treesitter"

/-- The generator of a kind; no kind means an external command. -/
def ofKind (kind name : Bytes) (args : List Bytes) (timeout : Duration) : Except Fault Choice :=
  if kind.isEmpty || kind == commandKind then .ok (command name args timeout)
  else if kind == scannerKind then .ok (scanner timeout)
  else
    .error (.other (lit "unknown generator kind " ++ Quoted.quote kind ++ lit " (want " ++
      commandKind ++ lit " or " ++ scannerKind ++ lit ")"))

end Choice

end Generator

end SymbolHistory
