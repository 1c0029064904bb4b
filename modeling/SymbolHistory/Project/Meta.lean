/-
# Project.Meta -- what is known about the last run
-/
import SymbolHistory.Project.Config

set_option autoImplicit false

namespace SymbolHistory

/-- What the last run of the index left behind. -/
structure IndexMeta where
  initialVersion : Bytes := []
  latestVersion : Bytes := []
  tags : Int := 0
  objects : Int := 0
  symbols : Int := 0
  diffs : Int := 0
  runId : Bytes := []
  updatedAt : Timestamp := Timestamp.zero
  deriving Repr, DecidableEq

namespace IndexMeta

/-- A count with some more.  Counts have 64 bits, and after the greatest comes the least. -/
def plus (count : Int) (more : Nat) : Int := Int.bmod (count + more) 18446744073709551616

/-- A moment, written as such or as text. -/
def momentField (t : List (Bytes × Toml.Value)) (name : String) : Option Timestamp :=
  match Toml.lookup t (lit name) with
  | none => some Timestamp.zero
  | some (.moment m) => some m
  | some (.string s) => Timestamp.parse s
  | some _ => none

def ofDocument (t : List (Bytes × Toml.Value)) : Option IndexMeta := do
  pure
    { initialVersion := ← Config.stringField t "initial_ver"
      latestVersion := ← Config.stringField t "latest_ver"
      tags := ← Config.integerField t "tags"
      objects := ← Config.integerField t "objects"
      symbols := ← Config.integerField t "symbols"
      diffs := ← Config.integerField t "diffs"
      runId := ← Config.stringField t "run_id"
      updatedAt := ← momentField t "updated_at" }

def parse (text : Bytes) : Except Fault IndexMeta :=
  ((Toml.parse text).bind ofDocument).elim (.error Config.malformed) .ok

def write (m : IndexMeta) : Bytes :=
  Toml.stringLine 0 "initial_ver" m.initialVersion ++
  Toml.stringLine 0 "latest_ver" m.latestVersion ++
  Toml.integerLine 0 "tags" m.tags ++
  Toml.integerLine 0 "objects" m.objects ++
  Toml.integerLine 0 "symbols" m.symbols ++
  Toml.integerLine 0 "diffs" m.diffs ++
  Toml.stringLine? 0 "run_id" m.runId ++
  Toml.line 0 "updated_at" m.updatedAt.format

end IndexMeta

end SymbolHistory
