/-
# SourceText -- a C file as lines

The lines of an object's content, numbered from 1, with invalid UTF-8 repaired
and line ends removed in either style.
-/
import SymbolHistory.Text.Utf8

set_option autoImplicit false

namespace SymbolHistory

abbrev SourceText := List Bytes

namespace SourceText

/-- The lines of a file's content.  The newline that ends the file starts no further line. -/
def ofContent (data : Bytes) : SourceText :=
  let text := Bytes.withoutTail [10] (Utf8.repair data)
  if text.isEmpty then [] else (Bytes.splitOn 10 text).map Bytes.withoutReturn

/-- Up to `n` lines from line number `line` on; none if there is no such line. -/
def window (src : SourceText) (line : Int) (n : Nat) : List Bytes :=
  match line with
  | .ofNat (k + 1) => (src.drop k).take n
  | _ => []

end SourceText

end SymbolHistory
