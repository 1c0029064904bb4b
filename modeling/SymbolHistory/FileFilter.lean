/-
# FileFilter -- which files of a tree are indexed

A path is kept when it matches the regular expression, if there is one, and at
least one of the file patterns, if there are any.
-/
import SymbolHistory.Pattern
import SymbolHistory.Glob
import SymbolHistory.Fault

set_option autoImplicit false

namespace SymbolHistory

structure FileFilter where
  pattern : Option Pattern := none
  globs : List Glob := []

namespace FileFilter

def readGlob (text : Bytes) : Except Fault Glob :=
  (Glob.compile text).mapError fun flaw =>
    .during (lit "file glob " ++ Quoted.quote text) (.other flaw.message)

/-- Read a regular expression and file patterns.  An empty expression is none. -/
def ofTexts (pattern : Bytes) (globs : List Bytes) : Except Fault FileFilter := do
  let p ←
    if pattern.isEmpty then pure none
    else
      let compiled := (Pattern.compile pattern).mapError
        (fun problem => Fault.during (lit "file pattern") (.pattern problem))
      compiled.map some
  pure ⟨p, ← globs.mapM readGlob⟩

def keeps (f : FileFilter) (path : Bytes) : Bool :=
  f.pattern.all (·.matchesIn path) && (f.globs.isEmpty || f.globs.any (·.matchesPath path))

end FileFilter

end SymbolHistory
