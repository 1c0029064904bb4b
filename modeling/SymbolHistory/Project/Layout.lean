/-
# Project.Layout -- where a project's files are

A project is a directory of the database.  It holds the settings, what is known
about the last run, the stored contents, a symbol file per content, a diff per
tag, the combined tag table and the list of all symbol names.
-/
import SymbolHistory.Path
import SymbolHistory.Tag

set_option autoImplicit false

namespace SymbolHistory

structure Layout where
  root : Bytes
  deriving Repr, DecidableEq

namespace Layout

def objectsName : Bytes := lit "objects"
def configName : Bytes := lit "config.toml"
def metaName : Bytes := lit "index.toml"
def tagsName : Bytes := lit "tags"
def diffsName : Bytes := lit "diffs"
def namesName : Bytes := lit "autocomplete_db"

def file (l : Layout) (name : Bytes) : Bytes := Path.join [l.root, name]

def config (l : Layout) : Bytes := l.file configName
def metaFile (l : Layout) : Bytes := l.file metaName
def objects (l : Layout) : Bytes := l.file objectsName
def tags (l : Layout) : Bytes := l.file tagsName
def diffs (l : Layout) : Bytes := l.file diffsName
def combined (l : Layout) : Bytes := l.file (lit "ctags")
def names (l : Layout) : Bytes := l.file namesName

/-- How tag tables name a stored content: its path below the project. -/
def objectRef (id : Bytes) : Bytes := objectsName ++ [Path.slash] ++ id

/-- The diff that leads to a tag. -/
def diff (l : Layout) (tag : Bytes) : Bytes := Path.join [l.diffs, Tag.fileName tag]

end Layout

end SymbolHistory
