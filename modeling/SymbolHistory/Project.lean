/-
# Project -- projects of a database

A database is a folder with one folder per project.  A project is there when its
settings are: `create` writes them last, after the folders they speak of.
-/
import SymbolHistory.ObjectStore
import SymbolHistory.Project.Layout
import SymbolHistory.Project.Meta

set_option autoImplicit false

namespace SymbolHistory

namespace Layout

def objectStore (l : Layout) : ObjectStore := ⟨l.objects⟩

def tagStore (l : Layout) : ObjectStore := ⟨l.tags⟩

end Layout

/-- Read a settings file; a missing one is its own kind of failure. -/
def Config.loadFile (path : Bytes) : Run Config := do
  let activity := lit "load config " ++ path
  match ← Run.attempt (Host.readFile path) with
  | .error f =>
    if f.isMissingFile then throw (.projectNotFound path) else throw (.during activity f)
  | .ok text => Run.during activity (Run.ofExcept (Config.load text))

def Config.saveFile (path : Bytes) (c : Config) : Run Unit :=
  Run.during (lit "save config") (AtomicFile.writeAll path c.write)

/-- Read what is known about the last run; nothing is, if there is no file. -/
def IndexMeta.loadFile (path : Bytes) : Run IndexMeta := do
  let activity := lit "load index metadata " ++ path
  match ← Run.attempt (Host.readFile path) with
  | .error f => if f.isMissingFile then pure {} else throw (.during activity f)
  | .ok text => Run.during activity (Run.ofExcept (IndexMeta.parse text))

def IndexMeta.saveFile (path : Bytes) (m : IndexMeta) : Run Unit :=
  Run.during (lit "save index metadata") (AtomicFile.writeAll path m.write)

structure Project where
  layout : Layout
  config : Config
  deriving Repr, DecidableEq

namespace Project

def «open» (db name : Bytes) : Run Project := do
  Run.ofExcept (Config.validateName name)
  let layout : Layout := ⟨Path.join [db, name]⟩
  let config ← Config.loadFile layout.config
  if config.name == name then pure { layout, config }
  else
    throw (.other (lit "open " ++ layout.root ++ lit ": config names project " ++
      Quoted.quote config.name))

/-- Register a project.  Nothing is written unless the settings can work. -/
def create (db : Bytes) (settings : Config) : Run Project := do
  let config := settings.normalize
  Run.ofExcept config.validate
  let layout : Layout := ⟨Path.join [db, config.name]⟩
  if ← Host.isThere layout.config then throw (.projectExists config.name)
  [layout.objects, layout.tags, layout.diffs].forM fun folder =>
    Run.during (lit "create project " ++ config.name) (Host.makeFolders folder)
  Config.saveFile layout.config config
  pure { layout, config }

/-- The names of the projects of a database, in order.  A database that is not there is empty. -/
def list (db : Bytes) : Run (List Bytes) := do
  match ← Run.attempt (Host.readFolder db) with
  | .error f =>
    if f.isMissingFile then pure [] else throw (.during (lit "list projects") f)
  | .ok entries =>
    let folders := (entries.filter (·.2)).map (·.1)
    Bytes.sort <$> folders.filterM fun name =>
      Host.isThere (Path.join [db, name, Layout.configName])

def lastRun (p : Project) : Run IndexMeta := IndexMeta.loadFile p.layout.metaFile

end Project

end SymbolHistory
