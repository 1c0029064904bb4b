/-
# Project.Config -- a project's settings

The settings say which repository is indexed, which of its tags and files,
in which order, and with which generator.  `Config.write` is the document that
holds them, `Config.ofDocument` reads it back; names in a document may be
written in any case and unknown ones are passed over.  `normalize` fills in
what may be left out, `validate` refuses what cannot work.
-/
import SymbolHistory.Toml.Document
import SymbolHistory.FileFilter
import SymbolHistory.Path
import SymbolHistory.Tag
import SymbolHistory.Generator.Choice

set_option autoImplicit false

namespace SymbolHistory

structure IndexSettings where
  repo : Bytes := []
  tagPattern : Bytes := []
  filePattern : Bytes := []
  fileGlobs : List Bytes := []
  sort : Bytes := []
  workers : Int := 0
  cacheSize : Int := 0
  deriving Repr, DecidableEq

structure GeneratorSettings where
  kind : Bytes := []
  command : Bytes := []
  args : List Bytes := []
  timeout : Duration := ⟨0⟩
  deriving Repr, DecidableEq

structure Config where
  name : Bytes := []
  origin : Bytes := []
  sourceViewer : Bytes := []
  index : IndexSettings := {}
  generator : GeneratorSettings := {}
  deriving Repr, DecidableEq

namespace Config

/-! ## Reading -/

def stringField (t : List (Bytes × Toml.Value)) (name : String) : Option Bytes :=
  match Toml.lookup t (lit name) with
  | none => some []
  | some (.string s) => some s
  | some _ => none

def integerField (t : List (Bytes × Toml.Value)) (name : String) : Option Int :=
  match Toml.lookup t (lit name) with
  | none => some 0
  | some (.integer n) => some n
  | some _ => none

def listField (t : List (Bytes × Toml.Value)) (name : String) : Option (List Bytes) :=
  match Toml.lookup t (lit name) with
  | none => some []
  | some (.array items) =>
    items.mapM fun v =>
      match v with
      | .string s => some s
      | _ => none
  | some _ => none

/-- A duration, as text or as the number zero. -/
def durationField (t : List (Bytes × Toml.Value)) (name : String) : Option Duration :=
  match Toml.lookup t (lit name) with
  | none => some ⟨0⟩
  | some (.string s) => (Duration.parse s).toOption
  | some (.integer n) => (Duration.parse (Decimal.ofInt n)).toOption
  | some _ => none

def tableField (t : List (Bytes × Toml.Value)) (name : String) :
    Option (List (Bytes × Toml.Value)) :=
  match Toml.lookup t (lit name) with
  | none => some []
  | some (.table entries) => some entries
  | some _ => none

/-- The settings in a document; `none` if a value has the wrong type. -/
def ofDocument (t : List (Bytes × Toml.Value)) : Option Config := do
  let index ← tableField t "index"
  let generator ← tableField t "generator"
  pure
    { name := ← stringField t "name"
      origin := ← stringField t "origin"
      sourceViewer := ← stringField t "source_viewer"
      index :=
        { repo := ← stringField index "repo"
          tagPattern := ← stringField index "tag_pattern"
          filePattern := ← stringField index "file_pattern"
          fileGlobs := ← listField index "file_globs"
          sort := ← stringField index "sort"
          workers := ← integerField index "workers"
          cacheSize := ← integerField index "cache_size" }
      generator :=
        { kind := ← stringField generator "kind"
          command := ← stringField generator "command"
          args := ← listField generator "args"
          timeout := ← durationField generator "timeout" } }

/-- What a document that cannot be read is refused with. -/
def malformed : Fault := .settings (lit "toml: malformed settings")

def parse (text : Bytes) : Except Fault Config :=
  ((Toml.parse text).bind ofDocument).elim (.error malformed) .ok

/-! ## Writing -/

def write (c : Config) : Bytes :=
  Toml.stringLine 0 "name" c.name ++
  Toml.stringLine? 0 "origin" c.origin ++
  Toml.stringLine? 0 "source_viewer" c.sourceViewer ++
  Toml.heading "index" ++
  Toml.stringLine 2 "repo" c.index.repo ++
  Toml.stringLine? 2 "tag_pattern" c.index.tagPattern ++
  Toml.stringLine? 2 "file_pattern" c.index.filePattern ++
  Toml.listLine? 2 "file_globs" c.index.fileGlobs ++
  Toml.stringLine 2 "sort" c.index.sort ++
  Toml.integerLine 2 "workers" c.index.workers ++
  Toml.integerLine 2 "cache_size" c.index.cacheSize ++
  Toml.heading "generator" ++
  Toml.stringLine 2 "kind" c.generator.kind ++
  Toml.stringLine? 2 "command" c.generator.command ++
  Toml.listLine? 2 "args" c.generator.args ++
  Toml.stringLine 2 "timeout" c.generator.timeout.format

/-! ## Checking -/

def defaultCacheSize : Int := 4096

/-- What may be left out gets its usual value. -/
def normalize (c : Config) : Config :=
  { c with
    index :=
      { c.index with
        sort := if c.index.sort.isEmpty then TagOrder.time.name else c.index.sort
        cacheSize := if c.index.cacheSize == 0 then defaultCacheSize else c.index.cacheSize }
    generator :=
      { c.generator with
        kind :=
          if c.generator.kind.isEmpty then Generator.Choice.commandKind else c.generator.kind } }

/-- A project's name is one step of a path. -/
def validateName (name : Bytes) : Except Fault Unit :=
  if name.isEmpty then .error (.other (lit "project name is required"))
  else if name == Path.here || name == Path.parent then
    .error (.other (lit "invalid project name " ++ Quoted.quote name))
  else if name.any (fun b => b == 47 || b == 92) || !Utf8.valid name then
    .error (.other (lit "project name " ++ Quoted.quote name ++
      lit " must be a single path element"))
  else .ok ()

/-- The pattern that thins out tags, if there is one. -/
def tagKey (c : Config) : Except Fault (Option Pattern) :=
  if c.index.tagPattern.isEmpty then .ok none
  else
    let compiled := (Pattern.compile c.index.tagPattern).mapError
      (fun problem => Fault.during (lit "tag pattern") (.pattern problem))
    compiled.map some

def filter (c : Config) : Except Fault FileFilter :=
  FileFilter.ofTexts c.index.filePattern c.index.fileGlobs

/-- The order of tags; by time if the settings name none that exists. -/
def order (c : Config) : TagOrder := (TagOrder.ofName c.index.sort).toOption.getD .time

def choice (c : Config) : Except Fault Generator.Choice :=
  Generator.Choice.ofKind c.generator.kind c.generator.command c.generator.args c.generator.timeout

def validate (c : Config) : Except Fault Unit := do
  validateName c.name
  if c.index.repo.isEmpty then throw (.other (lit "config: index.repo is required"))
  discard <| c.tagKey.mapError (.during (lit "config"))
  discard <| c.filter.mapError (.during (lit "config"))
  discard <| (TagOrder.ofName c.index.sort).mapError (.during (lit "config: index.sort"))
  if c.index.workers < 0 then
    throw (.other (lit "config: index.workers must not be negative, got " ++
      Decimal.ofInt c.index.workers))
  if c.index.cacheSize < 0 then
    throw (.other (lit "config: index.cache_size must not be negative, got " ++
      Decimal.ofInt c.index.cacheSize))
  discard <| c.choice.mapError (.during (lit "config: generator"))
  if c.generator.timeout.nanoseconds < 0 then
    throw (.other (lit "config: generator.timeout must not be negative"))

/-- Read a document, fill in what was left out, and refuse what cannot work. -/
def load (text : Bytes) : Except Fault Config := do
  let c ← parse text
  let c := c.normalize
  c.validate
  pure c

end Config

end SymbolHistory
