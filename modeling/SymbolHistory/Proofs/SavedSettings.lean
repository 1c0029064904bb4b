/-
# Proofs.SavedSettings -- settings are read back from the document that holds them

The document of a project's settings is a table of settings and two headed tables
(`write_eq`).  If the texts are valid and the numbers fit 64 signed bits, every
setting is read back as it was (`parse_write`), whatever the texts hold and
whichever settings are left out.  What was filled in before the settings were
written is not filled in again (`normalize_normalize`), so settings that work are
loaded as they were saved (`load_write`).
-/
import SymbolHistory.Project.Config
import SymbolHistory.Proofs.Durations
import SymbolHistory.Proofs.FieldLines
import SymbolHistory.Proofs.SettingDocuments

set_option autoImplicit false

namespace SymbolHistory

namespace Config

open Toml

/-! ## The settings of a document -/

def topSettings (c : Config) : List Setting :=
  [.text "name" c.name, .text? "origin" c.origin, .text? "source_viewer" c.sourceViewer]

def indexSettings (s : IndexSettings) : List Setting :=
  [.text "repo" s.repo, .text? "tag_pattern" s.tagPattern, .text? "file_pattern" s.filePattern,
    .list? "file_globs" s.fileGlobs, .text "sort" s.sort, .count "workers" s.workers,
    .count "cache_size" s.cacheSize]

def generatorSettings (s : GeneratorSettings) : List Setting :=
  [.text "kind" s.kind, .text? "command" s.command, .list? "args" s.args, .text "timeout" s.timeout.format]

/-- The headed tables. -/
def sections (c : Config) : List Section :=
  [("index", indexSettings c.index), ("generator", generatorSettings c.generator)]

theorem apart_top : Apart ["name", "origin", "source_viewer", "index", "generator"] := by decide +kernel

theorem apart_index :
    Apart ["repo", "tag_pattern", "file_pattern", "file_globs", "sort", "workers", "cache_size"] := by
  decide +kernel

theorem apart_generator : Apart ["kind", "command", "args", "timeout"] := by decide +kernel

theorem write_eq (c : Config) :
    c.write = c.topSettings.flatMap (Setting.line 0) ++ c.sections.flatMap sectionLines := by
  unfold write
  simp only [topSettings, sections, sectionLines, indexSettings, generatorSettings, List.flatMap_cons, List.flatMap_nil,
    Setting.line_text, Setting.line_text?, Setting.line_list?, Setting.line_count, List.append_nil, List.append_assoc]

/-! ## Settings that can be written -/

def texts (c : Config) : List Bytes :=
  [c.name, c.origin, c.sourceViewer, c.index.repo, c.index.tagPattern, c.index.filePattern, c.index.sort,
    c.generator.kind, c.generator.command] ++ (c.index.fileGlobs ++ c.generator.args)

/-- The texts are valid, and no number takes more than 64 signed bits. -/
structure Fits (c : Config) : Prop where
  texts : ∀ s ∈ c.texts, Utf8.valid s = true
  workers : c.index.workers < Decimal.signedLimit
  cacheSize : c.index.cacheSize < Decimal.signedLimit
  timeout : c.generator.timeout.nanoseconds < Decimal.signedLimit

/-- No number is negative. -/
structure Natural (c : Config) : Prop where
  workers : 0 ≤ c.index.workers
  cacheSize : 0 ≤ c.index.cacheSize
  timeout : 0 ≤ c.generator.timeout.nanoseconds

variable {c : Config}

theorem sound_topSettings (fits : c.Fits) : ∀ f ∈ c.topSettings, f.Sound := by
  have valid := fits.texts
  simp only [texts, List.cons_append, List.forall_mem_cons] at valid
  simp only [topSettings, List.forall_mem_cons]
  exact ⟨Setting.sound_text (by decide +kernel) valid.1, Setting.sound_text? (by decide +kernel) valid.2.1,
    Setting.sound_text? (by decide +kernel) valid.2.2.1, nofun⟩

theorem sound_sections (fits : c.Fits) (natural : c.Natural) : ∀ s ∈ c.sections, SoundSection s := by
  have valid := fits.texts
  simp only [texts, List.cons_append, List.nil_append, List.forall_mem_cons, List.forall_mem_append] at valid
  obtain ⟨-, -, -, repo, tagPattern, filePattern, sort, kind, command, globs, args⟩ := valid
  simp only [sections, List.forall_mem_cons]
  have index : Bare (lit "index") := by decide +kernel
  have generator : Bare (lit "generator") := by decide +kernel
  refine ⟨⟨index, ?_, apart_index⟩, ⟨generator, ?_, apart_generator⟩, nofun⟩
  · simp only [indexSettings, List.forall_mem_cons]
    exact ⟨Setting.sound_text (by decide +kernel) repo, Setting.sound_text? (by decide +kernel) tagPattern,
      Setting.sound_text? (by decide +kernel) filePattern, Setting.sound_list? (by decide +kernel) globs,
      Setting.sound_text (by decide +kernel) sort, Setting.sound_count (by decide +kernel) natural.workers fits.workers,
      Setting.sound_count (by decide +kernel) natural.cacheSize fits.cacheSize, nofun⟩
  · simp only [generatorSettings, List.forall_mem_cons]
    exact ⟨Setting.sound_text (by decide +kernel) kind, Setting.sound_text? (by decide +kernel) command,
      Setting.sound_list? (by decide +kernel) args, Setting.sound_text (by decide +kernel) (Duration.valid_format _), nofun⟩

/-- What the document says: the settings, and a table for each heading. -/
theorem parse_write_eq (fits : c.Fits) (natural : c.Natural) :
    Toml.parse c.write = some (entries c.topSettings ++ c.sections.map fun s => (lit s.1, .table (entries s.2))) := by
  have noMark : (c.topSettings.flatMap (Setting.line 0) ++ c.sections.flatMap sectionLines).head? ≠ some 0xEF := by
    have name : lit "name" = 110 :: lit "ame" := by decide
    simp [topSettings, Setting.line_text, stringLine, line, name]
  rw [write_eq]
  exact parse_document (sound_topSettings fits) (sound_sections fits natural) apart_top noMark

/-! ## Settings that are read back -/

variable {settings : List Setting} {n : String}

theorem stringField_text (apart : Apart (settings.map Setting.name)) {s : Bytes} (member : Setting.text n s ∈ settings) :
    stringField (entries settings) n = some s := by
  rw [stringField, lookup_entries apart member]
  rfl

theorem stringField_text? (apart : Apart (settings.map Setting.name)) {s : Bytes} (member : Setting.text? n s ∈ settings) :
    stringField (entries settings) n = some s := by
  rw [stringField, lookup_entries apart member]
  cases s <;> rfl

theorem integerField_count (apart : Apart (settings.map Setting.name)) {i : Int} (member : Setting.count n i ∈ settings) :
    integerField (entries settings) n = some i := by
  rw [integerField, lookup_entries apart member]
  rfl

/-- Texts are read back one by one. -/
theorem mapM_strings {f : Value → Option Bytes} (each : ∀ s, f (.string s) = some s) (items : List Bytes) :
    (items.map Value.string).mapM f = some items := by
  induction items with
  | nil => rfl
  | cons s items ih => simp [List.mapM_cons, each, ih]

theorem listField_list? (apart : Apart (settings.map Setting.name)) {l : List Bytes}
    (member : Setting.list? n l ∈ settings) : listField (entries settings) n = some l := by
  rw [listField, lookup_entries apart member]
  cases l with
  | nil => rfl
  | cons s items => exact mapM_strings (fun _ => rfl) (s :: items)

theorem durationField_text (apart : Apart (settings.map Setting.name)) {d : Duration} (natural : 0 ≤ d.nanoseconds)
    (small : d.nanoseconds < Decimal.signedLimit) (member : Setting.text n d.format ∈ settings) :
    durationField (entries settings) n = some d := by
  rw [durationField, lookup_entries apart member]
  change (Duration.parse d.format).toOption = some d
  rw [Duration.parse_format natural small]
  rfl

theorem tableField_table (apart : Apart (settings.map Setting.name)) {s : Bytes} {t : List (Bytes × Value)}
    (member : ⟨n, some (s, .table t)⟩ ∈ settings) : tableField (entries settings) n = some t := by
  rw [tableField, lookup_entries apart member]
  rfl

theorem bind_of_eq_some {α β : Type} {x : Option α} {f : α → Option β} {a : α} {b : β} (found : x = some a)
    (next : f a = some b) : (x >>= f) = some b := by
  rw [found]
  exact next

/-- Settings are read back from the document that holds them. -/
theorem parse_write (fits : c.Fits) (natural : c.Natural) : Config.parse c.write = .ok c := by
  -- seen as a table, a headed table is one more setting of the document
  let settings := c.topSettings ++ c.sections.map fun s => Setting.mk s.1 (some ([], .table (entries s.2)))
  have document : Toml.parse c.write = some (entries settings) := by
    rw [parse_write_eq fits natural]
    simp [settings, entries, sections, Setting.entry?]
  have top : Apart (settings.map Setting.name) := apart_top
  have index : Apart ((indexSettings c.index).map Setting.name) := apart_index
  have generator : Apart ((generatorSettings c.generator).map Setting.name) := apart_generator
  have headed : tableField (entries settings) "index" = some (entries (indexSettings c.index)) :=
    tableField_table top (s := []) (by simp [settings, sections])
  have headed' : tableField (entries settings) "generator" = some (entries (generatorSettings c.generator)) :=
    tableField_table top (s := []) (by simp [settings, sections])
  have name := stringField_text top (n := "name") (s := c.name) (by simp [settings, topSettings])
  have origin := stringField_text? top (n := "origin") (s := c.origin) (by simp [settings, topSettings])
  have viewer := stringField_text? top (n := "source_viewer") (s := c.sourceViewer) (by simp [settings, topSettings])
  have repo := stringField_text index (n := "repo") (s := c.index.repo) (by simp [indexSettings])
  have tags := stringField_text? index (n := "tag_pattern") (s := c.index.tagPattern) (by simp [indexSettings])
  have files := stringField_text? index (n := "file_pattern") (s := c.index.filePattern) (by simp [indexSettings])
  have globs := listField_list? index (n := "file_globs") (l := c.index.fileGlobs) (by simp [indexSettings])
  have sort := stringField_text index (n := "sort") (s := c.index.sort) (by simp [indexSettings])
  have workers := integerField_count index (n := "workers") (i := c.index.workers) (by simp [indexSettings])
  have cache := integerField_count index (n := "cache_size") (i := c.index.cacheSize) (by simp [indexSettings])
  have kind := stringField_text generator (n := "kind") (s := c.generator.kind) (by simp [generatorSettings])
  have command := stringField_text? generator (n := "command") (s := c.generator.command) (by simp [generatorSettings])
  have args := listField_list? generator (n := "args") (l := c.generator.args) (by simp [generatorSettings])
  have timeout := durationField_text generator (n := "timeout") natural.timeout fits.timeout (by simp [generatorSettings])
  have read : ofDocument (entries settings) = some c := by
    rw [ofDocument]
    exact bind_of_eq_some headed <| bind_of_eq_some headed' <| bind_of_eq_some name <| bind_of_eq_some origin <|
      bind_of_eq_some viewer <| bind_of_eq_some repo <| bind_of_eq_some tags <| bind_of_eq_some files <|
      bind_of_eq_some globs <| bind_of_eq_some sort <| bind_of_eq_some workers <| bind_of_eq_some cache <|
      bind_of_eq_some kind <| bind_of_eq_some command <| bind_of_eq_some args <| bind_of_eq_some timeout rfl
  rw [Config.parse, document, Option.bind_some, read]
  rfl

/-! ## Settings that work -/

/-- What goes on after a check has passed it. -/
theorem of_guard {α : Type} {p : Prop} [Decidable p] {e : Fault} {next : Unit → Except Fault α} {a : α}
    (ended : (if p then throw e >>= next else next ()) = .ok a) : ¬p ∧ next () = .ok a := by
  split at ended
  · cases ended
  · rename_i passed
    exact ⟨passed, ended⟩

/-- Settings that work have a valid name and no negative number. -/
theorem natural_of_validate (works : c.validate = .ok ()) : validateName c.name = .ok () ∧ c.Natural := by
  unfold validate at works
  obtain ⟨_, named, works⟩ := exists_of_bind_ok works
  obtain ⟨-, works⟩ := of_guard works
  obtain ⟨_, -, works⟩ := exists_of_bind_ok works
  obtain ⟨_, -, works⟩ := exists_of_bind_ok works
  obtain ⟨_, -, works⟩ := exists_of_bind_ok works
  obtain ⟨workers, works⟩ := of_guard works
  obtain ⟨cacheSize, works⟩ := of_guard works
  obtain ⟨_, -, works⟩ := exists_of_bind_ok works
  split at works
  · cases works
  · rename_i timeout
    exact ⟨named, Int.not_lt.mp workers, Int.not_lt.mp cacheSize, Int.not_lt.mp timeout⟩

/-- What was filled in is not filled in again. -/
theorem normalize_normalize (c : Config) : c.normalize.normalize = c.normalize := by
  have time : TagOrder.time.name.isEmpty = false := by decide
  have command : Generator.Choice.commandKind.isEmpty = false := by decide
  have size : (defaultCacheSize == 0) = false := by decide
  simp only [normalize]
  congr 2
  · split <;> simp_all
  · split <;> simp_all
  · split <;> simp_all

/-- What is filled in can be written. -/
theorem fits_normalize (fits : c.Fits) : c.normalize.Fits := by
  have time : Utf8.valid TagOrder.time.name = true := by decide
  have command : Utf8.valid Generator.Choice.commandKind = true := by decide
  have valid := fits.texts
  simp only [texts, List.cons_append, List.nil_append, List.forall_mem_cons] at valid
  obtain ⟨name, origin, viewer, repo, tags, files, sort, kind, rest⟩ := valid
  refine ⟨?_, fits.workers, ?_, fits.timeout⟩
  · simp only [texts, normalize, List.cons_append, List.nil_append, List.forall_mem_cons]
    refine ⟨name, origin, viewer, repo, tags, files, ?_, ?_, rest⟩
    · split
      · exact time
      · exact sort
    · split
      · exact command
      · exact kind
  · simp only [normalize]
    split
    · decide
    · exact fits.cacheSize

/-- Settings that work are loaded as they were saved. -/
theorem load_write (fits : c.Fits) (works : c.normalize.validate = .ok ()) :
    Config.load c.normalize.write = .ok c.normalize := by
  rw [load, parse_write (fits_normalize fits) (natural_of_validate works).2]
  change (c.normalize.normalize.validate >>= fun _ => pure c.normalize.normalize) = _
  rw [normalize_normalize, works]
  rfl

end Config

end SymbolHistory
