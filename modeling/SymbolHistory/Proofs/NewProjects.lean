/-
# Proofs.NewProjects -- a project is opened as it was registered

Registering a project puts its settings, with what was left out filled in, where
they are looked for (`create_lands`).  So whoever opens the project gets what
whoever registered it got (`open_create`), and saving the settings that were
loaded does not change a byte of their file.
-/
import SymbolHistory.Project
import SymbolHistory.Proofs.SavedSettings
import SymbolHistory.Proofs.SureWrites

set_option autoImplicit false

namespace SymbolHistory

open SymbolHistory.Path FileTree Run Host

namespace Host

theorem sound_lasting : Lasting fun h g : Host => h.Sound → g.Sound where
  refl _ sound := sound
  trans first second sound := second (first sound)

theorem makeFolder_sound (p : Bytes) : (makeFolder p).Keeps fun h g => h.Sound → g.Sound := by
  intro h sound
  rcases (makeFolder_ends sound p).holds with same | ⟨same, absent, parent⟩
  · rw [same]
    exact sound
  · rw [same]
    exact sound_of_set sound parent (by simp [absent])

end Host

namespace Project

variable {h g : Host} {settings : Config} {p : Project}

/-- Making the folders of a project keeps all files in folders. -/
theorem makeFolders_sound (activity : Bytes) (folders : List Bytes) :
    (folders.forM fun folder => Run.during activity (Host.makeFolders folder)).Keeps fun h g => h.Sound → g.Sound :=
  Keeps.forM sound_lasting (fun folder => (Keeps.forM sound_lasting makeFolder_sound (ancestors folder)).during activity)
    folders

/-- Whoever saves settings finds them where they were saved. -/
theorem saveFile_lands (sound : h.Sound) {path : Bytes} {c : Config}
    (saved : (Config.saveFile path c).on h = (.ok (), g)) :
    g.Sound ∧ g.look path = .ok (.file c.write false) := by
  rw [Config.saveFile] at saved
  obtain ⟨changes, found⟩ := ((AtomicFile.writeAll_lands sound path c.write).during _).of_ok saved
  exact ⟨changes.sound, found⟩

/-- A new project has working settings, and they are where they are looked for. -/
theorem create_lands (sound : h.Sound) (db : Bytes) (created : (create db settings).on h = (.ok p, g)) :
    settings.normalize.validate = .ok () ∧ p = ⟨⟨join [db, settings.name]⟩, settings.normalize⟩ ∧ g.Sound ∧
      g.look p.layout.config = .ok (.file p.config.write false) := by
  rw [create] at created
  obtain ⟨_, k, checked, created⟩ := on_bind_ok created
  rw [on_ofExcept] at checked
  obtain ⟨works, rfl⟩ := Prod.ext_iff.mp checked
  obtain ⟨there, k, looked, created⟩ := on_bind_ok created
  rw [on_isThere] at looked
  obtain ⟨-, rfl⟩ := Prod.ext_iff.mp looked
  cases there with
  | true =>
      obtain ⟨_, _, thrown, -⟩ := on_bind_ok created
      cases thrown
  | false =>
      obtain ⟨_, k, made, created⟩ := on_bind_ok created
      obtain ⟨_, k', saved, created⟩ := on_bind_ok created
      cases created
      obtain ⟨sound', found⟩ := saveFile_lands ((makeFolders_sound _ _).after made sound) saved
      exact ⟨works, rfl, sound', found⟩

/-- Settings are loaded from a file that holds their document. -/
theorem on_loadFile {path text : Bytes} {c : Config} {x : Bool} (found : g.look path = .ok (.file text x))
    (loaded : Config.load text = .ok c) : (Config.loadFile path).on g = (.ok c, g) := by
  have read : (readFile path).on g = (.ok text, g) := by
    rw [readFile, on_bind, on_get]
    simp only [found]
    rfl
  rw [Config.loadFile, on_bind, on_attempt, read]
  change (Run.during _ (Run.ofExcept (Config.load text))).on g = _
  rw [on_during, on_ofExcept, loaded]
  rfl

/-- A project is opened as it was registered: under its name, with the settings that were given, what
was left out filled in.  Its file holds these settings, and whoever saves them again finds the same
bytes there, whether the saving succeeds or not. -/
theorem open_create (sound : h.Sound) (db : Bytes) (fits : settings.Fits)
    (created : (create db settings).on h = (.ok p, g)) :
    («open» db settings.name).on g = (.ok p, g) ∧ p.config = settings.normalize ∧
      g.contentAt? p.layout.config = some p.config.write ∧
      ∀ outcome k, (Config.saveFile p.layout.config p.config).on g = (outcome, k) →
        k.contentAt? p.layout.config = g.contentAt? p.layout.config := by
  obtain ⟨works, rfl, sound', found⟩ := create_lands sound db created
  have named := (Config.natural_of_validate works).1
  have content : g.contentAt? (Layout.config ⟨join [db, settings.name]⟩) = some settings.normalize.write := by
    rw [contentAt?, found]
  refine ⟨?_, rfl, content, fun outcome k saved => ?_⟩
  · have name : Config.validateName settings.name = .ok () := named
    have same : (settings.normalize.name == settings.name) = true := beq_self_eq_true settings.name
    rw [«open», on_bind, on_ofExcept, name]
    simp only [on_bind, on_loadFile found (Config.load_write fits works), same, if_true]
    rfl
  · cases outcome with
    | ok _ => rw [content, contentAt?, (saveFile_lands sound' saved).2]
    | error e =>
        -- what fails makes folders at most, where the file is not
        have change := ((AtomicFile.writeAll_lands sound' _ _).during (lit "save config")).of_error saved
        have there := ((look_eq_ok_iff sound').mp found).2.1
        refine contentAt?_congr sound' change.sound change.folder ?_
        rcases change.tree (g.locate (Layout.config ⟨join [db, settings.name]⟩)) with same | ⟨-, absent, -⟩
        · exact same
        · rw [absent] at there
          cases there

/-- Settings whose texts have quotes, control characters and letters of all sorts, one of them empty. -/
def quotedSettings : Config where
  name := lit "d\"j 'vu'"
  origin := lit "first\nsecond\t\\u00e9\x1b\""
  sourceViewer := lit "naïve ☃"
  index := { repo := lit "/srv/it's", tagPattern := lit "^v(\\d+)", fileGlobs := [lit "*.[ch]", lit "a\"b"], workers := 3 }
  generator := { command := lit "ctags", args := [lit "--kinds-C=+p", [], lit "\x00 '''"], timeout := ⟨3600000000001⟩ }

theorem open_create_quoted : ∃ p g, (create (lit "/db") quotedSettings).on {} = (.ok p, g) ∧
    («open» (lit "/db") quotedSettings.name).on g = (.ok p, g) ∧
    p.config = { quotedSettings with
      index := { quotedSettings.index with sort := lit "time", cacheSize := 4096 }
      generator := { quotedSettings.generator with kind := lit "ctags" } } ∧
    ∀ outcome k, (Config.saveFile p.layout.config p.config).on g = (outcome, k) →
      k.contentAt? p.layout.config = some p.config.write := by
  have sound : Sound {} := by decide +kernel
  have fits : quotedSettings.Fits := ⟨by decide +kernel, by decide, by decide, by decide⟩
  have works : ((create (lit "/db") quotedSettings).on {}).1 =
      .ok ⟨⟨lit "/db/d\"j 'vu'"⟩, quotedSettings.normalize⟩ := by decide +kernel
  have created := on_eq_of_ok works
  obtain ⟨opened, -, there, same⟩ := open_create sound (lit "/db") fits created
  exact ⟨_, _, created, opened, by decide, fun outcome k saved => (same outcome k saved).trans there⟩

end Project

end SymbolHistory
