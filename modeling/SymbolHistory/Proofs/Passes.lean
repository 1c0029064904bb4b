/-
# Proofs.Passes -- which versions the diffs of a project speak of

A pass makes the diffs that are missing from the symbol files that are there when
it compares (`stages_yields`), and no later pass makes them again.  So however
often a project is passed over, its diffs are those of the first pass
(`diffs_of_first_pass`).  Symbol files that later passes add are not in them:
the diffs agree with the symbol files at the end exactly when the additions make
no difference to any of them.
-/
import Mathlib.Data.List.Basic
import SymbolHistory.Proofs.Enumerations
import SymbolHistory.Proofs.Stages

set_option autoImplicit false

namespace SymbolHistory

open SymbolHistory.Path FileTree Run Host

namespace Project

def fileFilter (p : Project) : FileFilter := p.config.filter.toOption.getD {}

def selected (p : Project) (all : List Tag) : List Tag :=
  let pattern := p.config.tagKey.toOption.getD none
  (Tag.dropCollisions (Tag.select (pattern.map Tag.key) p.config.order all)).1

/-- The tags that are indexed: those selected whose files can be listed. -/
def indexed (p : Project) (all : List Tag) (known : Tag → List FileEntry × Option Fault) : List Tag :=
  Extractor.listed known (p.selected all)

def files (p : Project) (known : Tag → List FileEntry × Option Fault) (tag : Tag) : List FileEntry :=
  (known tag).1.filter fun e => p.fileFilter.keeps e.path

/-- The ids of the contents of all files that a pass visits, each once. -/
def contentIds (p : Project) (all : List Tag) (known : Tag → List FileEntry × Option Fault) :
    List Bytes := Extractor.gather [] ((p.selected all).flatMap (p.files known))

/-- The version of a tag by the symbol files that are there. -/
def version (p : Project) (known : Tag → List FileEntry × Option Fault) (h : Host) (tag : Tag) :
    Table := Table.ofLoads (p.layout.finds h (p.files known tag))

/-- The diff that leads to a tag by the symbol files that are there, when symbols are met in this
order. -/
def diffText (p : Project) (order : Tag → Enumeration) (known : Tag → List FileEntry × Option Fault)
    (h : Host) (tags : List Tag) (i : Nat) : Bytes :=
  (tags[i]?.map fun tag => Comparison.rendering (order tag)
    (Comparison.versionBefore (p.version known h) {} tags i) (p.version known h tag)).getD []

/-- Every diff is the one by the symbol files that are there. -/
def Consistent (p : Project) (order : Tag → Enumeration)
    (known : Tag → List FileEntry × Option Fault) (tags : List Tag) (h : Host) : Prop :=
  ∀ (i : Nat) (inside : i < tags.length),
    h.look (p.layout.diff tags[i].name) = .ok (.file (p.diffText order known h tags i) false)

/-- Every content that is indexed has a symbol file. -/
def Settled (p : Project) (known : Tag → List FileEntry × Option Fault) (tags : List Tag)
    (h : Host) : Prop :=
  ∀ tag ∈ tags, ∀ e ∈ p.files known tag, ObjectId.isValid e.id = true →
    (h.contentAt? (p.layout.tagStore.path e.id)).isSome = true

/-- Versions are the same on hosts that say the same about the contents of their files. -/
theorem version_congr (p : Project) {known : Tag → List FileEntry × Option Fault} {h g : Host}
    {tag : Tag} (same : ∀ e ∈ p.files known tag,
      p.layout.symbolsAt g e.id = p.layout.symbolsAt h e.id) :
    p.version known g tag = p.version known h tag := by
  have finds : p.layout.finds g (p.files known tag) = p.layout.finds h (p.files known tag) := by
    refine List.flatMap_congr fun e member => ?_
    rw [same e member]
  rw [version, finds, version]

theorem diffText_congr (p : Project) {order : Tag → Enumeration}
    {known : Tag → List FileEntry × Option Fault} {h g : Host} {tags : List Tag}
    (same : ∀ tag ∈ tags, p.version known g tag = p.version known h tag) (i : Nat) :
    p.diffText order known g tags i = p.diffText order known h tags i := by
  rw [diffText, Comparison.versionBefore_congr same, diffText]
  cases there : tags[i]? with
  | none => rfl
  | some tag => rw [Option.map_some, same tag (List.mem_of_getElem? there), Option.map_some]

/-- The order makes no difference to a diff unless ids of a version clash. -/
theorem diffText_of_clear (p : Project) (order order' : Tag → Enumeration)
    {known : Tag → List FileEntry × Option Fault} {h : Host} {tags : List Tag}
    (clear : ∀ tag ∈ tags, (p.version known h tag).Clear) (i : Nat) :
    p.diffText order known h tags i = p.diffText order' known h tags i := by
  rw [diffText, diffText]
  cases there : tags[i]? with
  | none => rfl
  | some tag =>
      rw [Option.map_some, Option.map_some, Comparison.rendering_eq (order tag) (order' tag)]
      · exact Comparison.versionBefore_of (Table.distinct_ofLoads [])
          (fun _ _ => Table.distinct_ofLoads _) i
      · exact Table.distinct_ofLoads _
      · exact Comparison.versionBefore_of (Table.clear_of_length (by decide)) clear i
      · exact clear tag (List.mem_of_getElem? there)

end Project

/-! ## One pass -/

namespace Pipeline

/-- From `h` to `g` a project has lost nothing: symbol files and diffs are what they were. -/
structure Onward (p : Project) (all : List Tag) (known : Tag → List FileEntry × Option Fault)
    (h g : Host) : Prop where
  sound : g.Sound
  usual : p.layout.Usual h g
  kept : ∀ {id data : Bytes}, ObjectId.isValid id = true →
    h.contentAt? (p.layout.tagStore.path id) = some data →
      g.contentAt? (p.layout.tagStore.path id) = some data
  old : ∀ tag ∈ p.indexed all known, ∀ n, h.look (p.layout.diff tag.name) = .ok n →
    g.look (p.layout.diff tag.name) = .ok n

theorem Onward.trans {p : Project} {all : List Tag} {known : Tag → List FileEntry × Option Fault}
    {h g k : Host} (first : Onward p all known h g) (second : Onward p all known g k) :
    Onward p all known h k where
  sound := second.sound
  usual := first.usual.trans second.usual
  kept valid there := second.kept valid (first.kept valid there)
  old tag member n there := second.old tag member n (first.old tag member n there)

/-- What a pass comes to that begins on `h` and ends on `g`: diffs that were missing are made from
the symbol files. -/
structure Pass (p : Project) (order : Tag → Enumeration) (all : List Tag)
    (known : Tag → List FileEntry × Option Fault) (h g : Host) : Prop
    extends Onward p all known h g where
  new : ∀ (i : Nat) (inside : i < (p.indexed all known).length),
    (h.look (p.layout.diff (p.indexed all known)[i].name)).isOk = false →
      g.look (p.layout.diff (p.indexed all known)[i].name) =
        .ok (.file (p.diffText order known g (p.indexed all known) i) false)

namespace Pass

variable {p : Project} {order : Tag → Enumeration} {all : List Tag}
  {known : Tag → List FileEntry × Option Fault} {h h' g m : Host}

/-- What happens after a pass does not matter as long as symbol files and diffs stay. -/
theorem after (pass : Pass p order all known h m) (sound : g.Sound) (usual : p.layout.Usual m g)
    (symbolFile : ∀ {id : Bytes}, ObjectId.isValid id = true →
      g.contentAt? (p.layout.tagStore.path id) = m.contentAt? (p.layout.tagStore.path id))
    (diff : ∀ tag ∈ p.indexed all known, ∀ n,
      g.look (p.layout.diff tag.name) = .ok n ↔ m.look (p.layout.diff tag.name) = .ok n) :
    Pass p order all known h g := by
  refine ⟨⟨sound, pass.usual.trans usual, fun valid there => ?_, ?_⟩, ?_⟩
  · rw [symbolFile valid]
    exact pass.kept valid there
  · exact fun tag member n there => (diff tag member n).mpr (pass.old tag member n there)
  · intro i inside missing
    have symbols : ∀ id, p.layout.symbolsAt g id = p.layout.symbolsAt m id :=
      fun _ => p.layout.symbolsAt_congr symbolFile
    rw [p.diffText_congr fun tag _ => p.version_congr fun e _ => symbols e.id,
      diff _ (List.getElem_mem inside)]
    exact pass.new i inside missing

theorem spares (pass : Pass p order all known h m)
    (names : ∀ tag ∈ p.indexed all known, IsName (Tag.fileName tag.name))
    (spares : p.layout.Spares Layout.stores m g) : Pass p order all known h g := by
  refine pass.after spares.sound spares.usual (fun valid => ?_) fun tag member n => ?_
  · exact contentAt?_congr pass.sound spares.sound spares.folder
      (spares.get?_eq (p.layout.locate_symbolFile m valid) (by decide))
  · have place := p.layout.locate_diff_root m (names tag member)
    exact look_congr pass.sound spares.sound spares.folder (spares.get?_eq place (by decide))

theorem sameFiles_after (pass : Pass p order all known h m) (same : SameFiles m g) :
    Pass p order all known h g := by
  refine pass.after (same.sound pass.sound) (.sameFiles same) (fun _ => ?_) fun _ _ _ => ?_
  · rw [contentAt?, look_of_sameFiles same, contentAt?]
  · rw [look_of_sameFiles same]

/-- A pass may as well have begun on a host with the same files. -/
theorem sameFiles_before (pass : Pass p order all known h' g) (same : SameFiles h h') :
    Pass p order all known h g := by
  have look : ∀ path, h'.look path = h.look path := look_of_sameFiles same
  refine ⟨⟨pass.sound, (Layout.Usual.sameFiles same).trans pass.usual, fun valid there => ?_, ?_⟩,
    ?_⟩
  · refine pass.kept valid ?_
    rw [contentAt?, look]
    exact there
  · intro tag member n there
    exact pass.old tag member n ((look _).trans there)
  · intro i inside missing
    rw [← look] at missing
    exact pass.new i inside missing

/-- A comparison after the project has gained contents and symbol files makes a pass. -/
theorem of_reached {c : Comparison} (layout : c.layout = p.layout) (isOrder : c.order = order)
    (version : ∀ k tag, c.version known k tag = p.version known k tag) (sound : h.Sound)
    (names : ∀ tag ∈ p.indexed all known, IsName (Tag.fileName tag.name))
    (retains : p.layout.Retains h m) (spares : p.layout.Spares [Layout.diffsName] h m)
    (reached : c.Reached m (c.due (c.version known m) m {} (p.indexed all known)) g) :
    Pass p order all known h g := by
  rw [funext (version m)] at reached
  have diff : ∀ tag ∈ p.indexed all known, h.locate (p.layout.diff tag.name) =
      h.locate p.layout.root ++ [Layout.diffsName, Tag.fileName tag.name] :=
    fun tag member => p.layout.locate_diff_root h (names tag member)
  have symbols : ∀ id, p.layout.symbolsAt g id = p.layout.symbolsAt m id :=
    layout ▸ reached.symbolsAt retains.sound
  refine ⟨⟨reached.sound, retains.usual.trans (layout ▸ reached.usual),
    fun valid there => ?_, ?_⟩, ?_⟩
  · rw [← layout, reached.symbolFile retains.sound valid, layout]
    exact retains.kept valid there
  · intro tag member n there
    refine reached.look_of_ok retains.sound ?_
    exact (look_congr sound retains.sound spares.folder
      (spares.get?_eq (diff tag member) (by decide))).mpr there
  · intro i inside missing
    rw [← isOk_look_congr sound retains.sound spares.folder
      (spares.get?_eq (diff _ (List.getElem_mem inside)) (by decide))] at missing
    have isDue : (Tag.fileName (p.indexed all known)[i].name,
        Comparison.rendering (order (p.indexed all known)[i])
          (Comparison.versionBefore (p.version known m) {} (p.indexed all known) i)
          (p.version known m (p.indexed all known)[i])) ∈
        c.due (p.version known m) m {} (p.indexed all known) :=
      (Comparison.mem_due_iff c (p.version known m) m _ _ {}).mpr
        ⟨i, inside, layout.symm ▸ missing, isOrder ▸ rfl⟩
    rw [p.diffText_congr fun tag _ => p.version_congr fun e _ => symbols e.id, Project.diffText,
      List.getElem?_eq_getElem inside]
    have made := reached.look_of_mem isDue
    rw [layout] at made
    exact made

end Pass

section

variable {p : Project} {all : List Tag} {known : Tag → List FileEntry × Option Fault} {h g : Host}

theorem selectTags_yields {source : Source} {usual : Host → Prop}
    (fixed : source.Fixed usual all known) (good : usual h) :
    (selectTags source p.config).Yields h (fun r g => Quiet h g ∧ r.1 = p.selected all)
      (Quiet h) := by
  rw [selectTags]
  refine Yields.ofExcept_bind (fun pattern isPattern => ?_) fun _ _ => quiet_lasting.refl h
  refine ((fixed.tags h good).during _).bind ?_
  rintro _ g ⟨same, rfl⟩
  refine ⟨same, ?_⟩
  rw [Project.selected, isPattern]
  rfl

/-- What a pass came to is written beside the stores. -/
theorem writeMeta_yields (sound : g.Sound) (outcome : Outcome) (now : Timestamp)
    {apart : List Bytes} :
    (writeMeta p outcome now).Yields g (fun _ => p.layout.Spares Layout.stores g)
      (p.layout.Spares apart g) := by
  have isName : IsName Layout.metaName := ⟨⟨by decide, by decide, by decide⟩, by decide⟩
  have read : p.lastRun.Keeps Quiet := by
    refine Keeps.bind quiet_lasting (readFile_quiet _).attempt fun outcome => ?_
    cases outcome with
    | ok text => exact (Keeps.ofExcept quiet_lasting _).during _
    | error f =>
        dsimp only
        split
        · exact Keeps.pure quiet_lasting _
        · exact Keeps.throw quiet_lasting _
  have start : ∀ {apart}, p.layout.Spares apart g g := Layout.Spares.refl sound
  rw [writeMeta]
  refine ((read.yields g).mono (fun _ _ same => same) fun _ same => start.quiet same).bind
    fun last k same => ?_
  have written := fun data =>
    AtomicFile.writeAll_yields (d := p.layout.root) (same.sound sound) isName data
  refine ((written _).during _).mono ?_ fun _ grown => (start.quiet same).trans (.of_grows grown)
  rintro _ m ⟨put, -⟩
  exact (start.quiet same).trans (.of_puts put (k.locate_join p.layout.root isName) (by decide))

/-- What stores the contents in a pass that begins on `h`. -/
def extractor (p : Project) (source : Source) (tools : Tools) (h : Host) : Extractor where
  source := source
  store := p.layout.objectStore
  filter := p.fileFilter
  workers := workerCount p.config tools.workers h

/-- A pass comes to what its stages come to one after another: which tags and contents they are
about is known before it begins. -/
theorem stages_of_stages {source : Source} {generator : Generator} {tools : Tools}
    {stored listed compared : Host → Prop} {organized : List Bytes → Host → Prop}
    {done : Outcome → Host → Prop} {fail : Host → Prop} (x : Extractor)
    (isExtractor : x = extractor p source tools h)
    (fixed : source.Fixed (Quiet h) all known)
    (extracts : ∀ g, Quiet h g →
      (x.writeObjects (p.contentIds all known)).Yields g (fun _ => stored) fail)
    (organizes : ∀ g k created, stored g → Quiet g k →
      (organize ⟨p.layout, generator⟩ (p.contentIds all known) created).Yields k
        organized fail)
    (lists : ∀ pending g k, organized pending g → Quiet g k →
      (listNames p.layout pending).Yields k (fun _ => listed) fail)
    (compares : ∀ g k, listed g → Quiet g k →
      (({ layout := p.layout, walker := .filtered x, order := tools.order } : Comparison).run
        (p.indexed all known)).Yields k
        (fun _ => compared) fail)
    (saves : ∀ g k outcome, compared g → Quiet g k → outcome.tags = p.indexed all known →
      (writeMeta p outcome tools.now).Yields k (fun _ m => ∀ n, Quiet m n → done outcome n) fail)
    (failure : ∀ {g k}, fail g → Quiet g k → fail k) (leave : ∀ {g}, Quiet h g → fail g)
    (runId : Bytes) : (stages p source generator tools p.fileFilter runId).Yields h done fail := by
  -- a stage ends with reports, so what follows begins on a host with the same files
  have staged : ∀ {α : Type} {work : Run α} {g : Host} {ended : α → Host → Prop} (name : String),
      work.Yields g ended fail →
        (stage name work).Yields g (fun a k => ∃ m, ended a m ∧ Quiet m k) fail := by
    intro α work g ended name yields
    refine stage_yields name (yields.mono (fun a m isEnded => ⟨m, isEnded, quiet_lasting.refl m⟩)
      fun _ failed => failed) ?_ failure
    rintro a k n ⟨m, isEnded, same⟩ same'
    exact ⟨m, isEnded, quiet_lasting.trans same same'⟩
  rw [stages, yields_get_bind]
  refine (report_sure _ _ _).yields_bind fun _ g same => ?_
  refine (staged "select" ((selectTags_yields (p := p) fixed same).mono (fun _ _ ended => ended)
    fun _ same' => leave (quiet_lasting.trans same same'))).bind ?_
  rintro ⟨selected, collided⟩ g ⟨m, ⟨same', isSelected⟩, same''⟩
  obtain rfl : selected = p.selected all := isSelected
  have same := quiet_lasting.trans (quiet_lasting.trans same same') same''
  have reported := Keeps.forM quiet_lasting (fun tag : Tag => report_quiet .warn
    "tag skipped: diff file name already taken" [("tag", tag.name), ("file", Tag.fileName tag.name)])
    collided
  refine ((reported.yields g).mono (fun _ _ same' => quiet_lasting.trans same same')
    fun _ same' => leave (quiet_lasting.trans same same')).bind fun _ g same => ?_
  refine (report_sure _ _ _).yields_bind fun _ g same' => ?_
  have same := quiet_lasting.trans same same'
  subst isExtractor
  have collect := Extractor.collect_yields (x := extractor p source tools h) fixed.steady
    quiet_lasting.trans same (p.selected all)
  refine (staged "collect" (collect.mono (fun _ _ ended => ended)
    fun _ same' => leave (quiet_lasting.trans same same'))).bind ?_
  rintro found g ⟨m, ⟨same', tags, ids⟩, same''⟩
  have same := quiet_lasting.trans (quiet_lasting.trans same same') same''
  have tags : found.tags = p.indexed all known := tags
  rw [ids, tags]
  refine (staged "extract" (extracts g same)).bind ?_
  rintro created g ⟨m, isStored, same⟩
  refine (staged "organize" (organizes m g created.length isStored same)).bind ?_
  rintro pending g ⟨m, isOrganized, same⟩
  refine (staged "autocomplete" (lists pending m g isOrganized same)).bind ?_
  rintro count g ⟨m, isListed, same⟩
  refine (staged "diff" (compares m g isListed same)).bind ?_
  rintro _ g ⟨m, isCompared, same⟩
  rw [yields_get_bind]
  refine (saves m g _ isCompared same rfl).bind fun _ k isSaved => ?_
  refine (report_sure _ _ _).yields_bind fun _ n same' => ?_
  exact (yields_pure _ _ _ _).mpr (isSaved n same')

/-- The names that storing contents leaves alone. -/
def besideObjects : List Bytes := [Layout.tagsName, Layout.diffsName, Layout.namesName]

/-- What a pass that began on `h` has come to when the names are organized: symbol files may have
been added since the contents were stored. -/
def Organized (l : Layout) (h : Host) (pending : List Bytes) (g : Host) : Prop :=
  l.Gains h g ∧ ∃ k, l.Spares besideObjects h k ∧ (pending = [] → Quiet k g)

/-- What it has come to when the names are listed: the list is of the symbol files of this moment,
or none has been added. -/
structure Listed (l : Layout) (h g : Host) : Prop where
  refreshed : l.Refreshed h g
  retains : l.Retains h g
  spares : l.Spares [Layout.diffsName] h g

theorem Listed.quiet {l : Layout} {k : Host} (listed : Listed l h g) (same : Quiet g k) :
    Listed l h k := by
  have rests : l.Rests g k := .of_sameFiles listed.retains.sound same.toSameFiles
  exact ⟨listed.refreshed.rests listed.retains.sound rests, listed.retains.trans rests.retains,
    listed.spares.quiet same⟩

theorem listNames_listed {l : Layout} (sound : h.Sound) {pending : List Bytes}
    (organized : Organized l h pending g) :
    (listNames l pending).Yields g (fun _ => Listed l h) (l.Leaves h) := by
  obtain ⟨gains, k, stored, same⟩ := organized
  refine (listNames_yields gains.sound l pending
    (by decide : _ ∉ [Layout.objectsName, Layout.tagsName, Layout.diffsName]) (by decide)).mono ?_
    fun _ (spares : l.Spares Layout.stores g _) =>
      (gains.trans (.of_spares gains.sound spares (by decide))).leaves
  rintro count m ⟨listed, fresh⟩
  refine ⟨Layout.refreshed_of_listed sound stored same fresh, ?_,
    (gains.spares.fewer (by decide)).trans (listed.fewer (by decide))⟩
  exact gains.retains.trans ⟨listed.sound, listed.usual, fun valid there =>
    (contentAt?_congr gains.sound listed.sound listed.folder
      (listed.get?_eq (l.locate_symbolFile g valid) (by decide))).trans there⟩

/-- A comparison of a pass that has listed the names. -/
theorem compare_pass (order : Tag → Enumeration) (sound : h.Sound) (listed : Listed p.layout h g)
    (empty : h.tally.cache.entries = []) {x : Extractor} (isFilter : x.filter = p.fileFilter)
    (steady : x.source.Steady (p.layout.Usual h) known)
    (names : ∀ tag ∈ p.indexed all known, IsName (Tag.fileName tag.name)) :
    (({ layout := p.layout, walker := .filtered x, order } : Comparison).run
      (p.indexed all known)).Yields g
      (fun _ k => Pass p order all known h k ∧ p.layout.Refreshed h k) (p.layout.Leaves h) := by
  let c : Comparison := { layout := p.layout, walker := .filtered x, order }
  obtain ⟨refreshed, retains, spares⟩ := listed
  have steady : c.walker.source.Steady (p.layout.Usual g) known :=
    steady.mono fun usual => spares.usual.trans usual
  have cold : ∀ e ∈ g.tally.cache.entries,
      ObjectId.isValid e.1 = true ∧ e.2 = p.layout.symbolsAt g e.1 := by
    rw [spares.cache, empty]
    simp
  refine (Comparison.run_yields (c := c) spares.sound steady cold names).mono ?_ fun m part =>
    (refreshed.leaves retains).rests (part.elim fun _ cut => .of_reached spares.sound cut.2)
  intro _ k reached
  refine ⟨Pass.of_reached (c := c) rfl rfl (fun m tag => ?_) sound names retains spares reached,
    refreshed.rests spares.sound (.of_reached spares.sound reached)⟩
  change Table.ofLoads (p.layout.finds m ((known tag).1.filter fun e => x.filter.keeps e.path)) = _
  rw [isFilter]
  rfl

/-- The stages of a pass one after another. -/
theorem stages_yields {source : Source} {generator : Generator}
    (sound : h.Sound) (tidy : p.layout.Tidy) (empty : h.tally.cache.entries = [])
    (fixed : source.Fixed (p.layout.Usual h) all known)
    (still : ∀ folder paths, (generator folder paths).Keeps Quiet)
    (names : ∀ tag ∈ p.indexed all known, IsName (Tag.fileName tag.name)) (tools : Tools)
    (runId : Bytes) :
    (stages p source generator tools p.fileFilter runId).Yields h
      (fun outcome g => Pass p tools.order all known h g ∧ p.layout.Refreshed h g ∧
        outcome.tags = p.indexed all known)
      (p.layout.Leaves h) := by
  let x := extractor p source tools h
  have start : p.layout.Spares besideObjects h h := Layout.Spares.refl sound
  have leave : ∀ {g}, p.layout.Spares besideObjects h g → p.layout.Leaves h g :=
    fun spares => (Layout.Gains.of_spares sound spares (by decide)).leaves
  have extract : ∀ g, Quiet h g → (x.writeObjects (p.contentIds all known)).Yields g
      (fun _ => p.layout.Spares besideObjects h) (p.layout.Leaves h) := fun g same =>
    (Extractor.writeObjects_yields rfl (by decide) (fun spares => spares.usual) fixed.blobs
      (start.quiet same) _).mono (fun _ _ stored => stored) fun _ => leave
  have organize : ∀ g k created, p.layout.Spares besideObjects h g → Quiet g k →
      (organize ⟨p.layout, generator⟩ (p.contentIds all known) created).Yields k
        (Organized p.layout h) (p.layout.Leaves h) := by
    intro g k created stored same
    have stored := stored.quiet same
    have gains := Layout.Gains.of_spares sound stored (by decide)
    refine (organize_yields stored.sound tidy still _ created).mono ?_
      fun _ more => (gains.trans more).leaves
    exact fun pending m organized => ⟨gains.trans organized.1, k, stored, organized.2⟩
  have save : ∀ g k outcome, (Pass p tools.order all known h g ∧ p.layout.Refreshed h g) → Quiet g k →
      outcome.tags = p.indexed all known → (writeMeta p outcome tools.now).Yields k
        (fun _ m => ∀ n, Quiet m n → Pass p tools.order all known h n ∧ p.layout.Refreshed h n ∧
          outcome.tags = p.indexed all known) (p.layout.Leaves h) := by
    rintro g k outcome ⟨pass, refreshed⟩ same tags
    have refreshed := refreshed.rests pass.sound (.of_sameFiles pass.sound same.toSameFiles)
    have pass := pass.sameFiles_after same.toSameFiles
    have onward : ∀ {m}, p.layout.Spares Layout.stores k m → p.layout.Rests k m := fun spares =>
      .of_spares pass.sound spares (by decide) (by decide)
    refine (writeMeta_yields pass.sound outcome tools.now).mono (fun _ m spares n same => ?_)
      fun _ (spares : p.layout.Spares Layout.stores k _) =>
        (refreshed.leaves ⟨pass.sound, pass.usual, pass.kept⟩).rests (onward spares)
    have spares := spares.quiet same
    exact ⟨pass.spares names spares, refreshed.rests pass.sound (onward spares), tags⟩
  refine stages_of_stages x rfl (fixed.mono fun same => .sameFiles same.toSameFiles) extract organize
    (fun pending g k organized same => listNames_listed sound ?_)
    (fun g k listed same =>
      compare_pass tools.order sound (listed.quiet same) empty rfl fixed.steady names)
    save Layout.Leaves.quiet (fun same => leave (start.quiet same)) runId
  obtain ⟨gains, m, stored, same'⟩ := organized
  exact ⟨gains.quiet same, m, stored, fun nothing => quiet_lasting.trans (same' nothing) same⟩

/-- The versions that a pass works with are fixed, and its generator changes no file. -/
structure Tools.Serves (tools : Tools) (p : Project) (usual : Host → Prop) (all : List Tag)
    (known : Tag → List FileEntry × Option Fault) : Prop where
  source : ∀ h, usual h → (tools.source.elim (openSource p.config) pure).Yields h
    (fun source g => Quiet h g ∧ source.Fixed usual all known) (Quiet h)
  generator : ∀ generator, tools.generator.elim (chooseGenerator tools.grammar p.config) .ok = .ok generator →
    ∀ folder paths, (generator folder paths).Keeps Quiet

/-- Work that counts from zero begins with an empty cache. -/
theorem counting_yields {α : Type} (cacheSize : Int) {work : Run α} {done : α → Host → Prop}
    {fail : Host → Prop}
    (yields : work.Yields { h with tally := { cache := .ofCapacity cacheSize } } done fail)
    (success : ∀ {a g k}, done a g → SameFiles g k → done a k)
    (failure : ∀ {g k}, fail g → SameFiles g k → fail k) :
    (counting cacheSize work).Yields h done fail := by
  rw [counting, yields_get_bind]
  refine Yields.after_modify (Yields.ensuring yields ?_ ?_)
  · exact fun a g ended => success ended ⟨⟨rfl, rfl, rfl⟩, rfl⟩
  · exact fun g ended => failure ended ⟨⟨rfl, rfl, rfl⟩, rfl⟩

/-- How many things the machine does at a time stays as it is. -/
theorem processors_lasting : Lasting fun h g => g.processors = h.processors where
  refl _ := rfl
  trans first second := second.trans first

theorem openSource_processors (c : Config) :
    (openSource c).Keeps fun h g => g.processors = h.processors := by
  have checked : checkpoint.Keeps fun h g => g.processors = h.processors := by
    refine Keeps.get_bind fun h => ?_
    rcases h.interrupt with _ | _ | n <;> rfl
  have launched : ∀ process : Process, process.launch.Keeps fun h g => g.processors = h.processors := by
    refine fun process => Keeps.get_bind fun h => ?_
    refine Keeps.bind processors_lasting (Keeps.ofExcept processors_lasting _) (fun found => ?_) h
    refine Keeps.bind processors_lasting checked fun _ => ?_
    split
    · split
      · exact Keeps.throw processors_lasting _
      · exact Keeps.throw processors_lasting _
      · exact Keeps.pure processors_lasting _
    · exact Keeps.pure processors_lasting _
  have ran : ∀ process : Process, process.run.Keeps fun h g => g.processors = h.processors :=
    fun process => Keeps.bind processors_lasting (launched process) fun _ => Keeps.get_bind fun _ => rfl
  have captured : ∀ (g : GitSource) (args : List Bytes),
      (g.capture args).Keeps fun h g => g.processors = h.processors := by
    intro g args
    refine Keeps.bind processors_lasting (ran _).attempt fun outcome => ?_
    cases outcome with
    | error f => exact Keeps.throw processors_lasting _
    | ok o =>
        cases ended : o.ended with
        | none => simpa only [ended] using Keeps.pure processors_lasting o.printed
        | some e => simpa only [ended] using Keeps.throw processors_lasting _
  have opened : (GitSource.open c.index.repo).Keeps fun h g => g.processors = h.processors :=
    Keeps.get_bind fun h => Keeps.bind processors_lasting ((captured _ _).during _)
      (fun _ => Keeps.pure processors_lasting _) h
  exact Keeps.bind processors_lasting opened fun _ => Keeps.pure processors_lasting _

/-- A pass that has its source, its generator and its filter comes to what its stages come to. -/
theorem run_of_stages {tools : Tools} {provided : Source → Prop} {making : Generator → Prop}
    {done : Outcome → Host → Prop} {fail : Host → Prop}
    (source : ∀ g, Quiet h g → (tools.source.elim (openSource p.config) pure).Yields g
      (fun source k => Quiet g k ∧ provided source) (Quiet g))
    (generators : ∀ generator, tools.generator.elim (chooseGenerator tools.grammar p.config) .ok = .ok generator →
      making generator)
    (stages : ∀ m source generator runId, SameFiles h m → m.processors = h.processors →
      m.tally = { cache := .ofCapacity p.config.index.cacheSize } → provided source → making generator →
        (stages p source generator tools p.fileFilter runId).Yields m done fail)
    (success : ∀ {a g k}, done a g → SameFiles g k → done a k)
    (failure : ∀ {g k}, fail g → SameFiles g k → fail k)
    (leave : ∀ {g}, Quiet h g → fail g) : (run p tools).Yields h done fail := by
  have named : nextRunId.Yields h (fun _ g => g = { h with runs := h.runs + 1 }) fail := ⟨rfl⟩
  rw [run]
  refine named.bind ?_
  rintro runId _ rfl
  refine withContext_yields _ ?_ (fun ended same => success ended same.toSameFiles)
    fun ended same => failure ended same.toSameFiles
  have same : Quiet h { h with
      runs := h.runs + 1
      context := h.context ++ [(lit "run", .text runId), (lit "project", .text p.config.name)] } :=
    ⟨⟨⟨rfl, rfl, rfl⟩, rfl⟩, rfl⟩
  have processors : (tools.source.elim (openSource p.config) pure).Keeps
      fun h g => g.processors = h.processors := by
    cases tools.source with
    | none => exact openSource_processors _
    | some source => exact Keeps.pure processors_lasting source
  refine Ends.bind ((source _ same).and (processors.yields _)) ?_
    fun e k ended => leave (quiet_lasting.trans same ended.1)
  rintro source k ⟨⟨same', isProvided⟩, processors⟩
  have same := quiet_lasting.trans same same'
  have generated : (tools.generator.elim (Run.ofExcept (chooseGenerator tools.grammar p.config)) pure) =
      Run.ofExcept (tools.generator.elim (chooseGenerator tools.grammar p.config) .ok) := by
    cases tools.generator <;> rfl
  rw [generated]
  refine Yields.ofExcept_bind (fun generator isGenerator => ?_) fun _ _ => leave same
  refine Yields.ofExcept_bind (fun filter isFilter => ?_) fun _ _ => leave same
  obtain rfl : filter = p.fileFilter := by
    rw [Project.fileFilter, isFilter]
    rfl
  refine counting_yields _ (stages _ source _ runId ?_ processors rfl isProvided
    (generators _ isGenerator)) success failure
  exact sameFiles_lasting.trans same.toSameFiles ⟨⟨rfl, rfl, rfl⟩, rfl⟩

/-- A pass that succeeds makes the missing diffs of the tags that are indexed and refreshes the list
of names.  One that is cut off leaves symbol files and list. -/
theorem run_yields (sound : h.Sound) (tidy : p.layout.Tidy) {usual : Host → Prop} {tools : Tools}
    (within : ∀ {g}, p.layout.Usual h g → usual g) (serves : tools.Serves p usual all known)
    (names : ∀ tag ∈ p.indexed all known, IsName (Tag.fileName tag.name)) :
    (run p tools).Yields h
      (fun outcome g => Pass p tools.order all known h g ∧ p.layout.Refreshed h g ∧
        outcome.tags = p.indexed all known)
      (p.layout.Leaves h) := by
  refine run_of_stages (fun g same => serves.source g (within (.sameFiles same.toSameFiles)))
    serves.generator (fun m source generator runId same _ empty fixed still => ?_) ?_ ?_ ?_
  · have fixed : source.Fixed (p.layout.Usual m) all known :=
      fixed.mono fun usual => within ((Layout.Usual.sameFiles same).trans usual)
    refine (stages_yields (same.sound sound) tidy (by rw [empty]; rfl) fixed still names tools runId).mono ?_ ?_
    · rintro outcome g ⟨pass, refreshed, tags⟩
      exact ⟨pass.sameFiles_before same, refreshed.sameFiles_before sound same, tags⟩
    · exact fun _ leaves => leaves.sameFiles_before same
  · rintro outcome g k ⟨pass, refreshed, tags⟩ same
    exact ⟨pass.sameFiles_after same, refreshed.rests pass.sound (.of_sameFiles pass.sound same), tags⟩
  · exact fun leaves same => leaves.rests (.of_sameFiles leaves.sound same)
  · intro g same
    have start : p.layout.Spares Layout.stores h h := .refl sound
    exact (Layout.Gains.of_spares sound (start.quiet same) (by decide)).leaves

/-! ## Pass after pass -/

/-- Passes that succeed one after another.  Between them the files stay. -/
inductive Passes (p : Project) (usual : Host → Prop) (all : List Tag)
    (known : Tag → List FileEntry × Option Fault) : Host → List Outcome → Host → Prop where
  | none (h : Host) : Passes p usual all known h [] h
  | pass {h g g' k : Host} {outcomes : List Outcome} {outcome : Outcome} {tools : Tools}
      (earlier : Passes p usual all known h outcomes g) (same : SameFiles g g')
      (serves : tools.Serves p usual all known) (success : (run p tools).on g' = (.ok outcome, k)) :
      Passes p usual all known h (outcomes ++ [outcome]) k

/-- What one pass that succeeds comes to. -/
theorem pass_of_run (sound : h.Sound) (tidy : p.layout.Tidy) {usual : Host → Prop} {tools : Tools}
    (within : ∀ {g}, p.layout.Usual h g → usual g) (serves : tools.Serves p usual all known)
    (names : ∀ tag ∈ p.indexed all known, IsName (Tag.fileName tag.name)) {outcome : Outcome}
    (success : (run p tools).on h = (.ok outcome, g)) :
    Pass p tools.order all known h g ∧ outcome.tags = p.indexed all known := by
  have ended := (run_yields sound tidy within serves names).holds
  rw [success] at ended
  exact ⟨ended.1, ended.2.2⟩

/-- Passes lose nothing, and they index the same tags. -/
theorem Passes.onward (tidy : p.layout.Tidy) {usual : Host → Prop}
    (names : ∀ tag ∈ p.indexed all known, IsName (Tag.fileName tag.name)) {outcomes : List Outcome}
    (passes : Passes p usual all known h outcomes g) (sound : h.Sound)
    (within : ∀ {g}, p.layout.Usual h g → usual g) :
    Onward p all known h g ∧ ∀ outcome ∈ outcomes, outcome.tags = p.indexed all known := by
  induction passes with
  | none =>
      exact ⟨⟨sound, .refl _ _, fun _ there => there, fun _ _ _ there => there⟩, by simp⟩
  | pass earlier same serves success ih =>
      obtain ⟨onward, tags⟩ := ih
      obtain ⟨pass, tags'⟩ := pass_of_run (same.sound onward.sound) tidy
        (fun usual => within ((onward.usual.trans (.sameFiles same)).trans usual)) serves names success
      refine ⟨onward.trans (pass.sameFiles_before same).toOnward, fun outcome member => ?_⟩
      rcases List.mem_append.mp member with before | isLast
      · exact tags outcome before
      · rw [List.mem_singleton.mp isLast]
        exact tags'

/-- The diffs of a project are those by the symbol files at the end of its first pass, however
often it is passed over.  So they agree with the symbol files at the end exactly when the symbol
files added since make no difference to them, and always when the first pass left none to add. -/
theorem diffs_of_first_pass (p : Project) (h g₁ g : Host) (all : List Tag)
    (known : Tag → List FileEntry × Option Fault) (tools : Tools) (first : Outcome)
    (later : List Outcome) (sound : h.Sound) (tidy : p.layout.Tidy)
    (names : ∀ tag ∈ p.indexed all known, IsName (Tag.fileName tag.name))
    (fresh : ∀ tag ∈ p.indexed all known, (h.look (p.layout.diff tag.name)).isOk = false)
    (serves : tools.Serves p (p.layout.Usual h) all known)
    (success : (run p tools).on h = (.ok first, g₁))
    (passes : Passes p (p.layout.Usual h) all known g₁ later g) :
    (∀ outcome ∈ first :: later, outcome.tags = p.indexed all known) ∧
    (∀ (i : Nat) (inside : i < (p.indexed all known).length),
      g.look (p.layout.diff (p.indexed all known)[i].name) =
        .ok (.file (p.diffText tools.order known g₁ (p.indexed all known) i) false)) ∧
    (p.Consistent tools.order known (p.indexed all known) g ↔
      ∀ i < (p.indexed all known).length,
        p.diffText tools.order known g₁ (p.indexed all known) i =
          p.diffText tools.order known g (p.indexed all known) i) ∧
    (p.Settled known (p.indexed all known) g₁ →
      p.Consistent tools.order known (p.indexed all known) g) := by
  obtain ⟨pass, tags⟩ := pass_of_run sound tidy (fun usual => usual) serves names success
  obtain ⟨onward, tags'⟩ := passes.onward tidy names pass.sound pass.usual.trans
  have made : ∀ (i : Nat) (inside : i < (p.indexed all known).length),
      g.look (p.layout.diff (p.indexed all known)[i].name) =
        .ok (.file (p.diffText tools.order known g₁ (p.indexed all known) i) false) := by
    intro i inside
    have member := List.getElem_mem inside
    exact onward.old _ member _ (pass.new i inside (fresh _ member))
  have exactly : p.Consistent tools.order known (p.indexed all known) g ↔
      ∀ i < (p.indexed all known).length,
        p.diffText tools.order known g₁ (p.indexed all known) i =
          p.diffText tools.order known g (p.indexed all known) i := by
    constructor
    · intro consistent i inside
      have same := (made i inside).symm.trans (consistent i inside)
      simpa using same
    · intro same i inside
      rw [made i inside, same i inside]
  refine ⟨?_, made, exactly, fun settled => exactly.mpr fun i _ => ?_⟩
  · intro outcome member
    rcases List.mem_cons.mp member with rfl | isLater
    · exact tags
    · exact tags' outcome isLater
  · refine (p.diffText_congr (fun tag member => p.version_congr fun e isFile => ?_) i).symm
    refine p.layout.symbolsAt_congr fun valid => ?_
    obtain ⟨data, there⟩ := Option.isSome_iff_exists.mp (settled tag member e isFile valid)
    rw [there, onward.kept valid there]

end

/-! ## A diff that is never mended -/

def mendedId : Bytes := lit "2fb36b4f38e8e286505ccc7735176e586132ab74"

def mendedSource : MemorySource where
  tags := [{ name := lit "v1" }]
  trees := [(lit "v1", [⟨lit "a.c", mendedId⟩])]

def mendedProject : Project where
  layout := ⟨lit "/db"⟩
  config := { name := lit "db" }

/-- Tools whose tables are all this one. -/
def mendedTools (table : Bytes) : Tools where
  source := some (.memory mendedSource)
  generator := some fun _ _ => pure { text := table }
  workers := 1
  now := .zero

/-- A table that lists the symbol of the file. -/
def mendedTable : Bytes := lit "alpha\t" ++ Layout.objectRef mendedId ++ lit "\t1;\"\tf\n"

/-- A project before its first pass, with the content of the file in its store. -/
def unpassed : Host where
  tree := ⟨[
    ([lit "db", lit "objects", mendedId], .file (lit "int alpha(void) \x7b\n\x7d\n") false),
    ([lit "db", lit "objects"], .folder),
    ([lit "db"], .folder)]⟩

/-- The project after a pass whose table cannot be read. -/
def spoiled : Host := ((run mendedProject (mendedTools (lit "junk\n"))).on unpassed).2

/-- The project after a second pass, whose table can be read. -/
def mended : Host := ((run mendedProject (mendedTools mendedTable)).on spoiled).2

def mendedTags : List Tag := mendedProject.indexed mendedSource.tags (Source.answer mendedSource)

theorem mendedTools_serves (table : Bytes) (usual : Host → Prop) :
    (mendedTools table).Serves mendedProject usual mendedSource.tags (Source.answer mendedSource)
      where
  source h _ := (yields_pure _ _ _ _).mpr ⟨quiet_lasting.refl h, Source.memory_fixed mendedSource usual⟩
  generator := by
    rintro generator isGenerator folder paths
    cases isGenerator
    exact Keeps.pure quiet_lasting _

theorem on_of_isOk {α : Type} {work : Run α} {h : Host} (success : (work.on h).1.isOk = true) :
    ∃ a, work.on h = (.ok a, (work.on h).2) := by
  cases ended : work.on h with
  | mk r g =>
      cases r with
      | ok a => exact ⟨a, rfl⟩
      | error f =>
          rw [ended] at success
          cases success

theorem unpassed_sound : unpassed.Sound := by decide +kernel

theorem mended_tidy : mendedProject.layout.Tidy := by decide +kernel

theorem mendedTags_eq : mendedTags = mendedSource.tags := by decide +kernel

theorem mended_names : ∀ tag ∈ mendedTags, IsName (Tag.fileName tag.name) := by
  rw [mendedTags_eq]
  intro tag member
  rw [List.mem_singleton.mp member]
  exact ⟨⟨by decide, by decide, by decide⟩, by decide⟩

theorem spoiled_pass : ∃ outcome,
    (run mendedProject (mendedTools (lit "junk\n"))).on unpassed = (.ok outcome, spoiled) := by
  rw [spoiled]
  exact on_of_isOk (by decide +kernel)

/-- The second pass writes the symbol file and tells of its symbol, and the diff stays empty. -/
theorem mended_ends :
    ((run mendedProject (mendedTools mendedTable)).on spoiled).1.isOk = true ∧
    mended.look (lit "/db/diffs/v1") = .ok (.file [] false) ∧
    (mended.contentAt? (mendedProject.layout.tagStore.path mendedId)).isSome = true ∧
    mendedProject.diffText (fun _ => .asFound) (Source.answer mendedSource) mended mendedTags 0 =
      lit "a\talpha\tFunction\ta.c\t1\tint {name}(void)\n" ∧
    (((run mendedProject (mendedTools mendedTable)).on spoiled).1.toOption.map fun o =>
      (o.tags, o.created, o.symbols, o.diffs, o.existing)) = some (mendedTags, 0, 1, 0, 0) := by
  decide +kernel

theorem mended_pass : ∃ outcome,
    (run mendedProject (mendedTools mendedTable)).on spoiled = (.ok outcome, mended) := by
  rw [mended]
  exact on_of_isOk mended_ends.1

/-- The diff is the one by the symbol files of the first pass. -/
theorem diffs_of_first_pass_mended :
    mended.look (lit "/db/diffs/v1") = .ok (.file
      (mendedProject.diffText (fun _ => .asFound) (Source.answer mendedSource) spoiled mendedTags 0)
        false) := by
  obtain ⟨first, firstPass⟩ := spoiled_pass
  obtain ⟨second, secondPass⟩ := mended_pass
  have isTag : ∀ tag ∈ mendedTags, tag.name = lit "v1" := by
    rw [mendedTags_eq]
    decide +kernel
  have fresh : ∀ tag ∈ mendedTags,
      (unpassed.look (mendedProject.layout.diff tag.name)).isOk = false := by
    intro tag member
    rw [isTag tag member]
    decide +kernel
  have passes : Passes mendedProject (mendedProject.layout.Usual unpassed) mendedSource.tags
      (Source.answer mendedSource) spoiled [second] mended :=
    .pass (.none spoiled) (sameFiles_lasting.refl spoiled) (mendedTools_serves _ _) secondPass
  obtain ⟨-, made, -⟩ := diffs_of_first_pass mendedProject unpassed spoiled mended mendedSource.tags
    (Source.answer mendedSource) _ first [second] unpassed_sound mended_tidy mended_names fresh
    (mendedTools_serves _ _) firstPass passes
  have inside : 0 < mendedTags.length := by
    rw [mendedTags_eq]
    decide +kernel
  have there : mended.look (mendedProject.layout.diff mendedTags[0].name) = .ok (.file
      (mendedProject.diffText (fun _ => .asFound) (Source.answer mendedSource) spoiled mendedTags 0)
        false) :=
    made 0 inside
  have isPath : mendedProject.layout.diff (lit "v1") = lit "/db/diffs/v1" := by decide +kernel
  rw [isTag _ (List.getElem_mem inside), isPath] at there
  exact there

/-- Both passes succeed and the second leaves no content without a symbol file, yet the diff is
without the symbol that the second pass found, in whatever order symbols are met. -/
theorem diff_stale_mended :
    (∃ first, (run mendedProject (mendedTools (lit "junk\n"))).on unpassed = (.ok first, spoiled)) ∧
    (∃ second, (run mendedProject (mendedTools mendedTable)).on spoiled = (.ok second, mended)) ∧
    mendedProject.Settled (Source.answer mendedSource) mendedTags mended ∧
    ∀ order, ¬mendedProject.Consistent order (Source.answer mendedSource) mendedTags mended := by
  obtain ⟨-, empty, there, added, -⟩ := mended_ends
  have isFile : ∀ tag ∈ mendedTags, ∀ e ∈ mendedProject.files (Source.answer mendedSource) tag,
      e.id = mendedId := by
    decide +kernel
  have short : ∀ tag ∈ mendedTags,
      (mendedProject.version (Source.answer mendedSource) mended tag).rows.length < 3 := by
    decide +kernel
  refine ⟨spoiled_pass, mended_pass, fun tag member e within _ => ?_, fun order consistent => ?_⟩
  · rw [isFile tag member e within]
    exact there
  · have inside : 0 < mendedTags.length := by decide +kernel
    have isPath : mendedProject.layout.diff mendedTags[0].name = lit "/db/diffs/v1" := by
      decide +kernel +revert
    have stale := consistent 0 inside
    rw [isPath, empty, mendedProject.diffText_of_clear order (fun _ => .asFound)
      (fun tag member => Table.clear_of_length (short tag member)), added] at stale
    injection stale with stale
    injection stale with stale
    exact absurd stale (by decide)

end Pipeline

end SymbolHistory
