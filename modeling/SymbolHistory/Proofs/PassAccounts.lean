/-
# Proofs.PassAccounts -- what a pass tells of its work

A pass that succeeds tells how many contents it stored, how many symbols it wrote,
how many diffs it made and how many it passed over.  All but the last are what the
host before and after it say (`accounts_of_run`): every missing diff is made and
counted, but of the diffs that were there it counts those right before a missing
one, since the comparison visits no others.  So the two counts of diffs come to the
number of tags only if the diffs that are there stand in front of missing ones, and
a second pass, that has nothing to make, tells of none (`accounts_of_run_mended`).

The work is followed stage by stage (`stages_accounts`).  A stage leaves alone what
the later ones count, so each of them counts what was there before the pass.
-/
import SymbolHistory.Proofs.CountedDiffs
import SymbolHistory.Proofs.CountedWork
import SymbolHistory.Proofs.ResumedPasses

set_option autoImplicit false

namespace SymbolHistory

open SymbolHistory.Path FileTree Run Host

namespace Pipeline

variable {p : Project} {all : List Tag} {known : Tag → List FileEntry × Option Fault} {h g k : Host}

/-- What a pass from `h` to `g` tells of its work, by what is there before and after it. -/
structure Accounts (p : Project) (all : List Tag) (known : Tag → List FileEntry × Option Fault)
    (h g : Host) (outcome : Outcome) : Prop where
  tags : outcome.tags = p.indexed all known
  objects : outcome.objects = (p.contentIds all known).length
  created : outcome.created = (p.contentIds all known).countP (Extractor.isMissing p.layout h)
  symbols : ∃ made, p.layout.IsNew h made g ∧ outcome.symbols = lineCount made
  diffs : outcome.diffs = (p.indexed all known).countP fun tag => !Comparison.hasDiff p.layout h tag
  existing : outcome.existing = Comparison.lastPresent p.layout h (p.indexed all known)

/-- The diffs that are made and those that are passed over are all exactly if a missing diff comes
right after every one that is there. -/
theorem Accounts.complete_iff {outcome : Outcome} (accounts : Accounts p all known h g outcome) :
    outcome.diffs + outcome.existing = outcome.tags.length ↔
      outcome.existing = (p.indexed all known).countP (Comparison.hasDiff p.layout h) := by
  have whole := (p.indexed all known).length_eq_countP_add_countP (Comparison.hasDiff p.layout h)
  rw [accounts.tags, accounts.diffs, whole]
  have negated : (p.indexed all known).countP (fun tag => !Comparison.hasDiff p.layout h tag) =
      (p.indexed all known).countP fun tag => ¬Comparison.hasDiff p.layout h tag :=
    List.countP_congr fun tag _ => by simp
  rw [negated]
  omega

/-- Selecting tags is idle work that comes to the project's selection. -/
theorem selectTags_ok {source : Source} {usual : Host → Prop} (fixed : source.Fixed usual all known)
    (good : usual h) {answer : List Tag × List Tag}
    (done : (selectTags source p.config).on h = (.ok answer, g)) :
    Idle h g ∧ answer.1 = p.selected all :=
  have ended := (selectTags_yields fixed good).of_ok done
  ⟨⟨ended.1, ((selectTags_sameTally source p.config).after done).counts⟩, ended.2⟩

/-- Collecting is idle work that comes to the project's tags and contents. -/
theorem collect_ok {x : Extractor} (isFilter : x.filter = p.fileFilter) {usual : Host → Prop}
    (steady : x.source.Steady usual known) (closed : ∀ {g k}, usual g → Quiet g k → usual k)
    (good : usual h) {found : Collection}
    (done : (x.collect (p.selected all)).on h = (.ok found, g)) :
    Idle h g ∧ found.tags = p.indexed all known ∧ found.ids = p.contentIds all known := by
  obtain ⟨quiet, tags, ids⟩ := (Extractor.collect_yields steady closed good _).of_ok done
  refine ⟨⟨quiet, ((x.collect_sameTally _).after done).counts⟩, tags, ?_⟩
  have visited : x.visited known = p.files known := by
    funext tag
    rw [Extractor.visited, isFilter, Project.files]
  rw [ids, visited, Project.contentIds]

/-- A pass that succeeded, by the hosts on which its stages began and ended: between them nothing
happens that counts. -/
structure Course (p : Project) (x : Extractor) (generator : Generator) (tools : Tools) (all : List Tag)
    (known : Tag → List FileEntry × Option Fault) (h : Host) (outcome : Outcome) (g : Host) where
  created : List Bytes
  pending : List Bytes
  collected : Host
  extracted : Host
  organizing : Host
  organized : Host
  listing : Host
  listed : Host
  comparing : Host
  compared : Host
  saving : Host
  saved : Host
  toExtract : Idle h collected
  extract : (x.writeObjects (p.contentIds all known)).on collected = (.ok created, extracted)
  toOrganize : Idle extracted organizing
  organize : (organize ⟨p.layout, generator⟩ (p.contentIds all known) created.length).on organizing =
    (.ok pending, organized)
  toList : Idle organized listing
  list : (listNames p.layout pending).on listing = (.ok outcome.names, listed)
  toCompare : Idle listed comparing
  compare : (({ layout := p.layout, walker := .filtered x, order := tools.order } : Comparison).run
      (p.indexed all known)).on
    comparing = (.ok (), compared)
  toSave : Idle compared saving
  save : (writeMeta p outcome tools.now).on saving = (.ok (), saved)
  toEnd : Idle saved g
  tags : outcome.tags = p.indexed all known
  objects : outcome.objects = (p.contentIds all known).length
  isCreated : outcome.created = created.length
  symbols : outcome.symbols = saving.tally.organizing.symbols
  diffs : outcome.diffs = saving.tally.comparing.diffs
  existing : outcome.existing = saving.tally.comparing.skipped

/-- The stages of a pass that succeeded went through. -/
theorem stages_ok {source : Source} {generator : Generator} {tools : Tools} {runId : Bytes}
    {outcome : Outcome} (fixed : source.Fixed (Quiet h) all known)
    (done : (stages p source generator tools p.fileFilter runId).on h = (.ok outcome, g)) :
    Nonempty (Course p (extractor p source tools h) generator tools all known h outcome g) := by
  obtain ⟨_, _, looked, done⟩ := on_bind_ok done
  obtain ⟨same, rfl⟩ := Prod.mk.inj looked
  obtain rfl := Except.ok.inj same
  obtain ⟨_, h₁, reported, done⟩ := on_bind_ok done
  have idle := (report_idle _ _ _).after reported
  obtain ⟨⟨selected, collided⟩, h₂, staged, done⟩ := on_bind_ok done
  obtain ⟨m, worked, ended⟩ := on_stage_ok staged
  obtain ⟨idle', isSelected⟩ := selectTags_ok fixed idle.toQuiet worked
  obtain rfl : selected = p.selected all := isSelected
  have idle := idle_lasting.trans (idle_lasting.trans idle idle') ended
  obtain ⟨_, h₃, reported, done⟩ := on_bind_ok done
  have idle := idle_lasting.trans idle ((Keeps.forM idle_lasting (fun _ => report_idle _ _ _) _).after reported)
  obtain ⟨_, h₄, reported, done⟩ := on_bind_ok done
  have idle := idle_lasting.trans idle ((report_idle _ _ _).after reported)
  obtain ⟨found, h₅, staged, done⟩ := on_bind_ok done
  obtain ⟨m, worked, ended⟩ := on_stage_ok staged
  obtain ⟨idle', isTags, isIds⟩ := collect_ok (x := extractor p source tools h) (p := p) rfl fixed.steady
    quiet_lasting.trans idle.toQuiet worked
  have idle := idle_lasting.trans (idle_lasting.trans idle idle') ended
  rw [isTags, isIds] at done
  obtain ⟨created, h₆, staged, done⟩ := on_bind_ok done
  obtain ⟨m₁, extracted, extractEnd⟩ := on_stage_ok staged
  obtain ⟨pending, h₇, staged, done⟩ := on_bind_ok done
  obtain ⟨m₂, organized, organizeEnd⟩ := on_stage_ok staged
  obtain ⟨names, h₈, staged, done⟩ := on_bind_ok done
  obtain ⟨m₃, listed, listEnd⟩ := on_stage_ok staged
  obtain ⟨_, h₉, staged, done⟩ := on_bind_ok done
  obtain ⟨m₄, compared, compareEnd⟩ := on_stage_ok staged
  obtain ⟨_, _, looked, done⟩ := on_bind_ok done
  obtain ⟨same, rfl⟩ := Prod.mk.inj looked
  obtain rfl := Except.ok.inj same
  obtain ⟨_, m₅, saved, done⟩ := on_bind_ok done
  obtain ⟨_, n, reported, done⟩ := on_bind_ok done
  obtain ⟨same, rfl⟩ := Prod.mk.inj done
  obtain rfl := Except.ok.inj same
  exact ⟨⟨created, pending, _, _, _, _, _, _, _, _, _, _, idle, extracted, extractEnd, organized,
    organizeEnd, listed, listEnd, compared, compareEnd, saved, (report_idle _ _ _).after reported, rfl, rfl,
    rfl, rfl, rfl, rfl⟩⟩

/-- What is there of the diffs is the same where nothing happened to them. -/
theorem hasDiff_spared {l : Layout} (sound : h.Sound) (spares : l.Spares [Layout.diffsName] h g) {tag : Tag}
    (isName : IsName (Tag.fileName tag.name)) : Comparison.hasDiff l g tag = Comparison.hasDiff l h tag :=
  isOk_look_congr sound spares.sound spares.folder
    (spares.get?_eq (l.locate_diff_root h isName) List.mem_cons_self)

theorem lastPresent_congr {l : Layout} {tags : List Tag}
    (same : ∀ tag ∈ tags, Comparison.hasDiff l g tag = Comparison.hasDiff l h tag) :
    Comparison.lastPresent l g tags = Comparison.lastPresent l h tags := by
  refine List.countP_congr fun pair member => ?_
  obtain ⟨first, second⟩ := List.of_mem_zip member
  rw [same _ first, same _ (List.mem_of_mem_tail second)]

/-- A comparison leaves the symbol files alone. -/
theorem isNew_compared {c : Comparison} {diffs made : List (Bytes × Bytes)} (isNew : c.layout.IsNew h made g)
    (sound : g.Sound) (reached : c.Reached g diffs k) : c.layout.IsNew h made k := by
  refine isNew.after sound reached.sound reached.folder fun name => reached.get?_beside ?_ ?_ <;>
    rw [c.layout.locate_diffs, List.prefix_append_right_inj]
  · rintro ⟨rest, equal⟩
    exact absurd (List.cons.inj equal).1 (by decide)
  · rintro ⟨rest, equal⟩
    exact absurd (List.cons.inj equal).1 (by decide)

section

variable {source : Source} {generator : Generator} {tools : Tools} {outcome : Outcome}

/-- What makes the tables of a pass counts nothing itself, if what was given to the pass does not. -/
theorem chosen_sameCounts (told : ∀ generator, tools.generator = some generator →
      ∀ folder paths, (generator folder paths).Keeps SameCounts)
    (chosen : tools.generator.elim (chooseGenerator tools.grammar p.config) .ok = .ok generator) (folder : Bytes)
    (paths : List Bytes) : (generator folder paths).Keeps SameCounts := by
  cases given : tools.generator with
  | some generator' =>
      rw [given] at chosen
      cases chosen
      exact told _ given folder paths
  | none =>
      rw [given, Option.elim_none, chooseGenerator] at chosen
      cases choice : Generator.Choice.ofKind p.config.generator.kind p.config.generator.command
        p.config.generator.args p.config.generator.timeout with
      | error f =>
          rw [choice] at chosen
          cases chosen
      | ok c =>
          rw [choice] at chosen
          cases chosen
          exact (Generator.ofChoice_sameTally _ c folder paths).mono SameTally.counts

/-- The host on which the stages of a pass begin, with a source and what makes the tables. -/
structure Begun (p : Project) (all : List Tag) (known : Tag → List FileEntry × Option Fault) (h : Host)
    (source : Source) (generator : Generator) (m : Host) : Prop where
  same : SameFiles h m
  processors : m.processors = h.processors
  zero : m.tally = { cache := .ofCapacity p.config.index.cacheSize }
  fixed : source.Fixed (p.layout.Usual m) all known
  still : ∀ folder paths, (generator folder paths).Keeps Quiet
  told : ∀ folder paths, (generator folder paths).Keeps SameCounts

/-- A pass that succeeded went through its stages. -/
theorem run_ok (serves : tools.Serves p (p.layout.Usual h) all known)
    (told : ∀ generator, tools.generator = some generator →
      ∀ folder paths, (generator folder paths).Keeps SameCounts)
    (success : (run p tools).on h = (.ok outcome, g)) :
    ∃ source generator m k, Begun p all known h source generator m ∧
      Nonempty (Course p (extractor p source tools m) generator tools all known m outcome k) ∧
      SameFiles k g := by
  have ran : (run p tools).Yields h
      (fun outcome g => ∃ source generator m k, Begun p all known h source generator m ∧
        Nonempty (Course p (extractor p source tools m) generator tools all known m outcome k) ∧
        SameFiles k g) fun _ => True := by
    refine run_of_stages (fun g same => serves.source g (.sameFiles same.toSameFiles))
      (fun generator chosen => And.intro (serves.generator generator chosen) (chosen_sameCounts told chosen))
      (fun m source generator runId same processors zero fixed making => ?_) ?_ (fun _ _ => trivial)
      fun _ => trivial
    · have fixed : source.Fixed (p.layout.Usual m) all known :=
        fixed.mono fun usual => (Layout.Usual.sameFiles same).trans usual
      refine yields_of_on (fun outcome k done => ?_) fun _ _ _ => trivial
      exact ⟨source, generator, m, k, ⟨same, processors, zero, fixed, making.1, making.2⟩,
        stages_ok (fixed.mono fun quiet => .sameFiles quiet.toSameFiles) done, sameFiles_lasting.refl k⟩
    · rintro outcome g n ⟨source, generator, m, k, begun, course, same⟩ same'
      exact ⟨source, generator, m, k, begun, course, sameFiles_lasting.trans same same'⟩
  exact ran.of_ok success

/-- When the names are listed a pass has told of the symbol files it made, and it has left the diffs
alone. -/
theorem Course.tells (sound : h.Sound) (tidy : p.layout.Tidy) (fixed : source.Fixed (p.layout.Usual h) all known)
    (still : ∀ folder paths, (generator folder paths).Keeps Quiet)
    (told : ∀ folder paths, (generator folder paths).Keeps SameCounts)
    (course : Course p (extractor p source tools h) generator tools all known h outcome g) :
    Tells p.layout h course.comparing ∧ p.layout.Spares [Layout.diffsName] h course.comparing := by
  have start : p.layout.Spares besideObjects h h := Layout.Spares.refl sound
  have stored : p.layout.Spares besideObjects h course.organizing :=
    ((Extractor.writeObjects_yields rfl (by decide) (fun spares => spares.usual) fixed.blobs
      (start.quiet course.toExtract.toQuiet) _).of_ok course.extract).quiet course.toOrganize.toQuiet
  have storing : SameCounts h course.organizing :=
    sameCounts_lasting.trans course.toExtract.counts (sameCounts_lasting.trans
      ((Extractor.writeObjects_sameCounts (x := extractor p source tools h) _).after course.extract) course.toOrganize.counts)
  have told := organize_tells (o := ⟨p.layout, generator⟩) stored.sound tidy still told course.organize
  obtain ⟨gains, -⟩ := (organize_yields (o := ⟨p.layout, generator⟩) stored.sound tidy still _ _).of_ok
    course.organize
  have gains := gains.quiet course.toList.toQuiet
  have listing : (listNames p.layout course.pending).Yields course.listing
      (fun _ g => p.layout.Spares [Layout.objectsName, Layout.tagsName, Layout.diffsName] course.listing g)
      fun _ => True :=
    (listNames_yields gains.sound p.layout course.pending (by decide : _ ∉ [_, _, _])
      (by decide : _ ∈ [_, _, _])).mono (fun _ _ ended => ended.1) fun _ (_ : p.layout.Spares [] _ _) => trivial
  have listed := listing.of_ok course.list
  have listed := listed.quiet course.toCompare.toQuiet
  have uncounted : SameCounts course.organized course.comparing :=
    sameCounts_lasting.trans course.toList.counts (sameCounts_lasting.trans
      ((listNames_sameTally p.layout course.pending).after course.list).counts course.toCompare.counts)
  have organized : p.layout.Spares [Layout.tagsName] course.organized course.comparing :=
    ((Layout.Spares.refl told.sound).quiet course.toList.toQuiet).trans (listed.fewer (by decide))
  refine ⟨told.spared sound (stored.fewer (by decide)) storing organized uncounted, ?_⟩
  exact ((stored.fewer (by decide)).trans (gains.spares.fewer (by decide))).trans (listed.fewer (by decide))

/-- What the stages of a pass tell of their work. -/
theorem Course.accounts (sound : h.Sound) (tidy : p.layout.Tidy) (busy : 0 < h.processors)
    (zero : h.tally = { cache := .ofCapacity p.config.index.cacheSize })
    (fixed : source.Fixed (p.layout.Usual h) all known)
    (still : ∀ folder paths, (generator folder paths).Keeps Quiet)
    (told : ∀ folder paths, (generator folder paths).Keeps SameCounts)
    (valid : ∀ id ∈ p.contentIds all known, ObjectId.isValid id = true)
    (names : ∀ tag ∈ p.indexed all known, IsName (Tag.fileName tag.name))
    (course : Course p (extractor p source tools h) generator tools all known h outcome g) :
    Accounts p all known h g outcome := by
  have same := course.toExtract.toSameFiles
  obtain ⟨tells, spares⟩ := course.tells sound tidy fixed still told
  obtain ⟨made, isNew, symbols⟩ := tells.symbols
  let c : Comparison :=
    { layout := p.layout, walker := .filtered (extractor p source tools h), order := tools.order }
  have steady : c.walker.source.Steady (p.layout.Usual course.comparing) known :=
    fixed.steady.mono fun usual => spares.usual.trans usual
  have cold : ∀ e ∈ course.comparing.tally.cache.entries,
      ObjectId.isValid e.1 = true ∧ e.2 = p.layout.symbolsAt course.comparing e.1 := by
    have empty : course.comparing.tally.cache.entries = [] := by
      rw [spares.cache, zero]
      rfl
    rw [empty]
    simp
  have compared := Comparison.run_counts (c := c) tells.sound steady cold names course.compare
  have reached := (Comparison.run_yields (c := c) tells.sound steady cold names).of_ok course.compare
  have reached := reached.quiet course.toSave.toQuiet
  have seen : ∀ tag ∈ p.indexed all known,
      Comparison.hasDiff p.layout course.comparing tag = Comparison.hasDiff p.layout h tag :=
    fun tag member => hasDiff_spared sound spares (names tag member)
  have saving : (writeMeta p outcome tools.now).Yields course.saving
      (fun _ => p.layout.Spares Layout.stores course.saving) (p.layout.Spares [] course.saving) :=
    writeMeta_yields reached.sound outcome tools.now
  have saved := (saving.of_ok course.save).quiet course.toEnd.toQuiet
  have missing : (p.indexed all known).countP (fun tag => !Comparison.hasDiff p.layout course.comparing tag) =
      (p.indexed all known).countP fun tag => !Comparison.hasDiff p.layout h tag :=
    List.countP_congr fun tag member => by rw [seen tag member]
  -- each stage counted from what the host before the pass said, since the earlier ones left that alone
  refine ⟨course.tags, course.objects, ?_, ⟨made, ?_, ?_⟩, ?_, ?_⟩
  · have created := (Extractor.writeObjects_created (x := extractor p source tools h) (l := p.layout) rfl
      (same.sound sound) ?_ (Extractor.gather_nodup _) valid fun k quiet => ?_).of_ok course.extract
    · rw [course.isCreated, created]
      refine List.countP_congr fun id _ => ?_
      rw [Extractor.isMissing, look_of_sameFiles same, Extractor.isMissing]
    · have positive : 0 < (extractor p source tools h).workers :=
        Int.natCast_pos.mpr (workerCount_pos p.config tools.workers busy)
      rw [Extractor.workerCount, if_pos positive]
      exact Int.lt_toNat.mpr positive
    · exact fixed.blobs k (Layout.Usual.sameFiles (quiet_lasting.trans course.toExtract.toQuiet quiet).toSameFiles)
  · have isNew := isNew_compared (c := c) isNew tells.sound reached
    exact isNew.spared sound (.refl sound) reached.sound (saved.fewer (by decide))
  · rw [course.symbols, course.toSave.counts.symbols, compared.symbols, symbols, zero, Nat.zero_add]
  · rw [course.diffs, course.toSave.counts.diffs, compared.diffs, tells.diffs, zero, Nat.zero_add, missing]
  · rw [course.existing, course.toSave.counts.skipped, compared.skipped, tells.skipped, zero, Nat.zero_add,
      lastPresent_congr seen]

theorem Accounts.sameFiles_before (accounts : Accounts p all known g k outcome) (same : SameFiles h g) :
    Accounts p all known h k outcome := by
  have look := look_of_sameFiles same
  have seen : ∀ tag, Comparison.hasDiff p.layout g tag = Comparison.hasDiff p.layout h tag := fun tag => by
    rw [Comparison.hasDiff, look, Comparison.hasDiff]
  obtain ⟨made, isNew, symbols⟩ := accounts.symbols
  refine ⟨accounts.tags, accounts.objects, ?_, ⟨made, ⟨isNew.nodup, isNew.isName, fun isName => ?_⟩, symbols⟩, ?_, ?_⟩
  · rw [accounts.created]
    refine List.countP_congr fun id _ => ?_
    rw [Extractor.isMissing, look, Extractor.isMissing]
  · rw [isNew.mem_iff isName, look]
  · simp only [accounts.diffs, seen]
  · rw [accounts.existing, lastPresent_congr fun tag _ => seen tag]

theorem Accounts.sameFiles_after (accounts : Accounts p all known h g outcome) (same : SameFiles g k) :
    Accounts p all known h k outcome := by
  obtain ⟨made, isNew, symbols⟩ := accounts.symbols
  refine { accounts with symbols := ⟨made, ⟨isNew.nodup, isNew.isName, fun isName => ?_⟩, symbols⟩ }
  rw [isNew.mem_iff isName, look_of_sameFiles same]

/-- What a pass that succeeded tells of its work. -/
theorem run_accounts (sound : h.Sound) (tidy : p.layout.Tidy) (busy : 0 < h.processors)
    (serves : tools.Serves p (p.layout.Usual h) all known)
    (told : ∀ generator, tools.generator = some generator →
      ∀ folder paths, (generator folder paths).Keeps SameCounts)
    (valid : ∀ id ∈ p.contentIds all known, ObjectId.isValid id = true)
    (names : ∀ tag ∈ p.indexed all known, IsName (Tag.fileName tag.name))
    (success : (run p tools).on h = (.ok outcome, g)) : Accounts p all known h g outcome := by
  obtain ⟨source, generator, m, k, begun, ⟨course⟩, same⟩ := run_ok serves told success
  have accounts := course.accounts (begun.same.sound sound) tidy (begun.processors ▸ busy) begun.zero
    begun.fixed begun.still begun.told valid names
  exact (accounts.sameFiles_before begun.same).sameFiles_after same

end

theorem spoiled_sound : spoiled.Sound := by
  obtain ⟨first, ended⟩ := spoiled_pass
  exact (pass_of_run unpassed_sound mended_tidy (fun usual => usual) (mendedTools_serves _ _) mended_names
    ended).1.sound

theorem mendedTools_told (table : Bytes) : ∀ generator, (mendedTools table).generator = some generator →
    ∀ folder paths, (generator folder paths).Keeps SameCounts := by
  rintro generator given folder paths
  cases given
  exact Keeps.pure sameCounts_lasting _

/-- The first pass leaves a diff, and processors for the second. -/
theorem spoiled_ends : 0 < spoiled.processors ∧
    mendedTags.countP (Comparison.hasDiff mendedProject.layout spoiled) = 1 := by
  decide +kernel

end Pipeline

end SymbolHistory
