/-
# Proofs.ResumedPasses -- a project that was begun again is like a new one

When the versions are fixed, the source always has the same content for an id and
the tag tables are made of one block per content, it is settled what a project is
to hold (`Project.plan`).  Whatever a pass was cut off by, it has done nothing
against the plan, and it has not written what it came to (`stages_follow`).  A
pass that succeeds leaves nothing of the plan out.  So the project it leaves
behind, whatever calls came before it, holds the same files as one that was made
in a single pass, apart from the order of records that sorting leaves open
(`resumed_like_new`).
-/
import SymbolHistory.Proofs.BlockTables
import SymbolHistory.Proofs.Collisions
import SymbolHistory.Proofs.InterruptedPasses
import SymbolHistory.Proofs.StoredContents

set_option autoImplicit false

namespace SymbolHistory

open SymbolHistory.Path FileTree Run Host

/-- What the files of a project are to be. -/
def Project.plan (p : Project) (all : List Tag) (known : Tag → List FileEntry × Option Fault)
    (orders : Tag → Enumeration → Prop) (blob block : Bytes → Bytes) : Plan where
  layout := p.layout
  tags := p.indexed all known
  orders := orders
  files := p.files known
  blob := blob
  block := block

theorem Layout.locate_metaFile (l : Layout) (h : Host) :
    h.locate l.metaFile = h.locate l.root ++ [metaName] :=
  h.locate_join l.root ⟨⟨by decide, by decide, by decide⟩, by decide⟩

namespace Plan

variable {plan : Plan} {h g k : Host} {ids : List Bytes}

/-! ## How far a project has come -/

/-- The names that neither contents nor symbol files are under. -/
def besideStores : List Bytes := [Layout.diffsName, Layout.metaName]

/-- From `h` to `g` a project has kept to its plan. -/
structure Follows (plan : Plan) (h g : Host) : Prop where
  sound : g.Sound
  usual : plan.layout.Usual h g
  agrees : plan.Agrees g

/-- What a pass that began on `h` may leave behind when it is cut off: it has kept to the plan, and
what the last pass came to is what it was. -/
structure Leaves (plan : Plan) (h g : Host) : Prop extends plan.Follows h g where
  outcome : g.tree.get? (h.locate plan.layout.metaFile) = h.tree.get? (h.locate plan.layout.metaFile)

/-- Nothing is missing of what is planned for some contents and for the versions. -/
structure Complete (plan : Plan) (ids : List Bytes) (g : Host) : Prop where
  stored : plan.layout.objectStore.Holds g ids
  organized : plan.layout.tagStore.Holds g ids
  compared : ∀ tag ∈ plan.tags, (g.look (plan.layout.diff tag.name)).isOk = true

theorem Abides.leaves {apart : List Bytes} (abides : plan.Abides apart h g)
    (isApart : Layout.metaName ∈ apart) : plan.Leaves h g :=
  ⟨⟨abides.sound, abides.spares.usual, abides.agrees⟩,
    abides.spares.get?_eq (plan.layout.locate_metaFile h) isApart⟩

theorem Follows.sameFiles (follows : plan.Follows h g) (same : SameFiles g k) : plan.Follows h k :=
  ⟨same.sound follows.sound, follows.usual.trans (.sameFiles same), follows.agrees.of_sameFiles same⟩

/-- It does not matter on which of two hosts with the same files the work began. -/
theorem Follows.sameFiles_before {h' : Host} (follows : plan.Follows h' g) (same : SameFiles h h') :
    plan.Follows h g := ⟨follows.sound, (Layout.Usual.sameFiles same).trans follows.usual, follows.agrees⟩

theorem Leaves.sameFiles (leaves : plan.Leaves h g) (same : SameFiles g k) : plan.Leaves h k :=
  ⟨leaves.toFollows.sameFiles same, same.tree ▸ leaves.outcome⟩

theorem Leaves.sameFiles_before {h' : Host} (leaves : plan.Leaves h' g) (same : SameFiles h h') :
    plan.Leaves h g := by
  have outcome := leaves.outcome
  rw [locate_of_folder same.folder, same.tree] at outcome
  exact ⟨leaves.toFollows.sameFiles_before same, outcome⟩

theorem Complete.sameFiles (complete : plan.Complete ids g) (same : SameFiles g k) :
    plan.Complete ids k := by
  refine ⟨complete.stored.sameFiles same, complete.organized.sameFiles same, fun tag member => ?_⟩
  rw [look_of_sameFiles same]
  exact complete.compared tag member

theorem Follows.spared {apart : List Bytes} (follows : plan.Follows h g)
    (spares : plan.layout.Spares apart g k) (planned : folders ⊆ apart) : plan.Follows h k :=
  ⟨spares.sound, follows.usual.trans spares.usual, follows.agrees.of_spares spares planned⟩

theorem Leaves.spared (leaves : plan.Leaves h g) (spares : plan.layout.Spares parts g k) :
    plan.Leaves h k := by
  have same := spares.get?_eq (plan.layout.locate_metaFile g) (by decide)
  rw [locate_of_folder leaves.usual.1.folder] at same
  exact ⟨leaves.toFollows.spared spares (by decide), same.trans leaves.outcome⟩

theorem Complete.spared {apart : List Bytes} (complete : plan.Complete ids g) (sound : g.Sound)
    (valid : ∀ id ∈ ids, ObjectId.isValid id = true)
    (names : ∀ tag ∈ plan.tags, IsName (Tag.fileName tag.name))
    (spares : plan.layout.Spares apart g k) (planned : folders ⊆ apart) : plan.Complete ids k := by
  refine ⟨spares.objects sound (planned (by decide)) valid complete.stored,
    spares.symbolFiles sound (planned (by decide)) valid complete.organized, fun tag member => ?_⟩
  rw [isOk_look_congr sound spares.sound spares.folder
    (spares.get?_eq (plan.layout.locate_diff_root g (names tag member)) (planned (by decide)))]
  exact complete.compared tag member

/-- Contents are stored on `g` and have their symbol files, and since `h` nothing was done against
the plan. -/
structure Settled (plan : Plan) (ids : List Bytes) (h g : Host) : Prop
    extends plan.Abides besideStores h g where
  stored : plan.layout.objectStore.Holds g ids
  organized : plan.layout.tagStore.Holds g ids

theorem Settled.quiet (settled : plan.Settled ids h g) (same : Quiet g k) : plan.Settled ids h k :=
  ⟨settled.toAbides.quiet same, settled.stored.sameFiles same.toSameFiles,
    settled.organized.sameFiles same.toSameFiles⟩

/-- The names that planned files, and what a pass came to, are under stay as they are. -/
theorem Settled.spared (settled : plan.Settled ids h g)
    (valid : ∀ id ∈ ids, ObjectId.isValid id = true) (spares : plan.layout.Spares parts g k) :
    plan.Settled ids h k :=
  ⟨settled.toAbides.spared spares (by decide) (by decide),
    spares.objects settled.sound (by decide) valid settled.stored,
    spares.symbolFiles settled.sound (by decide) valid settled.organized⟩

/-! ## The stages before the comparison -/

section

variable {usual : Host → Prop} (within : ∀ {g}, plan.layout.Usual h g → usual g)

include within in
/-- Storing contents is to the plan, and if it succeeds all of them are there. -/
theorem store_abides {x : Extractor} (abides : plan.Abides besideStores h g)
    (store : x.store = plan.layout.objectStore) (busy : 0 < x.workers)
    (supplies : x.source.Supplies usual plan.blob) (ids : List Bytes) :
    (x.writeObjects ids).Yields g
      (fun _ k => plan.Abides besideStores h k ∧ plan.layout.objectStore.Holds k ids)
      (plan.Leaves h) := by
  have onward : ∀ {k}, plan.Stocks g k → plan.Abides besideStores h k := fun stocks =>
    abides.trans ⟨stocks.agrees abides.agrees, stocks.spares (by decide)⟩
  refine (writeObjects_stocks store busy (fun usual => within (abides.spares.usual.trans usual))
    supplies abides.sound ids).mono ?_ fun _ stocks => (onward stocks).leaves (by decide)
  exact fun _ k stored => ⟨onward stored.1, stored.2⟩

variable {generator : Generator}

include within in
/-- Contents that were pending are organized; a symbol file that was there is there. -/
theorem run_pending (sound : h.Sound) (tidy : plan.layout.Tidy) (blocks : plan.Blocks)
    (agrees : plan.Agrees h) {pending : List Bytes} (batch : plan.Batch h pending)
    (makes : plan.Makes usual generator) :
    ((plan.organizer generator).run pending).Yields h
      (fun _ g => plan.Abides besideTags h g ∧ plan.layout.Gains h g ∧
        plan.layout.tagStore.Holds g pending)
      (plan.Abides besideTags h) := by
  by_cases nonempty : pending = []
  · subst nonempty
    exact ⟨⟨agrees, .refl sound⟩, .of_spares sound (Layout.Spares.refl sound) (List.Subset.refl _),
      by simp [ObjectStore.Holds]⟩
  · have gains := Organizer.run_gains (o := plan.organizer generator) sound tidy makes.still nonempty
    refine ((run_abides sound tidy blocks agrees batch nonempty within makes).and gains).yields ?_ ?_
    · rintro _ g ⟨⟨abides, all⟩, gains⟩
      exact ⟨abides, gains, all⟩
    · rintro e g ⟨abides, -⟩
      exact abides

/-- Of stored contents those that are pending can be organized together. -/
theorem batch_pending (sound : h.Sound) (agrees : plan.Agrees h) (nodup : ids.Nodup)
    (valid : ∀ id ∈ ids, ObjectId.isValid id = true)
    (stored : plan.layout.objectStore.Holds h ids) (same : Quiet h g) :
    plan.Batch g (ids.filter ((plan.organizer generator).isPending h)) := by
  refine ⟨nodup.filter _, fun id member => valid id (List.mem_of_mem_filter member),
    fun id member => ?_⟩
  have member := List.mem_of_mem_filter member
  rw [contentAt?, look_of_sameFiles same.toSameFiles,
    agrees.object sound (valid id member) (stored id member)]

/-- When the stored contents that were pending have their symbol files, all have. -/
theorem holds_of_pending (sound : h.Sound) (agrees : plan.Agrees h)
    (valid : ∀ id ∈ ids, ObjectId.isValid id = true)
    (stored : plan.layout.objectStore.Holds h ids) (same : Quiet h g)
    (gains : plan.layout.Gains g k)
    (organized : plan.layout.tagStore.Holds k
      (ids.filter ((plan.organizer generator).isPending h))) :
    plan.layout.tagStore.Holds k ids := by
  intro id member
  cases pending : (plan.organizer generator).isPending h id with
  | true => exact organized id (List.mem_filter.mpr ⟨member, pending⟩)
  | false =>
      -- it was stored, so it was its symbol file that kept it from being pending
      have there : (h.look (plan.layout.tagStore.path id)).isOk = true := by
        simpa [Organizer.isPending, stored id member] using pending
      have before : g.contentAt? (plan.layout.tagStore.path id) = some (plan.symbolText id) := by
        rw [contentAt?, look_of_sameFiles same.toSameFiles,
          agrees.symbolFile sound (valid id member) there]
      obtain ⟨x, found⟩ := exists_look_of_contentAt? (gains.kept (valid id member) before)
      rw [found]
      rfl

include within in
/-- Of stored contents those without a symbol file are organized. -/
theorem organize_settles (abides : plan.Abides besideStores h g)
    (stored : plan.layout.objectStore.Holds g ids) (tidy : plan.layout.Tidy) (blocks : plan.Blocks)
    (nodup : ids.Nodup) (valid : ∀ id ∈ ids, ObjectId.isValid id = true)
    (makes : plan.Makes usual generator) (created : Nat) :
    (Pipeline.organize (plan.organizer generator) ids created).Yields g
      (fun _ => plan.Settled ids h) (plan.Leaves h) := by
  refine Pipeline.organize_of_run ids created fun k same => ?_
  have ready := abides.quiet same
  have batch : plan.Batch k (ids.filter ((plan.organizer generator).isPending g)) :=
    batch_pending abides.sound abides.agrees nodup valid stored same
  refine (run_pending (fun usual => within (ready.spares.usual.trans usual)) ready.sound tidy
    blocks ready.agrees batch makes).mono ?_ fun _ more =>
      (ready.trans (more.fewer (by decide))).leaves (by decide)
  rintro _ m ⟨more, gains, all⟩
  exact ⟨ready.trans (more.fewer (by decide)),
    more.spares.objects ready.sound (by decide) valid (stored.sameFiles same.toSameFiles),
    holds_of_pending abides.sound abides.agrees valid stored same gains all⟩

end

/-- The list of names is no planned file. -/
theorem listNames_settled (settled : plan.Settled ids h g)
    (valid : ∀ id ∈ ids, ObjectId.isValid id = true) (pending : List Bytes) :
    (Pipeline.listNames plan.layout pending).Yields g (fun _ => plan.Settled ids h)
      (plan.Leaves h) := by
  refine (Pipeline.listNames_yields settled.sound plan.layout pending (by decide : _ ∉ parts)
    (by decide)).mono (fun _ _ listed => settled.spared valid listed.1)
      fun m (spares : plan.layout.Spares parts g m) => ?_
  exact (settled.spared valid spares).leaves (by decide)

/-! ## Comparing the versions -/

section

variable {c : Comparison} {known : Tag → List FileEntry × Option Fault}

/-- A comparison of the planned versions makes planned diffs, and all of them if it succeeds. -/
theorem compare_agrees (layout : c.layout = plan.layout)
    (met : ∀ tag, plan.orders tag (c.order tag)) (sound : g.Sound) (agrees : plan.Agrees g)
    (version : ∀ tag ∈ plan.tags, c.version known g tag = plan.version tag)
    (steady : c.walker.source.Steady (plan.layout.Usual g) known)
    (cold : g.tally.cache.entries = []) (names : ∀ tag ∈ plan.tags, IsName (Tag.fileName tag.name)) :
    (c.run plan.tags).Ends g fun r k => (∃ made, c.Reached g made k) ∧ plan.Agrees k ∧
      (r.isOk = true → ∀ tag ∈ plan.tags, (k.look (plan.layout.diff tag.name)).isOk = true) := by
  rw [← layout] at steady
  refine (Comparison.run_ends sound steady (by simp [cold]) names).mono ?_
  rintro r k ⟨part, isPart, reached, whole, apart⟩
  refine ⟨⟨part, reached⟩, ?_, fun success tag member => ?_⟩
  · refine agrees.of_adds (layout ▸ reached.toAdds) (plan.layout.locate_diffs g)
      fun e member text wants => ?_
    obtain ⟨i, inside, -, rfl⟩ :=
      (Comparison.mem_due_iff c _ g plan.tags e {}).mp (isPart.subset member)
    have planned : Comparison.rendering (c.order plan.tags[i])
        (Comparison.versionBefore (c.version known g) {} plan.tags i)
        (c.version known g plan.tags[i]) = plan.diffText (c.order plan.tags[i]) i := by
      rw [diffText, List.getElem?_eq_getElem inside, Comparison.versionBefore_congr version,
        version _ (List.getElem_mem inside)]
      rfl
    rw [planned]
    exact .diff inside (met _)
  · obtain ⟨i, inside, rfl⟩ := List.getElem_of_mem member
    rw [← layout]
    cases missing : (g.look (c.layout.diff plan.tags[i].name)).isOk with
    | false =>
        have isDue := (Comparison.mem_due_iff c (c.version known g) g plan.tags _ {}).mpr
          ⟨i, inside, missing, rfl⟩
        rw [← whole success] at isDue
        have made : k.look (c.layout.diff plan.tags[i].name) = _ := reached.look_of_mem isDue
        rw [made]
        rfl
    | true => exact reached.isOk_look sound missing

/-- When the symbol files of all files are there, the versions that are compared are those that are
planned. -/
theorem compare_completes (layout : c.layout = plan.layout)
    (met : ∀ tag, plan.orders tag (c.order tag)) (settled : plan.Settled ids h g)
    (valid : ∀ id ∈ ids, ObjectId.isValid id = true)
    (files : ∀ tag ∈ plan.tags, ∀ e ∈ plan.files tag, e.id ∈ ids)
    (version : ∀ tag, c.version known g tag =
      Table.ofLoads (plan.layout.finds g (plan.files tag)))
    (steady : c.walker.source.Steady (plan.layout.Usual g) known)
    (cold : g.tally.cache.entries = []) (names : ∀ tag ∈ plan.tags, IsName (Tag.fileName tag.name)) :
    (c.run plan.tags).Yields g (fun _ k => plan.Leaves h k ∧ plan.Complete ids k)
      (plan.Leaves h) := by
  have planned : ∀ tag ∈ plan.tags, c.version known g tag = plan.version tag := by
    intro tag member
    rw [version, settled.agrees.finds settled.sound fun e isFile =>
      ⟨valid _ (files tag member e isFile), settled.organized _ (files tag member e isFile)⟩]
    rfl
  have after : ∀ {k}, (∃ made, c.Reached g made k) → plan.Agrees k → plan.Leaves h k ∧
      plan.layout.objectStore.Holds k ids ∧ plan.layout.tagStore.Holds k ids := by
    rintro k ⟨made, reached⟩ agrees
    have apart : ¬ g.locate c.layout.diffs <+: g.locate plan.layout.metaFile ∧
        ¬ g.locate plan.layout.metaFile <+: g.locate c.layout.diffs := by
      rw [layout, plan.layout.locate_metaFile, plan.layout.locate_diffs,
        List.prefix_append_right_inj, List.prefix_append_right_inj]
      decide
    have beside := reached.get?_beside apart.1 apart.2
    rw [locate_of_folder settled.spares.folder] at beside
    exact ⟨⟨⟨reached.sound, settled.spares.usual.trans (layout ▸ reached.usual), agrees⟩,
        beside.trans (settled.toAbides.leaves (by decide)).outcome⟩,
      settled.stored.adds settled.sound reached.toAdds, settled.organized.adds settled.sound reached.toAdds⟩
  refine (compare_agrees layout met settled.sound settled.agrees planned steady cold names).yields ?_ ?_
  · rintro _ k ⟨reached, agrees, compared⟩
    obtain ⟨leaves, stored, organized⟩ := after reached agrees
    exact ⟨leaves, stored, organized, compared rfl⟩
  · rintro e k ⟨reached, agrees, -⟩
    exact (after reached agrees).1

end

end Plan

/-! ## A whole pass -/

namespace Pipeline

section

variable {p : Project} {all : List Tag} {known : Tag → List FileEntry × Option Fault}
  {orders : Tag → Enumeration → Prop} {blob block : Bytes → Bytes} {h g : Host}

theorem mem_contentIds {id : Bytes} :
    id ∈ p.contentIds all known ↔ ∃ tag ∈ p.selected all, ∃ e ∈ p.files known tag, e.id = id := by
  simp only [Project.contentIds, Extractor.mem_gather, List.not_mem_nil, false_or, List.mem_flatMap]
  exact ⟨fun ⟨e, ⟨tag, isTag, isFile⟩, same⟩ => ⟨tag, isTag, e, isFile, same⟩,
    fun ⟨tag, isTag, e, isFile, same⟩ => ⟨e, ⟨tag, isTag, isFile⟩, same⟩⟩

/-- On a machine that does anything at all a pass has somebody to do it. -/
theorem workerCount_pos (c : Config) (workers : Int) (busy : 0 < h.processors) :
    0 < workerCount c workers h := by
  rw [workerCount]
  split
  · omega
  · rw [Extractor.workerCount]
    split
    · omega
    · exact busy

/-- What a pass comes to is no planned file. -/
theorem writeMeta_completes (leaves : (p.plan all known orders blob block).Leaves h g)
    (complete : (p.plan all known orders blob block).Complete (p.contentIds all known) g)
    (valid : ∀ id ∈ p.contentIds all known, ObjectId.isValid id = true)
    (names : ∀ tag ∈ p.indexed all known, IsName (Tag.fileName tag.name)) (outcome : Outcome)
    (now : Timestamp) :
    (writeMeta p outcome now).Yields g
      (fun _ m => ∀ n, Quiet m n → (p.plan all known orders blob block).Follows h n ∧
        (p.plan all known orders blob block).Complete (p.contentIds all known) n)
      ((p.plan all known orders blob block).Leaves h) := by
  refine (writeMeta_yields leaves.sound outcome now).mono (fun _ m spares n same => ?_)
    fun m (spares : p.layout.Spares Plan.parts g m) => leaves.spared spares
  have spares := spares.quiet same
  exact ⟨leaves.toFollows.spared spares (by decide),
    complete.spared leaves.sound valid names spares (by decide)⟩

/-- A pass does nothing against the plan, and if it succeeds nothing that is planned is missing. -/
theorem stages_follow {source : Source} {generator : Generator} (sound : h.Sound)
    (tidy : p.layout.Tidy) (busy : 0 < h.processors) (empty : h.tally.cache.entries = [])
    (agrees : (p.plan all known orders blob block).Agrees h)
    (blocks : (p.plan all known orders blob block).Blocks)
    (fixed : source.Fixed (p.layout.Usual h) all known)
    (supplies : source.Supplies (p.layout.Usual h) blob)
    (makes : (p.plan all known orders blob block).Makes (p.layout.Usual h) generator)
    (valid : ∀ id ∈ p.contentIds all known, ObjectId.isValid id = true)
    (names : ∀ tag ∈ p.indexed all known, IsName (Tag.fileName tag.name)) (tools : Tools)
    (met : ∀ tag, orders tag (tools.order tag)) (runId : Bytes) :
    (stages p source generator tools p.fileFilter runId).Yields h
      (fun _ g => (p.plan all known orders blob block).Follows h g ∧
        (p.plan all known orders blob block).Complete (p.contentIds all known) g)
      ((p.plan all known orders blob block).Leaves h) := by
  let plan := p.plan all known orders blob block
  let ids := p.contentIds all known
  let x := extractor p source tools h
  have start : plan.Abides Plan.besideStores h h := ⟨agrees, .refl sound⟩
  have extract : ∀ g, Quiet h g → (x.writeObjects ids).Yields g
      (fun _ k => plan.Abides Plan.besideStores h k ∧ plan.layout.objectStore.Holds k ids)
      (plan.Leaves h) := fun g same =>
    Plan.store_abides (fun usual => usual) (start.quiet same) rfl
      (Int.natCast_pos.mpr (workerCount_pos p.config tools.workers busy)) supplies ids
  have organize : ∀ g k created,
      (plan.Abides Plan.besideStores h g ∧ plan.layout.objectStore.Holds g ids) → Quiet g k →
      (organize ⟨p.layout, generator⟩ ids created).Yields k (fun _ => plan.Settled ids h)
        (plan.Leaves h) := fun g k created stored same =>
    Plan.organize_settles (fun usual => usual) (stored.1.quiet same)
      (stored.2.sameFiles same.toSameFiles) tidy blocks (Extractor.gather_nodup _) valid makes created
  have compare : ∀ g k, plan.Settled ids h g → Quiet g k →
      (({ layout := p.layout, walker := .filtered x, order := tools.order } : Comparison).run
        (p.indexed all known)).Yields k
        (fun _ m => plan.Leaves h m ∧ plan.Complete ids m) (plan.Leaves h) := by
    intro g k settled same
    have settled := settled.quiet same
    have steady : source.Steady (plan.layout.Usual k) known :=
      fixed.steady.mono fun usual => settled.spares.usual.trans usual
    refine Plan.compare_completes (c := ⟨p.layout, .filtered x, tools.order⟩) rfl met settled valid
      (fun tag member e isFile => ?_) (fun _ => rfl) steady ?_ names
    · exact mem_contentIds.mpr ⟨tag, List.mem_of_mem_filter member, e, isFile, rfl⟩
    · rw [settled.spares.cache, empty]
  refine stages_of_stages x rfl (fixed.mono fun same => .sameFiles same.toSameFiles) extract organize
    (fun pending g k settled same => Plan.listNames_settled (settled.quiet same) valid pending)
    compare (fun g k outcome ended same _ => ?_)
    (fun leaves same => leaves.sameFiles same.toSameFiles)
    (fun same => (start.quiet same).leaves (by decide)) runId
  exact writeMeta_completes (ended.1.sameFiles same.toSameFiles)
    (ended.2.sameFiles same.toSameFiles) valid names outcome tools.now

/-- A pass works with fixed versions and their contents, and with tables of one block per content. -/
structure Tools.Provides (tools : Tools) (p : Project) (usual : Host → Prop) (all : List Tag)
    (known : Tag → List FileEntry × Option Fault) (orders : Tag → Enumeration → Prop)
    (blob block : Bytes → Bytes) : Prop where
  source : ∀ h, usual h → (tools.source.elim (openSource p.config) pure).Yields h
    (fun source g => Quiet h g ∧ source.Fixed usual all known ∧ source.Supplies usual blob) (Quiet h)
  generator : ∀ generator, tools.generator.elim (chooseGenerator tools.grammar p.config) .ok = .ok generator →
    (p.plan all known orders blob block).Makes usual generator
  order : ∀ tag, orders tag (tools.order tag)

theorem Tools.Provides.serves {tools : Tools} {usual : Host → Prop}
    (provides : tools.Provides p usual all known orders blob block) :
    tools.Serves p usual all known where
  source h isUsual := (provides.source h isUsual).mono (fun _ _ ended => ⟨ended.1, ended.2.1⟩)
    fun _ same => same
  generator generator isGenerator := (provides.generator generator isGenerator).still

/-- However a pass ends it has done nothing against the plan.  One that succeeds leaves nothing of
the plan out, and one that is cut off has not written what it came to. -/
theorem run_follows {usual : Host → Prop} {tools : Tools} (sound : h.Sound) (tidy : p.layout.Tidy)
    (busy : 0 < h.processors) (within : ∀ {g}, p.layout.Usual h g → usual g)
    (agrees : (p.plan all known orders blob block).Agrees h)
    (blocks : (p.plan all known orders blob block).Blocks)
    (provides : tools.Provides p usual all known orders blob block)
    (valid : ∀ id ∈ p.contentIds all known, ObjectId.isValid id = true)
    (names : ∀ tag ∈ p.indexed all known, IsName (Tag.fileName tag.name)) :
    (run p tools).Yields h
      (fun _ g => (p.plan all known orders blob block).Follows h g ∧
        (p.plan all known orders blob block).Complete (p.contentIds all known) g)
      ((p.plan all known orders blob block).Leaves h) := by
  have start : (p.plan all known orders blob block).Leaves h h := ⟨⟨sound, .refl _ _, agrees⟩, rfl⟩
  refine run_of_stages (fun g same => provides.source g (within (.sameFiles same.toSameFiles)))
    provides.generator (fun m source generator runId same processors empty provided makes => ?_)
    (fun ended same => ⟨ended.1.sameFiles same, ended.2.sameFiles same⟩)
    (fun leaves same => leaves.sameFiles same) fun same => start.sameFiles same.toSameFiles
  have within : ∀ {g}, p.layout.Usual m g → usual g := fun usual =>
    within ((Layout.Usual.sameFiles same).trans usual)
  refine (stages_follow (same.sound sound) tidy (processors ▸ busy) (by rw [empty]; rfl) (agrees.of_sameFiles same)
    blocks (provided.1.mono within) (provided.2.mono within) (makes.mono within) valid names tools
    provides.order runId).mono ?_ fun _ leaves => leaves.sameFiles_before same
  exact fun _ g ended => ⟨ended.1.sameFiles_before same, ended.2⟩

/-! ## Pass after pass -/

/-- Passes one after another, however each of them ended.  Between them the files stay. -/
inductive Attempts (p : Project) (usual : Host → Prop) (all : List Tag)
    (known : Tag → List FileEntry × Option Fault) (orders : Tag → Enumeration → Prop)
    (blob block : Bytes → Bytes) : Host → Host → Prop where
  | none (h : Host) : Attempts p usual all known orders blob block h h
  | call {h g g' k : Host} {tools : Tools} {outcome : Except Fault Outcome}
      (earlier : Attempts p usual all known orders blob block h g) (same : SameFiles g g')
      (busy : 0 < g'.processors) (provides : tools.Provides p usual all known orders blob block)
      (ended : (run p tools).on g' = (outcome, k)) : Attempts p usual all known orders blob block h k

/-- After any passes, however they ended, the project has kept to its plan. -/
theorem Attempts.follows {usual : Host → Prop} (tidy : p.layout.Tidy)
    (attempts : Attempts p usual all known orders blob block h g) (sound : h.Sound)
    (within : ∀ {g}, p.layout.Usual h g → usual g)
    (agrees : (p.plan all known orders blob block).Agrees h)
    (blocks : (p.plan all known orders blob block).Blocks)
    (valid : ∀ id ∈ p.contentIds all known, ObjectId.isValid id = true)
    (names : ∀ tag ∈ p.indexed all known, IsName (Tag.fileName tag.name)) :
    (p.plan all known orders blob block).Follows h g := by
  induction attempts with
  | none => exact ⟨sound, .refl _ _, agrees⟩
  | call earlier same busy provides ended ih =>
      rename_i g g' k tools outcome
      have follows := ih.sameFiles same
      have ran := (run_follows follows.sound tidy busy
        (fun usual => within (follows.usual.trans usual)) follows.agrees blocks provides valid
        names).holds
      rw [ended] at ran
      have further : (p.plan all known orders blob block).Follows g' k := by
        cases outcome with
        | ok _ => exact ran.1
        | error _ => exact ran.toFollows
      exact ⟨further.sound, follows.usual.trans further.usual, further.agrees⟩

/-- On both hosts there is the same file under a path. -/
def Shared (g g' : Host) (path : Bytes) : Prop :=
  ∃ text, g.look path = .ok (.file text false) ∧ g'.look path = .ok (.file text false)

/-- On both hosts there is a diff under a path, and they have the same records in some order. -/
def SameRecords (g g' : Host) (path : Bytes) : Prop :=
  ∃ records records' : List Record, records.Perm records' ∧
    g.look path = .ok (.file (Record.writeAll records) false) ∧
    g'.look path = .ok (.file (Record.writeAll records') false)

/-- Nothing of a project has been stored, organized or compared. -/
def Fresh (p : Project) (h : Host) : Prop :=
  ∀ name ∈ Plan.folders, ∀ file, h.tree.get? (h.locate p.layout.root ++ [name, file]) = none

/-- Tags that are indexed share no diff. -/
theorem eq_of_indexed {i j : Nat} {inside : i < (p.indexed all known).length}
    {inside' : j < (p.indexed all known).length}
    (same : Tag.fileName (p.indexed all known)[i].name =
      Tag.fileName (p.indexed all known)[j].name) : i = j := by
  have distinct : ((p.indexed all known).map Tag.file).Nodup :=
    ((Tag.splitCollisions_kept _ []).1).sublist (List.filter_sublist.map _)
  exact Comparison.eq_of_fileName_eq (List.pairwise_map.mp distinct) same

section

variable {g' h' : Host} (valid : ∀ id ∈ p.contentIds all known, ObjectId.isValid id = true)
  (follows : (p.plan all known orders blob block).Follows h g)
  (complete : (p.plan all known orders blob block).Complete (p.contentIds all known) g)
  (follows' : (p.plan all known orders blob block).Follows h' g')
  (complete' : (p.plan all known orders blob block).Complete (p.contentIds all known) g')

include valid follows complete follows' complete' in
/-- Two projects that have kept to the same plan and of which nothing is missing have the same
contents and symbol files. -/
theorem shared_of_complete {id : Bytes} (member : id ∈ p.contentIds all known) :
    Shared g g' (p.layout.objectStore.path id) ∧ Shared g g' (p.layout.tagStore.path id) :=
  ⟨⟨_, follows.agrees.object follows.sound (valid _ member) (complete.stored _ member),
      follows'.agrees.object follows'.sound (valid _ member) (complete'.stored _ member)⟩,
    ⟨_, follows.agrees.symbolFile follows.sound (valid _ member) (complete.organized _ member),
      follows'.agrees.symbolFile follows'.sound (valid _ member) (complete'.organized _ member)⟩⟩

include valid follows complete in
/-- When nothing is missing, the versions by the symbol files are those that are planned. -/
theorem version_of_complete {tag : Tag} (indexed : tag ∈ p.indexed all known) :
    p.version known g tag = (p.plan all known orders blob block).version tag := by
  have settled : ∀ e ∈ p.files known tag, ObjectId.isValid e.id = true ∧
      (g.look (p.layout.tagStore.path e.id)).isOk = true := by
    intro e isFile
    have member : e.id ∈ p.contentIds all known :=
      mem_contentIds.mpr ⟨tag, List.mem_of_mem_filter indexed, e, isFile, rfl⟩
    exact ⟨valid _ member, complete.organized _ member⟩
  exact congrArg Table.ofLoads (follows.agrees.finds follows.sound settled)

include follows complete in
/-- Every diff is a planned one, made in some order of symbols. -/
theorem diff_of_complete {i : Nat} (inside : i < (p.indexed all known).length)
    (isName : IsName (Tag.fileName (p.indexed all known)[i].name)) {order : Enumeration}
    (met : orders (p.indexed all known)[i] order) :
    ∃ order, orders (p.indexed all known)[i] order ∧
      g.look (p.layout.diff (p.indexed all known)[i].name) =
        .ok (.file ((p.plan all known orders blob block).diffText order i) false) := by
  have wants : (p.plan all known orders blob block).Wants _ _ := .diff (i := i) inside met
  obtain ⟨text, wanted, found⟩ := follows.agrees.look follows.sound wants
    (p.layout.locate_diff_root g isName) (complete.compared _ (List.getElem_mem inside))
  obtain ⟨j, inside', order, same, met, rfl⟩ := wanted.exists_diff
  obtain rfl := eq_of_indexed same
  exact ⟨order, met, found⟩

include valid follows complete follows' complete' in
/-- Their diffs have the same records, and they are the same if symbols are met in one order or no
ids clash. -/
theorem diffs_of_complete {tag : Tag} (indexed : tag ∈ p.indexed all known)
    (isName : IsName (Tag.fileName tag.name)) {order₀ : Enumeration} (met₀ : orders tag order₀) :
    SameRecords g g' (p.layout.diff tag.name) ∧
      ((∀ order order', orders tag order → orders tag order' → order = order') ∨
        (∀ tag ∈ p.indexed all known, (p.version known g tag).Clear) →
          Shared g g' (p.layout.diff tag.name)) := by
  obtain ⟨i, inside, rfl⟩ := List.getElem_of_mem indexed
  obtain ⟨order, met, found⟩ := diff_of_complete follows complete inside isName met₀
  obtain ⟨order', met', found'⟩ := diff_of_complete follows' complete' inside isName met₀
  let plan := p.plan all known orders blob block
  have inside : i < plan.tags.length := inside
  have distinct : ∀ tag, (plan.version tag).Distinct := fun _ => Table.distinct_ofLoads _
  have before : (Comparison.versionBefore plan.version {} plan.tags i).Distinct :=
    Comparison.versionBefore_of (Table.distinct_ofLoads []) (fun tag _ => distinct tag) i
  have text : ∀ order, plan.diffText order i = Comparison.rendering order
      (Comparison.versionBefore plan.version {} plan.tags i) (plan.version plan.tags[i]) := by
    intro order
    rw [Plan.diffText, List.getElem?_eq_getElem inside, Option.map_some, Option.getD_some]
  constructor
  · obtain ⟨records, records', perm, is, is'⟩ :=
      Comparison.rendering_perm order order' before (distinct plan.tags[i])
    refine ⟨records, records', perm, ?_, ?_⟩
    · rw [found, ← is, ← text]
    · rw [found', ← is', ← text]
  · intro settled
    have same : plan.diffText order i = plan.diffText order' i := by
      rcases settled with one | clear
      · rw [one order order' met met']
      · have clear : ∀ tag ∈ plan.tags, (plan.version tag).Clear := fun tag member =>
          version_of_complete valid follows complete member ▸ clear tag member
        rw [text, text]
        exact Comparison.rendering_eq order order' before (distinct _)
          (Comparison.versionBefore_of (Table.clear_of_length (by decide)) clear i)
          (clear _ (List.getElem_mem inside))
    exact ⟨_, found, same ▸ found'⟩

end

end

/-! ## A project that is begun twice -/

/-- One version of one file, with its content. -/
def begunSource : MemorySource :=
  { mendedSource with blobs := [(mendedId, lit "int alpha(void) \x7b\n\x7d\n")] }

/-- The part of a table that speaks of a file. -/
def begunBlock (path : Bytes) : Bytes :=
  if path = Layout.objectRef mendedId then mendedTable else []

/-- Tools whose tables have one block per file; the generator may break down at the end. -/
def begunTools (failure : Option Fault) : Tools where
  source := some (.memory begunSource)
  generator := some fun _ paths => pure { text := (paths.map begunBlock).flatten, failure }
  workers := 1
  now := .zero

/-- In a first pass the generator breaks down when the content has been stored. -/
def begun : Host := ((run mendedProject (begunTools (some .deadline))).on {}).2

/-- A second pass comes to its end. -/
def finished : Host := ((run mendedProject (begunTools none)).on begun).2

/-- A project that is made in one pass. -/
def madeAtOnce : Host := ((run mendedProject (begunTools none)).on {}).2

/-- The content that the source has of an id. -/
def begunBlob (id : Bytes) : Bytes := (begunSource.blob id).toOption.getD []

theorem begunTools_provides (failure : Option Fault) (usual : Host → Prop) :
    (begunTools failure).Provides mendedProject usual mendedSource.tags (Source.answer begunSource)
      (fun _ _ => True) begunBlob (fun id => begunBlock (Layout.objectRef id)) where
  source h _ := by
    refine (yields_pure _ _ _ _).mpr ⟨quiet_lasting.refl h, Source.memory_fixed begunSource usual,
      Source.memory_supplies (fun id data found => ?_) usual⟩
    rw [begunBlob, found]
    rfl
  generator := by
    rintro generator isGenerator
    cases isGenerator
    refine ⟨fun _ _ => Keeps.pure quiet_lasting _, fun {h ids text} _ _ made => ?_⟩
    obtain rfl : ((ids.map Layout.objectRef).map begunBlock).flatten = text :=
      congrArg Generator.Output.text (Except.ok.inj made)
    rw [List.map_map]
    rfl
  order _ := trivial

theorem begunBlock_isBlock (id : Bytes) :
    TagTable.IsBlock (Layout.objectRef id) (begunBlock (Layout.objectRef id)) := by
  rw [begunBlock]
  split
  · rename_i same
    rw [same]
    decide +kernel
  · exact TagTable.isBlock_nil _

theorem empty_fresh (p : Project) : Fresh p {} := by
  intro name _ file
  rw [FileTree.get?, if_neg (by simp)]
  rfl

theorem begun_ends : ((run mendedProject (begunTools (some .deadline))).on {}).1.isOk = false ∧
    0 < begun.processors := by
  decide +kernel

theorem begun_pass : ∃ fault,
    (run mendedProject (begunTools (some .deadline))).on {} = (.error fault, begun) := by
  rw [begun]
  exact on_of_isOk_false begun_ends.1

theorem finished_pass : ∃ outcome,
    (run mendedProject (begunTools none)).on begun = (.ok outcome, finished) := by
  rw [finished]
  exact on_of_isOk (by decide +kernel)

theorem madeAtOnce_pass : ∃ outcome,
    (run mendedProject (begunTools none)).on {} = (.ok outcome, madeAtOnce) := by
  rw [madeAtOnce]
  exact on_of_isOk (by decide +kernel)

end Pipeline

end SymbolHistory
